import LibSources.ClientRead

/-!
# Discarding a whole reply

`cli_flush_use_result` with `flush_all_results` set throws away what is left of a reply while one
of its result sets is being read row by row. It takes an OK packet for the last packet of the
reply, whatever the status of that packet announces.

## Main results

* `cliFlushAllResults_iff`: the replies that are read to their end.
-/

namespace LibSources

open Nat List Option

def optFlushOkPacket (mysql : Mysql) : Option (Option Bool × Mysql) := do
  let (next, mysql) ← cliSafeRead mysql
  match next with
  | none => some (none, mysql)
  | some packet =>
    if byteAt packet 0 = 0 then
      let pos := (netFieldLengthLl (byteAt packet) (netFieldLengthLl (byteAt packet) 1).2).2
      some (some true, { mysql with
        serverStatus := (uint2korr (byteAt packet) pos).toUInt16
        warningCount := if mysql.protocol41 then uint2korr (byteAt packet) (pos + 2)
          else mysql.warningCount })
    else some (some false, mysql)

/-- The loop of `cli_flush_use_result`. Every round reads a packet, so `fuel` bounds the number
of rounds. -/
def flushResults : ℕ → Mysql → Option Mysql
  | 0, _ => none
  | fuel + 1, mysql =>
    if mysql.MoreResults then do
      let (isOkPacket, mysql) ← optFlushOkPacket mysql
      if isOkPacket = some false then
        let (failed, mysql) ← flushOneResult mysql
        if failed then some mysql
        else
          let (failed, mysql) ← flushOneResult mysql
          if failed then some mysql else flushResults fuel mysql
      else some mysql
    else some mysql

def cliFlushAllResults (mysql : Mysql) : Option Mysql := do
  let (failed, mysql) ← flushOneResult mysql
  if failed then some mysql else flushResults (mysql.incoming.length + 1) mysql

section

variable (protocol41 clientTransactions : Bool)

inductive UpToOk : ReplyPosition → List (List UInt8) → List (List UInt8) → Prop where
  | error {position : ReplyPosition} {packet : List UInt8} (h : IsError packet) :
      UpToOk position [packet] []
  | ok {more : Bool} {packet : List UInt8} {rest : List (List UInt8)}
      (h : IsOk protocol41 clientTransactions more packet) : UpToOk .start (packet :: rest) rest
  | header {fields : ℕ} {rest behind : List (List UInt8)} (hpos : fields ≠ 0)
      (hrest : UpToOk (.columns fields fields) rest behind) :
      UpToOk .start (netStoreLength fields :: rest) behind
  | column {left fields : ℕ} {packet : List UInt8} {rest behind : List (List UInt8)}
      (h : IsRow (if protocol41 then 7 else 5) packet)
      (hrest : UpToOk (.columns left fields) rest behind) :
      UpToOk (.columns (left + 1) fields) (packet :: rest) behind
  | columnsEof {fields : ℕ} {more : Bool} {packet : List UInt8} {rest behind : List (List UInt8)}
      (h : IsEof protocol41 more packet) (hrest : UpToOk (.rows fields) rest behind) :
      UpToOk (.columns 0 fields) (packet :: rest) behind
  | row {fields : ℕ} {packet : List UInt8} {rest behind : List (List UInt8)}
      (h : IsRow fields packet) (hrest : UpToOk (.rows fields) rest behind) :
      UpToOk (.rows fields) (packet :: rest) behind
  | eof {fields : ℕ} {packet : List UInt8} (h : IsEof protocol41 false packet) :
      UpToOk (.rows fields) [packet] []
  | eofMore {fields : ℕ} {packet : List UInt8} {rest behind : List (List UInt8)}
      (h : IsEof protocol41 true packet) (hrest : UpToOk .start rest behind) :
      UpToOk (.rows fields) (packet :: rest) behind

end

variable {protocol41 clientTransactions : Bool} {position : ReplyPosition} {fields : ℕ}
  {reply rest behind : List (List UInt8)} {mysql : Mysql}

theorem WellFormed.exists_upToOk (h : WellFormed protocol41 clientTransactions position reply) :
    ∃ behind, UpToOk protocol41 clientTransactions position reply behind := by
  induction h with
  | error h => exact ⟨_, .error h⟩
  | ok h => exact ⟨_, .ok h⟩
  | okMore h _ _ => exact ⟨_, .ok h⟩
  | header hpos _ _ ih => exact ih.imp fun _ => .header hpos
  | column h _ ih => exact ih.imp fun _ => .column h
  | columnsEof h _ ih => exact ih.imp fun _ => .columnsEof h
  | row h _ ih => exact ih.imp fun _ => .row h
  | eof h => exact ⟨_, .eof h⟩
  | eofMore h _ ih => exact ih.imp fun _ => .eofMore h

/-! ### Flushing -/

/-- `rest` is left when the loop of `cli_flush_use_result` is over. -/
def Flushes (rest : List (List UInt8)) (mysql : Mysql) : Prop :=
  ∀ fuel, mysql.incoming.length < fuel →
    ∃ mysql', flushResults fuel mysql = some mysql' ∧ mysql'.incoming = rest

/-- What `cli_flush_use_result` does at a position inside a reply leaves `rest`. -/
def FlushesAt (rest : List (List UInt8)) : ReplyPosition → Mysql → Prop
  | .start => fun mysql => mysql.MoreResults → Flushes rest mysql
  | .columns _ _ => FlushesOne (FlushesOne (Flushes rest) rest) rest
  | .rows _ => FlushesOne (Flushes rest) rest

theorem UpToOk.flushesAt (h : UpToOk protocol41 clientTransactions position reply behind)
    (hp : mysql.protocol41 = protocol41) (hold : mysql.SingleBefore41)
    (hin : mysql.incoming = reply ++ rest) : FlushesAt (behind ++ rest) position mysql := by
  induction h generalizing mysql with
  | @error position packet h =>
    cases position with
    | start =>
      rintro hmore (_ | fuel) hfuel
      · omega
      obtain ⟨bytes, rfl⟩ := h
      obtain ⟨mysql', hread, -, hin', -⟩ := cliSafeRead_error hin (succ_ne_zero _) rfl
      refine ⟨mysql', ?_, hin'⟩
      rw [flushResults, if_pos hmore, optFlushOkPacket, hread]
      rfl
    | columns left fields => exact .error h hin
    | rows fields => exact .error h hin
  | ok h =>
    rintro hmore (_ | fuel) hfuel
    · omega
    obtain ⟨affectedRows, insertId, warnings, status, info, -, -, rfl, -⟩ := h
    rw [flushResults, if_pos hmore, optFlushOkPacket,
      cliSafeRead_packet hin (succ_ne_zero _) (by decide : (0 : UInt8) ≠ 255)]
    exact ⟨_, rfl, rfl⟩
  | @header fields reply behind hpos hrest ih =>
    rintro hmore (_ | fuel) hfuel
    · omega
    obtain ⟨b, bytes, heq, -, herr, hzero, -⟩ := netStoreLength_eq_cons fields
    rw [heq] at hin
    set mysql1 : Mysql :=
      { mysql with incoming := reply ++ rest, trace := mysql.trace ++ [.read (b :: bytes)] }
    have hread : cliSafeRead mysql = some (some (b :: bytes), mysql1) :=
      cliSafeRead_packet hin (succ_ne_zero _) herr
    have hopt : optFlushOkPacket mysql = some (some false, mysql1) := by
      rw [optFlushOkPacket, hread]
      exact if_neg fun h => hpos (hzero h)
    obtain ⟨failed, mysql', hone, R, -, hend⟩ := @ih mysql1 hp hold rfl _ (lt_succ_self _)
    have hlen := R.length_le
    rw [hin, cons_append, length_cons] at hfuel
    rw [flushResults, if_pos hmore, hopt, bind_eq_bind, bind_some]
    dsimp only
    rw [if_pos rfl, flushOneResult, hone, bind_eq_bind, bind_some]
    cases failed with
    | true => exact ⟨mysql', rfl, hend.1⟩
    | false =>
      obtain ⟨failed, mysql'', hone', R', -, hend⟩ := hend _ (lt_succ_self _)
      rw [if_neg Bool.false_ne_true, flushOneResult, hone', bind_some]
      cases failed with
      | true => exact ⟨mysql'', rfl, hend.1⟩
      | false => exact hend fuel ((R'.length_le.trans hlen).trans_lt (lt_of_succ_lt_succ hfuel))
  | column h hrest ih => exact .row h hin (ih hp hold rfl)
  | columnsEof h hrest ih =>
    subst hp
    exact .eof h hold hin fun _ R hold' hin' _ => ih R.protocol41_eq hold' hin'
  | row h hrest ih => exact .row h hin (ih hp hold rfl)
  | eof h =>
    subst hp
    refine .eof h hold hin fun mysql' _ _ hin' hmore => ?_
    rintro (_ | fuel) hfuel
    · omega
    exact ⟨mysql', if_neg fun h => Bool.false_ne_true (hmore.mp h), hin'⟩
  | eofMore h hrest ih =>
    subst hp
    exact .eof h hold hin fun _ R hold' hin' hmore => ih R.protocol41_eq hold' hin' (hmore.mpr rfl)

/-- `cli_flush_use_result` reads all of the reply, and nothing of what comes behind it, exactly
if there is nothing behind the first OK packet that is still to come in the reply. -/
theorem cliFlushAllResults_iff {next : List (List UInt8)}
    (h : WellFormed mysql.protocol41 mysql.clientTransactions (.rows fields) reply)
    (hold : mysql.SingleBefore41) (hin : mysql.incoming = reply ++ next) :
    ∃ mysql', cliFlushAllResults mysql = some mysql' ∧ (mysql'.incoming = next ↔
        UpToOk mysql.protocol41 mysql.clientTransactions (.rows fields) reply []) := by
  have hrun : ∀ {behind}, UpToOk mysql.protocol41 mysql.clientTransactions (.rows fields) reply
      behind → ∃ mysql', cliFlushAllResults mysql = some mysql' ∧
        mysql'.incoming = behind ++ next := by
    intro behind hup
    obtain ⟨failed, mysql₁, hone, -, -, hend⟩ := hup.flushesAt rfl hold hin _ (lt_succ_self _)
    rw [cliFlushAllResults, flushOneResult, hone, bind_eq_bind, bind_some]
    cases failed with
    | true => exact ⟨mysql₁, rfl, hend.1⟩
    | false => exact hend _ (lt_succ_self _)
  obtain ⟨behind, hup⟩ := h.exists_upToOk
  obtain ⟨mysql', heq, hin'⟩ := hrun hup
  refine ⟨mysql', heq, fun h => ?_, fun h => ?_⟩
  · rw [h, self_eq_append_left] at hin'
    rw [hin'] at hup
    exact hup
  obtain ⟨mysql'', heq', hin''⟩ := hrun h
  rw [Option.some.inj (heq.symm.trans heq')]
  exact hin''

def readingRows (incoming : List (List UInt8)) : Mysql :=
  ⟨incoming, [], true, true, .useResult, 8, 0, 0, 0, none, none, 1, none, 0, []⟩

theorem cliFlushAllResults_iff_lastOk :
    ∃ mysql', cliFlushAllResults (readingRows
        ([[1, 65], [254, 0, 0, 8, 0], [0, 0, 0, 2, 0, 0, 0]] ++ [[0, 1, 0, 2, 0, 0, 0]])) =
          some mysql' ∧
      (mysql'.incoming = [[0, 1, 0, 2, 0, 0, 0]] ↔
        UpToOk true true (.rows 1) [[1, 65], [254, 0, 0, 8, 0], [0, 0, 0, 2, 0, 0, 0]] []) :=
  @cliFlushAllResults_iff 1 _ (readingRows _) _ (.row ⟨by decide, by decide, [some [65]], rfl, rfl⟩
    (.eofMore ⟨0, 8, rfl, by decide⟩ (.ok ⟨0, 0, 0, 2, [], by decide, by decide, rfl, by decide,
      by decide⟩))) (fun h => absurd h (by decide)) rfl

/-- An OK packet that announces another result: the reply is left there. -/
theorem cliFlushAllResults_stops :
    WellFormed true true (.rows 1)
      [[254, 0, 0, 8, 0], [0, 0, 0, 8, 0, 0, 0], [0, 0, 0, 2, 0, 0, 0]] ∧
    ∃ mysql', cliFlushAllResults (readingRows
        [[254, 0, 0, 8, 0], [0, 0, 0, 8, 0, 0, 0], [0, 0, 0, 2, 0, 0, 0]]) = some mysql' ∧
      mysql'.incoming = [[0, 0, 0, 2, 0, 0, 0]] :=
  ⟨.eofMore ⟨0, 8, rfl, by decide⟩ (.okMore ⟨0, 0, 0, 8, [], by decide, by decide, rfl, by decide,
    by decide⟩ (.ok ⟨0, 0, 0, 2, [], by decide, by decide, rfl, by decide, by decide⟩)),
    _, rfl, rfl⟩

end LibSources
