import LibSources.ClientProtocol

/-!
# Reading a Well-Formed Reply

Each function that reads from the connection takes packets off a well-formed reply and stops
at a position from which the rest is well formed again.
-/

namespace LibSources

open Nat Bool List Option

variable {position : ReplyPosition} {mysql : Mysql} {packet : List UInt8}

/-! ### Positions of the client -/

section

variable (mysql : Mysql)

def Mysql.Follows (position : ReplyPosition) : Prop :=
  WellFormed mysql.protocol41 mysql.clientTransactions position mysql.incoming

/-- Between two results: the next result is to come if the status announces it, and nothing
otherwise. -/
def Mysql.Idle : Prop :=
  (mysql.MoreResults → mysql.Follows .start) ∧ (¬ mysql.MoreResults → mysql.incoming = [])

def Mysql.SingleBefore41 : Prop := mysql.protocol41 = false → ¬ mysql.MoreResults

end

/-- The packets between two states of the connection have been read. -/
structure Wire (mysql mysql' : Mysql) : Prop where
  read : ∃ packets, mysql.incoming = packets ++ mysql'.incoming ∧
    mysql'.trace = mysql.trace ++ packets.map .read
  protocol41_eq : mysql'.protocol41 = mysql.protocol41
  clientTransactions_eq : mysql'.clientTransactions = mysql.clientTransactions

/-- Reading does not change what the connection is used for. -/
structure Reads (mysql mysql' : Mysql) : Prop extends Wire mysql mysql' where
  status_eq : mysql'.status = mysql.status
  fieldCount_eq : mysql'.fieldCount = mysql.fieldCount

theorem Wire.refl (mysql : Mysql) : Wire mysql mysql := ⟨⟨[], rfl, (append_nil _).symm⟩, rfl, rfl⟩

variable {mysql₁ mysql₃ mysql₂ : Mysql} {clientTransactions protocol41 more : Bool} {fields : ℕ}
  {rest : List (List UInt8)}

theorem Wire.length_le (h : Wire mysql₁ mysql₂) :
    mysql₂.incoming.length ≤ mysql₁.incoming.length := by
  obtain ⟨packets, hin, -⟩ := h.read
  rw [hin, length_append]
  exact le_add_left _ _

theorem Wire.trans (h : Wire mysql₁ mysql₂) (h' : Wire mysql₂ mysql₃) : Wire mysql₁ mysql₃ := by
  obtain ⟨packets, hin, htrace⟩ := h.read
  obtain ⟨packets', hin', htrace'⟩ := h'.read
  refine ⟨⟨packets ++ packets', ?_, ?_⟩, h'.protocol41_eq.trans h.protocol41_eq,
    h'.clientTransactions_eq.trans h.clientTransactions_eq⟩
  · rw [hin, hin', append_assoc]
  · rw [htrace', htrace, map_append, append_assoc]

theorem Reads.trans (h : Reads mysql₁ mysql₂) (h' : Reads mysql₂ mysql₃) : Reads mysql₁ mysql₃ :=
  ⟨h.toWire.trans h'.toWire, h'.status_eq.trans h.status_eq, h'.fieldCount_eq.trans h.fieldCount_eq⟩

/-! ### One packet -/

theorem WellFormed.exists_cons {packets : List (List UInt8)}
    (h : WellFormed protocol41 clientTransactions position packets) :
    ∃ packet rest, packets = packet :: rest ∧ packet.length ≠ 0 ∧
      (byteAt packet 0 = 255 → rest = []) := by
  cases h with
  | error h =>
    obtain ⟨rest, rfl⟩ := h
    exact ⟨_, _, rfl, succ_ne_zero _, fun _ => rfl⟩
  | ok h =>
    obtain ⟨_, _, _, _, _, _, _, rfl, _⟩ := h
    exact ⟨_, _, rfl, succ_ne_zero _, fun _ => rfl⟩
  | okMore h _ =>
    obtain ⟨_, _, _, _, _, _, _, rfl, _⟩ := h
    exact ⟨_, _, rfl, succ_ne_zero _, fun h => absurd h (show (0 : UInt8) ≠ 255 by decide)⟩
  | @header fields =>
    obtain ⟨b, rest, heq, -, hne, -⟩ := netStoreLength_eq_cons fields
    refine ⟨_, _, rfl, ?_, fun h => absurd h ?_⟩
    · rw [heq]
      exact succ_ne_zero _
    · rw [heq]
      exact hne
  | column h _ => exact ⟨_, _, rfl, h.not_end.1, fun herr => absurd herr h.not_end.2.1⟩
  | columnsEof h _ =>
    exact ⟨_, _, rfl, h.read.2.1, fun herr =>
      absurd (h.read.1.symm.trans herr) (by decide)⟩
  | row h _ => exact ⟨_, _, rfl, h.not_end.1, fun herr => absurd herr h.not_end.2.1⟩
  | eof h => exact ⟨_, _, rfl, h.read.2.1, fun _ => rfl⟩
  | eofMore h _ =>
    exact ⟨_, _, rfl, h.read.2.1, fun herr =>
      absurd (h.read.1.symm.trans herr) (by decide)⟩

theorem and_not_moreResults (status : UInt16) :
    status &&& ~~~serverMoreResultsExists &&& serverMoreResultsExists = 0 := by
  rw [UInt16.and_assoc]
  have hzero : ~~~serverMoreResultsExists &&& serverMoreResultsExists = 0 := by decide
  rw [hzero, UInt16.and_zero]

theorem or_inTrans_moreResults (status : UInt16) :
    (status ||| serverStatusInTrans) &&& serverMoreResultsExists =
      status &&& serverMoreResultsExists := by
  apply UInt16.toBitVec_inj.mp
  have hzero : serverStatusInTrans.toBitVec &&& serverMoreResultsExists.toBitVec = 0 := by decide
  rw [UInt16.toBitVec_and, UInt16.toBitVec_or, BitVec.and_or_distrib_right, hzero,
    UInt16.toBitVec_and]
  exact BitVec.or_zero

theorem cliSafeRead_error (hin : mysql.incoming = packet :: rest) (hlen : packet.length ≠ 0)
    (herr : byteAt packet 0 = 255) : ∃ mysql', cliSafeRead mysql = some (none, mysql') ∧
      Reads mysql mysql' ∧ mysql'.incoming = rest ∧ ¬ mysql'.MoreResults := by
  rw [cliSafeRead, hin]
  dsimp only
  rw [if_neg hlen, if_pos herr, readError]
  split_ifs <;> exact ⟨_, rfl, ⟨⟨⟨[packet], hin, rfl⟩, rfl, rfl⟩, rfl, rfl⟩, rfl,
    not_not.mpr (and_not_moreResults _)⟩

theorem cliSafeRead_packet (hin : mysql.incoming = packet :: rest) (hlen : packet.length ≠ 0)
    (herr : byteAt packet 0 ≠ 255) : cliSafeRead mysql = some (some packet,
      { mysql with incoming := rest, trace := mysql.trace ++ [.read packet] }) := by
  rw [cliSafeRead, hin]
  dsimp only
  rw [if_neg hlen, if_neg herr]

theorem Reads.single (hin : mysql.incoming = packet :: rest) :
    Reads mysql { mysql with incoming := rest, trace := mysql.trace ++ [.read packet] } :=
  ⟨⟨⟨[packet], hin, rfl⟩, rfl, rfl⟩, rfl, rfl⟩

theorem cliSafeRead_eq (h : mysql.Follows position) (hold : mysql.SingleBefore41) :
    ∃ packet rest next mysql', mysql.incoming = packet :: rest ∧
      cliSafeRead mysql = some (next, mysql') ∧ Reads mysql mysql' ∧ mysql'.incoming = rest ∧
      mysql'.SingleBefore41 ∧
      (next = none ∧ mysql'.Idle ∨ next = some packet ∧ byteAt packet 0 ≠ 255) := by
  obtain ⟨packet, rest, hin, hlen, hlast⟩ := h.exists_cons
  by_cases herr : byteAt packet 0 = 255
  · obtain ⟨mysql', hread, R, hin', hmore⟩ := cliSafeRead_error hin hlen herr
    exact ⟨packet, rest, none, mysql', hin, hread, R, hin', fun _ => hmore,
      .inl ⟨rfl, fun h => absurd h hmore, fun _ => hin'.trans (hlast herr)⟩⟩
  · exact ⟨packet, rest, some packet, _, hin, cliSafeRead_packet hin hlen herr, .single hin, rfl,
      hold, .inr ⟨rfl, herr⟩⟩

/-! ### Rows and columns -/

def ReplyPosition.width (protocol41 : Bool) : ReplyPosition → ℕ
  | .start => 0
  | .columns _ _ => if protocol41 then 7 else 5
  | .rows fields => fields

/-- The position behind a packet that is not the last one of its kind. -/
def ReplyPosition.next : ReplyPosition → ReplyPosition
  | .start => .start
  | .columns left fields => .columns (left - 1) fields
  | .rows fields => .rows fields

/-- Behind the EOF packet that ends the packets at a position: behind the columns come the
rows, behind the rows is the end of the result. -/
def Mysql.Behind (mysql : Mysql) : ReplyPosition → Prop
  | .start => False
  | .columns _ fields => mysql.Follows (.rows fields)
  | .rows _ => mysql.Idle

theorem ReplyPosition.width_next (protocol41 : Bool) (position : ReplyPosition) :
    position.next.width protocol41 = position.width protocol41 := by
  cases position <;> rfl

theorem ReplyPosition.next_ne_start (h : position ≠ .start) : position.next ≠ .start := by
  cases position with
  | start => exact absurd rfl h
  | columns left fields => exact ReplyPosition.noConfusion
  | rows fields => exact ReplyPosition.noConfusion

theorem Mysql.behind_next (mysql : Mysql) (position : ReplyPosition) :
    mysql.Behind position.next ↔ mysql.Behind position := by
  cases position <;> rfl

theorem WellFormed.row_or_eof {rest : List (List UInt8)}
    (h : WellFormed protocol41 clientTransactions position (packet :: rest))
    (hstart : position ≠ .start) (herr : byteAt packet 0 ≠ 255) :
    (IsRow (position.width protocol41) packet ∧
      WellFormed protocol41 clientTransactions position.next rest) ∨
    ∃ more, IsEof protocol41 more packet ∧ ∀ mysql : Mysql, mysql.protocol41 = protocol41 →
      mysql.clientTransactions = clientTransactions → mysql.incoming = rest →
      (mysql.MoreResults ↔ more = true) → mysql.Behind position := by
  cases h with
  | error h =>
    obtain ⟨_, rfl⟩ := h
    exact absurd rfl herr
  | ok _ => exact absurd rfl hstart
  | okMore _ _ => exact absurd rfl hstart
  | header _ _ _ => exact absurd rfl hstart
  | column h hrest => exact .inl ⟨h, hrest⟩
  | @columnsEof fields more _ _ h hrest =>
    refine .inr ⟨more, h, fun mysql h1 h2 hin _ => ?_⟩
    subst h1 h2 hin
    exact hrest
  | row h hrest => exact .inl ⟨h, hrest⟩
  | eof h =>
    refine .inr ⟨false, h, fun mysql _ _ hin hmore => ⟨fun h => ?_, fun _ => hin⟩⟩
    exact absurd (hmore.mp h) false_ne_true
  | eofMore h hrest =>
    refine .inr ⟨true, h, fun mysql h1 h2 hin hmore => ⟨fun _ => ?_, fun h => ?_⟩⟩
    · subst h1 h2 hin
      exact hrest
    · exact absurd (hmore.mpr rfl) h

theorem IsEof.status (h : IsEof mysql.protocol41 more packet) (hold : mysql.SingleBefore41)
    {mysql' : Mysql} (heq : mysql' = if mysql.protocol41 then readEof mysql packet else mysql) :
    Reads mysql mysql' ∧ mysql'.incoming = mysql.incoming ∧
      (mysql'.MoreResults ↔ more = true) ∧ mysql'.SingleBefore41 := by
  obtain ⟨-, -, -, -, hfalse, htrue⟩ := h.read
  cases hp : mysql.protocol41 with
  | true =>
    rw [hp, if_pos rfl] at heq
    subst heq
    refine ⟨⟨⟨⟨[], rfl, (append_nil _).symm⟩, rfl, rfl⟩, rfl, rfl⟩, rfl, htrue hp, ?_⟩
    exact fun h => absurd (hp.symm.trans h) (by decide)
  | false =>
    rw [hp, if_neg Bool.false_ne_true] at heq
    subst heq
    refine ⟨⟨Wire.refl _, rfl, rfl⟩, rfl, ⟨fun h => absurd h (hold hp), fun h => ?_⟩, hold⟩
    rw [hfalse hp] at h
    exact absurd h false_ne_true

theorem readRowsLoop_eq (fuel : ℕ) (rows : List Row)
    (h : WellFormed mysql.protocol41 mysql.clientTransactions position (packet :: mysql.incoming))
    (hstart : position ≠ .start) (herr : byteAt packet 0 ≠ 255) (hold : mysql.SingleBefore41)
    (hfuel : mysql.incoming.length < fuel) :
    ∃ result mysql', readRowsLoop (position.width mysql.protocol41) fuel packet rows mysql =
        some (result, mysql') ∧
      Reads mysql mysql' ∧ mysql'.SingleBefore41 ∧
      (result = none ∧ mysql'.Idle ∨ result.isSome ∧ mysql'.Behind position) := by
  induction fuel generalizing mysql position packet rows with
  | zero => omega
  | succ fuel ih =>
    rw [readRowsLoop]
    rcases h.row_or_eof hstart herr with ⟨hrow, hrest⟩ | ⟨more, heof, hbehind⟩
    · obtain ⟨-, -, hlong⟩ := hrow.not_end
      obtain ⟨row, hunpack, -⟩ := hrow.unpackRow
      have hnot : byteAt packet 0 ≠ 254 ∨ 8 ≤ packet.length := by
        by_cases h254 : byteAt packet 0 = 254
        · exact .inr (hlong h254).le
        · exact .inl h254
      rw [if_pos hnot, hunpack]
      obtain ⟨packet', rest, next, mysql₁, hin, hread, R, hin1, hold1, hnext⟩ :=
        cliSafeRead_eq (show mysql.Follows position.next from hrest) hold
      dsimp only
      rw [hread, bind_eq_bind, bind_some]
      rcases hnext with ⟨rfl, hidle⟩ | ⟨rfl, herr'⟩
      · exact ⟨none, mysql₁, rfl, R, hold1, .inl ⟨rfl, hidle⟩⟩
      rw [hin, ← hin1, ← R.protocol41_eq, ← R.clientTransactions_eq] at hrest
      have hlen := congrArg List.length hin
      rw [length_cons, ← hin1] at hlen
      obtain ⟨result, mysql', hloop, R', hold', hend⟩ :=
        ih (rows ++ [row]) hrest (ReplyPosition.next_ne_start hstart) herr' hold1 (by omega)
      rw [R.protocol41_eq, ReplyPosition.width_next] at hloop
      rw [Mysql.behind_next] at hend
      exact ⟨result, mysql', hloop, R.trans R', hold', hend⟩
    · obtain ⟨h254, -, hshort, hone, -⟩ := heof.read
      have heof' : ¬ (byteAt packet 0 ≠ 254 ∨ 8 ≤ packet.length) :=
        not_or.mpr ⟨not_not.mpr h254, by omega⟩
      rw [if_neg heof', if_congr hone rfl rfl]
      obtain ⟨R, hin, hmore, hold'⟩ := heof.status hold rfl
      exact ⟨_, _, rfl, R, hold', .inr ⟨rfl,
        hbehind _ R.protocol41_eq R.clientTransactions_eq hin hmore⟩⟩

theorem cliReadRows_eq (h : mysql.Follows position) (hstart : position ≠ .start)
    (hold : mysql.SingleBefore41) :
    ∃ result mysql', cliReadRows mysql (position.width mysql.protocol41) = some (result, mysql') ∧
      Reads mysql mysql' ∧ mysql'.SingleBefore41 ∧
      (result = none ∧ mysql'.Idle ∨ result.isSome ∧ mysql'.Behind position) := by
  obtain ⟨packet, rest, next, mysql₁, hin, hread, R, hin1, hold1, hnext⟩ := cliSafeRead_eq h hold
  rw [cliReadRows, hread, bind_eq_bind, bind_some]
  rcases hnext with ⟨rfl, hidle⟩ | ⟨rfl, herr⟩
  · exact ⟨none, mysql₁, rfl, R, hold1, .inl ⟨rfl, hidle⟩⟩
  rw [Mysql.Follows, hin, ← hin1, ← R.protocol41_eq, ← R.clientTransactions_eq] at h
  obtain ⟨result, mysql', hloop, R', hold', hend⟩ :=
    readRowsLoop_eq _ [] h hstart herr hold1 (lt_succ_self _)
  rw [R.protocol41_eq] at hloop
  exact ⟨result, mysql', hloop, R.trans R', hold', hend⟩

theorem readOneRow_eq (h : mysql.Follows (.rows fields)) (hold : mysql.SingleBefore41) :
    ∃ row mysql', readOneRow mysql fields = some (row, mysql') ∧ Reads mysql mysql' ∧
      mysql'.SingleBefore41 ∧
      ((∃ values, row = .ok values) ∧ mysql'.Follows (.rows fields) ∨
        (∃ code, row = .error code) ∧ mysql'.Idle) := by
  obtain ⟨packet, rest, next, mysql₁, hin, hread, R, hin1, hold1, hnext⟩ := cliSafeRead_eq h hold
  rw [readOneRow, hread, bind_eq_bind, bind_some]
  rcases hnext with ⟨rfl, hidle⟩ | ⟨rfl, herr⟩
  · exact ⟨_, mysql₁, rfl, R, hold1, .inr ⟨⟨_, rfl⟩, hidle⟩⟩
  rw [Mysql.Follows, hin, ← hin1, ← R.protocol41_eq, ← R.clientTransactions_eq] at h
  rcases h.row_or_eof ReplyPosition.noConfusion herr with ⟨hrow, hrest⟩ | ⟨more, heof, hbehind⟩
  · obtain ⟨-, -, hlong⟩ := hrow.not_end
    obtain ⟨row, -, hunpack⟩ := hrow.unpackRow
    have hnot : ¬ (packet.length ≤ 8 ∧ byteAt packet 0 = 254) := by
      rintro ⟨hle, h254⟩
      have := hlong h254
      omega
    change unpackRow _ _ fields 0 0 = some row at hunpack
    dsimp only
    rw [if_neg hnot, hunpack]
    exact ⟨_, mysql₁, rfl, R, hold1, .inl ⟨⟨row, rfl⟩, hrest⟩⟩
  · obtain ⟨h254, -, hshort, hone, -⟩ := heof.read
    obtain ⟨R', hin', hmore, hold'⟩ := heof.status hold1 rfl
    dsimp only
    rw [if_pos ⟨by omega, h254⟩, if_congr hone rfl rfl]
    exact ⟨_, _, rfl, R.trans R', hold', .inr ⟨⟨_, rfl⟩,
      hbehind _ R'.protocol41_eq R'.clientTransactions_eq hin' hmore⟩⟩

def FlushesOne (after : Mysql → Prop) (rest : List (List UInt8)) (mysql : Mysql) : Prop :=
  ∀ fuel, mysql.incoming.length < fuel → ∃ failed mysql',
    flushOneResultLoop fuel mysql = some (failed, mysql') ∧ Reads mysql mysql' ∧
      mysql'.SingleBefore41 ∧
      if failed then mysql'.incoming = rest ∧ ¬ mysql'.MoreResults else after mysql'

variable {after : Mysql → Prop} {behind : List (List UInt8)}

theorem FlushesOne.error (h : IsError packet) (hin : mysql.incoming = packet :: rest) :
    FlushesOne after rest mysql := by
  rintro (_ | fuel) hfuel
  · omega
  obtain ⟨bytes, rfl⟩ := h
  obtain ⟨mysql', hread, R, hin', hmore⟩ := cliSafeRead_error hin (succ_ne_zero _) rfl
  refine ⟨true, mysql', ?_, R, fun _ => hmore, hin', hmore⟩
  rw [flushOneResultLoop, hread]
  rfl

theorem FlushesOne.row (h : IsRow fields packet) (hin : mysql.incoming = packet :: rest)
    (hrest : FlushesOne after behind
      { mysql with incoming := rest, trace := mysql.trace ++ [.read packet] }) :
    FlushesOne after behind mysql := by
  rintro (_ | fuel) hfuel
  · omega
  obtain ⟨hlen, herr, hlong⟩ := h.not_end
  rw [hin, length_cons] at hfuel
  obtain ⟨failed, mysql', hloop, R, hend⟩ := hrest fuel (lt_of_succ_lt_succ hfuel)
  refine ⟨failed, mysql', ?_, (Reads.single hin).trans R, hend⟩
  rw [flushOneResultLoop, cliSafeRead_packet hin hlen herr, bind_eq_bind, bind_some]
  dsimp only
  rw [if_pos (or_iff_not_imp_right.mpr fun h254 => hlong (not_not.mp h254)), hloop]

theorem FlushesOne.eof (h : IsEof mysql.protocol41 more packet) (hold : mysql.SingleBefore41)
    (hin : mysql.incoming = packet :: rest) (hafter : ∀ mysql' : Mysql, Reads mysql mysql' →
      mysql'.SingleBefore41 → mysql'.incoming = rest → (mysql'.MoreResults ↔ more = true) →
      after mysql') : FlushesOne after behind mysql := by
  rintro (_ | fuel) hfuel
  · omega
  obtain ⟨h254, hlen, hshort, -⟩ := h.read
  have herr : byteAt packet 0 ≠ 255 := by rw [h254]; decide
  obtain ⟨R', hin', hmore, hold'⟩ := @IsEof.status
    { mysql with incoming := rest, trace := mysql.trace ++ [.read packet] } _ _ h hold _ rfl
  have R := (Reads.single hin).trans R'
  refine ⟨false, _, ?_, R, hold', hafter _ R hold' hin' hmore⟩
  rw [flushOneResultLoop, cliSafeRead_packet hin hlen herr, bind_eq_bind, bind_some]
  dsimp only
  rw [if_neg (not_or.mpr ⟨by omega, not_not.mpr h254⟩)]

theorem WellFormed.flushesOne {packets : List (List UInt8)}
    (h : WellFormed protocol41 clientTransactions position packets)
    (hrows : position = .rows fields) (hp : mysql.protocol41 = protocol41) (hc : mysql.clientTransactions = clientTransactions)
    (hold : mysql.SingleBefore41) (hin : mysql.incoming = packets) :
    FlushesOne Mysql.Idle [] mysql := by
  induction h generalizing mysql with
  | error h => exact .error h hin
  | row h _ ih => exact .row h hin (ih hrows hp hc hold rfl)
  | eof h =>
    subst hp
    refine .eof h hold hin fun mysql' _ _ hin' hmore => ⟨fun h => ?_, fun _ => hin'⟩
    exact absurd (hmore.mp h) false_ne_true
  | eofMore h hrest _ =>
    subst hp hc
    refine .eof h hold hin fun mysql' R _ hin' hmore => ⟨fun _ => ?_, fun h => ?_⟩
    · rw [Mysql.Follows, R.protocol41_eq, R.clientTransactions_eq, hin']
      exact hrest
    · exact absurd (hmore.mpr rfl) h
  | _ => cases hrows

theorem cliFlushUseResult_eq (h : mysql.Follows (.rows fields)) (hold : mysql.SingleBefore41) :
    ∃ mysql', cliFlushUseResult mysql = some mysql' ∧ Reads mysql mysql' ∧
      mysql'.SingleBefore41 ∧ mysql'.Idle := by
  obtain ⟨failed, mysql', hloop, R, hold', hend⟩ :=
    WellFormed.flushesOne h rfl rfl rfl hold rfl _ (lt_succ_self _)
  refine ⟨mysql', by rw [cliFlushUseResult, flushOneResult, hloop]; rfl, R, hold', ?_⟩
  cases failed with
  | true => exact ⟨fun h => absurd h hend.2, fun _ => hend.1⟩
  | false => exact hend

theorem readOk_idle (mysql : Mysql) (h : IsOk mysql.protocol41 mysql.clientTransactions more packet)
    (hold : mysql.SingleBefore41) (hmore : more = true → mysql.Follows .start)
    (hlast : more = false → mysql.incoming = []) :
    (netFieldLength (byteAt packet) 0) = (some 0, 1) ∧
      Reads mysql (readOk mysql packet 1) ∧ (readOk mysql packet 1).SingleBefore41 ∧
      (readOk mysql packet 1).Idle := by
  obtain ⟨-, hzero, hiff, hfalse⟩ := h.read hold
  obtain ⟨status, warnings, affectedRows, insertId, info, heq⟩ := readOk_eq mysql packet 1
  rw [heq] at hiff ⊢
  refine ⟨?_, ⟨⟨⟨[], rfl, (append_nil _).symm⟩, rfl, rfl⟩, rfl, rfl⟩, fun hp h => ?_,
    fun h => hmore (hiff.mp h), fun hnot => hlast ?_⟩
  · rw [netFieldLength, fieldLength, hzero, if_pos (by decide)]
    rfl
  · have := hiff.mp h
    rw [hfalse hp] at this
    exact absurd this false_ne_true
  · cases more with
    | false => rfl
    | true => exact absurd (hiff.mpr rfl) hnot

theorem cliReadQueryResult_eq (h : mysql.Follows .start) (hready : mysql.status = .ready)
    (hold : mysql.SingleBefore41) :
    ∃ failed mysql', cliReadQueryResult mysql = some (failed, mysql') ∧ Wire mysql mysql' ∧
      mysql'.SingleBefore41 ∧
      (mysql'.status = .ready ∧ mysql'.Idle ∨ mysql'.status = .getResult ∧ mysql'.fields.isSome ∧
          mysql'.Follows (.rows mysql'.fieldCount)) := by
  obtain ⟨packet, rest, next, mysql₁, hin, hread, R, hin1, hold1, hnext⟩ := cliSafeRead_eq h hold
  rw [cliReadQueryResult, hread, bind_eq_bind, bind_some]
  rcases hnext with ⟨rfl, hidle⟩ | ⟨rfl, herr⟩
  · exact ⟨true, mysql₁, rfl, R.toWire, hold1, .inl ⟨R.status_eq.trans hready, hidle⟩⟩
  rw [Mysql.Follows, hin, ← R.protocol41_eq, ← R.clientTransactions_eq] at h
  have W : Wire mysql (freeOldQuery mysql₁) := ⟨R.read, R.protocol41_eq, R.clientTransactions_eq⟩
  have hready1 : mysql₁.status = .ready := R.status_eq.trans hready
  dsimp only
  cases h with
  | error h =>
    obtain ⟨_, rfl⟩ := h
    exact absurd rfl herr
  | ok h =>
    obtain ⟨hfield, R', hold', hidle⟩ := readOk_idle (freeOldQuery mysql₁) h hold1
      (fun h => absurd h false_ne_true) (fun _ => hin1)
    rw [hfield]
    exact ⟨false, _, rfl, W.trans R'.toWire, hold', .inl ⟨R'.status_eq.trans hready1, hidle⟩⟩
  | okMore h hrest =>
    rw [← hin1] at hrest
    obtain ⟨hfield, R', hold', hidle⟩ := readOk_idle (freeOldQuery mysql₁) h hold1
      (fun _ => hrest) (fun h => absurd h (by decide))
    rw [hfield]
    exact ⟨false, _, rfl, W.trans R'.toWire, hold', .inl ⟨R'.status_eq.trans hready1, hidle⟩⟩
  | @header fields _ hpos hlt hrest =>
    rw [← hin1] at hrest
    have hfield := netFieldLength_header hlt
    rw [← Prod.eta (netFieldLength _ 0), hfield]
    dsimp only
    rw [if_neg hpos]
    set mysql₂ : Mysql := { freeOldQuery mysql₁ with
      serverStatus := if (freeOldQuery mysql₁).serverStatus &&& serverStatusAutocommit = 0 then
        (freeOldQuery mysql₁).serverStatus ||| serverStatusInTrans
        else (freeOldQuery mysql₁).serverStatus } with hmysql2
    have hold2 : mysql₂.SingleBefore41 := by
      intro hp hmore
      refine hold1 hp ?_
      rw [Mysql.MoreResults, hmysql2] at hmore
      split_ifs at hmore
      · rw [or_inTrans_moreResults] at hmore
        exact hmore
      · exact hmore
    obtain ⟨result, mysql', hrows, R', hold', hend⟩ :=
      cliReadRows_eq (show mysql₂.Follows (.columns fields fields) from hrest)
        ReplyPosition.noConfusion hold2
    change cliReadRows mysql₂ (if mysql₂.protocol41 then 7 else 5) = _ at hrows
    rw [hrows, bind_eq_bind, bind_some]
    have W' : Wire mysql mysql' := W.trans ⟨R'.read, R'.protocol41_eq, R'.clientTransactions_eq⟩
    dsimp only
    rcases hend with ⟨rfl, hidle⟩ | ⟨hsome, hbehind⟩
    · exact ⟨true, mysql', rfl, W', hold', .inl ⟨R'.status_eq.trans hready1, hidle⟩⟩
    obtain ⟨columns, rfl⟩ := isSome_iff_exists.mp hsome
    exact ⟨false, _, rfl, ⟨W'.read, W'.protocol41_eq, W'.clientTransactions_eq⟩, hold',
      .inr ⟨rfl, rfl, hbehind⟩⟩

end LibSources
