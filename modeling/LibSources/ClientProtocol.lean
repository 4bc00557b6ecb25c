import LibSources.Client
import LibSources.NetRead

/-!
# Well-Formed Replies

The replies of a server to a query, as a grammar over packets: an OK packet, an error packet
or a result set, and after a result whose status announces more results the next one.
-/

namespace LibSources

open Nat List

variable {packet : List UInt8}

/-! ### Length-encoded integers -/

theorem window_byteAt (before bytes behind : List UInt8) :
    window (byteAt (before ++ bytes ++ behind)) before.length bytes.length = bytes := by
  refine ext_get (length_window _ _ _) fun k h1 h2 => ?_
  have hk : k < bytes.length := h2
  rw [get_eq_getElem, get_eq_getElem]
  simp only [window, getElem_map, getElem_range, byteAt]
  rw [append_assoc, getD_append_right _ _ _ _ (by omega), add_tsub_cancel_left,
    getD_append _ _ _ _ hk, getD_eq_getElem _ _ hk]

variable {i n pos fields : ℕ} {mem : ℕ → UInt8} {more : Bool}

theorem uint2korr_of_window (n : ℕ) (h : window mem i 2 = int2store n) :
    uint2korr mem i = n % 65536 := by
  simp only [window_succ, window_zero, int2store, cons.injEq] at h
  obtain ⟨h0, h1, -⟩ := h
  rw [uint2korr, h0, h1]
  simp only [toUInt8, UInt8.toNat_ofNat']
  omega

/-- The four numbers of two bytes of a number of eight bytes. -/
theorem window_int8store (h : window mem i 8 = int8store n) :
    uint2korr mem i = n % 65536 ∧ uint2korr mem (i + 2) = n / 65536 % 65536 ∧
      uint2korr mem (i + 4) = n / 4294967296 % 65536 ∧
      uint2korr mem (i + 6) = n / 281474976710656 % 65536 := by
  rw [int8store] at h
  obtain ⟨h, h3⟩ := window_eq_append h
  obtain ⟨h, h2⟩ := window_eq_append h
  obtain ⟨h0, h1⟩ := window_eq_append h
  exact ⟨uint2korr_of_window _ h0, uint2korr_of_window _ h1, uint2korr_of_window _ h2,
    uint2korr_of_window _ h3⟩

theorem uint4korr_of_window (hn : n < 2 ^ 32) (h : window mem i 8 = int8store n) :
    uint4korr mem i = n := by
  obtain ⟨h0, h1, -⟩ := window_int8store h
  rw [uint4korr, h0, h1]
  omega

theorem uint8korr_of_window (hn : n < 2 ^ 64) (h : window mem i 8 = int8store n) :
    uint8korr mem i = n := by
  obtain ⟨h0, h1, h2, h3⟩ := window_int8store h
  rw [uint8korr, uint4korr, uint4korr, h0, h1, h2, h3]
  omega

/-- A length-encoded integer is read back. -/
theorem fieldLength_netStoreLength {korr8 : (ℕ → UInt8) → ℕ → ℕ}
    (h : window mem pos (netStoreLength n).length = netStoreLength n)
    (hkorr : window mem (pos + 1) 8 = int8store n → korr8 mem (pos + 1) = n) :
    fieldLength korr8 mem pos = (some n, pos + (netStoreLength n).length) := by
  rw [netStoreLength] at h ⊢
  rw [fieldLength]
  by_cases h1 : n < 251
  · rw [if_pos h1] at h ⊢
    have hhead : mem pos = n.toUInt8 := (cons.inj h).1
    have hnat : n.toUInt8.toNat = n := by
      simp only [toUInt8, UInt8.toNat_ofNat']
      omega
    have hlt : n.toUInt8 < 251 := by
      rw [UInt8.lt_iff_toNat_lt, hnat]
      exact h1
    rw [hhead, if_pos hlt, hnat]
    rfl
  rw [if_neg h1] at h ⊢
  by_cases h2 : n < 65536
  · rw [if_pos h2] at h ⊢
    rw [length_cons, window_succ] at h
    obtain ⟨hhead, htail⟩ := cons.inj h
    rw [hhead, if_neg (by decide), if_neg (by decide), if_pos rfl, uint2korr_of_window n htail,
      mod_eq_of_lt h2]
    rfl
  rw [if_neg h2] at h ⊢
  by_cases h3 : n < 16777216
  · rw [if_pos h3] at h ⊢
    rw [length_cons, window_succ] at h
    obtain ⟨hhead, htail⟩ := cons.inj h
    rw [hhead, if_neg (by decide), if_neg (by decide), if_neg (by decide), if_pos rfl,
      uint3korr_of_window h3 htail]
    rfl
  rw [if_neg h3] at h ⊢
  rw [length_cons, window_succ] at h
  obtain ⟨hhead, htail⟩ := cons.inj h
  rw [hhead, if_neg (by decide), if_neg (by decide), if_neg (by decide), if_neg (by decide),
    hkorr htail]
  rfl

theorem netFieldLengthLl_netStoreLength (hn : n < 2 ^ 64)
    (h : window mem pos (netStoreLength n).length = netStoreLength n) :
    netFieldLengthLl mem pos = (n, pos + (netStoreLength n).length) := by
  rw [netFieldLengthLl, fieldLength_netStoreLength h (uint8korr_of_window hn)]
  rfl

theorem netStoreLength_eq_cons (n : ℕ) : ∃ b rest, netStoreLength n = b :: rest ∧
    b ≠ 251 ∧ b ≠ 255 ∧ (b = 0 → n = 0) ∧ (b = 254 → rest.length = 8) := by
  rw [netStoreLength]
  split_ifs with h1 h2 h3
  · have hne : ∀ b : UInt8, b.toNat ≠ n → n.toUInt8 ≠ b := by
      rintro b hb rfl
      simp only [toUInt8, UInt8.toNat_ofNat'] at hb
      omega
    refine ⟨_, _, rfl, hne 251 (ne_of_gt h1), hne 255 ?_, fun h => ?_, fun h => ?_⟩
    · change 255 ≠ n
      omega
    · by_contra hn
      exact hne 0 (Ne.symm hn) h
    · refine absurd h (hne 254 ?_)
      change 254 ≠ n
      omega
  · exact ⟨252, _, rfl, by decide, by decide, fun h => absurd h (by decide),
      fun h => absurd h (by decide)⟩
  · exact ⟨253, _, rfl, by decide, by decide, fun h => absurd h (by decide),
      fun h => absurd h (by decide)⟩
  · exact ⟨254, _, rfl, by decide, by decide, fun h => absurd h (by decide), fun _ => rfl⟩

def column : Option (List UInt8) → List UInt8
  | none => [251]
  | some bytes => netStoreLength bytes.length ++ bytes

theorem column_eq_cons (value : Option (List UInt8)) : ∃ b rest, column value = b :: rest ∧
    b ≠ 255 ∧ (b = 254 → 8 ≤ rest.length) := by
  cases value with
  | none => exact ⟨251, [], rfl, by decide, fun h => absurd h (by decide)⟩
  | some bytes =>
    obtain ⟨b, rest, heq, -, hne, -, hlen⟩ := netStoreLength_eq_cons bytes.length
    refine ⟨b, rest ++ bytes, by rw [column, heq]; rfl, hne, fun h => ?_⟩
    rw [length_append, hlen h]
    omega

theorem unpackRow_columns {room : ℕ → ℕ → ℤ} {size : ℕ} (hsize : size < 2 ^ 32)
    (hroom : ∀ pos dst len : ℕ, pos + len ≤ size → dst + len + 1 ≤ size →
      (len : ℤ) ≤ room pos dst ∧ room pos dst ≤ size) (cols : Row) {dst : ℕ}
    (h : window mem pos (cols.map column).flatten.length = (cols.map column).flatten)
    (hpos : pos + (cols.map column).flatten.length ≤ size)
    (hdst : dst + (cols.map column).flatten.length ≤ size) :
    unpackRow room mem cols.length pos dst = some cols := by
  induction cols generalizing pos dst with
  | nil => rfl
  | cons value cols ih =>
    rw [map_cons, flatten_cons] at h hpos hdst
    rw [length_append] at hpos hdst
    obtain ⟨hcol, hrest⟩ := window_eq_append h
    rw [length_cons, unpackRow]
    cases value with
    | none =>
      have hlen : (column none).length = 1 := rfl
      rw [hlen] at hcol hrest hpos hdst
      have hfield : netFieldLength mem pos = (none, pos + 1) := by
        have hmem : mem pos = 251 := (cons.inj hcol).1
        rw [netFieldLength, fieldLength, hmem, if_neg (by decide), if_pos rfl]
      rw [hfield]
      dsimp only
      rw [ih hrest (by omega) (by omega), Option.map_some]
    | some bytes =>
      rw [column] at hcol hrest hpos hdst
      obtain ⟨hlength, hbytes⟩ := window_eq_append hcol
      rw [length_append] at hrest hpos hdst
      have hfield : netFieldLength mem pos =
          (some bytes.length, pos + (netStoreLength bytes.length).length) :=
        fieldLength_netStoreLength hlength (uint4korr_of_window (by omega))
      have hpositive : 0 < (netStoreLength bytes.length).length := by
        obtain ⟨b, rest, heq, -⟩ := netStoreLength_eq_cons bytes.length
        rw [heq, length_cons]
        omega
      obtain ⟨hle, hlt⟩ := hroom (pos + (netStoreLength bytes.length).length) dst bytes.length
        (by omega) (by omega)
      rw [hfield]
      dsimp only
      rw [if_neg (by rw [Int.emod_eq_of_lt (by omega) (by omega)]; omega)]
      rw [← add_assoc] at hrest
      rw [ih hrest (by omega) (by omega), Option.map_some, hbytes]

/-! ### The grammar of replies -/

def IsRow (fields : ℕ) (packet : List UInt8) : Prop :=
  fields ≠ 0 ∧ packet.length < 2 ^ 32 ∧
    ∃ cols : Row, cols.length = fields ∧ packet = (cols.map column).flatten

def IsError (packet : List UInt8) : Prop := ∃ rest, packet = 255 :: rest

def IsEof (protocol41 more : Bool) (packet : List UInt8) : Prop :=
  if protocol41 then
    ∃ (warnings : ℕ) (status : UInt16),
      packet = 254 :: (int2store warnings ++ int2store status.toNat) ∧
      (more = true ↔ status &&& serverMoreResultsExists ≠ 0)
  else packet = [254] ∧ more = false

/-- An OK packet. Before version 4.1 its status cannot announce more results. -/
def IsOk (protocol41 clientTransactions more : Bool) (packet : List UInt8) : Prop :=
  ∃ (affectedRows insertId warnings : ℕ) (status : UInt16) (info : List UInt8),
    affectedRows < 2 ^ 64 ∧ insertId < 2 ^ 64 ∧
    packet = 0 :: (netStoreLength affectedRows ++ netStoreLength insertId ++
      (if protocol41 then int2store status.toNat ++ int2store warnings
        else if clientTransactions then int2store status.toNat else []) ++ info) ∧
    (more = true ↔ status &&& serverMoreResultsExists ≠ 0) ∧
    (protocol41 = false → more = false)

inductive ReplyPosition where
  /-- At the start of a result. -/
  | start
  /-- Inside the columns of a result set of `fields` columns, of which `left` are to come. -/
  | columns (left fields : ℕ)
  /-- Inside the rows of a result set of `fields` columns. -/
  | rows (fields : ℕ)

/-- What can follow at a position inside a reply. An error packet ends a reply anywhere. -/
inductive WellFormed (protocol41 clientTransactions : Bool) :
    ReplyPosition → List (List UInt8) → Prop where
  | error {position : ReplyPosition} {packet : List UInt8} (h : IsError packet) :
      WellFormed protocol41 clientTransactions position [packet]
  | ok {packet : List UInt8} (h : IsOk protocol41 clientTransactions false packet) :
      WellFormed protocol41 clientTransactions .start [packet]
  | okMore {packet : List UInt8} {rest : List (List UInt8)}
      (h : IsOk protocol41 clientTransactions true packet)
      (hrest : WellFormed protocol41 clientTransactions .start rest) :
      WellFormed protocol41 clientTransactions .start (packet :: rest)
  | header {fields : ℕ} {rest : List (List UInt8)} (hpos : fields ≠ 0) (hlt : fields < 2 ^ 32)
      (hrest : WellFormed protocol41 clientTransactions (.columns fields fields) rest) :
      WellFormed protocol41 clientTransactions .start (netStoreLength fields :: rest)
  | column {left fields : ℕ} {packet : List UInt8} {rest : List (List UInt8)}
      (h : IsRow (if protocol41 then 7 else 5) packet)
      (hrest : WellFormed protocol41 clientTransactions (.columns left fields) rest) :
      WellFormed protocol41 clientTransactions (.columns (left + 1) fields) (packet :: rest)
  | columnsEof {fields : ℕ} {more : Bool} {packet : List UInt8} {rest : List (List UInt8)}
      (h : IsEof protocol41 more packet)
      (hrest : WellFormed protocol41 clientTransactions (.rows fields) rest) :
      WellFormed protocol41 clientTransactions (.columns 0 fields) (packet :: rest)
  | row {fields : ℕ} {packet : List UInt8} {rest : List (List UInt8)} (h : IsRow fields packet)
      (hrest : WellFormed protocol41 clientTransactions (.rows fields) rest) :
      WellFormed protocol41 clientTransactions (.rows fields) (packet :: rest)
  | eof {fields : ℕ} {packet : List UInt8} (h : IsEof protocol41 false packet) :
      WellFormed protocol41 clientTransactions (.rows fields) [packet]
  | eofMore {fields : ℕ} {packet : List UInt8} {rest : List (List UInt8)}
      (h : IsEof protocol41 true packet)
      (hrest : WellFormed protocol41 clientTransactions .start rest) :
      WellFormed protocol41 clientTransactions (.rows fields) (packet :: rest)

/-! ### Telling packets apart -/

theorem IsRow.not_end (h : IsRow fields packet) :
    packet.length ≠ 0 ∧ byteAt packet 0 ≠ 255 ∧ (byteAt packet 0 = 254 → 8 < packet.length) := by
  obtain ⟨hfields, -, cols, hlen, rfl⟩ := h
  obtain ⟨value, cols, rfl⟩ := exists_cons_of_length_pos (by omega : 0 < cols.length)
  obtain ⟨b, rest, heq, hne, heof⟩ := column_eq_cons value
  rw [map_cons, flatten_cons, heq, cons_append, length_cons, length_append]
  refine ⟨by omega, hne, fun hb => ?_⟩
  have := heof hb
  omega

theorem IsRow.unpackRow (h : IsRow fields packet) :
    ∃ row, unpackRow (fun _ dst => (packet.length : ℤ) - 1 - dst) (byteAt packet) fields 0 0 =
        some row ∧
      unpackRow (fun pos _ => (packet.length : ℤ) - pos) (byteAt packet) fields 0 0 = some row := by
  obtain ⟨-, hsize, cols, rfl, hpacket⟩ := h
  have hwin : window (byteAt packet) 0 (cols.map column).flatten.length =
      (cols.map column).flatten := by
    have := window_byteAt [] packet []
    rw [nil_append, append_nil] at this
    rw [← hpacket]
    exact this
  have hle : 0 + (cols.map column).flatten.length ≤ packet.length := by rw [hpacket, zero_add]
  refine ⟨cols, unpackRow_columns hsize ?_ cols hwin hle hle,
    unpackRow_columns hsize ?_ cols hwin hle hle⟩ <;> intro pos dst len h1 h2 <;> omega

theorem status_of_window {status : UInt16} (h : window mem i 2 = int2store status.toNat) :
    (uint2korr mem i).toUInt16 = status := by
  rw [uint2korr_of_window _ h, mod_eq_of_lt status.toNat_lt]
  exact UInt16.ofNat_toNat

theorem IsEof.read {protocol41 : Bool} (h : IsEof protocol41 more packet) :
    byteAt packet 0 = 254 ∧ packet.length ≠ 0 ∧ packet.length < 8 ∧
      (1 < packet.length ↔ protocol41 = true) ∧ (protocol41 = false → more = false) ∧
      (protocol41 = true → ((uint2korr (byteAt packet) 3).toUInt16 &&&
        serverMoreResultsExists ≠ 0 ↔ more = true)) := by
  rw [IsEof] at h
  cases protocol41 with
  | false =>
    obtain ⟨rfl, rfl⟩ := h
    exact ⟨rfl, by decide, by decide, by decide, fun _ => rfl, fun h => absurd h (by decide)⟩
  | true =>
    obtain ⟨warnings, status, rfl, hmore⟩ := h
    have hlen : (254 :: (int2store warnings ++ int2store status.toNat)).length = 5 := rfl
    have hwin := window_byteAt (254 :: int2store warnings) (int2store status.toNat) []
    rw [append_nil] at hwin
    rw [hlen]
    refine ⟨rfl, by decide, by decide, by decide, fun h => absurd h (by decide), fun _ => ?_⟩
    have hstatus : (uint2korr (byteAt (254 :: (int2store warnings ++ int2store status.toNat)))
        3).toUInt16 = status := status_of_window hwin
    rw [hstatus, hmore]

/-- The number of columns of a result set is read back. -/
theorem netFieldLength_header (hlt : fields < 2 ^ 32) :
    (netFieldLength (byteAt (netStoreLength fields)) 0).1 = some fields := by
  have hwin := window_byteAt [] (netStoreLength fields) []
  rw [nil_append, append_nil, length_nil] at hwin
  rw [netFieldLength, fieldLength_netStoreLength hwin (uint4korr_of_window hlt)]

section

variable (mysql : Mysql) (packet : List UInt8) (pos : ℕ)

theorem readOk_serverStatus : (readOk mysql packet pos).serverStatus =
      if mysql.protocol41 ∨ mysql.clientTransactions then
        (uint2korr (byteAt packet) (netFieldLengthLl (byteAt packet)
          (netFieldLengthLl (byteAt packet) pos).2).2).toUInt16
      else mysql.serverStatus := by
  rw [readOk]
  cases mysql.protocol41 <;> cases mysql.clientTransactions <;>
    simp only [if_true, if_false, Bool.false_eq_true, or_self, or_true, true_or] <;>
    split_ifs <;> rfl

theorem readOk_eq :
    ∃ status warnings affectedRows insertId info, readOk mysql packet pos = { mysql with
      serverStatus := status
      warningCount := warnings
      affectedRows := affectedRows
      insertId := insertId
      info := info } := by
  rw [readOk]
  cases mysql.protocol41 <;> cases mysql.clientTransactions <;>
    simp only [if_true, if_false, Bool.false_eq_true] <;> split_ifs <;>
    exact ⟨_, _, _, _, _, rfl⟩

end

theorem IsOk.read {mysql : Mysql} (h : IsOk mysql.protocol41 mysql.clientTransactions more packet)
    (hold : mysql.protocol41 = false → ¬ mysql.MoreResults) :
    packet.length ≠ 0 ∧ byteAt packet 0 = 0 ∧ ((readOk mysql packet 1).MoreResults ↔ more = true) ∧
      (mysql.protocol41 = false → more = false) := by
  obtain ⟨affectedRows, insertId, warnings, status, info, haffected, hinsert, rfl, hmore, hfalse⟩ := h
  set middle := if mysql.protocol41 then int2store status.toNat ++ int2store warnings
    else if mysql.clientTransactions then int2store status.toNat else [] with hmiddle
  have hall := window_byteAt []
    ([0] ++ (netStoreLength affectedRows ++ (netStoreLength insertId ++ (middle ++ info)))) []
  rw [nil_append, append_nil, length_nil] at hall
  have heq : [0] ++ (netStoreLength affectedRows ++ (netStoreLength insertId ++ (middle ++ info))) =
      0 :: (netStoreLength affectedRows ++ netStoreLength insertId ++ middle ++ info) := by
    simp only [append_assoc, cons_append, nil_append]
  obtain ⟨-, hall⟩ := window_eq_append hall
  obtain ⟨haff, hall⟩ := window_eq_append hall
  obtain ⟨hins, hall⟩ := window_eq_append hall
  rw [heq] at haff hins hall
  refine ⟨succ_ne_zero _, rfl, ?_, hfalse⟩
  rw [Mysql.MoreResults, readOk_serverStatus]
  have hpos : (netFieldLengthLl (byteAt _) (netFieldLengthLl (byteAt _) 1).2).2 = _ :=
    congrArg Prod.snd ((congrArg (netFieldLengthLl _ ·.2)
      (netFieldLengthLl_netStoreLength haffected haff)).trans
        (netFieldLengthLl_netStoreLength hinsert hins))
  rw [hpos]
  by_cases hnew : mysql.protocol41 = true ∨ mysql.clientTransactions = true
  · have hsplit : ∃ rest, middle ++ info = int2store status.toNat ++ rest := by
      rw [hmiddle]
      by_cases hp : mysql.protocol41 = true
      · rw [if_pos hp, append_assoc]
        exact ⟨_, rfl⟩
      · rw [if_neg hp, if_pos (hnew.resolve_left hp)]
        exact ⟨_, rfl⟩
    obtain ⟨rest, hrest⟩ := hsplit
    have hstatus := window_eq_append (hall.trans hrest)
    rw [if_pos hnew, status_of_window hstatus.1, hmore]
  · rw [if_neg hnew]
    have hp : mysql.protocol41 = false := by
      cases h : mysql.protocol41 with
      | false => rfl
      | true => exact absurd (.inl h) hnew
    refine ⟨fun h => absurd h (hold hp), fun h => ?_⟩
    rw [hfalse hp] at h
    exact absurd h Bool.false_ne_true

end LibSources
