import LibSources.ClientProtocol

/-!
# Row Packets in Memory

A model of the loops of `cli_read_rows` and `read_one_row` of `libmysql/client.c`
over the packet at `net->read_pos` and the row buffer. An access outside them ends the run.
`LibSources.Client` has the same functions over whole packets.

* Pointers into the packet and into the row buffer are offsets, and `to` is called `dst`; `none` is
  the null pointer. The row buffer is the part behind the array of pointers.
* `read_one_row` keeps the row in the packet. The byte behind the packet, where `my_net_read`
  puts a 0, belongs to the buffer.
* `unsigned long` has 64 bits, and `fields + 1` does not wrap around. An allocation never fails.
* `max_length`, `warning_count` and `server_status` do not influence the rows and are left out.
* What `cli_safe_read` reads of an error packet is left out.

## Main results

* `rowsAgree_iff`: the rows for which the two functions agree.
-/

namespace LibSources

open Nat Function List

/-- How a run ends without a row. -/
inductive RowError where
  /-- A byte outside the packet is read. -/
  | outsideRead
  /-- A byte outside the row buffer is written. -/
  | outsideWrite
  /-- `CR_MALFORMED_PACKET`, or `CR_UNKNOWN_ERROR` of `read_one_row`. -/
  | malformed
  /-- `cli_safe_read` returns `packet_error`. -/
  | packetError
  deriving DecidableEq

/-- The number of bytes that `net_field_length` reads, by the first one. -/
def prefixBytes (first : UInt8) : ℕ :=
  if first < 251 then 1 else if first = 251 then 1 else if first = 252 then 3
  else if first = 253 then 4 else 5

def readLength (mem : ℕ → UInt8) (size pos : ℕ) : Except RowError (Option ℕ × ℕ) :=
  if pos < size ∧ pos + prefixBytes (mem pos) ≤ size then .ok (netFieldLength mem pos)
  else .error .outsideRead

def toUlong (x : ℤ) : ℤ := if x < 0 then x + 2 ^ 64 else x

/-! ### `cli_read_rows` -/

/-- The loop over the columns in `cli_read_rows`: the array of pointers and the row buffer. -/
def storeFields (mem : ℕ → UInt8) (pktLen : ℕ) :
    ℕ → ℕ → ℕ → (ℕ → UInt8) → Except RowError (List (Option ℕ) × (ℕ → UInt8))
  | 0, _, dst, bytes => .ok ([some dst], bytes)
  | fields + 1, cp, dst, bytes =>
    match readLength mem pktLen cp with
    | .error e => .error e
    | .ok (none, cp) =>
      (storeFields mem pktLen fields cp dst bytes).map fun row => (none :: row.1, row.2)
    | .ok (some len, cp) =>
      if toUlong ((pktLen : ℤ) - 1 - dst) < len then .error .malformed
      else if ¬ (len = 0 ∨ cp + len ≤ pktLen) then .error .outsideRead
      else if pktLen < dst + len + 1 then .error .outsideWrite
      else
        (storeFields mem pktLen fields (cp + len) (dst + len + 1)
          (store bytes dst (window mem cp len ++ [0]))).map fun row => (some dst :: row.1, row.2)

/-- A row in memory: the pointers, with the end of the last column behind them, and the bytes. -/
structure RowMemory where
  data : List (Option ℕ)
  bytes : ℕ → UInt8

/-- `cli_read_rows`, for the packets that come from the server, where `fresh` is in the memory
that `alloc_root` returns. -/
def storeRows (fresh : ℕ → UInt8) (fields : ℕ) :
    List (List UInt8) → Except RowError (List RowMemory)
  | [] => .error .packetError
  | packet :: packets =>
    if packet.length = 0 ∨ byteAt packet 0 = 255 then .error .packetError
    else if byteAt packet 0 ≠ 254 ∨ 8 ≤ packet.length then
      match storeFields (byteAt packet) packet.length fields 0 0 fresh with
      | .error e => .error e
      | .ok (data, bytes) => (storeRows fresh fields packets).map (⟨data, bytes⟩ :: ·)
    else if 1 < packet.length ∧ packet.length < 5 then .error .outsideRead
    else .ok []

/-- The loop of `cli_fetch_lengths`, where `start` is the last column that is not null and the
place of its length. -/
def fetchLengthsLoop : List (Option ℕ) → ℕ → Option (ℕ × ℕ) → (ℕ → ℕ) → ℕ → ℕ
  | [], _, _, lengths => lengths
  | none :: columns, dst, start, lengths =>
    fetchLengthsLoop columns (dst + 1) start (update lengths dst 0)
  | some column :: columns, dst, none, lengths =>
    fetchLengthsLoop columns (dst + 1) (some (column, dst)) lengths
  | some column :: columns, dst, some (start, prevLength), lengths =>
    fetchLengthsLoop columns (dst + 1) (some (column, dst))
      (update lengths prevLength (column - start - 1))

def cliFetchLengths (lengths : ℕ → ℕ) (column : List (Option ℕ)) : ℕ → ℕ :=
  fetchLengthsLoop column 0 none lengths

def terminatePrev (pktLen : ℕ) (prevPos : Option ℕ) (mem : ℕ → UInt8) :
    Except RowError (ℕ → UInt8) :=
  match prevPos with
  | none => .ok mem
  | some prev => if prev ≤ pktLen then .ok (store mem prev [0]) else .error .outsideWrite

def fetchFields (pktLen : ℕ) : ℕ → ℕ → Option ℕ → (ℕ → UInt8) →
    Except RowError (List (Option ℕ) × List ℕ × (ℕ → UInt8))
  | 0, _, none, _ => .error .outsideWrite
  | 0, _, some prev, mem =>
    (terminatePrev pktLen (some prev) mem).map fun mem => ([some (prev + 1)], [], mem)
  | fields + 1, pos, prevPos, mem =>
    match readLength mem pktLen pos with
    | .error e => .error e
    | .ok (none, pos) =>
      match terminatePrev pktLen prevPos mem with
      | .error e => .error e
      | .ok mem =>
        (fetchFields pktLen fields pos (some pos) mem).map fun row =>
          (none :: row.1, 0 :: row.2.1, row.2.2)
    | .ok (some len, pos) =>
      if toUlong ((pktLen : ℤ) - pos) < len then .error .malformed
      else
        match terminatePrev pktLen prevPos mem with
        | .error e => .error e
        | .ok mem =>
          (fetchFields pktLen fields (pos + len) (some (pos + len)) mem).map fun row =>
            (some pos :: row.1, len :: row.2.1, row.2.2)

/-- Calls of `read_one_row` until it returns an error or the end of the data: the rows with
their lengths. -/
def fetchRows (fields : ℕ) : List (List UInt8) → Except RowError (List (RowMemory × List ℕ))
  | [] => .error .packetError
  | packet :: packets =>
    if packet.length = 0 ∨ byteAt packet 0 = 255 then .error .packetError
    else if packet.length ≤ 8 ∧ byteAt packet 0 = 254 then
      if 1 < packet.length ∧ packet.length < 5 then .error .outsideRead else .ok []
    else
      match fetchFields packet.length fields 0 none (byteAt packet) with
      | .error e => .error e
      | .ok (data, lengths, bytes) => (fetchRows fields packets).map ((⟨data, bytes⟩, lengths) :: ·)

/-! ### Packets whose columns fit -/

/-- The columns that start at `pos` lie in the packet of `size` bytes. -/
def RowFits (mem : ℕ → UInt8) (size : ℕ) : ℕ → ℕ → Prop
  | 0, _ => True
  | fields + 1, pos =>
    match netFieldLength mem pos with
    | (none, pos) => pos ≤ size ∧ RowFits mem size fields pos
    | (some len, pos) => pos + len ≤ size ∧ RowFits mem size fields (pos + len)

def columnsAt (mem : ℕ → UInt8) : ℕ → ℕ → Row
  | 0, _ => []
  | fields + 1, pos =>
    match netFieldLength mem pos with
    | (none, pos) => none :: columnsAt mem fields pos
    | (some len, pos) => some (window mem pos len) :: columnsAt mem fields (pos + len)

/-- Each length lies in the packet, up to the first column that does not fit. -/
def Fetchable (mem : ℕ → UInt8) (size : ℕ) : ℕ → ℕ → Prop
  | 0, _ => True
  | fields + 1, pos =>
    match netFieldLength mem pos with
    | (none, pos) => pos ≤ size ∧ Fetchable mem size fields pos
    | (some len, pos) => pos ≤ size ∧ (pos + len ≤ size → Fetchable mem size fields (pos + len))

theorem prefixBytes_pos (first : UInt8) : 0 < prefixBytes first := by
  rw [prefixBytes]
  split_ifs <;> decide

section

variable (mem : ℕ → UInt8) (pos : ℕ)

theorem netFieldLength_snd : pos + prefixBytes (mem pos) ≤ (netFieldLength mem pos).2 ∧
      ((netFieldLength mem pos).1 = none → (netFieldLength mem pos).2 = pos + 1 ∧
        prefixBytes (mem pos) = 1) := by
  rw [netFieldLength, fieldLength, prefixBytes]
  split_ifs <;> simp

end

variable {mem mem' : ℕ → UInt8} {pos size dst : ℕ} {prev : Option ℕ} {cols : Row}

theorem netFieldLength_congr (h : ∀ j, pos ≤ j → mem' j = mem j) :
    netFieldLength mem' pos = netFieldLength mem pos := by
  simp only [netFieldLength, fieldLength, uint2korr, uint3korr, uint4korr]
  rw [h pos le_rfl, h (pos + 1) (by omega), h (pos + 1 + 1) (by omega), h (pos + 1 + 2) (by omega),
    h (pos + 1 + 2 + 1) (by omega)]

theorem fetchFields_outside (fields : ℕ) (mem : ℕ → UInt8) (h : size < pos) :
    ∃ e, fetchFields size fields pos (some pos) mem = .error e ∧ e ≠ .malformed := by
  cases fields with
  | zero =>
    refine ⟨.outsideWrite, ?_, by decide⟩
    rw [fetchFields, terminatePrev, if_neg (by omega)]
    rfl
  | succ fields =>
    have hread : readLength mem size pos = .error .outsideRead := if_neg (by omega)
    exact ⟨.outsideRead, by rw [fetchFields, hread], by decide⟩

/-- The NUL behind the column before is at the length that has just been read. -/
theorem terminatePrev_eq (mem : ℕ → UInt8) (hpos : pos ≤ size)
    (hprev : prev = none ∨ prev = some pos) :
    ∃ mem', terminatePrev size prev mem = .ok mem' ∧ (∀ j, j ≠ pos → mem' j = mem j) ∧
      (prev = some pos → mem' pos = 0) := by
  rcases hprev with rfl | rfl
  · exact ⟨mem, rfl, fun j _ => rfl, nofun⟩
  refine ⟨store mem pos [0], if_pos hpos, fun j hj => ?_, fun _ => ?_⟩
  · rcases lt_or_gt_of_ne hj with hlt | hgt
    · exact store_of_lt mem [0] hlt
    · exact store_of_ge mem [0] hgt
  · have hself := window_store_self mem pos [0]
    exact (cons.inj hself).1

theorem fields_congr (size : ℕ) {fields : ℕ} (h : ∀ j, pos ≤ j → mem' j = mem j) :
    (RowFits mem' size fields pos ↔ RowFits mem size fields pos) ∧
      (Fetchable mem' size fields pos ↔ Fetchable mem size fields pos) ∧
      columnsAt mem' fields pos = columnsAt mem fields pos := by
  induction fields generalizing pos with
  | zero => exact ⟨Iff.rfl, Iff.rfl, rfl⟩
  | succ fields ih =>
    have hsnd := netFieldLength_snd mem pos
    have hpositive := prefixBytes_pos (mem pos)
    rw [RowFits, RowFits, Fetchable, Fetchable, columnsAt, columnsAt, netFieldLength_congr h]
    rcases hlen : netFieldLength mem pos with ⟨_ | len, next⟩ <;> rw [hlen] at hsnd <;>
      dsimp only at hsnd ⊢
    · obtain ⟨hrow, hfetch, hcols⟩ := @ih next fun j hj => h j (by omega)
      rw [hrow, hfetch, hcols]
      exact ⟨Iff.rfl, Iff.rfl, rfl⟩
    obtain ⟨hrow, hfetch, hcols⟩ := @ih (next + len) fun j hj => h j (by omega)
    rw [hrow, hfetch, hcols, window_congr fun j hj _ => h j (by omega)]
    exact ⟨Iff.rfl, Iff.rfl, rfl⟩

/-! ### The rows of a packet that fits -/

def columnLength (value : Option (List UInt8)) : ℕ := (value.map List.length).getD 0

def rowBytes : Row → List UInt8
  | [] => []
  | none :: cols => rowBytes cols
  | some bytes :: cols => (bytes ++ [0]) ++ rowBytes cols

/-- The places of the columns in the row buffer, and the end. -/
def offsets : ℕ → Row → List (Option ℕ)
  | dst, [] => [some dst]
  | dst, none :: cols => none :: offsets dst cols
  | dst, some bytes :: cols => some dst :: offsets (dst + bytes.length + 1) cols

theorem storeFields_eq {fields : ℕ} (bytes : ℕ → UInt8) (hdst : dst ≤ pos)
    (hfits : RowFits mem size fields pos) :
    storeFields mem size fields pos dst bytes = .ok (offsets dst (columnsAt mem fields pos),
      store bytes dst (rowBytes (columnsAt mem fields pos))) := by
  induction fields generalizing pos dst bytes with
  | zero => rw [storeFields, columnsAt, offsets, rowBytes, store_nil]
  | succ fields ih =>
    have hsnd := netFieldLength_snd mem pos
    have hpositive := prefixBytes_pos (mem pos)
    rw [storeFields, columnsAt, readLength]
    rw [RowFits] at hfits
    rcases hlen : netFieldLength mem pos with ⟨_ | len, next⟩
    · rw [hlen] at hsnd hfits
      rw [if_pos (by omega)]
      dsimp only
      rw [ih bytes (by omega) hfits.2]
      rfl
    rw [hlen] at hsnd hfits
    have hroom : toUlong ((size : ℤ) - 1 - dst) = (size : ℤ) - 1 - dst := if_neg (by omega)
    rw [if_pos (by omega)]
    dsimp only
    have hlength : (window mem next len ++ [(0 : UInt8)]).length = len + 1 := by
      rw [length_append, length_window]
      rfl
    have hstore := store_append bytes dst (window mem next len ++ [0])
      (rowBytes (columnsAt mem fields (next + len)))
    rw [hlength, ← add_assoc] at hstore
    rw [hroom, if_neg (by omega), if_neg (by omega), if_neg (by omega),
      ih _ (by omega) hfits.2, offsets, rowBytes, length_window, hstore]
    rfl

def rowContents (mem : ℕ → UInt8) : List (Option ℕ) → List ℕ → Row
  | column :: data, length :: lengths =>
    column.map (window mem · length) :: rowContents mem data lengths
  | _, _ => []

def Terminated (mem : ℕ → UInt8) : List (Option ℕ) → List ℕ → Prop
  | some column :: data, length :: lengths =>
    mem (column + length) = 0 ∧ Terminated mem data lengths
  | none :: data, _ :: lengths => Terminated mem data lengths
  | _, _ => True

theorem contents_offsets (h : window mem dst (rowBytes cols).length = rowBytes cols) :
    rowContents mem (offsets dst cols) (cols.map columnLength) = cols ∧
      Terminated mem (offsets dst cols) (cols.map columnLength) := by
  induction cols generalizing dst with
  | nil => exact ⟨rfl, trivial⟩
  | cons value cols ih =>
    cases value with
    | none =>
      obtain ⟨hcontents, hterminated⟩ := ih h
      exact ⟨congrArg (none :: ·) hcontents, hterminated⟩
    | some bytes =>
      rw [rowBytes] at h
      obtain ⟨hfirst, hrest⟩ := window_eq_append h
      obtain ⟨hbytes, hnul⟩ := window_eq_append hfirst
      rw [length_append, length_singleton, ← add_assoc] at hrest
      obtain ⟨hcontents, hterminated⟩ := ih hrest
      refine ⟨?_, (cons.inj hnul).1, hterminated⟩
      rw [map_cons, offsets, rowContents, hcontents]
      exact congrArg (some · :: cols) hbytes

theorem fetchFields_eq {fields : ℕ} (hpos : pos ≤ size) (hprev : prev = none ∨ prev = some pos)
    (hfields : prev = none → fields ≠ 0) (hfits : RowFits mem size fields pos) :
    ∃ data mem', fetchFields size fields pos prev mem =
        .ok (data, (columnsAt mem fields pos).map columnLength, mem') ∧
      (∀ j, j < pos → mem' j = mem j) ∧ (prev = some pos → mem' pos = 0) ∧
      rowContents mem' data ((columnsAt mem fields pos).map columnLength) =
        columnsAt mem fields pos ∧
      Terminated mem' data ((columnsAt mem fields pos).map columnLength) := by
  induction fields generalizing pos prev mem with
  | zero =>
    rcases hprev with rfl | rfl
    · exact absurd rfl (hfields rfl)
    obtain ⟨mem', hterm, hmem', hnul⟩ := terminatePrev_eq mem hpos (.inr rfl)
    refine ⟨[some (pos + 1)], mem', ?_, fun j hj => hmem' j hj.ne, hnul, rfl, trivial⟩
    rw [fetchFields, hterm]
    rfl
  | succ fields ih =>
    have hsnd := netFieldLength_snd mem pos
    have hpositive := prefixBytes_pos (mem pos)
    obtain ⟨mem1, hterm, hmem1, hnul⟩ := terminatePrev_eq mem hpos hprev
    rw [fetchFields, columnsAt, readLength]
    rw [RowFits] at hfits
    rcases hlen : netFieldLength mem pos with ⟨_ | len, next⟩
    · rw [hlen] at hsnd hfits
      have hinside : next ≤ size := hfits.1
      have hagree : ∀ j, next ≤ j → mem1 j = mem j := fun j hj => hmem1 j (by omega)
      obtain ⟨data, mem', heq, hbelow, hnul', hcontents, hterminated⟩ :=
        ih hinside (.inr rfl) nofun ((fields_congr size hagree).1.mpr hfits.2)
      rw [(fields_congr size hagree).2.2] at heq hcontents hterminated
      refine ⟨none :: data, mem', ?_, fun j hj => ?_, fun h => ?_, ?_, hterminated⟩
      · rw [if_pos (by omega)]
        rw [hterm]
        dsimp only
        rw [heq]
        rfl
      · rw [hbelow j (by omega), hmem1 j hj.ne]
      · rw [hbelow pos (by omega), hnul h]
      · exact congrArg (none :: ·) hcontents
    rw [hlen] at hsnd hfits
    have hinside : next + len ≤ size := hfits.1
    have hroom : toUlong ((size : ℤ) - next) = (size : ℤ) - next := if_neg (by omega)
    have hagree : ∀ j, next + len ≤ j → mem1 j = mem j := fun j hj => hmem1 j (by omega)
    obtain ⟨data, mem', heq, hbelow, hnul', hcontents, hterminated⟩ :=
      ih hinside (.inr rfl) nofun ((fields_congr size hagree).1.mpr hfits.2)
    rw [(fields_congr size hagree).2.2] at heq hcontents hterminated
    have hlength : columnLength (some (window mem next len)) = len := length_window _ _ _
    have hwindow : window mem' next len = window mem next len := window_congr fun j h1 h2 => by
      rw [hbelow j (by omega), hmem1 j (by omega)]
    refine ⟨some next :: data, mem', ?_, fun j hj => ?_, fun h => ?_, ?_, ?_⟩
    · rw [if_pos (by omega)]
      dsimp only
      rw [hroom, if_neg (by omega), hterm]
      dsimp only
      rw [heq, map_cons, hlength]
      rfl
    · rw [hbelow j (by omega), hmem1 j hj.ne]
    · rw [hbelow pos (by omega), hnul h]
    · rw [map_cons, hlength, rowContents, hcontents]
      exact congrArg (some · :: _) hwindow
    · rw [map_cons, hlength]
      exact ⟨hnul' rfl, hterminated⟩

theorem fetchFields_fits {fields : ℕ} (hpos : pos ≤ size) (hprev : prev = none ∨ prev = some pos)
    {row : List (Option ℕ) × List ℕ × (ℕ → UInt8)}
    (h : fetchFields size fields pos prev mem = .ok row) : RowFits mem size fields pos := by
  induction fields generalizing pos prev mem row with
  | zero => trivial
  | succ fields ih =>
    have hsnd := netFieldLength_snd mem pos
    obtain ⟨mem1, hterm, hmem1, -⟩ := terminatePrev_eq mem hpos hprev
    have hpositive := prefixBytes_pos (mem pos)
    rw [fetchFields, readLength] at h
    rw [RowFits]
    by_cases hread : pos < size ∧ pos + prefixBytes (mem pos) ≤ size
    · rw [if_pos hread] at h
      rcases hlen : netFieldLength mem pos with ⟨_ | len, next⟩
      · rw [hlen] at h hsnd
        obtain ⟨rfl, -⟩ := hsnd.2 rfl
        rw [hterm] at h
        dsimp only at h
        cases hrest : fetchFields size fields (pos + 1) (some (pos + 1)) mem1 with
        | error e =>
          rw [hrest] at h
          exact nomatch h
        | ok rest =>
          have hfits := ih hread.1 (.inr rfl) hrest
          exact ⟨hread.1, (fields_congr _ fun j hj => hmem1 j (by omega)).1.mp hfits⟩
      rw [hlen] at h hsnd
      dsimp only at h
      by_cases hroom : toUlong ((size : ℤ) - next) < len
      · rw [if_pos hroom] at h
        exact nomatch h
      rw [if_neg hroom, hterm] at h
      dsimp only at h
      cases hrest : fetchFields size fields (next + len) (some (next + len)) mem1 with
      | error e =>
        rw [hrest] at h
        exact nomatch h
      | ok rest =>
        have hinside : next + len ≤ size := by
          by_contra hout
          obtain ⟨e, herror, -⟩ := fetchFields_outside fields mem1 (by omega : size < next + len)
          exact nomatch hrest.symm.trans herror
        have hfits := ih hinside (.inr rfl) hrest
        exact ⟨hinside, (fields_congr _ fun j hj => hmem1 j (by omega)).1.mp hfits⟩
    · rw [if_neg hread] at h
      exact nomatch h

theorem offsets_fetchLengthsLoop (cols : Row) (dst i : ℕ) (start : Option (ℕ × ℕ))
    (lengths : ℕ → ℕ) (hstart : ∀ s j, start = some (s, j) → j < i) :
    window (fetchLengthsLoop (offsets dst cols) i start lengths) i cols.length =
        cols.map columnLength ∧
      (∀ k, k < i → (∀ s, start ≠ some (s, k)) →
        fetchLengthsLoop (offsets dst cols) i start lengths k = lengths k) ∧
      ∀ s j, start = some (s, j) →
        fetchLengthsLoop (offsets dst cols) i start lengths j = dst - s - 1 := by
  induction cols generalizing dst i start lengths with
  | nil =>
    rcases start with _ | ⟨s, j⟩
    · exact ⟨rfl, fun k _ _ => rfl, fun s j hcontra => nomatch hcontra⟩
    refine ⟨rfl, fun k hk hne => ?_, fun s' j' heq => ?_⟩
    · exact update_of_ne (fun hkj => hne s (by rw [hkj])) _ _
    · cases heq
      exact update_self _ _ _
  | cons value cols ih =>
    rw [length_cons, window_succ, map_cons]
    cases value with
    | none =>
      rw [offsets, fetchLengthsLoop]
      obtain ⟨hwindow, hbelow, hprev⟩ := ih dst (i + 1) start (update lengths i 0)
        fun s j heq => (hstart s j heq).trans (lt_succ_self i)
      refine ⟨?_, fun k hk hne => ?_, hprev⟩
      · rw [hwindow, hbelow i (lt_succ_self i), update_self]
        · rfl
        · exact fun s heq => (hstart s i heq).false
      · rw [hbelow k (by omega) hne, update_of_ne hk.ne]
    | some bytes =>
      rw [offsets]
      have hnext : ∀ s j, some (dst, i) = some (s, j) → j < i + 1 := by
        intro s j heq
        cases heq
        exact lt_succ_self i
      have hlen : dst + bytes.length + 1 - dst - 1 = columnLength (some bytes) := by
        change _ = bytes.length
        omega
      rcases start with _ | ⟨s, j⟩
      · rw [fetchLengthsLoop]
        obtain ⟨hwindow, hbelow, hprev⟩ := ih (dst + bytes.length + 1) (i + 1) (some (dst, i))
          lengths hnext
        refine ⟨?_, fun k hk hne => ?_, fun s j hcontra => nomatch hcontra⟩
        · rw [hwindow, hprev dst i rfl, hlen]
        refine hbelow k (by omega) fun s heq => ?_
        cases heq
        exact hk.false
      rw [fetchLengthsLoop]
      obtain ⟨hwindow, hbelow, hprev⟩ := ih (dst + bytes.length + 1) (i + 1) (some (dst, i))
        (update lengths j (dst - s - 1)) hnext
      have hother : ∀ k, k < i → ∀ s', some (dst, i) ≠ some (s', k) := by
        intro k hk s' heq
        cases heq
        exact hk.false
      refine ⟨?_, fun k hk hne => ?_, fun s' j' heq => ?_⟩
      · rw [hwindow, hprev dst i rfl, hlen]
      · rw [hbelow k (by omega) (hother k hk), update_of_ne fun hkj => hne s (by rw [hkj])]
      cases heq
      have hj := hstart s j rfl
      rw [hbelow j (by omega) (hother j hj), update_self]

theorem cliFetchLengths_offsets (lengths : ℕ → ℕ) (cols : Row) :
    window (cliFetchLengths lengths (offsets 0 cols)) 0 cols.length = cols.map columnLength :=
  (offsets_fetchLengthsLoop cols 0 0 none lengths fun _ _ hcontra => nomatch hcontra).1

/-! ### Packets with columns of any length -/

theorem netFieldLength_netStoreLength {n : ℕ}
    (h : window mem pos (netStoreLength n).length = netStoreLength n) :
    netFieldLength mem pos = (some (n % 2 ^ 32), pos + (netStoreLength n).length) := by
  by_cases hn : n < 2 ^ 32
  · rw [mod_eq_of_lt hn]
    exact fieldLength_netStoreLength h (uint4korr_of_window hn)
  have hstore : netStoreLength n = 254 :: int8store n := by
    rw [netStoreLength, if_neg (by omega), if_neg (by omega), if_neg (by omega)]
  rw [hstore, length_cons, window_succ] at h
  obtain ⟨hhead, htail⟩ := cons.inj h
  obtain ⟨h0, h1, -⟩ := window_int8store htail
  rw [hstore, netFieldLength, fieldLength, hhead, if_neg (by decide), if_neg (by decide),
    if_neg (by decide), if_neg (by decide), uint4korr, h0, h1]
  have hlow : n % 65536 + n / 65536 % 65536 * 65536 = n % 2 ^ 32 := by omega
  rw [hlow]
  rfl

theorem netFieldLength_null (h : mem pos = 251) : netFieldLength mem pos = (none, pos + 1) := by
  rw [netFieldLength, fieldLength, h, if_neg (by decide), if_pos rfl]

theorem columnsAt_columns (hlt : ∀ bytes, some bytes ∈ cols → bytes.length < 2 ^ 32)
    (h : window mem pos (cols.map column).flatten.length = (cols.map column).flatten)
    (hsize : pos + (cols.map column).flatten.length ≤ size) :
    columnsAt mem cols.length pos = cols ∧ RowFits mem size cols.length pos := by
  induction cols generalizing pos with
  | nil => exact ⟨rfl, trivial⟩
  | cons value cols ih =>
    rw [map_cons, flatten_cons] at h hsize
    rw [length_append] at hsize
    obtain ⟨hcol, hrest⟩ := window_eq_append h
    rw [length_cons, columnsAt, RowFits]
    have hlt' : ∀ bytes, some bytes ∈ cols → bytes.length < 2 ^ 32 :=
      fun bytes hmem => hlt bytes (mem_cons_of_mem value hmem)
    cases value with
    | none =>
      have hlen : (column none).length = 1 := rfl
      rw [hlen] at hcol hrest hsize
      have hnull : mem pos = 251 := (cons.inj hcol).1
      rw [netFieldLength_null hnull]
      obtain ⟨hcols, hfits⟩ := ih hlt' hrest (by omega)
      exact ⟨congrArg (none :: ·) hcols, by omega, hfits⟩
    | some bytes =>
      rw [column] at hcol hrest hsize
      obtain ⟨hlength, hbytes⟩ := window_eq_append hcol
      rw [length_append] at hrest hsize
      rw [netFieldLength_netStoreLength hlength, mod_eq_of_lt (hlt bytes mem_cons_self)]
      rw [← add_assoc] at hrest
      obtain ⟨hcols, hfits⟩ := ih hlt' hrest (by omega)
      dsimp only
      refine ⟨?_, by omega, hfits⟩
      rw [hcols, hbytes]

theorem length_lt_of_columnsAt
    (h : window mem pos (cols.map column).flatten.length = (cols.map column).flatten)
    (hlengths : (columnsAt mem cols.length pos).map columnLength = cols.map columnLength) :
    ∀ bytes, some bytes ∈ cols → bytes.length < 2 ^ 32 := by
  induction cols generalizing pos with
  | nil => exact fun bytes hmem => absurd hmem not_mem_nil
  | cons value cols ih =>
    rw [map_cons, flatten_cons] at h
    obtain ⟨hcol, hrest⟩ := window_eq_append h
    rw [length_cons, columnsAt] at hlengths
    cases value with
    | none =>
      have hlen : (column none).length = 1 := rfl
      rw [hlen] at hcol hrest
      have hnull : mem pos = 251 := (cons.inj hcol).1
      rw [netFieldLength_null hnull] at hlengths
      intro bytes hmem
      exact ih hrest (cons.inj hlengths).2 bytes ((mem_cons.mp hmem).resolve_left nofun)
    | some first =>
      rw [column] at hcol hrest
      obtain ⟨hlength, hbytes⟩ := window_eq_append hcol
      rw [length_append, ← add_assoc] at hrest
      rw [netFieldLength_netStoreLength hlength] at hlengths
      rw [map_cons, map_cons] at hlengths
      obtain ⟨hfirst, htail⟩ := cons.inj hlengths
      have hfirst : first.length % 2 ^ 32 = first.length := by
        rw [columnLength, Option.map_some, length_window] at hfirst
        exact hfirst
      have hlt : first.length < 2 ^ 32 := by
        rw [← hfirst]
        exact mod_lt _ (by norm_num)
      rw [hfirst] at htail
      intro bytes hmem
      rcases mem_cons.mp hmem with heq | hmem
      · cases heq
        exact hlt
      · exact ih hrest htail bytes hmem

/-- The two ways to read the row packet of the columns show the columns: the same NULLs, lengths
and bytes, with a NUL behind each column. -/
def RowsAgree (cols : Row) : Prop :=
  ∀ (fresh : ℕ → UInt8) (unset : ℕ → ℕ), ∃ stored fetched lengths,
    storeRows fresh cols.length [(cols.map column).flatten, [254]] = .ok [stored] ∧
    fetchRows cols.length [(cols.map column).flatten, [254]] = .ok [(fetched, lengths)] ∧
    window (cliFetchLengths unset stored.data) 0 cols.length = lengths ∧
    lengths = cols.map columnLength ∧
    rowContents stored.bytes stored.data lengths = cols ∧
    rowContents fetched.bytes fetched.data lengths = cols ∧
    Terminated stored.bytes stored.data lengths ∧
    Terminated fetched.bytes fetched.data lengths

theorem rowPacket_head (hcols : cols ≠ []) :
    (cols.map column).flatten.length ≠ 0 ∧ byteAt (cols.map column).flatten 0 ≠ 255 ∧
      (byteAt (cols.map column).flatten 0 = 254 → 8 < (cols.map column).flatten.length) := by
  obtain ⟨value, cols, rfl⟩ := exists_cons_of_ne_nil hcols
  obtain ⟨b, rest, heq, hne, hlong⟩ := column_eq_cons value
  rw [map_cons, flatten_cons, heq, cons_append, length_cons, length_append]
  exact ⟨succ_ne_zero _, hne, fun hb => by have := hlong hb; omega⟩

theorem RowsAgree.length_lt (h : RowsAgree cols) :
    ∀ bytes, some bytes ∈ cols → bytes.length < 2 ^ 32 := by
  intro bytes hmem
  have hcols : cols ≠ [] := ne_nil_of_mem hmem
  obtain ⟨hlength, herror, heof⟩ := rowPacket_head hcols
  obtain ⟨stored, fetched, lengths, -, hfetched, -, hlengths, -⟩ := h (fun _ => 0) fun _ => 0
  have hwin := window_byteAt [] (cols.map column).flatten []
  rw [nil_append, append_nil, length_nil] at hwin
  rw [fetchRows, if_neg (not_or.mpr ⟨hlength, herror⟩), if_neg fun hand => by
    have := heof hand.2
    omega] at hfetched
  cases hrow : fetchFields (cols.map column).flatten.length cols.length 0 none
      (byteAt (cols.map column).flatten) with
  | error e =>
    rw [hrow] at hfetched
    exact nomatch hfetched
  | ok row =>
    have hfits := fetchFields_fits zero_le (.inl rfl) hrow
    obtain ⟨data, mem', heq, -⟩ := fetchFields_eq zero_le (.inl rfl)
      (fun _ => (length_pos_of_ne_nil hcols).ne') hfits
    rw [hrow] at heq
    cases heq
    rw [hrow] at hfetched
    have hlist := Except.ok.inj hfetched
    have hpair := (cons.inj hlist).1
    have hsecond : _ = lengths := congrArg Prod.snd hpair
    exact length_lt_of_columnsAt hwin (hsecond.trans hlengths) bytes hmem

/-- Stored rows and rows in the packet agree for columns shorter than 2³². -/
theorem rowsAgree_iff (cols : Row) :
    RowsAgree cols ↔ cols ≠ [] ∧ ∀ bytes, some bytes ∈ cols → bytes.length < 2 ^ 32 := by
  refine ⟨fun h => ⟨?_, h.length_lt⟩, fun ⟨hcols, hlt⟩ fresh unset => ?_⟩
  · rintro rfl
    obtain ⟨stored, fetched, lengths, hstored, -⟩ := h (fun _ => 0) fun _ => 0
    exact nomatch hstored
  obtain ⟨hlength, herror, heof⟩ := rowPacket_head hcols
  have hwin := window_byteAt [] (cols.map column).flatten []
  rw [nil_append, append_nil, length_nil] at hwin
  obtain ⟨hcolumns, hfits⟩ := columnsAt_columns hlt hwin (zero_add _).le
  have hstore := storeFields_eq fresh le_rfl hfits
  obtain ⟨data, mem', hfetch, -, -, hcontents, hterminated⟩ :=
    fetchFields_eq zero_le (.inl rfl) (fun _ => (length_pos_of_ne_nil hcols).ne') hfits
  rw [hcolumns] at hstore hfetch hcontents hterminated
  obtain ⟨hshow, hnuls⟩ := contents_offsets (window_store_self fresh 0 (rowBytes cols))
  refine ⟨⟨offsets 0 cols, store fresh 0 (rowBytes cols)⟩, ⟨data, mem'⟩, cols.map columnLength,
    ?_, ?_, cliFetchLengths_offsets unset cols, rfl, hshow, hcontents, hnuls, hterminated⟩
  · rw [storeRows, if_neg (not_or.mpr ⟨hlength, herror⟩), if_pos, hstore]
    · rfl
    by_contra hnot
    rw [not_or, not_not] at hnot
    have := heof hnot.1
    omega
  · rw [fetchRows, if_neg (not_or.mpr ⟨hlength, herror⟩), if_neg, hfetch]
    · rfl
    intro hand
    have := heof hand.2
    omega

/-- The length of a column of 2³² bytes is read as 0. -/
theorem not_rowsAgree_replicate : ¬ RowsAgree [some (List.replicate (2 ^ 32) 65)] := by
  intro h
  have hlt := h.length_lt _ (mem_singleton.mpr rfl)
  rw [length_replicate] at hlt
  exact hlt.false

end LibSources
