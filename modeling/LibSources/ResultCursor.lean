import LibSources.MachineInt

/-!
# Scrollable Result Sets of the C++ Driver

The moves of `MySQL_ResultSet` and of `MySQL_Prepared_ResultSet` in a result of `n` rows.

* Rows are counted from 1. `row` is the row that the columns are read from, through `row` or the
  bound buffers; it is 0 if there is none.
* `dataCursor` is the number of rows before the `data_cursor` of the result.
* `num_rows + 1` does not wrap around. The negation of an `int` does.
* A call that has no result returns `false`.

## Main results

* `ResultCursor.moves_run_iff`: the runs that move like a cursor.
* `ResultCursor.delivers_run_iff`: the runs that show the rows they stand on.
-/

namespace LibSources

/-- The position, and the state of the result under it. -/
structure ResultCursor where
  rowPosition : ℕ
  dataCursor : ℕ
  row : ℕ
  deriving DecidableEq

inductive CursorCall where
  | absolute (newPos : BitVec 32)
  | relative (rows : BitVec 32)
  | first
  | last
  | next
  | previous
  | beforeFirst
  | afterLast

namespace ResultCursor

variable (n : ℕ) (s : ResultCursor)

/-- `mysql_data_seek` and `mysql_stmt_data_seek`. -/
def dataSeek (offset : ℕ) : ResultCursor := { s with dataCursor := min offset n }

/-- The next row is fetched. Behind the last row, `atEnd` is what the columns are read from. -/
def fetch (atEnd : ℕ) : ResultCursor × Bool :=
  if s.dataCursor < n then
    ({ s with row := s.dataCursor + 1, dataCursor := s.dataCursor + 1 }, true)
  else ({ s with row := atEnd }, false)

/-- `mysql_fetch_row`. -/
def fetchRow : ResultCursor × Bool := s.fetch n 0

/-- `mysql_stmt_fetch` leaves the buffers alone at the end. -/
def stmtFetch : ResultCursor × Bool := s.fetch n s.row

/-- `MySQL_ResultSet::seek`. -/
def seek : ResultCursor := ((s.dataSeek n (s.rowPosition - 1)).fetchRow n).1

/-- `MySQL_Prepared_ResultSet::seek`. -/
def stmtSeek : ResultCursor := ((s.dataSeek n (s.rowPosition - 1)).stmtFetch n).1

def beforeFirst : ResultCursor := { s.dataSeek n 0 with rowPosition := 0 }

def afterLast : ResultCursor := { s with rowPosition := n + 1 }

section

variable (seek : ResultCursor → ResultCursor)

/-- `absolute`, with the `seek` of the class. -/
def absolute (newPos : ℤ) : ResultCursor × Bool :=
  if 0 < newPos then
    if toInt32 n < newPos then (s.afterLast n, false)
    else (seek { s with rowPosition := newPos.toNat }, true)
  else if newPos < 0 then
    if toInt32 n < toInt32 (-newPos) then ({ s with rowPosition := 0 }, false)
    else (seek { s with rowPosition := ((n - toInt32 (-newPos) + 1) % 2 ^ 64).toNat }, true)
  else (s.beforeFirst n, false)

/-- `relative`, with what the class does where it lands on a row. -/
def relative (land : ResultCursor → ResultCursor) (rows : ℤ) : ResultCursor × Bool :=
  let position : ℤ := (s.rowPosition + rows) % 2 ^ 64
  let s' := if rows = 0 then s else if n < position ∨ position < 1 then
      { s with rowPosition := if 0 < rows then n + 1 else 0 }
    else land { s with rowPosition := position.toNat }
  (s', 0 < s'.rowPosition ∧ s'.rowPosition ≤ n)

/-- `first` and `last`, where `position` is the row. -/
def edge (position : ℕ) : ResultCursor × Bool :=
  if n ≠ 0 then (seek { s with rowPosition := position }, true) else (s, false)

end

/-- `next`, with what the class does before a row that is not the last one. -/
def advance (fetched : ResultCursor × Bool) : ResultCursor × Bool :=
  if s.rowPosition = n then (s.afterLast n, false)
  else if s.rowPosition < n + 1 then
    ({ fetched.1 with rowPosition := s.rowPosition + 1 }, fetched.2)
  else (s, false)

/-- `previous`, with what the class does behind the first row. -/
def retreat (fetched : ResultCursor → ResultCursor × Bool) : ResultCursor × Bool :=
  if s.rowPosition = 0 then (s, false)
  else if s.rowPosition = 1 then (s.beforeFirst n, false)
  else fetched { s with rowPosition := s.rowPosition - 1 }

/-- The calls of `MySQL_ResultSet`. -/
def move : CursorCall → ResultCursor × Bool
  | .absolute newPos => s.absolute n (seek n) newPos.toInt
  | .relative rows => s.relative n (seek n) rows.toInt
  | .first => s.edge n (seek n) 1
  | .last => s.edge n (seek n) n
  | .next => s.advance n (s.fetchRow n)
  | .previous => s.retreat n fun s => (s.seek n, true)
  | .beforeFirst => (s.beforeFirst n, false)
  | .afterLast => (s.afterLast n, false)

/-- The calls of `MySQL_Prepared_ResultSet`. `relative` fetches nothing. -/
def stmtMove : CursorCall → ResultCursor × Bool
  | .absolute newPos => s.absolute n (stmtSeek n) newPos.toInt
  | .relative rows => s.relative n (fun s => s.dataSeek n (s.rowPosition - 1)) rows.toInt
  | .first => s.edge n (stmtSeek n) 1
  | .last => s.edge n (stmtSeek n) n
  | .next => s.advance n ((if s.rowPosition = 0 then s.dataSeek n 0 else s).stmtFetch n)
  | .previous => s.retreat n fun s => (s.dataSeek n (s.rowPosition - 1)).stmtFetch n
  | .beforeFirst => (s.beforeFirst n, false)
  | .afterLast => (s.afterLast n, false)

/-! ### The cursor -/

/-- The position of a cursor with the positions `0` to `n + 1` after a call. -/
def target (position : ℕ) : CursorCall → ℕ
  | .absolute newPos =>
    if 0 < newPos.toInt then min newPos.toInt.toNat (n + 1)
    else if newPos.toInt < 0 then (n + 1 + newPos.toInt).toNat
    else 0
  | .relative rows => min (position + rows.toInt).toNat (n + 1)
  | .first => 1
  | .last => n
  | .next => min (position + 1) (n + 1)
  | .previous => position - 1
  | .beforeFirst => 0
  | .afterLast => n + 1

/-- A call moves like the cursor, says whether it is on a row, and shows this row. -/
def Moves (call : CursorCall) : Prop :=
  let position := target n s.rowPosition call
  (s.move n call).1.rowPosition = position ∧
    ((s.move n call).2 = true ↔ 1 ≤ position ∧ position ≤ n) ∧
    (1 ≤ position → position ≤ n → (s.move n call).1.row = position)

/-- `absolute` compares its argument with `(int) num_rows`, and `next` relies on the rows being
fetched from the start after a move before them. -/
def Ready : CursorCall → Prop
  | .absolute newPos => newPos.toInt ≠ -2 ^ 31 ∧
      (newPos.toInt = 0 ∨ newPos.toInt.natAbs ≤ toInt32 n ∨ n < newPos.toInt.natAbs)
  | .next => s.rowPosition = 0 → s.dataCursor = 0
  | _ => True

/-- On a row, the columns are those of the row. -/
def Shown : Prop := s.rowPosition ≠ 0 → s.rowPosition ≠ n + 1 → s.row = s.rowPosition

/-- What a call of a prepared statement is for: the row of the position is shown, and `next` goes
to the next row. -/
def Delivers (call : CursorCall) : Prop :=
  Shown n (s.stmtMove n call).1 ∧ (call = .next → 1 ≤ s.rowPosition → s.rowPosition < n →
      (s.stmtMove n call).1.rowPosition = s.rowPosition + 1 ∧
        (s.stmtMove n call).1.row = s.rowPosition + 1 ∧ (s.stmtMove n call).2 = true)

/-- `absolute` may be negated, `relative` lands on the row that is shown, and `next` relies on a
fetch at the end of the move before it. -/
def StmtReady : CursorCall → Prop
  | .absolute newPos => newPos.toInt ≠ -2 ^ 31
  | .relative rows => rows.toInt ≠ 0 → 1 ≤ s.rowPosition + rows.toInt →
      s.rowPosition + rows.toInt ≤ n → s.row = s.rowPosition + rows.toInt
  | .next => 1 ≤ s.rowPosition → s.rowPosition < n → s.dataCursor = s.rowPosition
  | _ => True

def StmtPlaced : Prop := s.rowPosition ≤ n + 1 ∧ s.row ≤ n ∧ Shown n s

/-- The invariant of a text result, whose next row follows the row shown. -/
def Placed : Prop :=
  StmtPlaced n s ∧ (s.rowPosition ≠ 0 → s.rowPosition ≠ n + 1 → s.dataCursor = s.rowPosition)

/-- Each call of a run does what `P` says. -/
def AlongRun (step : ResultCursor → CursorCall → ResultCursor × Bool)
    (P : ResultCursor → CursorCall → Prop) : ResultCursor → List CursorCall → Prop
  | _, [] => True
  | s, call :: calls => P s call ∧ AlongRun step P (step s call).1 calls

/-- Two properties that agree as long as the second one keeps an invariant agree along a run. -/
theorem alongRun_iff {step : ResultCursor → CursorCall → ResultCursor × Bool}
    {P Q : ResultCursor → CursorCall → Prop} {J : ResultCursor → Prop}
    (h : ∀ s call, J s → (P s call ↔ Q s call) ∧ (Q s call → J (step s call).1))
    (calls : List CursorCall) {s : ResultCursor} (hs : J s) :
    AlongRun step P s calls ↔ AlongRun step Q s calls := by
  induction calls generalizing s with
  | nil => rfl
  | cons call calls ih =>
    obtain ⟨hiff, hkeep⟩ := h s call hs
    rw [AlongRun, AlongRun, hiff]
    exact and_congr_right fun hq => ih (hkeep hq)

variable {n s}

theorem seek_eq {k : ℕ} (hk : 1 ≤ k) (hn : k ≤ n) :
    seek n { s with rowPosition := k } = ⟨k, k, k⟩ ∧
      stmtSeek n { s with rowPosition := k } = ⟨k, k, k⟩ ∧
      ({ s with rowPosition := k }.dataSeek n (k - 1)).stmtFetch n = (⟨k, k, k⟩, true) := by
  have hmin : min (k - 1) n = k - 1 := min_eq_left (by omega)
  have hlt : k - 1 < n := by omega
  simp [seek, stmtSeek, stmtFetch, fetchRow, dataSeek, fetch, hmin, hlt, Nat.sub_add_cancel hk]

theorem seek_of_lt {k : ℕ} (hk : n < k) :
    seek n { s with rowPosition := k } = ⟨k, n, 0⟩ ∧
      stmtSeek n { s with rowPosition := k } = ⟨k, n, s.row⟩ := by
  have hmin : min (k - 1) n = n := min_eq_right (by omega)
  simp [seek, stmtSeek, stmtFetch, fetchRow, dataSeek, fetch, hmin]

theorem edge_eq {k : ℕ} (hk : 1 ≤ k) (hn : k ≤ n) :
    s.edge n (seek n) k = (⟨k, k, k⟩, true) ∧ s.edge n (stmtSeek n) k = (⟨k, k, k⟩, true) := by
  rw [edge, edge, if_pos (by omega), if_pos (by omega), (seek_eq hk hn).1, (seek_eq hk hn).2.1]
  exact ⟨rfl, rfl⟩

/-- Where `absolute` goes. The negation of the least `int` is itself. -/
theorem absolute_eq {sk : ResultCursor → ResultCursor} (p : BitVec 32) (hmax : n < 2 ^ 63)
    (hsk : ∀ k, 1 ≤ k → k ≤ n → sk { s with rowPosition := k } = ⟨k, k, k⟩) :
    (0 < p.toInt ∧ toInt32 n < p.toInt ∧ s.absolute n sk p.toInt = (s.afterLast n, false)) ∨
      (∃ k : ℕ, 1 ≤ k ∧ k ≤ n ∧ p.toInt.natAbs ≤ toInt32 n ∧ p.toInt ≠ -2 ^ 31 ∧
        (0 < p.toInt ∧ k = p.toInt ∨ p.toInt < 0 ∧ k = n + 1 + p.toInt) ∧
        s.absolute n sk p.toInt = (⟨k, k, k⟩, true)) ∨
      (p.toInt < 0 ∧ p.toInt ≠ -2 ^ 31 ∧ toInt32 n < -p.toInt ∧
        s.absolute n sk p.toInt = ({ s with rowPosition := 0 }, false)) ∨
      (p.toInt = -2 ^ 31 ∧
        s.absolute n sk p.toInt = (sk { s with rowPosition := n + 2 ^ 31 + 1 }, true)) ∨
      (p.toInt = 0 ∧ s.absolute n sk p.toInt = (s.beforeFirst n, false)) := by
  have hle : toInt32 n ≤ n := by
    rw [toInt32, Int.bmod_def]
    split <;> omega
  have hmem := toInt32_mem n
  have hlo := BitVec.le_toInt p
  have hhi := BitVec.toInt_lt (x := p)
  rcases lt_trichotomy p.toInt 0 with hp | hp | hp
  · rw [absolute, if_neg (by omega), if_pos hp]
    by_cases hmin : p.toInt = -2 ^ 31
    · have hneg : toInt32 (-p.toInt) = -2 ^ 31 := by
        rw [hmin]
        rfl
      refine .inr (.inr (.inr (.inl ⟨hmin, ?_⟩)))
      rw [hneg, if_neg (by omega), show (n - -2 ^ 31 + 1 : ℤ) % 2 ^ 64 = n + 2 ^ 31 + 1 by omega]
      rfl
    · rw [toInt32_of_mem (x := -p.toInt) (by omega) (by omega)]
      split_ifs with hlt
      · exact .inr (.inr (.inl ⟨hp, hmin, hlt, rfl⟩))
      · have hmod : (((n : ℤ) - -p.toInt + 1) % 2 ^ 64).toNat = (n + 1 + p.toInt).toNat := by omega
        refine .inr (.inl ⟨_, ?_, ?_, ?_, hmin, ?_, by rw [hmod, hsk] <;> omega⟩) <;> omega
  · exact .inr (.inr (.inr (.inr ⟨hp, by simp [absolute, hp]⟩)))
  · rw [absolute, if_pos hp]
    split_ifs with hlt
    · exact .inl ⟨hp, hlt, rfl⟩
    · refine .inr (.inl ⟨p.toInt.toNat, ?_, ?_, ?_, ?_, ?_, by rw [hsk] <;> omega⟩) <;> omega

theorem relative_snd (land : ResultCursor → ResultCursor) (r : ℤ) : (s.relative n land r).2 =
    decide (0 < (s.relative n land r).1.rowPosition ∧ (s.relative n land r).1.rowPosition ≤ n) :=
  rfl

/-- Where `relative` goes. -/
theorem relative_eq {land : ResultCursor → ResultCursor} {r : ℤ} (hlo : -2 ^ 31 ≤ r)
    (hhi : r < 2 ^ 31) (hmax : n < 2 ^ 63) (hle : s.rowPosition ≤ n + 1) :
    (s.relative n land r).1 = if r = 0 then s
      else if s.rowPosition + r ≤ 0 then { s with rowPosition := 0 }
      else if n < s.rowPosition + r then { s with rowPosition := n + 1 }
      else land { s with rowPosition := (s.rowPosition + r).toNat } := by
  rw [relative]
  dsimp only
  by_cases hzero : r = 0
  · rw [if_pos hzero, if_pos hzero]
  rw [if_neg hzero, if_neg hzero]
  by_cases hbefore : s.rowPosition + r ≤ 0
  · rw [if_pos (by omega), if_neg (by omega), if_pos hbefore]
  rw [if_neg hbefore]
  by_cases hbehind : n < s.rowPosition + r
  · rw [if_pos (by omega), if_pos (by omega), if_pos hbehind]
  · rw [if_neg (by omega), if_neg hbehind, Int.emod_eq_of_lt (by omega) (by omega)]

theorem placed_row {k : ℕ} (hn : k ≤ n) : Placed n ⟨k, k, k⟩ :=
  ⟨⟨by dsimp only; omega, hn, fun _ _ => rfl⟩, fun _ _ => rfl⟩

/-- Before the first row and behind the last one, no row is shown. -/
theorem placed_edge (hedge : s.rowPosition = 0 ∨ s.rowPosition = n + 1) (hrow : s.row ≤ n) :
    Placed n s :=
  ⟨⟨by omega, hrow, fun h₁ h₂ => (hedge.elim h₁ h₂).elim⟩, fun h₁ h₂ => (hedge.elim h₁ h₂).elim⟩

section

variable {call : CursorCall}

/-- A call that keeps the invariant moves like the cursor iff it ends at the cursor's position. -/
theorem moves_of_placed {r : ResultCursor × Bool} (hmove : s.move n call = r)
    (hplaced : Placed n r.1) (hsnd : r.2 = decide (1 ≤ r.1.rowPosition ∧ r.1.rowPosition ≤ n))
    (hready : r.1.rowPosition = target n s.rowPosition call ↔ Ready n s call) :
    (Moves n s call ↔ Ready n s call) ∧ (Ready n s call → Placed n (s.move n call).1) := by
  rw [← hready, hmove]
  refine ⟨?_, fun _ => hplaced⟩
  rw [Moves, hmove]
  refine ⟨And.left, fun h => ⟨h, ?_, fun h₁ h₂ => ?_⟩⟩
  · rw [hsnd, ← h, decide_eq_true_iff]
  · rw [← h] at h₁ h₂ ⊢
    exact hplaced.1.2.2 (by omega) (by omega)

theorem moves_to_row {k : ℕ} (hmove : s.move n call = (⟨k, k, k⟩, true)) (hk : 1 ≤ k) (hn : k ≤ n)
    (htarget : target n s.rowPosition call = k) (hready : Ready n s call) :
    (Moves n s call ↔ Ready n s call) ∧ (Ready n s call → Placed n (s.move n call).1) :=
  moves_of_placed hmove (placed_row hn) (decide_eq_true ⟨hk, hn⟩).symm
    (iff_of_true htarget.symm hready)

theorem moves_to_edge {s' : ResultCursor} (hmove : s.move n call = (s', false))
    (hedge : s'.rowPosition = 0 ∨ s'.rowPosition = n + 1) (hrow : s'.row ≤ n)
    (hready : s'.rowPosition = target n s.rowPosition call ↔ Ready n s call) :
    (Moves n s call ↔ Ready n s call) ∧ (Ready n s call → Placed n (s.move n call).1) :=
  moves_of_placed hmove (placed_edge hedge hrow) (decide_eq_false (by dsimp only; omega)).symm
    hready

end

theorem moves_absolute_iff (hmax : n < 2 ^ 63) (p : BitVec 32) (hrow : s.row ≤ n) :
    (Moves n s (.absolute p) ↔ Ready n s (.absolute p)) ∧
      (Ready n s (.absolute p) → Placed n (s.move n (.absolute p)).1) := by
  rcases absolute_eq p hmax fun k h₁ h₂ => (seek_eq h₁ h₂).1 with
    ⟨hp, hlong, h⟩ | ⟨k, hk, hn, hfits, hmin, hplace, h⟩ | ⟨hp, hmin, hlong, h⟩ | ⟨hp, h⟩ | ⟨hp, h⟩
  · refine moves_to_edge h (.inr rfl) hrow ?_
    simp only [afterLast, target, Ready, if_pos hp]
    omega
  · refine moves_to_row h hk hn ?_ ⟨hmin, .inr (.inl hfits)⟩
    rw [target]
    split_ifs <;> omega
  · refine moves_to_edge h (.inl rfl) hrow ?_
    simp only [target, Ready, if_neg hp.not_gt, if_pos hp]
    omega
  · -- the position is behind that of the cursor
    have hmove : s.move n (.absolute p) = (⟨n + 2 ^ 31 + 1, n, 0⟩, true) :=
      h.trans (congrArg (·, true) (seek_of_lt (by omega)).1)
    refine ⟨iff_of_false (fun hmoves => ?_) fun hready => hready.1 hp,
      fun hready => absurd hp hready.1⟩
    have hposition := hmoves.1
    simp only [hmove, target, if_neg (show ¬0 < p.toInt by omega),
      if_pos (show p.toInt < 0 by omega)] at hposition
    omega
  · refine moves_to_edge h (.inl rfl) hrow (iff_of_true ?_ ⟨by omega, .inl hp⟩)
    simp [beforeFirst, target, hp]

theorem moves_next_iff (hn : 1 ≤ n) (h : Placed n s) : (Moves n s .next ↔ Ready n s .next) ∧
    (Ready n s .next → Placed n (s.move n .next).1) := by
  obtain ⟨⟨hle, hrow, hshown⟩, hnext⟩ := h
  have hmove : s.move n .next = s.advance n (s.fetchRow n) := rfl
  rw [advance] at hmove
  split_ifs at hmove with hlast hinside
  · refine moves_to_edge hmove (.inr rfl) hrow (iff_of_true ?_ fun hzero => by omega)
    simp [afterLast, target, hlast]
  · by_cases hzero : s.rowPosition = 0
    · by_cases hstart : s.dataCursor = 0
      · rw [fetchRow, fetch, hstart, if_pos (by omega), hzero] at hmove
        exact moves_to_row hmove le_rfl hn (by simp [target, hzero]) fun _ => hstart
      · -- the row is not the first one
        refine ⟨iff_of_false (fun hmoves => ?_) fun hready => hstart (hready hzero),
          fun hready => absurd (hready hzero) hstart⟩
        have hshows := hmoves.2.2
        rw [hmove, fetchRow, fetch] at hshows
        split_ifs at hshows <;> simp only [target, hzero] at hshows <;> omega
    · have hcursor := hnext hzero (by omega)
      rw [fetchRow, fetch, hcursor, if_pos (by omega)] at hmove
      exact moves_to_row hmove (by omega) (by omega) (by rw [target]; omega)
        fun hcontra => absurd hcontra hzero
  · refine moves_to_edge hmove (.inr (by omega)) hrow (iff_of_true ?_ fun hzero => by omega)
    rw [target]
    omega

/-- A call moves like the cursor iff it is ready, and then the invariant still holds. -/
theorem moves_iff (hn : 1 ≤ n) (hmax : n < 2 ^ 63) (call : CursorCall) (h : Placed n s) :
    (Moves n s call ↔ Ready n s call) ∧ (Ready n s call → Placed n (s.move n call).1) := by
  obtain ⟨⟨hle, hrow, hshown⟩, hnext⟩ := h
  cases call with
  | absolute p => exact moves_absolute_iff hmax p hrow
  | relative r =>
    have hfst := @relative_eq n s (seek n) _ (BitVec.le_toInt r) BitVec.toInt_lt hmax hle
    have hgoal : Placed n (s.relative n (seek n) r.toInt).1 ∧
        (s.relative n (seek n) r.toInt).1.rowPosition = target n s.rowPosition (.relative r) := by
      rw [hfst, target]
      split_ifs
      · exact ⟨⟨⟨hle, hrow, hshown⟩, hnext⟩, by omega⟩
      · exact ⟨placed_edge (.inl rfl) hrow, by dsimp only; omega⟩
      · exact ⟨placed_edge (.inr rfl) hrow, by dsimp only; omega⟩
      · rw [(seek_eq (by omega) (by omega)).1]
        exact ⟨placed_row (by omega), by dsimp only; omega⟩
    exact @moves_of_placed n s (.relative r) _ rfl hgoal.1 (relative_snd _ _)
      (iff_of_true hgoal.2 trivial)
  | first => exact moves_to_row (edge_eq le_rfl hn).1 le_rfl hn rfl trivial
  | last => exact moves_to_row (edge_eq hn le_rfl).1 hn le_rfl rfl trivial
  | next => exact moves_next_iff hn ⟨⟨hle, hrow, hshown⟩, hnext⟩
  | previous =>
    have hmove : s.move n .previous = s.retreat n fun s => (s.seek n, true) := rfl
    rw [retreat] at hmove
    split_ifs at hmove with hzero hone
    · refine moves_to_edge hmove (.inl hzero) hrow (iff_of_true ?_ trivial)
      rw [target, hzero]
    · refine moves_to_edge hmove (.inl rfl) hrow (iff_of_true ?_ trivial)
      rw [target, hone]
      rfl
    · rw [(seek_eq (by omega) (by omega)).1] at hmove
      exact moves_to_row hmove (by omega) (by omega) rfl trivial
  | beforeFirst => exact moves_to_edge rfl (.inl rfl) hrow (iff_of_true rfl trivial)
  | afterLast => exact moves_to_edge rfl (.inr rfl) hrow (iff_of_true rfl trivial)

section

variable {call : CursorCall} (hne : call ≠ .next) (hready : StmtReady n s call)

include hne hready

/-- A call other than `next` that keeps the invariant delivers. -/
theorem delivers_of_placed {r : ResultCursor × Bool} (hmove : s.stmtMove n call = r)
    (hplaced : StmtPlaced n r.1) : (Delivers n s call ↔ StmtReady n s call) ∧
      (StmtReady n s call → StmtPlaced n (s.stmtMove n call).1) := by
  rw [Delivers, hmove]
  exact ⟨iff_of_true ⟨hplaced.2.2, fun h => absurd h hne⟩ hready, fun _ => hplaced⟩

theorem delivers_to_edge {s' : ResultCursor} {returned : Bool}
    (hmove : s.stmtMove n call = (s', returned))
    (hedge : s'.rowPosition = 0 ∨ s'.rowPosition = n + 1) (hrow : s'.row ≤ n) :
    (Delivers n s call ↔ StmtReady n s call) ∧
      (StmtReady n s call → StmtPlaced n (s.stmtMove n call).1) :=
  delivers_of_placed hne hready hmove (placed_edge hedge hrow).1

end

theorem delivers_next_iff (hn : 1 ≤ n) (h : StmtPlaced n s) :
    (Delivers n s .next ↔ StmtReady n s .next) ∧
      (StmtReady n s .next → StmtPlaced n (s.stmtMove n .next).1) := by
  obtain ⟨hle, hrow, hshown⟩ := h
  have hmove : s.stmtMove n .next =
    s.advance n ((if s.rowPosition = 0 then s.dataSeek n 0 else s).stmtFetch n) := rfl
  rw [advance] at hmove
  rw [Delivers, hmove]
  by_cases hlast : s.rowPosition = n
  · rw [if_pos hlast]
    have hplaced := (@placed_edge n (s.afterLast n) (.inr rfl) hrow).1
    exact ⟨iff_of_true ⟨hplaced.2.2, fun _ _ _ => by omega⟩ fun _ _ => by omega, fun _ => hplaced⟩
  rw [if_neg hlast]
  by_cases hbehind : s.rowPosition = n + 1
  · rw [if_neg (by omega)]
    exact ⟨iff_of_true ⟨hshown, fun _ _ _ => by omega⟩ fun _ _ => by omega,
      fun _ => ⟨hle, hrow, hshown⟩⟩
  rw [if_pos (by omega)]
  by_cases hzero : s.rowPosition = 0
  · -- the rows are fetched from the start
    have hfetch : (s.dataSeek n 0).stmtFetch n = (⟨0, 1, 1⟩, true) := by
      simp [dataSeek, stmtFetch, fetch, hzero, show 0 < n by omega]
    rw [if_pos hzero, hfetch, hzero]
    have hplaced := (placed_row hn).1
    exact ⟨iff_of_true ⟨hplaced.2.2, fun _ _ => by omega⟩ fun _ => by omega, fun _ => hplaced⟩
  rw [if_neg hzero, stmtFetch, fetch]
  by_cases hfetch : s.dataCursor < n
  · rw [if_pos hfetch]
    have hiff : s.dataCursor = s.rowPosition ↔ StmtReady n s .next :=
      ⟨fun heq _ _ => heq, fun hready => hready (by omega) (by omega)⟩
    rw [← hiff]
    refine ⟨⟨fun h => ?_, fun heq => ?_⟩, fun heq => ?_⟩
    · have hrow := (h.2 rfl (by omega) (by omega)).2.1
      dsimp only at hrow
      omega
    · refine ⟨fun _ _ => ?_, fun _ _ _ => ⟨rfl, ?_, rfl⟩⟩
      · exact congrArg (· + 1) heq
      · exact congrArg (· + 1) heq
    · refine ⟨?_, ?_, fun _ _ => congrArg (· + 1) heq⟩
      · dsimp only
        omega
      · dsimp only
        omega
  · rw [if_neg hfetch]
    have hnot : ¬StmtReady n s .next := fun hready => by
      have := hready (by omega) (by omega)
      omega
    refine ⟨iff_of_false (fun h => ?_) hnot, fun hready => absurd hready hnot⟩
    exact Bool.false_ne_true (h.2 rfl (by omega) (by omega)).2.2

/-- A call of a prepared statement delivers iff it is ready. -/
theorem delivers_iff (hn : 1 ≤ n) (hmax : n < 2 ^ 63) (call : CursorCall) (h : StmtPlaced n s) :
    (Delivers n s call ↔ StmtReady n s call) ∧
      (StmtReady n s call → StmtPlaced n (s.stmtMove n call).1) := by
  have hrow := h.2.1
  cases call with
  | absolute p =>
    rcases @absolute_eq n s (stmtSeek n) p hmax fun k h₁ h₂ => (seek_eq h₁ h₂).2.1 with
      ⟨hp, -, h⟩ | ⟨k, -, hn, -, hmin, -, h⟩ | ⟨-, hmin, -, h⟩ | ⟨hp, h⟩ | ⟨hp, h⟩
    · exact delivers_to_edge nofun (fun hmin => by omega) h (.inr rfl) hrow
    · exact delivers_of_placed nofun hmin h (placed_row hn).1
    · exact delivers_to_edge nofun hmin h (.inl rfl) hrow
    · refine ⟨iff_of_false (fun hdelivers => ?_) fun hready => hready hp,
        fun hready => absurd hp hready⟩
      -- the position is behind the rows, but the buffers have one of them
      have hmove : (s.stmtMove n (.absolute p)).1 = ⟨n + 2 ^ 31 + 1, n, s.row⟩ :=
        (congrArg Prod.fst h).trans (seek_of_lt (by omega)).2
      have hshown := hdelivers.1
      rw [hmove] at hshown
      have heq : s.row = n + 2 ^ 31 + 1 := hshown (by dsimp only; omega) (by dsimp only; omega)
      omega
    · exact delivers_to_edge nofun (fun hmin => by omega) h (.inl rfl) hrow
  | relative r =>
    have hmove := @relative_eq n s (fun s => s.dataSeek n (s.rowPosition - 1)) _ (BitVec.le_toInt r)
      BitVec.toInt_lt hmax h.1
    change (s.stmtMove n (.relative r)).1 = _ at hmove
    split_ifs at hmove with hzero hbefore hbehind
    · refine delivers_of_placed nofun (fun hcontra => absurd hzero hcontra) rfl ?_
      rw [hmove]
      exact h
    · exact delivers_to_edge nofun (fun _ _ _ => by omega) (Prod.ext hmove rfl) (.inl rfl) hrow
    · exact delivers_to_edge nofun (fun _ _ _ => by omega) (Prod.ext hmove rfl) (.inr rfl) hrow
    · -- the buffers keep the row that is shown
      have hiff : StmtReady n s (.relative r) ↔ s.row = (s.rowPosition + r.toInt).toNat :=
        ⟨fun hready => by rw [← hready hzero (by omega) (by omega)]; rfl, fun _ _ _ _ => by omega⟩
      have hshown : Shown n (s.stmtMove n (.relative r)).1 ↔
          s.row = (s.rowPosition + r.toInt).toNat := by
        rw [hmove]
        exact ⟨fun h => h (by simp only [dataSeek]; omega) (by simp only [dataSeek]; omega),
          fun heq _ _ => heq⟩
      refine ⟨⟨fun h => hiff.mpr (hshown.mp h.1), fun hready => ?_⟩, fun hready => ?_⟩
      · exact ⟨hshown.mpr (hiff.mp hready), nofun⟩
      · refine ⟨?_, ?_, hshown.mpr (hiff.mp hready)⟩
        · rw [hmove]
          simp only [dataSeek]
          omega
        · rw [hmove]
          exact hrow
  | first => exact delivers_of_placed nofun trivial (edge_eq le_rfl hn).2 (placed_row hn).1
  | last => exact delivers_of_placed nofun trivial (edge_eq hn le_rfl).2 (placed_row le_rfl).1
  | next => exact delivers_next_iff hn h
  | previous =>
    have hmove : s.stmtMove n .previous =
      s.retreat n fun s => (s.dataSeek n (s.rowPosition - 1)).stmtFetch n := rfl
    rw [retreat] at hmove
    split_ifs at hmove with hzero hone
    · exact delivers_of_placed nofun trivial hmove h
    · exact delivers_to_edge nofun trivial hmove (.inl rfl) hrow
    · have hle := h.1
      rw [(seek_eq (by omega) (by omega)).2.2] at hmove
      exact delivers_of_placed nofun trivial hmove (placed_row (by omega)).1
  | beforeFirst => exact delivers_to_edge nofun trivial rfl (.inl rfl) hrow
  | afterLast => exact delivers_to_edge nofun trivial rfl (.inr rfl) hrow

variable (n) in
/-- The calls of a run on a new text result move like the cursor iff each of them is ready. -/
theorem moves_run_iff (hn : 1 ≤ n) (hmax : n < 2 ^ 63) (calls : List CursorCall) :
    AlongRun (move n) (Moves n) ⟨0, 0, 0⟩ calls ↔ AlongRun (move n) (Ready n) ⟨0, 0, 0⟩ calls :=
  alongRun_iff (fun _ call => moves_iff hn hmax call) calls (by simp [Placed, StmtPlaced, Shown])

theorem moves_run_iff_three : AlongRun (move 3) (Moves 3) ⟨0, 0, 0⟩
    [.last, .beforeFirst, .next, .relative 1, .absolute (-1), .next] :=
  (moves_run_iff 3 (by decide) (by decide) _).mpr (by simp [AlongRun, Ready]; decide)

/-- After `last` and `absolute (-4)`, `next` of a result of three rows has no row left. -/
theorem not_moves_run : ¬AlongRun (move 3) (Moves 3) ⟨0, 0, 0⟩ [.last, .absolute (-4), .next] := by
  simp [AlongRun, Moves, move]
  decide

variable (n) in
/-- A run on a new result of a prepared statement delivers its rows iff each call is ready. -/
theorem delivers_run_iff (hn : 1 ≤ n) (hmax : n < 2 ^ 63) (calls : List CursorCall) :
    AlongRun (stmtMove n) (Delivers n) ⟨0, 0, 0⟩ calls ↔
      AlongRun (stmtMove n) (StmtReady n) ⟨0, 0, 0⟩ calls :=
  alongRun_iff (fun _ call => delivers_iff hn hmax call) calls (by simp [StmtPlaced, Shown])

theorem delivers_run_iff_three : AlongRun (stmtMove 3) (Delivers 3) ⟨0, 0, 0⟩
    [.last, .beforeFirst, .next, .next, .relative 5, .previous] :=
  (delivers_run_iff 3 (by decide) (by decide) _).mpr (by simp [AlongRun, StmtReady]; decide)

/-- After `first` and `relative 1`, the buffers still hold the first row. -/
theorem not_delivers_run : ¬AlongRun (stmtMove 3) (Delivers 3) ⟨0, 0, 0⟩ [.first, .relative 1] := by
  simp [AlongRun, Delivers, Shown]
  decide

end ResultCursor

end LibSources
