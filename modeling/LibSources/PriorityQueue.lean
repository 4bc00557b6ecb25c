import LibSources.HeapHole
import LibSources.MachineInt

/-!
# The priority queue of `mysys/queues.c`

A queue is a heap of pointers in an array whose places start at `1`. `_downheap` takes an element
out, sinks the hole to a leaf along the better children and then climbs back up to where the
element belongs, but not above the place where it started.

* `compare` compares the elements that the pointers lead to, and changes when they change.
  `max_at_top` is `-1` or `1`, and the product with it is an `int`.
* A loop has as many steps as there are places, which is enough for it to end by itself.
* The array has `max_elements + 1` places, computed in a `uint`. Integers have 32 bits.

## Main results

* `Queue.reachable_heap`: every run keeps the heap.
* `Queue.queueRemove_iff`: the removals that keep it.
* `Queue.drain_sorts`: the elements leave the queue in order.
-/

namespace LibSources

open Nat Function

structure Queue (α : Type) where
  root : ℕ → α
  places : ℕ
  elements : ℕ
  maxElements : ℕ
  maxAtTop : ℤ
  compare : α → α → ℤ

namespace Queue

variable {α : Type}

def queueSetMaxAtTop (setArg : Bool) : ℤ := if setArg then -1 else 1

def initQueue (root : ℕ → α) (maxElements : ℕ) (maxAtTop : Bool) (compare : α → α → ℤ) : Queue α :=
  { root := root
    places := (maxElements + 1) % 2 ^ 32
    elements := 0
    maxElements := maxElements
    maxAtTop := queueSetMaxAtTop maxAtTop
    compare := compare }

section

variable (q : Queue α)

def cmp (a b : α) : ℤ := toInt32 (q.compare a b * q.maxAtTop)

def queueTop : α := q.root 1

/-- `resize_queue`: the queue and the result. `ok` is the success of `my_realloc`. -/
def resizeQueue (maxElements : ℕ) (ok : Bool) : Queue α × ℕ :=
  if q.maxElements = maxElements then (q, 0)
  else if ok = false then (q, 1)
  else
    ({ q with
        elements := if maxElements < q.elements then maxElements else q.elements
        maxElements := maxElements
        places := (maxElements + 1) % 2 ^ 32 }, 0)

def insertLoop (cmp : α → α → ℤ) (element : α) : ℕ → ℕ → (ℕ → α) → (ℕ → α) × ℕ
  | 0, idx, root => (root, idx)
  | fuel + 1, idx, root =>
    if cmp element (root (idx / 2)) < 0 then
      insertLoop cmp element fuel (idx / 2) (update root idx (root (idx / 2)))
    else (root, idx)

def queueInsert (element : α) : Queue α :=
  let r := insertLoop q.cmp element (q.elements + 1) (q.elements + 1) (update q.root 0 element)
  { q with root := update r.1 r.2 element, elements := q.elements + 1 }

section

variable (cmp : α → α → ℤ) (elements : ℕ)

def nextIndex (root : ℕ → α) (idx : ℕ) : ℕ :=
  if idx + idx < elements ∧ 0 < cmp (root (idx + idx)) (root (idx + idx + 1)) then idx + idx + 1
  else idx + idx

/-- The first loop of `_downheap`: the array at the `return`, or the array and `idx` behind the
loop. -/
def sinkLoop (cmp : α → α → ℤ) (elements : ℕ) (element : α) :
    ℕ → Bool → ℕ → (ℕ → α) → (ℕ → α) ⊕ ((ℕ → α) × ℕ)
  | 0, _, idx, root => .inr (root, idx)
  | fuel + 1, first, idx, root =>
    if idx ≤ elements / 2 then
      let next := nextIndex cmp elements root idx
      if first ∧ 0 ≤ cmp (root next) element then .inl (update root idx element)
      else sinkLoop cmp elements element fuel false next (update root idx (root next))
    else .inr (root, idx)

def climbLoop (cmp : α → α → ℤ) (startIdx : ℕ) (element : α) :
    ℕ → ℕ → (ℕ → α) → (ℕ → α) × ℕ
  | 0, idx, root => (root, idx)
  | fuel + 1, idx, root =>
    if startIdx < idx / 2 then
      if cmp (root (idx / 2)) element < 0 then (root, idx)
      else
        climbLoop cmp startIdx element fuel (idx / 2) (update root idx (root (idx / 2)))
    else (root, idx)

def downheapRoot (root : ℕ → α) (idx : ℕ) : ℕ → α :=
  match sinkLoop cmp elements (root idx) elements true idx root with
  | .inl root' => root'
  | .inr s =>
    let r := climbLoop cmp idx (root idx) s.2 s.2 s.1
    update r.1 r.2 (root idx)

end

def downheap (idx : ℕ) : Queue α := { q with root := downheapRoot q.cmp q.elements q.root idx }

def queueRemove (idx : ℕ) : α × Queue α :=
  (q.root (idx + 1),
    { q with
      root := update q.root (idx + 1) (q.root q.elements)
      elements := q.elements - 1 : Queue α }.downheap (idx + 1))

def queueReplaced : Queue α := q.downheap 1

end

def fixLoop : ℕ → Queue α → Queue α
  | 0, q => q
  | i + 1, q => fixLoop i (q.downheap (i + 1))

def queueFix (q : Queue α) : Queue α := fixLoop (q.elements / 2) q

/-! ### Comparisons -/

structure IsOrder (cmp : α → α → ℤ) : Prop where
  antisymm : ∀ a b, cmp a b < 0 ↔ 0 < cmp b a
  trans : ∀ a b c, cmp a b ≤ 0 → cmp b c ≤ 0 → cmp a c ≤ 0

def Le (cmp : α → α → ℤ) (a b : α) : Prop := cmp a b ≤ 0

section

variable {cmp : α → α → ℤ}

theorem IsOrder.le_trans (h : IsOrder cmp) {a b c : α} (hab : Le cmp a b) (hbc : Le cmp b c) :
    Le cmp a c := h.trans a b c hab hbc

theorem IsOrder.le_refl (h : IsOrder cmp) (a : α) : Le cmp a a := by
  have := h.antisymm a a
  rw [Le]
  omega

theorem IsOrder.le_of_nonneg (h : IsOrder cmp) {a b : α} (hab : 0 ≤ cmp a b) : Le cmp b a := by
  have := h.antisymm a b
  rw [Le]
  omega

theorem nextIndex_spec (h : IsOrder cmp) {n idx : ℕ} (root : ℕ → α) (hidx : idx ≤ n / 2) :
    nextIndex cmp n root idx / 2 = idx ∧ nextIndex cmp n root idx ≤ n ∧
      ∀ j ≤ n, j / 2 = idx → Le cmp (root (nextIndex cmp n root idx)) (root j) := by
  have hchild : ∀ j, j / 2 = idx → j = idx + idx ∨ j = idx + idx + 1 := by omega
  rw [nextIndex]
  split_ifs with hright
  · refine ⟨by omega, by omega, fun j hj hp => ?_⟩
    rcases hchild j hp with rfl | rfl
    · exact ((h.antisymm _ _).mpr hright.2).le
    · exact h.le_refl _
  refine ⟨by omega, by omega, fun j hj hp => ?_⟩
  rcases hchild j hp with rfl | rfl
  · exact h.le_refl _
  · exact not_lt.mp fun hlt => hright ⟨by omega, hlt⟩

/-! ### One element out of order -/

structure Sunk (cmp : α → α → ℤ) (a : ℕ → α) (lo n start : ℕ) (root : ℕ → α) (idx : ℕ) :
    Prop where
  hole : Hole (Le cmp) root lo n start idx
  start_le : start ≤ idx
  below_start : ∃ k, idx / 2 ^ k = start
  inside : idx ≠ start → idx ≤ n
  unmoved : idx = start → root = a
  moved : idx ≠ start → Le cmp (root start) (a start) ∧ ∃ c ≤ n, c / 2 = start ∧ root start = a c
  frame : ∀ k, k < start ∨ n < k → k ≠ idx → root k = a k
  elements : idx ≤ n → stored (update root idx (a start)) n = stored a n

structure Downheaped (cmp : α → α → ℤ) (a : ℕ → α) (lo n start : ℕ) (root : ℕ → α) : Prop where
  order : ∀ j, 2 ≤ j → j ≤ n → lo ≤ j / 2 → j ≠ start → Le cmp (root (j / 2)) (root j)
  elements : stored root n = stored a n
  frame : ∀ k, k < start ∨ n < k → root k = a k
  top : root start = a start ∨
    Le cmp (root start) (a start) ∧ ∃ c ≤ n, c / 2 = start ∧ root start = a c

variable {a root : ℕ → α} {lo n start idx : ℕ}

section

variable (h : Sunk cmp a lo n start root idx)
include h

theorem Sunk.start_le_half (hne : idx ≠ start) :
    start ≤ idx / 2 ∧ ∃ k, idx / 2 / 2 ^ k = start := by
  obtain ⟨k, hk⟩ := h.below_start
  cases k with
  | zero => exact absurd ((Nat.div_one idx).symm.trans hk) hne
  | succ k =>
    have hhalf : idx / 2 / 2 ^ k = start := by rw [Nat.div_div_eq_div_mul, ← pow_succ', hk]
    exact ⟨hhalf ▸ div_le_self _ _, k, hhalf⟩

theorem Sunk.down (hcmp : IsOrder cmp) (hlo : lo ≤ start) (hpos : 1 ≤ start) (hidx : idx ≤ n / 2)
    (hgo : idx = start → cmp (root (nextIndex cmp n root idx)) (a start) < 0) :
    Sunk cmp a lo n start (update root idx (root (nextIndex cmp n root idx)))
      (nextIndex cmp n root idx) := by
  obtain ⟨hhalf, hnext, hbest⟩ := nextIndex_spec hcmp root hidx
  have hstart := h.start_le
  generalize nextIndex cmp n root idx = next at hhalf hnext hbest hgo ⊢
  refine ⟨h.hole.moveDown hlo hstart (by omega) hhalf hbest hnext, by omega, ?_, fun _ => hnext,
    fun hsame => by omega, fun _ => ?_, fun k hk hne => ?_, fun _ => ?_⟩
  · obtain ⟨k, hk⟩ := h.below_start
    exact ⟨k + 1, by rw [pow_succ', ← Nat.div_div_eq_div_mul, hhalf, hk]⟩
  · by_cases hsame : idx = start
    · rw [hsame, update_self]
      exact ⟨(hgo hsame).le, next, hnext, hhalf.trans hsame, by rw [h.unmoved hsame]⟩
    · rw [update_of_ne (Ne.symm hsame)]
      exact h.moved hsame
  · by_cases hki : k = idx
    · exact absurd hki (by omega)
    · rw [update_of_ne hki]
      exact h.frame k hk hki
  · rw [stored_move root (a start) (by omega) (by omega) (by omega)]
    exact h.elements (by omega)

/-- A step of the second loop. What is below the hole stays behind the element. -/
theorem Sunk.up (hcmp : IsOrder cmp) (hlo : lo ≤ start) (hpos : 1 ≤ start) (hup : start < idx / 2)
    (hle : Le cmp (a start) (root (idx / 2))) :
    Sunk cmp a lo n start (update root idx (root (idx / 2))) (idx / 2) ∧ ∀ j ≤ n, j / 2 = idx / 2 →
        Le cmp (a start) (update root idx (root (idx / 2)) j) := by
  have hne : idx ≠ start := by omega
  have hn := h.inside hne
  obtain ⟨-, hbelow⟩ := h.start_le_half hne
  have hhalf : lo ≤ idx / 2 / 2 := by
    obtain ⟨k, hk⟩ := hbelow
    cases k with
    | zero => exact absurd ((Nat.div_one _).symm.trans hk) (by omega)
    | succ k =>
      have hquarter : idx / 2 / 2 / 2 ^ k = start := by
        rw [Nat.div_div_eq_div_mul (idx / 2), ← pow_succ', hk]
      exact hlo.trans (hquarter ▸ div_le_self _ _)
  obtain ⟨hhole, hbehind⟩ := h.hole.moveUp hcmp.le_trans hne (by omega) hn (by omega) (by omega)
    (fun _ => hhalf) hle hpos
  refine ⟨⟨hhole, by omega, hbelow, fun _ => by omega, fun hsame => by omega, fun _ => ?_,
    fun k hk hk' => ?_, fun _ => ?_⟩, hbehind⟩
  · rw [update_of_ne (Ne.symm hne)]
    exact h.moved hne
  · have hki : k ≠ idx := by omega
    rw [update_of_ne hki]
    exact h.frame k hk hki
  · rw [stored_move root (a start) (by omega) (by omega) (by omega)]
    exact h.elements hn

theorem Sunk.fill (habove : idx ≠ start → Le cmp (root (idx / 2)) (a start))
    (hbelow : ∀ j ≤ n, j / 2 = idx → Le cmp (a start) (root j)) :
    Downheaped cmp a lo n start (update root idx (a start)) := by
  have hstart := h.start_le
  refine ⟨fun j hj hjn hjlo hjs => h.hole.fill habove hbelow hj hjn hjlo hjs, ?_,
    fun k hk => ?_, ?_⟩
  · rcases lt_or_ge n idx with hlt | hle
    · have hsame : idx = start := by
        by_contra hne
        exact absurd (h.inside hne) (by omega)
      refine stored_congr fun i _ hi => ?_
      rw [update_of_ne (by omega), h.unmoved hsame]
    · exact h.elements hle
  · by_cases hki : k = idx
    · have hsame : idx = start := by
        by_contra hne
        have := h.inside hne
        omega
      rw [hki, update_self, hsame]
    · rw [update_of_ne hki]
      exact h.frame k hk hki
  · by_cases hsame : idx = start
    · rw [hsame, update_self]
      exact .inl rfl
    · rw [update_of_ne (Ne.symm hsame)]
      exact .inr (h.moved hsame)

end

section

variable (hcmp : IsOrder cmp) (hlo : lo ≤ start) (hpos : 1 ≤ start)
include hcmp hlo hpos

theorem climbLoop_spec (fuel : ℕ) (h : Sunk cmp a lo n start root idx) (hfuel : idx ≤ fuel)
    (hbelow : ∀ j ≤ n, j / 2 = idx → Le cmp (a start) (root j)) :
    Downheaped cmp a lo n start (update (climbLoop cmp start (a start) fuel idx root).1
        (climbLoop cmp start (a start) fuel idx root).2 (a start)) := by
  induction fuel generalizing idx root with
  | zero =>
    have := h.start_le
    omega
  | succ fuel ih =>
    rw [climbLoop]
    split_ifs with hup hbreak
    · exact h.fill (fun _ => hbreak.le) hbelow
    · obtain ⟨hstep, hbehind⟩ := h.up hcmp hlo hpos hup (hcmp.le_of_nonneg (not_lt.mp hbreak))
      exact ih hstep (by omega) hbehind
    refine h.fill (fun hne => ?_) hbelow
    obtain ⟨hstart, -⟩ := h.start_le_half hne
    have hsame : idx / 2 = start := by omega
    rw [hsame]
    exact (h.moved hne).1

theorem sinkLoop_spec (fuel : ℕ) (first : Bool) (hfirst : first = true ↔ idx = start)
    (h : Sunk cmp a lo n start root idx) (hfuel : n / 2 < idx + fuel) :
    (∃ root', sinkLoop cmp n (a start) fuel first idx root = .inl root' ∧
      Downheaped cmp a lo n start root') ∨
    ∃ root' idx', sinkLoop cmp n (a start) fuel first idx root = .inr (root', idx') ∧
      Sunk cmp a lo n start root' idx' ∧ n / 2 < idx' := by
  induction fuel generalizing first idx root with
  | zero => exact .inr ⟨root, idx, rfl, h, hfuel⟩
  | succ fuel ih =>
    rw [sinkLoop]
    split_ifs with hidx
    · dsimp only
      obtain ⟨hhalf, hnext, hbest⟩ := nextIndex_spec hcmp root hidx
      have hstart := h.start_le
      split_ifs with hreturn
      · have hsame := hfirst.mp hreturn.1
        refine .inl ⟨_, rfl, h.fill (fun hne => absurd hsame hne) fun j hj hp => ?_⟩
        exact hcmp.le_trans (hcmp.le_of_nonneg hreturn.2) (hbest j hj hp)
      have hgo : idx = start → cmp (root (nextIndex cmp n root idx)) (a start) < 0 :=
        fun hsame => not_le.mp fun hle => hreturn ⟨hfirst.mpr hsame, hle⟩
      refine ih false ?_ (h.down hcmp hlo hpos hidx hgo) (by omega)
      exact ⟨fun hfalse => absurd hfalse Bool.false_ne_true, fun hsame => by omega⟩
    · exact .inr ⟨root, idx, rfl, h, by omega⟩

/-- `_downheap` brings the element at `start` in order with what is below it. -/
theorem downheapRoot_spec (horder : ∀ j, 2 ≤ j → j ≤ n → lo ≤ j / 2 → j ≠ start → j / 2 ≠ start →
      Le cmp (a (j / 2)) (a j)) : Downheaped cmp a lo n start (downheapRoot cmp n a start) := by
  have hsunk : Sunk cmp a lo n start a start :=
    ⟨⟨fun j hj hjn hjlo hjs _ hp => horder j hj hjn hjlo hjs hp, fun hne => absurd rfl hne⟩, le_rfl,
      ⟨0, Nat.div_one start⟩, fun hne => absurd rfl hne, fun _ => rfl, fun hne => absurd rfl hne,
      fun _ _ _ => rfl, fun _ => by rw [update_eq_self]⟩
  rw [downheapRoot]
  rcases sinkLoop_spec hcmp hlo hpos n true (by simp) hsunk (by omega) with
    ⟨root', heq, hdone⟩ | ⟨root', idx', heq, hsunk', hleaf⟩
  · rw [heq]
    exact hdone
  · rw [heq]
    exact climbLoop_spec hcmp hlo hpos idx' hsunk' le_rfl fun j hj hp => by omega

end

/-! ### The calls -/

/-- The loop of `queue_insert` ends where the element belongs, at the latest at the first place,
whose parent is the element itself. -/
theorem insertLoop_spec (hcmp : IsOrder cmp) {e : α} (fuel : ℕ)
    (h : Hole (Le cmp) root 1 n 1 idx) (hidx : 1 ≤ idx ∧ idx ≤ n) (hfuel : idx ≤ fuel)
    (hzero : root 0 = e) (hbelow : ∀ j ≤ n, j / 2 = idx → Le cmp e (root j)) :
    HeapFrom (Le cmp) (update (insertLoop cmp e fuel idx root).1
        (insertLoop cmp e fuel idx root).2 e) 1 n ∧
      stored (update (insertLoop cmp e fuel idx root).1
        (insertLoop cmp e fuel idx root).2 e) n = stored (update root idx e) n := by
  induction fuel generalizing idx root with
  | zero => omega
  | succ fuel ih =>
    rw [insertLoop]
    split_ifs with hgo
    · have hne : idx ≠ 1 := by
        rintro rfl
        rw [div_eq_of_lt (by omega), hzero] at hgo
        exact absurd ((hcmp.antisymm e e).mp hgo) (by omega)
      obtain ⟨hhole, hbehind⟩ := h.moveUp hcmp.le_trans hne (by omega) hidx.2 (by omega)
        (by omega) (by omega) hgo.le le_rfl
      obtain ⟨hheap, hstored⟩ := ih hhole (by omega) (by omega)
        (by rw [update_of_ne (by omega), hzero]) hbehind
      exact ⟨hheap, by rw [hstored, stored_move root e (by omega) hidx (by omega)]⟩
    · refine ⟨fun j hj hjn hjlo => h.fill (fun _ => ?_) hbelow hj hjn hjlo (by omega), rfl⟩
      exact hcmp.le_of_nonneg (not_lt.mp hgo)

end

def HeapOrder (q : Queue α) : Prop := HeapFrom (Le q.cmp) q.root 1 q.elements

def contents (q : Queue α) : Multiset α := stored q.root q.elements

variable {q : Queue α} {m : Multiset α}

theorem queueInsert_spec (hcmp : IsOrder q.cmp) (hheap : q.HeapOrder) (e : α) :
    (q.queueInsert e).HeapOrder ∧ (q.queueInsert e).contents = e ::ₘ q.contents := by
  have hhole : Hole (Le q.cmp) (update q.root 0 e) 1 (q.elements + 1) 1 (q.elements + 1) := by
    refine ⟨fun j hj hjn hjlo _ hjh _ => ?_, fun _ j hjn hp => by omega⟩
    rw [update_of_ne (by omega), update_of_ne (by omega)]
    exact hheap j hj (by omega) hjlo
  obtain ⟨horder, hstored⟩ := insertLoop_spec hcmp (q.elements + 1) hhole (by omega) le_rfl
    (update_self ..) fun j hj hp => by omega
  refine ⟨horder, hstored.trans ?_⟩
  rw [stored_succ, update_self, contents]
  refine congrArg (e ::ₘ ·) (stored_congr fun i hi hin => ?_)
  rw [update_of_ne (by omega), update_of_ne (by omega)]

theorem downheap_one (hcmp : IsOrder q.cmp)
    (hheap : ∀ j, 4 ≤ j → j ≤ q.elements → Le q.cmp (q.root (j / 2)) (q.root j)) :
    (q.downheap 1).HeapOrder ∧ (q.downheap 1).contents = q.contents := by
  have hdown : Downheaped q.cmp q.root 1 q.elements 1 (q.downheap 1).root :=
    downheapRoot_spec hcmp le_rfl le_rfl fun j _ hjn _ _ hp => hheap j (by omega) hjn
  exact ⟨fun j hj hjn hjlo => hdown.order j hj hjn hjlo (by omega), hdown.elements⟩

theorem fixLoop_spec (i : ℕ) (hcmp : IsOrder q.cmp)
    (hheap : HeapFrom (Le q.cmp) q.root (i + 1) q.elements) :
    ∃ root, fixLoop i q = { q with root := root } ∧
      HeapFrom (Le q.cmp) root 1 q.elements ∧ stored root q.elements = q.contents := by
  induction i generalizing q with
  | zero => exact ⟨q.root, rfl, hheap, rfl⟩
  | succ i ih =>
    have hdown : Downheaped q.cmp q.root (i + 1) q.elements (i + 1) (q.downheap (i + 1)).root :=
      downheapRoot_spec hcmp le_rfl (succ_pos i) fun j hj hjn hjlo _ hp =>
        hheap j hj hjn (by omega)
    have hheap' : HeapFrom (Le (q.downheap (i + 1)).cmp) (q.downheap (i + 1)).root (i + 1)
        (q.downheap (i + 1)).elements := fun j hj hjn hjlo =>
      hdown.order j hj hjn hjlo (by omega)
    obtain ⟨root, heq, horder, hstored⟩ := ih (q := q.downheap (i + 1)) hcmp hheap'
    exact ⟨root, heq, horder, hstored.trans hdown.elements⟩

theorem queueFix_spec (hcmp : IsOrder q.cmp) :
    ∃ root, q.queueFix = { q with root := root } ∧
      HeapFrom (Le q.cmp) root 1 q.elements ∧ stored root q.elements = q.contents :=
  fixLoop_spec _ hcmp fun j hj hjn hjlo => by omega

theorem queueRemove_downheaped (hcmp : IsOrder q.cmp) (hheap : q.HeapOrder) {idx : ℕ}
    (hidx : idx < q.elements) :
    Downheaped q.cmp (update q.root (idx + 1) (q.root q.elements)) 1 (q.elements - 1)
      (idx + 1) (q.queueRemove idx).2.root := by
  refine downheapRoot_spec hcmp (succ_pos idx) (succ_pos idx) fun j hj hjn hjlo hjs hp => ?_
  rw [update_of_ne hp, update_of_ne hjs]
  exact hheap j hj (by omega) hjlo

variable [DecidableEq α]

theorem queueRemove_contents (hcmp : IsOrder q.cmp) (hheap : q.HeapOrder) {idx : ℕ}
    (hidx : idx < q.elements) :
    (q.queueRemove idx).2.contents = q.contents.erase (q.root (idx + 1)) :=
  (queueRemove_downheaped hcmp hheap hidx).elements.trans (stored_remove q.root (by omega))

omit [DecidableEq α] in
theorem queueRemove_heapOrder_iff (hcmp : IsOrder q.cmp) (hheap : q.HeapOrder) {idx : ℕ}
    (hidx : idx < q.elements) :
    (q.queueRemove idx).2.HeapOrder ↔
      ¬ (1 ≤ idx ∧ q.cmp (q.root q.elements) (q.root ((idx + 1) / 2)) < 0) := by
  have hdown := queueRemove_downheaped hcmp hheap hidx
  have hlast : update q.root (idx + 1) (q.root q.elements) (idx + 1) =
    q.root q.elements := update_self ..
  have hparent : (q.queueRemove idx).2.root ((idx + 1) / 2) = q.root ((idx + 1) / 2) ∨ idx = 0 := by
    rcases Nat.eq_zero_or_pos idx with hzero | hpos
    · exact .inr hzero
    · left
      rw [hdown.frame _ (.inl (by omega)), update_of_ne (by omega)]
  have helements : (q.queueRemove idx).2.elements = q.elements - 1 := rfl
  constructor
  · rintro horder ⟨hpos, hbefore⟩
    have hafter : 0 < q.cmp (q.root ((idx + 1) / 2)) (q.root q.elements) :=
      (hcmp.antisymm _ _).mp hbefore
    have hparent := hparent.resolve_right (by omega)
    rcases eq_or_lt_of_le (succ_le_of_lt hidx) with heq | hlt
    · -- the last element itself is removed
      have hold := hheap q.elements (by omega) le_rfl (by omega)
      rw [← heq] at hold hafter
      exact absurd hold (not_le.mpr hafter)
    have hedge := horder (idx + 1) (by omega) (by rw [helements]; omega) (by omega)
    rw [hparent] at hedge
    rcases hdown.top with hsame | ⟨hle, -⟩
    · rw [hlast] at hsame
      rw [hsame] at hedge
      exact absurd hedge (not_le.mpr hafter)
    · rw [hlast] at hle
      exact absurd (hcmp.le_trans hedge hle) (not_le.mpr hafter)
  · intro hnot j hj hjn hjlo
    by_cases hjs : j = idx + 1
    · rw [helements] at hjn
      subst hjs
      have hparent := hparent.resolve_right (by omega)
      rw [hparent]
      rcases hdown.top with hsame | ⟨-, c, hc, hhalf, hchild⟩
      · rw [hsame, hlast]
        exact hcmp.le_of_nonneg (not_lt.mp fun hlt => hnot ⟨by omega, hlt⟩)
      rw [hchild, update_of_ne (by omega)]
      have hold := hheap (idx + 1) (by omega) (by omega) (by omega)
      have hbelow := hheap c (by omega) (by omega) (by omega)
      rw [hhalf] at hbelow
      exact hcmp.le_trans hold hbelow
    · exact hdown.order j hj hjn hjlo hjs

/-! ### Runs -/

structure GoodCompare (compare : α → α → ℤ) (maxAtTop : ℤ) : Prop where
  order : IsOrder compare
  low : ∀ a b, -2 ^ 31 ≤ compare a b
  high : ∀ a b, compare a b < 2 ^ 31
  product : ∀ a b, compare a b * maxAtTop < 2 ^ 31

/-- `a` may stand above `b`: it is not greater, or not less when `max_at_top` is set. -/
def InOrder (q : Queue α) (a b : α) : Prop :=
  if q.maxAtTop = -1 then 0 ≤ q.compare a b else q.compare a b ≤ 0

/-- A call, with what the caller does before it: `queue_replaced` comes after a change of the top
element, `queue_fix` after a change of any elements. -/
inductive QueueCall (α : Type)
  | insert (element : α)
  | remove
  | replaced (element : α) (compare : α → α → ℤ)
  | fix (compare : α → α → ℤ)
  | resize (maxElements : ℕ) (ok : Bool)

def run (q : Queue α) : QueueCall α → Queue α
  | .insert element => q.queueInsert element
  | .remove => (q.queueRemove 0).2
  | .replaced element compare =>
    { q with
      root := update q.root 1 element
      compare := compare : Queue α }.queueReplaced
  | .fix compare => { q with compare := compare : Queue α }.queueFix
  | .resize maxElements ok => (q.resizeQueue maxElements ok).1

/-- When a call may be made. A change of the top element leaves the others as they are. -/
def Enabled (q : Queue α) : QueueCall α → Prop
  | .insert _ => q.elements < q.maxElements
  | .remove => 0 < q.elements
  | .replaced _ compare => 0 < q.elements ∧ GoodCompare compare q.maxAtTop ∧
      ∀ i j, 2 ≤ i → i ≤ q.elements → 2 ≤ j → j ≤ q.elements →
        compare (q.root i) (q.root j) = q.compare (q.root i) (q.root j)
  | .fix compare => GoodCompare compare q.maxAtTop
  | .resize maxElements _ => maxElements + 1 < 2 ^ 32

/-- What should be in the queue after a call. A `resize_queue` to fewer places drops the elements
behind them. -/
def expected (q : Queue α) (m : Multiset α) : QueueCall α → Multiset α
  | .insert element => element ::ₘ m
  | .remove => m.erase (q.queueRemove 0).1
  | .replaced element _ => element ::ₘ m.erase q.queueTop
  | .fix _ => m
  | .resize maxElements ok =>
    if ok then m - (Finset.Ioc maxElements q.elements).val.map q.root else m

/-- The queues after any calls, with what should be in them. -/
inductive Reachable : Queue α → Multiset α → Prop
  | init (root : ℕ → α) (maxElements : ℕ) (maxAtTop : Bool) (compare : α → α → ℤ)
      (hsize : maxElements + 1 < 2 ^ 32)
      (hcompare : GoodCompare compare (queueSetMaxAtTop maxAtTop)) :
      Reachable (initQueue root maxElements maxAtTop compare) 0
  | call {q : Queue α} {m : Multiset α} (c : QueueCall α) (h : Reachable q m)
      (henabled : q.Enabled c) : Reachable (q.run c) (q.expected m c)

structure Inv (q : Queue α) (m : Multiset α) : Prop where
  maxAtTop : q.maxAtTop = 1 ∨ q.maxAtTop = -1
  compare : GoodCompare q.compare q.maxAtTop
  heap : q.HeapOrder
  contents : q.contents = m
  elements_le : q.elements ≤ q.maxElements
  lt_places : q.maxElements < q.places

omit [DecidableEq α] in
theorem cmp_eq (hsign : q.maxAtTop = 1 ∨ q.maxAtTop = -1) (h : GoodCompare q.compare q.maxAtTop)
    (a b : α) : q.cmp a b = q.compare a b * q.maxAtTop := by
  refine toInt32_of_mem ?_ (h.product a b)
  have hlow := h.low a b
  have hhigh := h.high a b
  rcases hsign with hone | hminus
  · rw [hone]
    omega
  · rw [hminus]
    omega

omit [DecidableEq α] in
theorem isOrder_cmp (hsign : q.maxAtTop = 1 ∨ q.maxAtTop = -1)
    (h : GoodCompare q.compare q.maxAtTop) : IsOrder q.cmp := by
  have horder := h.order
  refine ⟨fun a b => ?_, fun a b c hab hbc => ?_⟩
  · have hab := horder.antisymm a b
    have hba := horder.antisymm b a
    rw [cmp_eq hsign h, cmp_eq hsign h]
    rcases hsign with hone | hminus
    · rw [hone]
      omega
    · rw [hminus]
      omega
  rw [cmp_eq hsign h] at hab hbc ⊢
  rcases hsign with hone | hminus
  · rw [hone, mul_one] at hab hbc ⊢
    exact horder.trans a b c hab hbc
  rw [hminus, mul_neg_one] at hab hbc ⊢
  have hba := horder.le_of_nonneg (neg_nonpos.mp hab)
  have hcb := horder.le_of_nonneg (neg_nonpos.mp hbc)
  have hca : Le q.compare c a := horder.le_trans hcb hba
  have hac := horder.antisymm a c
  rw [Le] at hca
  omega

omit [DecidableEq α] in
theorem inOrder_iff (hsign : q.maxAtTop = 1 ∨ q.maxAtTop = -1)
    (h : GoodCompare q.compare q.maxAtTop) (a b : α) : q.InOrder a b ↔ Le q.cmp a b := by
  rw [InOrder, Le, cmp_eq hsign h]
  rcases hsign with hone | hminus
  · rw [if_neg (by omega), hone, mul_one]
  · rw [if_pos hminus, hminus, mul_neg_one, neg_nonpos]

theorem inv_resize (h : Inv q m) (maxElements : ℕ) (ok : Bool) (hsize : maxElements + 1 < 2 ^ 32) :
    Inv (q.resizeQueue maxElements ok).1 (q.expected m (.resize maxElements ok)) := by
  have hnone : q.elements ≤ maxElements →
      m - (Finset.Ioc maxElements q.elements).val.map q.root = m := by
    intro hle
    rw [Finset.Ioc_eq_empty_of_le hle, Finset.empty_val, Multiset.map_zero, tsub_zero]
  have hle := h.elements_le
  cases ok with
  | false =>
    have hstay : (q.resizeQueue maxElements false).1 = q := by
      by_cases hsame : q.maxElements = maxElements
      · rw [resizeQueue, if_pos hsame]
      · rw [resizeQueue, if_neg hsame, if_pos rfl]
    rw [hstay]
    exact h
  | true =>
    rw [expected, if_pos rfl]
    by_cases hsame : q.maxElements = maxElements
    · rw [resizeQueue, if_pos hsame, hnone (by omega)]
      exact h
    rw [resizeQueue, if_neg hsame, if_neg (Ne.symm Bool.false_ne_true)]
    refine ⟨h.maxAtTop, h.compare, fun j hj hjn hjlo => h.heap j hj (hjn.trans ?_) hjlo, ?_, ?_, ?_⟩
    · dsimp only
      split_ifs <;> omega
    · rw [← h.contents] at hnone ⊢
      rw [contents] at hnone ⊢
      split_ifs with hshrink
      · rw [contents, stored_add q.root hshrink.le, add_tsub_cancel_right]
      · exact (hnone (not_lt.mp hshrink)).symm
    · dsimp only
      split_ifs <;> omega
    · dsimp only
      omega

theorem inv_call (h : Inv q m) (c : QueueCall α) (henabled : q.Enabled c) :
    Inv (q.run c) (q.expected m c) := by
  have hcmp := isOrder_cmp h.maxAtTop h.compare
  cases c with
  | insert e =>
    obtain ⟨hheap, hcontents⟩ := queueInsert_spec hcmp h.heap e
    exact ⟨h.maxAtTop, h.compare, hheap, by rw [run, expected, hcontents, h.contents], henabled,
      h.lt_places⟩
  | remove =>
    have hheap := (queueRemove_heapOrder_iff hcmp h.heap henabled).mpr fun hpos => by omega
    refine ⟨h.maxAtTop, h.compare, hheap, ?_, (sub_le _ _).trans h.elements_le, h.lt_places⟩
    rw [run, expected, queueRemove_contents hcmp h.heap henabled, h.contents, queueRemove]
  | replaced e compare =>
    obtain ⟨hpos, hgood, hsame⟩ := henabled
    have hcmp' : IsOrder (cmp { q with root := update q.root 1 e, compare := compare }) :=
      isOrder_cmp h.maxAtTop hgood
    obtain ⟨hheap, hcontents⟩ := downheap_one hcmp' fun j hj hjn => by
      have hold : q.cmp (q.root (j / 2)) (q.root j) ≤ 0 := h.heap j (by omega) hjn (by omega)
      dsimp only at hjn ⊢
      rw [update_of_ne (by omega), update_of_ne (by omega), Le, cmp]
      dsimp only
      rw [hsame _ _ (by omega) (by omega) (by omega) hjn]
      exact hold
    refine ⟨h.maxAtTop, hgood, hheap, hcontents.trans ?_, h.elements_le, h.lt_places⟩
    rw [expected, ← h.contents]
    exact stored_update q.root e ⟨le_rfl, hpos⟩
  | fix compare =>
    have hcmp' : IsOrder (cmp { q with compare := compare }) := isOrder_cmp h.maxAtTop henabled
    obtain ⟨root, heq, hheap, hcontents⟩ := queueFix_spec hcmp'
    rw [run, heq]
    exact ⟨h.maxAtTop, henabled, hheap, hcontents.trans h.contents, h.elements_le, h.lt_places⟩
  | resize maxElements ok => exact inv_resize h maxElements ok henabled

theorem inv_of_reachable (h : Reachable q m) : Inv q m := by
  induction h with
  | init root maxElements maxAtTop compare hsize hcompare =>
    refine ⟨?_, hcompare, fun j hj hjn _ => ?_, rfl, zero_le _, ?_⟩
    · cases maxAtTop
      · exact .inl rfl
      · exact .inr rfl
    · have : j ≤ 0 := hjn
      omega
    · rw [initQueue, mod_eq_of_lt hsize]
      exact lt_succ_self _
  | call c _ henabled ih => exact inv_call ih c henabled

/-- After any calls, every element is in order with its parent, the queue has exactly the
elements that it should have, and the top is in order with all of them. The array has a place for
each element and for the one at `0`. -/
theorem reachable_heap (q : Queue α) (m : Multiset α) (h : Reachable q m) :
    (∀ j, 2 ≤ j → j ≤ q.elements → q.InOrder (q.root (j / 2)) (q.root j)) ∧ q.contents = m ∧
      (∀ x ∈ m, q.InOrder q.queueTop x) ∧ q.elements ≤ q.maxElements ∧
      q.maxElements < q.places := by
  have hinv := inv_of_reachable h
  have hcmp := isOrder_cmp hinv.maxAtTop hinv.compare
  refine ⟨fun j hj hjn => ?_, hinv.contents, fun x hx => ?_, hinv.elements_le, hinv.lt_places⟩
  · rw [inOrder_iff hinv.maxAtTop hinv.compare]
    exact hinv.heap j hj hjn (by omega)
  rw [inOrder_iff hinv.maxAtTop hinv.compare]
  rw [← hinv.contents, contents, mem_stored] at hx
  obtain ⟨i, hi, hin, rfl⟩ := hx
  exact hinv.heap.top_le hcmp.le_refl hcmp.le_trans i hi hin

def numCompare (a b : Fin 13) : ℤ := a - b

theorem goodCompare_numCompare : GoodCompare numCompare 1 := by
  refine ⟨⟨fun a b => ?_, fun a b c hab hbc => ?_⟩, fun a b => ?_, fun a b => ?_, fun a b => ?_⟩
  all_goals
    simp only [numCompare] at *
    omega

theorem reachable_heap_two :
    (run (run (initQueue (fun _ => 0) 2 false numCompare) (.insert 2)) (.insert 1)).contents =
      {1, 2} :=
  (reachable_heap _ _ (.call (.insert 1) (.call (.insert 2)
    (.init (fun _ => 0) 2 false numCompare (by decide) goodCompare_numCompare)
    (by decide : 0 < 2)) (by decide : 1 < 2))).2.1

/-- A queue with two elements has one of them after a `resize_queue` to one place. And when the
comparison returns the least `int`, the product with `max_at_top` is the same number: the smaller
one of two elements is on top of a queue that should have the greater one there. -/
theorem resizeQueue_drops :
    (resizeQueue (queueInsert (queueInsert (initQueue (fun _ => 0) 2 false numCompare) 2) 1) 1
      true).1.contents ≠ {1, 2} ∧
    (queueInsert (queueInsert (initQueue (fun _ => 0) 2 true
      fun a b : Fin 2 => if a < b then -2 ^ 31 else if b < a then 1 else 0) 1) 0).queueTop = 0 := by
  decide

/-- What `n` calls of `queue_remove` for the top return. -/
def drain : ℕ → Queue α → List α
  | 0, _ => []
  | n + 1, q => (q.queueRemove 0).1 :: drain n (q.queueRemove 0).2

/-- A queue that is emptied gives every element that should be in it exactly once, in order. -/
theorem drain_sorts (h : Reachable q m) :
    (drain q.elements q : Multiset α) = m ∧ (drain q.elements q).Pairwise q.InOrder := by
  replace h := inv_of_reachable h
  generalize hn : q.elements = n
  induction n generalizing q m with
  | zero =>
    have hm := h.contents
    rw [contents, stored, hn] at hm
    exact ⟨hm, .nil⟩
  | succ n ih =>
    have hpos : 0 < q.elements := by omega
    have hcmp := isOrder_cmp h.maxAtTop h.compare
    obtain ⟨hperm, hsorted⟩ := ih (inv_call h .remove hpos) (congrArg (· - 1) hn)
    have htop : q.queueTop ∈ m := by
      rw [← h.contents, contents, mem_stored]
      exact ⟨1, le_rfl, hpos, rfl⟩
    refine ⟨(congrArg _ hperm).trans (Multiset.cons_erase htop),
      List.pairwise_cons.mpr ⟨fun x hx => ?_, hsorted⟩⟩
    -- what comes later was in the heap below the top
    have hx' : x ∈ m := Multiset.mem_of_mem_erase (hperm ▸ Multiset.mem_coe.mpr hx)
    rw [← h.contents, contents, mem_stored] at hx'
    obtain ⟨i, hi, hin, rfl⟩ := hx'
    rw [inOrder_iff h.maxAtTop h.compare]
    exact h.heap.top_le hcmp.le_refl hcmp.le_trans i hi hin

theorem drain_sorts_two :
    (drain 2 (run (run (initQueue (fun _ => 0) 2 false numCompare) (.insert 2)) (.insert 1)) :
      Multiset (Fin 13)) = {1, 2} :=
  (drain_sorts (.call (.insert 1) (.call (.insert 2)
    (.init (fun _ => 0) 2 false numCompare (by decide) goodCompare_numCompare)
    (by decide : 0 < 2)) (by decide : 1 < 2))).1

/-! ### Removal of any element -/

/-- `queue_remove` of the element at `idx` of a heap: the queue is a heap without exactly this
element, unless the last element, which takes its place, is before the parent of the place. -/
theorem queueRemove_iff (q : Queue α) (hcmp : IsOrder q.cmp) (hheap : q.HeapOrder) (idx : ℕ)
    (hidx : idx < q.elements) :
    ((q.queueRemove idx).2.HeapOrder ∧ (q.queueRemove idx).1 = q.root (idx + 1) ∧
      (q.queueRemove idx).2.elements + 1 = q.elements ∧
      (q.queueRemove idx).2.contents = q.contents.erase (q.root (idx + 1))) ↔
    ¬ (1 ≤ idx ∧ q.cmp (q.root q.elements) (q.root ((idx + 1) / 2)) < 0) := by
  have helements : (q.queueRemove idx).2.elements = q.elements - 1 := rfl
  rw [queueRemove_heapOrder_iff hcmp hheap hidx]
  exact ⟨fun h => h.1, fun h => ⟨h, rfl, by omega, queueRemove_contents hcmp hheap hidx⟩⟩

/-- A heap whose last element is before the parent of another place. -/
def sixElements : Queue (Fin 13) :=
  { root := fun i => [0, 0, 10, 1, 11, 12, 2].getD i 0
    places := 7
    elements := 6
    maxElements := 6
    maxAtTop := 1
    compare := numCompare }

theorem isOrder_sixElements : IsOrder sixElements.cmp :=
  isOrder_cmp (.inl rfl) goodCompare_numCompare

theorem heapOrder_sixElements : sixElements.HeapOrder := by
  intro j hj hjn _
  have hsmall : j ≤ 6 := hjn
  rw [Le]
  interval_cases j <;> decide

theorem queueRemove_iff_sixElements : (sixElements.queueRemove 1).2.HeapOrder :=
  ((queueRemove_iff sixElements isOrder_sixElements heapOrder_sixElements 1
    (by decide : 1 < 6)).mpr (by decide)).1

/-- The element `2` takes the place of `11`, below `10`. -/
theorem queueRemove_breaks_order :
    sixElements.HeapOrder ∧ ¬ (sixElements.queueRemove 3).2.HeapOrder := by
  refine ⟨heapOrder_sixElements, fun h => ?_⟩
  have hedge := h 4 (by omega) (by decide) (by omega)
  rw [Le] at hedge
  exact absurd hedge (by decide)

end Queue

end LibSources
