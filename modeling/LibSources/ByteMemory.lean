import Mathlib.Data.List.GetD
import Mathlib.Tactic

/-!
# Memory Windows

A memory is a total function from addresses to cells. `window` reads a run of cells as a list and
`store` overwrites a run by a list, so that a copy is a `store` of a `window`.
-/

namespace LibSources

open List

variable {α : Type*}

section

variable (mem : ℕ → α) (i n : ℕ)

def window : List α := (List.range n).map fun k => mem (i + k)

def store (i : ℕ) (l : List α) : ℕ → α := fun j => if i ≤ j then l.getD (j - i) (mem j) else mem j

/-- `memmove`: the source is read before the destination is written. -/
def memmove (dst src n : ℕ) : ℕ → α := store mem dst (window mem src n)

/-! ### Windows -/

@[simp] theorem length_window : (window mem i n).length = n := by
  simp [window]

@[simp] theorem window_zero (i : ℕ) : window mem i 0 = [] := rfl

theorem window_succ : window mem i (n + 1) = mem i :: window mem (i + 1) n := by
  rw [window, range_succ_eq_map, map_cons, List.map_map, add_zero, window]
  refine congrArg _ (map_congr_left fun k _ => ?_)
  rw [Function.comp_apply, Nat.succ_eq_add_one]
  exact congrArg mem (by omega)

theorem window_add (i m n : ℕ) : window mem i (m + n) = window mem i m ++ window mem (i + m) n := by
  rw [window, range_add, map_append, List.map_map, window, window]
  refine congrArg _ (map_congr_left fun k _ => ?_)
  rw [Function.comp_apply, add_assoc]

end

theorem window_congr {mem mem' : ℕ → α} {i n : ℕ} (h : ∀ j, i ≤ j → j < i + n → mem' j = mem j) :
    window mem' i n = window mem i n :=
  map_congr_left fun k hk => h _ (by omega) (by have := mem_range.mp hk; omega)

theorem window_eq_append {mem : ℕ → α} {i n : ℕ} {l l' : List α} (h : window mem i n = l ++ l') :
    window mem i l.length = l ∧ window mem (i + l.length) l'.length = l' := by
  have hn : n = l.length + l'.length := by rw [← length_append, ← h, length_window]
  rw [hn, window_add] at h
  exact append_inj h (length_window _ _ _)

/-! ### Stores -/

section

variable (mem : ℕ → α)

theorem store_of_lt {i j : ℕ} (l : List α) (h : j < i) : store mem i l j = mem j :=
  if_neg (by omega)

theorem store_of_ge {i j : ℕ} (l : List α) (h : i + l.length ≤ j) : store mem i l j = mem j := by
  rw [store, if_pos (by omega), getD_eq_default _ _ (by omega)]

theorem store_of_mem {i k : ℕ} {l : List α} (h : k < l.length) :
    store mem i l (i + k) = l.get ⟨k, h⟩ := by
  rw [store, if_pos (by omega), add_tsub_cancel_left, getD_eq_getElem _ _ h]
  rfl

variable (i : ℕ)

@[simp] theorem store_nil : store mem i [] = mem := by
  funext j
  by_cases h : i ≤ j
  · exact store_of_ge mem [] (by simpa using h)
  · exact store_of_lt mem [] (by omega)

theorem store_append (l l' : List α) :
    store (store mem i l) (i + l.length) l' = store mem i (l ++ l') := by
  funext j
  by_cases h1 : j < i + l.length
  · rw [store_of_lt _ _ h1]
    by_cases h0 : i ≤ j
    · rw [store, store, if_pos h0, if_pos h0, getD_append _ _ _ _ (by omega)]
    · rw [store_of_lt _ _ (by omega), store_of_lt _ _ (by omega)]
  rw [store, if_pos (by omega), store_of_ge mem l (by omega), store, if_pos (by omega),
    getD_append_right _ _ _ _ (by omega)]
  congr 1
  omega

/-- A cell that was overwritten gets its old contents back. -/
theorem store_restore (x : α) : store (store mem i [x]) i [mem i] = mem := by
  funext j
  by_cases h : j = i
  · rw [h]
    exact store_of_mem _ (k := 0) (l := [mem i]) one_pos
  rcases Nat.lt_or_ge j i with hlt | hge
  · rw [store_of_lt _ _ hlt, store_of_lt _ _ hlt]
  · rw [store_of_ge _ _ (by simp; omega), store_of_ge _ _ (by simp; omega)]

theorem window_store_self (l : List α) : window (store mem i l) i l.length = l := by
  refine ext_get (length_window _ _ _) fun k h1 h2 => ?_
  have hk : k < l.length := h2
  rw [get_eq_getElem]
  simp only [window, getElem_map, getElem_range]
  exact store_of_mem mem hk

variable {i n p : ℕ} (l : List α)

theorem window_store_of_le (h : i + n ≤ p) : window (store mem p l) i n = window mem i n :=
  window_congr fun _ _ hj => store_of_lt mem l (by omega)

theorem window_store_of_ge (h : p + l.length ≤ i) : window (store mem p l) i n = window mem i n :=
  window_congr fun _ hj _ => store_of_ge mem l (by omega)

theorem window_store_set {i : ℕ} {l : List α} (x : α) (h : window mem i l.length = l) :
    window (store mem i [x]) i l.length = l.set 0 x := by
  cases l with
  | nil => rfl
  | cons y l =>
    rw [length_cons, window_succ] at h ⊢
    rw [window_store_of_ge mem [x] (le_refl (i + 1)), (cons.inj h).2, set_cons_zero]
    exact congrArg (· :: l) (store_of_mem mem (k := 0) (l := [x]) one_pos)

theorem window_store_append (i n : ℕ) (l : List α) :
    window (store mem (i + n) l) i (n + l.length) = window mem i n ++ l := by
  rw [window_add, window_store_of_le mem l le_rfl, window_store_self]

end

end LibSources
