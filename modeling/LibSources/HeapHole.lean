import Mathlib.Data.Finset.Interval
import Mathlib.Tactic

/-!
# Heaps with a Hole

An array with positions from `1` to `n` is a heap when every element is in order with its
parent, which is at half of its position. A heap is repaired with a hole: an element is taken
out, its neighbours move into its place, and it is put back where the hole is.

* Arrays are functions from positions, `le` is the order of the elements.
* `HeapFrom le a lo n` is the order below all parents from position `lo` on.
-/

namespace LibSources

open Function

variable {α : Type*}

/-! ### The elements -/

section

variable (a : ℕ → α)

def stored (n : ℕ) : Multiset α := (Finset.Icc 1 n).val.map a

theorem stored_congr {a a' : ℕ → α} {n : ℕ} (h : ∀ i, 1 ≤ i → i ≤ n → a' i = a i) :
    stored a' n = stored a n :=
  Multiset.map_congr rfl fun i hi => by
    obtain ⟨hlo, hhi⟩ := Finset.mem_Icc.mp (Finset.mem_val.mp hi)
    exact h i hlo hhi

theorem stored_succ (n : ℕ) : stored a (n + 1) = a (n + 1) ::ₘ stored a n := by
  have hset : Finset.Icc 1 (n + 1) = Finset.cons (n + 1) (Finset.Icc 1 n) (by simp) := by
    ext i
    simp only [Finset.mem_Icc, Finset.mem_cons]
    omega
  rw [stored, hset, Finset.cons_val, Multiset.map_cons, stored]

theorem stored_add {m n : ℕ} (h : m ≤ n) :
    stored a n = stored a m + (Finset.Ioc m n).val.map a := by
  have hset : Finset.Icc 1 n = (Finset.Icc 1 m).disjUnion (Finset.Ioc m n)
      (Finset.disjoint_left.mpr fun i hi hi' => by
        rw [Finset.mem_Icc] at hi
        rw [Finset.mem_Ioc] at hi'
        omega) := by
    ext i
    rw [Finset.mem_disjUnion, Finset.mem_Icc, Finset.mem_Icc, Finset.mem_Ioc]
    omega
  rw [stored, hset, Finset.disjUnion_val, Multiset.map_add, stored]

theorem mem_stored {a : ℕ → α} {n : ℕ} {x : α} : x ∈ stored a n ↔ ∃ i, 1 ≤ i ∧ i ≤ n ∧ a i = x := by
  rw [stored, Multiset.mem_map]
  refine exists_congr fun i => ?_
  rw [Finset.mem_val, Finset.mem_Icc, and_assoc]

theorem stored_swap {n i j : ℕ} (hi : 1 ≤ i ∧ i ≤ n) (hj : 1 ≤ j ∧ j ≤ n) :
    stored (a ∘ Equiv.swap i j) n = stored a n := by
  have hset : (Finset.Icc 1 n).map (Equiv.swap i j).toEmbedding = Finset.Icc 1 n := by
    refine Finset.map_perm fun k hk => ?_
    rcases Equiv.swap_apply_ne_self_iff.mp hk with ⟨-, rfl | rfl⟩
    · exact Finset.mem_coe.mpr (Finset.mem_Icc.mpr hi)
    · exact Finset.mem_coe.mpr (Finset.mem_Icc.mpr hj)
  rw [stored, ← Multiset.map_map]
  exact congrArg (Multiset.map a) (congrArg Finset.val hset)

theorem stored_move (e : α) {n i j : ℕ} (hne : i ≠ j) (hi : 1 ≤ i ∧ i ≤ n) (hj : 1 ≤ j ∧ j ≤ n) :
    stored (update (update a i (a j)) j e) n = stored (update a i e) n := by
  rw [← stored_swap (update a i e) hi hj]
  refine congrArg (stored · n) (funext fun k => ?_)
  rw [Function.comp_apply]
  by_cases hki : k = i
  · rw [hki, update_of_ne hne, update_self, Equiv.swap_apply_left, update_of_ne hne.symm]
  by_cases hkj : k = j
  · rw [hkj, update_self, Equiv.swap_apply_right, update_self]
  · rw [Equiv.swap_apply_of_ne_of_ne hki hkj, update_of_ne hkj, update_of_ne hki, update_of_ne hki]

end

theorem stored_update [DecidableEq α] (a : ℕ → α) (e : α) {n i : ℕ} (hi : 1 ≤ i ∧ i ≤ n) :
    stored (update a i e) n = e ::ₘ (stored a n).erase (a i) := by
  have hset : Finset.Icc 1 n = Finset.cons i ((Finset.Icc 1 n).erase i) (by simp) := by
    rw [Finset.cons_eq_insert, Finset.insert_erase (Finset.mem_Icc.mpr hi)]
  rw [stored, stored, hset, Finset.cons_val, Multiset.map_cons, Multiset.map_cons,
    Multiset.erase_cons_head, update_self]
  refine congrArg (e ::ₘ ·) (Multiset.map_congr rfl fun k hk => ?_)
  exact update_of_ne (Finset.ne_of_mem_erase (Finset.mem_val.mp hk)) _ _

theorem stored_remove [DecidableEq α] (a : ℕ → α) {n i : ℕ} (hi : 1 ≤ i ∧ i ≤ n) :
    stored (update a i (a n)) (n - 1) = (stored a n).erase (a i) := by
  obtain ⟨m, rfl⟩ : ∃ m, n = m + 1 := ⟨n - 1, by omega⟩
  rw [Nat.add_sub_cancel, stored_succ]
  rcases eq_or_lt_of_le hi.2 with rfl | hlt
  · rw [Multiset.erase_cons_head, update_eq_self]
  have hmem : a i ∈ stored a m := mem_stored.mpr ⟨i, hi.1, by omega, rfl⟩
  rw [stored_update a _ ⟨hi.1, by omega⟩]
  by_cases heq : a (m + 1) = a i
  · rw [heq, Multiset.erase_cons_head, Multiset.cons_erase hmem]
  · rw [Multiset.erase_cons_tail _ heq]

/-! ### The order -/

def HeapFrom (le : α → α → Prop) (a : ℕ → α) (lo n : ℕ) : Prop :=
  ∀ j, 2 ≤ j → j ≤ n → lo ≤ j / 2 → le (a (j / 2)) (a j)

/-- The order with a hole. What is above the hole is in order with what is below it. The place
`start` and its parent are not compared. -/
structure Hole (le : α → α → Prop) (a : ℕ → α) (lo n start hole : ℕ) : Prop where
  order : ∀ j, 2 ≤ j → j ≤ n → lo ≤ j / 2 → j ≠ start → j ≠ hole → j / 2 ≠ hole →
    le (a (j / 2)) (a j)
  bridge : hole ≠ start → ∀ j ≤ n, j / 2 = hole → le (a (hole / 2)) (a j)

section

variable {le : α → α → Prop} {a : ℕ → α} {e : α} {lo n start hole : ℕ}

theorem Hole.moveDown (h : Hole le a lo n start hole) (hlo : lo ≤ start) (hstart : start ≤ hole)
    (hpos : 1 ≤ hole) {c : ℕ} (hc : c / 2 = hole)
    (hbest : ∀ j ≤ n, j / 2 = hole → le (a c) (a j)) (hcn : c ≤ n) :
    Hole le (update a hole (a c)) lo n start c := by
  refine ⟨fun j hj hjn hjlo hjs hjc hjp => ?_, fun _ j hjn hjp => ?_⟩
  · by_cases hjh : j = hole
    · subst hjh
      rw [update_self, update_of_ne (by omega)]
      exact h.bridge hjs c hcn hc
    by_cases hph : j / 2 = hole
    · rw [hph, update_self, update_of_ne hjh]
      exact hbest j hjn hph
    · rw [update_of_ne hph, update_of_ne hjh]
      exact h.order j hj hjn hjlo hjs hjh hph
  · rw [hc, update_self, update_of_ne (by omega)]
    have horder := h.order j (by omega) hjn (by omega) (by omega) (by omega) (by omega)
    rwa [hjp] at horder

/-- The hole moves to its parent. What is below it stays behind the element. -/
theorem Hole.moveUp (h : Hole le a lo n start hole) (htrans : ∀ {x y z}, le x y → le y z → le x z)
    (hne : hole ≠ start) (hpos : 2 ≤ hole) (hn : hole ≤ n) (hstart : start ≤ hole / 2)
    (hlo : lo ≤ hole / 2) (hlo' : hole / 2 ≠ start → lo ≤ hole / 2 / 2) (hle : le e (a (hole / 2)))
    (hone : 1 ≤ start) :
    Hole le (update a hole (a (hole / 2))) lo n start (hole / 2) ∧
      ∀ j ≤ n, j / 2 = hole / 2 → le e (update a hole (a (hole / 2)) j) := by
  have hsibling : ∀ j ≤ n, j / 2 = hole / 2 → j ≠ hole → le (a (hole / 2)) (a j) := by
    intro j hjn hjp hjh
    have horder := h.order j (by omega) hjn (by omega) (by omega) hjh (by omega)
    rwa [hjp] at horder
  refine ⟨⟨fun j hj hjn hjlo hjs hjc hjp => ?_, fun hne' j hjn hjp => ?_⟩, fun j hjn hjp => ?_⟩
  · have hjh : j ≠ hole := by
      rintro rfl
      exact hjp rfl
    rw [update_of_ne hjh]
    by_cases hph : j / 2 = hole
    · rw [hph, update_self]
      exact h.bridge hne j hjn hph
    · rw [update_of_ne hph]
      exact h.order j hj hjn hjlo hjs hjh hph
  · have hparent : le (a (hole / 2 / 2)) (a (hole / 2)) :=
      h.order (hole / 2) (by omega) (by omega) (hlo' hne') hne' (by omega) (by omega)
    rw [update_of_ne (by omega)]
    by_cases hjh : j = hole
    · rw [hjh, update_self]
      exact hparent
    · rw [update_of_ne hjh]
      exact htrans hparent (hsibling j hjn hjp hjh)
  · by_cases hjh : j = hole
    · rw [hjh, update_self]
      exact hle
    · rw [update_of_ne hjh]
      exact htrans hle (hsibling j hjn hjp hjh)

/-- The element comes back between what is above and what is below the hole. -/
theorem Hole.fill (h : Hole le a lo n start hole) (habove : hole ≠ start → le (a (hole / 2)) e)
    (hbelow : ∀ j ≤ n, j / 2 = hole → le e (a j)) {j : ℕ} (hj : 2 ≤ j) (hjn : j ≤ n)
    (hjlo : lo ≤ j / 2) (hjs : j ≠ start) :
    le (update a hole e (j / 2)) (update a hole e j) := by
  by_cases hjh : j = hole
  · rw [hjh, update_self, update_of_ne (by omega)]
    exact habove (hjh ▸ hjs)
  rw [update_of_ne hjh]
  by_cases hph : j / 2 = hole
  · rw [hph, update_self]
    exact hbelow j hjn hph
  · rw [update_of_ne hph]
    exact h.order j hj hjn hjlo hjs hjh hph

theorem HeapFrom.top_le (h : HeapFrom le a 1 n) (hrefl : ∀ x, le x x)
    (htrans : ∀ {x y z}, le x y → le y z → le x z) (i : ℕ) (hi : 1 ≤ i) (hin : i ≤ n) :
    le (a 1) (a i) := by
  induction i using Nat.strong_induction_on with
  | _ i ih =>
    rcases eq_or_lt_of_le hi with rfl | hlt
    · exact hrefl _
    · exact htrans (ih (i / 2) (by omega) (by omega) (by omega)) (h i hlt hin (by omega))

end

end LibSources
