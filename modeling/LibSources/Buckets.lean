import Mathlib.Tactic

/-!
# Buckets

A list is distributed over buckets by a key, and the buckets are put one behind the other. This is
the list in the order of the keys, and elements with the same key keep their order.
-/

namespace LibSources

open Bool List

variable {α : Type*}

def buckets (key : α → ℕ) (m : ℕ) (l : List α) : List α :=
  (List.range m).flatMap fun c => l.filter fun x => key x = c

section

variable (key : α → ℕ) (m : ℕ) (l : List α)

theorem buckets_succ : buckets key (m + 1) l = buckets key m l ++ l.filter fun x => key x = m := by
  rw [buckets, range_succ, flatMap_append, flatMap_singleton, buckets]

theorem buckets_perm_filter : (buckets key m l).Perm (l.filter fun x => key x < m) := by
  induction m with
  | zero =>
    have hnone : (l.filter fun x => decide (key x < 0)) = [] := by simp
    rw [hnone]
    exact List.Perm.refl _
  | succ m ih =>
    have hlow : (l.filter fun x => key x < m + 1).filter (fun x => key x < m) =
        l.filter fun x => key x < m := by
      rw [List.filter_filter]
      refine filter_congr fun x _ => ?_
      rw [and_eq_left_iff_imp, decide_eq_true_iff, decide_eq_true_iff]
      omega
    have hhigh : (l.filter fun x => key x < m + 1).filter (fun x => !decide (key x < m)) =
        l.filter fun x => key x = m := by
      rw [List.filter_filter]
      refine filter_congr fun x _ => ?_
      rw [Bool.eq_iff_iff]
      simp only [and_eq_true, not_eq_true', decide_eq_false_iff_not, decide_eq_true_eq]
      omega
    have hsplit := filter_append_perm (fun x => decide (key x < m))
      (l.filter fun x => key x < m + 1)
    rw [hlow, hhigh] at hsplit
    rw [buckets_succ]
    exact (ih.append_right _).trans hsplit

variable {key m l}

theorem buckets_perm (h : ∀ x ∈ l, key x < m) : (buckets key m l).Perm l := by
  have hall : (l.filter fun x => key x < m) = l :=
    filter_eq_self.mpr fun x hx => decide_eq_true (h x hx)
  have hperm := buckets_perm_filter key m l
  rwa [hall] at hperm

theorem key_lt_of_mem_buckets {x : α} (hx : x ∈ buckets key m l) : key x < m := by
  have hmem := (buckets_perm_filter key m l).mem_iff.mp hx
  exact of_decide_eq_true (mem_filter.mp hmem).2

theorem pairwise_buckets (key : α → ℕ) (m : ℕ) (l : List α) :
    (buckets key m l).Pairwise fun x y => key x ≤ key y := by
  induction m with
  | zero => exact List.Pairwise.nil
  | succ m ih =>
    rw [buckets_succ]
    refine pairwise_append.mpr ⟨ih, ?_, fun x hx y hy => ?_⟩
    · refine List.Pairwise.imp_of_mem (fun {x y} hx hy _ => ?_)
        (pairwise_of_forall (R := fun _ _ => True) fun _ _ => trivial)
      rw [of_decide_eq_true (mem_filter.mp hx).2, of_decide_eq_true (mem_filter.mp hy).2]
    · rw [of_decide_eq_true (mem_filter.mp hy).2]
      exact (key_lt_of_mem_buckets hx).le

theorem filter_buckets {c : ℕ} (hc : c < m) :
    ((buckets key m l).filter fun x => key x = c) = l.filter fun x => key x = c := by
  induction m with
  | zero => omega
  | succ m ih =>
    rw [buckets_succ, filter_append, List.filter_filter]
    rcases Nat.lt_succ_iff_lt_or_eq.mp hc with hlt | rfl
    · have hnone : (l.filter fun x => decide (key x = c) && decide (key x = m)) = [] := by
        rw [filter_eq_nil_iff]
        intro x _
        simp only [and_eq_true, decide_eq_true_eq]
        omega
      rw [ih hlt, hnone, append_nil]
    have hnone : ((buckets key c l).filter fun x => key x = c) = [] := by
      rw [filter_eq_nil_iff]
      intro x hx
      have := key_lt_of_mem_buckets hx
      rw [decide_eq_true_eq]
      omega
    rw [hnone, nil_append]
    refine filter_congr fun x _ => ?_
    rw [Bool.and_self]

theorem buckets_of_const {c : ℕ} (hc : c < m) (h : ∀ x ∈ l, key x = c) : buckets key m l = l := by
  have hperm : (buckets key m l).Perm l := buckets_perm fun x hx => (h x hx).trans_lt hc
  have hself : ((buckets key m l).filter fun x => key x = c) = buckets key m l :=
    filter_eq_self.mpr fun x hx => decide_eq_true (h x (hperm.mem_iff.mp hx))
  have hself' : (l.filter fun x => key x = c) = l :=
    filter_eq_self.mpr fun x hx => decide_eq_true (h x hx)
  rw [← hself, filter_buckets hc, hself']

theorem pairwise_of_key_filter {R : α → α → Prop} (hkey : l.Pairwise fun x y => key x ≤ key y)
    (hfilter : ∀ c, (l.filter fun x => key x = c).Pairwise R) :
    l.Pairwise fun x y => key x < key y ∨ key x = key y ∧ R x y := by
  induction l with
  | nil => exact List.Pairwise.nil
  | cons x l ih =>
    obtain ⟨hhead, htail⟩ := pairwise_cons.mp hkey
    refine pairwise_cons.mpr ⟨fun y hy => ?_, ih htail fun c => ?_⟩
    · rcases (hhead y hy).lt_or_eq with hlt | heq
      · exact .inl hlt
      have hsame := hfilter (key x)
      have hcons : ((x :: l).filter fun y => key y = key x) =
          x :: l.filter fun y => key y = key x := filter_cons_of_pos (decide_eq_true rfl)
      rw [hcons] at hsame
      exact .inr ⟨heq, (pairwise_cons.mp hsame).1 y (mem_filter.mpr ⟨hy, decide_eq_true heq.symm⟩)⟩
    · exact (hfilter c).sublist ((sublist_cons_self x l).filter _)

/-- An order on the elements with the same value is an order on every part with one value. -/
theorem pairwise_same_iff {β : Type*} [DecidableEq β] {f : α → β} {R : α → α → Prop} :
    l.Pairwise (fun x y => f x = f y → R x y) ↔ ∀ v, (l.filter fun x => f x = v).Pairwise R := by
  constructor
  · intro h v
    rw [pairwise_filter]
    refine h.imp fun {x y} hxy hx hy => hxy ?_
    rw [of_decide_eq_true hx, of_decide_eq_true hy]
  intro h
  rw [pairwise_iff_getElem]
  intro i j hi hj hij hsame
  have hpart := h (f l[j])
  rw [pairwise_filter, pairwise_iff_getElem] at hpart
  exact hpart i j hi hj hij (decide_eq_true hsame) (decide_eq_true rfl)

end

end LibSources
