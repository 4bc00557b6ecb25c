import Mathlib.Tactic

/-!
# Rearrangement of a Segment

An array is a function from positions to elements. `Rearranged a a' lo hi` says that `a'` has
the elements of `a` in another order from `lo` to `hi`, and the same elements elsewhere.
-/

namespace LibSources

open Function

variable {α : Type*}

/-- `a'` has the elements of `a`, in another order between `lo` and `hi`. -/
def Rearranged (a a' : ℤ → α) (lo hi : ℤ) : Prop :=
  ∃ σ : Equiv.Perm ℤ, (∀ i, i < lo ∨ hi < i → σ i = i) ∧ ∀ i, a' i = a (σ i)

def exchange (a : ℤ → α) (i j : ℤ) : ℤ → α := update (update a i (a j)) j (a i)

section

variable {a a' a'' : ℤ → α} {lo hi lo' hi' i j k : ℤ}

theorem exchange_left (a : ℤ → α) (i j : ℤ) : exchange a i j i = a j := by
  rw [exchange]
  by_cases hij : i = j
  · rw [hij, update_self]
  · rw [update_of_ne hij, update_self]

theorem exchange_right (a : ℤ → α) (i j : ℤ) : exchange a i j j = a i := update_self ..

theorem exchange_of_ne (hi : k ≠ i) (hj : k ≠ j) : exchange a i j k = a k := by
  rw [exchange, update_of_ne hj, update_of_ne hi]

theorem exchange_eq (a : ℤ → α) (i j : ℤ) : exchange a i j = a ∘ Equiv.swap i j := by
  funext k
  by_cases hi : k = i
  · rw [hi, exchange_left, comp_apply, Equiv.swap_apply_left]
  by_cases hj : k = j
  · rw [hj, exchange_right, comp_apply, Equiv.swap_apply_right]
  · rw [exchange_of_ne hi hj, comp_apply, Equiv.swap_apply_of_ne_of_ne hi hj]

theorem Rearranged.refl (a : ℤ → α) (lo hi : ℤ) : Rearranged a a lo hi :=
  ⟨1, fun _ _ => rfl, fun _ => rfl⟩

theorem Rearranged.trans (h : Rearranged a a' lo hi) (h' : Rearranged a' a'' lo hi) :
    Rearranged a a'' lo hi := by
  obtain ⟨σ, hσ, ha⟩ := h
  obtain ⟨τ, hτ, ha'⟩ := h'
  refine ⟨τ.trans σ, fun i hi => ?_, fun i => ?_⟩
  · rw [Equiv.trans_apply, hτ i hi, hσ i hi]
  · rw [ha', ha, Equiv.trans_apply]

theorem Rearranged.mono (h : Rearranged a a' lo hi) (hlo : lo' ≤ lo) (hhi : hi ≤ hi') :
    Rearranged a a' lo' hi' := by
  obtain ⟨σ, hσ, ha⟩ := h
  exact ⟨σ, fun i hi => hσ i (by omega), ha⟩

theorem Rearranged.swap (a : ℤ → α) (hmem : lo ≤ i ∧ i ≤ hi) (hmem' : lo ≤ j ∧ j ≤ hi) :
    Rearranged a (exchange a i j) lo hi :=
  ⟨Equiv.swap i j, fun k hk => Equiv.swap_apply_of_ne_of_ne (by omega) (by omega),
    fun k => congrFun (exchange_eq a i j) k⟩

theorem Rearranged.outside (h : Rearranged a a' lo hi) (hk : k < lo ∨ hi < k) : a' k = a k := by
  obtain ⟨σ, hσ, ha⟩ := h
  rw [ha, hσ k hk]

/-- What all elements of the segment satisfy, they satisfy in another order. -/
theorem Rearranged.forall_mem (h : Rearranged a a' lo hi) {P : α → Prop}
    (hP : ∀ k, lo ≤ k → k ≤ hi → P (a k)) : ∀ k, lo ≤ k → k ≤ hi → P (a' k) := by
  obtain ⟨σ, hσ, ha⟩ := h
  intro k hk hk'
  have hmem : ¬ (σ k < lo ∨ hi < σ k) := fun hout => by
    have hfix := σ.injective (hσ (σ k) hout)
    omega
  rw [ha]
  exact hP (σ k) (by omega) (by omega)

end

end LibSources
