import Mathlib.Tactic

/-!
# Linked Chains Over a Slot Array

A slot array whose entries have a successor is read as a family of chains. `Segment nxt l t` says
that the slots of `l` are linked one after the other and that the last one points to `t`;
`ChainFamily slots home nxt chain` says that the occupied slots are partitioned into chains, one
for each home slot, and that a nonempty chain starts at its home slot. Nothing here knows what
the slots store.
-/

namespace LibSources

open Function List Option

variable {α : Type*}

/-- The slots of `l` are linked in order and the last one points to `t`. -/
def Segment (nxt : α → Option α) : List α → Option α → Prop
  | [], _ => True
  | a :: l, t => nxt a = l.head?.or t ∧ Segment nxt l t

section

variable (nxt : α → Option α)

@[simp] theorem segment_nil (t : Option α) : Segment nxt [] t := trivial

@[simp] theorem segment_cons (a : α) (l : List α) (t : Option α) :
    Segment nxt (a :: l) t ↔ nxt a = l.head?.or t ∧ Segment nxt l t := Iff.rfl

theorem segment_append (l1 l2 : List α) (t : Option α) :
    Segment nxt (l1 ++ l2) t ↔ Segment nxt l1 (l2.head?.or t) ∧ Segment nxt l2 t := by
  induction l1 with
  | nil => simp
  | cons a l1 ih =>
    rw [cons_append, segment_cons, segment_cons, ih, head?_append, Option.or_assoc, and_assoc]

end

variable {a i h e s x t : α} {l r : List α}

theorem Segment.unique {nxt : α → Option α} {l' : List α} (h : Segment nxt (a :: l) none)
    (h' : Segment nxt (a :: l') none) : l = l' := by
  induction l generalizing a l' with
  | nil =>
    have hnext : l'.head? = none := by simpa [h.1] using h'.1.symm
    exact (head?_eq_none_iff.mp hnext).symm
  | cons b l ih =>
    have hnext : l'.head? = some b := by simpa [h.1] using h'.1.symm
    obtain ⟨l'', rfl⟩ : ∃ l'', l' = b :: l'' := by
      cases l' with
      | nil => exact absurd hnext (by simp)
      | cons c l'' => exact ⟨l'', by rw [some.inj hnext]⟩
    rw [ih h.2 h'.2]

theorem Segment.congr {nxt nxt' : α → Option α} {t : Option α} (h : Segment nxt l t)
    (heq : ∀ a ∈ l, nxt' a = nxt a) : Segment nxt' l t := by
  induction l with
  | nil => trivial
  | cons a l ih =>
    refine ⟨?_, ih h.2 fun b hb => heq b (mem_cons_of_mem a hb)⟩
    rw [heq a mem_cons_self]
    exact h.1

theorem Segment.redirect_last [DecidableEq α] {nxt : α → Option α} {t t' : Option α}
    (h : Segment nxt (l ++ [a]) t) (ha : a ∉ l) : Segment (update nxt a t') (l ++ [a]) t' := by
  rw [segment_append] at h ⊢
  refine ⟨h.1.congr fun b hb => ?_, ?_⟩
  · refine update_of_ne ?_ _ _
    rintro rfl
    exact ha hb
  · simp

/-- The occupied slots are partitioned into chains, one for each home slot; a nonempty
chain starts at its home slot. -/
structure ChainFamily (slots : α → Prop) (home : α → α) (nxt : α → Option α)
    (chain : α → List α) : Prop where
  seg : ∀ h, Segment nxt (chain h) none
  nodup : ∀ h, (chain h).Nodup
  mem_iff : ∀ h i, i ∈ chain h ↔ slots i ∧ home i = h
  head_eq : ∀ h i l, chain h = i :: l → i = h

namespace ChainFamily

variable {slots slots' : α → Prop} {home home' : α → α} {nxt nxt' : α → Option α}
  {chain : α → List α}

section

variable (F : ChainFamily slots home nxt chain)
include F

theorem mem_of_eq (hc : chain h = l) (i : α) : i ∈ l ↔ slots i ∧ home i = h := by
  rw [← hc]
  exact F.mem_iff _ _

theorem head_of_eq {l' r' : List α} (hc : chain h = l ++ a :: r) (heq : l ++ a :: r' = i :: l') :
    i = h := by
  cases l with
  | nil =>
    obtain ⟨rfl, -⟩ := cons.inj heq
    exact F.head_eq _ _ _ hc
  | cons b l =>
    obtain ⟨rfl, -⟩ := cons.inj heq
    exact F.head_eq _ _ _ hc

theorem exists_chain_eq (hi : slots i) : ∃ l, chain (home i) = home i :: l := by
  have hmem : i ∈ chain (home i) := (F.mem_iff _ _).mpr ⟨hi, rfl⟩
  cases hc : chain (home i) with
  | nil => rw [hc] at hmem; exact absurd hmem not_mem_nil
  | cons a l =>
    obtain rfl := F.head_eq _ _ _ hc
    exact ⟨l, rfl⟩

theorem home_home (hi : slots i) : slots (home i) ∧ home (home i) = home i := by
  obtain ⟨l, hl⟩ := F.exists_chain_eq hi
  exact (F.mem_iff _ _).mp (hl ▸ mem_cons_self)

theorem chain_eq_nil (hh : ¬ (slots h ∧ home h = h)) : chain h = [] := by
  cases hc : chain h with
  | nil => rfl
  | cons a l =>
    obtain rfl := F.head_eq _ _ _ hc
    exact absurd ((F.mem_iff _ _).mp (hc ▸ mem_cons_self)) hh

theorem chain_eq_cons (hs : slots h) (hh : home h = h) : ∃ l, chain h = h :: l := by
  obtain ⟨l, hl⟩ := F.exists_chain_eq hs
  rw [hh] at hl
  exact ⟨l, hl⟩

theorem exists_pred (hi : slots i) (hne : home i ≠ i) :
    ∃ l a r, chain (home i) = l ++ a :: i :: r ∧ (l ++ [a]).head? = some (home i) := by
  have hmem : i ∈ chain (home i) := (F.mem_iff _ _).mpr ⟨hi, rfl⟩
  obtain ⟨l1, r, hl⟩ := append_of_mem hmem
  rcases eq_nil_or_concat l1 with rfl | ⟨l, a, rfl⟩
  · exact absurd (F.head_eq _ _ _ hl).symm hne
  refine ⟨l, a, r, by rw [hl]; simp, ?_⟩
  obtain ⟨l', hl'⟩ := F.exists_chain_eq hi
  have hh : (chain (home i)).head? = some (home i) := by rw [hl']; rfl
  rw [hl] at hh
  simpa using hh

theorem exists_suffix (hi : slots i) : ∃ l r, chain (home i) = l ++ i :: r :=
  append_of_mem ((F.mem_iff _ _).mpr ⟨hi, rfl⟩)

theorem slots_of_nxt {j : α} (hi : slots i) (hj : nxt i = some j) : slots j ∧ home j = home i := by
  obtain ⟨l, r, hl⟩ := F.exists_suffix hi
  have hs := F.seg (home i)
  rw [hl, segment_append] at hs
  obtain ⟨-, hnext, -⟩ := hs
  rw [hj] at hnext
  cases r with
  | nil => simp at hnext
  | cons b r =>
    obtain rfl : j = b := by simpa using hnext
    exact (F.mem_iff _ _).mp (by rw [hl]; simp)

theorem congr (hslots : ∀ i, slots' i ↔ slots i) (hhome : ∀ i, slots i → home' i = home i)
    (hnxt : ∀ i, slots i → nxt' i = nxt i) : ChainFamily slots' home' nxt' chain where
  seg h := (F.seg h).congr fun a ha => hnxt a ((F.mem_iff _ _).mp ha).1
  nodup := F.nodup
  mem_iff h i := by
    rw [F.mem_iff, hslots]
    constructor
    · rintro ⟨hi, rfl⟩
      exact ⟨hi, hhome i hi⟩
    · rintro ⟨hi, rfl⟩
      exact ⟨hi, (hhome i hi).symm⟩
  head_eq := F.head_eq

/-- Rebuilding some of the chains: the slots of the other chains keep their place, and
each rebuilt chain is linked, repetition-free, complete, and starts at its home. -/
theorem of_changed (changed : α → Prop) {chain' : α → List α}
    (hsame : ∀ h, ¬ changed h → chain' h = chain h)
    (hkeep : ∀ i, slots i → ¬ changed (home i) → slots' i ∧ home' i = home i ∧ nxt' i = nxt i)
    (hback : ∀ i, slots' i → ¬ changed (home' i) → slots i ∧ home i = home' i)
    (hseg : ∀ h, changed h → Segment nxt' (chain' h) none)
    (hnodup : ∀ h, changed h → (chain' h).Nodup)
    (hmem : ∀ h i, changed h → (i ∈ chain' h ↔ slots' i ∧ home' i = h))
    (hhead : ∀ h i l, changed h → chain' h = i :: l → i = h) :
    ChainFamily slots' home' nxt' chain' where
  seg h := by
    by_cases hc : changed h
    · exact hseg h hc
    rw [hsame h hc]
    refine (F.seg h).congr fun a ha => ?_
    obtain ⟨hs, rfl⟩ := (F.mem_iff _ _).mp ha
    exact (hkeep a hs hc).2.2
  nodup h := by
    by_cases hc : changed h
    · exact hnodup h hc
    · rw [hsame h hc]
      exact F.nodup h
  mem_iff h i := by
    by_cases hc : changed h
    · exact hmem h i hc
    rw [hsame h hc, F.mem_iff]
    constructor
    · rintro ⟨hs, rfl⟩
      exact ⟨(hkeep i hs hc).1, (hkeep i hs hc).2.1⟩
    · rintro ⟨hs, rfl⟩
      exact hback i hs hc
  head_eq h i l hl := by
    by_cases hc : changed h
    · exact hhead h i l hc hl
    · rw [hsame h hc] at hl
      exact F.head_eq h i l hl

end

variable [DecidableEq α]

section

variable (F : ChainFamily slots home nxt chain)
include F

theorem of_updated
    (hkeep : ∀ i, slots i → home i ≠ h → slots' i ∧ home' i = home i ∧ nxt' i = nxt i)
    (hback : ∀ i, slots' i → home' i ≠ h → slots i ∧ home i = home' i) (hseg : Segment nxt' l none)
    (hnodup : l.Nodup) (hmem : ∀ i, i ∈ l ↔ slots' i ∧ home' i = h)
    (hhead : ∀ i l', l = i :: l' → i = h) : ChainFamily slots' home' nxt' (update chain h l) := by
  refine F.of_changed (· = h) (fun g hg => update_of_ne hg _ _) hkeep hback ?_ ?_ ?_ ?_
  · rintro g rfl
    rwa [update_self]
  · rintro g rfl
    rwa [update_self]
  · rintro g i rfl
    rw [update_self]
    exact hmem i
  · rintro g i l' rfl
    rw [update_self]
    exact hhead i l'

/-- Moving a slot that is not the head of its chain to the free slot `e`, by redirecting
its predecessor `a`. -/
theorem relocate (hs : slots s) (he : ¬ slots e) (hc : chain (home s) = l ++ a :: s :: r)
    (hslots : ∀ i, slots' i ↔ (slots i ∧ i ≠ s) ∨ i = e)
    (hhome : ∀ i, slots i → i ≠ s → home' i = home i) (hhe : home' e = home s)
    (hnxt : ∀ i, slots i → i ≠ s → i ≠ a → nxt' i = nxt i) (hna : nxt' a = some e)
    (hne : nxt' e = nxt s) :
    ChainFamily slots' home' nxt' (update chain (home s) (l ++ a :: e :: r)) := by
  have hnd := F.nodup (home s)
  have hsg := F.seg (home s)
  rw [hc] at hnd hsg
  have hin := F.mem_of_eq hc
  have hel : e ∉ l ++ a :: s :: r := fun h => he ((hin e).mp h).1
  have hkeep : ∀ i ∈ l ++ a :: s :: r, i ≠ s → i ≠ a → nxt' i = nxt i :=
    fun i hi h1 h2 => hnxt i ((hin i).mp hi).1 h1 h2
  refine F.of_updated ?_ ?_ ?_ ?_ ?_ ?_
  · intro i hi hh
    have his : i ≠ s := by rintro rfl; exact hh rfl
    have hia : i ≠ a := by rintro rfl; exact hh ((hin i).mp (by simp)).2
    exact ⟨(hslots i).mpr (.inl ⟨hi, his⟩), hhome i hi his, hnxt i hi his hia⟩
  · intro i hi hh
    rcases (hslots i).mp hi with ⟨hi', his⟩ | rfl
    · exact ⟨hi', (hhome i hi' his).symm⟩
    · exact absurd hhe hh
  · simp only [segment_append, segment_cons, head?_cons, some_or] at hsg ⊢
    obtain ⟨hl, -, hs', hr⟩ := hsg
    refine ⟨hl.congr fun b hb => hkeep b (by simp [hb]) ?_ ?_, hna, hne.trans hs',
      hr.congr fun b hb => hkeep b (by simp [hb]) ?_ ?_⟩ <;> grind
  · grind
  · intro i
    rw [hslots]
    grind
  · intro i l'
    exact F.head_of_eq hc

/-- A free slot `e` joins the chain of `h` right after its head. -/
theorem insertSecond (he : ¬ slots e) (hc : chain h = h :: r)
    (hslots : ∀ i, slots' i ↔ slots i ∨ i = e) (hhome : ∀ i, slots i → home' i = home i)
    (hhe : home' e = h) (hnxt : ∀ i, slots i → i ≠ h → nxt' i = nxt i) (hnh : nxt' h = some e)
    (hne : nxt' e = nxt h) : ChainFamily slots' home' nxt' (update chain h (h :: e :: r)) := by
  have hnd := F.nodup h
  have hsg := F.seg h
  rw [hc] at hnd hsg
  have hin := F.mem_of_eq hc
  refine F.of_updated ?_ ?_ ?_ ?_ ?_ ?_
  · grind
  · grind
  · refine ⟨hnh, hne.trans hsg.1, hsg.2.congr fun b hb => hnxt b ?_ ?_⟩ <;> grind
  · grind
  · intro i
    grind
  · intro i l
    grind

theorem insertOnly (hh : ¬ slots h) (hslots : ∀ i, slots' i ↔ slots i ∨ i = h)
    (hhome : ∀ i, slots i → home' i = home i) (hhh : home' h = h)
    (hnxt : ∀ i, slots i → nxt' i = nxt i) (hnh : nxt' h = none) :
    ChainFamily slots' home' nxt' (update chain h [h]) := by
  have hc : chain h = [] := F.chain_eq_nil fun hs => hh hs.1
  have hin : ∀ i, slots i → home i ≠ h := by
    intro i hi hih
    have := (F.mem_iff h i).mpr ⟨hi, hih⟩
    rw [hc] at this
    exact absurd this not_mem_nil
  refine F.of_updated ?_ ?_ ?_ ?_ ?_ ?_
  · grind
  · grind
  · simpa using hnh
  · exact nodup_singleton _
  · intro i
    grind
  · intro i l
    grind

theorem eraseTail (hc : chain (home s) = l ++ a :: s :: r)
    (hslots : ∀ i, slots' i ↔ slots i ∧ i ≠ s) (hhome : ∀ i, slots i → i ≠ s → home' i = home i)
    (hnxt : ∀ i, slots i → i ≠ s → i ≠ a → nxt' i = nxt i) (hna : nxt' a = nxt s) :
    ChainFamily slots' home' nxt' (update chain (home s) (l ++ a :: r)) := by
  have hnd := F.nodup (home s)
  have hsg := F.seg (home s)
  rw [hc] at hnd hsg
  have hin := F.mem_of_eq hc
  refine F.of_updated ?_ ?_ ?_ ?_ ?_ ?_
  · grind
  · grind
  · simp only [segment_append, segment_cons, head?_cons, some_or] at hsg ⊢
    obtain ⟨hl, -, hs, hr⟩ := hsg
    refine ⟨hl.congr fun b hb => hnxt b ?_ ?_ ?_, hna.trans hs,
      hr.congr fun b hb => hnxt b ?_ ?_ ?_⟩ <;> grind
  · grind
  · intro i
    grind
  · intro i l'
    exact F.head_of_eq hc

theorem eraseOnly (hc : chain s = [s]) (hslots : ∀ i, slots' i ↔ slots i ∧ i ≠ s)
    (hhome : ∀ i, slots i → i ≠ s → home' i = home i)
    (hnxt : ∀ i, slots i → i ≠ s → nxt' i = nxt i) :
    ChainFamily slots' home' nxt' (update chain s []) := by
  have hin := F.mem_of_eq hc
  refine F.of_updated ?_ ?_ ?_ ?_ ?_ ?_
  · grind
  · grind
  · trivial
  · exact nodup_nil
  · intro i
    grind
  · intro i l
    grind

theorem of_absorbed (hxt : x ≠ t) (hkeep : ∀ i, slots i → ¬ (home i = x ∨ home i = t) →
      slots' i ∧ home' i = home i ∧ nxt' i = nxt i)
    (hback : ∀ i, slots' i → ¬ (home' i = x ∨ home' i = t) → slots i ∧ home i = home' i)
    (hseg : Segment nxt' (t :: l) none) (hnodup : (t :: l).Nodup)
    (hgone : ∀ i, slots' i → home' i ≠ x) (hmem : ∀ i, i ∈ t :: l ↔ slots' i ∧ home' i = t) :
    ChainFamily slots' home' nxt' (update (update chain x []) t (t :: l)) := by
  have hcx : update (update chain x []) t (t :: l) x = [] := by rw [update_of_ne hxt, update_self]
  refine F.of_changed (fun h => h = x ∨ h = t) ?_ hkeep hback ?_ ?_ ?_ ?_
  · intro h hh
    rw [update_of_ne (by tauto), update_of_ne (by tauto)]
  · rintro h (rfl | rfl)
    · rw [hcx]
      trivial
    · rwa [update_self]
  · rintro h (rfl | rfl)
    · rw [hcx]
      exact nodup_nil
    · rwa [update_self]
  · rintro h i (rfl | rfl)
    · rw [hcx]
      exact ⟨fun hi => absurd hi not_mem_nil, fun hi => absurd hi.2 (hgone i hi.1)⟩
    · rw [update_self]
      exact hmem i
  · rintro h i l' (rfl | rfl) hl
    · rw [hcx] at hl
      exact absurd hl (cons_ne_nil i l').symm
    · rw [update_self] at hl
      exact (cons.inj hl).1.symm

/-- The chain of `x` becomes the chain of the free home slot `t`: its head moves there. -/
theorem moveChain (hc : chain x = x :: r) (ht : ¬ slots t)
    (hslots : ∀ i, slots' i ↔ (slots i ∧ i ≠ x) ∨ i = t)
    (hhome : ∀ i, slots i → i ≠ x → home' i = if home i = x then t else home i) (hht : home' t = t)
    (hnxt : ∀ i, slots i → i ≠ x → nxt' i = nxt i) (hnt : nxt' t = nxt x) :
    ChainFamily slots' home' nxt' (update (update chain x []) t (t :: r)) := by
  have hnd := F.nodup x
  have hsg := F.seg x
  rw [hc] at hnd hsg
  have hin := F.mem_of_eq hc
  have hxt : x ≠ t := by
    rintro rfl
    exact ht ((hin x).mp mem_cons_self).1
  have hnt' : ∀ i, slots i → home i ≠ t := by
    intro i hi hit
    have := (F.mem_iff t i).mpr ⟨hi, hit⟩
    rw [F.chain_eq_nil fun hs => ht hs.1] at this
    exact absurd this not_mem_nil
  refine F.of_absorbed hxt (by grind) (by grind) ?_ (by grind) (by grind) (by grind)
  refine ⟨hnt.trans hsg.1, hsg.2.congr fun b hb => hnxt b ?_ ?_⟩ <;> grind

/-- The chain of `x` is absorbed by the home slot `t`: its head moves to the free slot
`e`, and the chain of `t` becomes `t`, then the absorbed slots, then the slots that
already followed `t`. -/
theorem mergeHead {q : List α} (hc : chain x = x :: r) (hct : chain t = t :: q) (hxt : x ≠ t)
    (he : ¬ slots e) (hslots : ∀ i, slots' i ↔ (slots i ∧ i ≠ x) ∨ i = e)
    (hhome : ∀ i, slots i → i ≠ x → home' i = if home i = x then t else home i) (hhe : home' e = t)
    (hnxt : ∀ i, slots i → home i ≠ x → i ≠ t → nxt' i = nxt i) (hnt : nxt' t = some e)
    (hseg : Segment nxt' (e :: r) (nxt t)) :
    ChainFamily slots' home' nxt' (update (update chain x []) t (t :: e :: (r ++ q))) := by
  have hnd := F.nodup x
  have hndt := F.nodup t
  have hsg := F.seg t
  rw [hc] at hnd
  rw [hct] at hndt hsg
  have hin := F.mem_of_eq hc
  have hint : ∀ i, i ∈ t :: q ↔ slots i ∧ home i = t := by
    intro i
    rw [← hct]
    exact F.mem_iff _ _
  refine F.of_absorbed hxt (by grind) (by grind) ?_ (by grind) (by grind) (by grind)
  obtain ⟨hnt', hq⟩ := hsg
  rw [hnt', or_none] at hseg
  refine ⟨by simpa using hnt, ?_⟩
  rw [← cons_append, segment_append, or_none]
  refine ⟨hseg, hq.congr fun b hb => hnxt b ?_ ?_ ?_⟩ <;> grind

/-- The chain of `x` is absorbed by the home slot `t`, which is occupied by one of the
slots of that chain: the head of the chain moves to the free slot `e`, and `t` moves to
the front. -/
theorem mergeMember (hc : chain x = x :: (l ++ t :: r)) (he : ¬ slots e)
    (hslots : ∀ i, slots' i ↔ (slots i ∧ i ≠ x) ∨ i = e)
    (hhome : ∀ i, slots i → i ≠ x → home' i = if home i = x then t else home i) (hhe : home' e = t)
    (hnxt : ∀ i, slots i → home i ≠ x → nxt' i = nxt i) (hnt : nxt' t = some e)
    (hseg : Segment nxt' (e :: (l ++ r)) none) :
    ChainFamily slots' home' nxt' (update (update chain x []) t (t :: e :: (l ++ r))) := by
  have hnd := F.nodup x
  rw [hc] at hnd
  have hin := F.mem_of_eq hc
  have hxt : x ≠ t := by
    rintro rfl
    simp at hnd
  have hnt' : ∀ i, slots i → home i ≠ t := by
    intro i hi hit
    have ht : ¬ (slots t ∧ home t = t) := fun hs => hxt (((hin t).mp (by simp)).2.symm.trans hs.2)
    have := (F.mem_iff t i).mpr ⟨hi, hit⟩
    rw [F.chain_eq_nil ht] at this
    exact absurd this not_mem_nil
  exact F.of_absorbed hxt (by grind) (by grind) ⟨by simpa using hnt, hseg⟩ (by grind) (by grind)
    (by grind)

end

end ChainFamily

end LibSources
