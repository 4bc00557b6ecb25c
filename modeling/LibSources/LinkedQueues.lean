import Mathlib.Data.Fintype.Card

/-!
# Doubly Linked Lists with Tail Pointers

Several lists share one set of elements. An element has a `next` pointer and a pointer `prev` to
the place that points to it; a list has a pointer to its first element and a pointer `last` to the
place where the next element is hung up. Here is when such pointers stand for given lists and what
the usual assignments do to the lists.
-/

namespace LibSources

open Function List

/-- A place that holds a pointer to an element: the head of a list or the `next` of an element. -/
inductive Slot (Q D : Type*) where
  | head (q : Q)
  | next (d : D)
  deriving DecidableEq

structure Links (Q D : Type*) where
  link : Slot Q D → Option D
  prev : D → Slot Q D
  last : Q → Slot Q D

namespace Links

section Operations

variable {Q D : Type*} [DecidableEq Q] [DecidableEq D] (m : Links Q D)

/-- Hangs an element up at the end of a list. Its `next` stays as it is. -/
def append (q : Q) (d : D) : Links Q D where
  link := update m.link (m.last q) (some d)
  prev := update m.prev d (m.last q)
  last := update m.last q (.next d)

def unlink (q : Q) (d : D) : Links Q D :=
  match m.link (.next d) with
  | some e =>
    { m with
      link := update m.link (m.prev d) (some e)
      prev := update m.prev e (m.prev d) }
  | none =>
    { m with
      link := update m.link (m.prev d) none
      last := update m.last q (m.prev d) }

def clear (s : Slot Q D) : Links Q D := { m with link := update m.link s none }

/-- Hangs the list `w`, whose first element is `d`, up at the end of `r`. The pointer to the first
element of `w` stays as it is. -/
def splice (r w : Q) (d : D) : Links Q D where
  link := update m.link (m.last r) (some d)
  prev := update m.prev d (m.last r)
  last := update (update m.last r (m.last w)) w (.head w)

end Operations

section Segments

variable {Q D : Type*}

def walk (m : Links Q D) : ℕ → Slot Q D → List D
  | 0, _ => []
  | n + 1, s =>
    match m.link s with
    | none => []
    | some d => d :: walk m n (.next d)

def contents [Fintype D] (m : Links Q D) (q : Q) : List D := m.walk (Fintype.card D) (.head q)

/-- The place behind the elements `l` that start at the place `s`. -/
def endSlot : Slot Q D → List D → Slot Q D
  | s, [] => s
  | _, d :: l => endSlot (.next d) l

def Segment (m : Links Q D) : Slot Q D → List D → Prop
  | _, [] => True
  | s, d :: l => m.link s = some d ∧ m.prev d = s ∧ Segment m (.next d) l

theorem endSlot_append (s : Slot Q D) (l1 l2 : List D) :
    endSlot s (l1 ++ l2) = endSlot (endSlot s l1) l2 := by
  induction l1 generalizing s with
  | nil => rfl
  | cons d l1 ih => exact ih (.next d)

theorem endSlot_eq_or (s : Slot Q D) (l : List D) :
    endSlot s l = s ∨ ∃ d ∈ l, endSlot s l = .next d := by
  induction l generalizing s with
  | nil => exact .inl rfl
  | cons d l ih =>
    right
    rcases ih (.next d) with h | ⟨e, he, h⟩
    · exact ⟨d, mem_cons_self, h⟩
    · exact ⟨e, mem_cons_of_mem d he, h⟩

theorem segment_append {m : Links Q D} {s : Slot Q D} {l1 l2 : List D} :
    m.Segment s (l1 ++ l2) ↔ m.Segment s l1 ∧ m.Segment (endSlot s l1) l2 := by
  induction l1 generalizing s with
  | nil => exact (iff_of_eq (true_and _)).symm
  | cons d l1 ih =>
    rw [cons_append, Segment, Segment, ih, and_assoc, and_assoc]
    rfl

theorem Segment.congr {m m' : Links Q D} {s : Slot Q D} {l : List D} (h : m.Segment s l)
    (hnodup : l.Nodup) (hs : ∀ d ∈ l, s ≠ .next d)
    (hlink : ∀ t, (t = s ∨ ∃ d ∈ l, t = .next d) → t ≠ endSlot s l → m'.link t = m.link t)
    (hprev : ∀ d ∈ l, m'.prev d = m.prev d) : m'.Segment s l := by
  induction l generalizing s with
  | nil => trivial
  | cons d l ih =>
    obtain ⟨hfirst, hback, hrest⟩ := h
    obtain ⟨hd, hnodup⟩ := nodup_cons.mp hnodup
    have hend : s ≠ endSlot s (d :: l) := by
      rcases endSlot_eq_or (.next d) l with h | ⟨e, he, h⟩
      · exact h ▸ hs d mem_cons_self
      · exact h ▸ hs e (mem_cons_of_mem d he)
    refine ⟨(hlink s (.inl rfl) hend).trans hfirst,
      (hprev d mem_cons_self).trans hback, ih hrest hnodup ?_ ?_ ?_⟩
    · intro e he hcontra
      cases hcontra
      exact hd he
    · rintro t (rfl | ⟨e, he, rfl⟩) ht
      · exact hlink _ (.inr ⟨d, mem_cons_self, rfl⟩) ht
      · exact hlink _ (.inr ⟨e, mem_cons_of_mem d he, rfl⟩) ht
    · exact fun e he => hprev e (mem_cons_of_mem d he)

theorem walk_eq {m : Links Q D} {s : Slot Q D} {l : List D} (h : m.Segment s l)
    (hstop : m.link (endSlot s l) = none) {n : ℕ} (hn : l.length ≤ n) : m.walk n s = l := by
  induction l generalizing s n with
  | nil =>
    cases n with
    | zero => rfl
    | succ n =>
      have hstop : m.link s = none := hstop
      rw [walk, hstop]
  | cons d l ih =>
    obtain ⟨n, rfl⟩ : ∃ k, n = k + 1 := ⟨n - 1, by rw [length_cons] at hn; omega⟩
    rw [walk, h.1]
    exact congrArg (d :: ·) (ih h.2.2 hstop (Nat.le_of_succ_le_succ hn))

/-- The pointers of the list `q` stand for the elements `l`. The end of the list is marked unless
the list is `o`. -/
structure IsList (m : Links Q D) (o : Option Q) (q : Q) (l : List D) : Prop where
  segment : m.Segment (.head q) l
  last : m.last q = endSlot (.head q) l
  stop : o ≠ some q → m.link (endSlot (.head q) l) = none
  nodup : l.Nodup

def SlotOf (q : Q) (l : List D) (t : Slot Q D) : Prop := t = .head q ∨ ∃ d ∈ l, t = .next d

theorem slotOf_endSlot (q : Q) (l : List D) : SlotOf q l (endSlot (.head q) l) :=
  endSlot_eq_or (.head q) l

theorem SlotOf.mono {q : Q} {l l' : List D} {t : Slot Q D} (h : SlotOf q l t) (hl : l ⊆ l') :
    SlotOf q l' t :=
  h.imp_right fun ⟨d, hd, ht⟩ => ⟨d, hl hd, ht⟩

theorem SlotOf.next_ne {q : Q} {l : List D} {t : Slot Q D} (h : SlotOf q l t) {d : D}
    (hd : d ∉ l) : t ≠ .next d := by
  rintro rfl
  rcases h with h | ⟨e, he, heq⟩
  · cases h
  · cases heq
    exact hd he

theorem SlotOf.ne {q q' : Q} (hq : q ≠ q') {l l' : List D} (hl : l.Disjoint l') {t t' : Slot Q D}
    (h : SlotOf q l t) (h' : SlotOf q' l' t') : t ≠ t' := by
  rcases h with rfl | ⟨d, hd, rfl⟩
  · rintro rfl
    rcases h' with h' | ⟨e, -, he⟩
    · cases h'
      exact hq rfl
    · cases he
  · exact (h'.next_ne (hl hd)).symm

theorem ne_endSlot {q : Q} {l l' : List D} {d : D} (h : l.Disjoint (d :: l')) {t : Slot Q D}
    (ht : t = .next d ∨ ∃ x ∈ l', t = .next x) : t ≠ endSlot (.head q) l := by
  have hmem : ∀ x ∈ d :: l', .next x ≠ endSlot (.head q) l := fun x hx =>
    ((slotOf_endSlot q l).next_ne fun hx1 => h hx1 hx).symm
  rcases ht with rfl | ⟨x, hx, rfl⟩
  · exact hmem d mem_cons_self
  · exact hmem x (mem_cons_of_mem d hx)

namespace IsList

variable {m m' : Links Q D} {o : Option Q} {q : Q} {l : List D}

theorem segment_congr (h : m.IsList o q l)
    (hlink : ∀ t, SlotOf q l t → t ≠ endSlot (.head q) l → m'.link t = m.link t)
    (hprev : ∀ d ∈ l, m'.prev d = m.prev d) : m'.Segment (.head q) l :=
  h.segment.congr h.nodup (fun _ _ hcontra => (nomatch hcontra)) hlink hprev

theorem congr (h : m.IsList o q l) (hlink : ∀ t, SlotOf q l t → m'.link t = m.link t)
    (hprev : ∀ d ∈ l, m'.prev d = m.prev d) (hlast : m'.last q = m.last q) : m'.IsList o q l where
  segment := h.segment_congr (fun t ht _ => hlink t ht) hprev
  last := hlast.trans h.last
  stop ho := (hlink _ (slotOf_endSlot q l)).trans (h.stop ho)
  nodup := h.nodup

theorem link_head (h : m.IsList o q l) (ho : o ≠ some q) : m.link (.head q) = l.head? := by
  cases l with
  | nil => exact h.stop ho
  | cons d l => exact h.segment.1

theorem link_next {l1 l2 : List D} {d : D} (h : m.IsList o q (l1 ++ d :: l2)) (ho : o ≠ some q) :
    m.link (.next d) = l2.head? := by
  cases l2 with
  | nil =>
    have hstop := h.stop ho
    rwa [endSlot_append] at hstop
  | cons e l2 => exact (segment_append.mp h.segment).2.2.2.1

end IsList

structure Represents (m : Links Q D) (o : Option Q) (C : Q → List D) : Prop where
  isList : ∀ q, m.IsList o q (C q)
  disjoint : ∀ q q', q ≠ q' → (C q).Disjoint (C q')

namespace Represents

variable {m : Links Q D} {C : Q → List D}

theorem weaken (h : m.Represents none C) (q : Q) : m.Represents (some q) C where
  isList q' := { h.isList q' with
    stop := fun _ => (h.isList q').stop nofun }
  disjoint := h.disjoint

theorem link_head (h : m.Represents none C) (q : Q) : m.link (.head q) = (C q).head? :=
  (h.isList q).link_head nofun

theorem contents_eq [Fintype D] (h : m.Represents none C) (q : Q) : m.contents q = C q :=
  walk_eq (h.isList q).segment ((h.isList q).stop nofun) (h.isList q).nodup.length_le_card

end Represents

end Segments

section Specifications

variable {Q D : Type*} [DecidableEq Q] [DecidableEq D]

section

variable {m : Links Q D}

theorem unlink_of_none {q : Q} {d : D} (h : m.link (.next d) = none) : m.unlink q d = { m with
        link := update m.link (m.prev d) none
        last := update m.last q (m.prev d) } := by
  rw [unlink, h]

theorem unlink_of_some {q : Q} {d e : D} (h : m.link (.next d) = some e) : m.unlink q d = { m with
        link := update m.link (m.prev d) (some e)
        prev := update m.prev e (m.prev d) } := by
  rw [unlink, h]

theorem unlink_link (m : Links Q D) (q : Q) (d : D) :
    (m.unlink q d).link = update m.link (m.prev d) (m.link (.next d)) := by
  cases h : m.link (.next d) with
  | none => rw [unlink_of_none h]
  | some e => rw [unlink_of_some h]

theorem unlink_prev {q : Q} {d e : D} (h : m.link (.next d) ≠ some e) :
    (m.unlink q d).prev e = m.prev e := by
  cases hnext : m.link (.next d) with
  | none => rw [unlink_of_none hnext]
  | some e' =>
    rw [hnext] at h
    rw [unlink_of_some hnext]
    exact update_of_ne (fun hcontra => h (congrArg some hcontra.symm)) _ _

theorem unlink_last {q q' : Q} {d : D} (h : q' ≠ q) : (m.unlink q d).last q' = m.last q' := by
  cases hnext : m.link (.next d) with
  | none =>
    rw [unlink_of_none hnext]
    exact update_of_ne h _ _
  | some e => rw [unlink_of_some hnext]

end

namespace IsList

variable {m : Links Q D} {o : Option Q} {q r w : Q} {l : List D} {d : D}

theorem append (h : m.IsList o q l) (hd : d ∉ l) (hnext : o ≠ some q → m.link (.next d) = none) :
    (m.append q d).IsList o q (l ++ [d]) where
  segment := by
    refine segment_append.mpr ⟨h.segment_congr (fun t _ hne => ?_) fun e he => ?_, ?_, ?_, trivial⟩
    · exact update_of_ne (h.last ▸ hne) _ _
    · exact update_of_ne (ne_of_mem_of_not_mem he hd) _ _
    · rw [← h.last]
      exact update_self _ _ _
    · rw [← h.last]
      exact update_self _ _ _
  last := by
    rw [endSlot_append]
    exact update_self _ _ _
  stop ho := by
    rw [endSlot_append]
    have hne := (slotOf_endSlot q l).next_ne hd
    rw [← h.last] at hne
    exact (update_of_ne hne.symm _ _).trans (hnext ho)
  nodup := by
    rw [← concat_eq_append]
    exact h.nodup.concat hd

theorem unlink {l1 l2 : List D} (h : m.IsList o q (l1 ++ d :: l2)) (ho : o ≠ some q) :
    (m.unlink q d).IsList o q (l1 ++ l2) := by
  obtain ⟨hfront, -, hprev, hback⟩ := segment_append.mp h.segment
  obtain ⟨hnodup1, hnodup2, hdisjoint⟩ := nodup_append'.mp h.nodup
  obtain ⟨hd, hnodup2⟩ := nodup_cons.mp hnodup2
  have hdisjoint := (disjoint_cons_right.mp hdisjoint).2
  have hnext := h.link_next ho
  have hlink := unlink_link m q d
  rw [hprev, hnext] at hlink
  have hfront' : (m.unlink q d).Segment (.head q) l1 := by
    refine hfront.congr hnodup1 (fun _ _ hcontra => (nomatch hcontra)) (fun t _ hne => ?_)
      fun e he => unlink_prev fun hcontra => ?_
    · rw [hlink]
      exact update_of_ne hne _ _
    · rw [hnext] at hcontra
      exact hdisjoint he (mem_of_mem_head? hcontra)
  have hlast := h.last
  have hstop := h.stop ho
  rw [endSlot_append] at hlast hstop
  cases l2 with
  | nil =>
    rw [append_nil]
    refine ⟨hfront', ?_, fun _ => ?_, hnodup1⟩
    · rw [unlink_of_none hnext]
      exact (update_self _ _ _).trans hprev
    · rw [hlink]
      exact update_self _ _ _
  | cons e l2 =>
    obtain ⟨-, -, hback⟩ := hback
    obtain ⟨he, hnodup3⟩ := nodup_cons.mp hnodup2
    refine ⟨segment_append.mpr ⟨hfront', ?_, ?_, ?_⟩, ?_, fun _ => ?_,
      nodup_append'.mpr ⟨hnodup1, hnodup2, hdisjoint⟩⟩
    · rw [hlink]
      exact update_self _ _ _
    · rw [unlink_of_some hnext]
      exact (update_self _ _ _).trans hprev
    · refine hback.congr hnodup3 (fun x hx hcontra => ?_) (fun t ht _ => ?_) fun x hx => ?_
      · cases hcontra
        exact he hx
      · rw [hlink]
        exact update_of_ne (ne_endSlot hdisjoint ht) _ _
      refine unlink_prev fun hcontra => ?_
      rw [hnext] at hcontra
      cases hcontra
      exact he hx
    · rw [unlink_of_some hnext, endSlot_append]
      exact hlast
    · rw [hlink, endSlot_append]
      exact (update_of_ne (ne_endSlot hdisjoint (endSlot_eq_or (.next e) l2)) _ _).trans hstop

theorem splice {l' : List D} (h : m.IsList none r l) (hw : m.IsList none w (d :: l')) (hrw : r ≠ w)
    (hdisjoint : l.Disjoint (d :: l')) : (m.splice r w d).IsList (some w) r (l ++ d :: l') := by
  obtain ⟨-, -, hrest⟩ := hw.segment
  obtain ⟨hd, hnodup⟩ := nodup_cons.mp hw.nodup
  have hlink : (m.splice r w d).link = update m.link (endSlot (.head r) l) (some d) := by
    rw [← h.last]
    rfl
  refine ⟨segment_append.mpr ⟨h.segment_congr (fun t _ ht => ?_) fun e he => ?_, ?_, ?_, ?_⟩, ?_,
    fun _ => ?_, nodup_append'.mpr ⟨h.nodup, hw.nodup, hdisjoint⟩⟩
  · rw [hlink]
    exact update_of_ne ht _ _
  · exact update_of_ne (ne_of_mem_of_not_mem he (disjoint_cons_right.mp hdisjoint).1) _ _
  · rw [hlink]
    exact update_self _ _ _
  · exact (update_self _ _ _).trans h.last
  · refine hrest.congr hnodup (fun x hx hcontra => ?_) (fun t ht _ => ?_) fun x hx => ?_
    · cases hcontra
      exact hd hx
    · rw [hlink]
      exact update_of_ne (ne_endSlot hdisjoint ht) _ _
    · exact update_of_ne (ne_of_mem_of_not_mem hx hd) _ _
  · rw [endSlot_append]
    exact (update_of_ne hrw _ _).trans ((update_self _ _ _).trans hw.last)
  · rw [hlink, endSlot_append]
    exact (update_of_ne (ne_endSlot hdisjoint (endSlot_eq_or (.next d) l')) _ _).trans
      (hw.stop nofun)

end IsList

namespace Represents

variable {m : Links Q D} {o : Option Q} {C : Q → List D} {q r w : Q} {d : D}

omit [DecidableEq D] in
theorem disjoint_update {C : Q → List D} (h : ∀ q q', q ≠ q' → (C q).Disjoint (C q')) {q : Q}
    {l : List D} (hl : ∀ q', q' ≠ q → l.Disjoint (C q')) (q1 q2 : Q) (hne : q1 ≠ q2) :
    (update C q l q1).Disjoint (update C q l q2) := by
  by_cases h1 : q1 = q
  · subst h1
    rw [update_self, update_of_ne hne.symm]
    exact hl q2 hne.symm
  rw [update_of_ne h1]
  by_cases h2 : q2 = q
  · subst h2
    rw [update_self]
    exact (hl q1 h1).symm
  · rw [update_of_ne h2]
    exact h q1 q2 hne

theorem append (h : m.Represents o C) (hd : ∀ q, d ∉ C q)
    (hnext : o ≠ some q → m.link (.next d) = none) :
    (m.append q d).Represents o (update C q (C q ++ [d])) where
  isList q' := by
    by_cases hq : q' = q
    · subst hq
      rw [update_self]
      exact (h.isList q').append (hd q') hnext
    rw [update_of_ne hq]
    refine (h.isList q').congr (fun t ht => ?_) (fun e he => ?_) (update_of_ne hq _ _)
    · have hne := ht.ne hq (h.disjoint q' q hq) (slotOf_endSlot q (C q))
      rw [← (h.isList q).last] at hne
      exact update_of_ne hne _ _
    · exact update_of_ne (ne_of_mem_of_not_mem he (hd q')) _ _
  disjoint := disjoint_update h.disjoint fun q' hq => disjoint_append_left.mpr
    ⟨h.disjoint q q' hq.symm, singleton_disjoint.mpr (hd q')⟩

theorem unlink (h : m.Represents o C) (ho : o ≠ some q) {l1 l2 : List D}
    (hq : C q = l1 ++ d :: l2) :
    (m.unlink q d).Represents o (update C q (l1 ++ l2)) := by
  have hlist := h.isList q
  rw [hq] at hlist
  have hsubset : l1 ++ l2 ⊆ C q := by
    rw [hq]
    exact append_subset.mpr ⟨subset_append_left l1 _, fun _ he =>
      mem_append_right l1 (mem_cons_of_mem d he)⟩
  refine ⟨fun q' => ?_, disjoint_update h.disjoint fun q' hne =>
    disjoint_of_subset_left hsubset (h.disjoint q q' hne.symm)⟩
  by_cases hne : q' = q
  · subst hne
    rw [update_self]
    exact hlist.unlink ho
  rw [update_of_ne hne]
  refine (h.isList q').congr (fun t ht => ?_) (fun e he => ?_) (unlink_last hne)
  · obtain ⟨-, -, hprev, -⟩ := segment_append.mp hlist.segment
    have hslot := (slotOf_endSlot q l1).mono fun _ he =>
      hsubset (mem_append_left l2 he)
    rw [unlink_link, hprev]
    exact update_of_ne (ht.ne hne (h.disjoint q' q hne) hslot) _ _
  · refine unlink_prev fun hcontra => ?_
    rw [hlist.link_next ho] at hcontra
    exact h.disjoint q' q hne he (hsubset (mem_append_right l1 (mem_of_mem_head? hcontra)))

omit [DecidableEq D] in
theorem notMem_update (h : m.Represents o C) {l1 l2 : List D} (hq : C q = l1 ++ d :: l2) (q' : Q) :
    d ∉ update C q (l1 ++ l2) q' := by
  by_cases hne : q' = q
  · subst hne
    have hnodup := (h.isList q').nodup
    rw [hq, nodup_middle] at hnodup
    rw [update_self]
    exact (nodup_cons.mp hnodup).1
  rw [update_of_ne hne]
  intro hcontra
  refine h.disjoint q' q hne hcontra ?_
  rw [hq]
  exact mem_append_right l1 mem_cons_self

theorem unlink_next (h : m.Represents o C) {l1 l2 : List D} (hq : C q = l1 ++ d :: l2) :
    (m.unlink r d).link (.next d) = m.link (.next d) := by
  have hlist := h.isList q
  rw [hq] at hlist
  obtain ⟨-, -, hprev, -⟩ := segment_append.mp hlist.segment
  obtain ⟨-, -, hdisjoint⟩ := nodup_append'.mp hlist.nodup
  rw [unlink_link, hprev]
  have hd := (disjoint_cons_right.mp hdisjoint).1
  exact update_of_ne ((slotOf_endSlot q l1).next_ne hd).symm _ _

theorem clear_next (h : m.Represents o C) (hd : ∀ q, d ∉ C q) :
    (m.clear (.next d)).Represents o C where
  isList q := (h.isList q).congr
    (fun _ ht => update_of_ne (ht.next_ne (hd q)) _ _) (fun _ _ => rfl) rfl
  disjoint := h.disjoint

theorem clear_last (h : m.Represents (some q) C) : (m.clear (m.last q)).Represents none C := by
  have hlast := (h.isList q).last
  refine ⟨fun q' => ?_, h.disjoint⟩
  by_cases hq : q' = q
  · subst hq
    refine ⟨(h.isList q').segment_congr (fun t _ hne => ?_) fun _ _ => rfl, hlast, fun _ => ?_,
      (h.isList q').nodup⟩
    · exact update_of_ne (hlast ▸ hne) _ _
    · rw [← hlast]
      exact update_self _ _ _
  have hslot := slotOf_endSlot q (C q)
  rw [← hlast] at hslot
  have hcongr : (m.clear (m.last q)).IsList (some q) q' (C q') := (h.isList q').congr
    (fun _ ht => update_of_ne (ht.ne hq (h.disjoint q' q hq) hslot) _ _)
    (fun _ _ => rfl) rfl
  exact { hcongr with
    stop := fun _ => hcongr.stop fun hcontra => hq (Option.some.inj hcontra).symm }

theorem move (h : m.Represents none C) (hrw : r ≠ w) {l1 l2 : List D} (hw : C w = l1 ++ d :: l2) :
    (((m.unlink w d).append r d).clear (.next d)).Represents none
      (update (update C w (l1 ++ l2)) r (C r ++ [d])) := by
  have happend := ((h.unlink (nofun) hw).weaken r).append (q := r)
    (h.notMem_update hw) fun hcontra => absurd rfl hcontra
  rw [update_of_ne hrw] at happend
  have hlast : ((m.unlink w d).append r d).last r = .next d := update_self _ _ _
  have hclear := happend.clear_last
  rwa [hlast] at hclear

theorem splice (h : m.Represents none C) (hrw : r ≠ w) {l : List D} (hw : C w = d :: l) :
    (m.splice r w d).Represents (some w) (update (update C w []) r (C r ++ d :: l)) := by
  have hlist := h.isList w
  have hdisjoint := h.disjoint r w hrw
  rw [hw] at hlist hdisjoint
  refine ⟨fun q => ?_, disjoint_update (disjoint_update h.disjoint fun q _ =>
    disjoint_nil_left _) fun q hqr => ?_⟩
  · by_cases hqr : q = r
    · subst hqr
      rw [update_self]
      exact (h.isList q).splice hlist hrw hdisjoint
    rw [update_of_ne hqr]
    by_cases hqw : q = w
    · subst hqw
      rw [update_self]
      exact ⟨trivial, update_self _ _ _, fun hcontra => absurd rfl hcontra, nodup_nil⟩
    rw [update_of_ne hqw]
    refine ((h.weaken w).isList q).congr (fun t ht => ?_) (fun e he => ?_) ?_
    · have hne := ht.ne hqr (h.disjoint q r hqr) (slotOf_endSlot r (C r))
      rw [← (h.isList r).last] at hne
      exact update_of_ne hne _ _
    · have hd : d ∉ C q := fun hcontra =>
        h.disjoint q w hqw hcontra (hw ▸ mem_cons_self)
      exact update_of_ne (ne_of_mem_of_not_mem he hd) _ _
    · exact (update_of_ne hqw _ _).trans (update_of_ne hqr _ _)
  · by_cases hqw : q = w
    · subst hqw
      rw [update_self]
      exact disjoint_nil_right _
    · rw [update_of_ne hqw, ← hw]
      exact disjoint_append_left.mpr ⟨h.disjoint r q (Ne.symm hqr), h.disjoint w q (Ne.symm hqw)⟩

end Represents

end Specifications

end Links

end LibSources
