import LibSources.Bitmap

/-!
# Sequences of calls for bitmaps

The functions of `mysys/my_bitmap.c` for a family of bitmaps, of which two operands may be the
same one. A question may change the bits of the last word that do not belong to the bitmap.

## Main results

* `BitmapCall.execAll_spec`: the calls are operations on sets.
-/

namespace LibSources

open Finset Function MyBitmap

inductive BitmapCall (ι : Type)
  | setBit (a : ι) (i : ℕ)
  | clearBit (a : ι) (i : ℕ)
  | flipBit (a : ι) (i : ℕ)
  | setAll (a : ι)
  | clearAll (a : ι)
  | intersect (a b : ι)
  | union (a b : ι)
  | subtract (a b : ι)
  | xor (a b : ι)
  | invert (a : ι)
  | copy (a b : ι)
  | isSet (a : ι) (i : ℕ)
  | isClearAll (a : ι)
  | isSetAll (a : ι)
  | isSubset (a b : ι)
  | isOverlapping (a b : ι)
  | cmp (a b : ι)
  | bitsSet (a : ι)
  | getFirst (a : ι)
  | getFirstSet (a : ι)
  | setNext (a : ι)

inductive BitmapResult
  | void
  | bool (b : Bool)
  | num (n : ℕ)
deriving DecidableEq

namespace BitmapCall

variable {ι : Type} [DecidableEq ι]

section

variable (s : ι → MyBitmap)

def clearAt (a : ι) : ι → MyBitmap := update s a (s a).clearPadding

def setAt (a : ι) : ι → MyBitmap := update s a (s a).setPadding

def exec : BitmapCall ι → (ι → MyBitmap) × BitmapResult
  | setBit a i => (update s a ((s a).setBit i), .void)
  | clearBit a i => (update s a ((s a).clearBit i), .void)
  | flipBit a i => (update s a ((s a).flipBit i), .void)
  | setAll a => (update s a (s a).setAll, .void)
  | clearAll a => (update s a (s a).clearAll, .void)
  | intersect a b =>
    let s := clearAt s b
    (update s a ((s a).intersect (s b)), .void)
  | union a b => (update s a ((s a).union (s b)), .void)
  | subtract a b => (update s a ((s a).subtract (s b)), .void)
  | xor a b => (update s a ((s a).xor (s b)), .void)
  | invert a => (update s a (s a).invert, .void)
  | copy a b => (update s a ((s a).copy (s b)), .void)
  | isSet a i => (s, .bool ((s a).isSet i))
  | isClearAll a => (s, .bool (s a).isClearAll)
  | isSetAll a => (setAt s a, .bool (setAt s a a).isSetAll)
  | isSubset a b =>
    let s := clearAt (clearAt s a) b
    (s, .bool ((s a).isSubset (s b)))
  | isOverlapping a b =>
    let s := clearAt (clearAt s a) b
    (s, .bool ((s a).isOverlapping (s b)))
  | cmp a b =>
    let s := setAt (setAt s a) b
    (s, .bool ((s a).cmp (s b)))
  | bitsSet a => (clearAt s a, .num (clearAt s a a).bitsSet)
  | getFirst a => (setAt s a, .num (setAt s a a).getFirst)
  | getFirstSet a => (clearAt s a, .num (clearAt s a a).getFirstSet)
  | setNext a =>
    let s := setAt s a
    (update s a (s a).setNext.1, .num (s a).setNext.2)

end

def setOp (n : ι → ℕ) (s : ι → Finset ℕ) : BitmapCall ι → (ι → Finset ℕ) × BitmapResult
  | setBit a i => (update s a (insert i (s a)), .void)
  | clearBit a i => (update s a ((s a).erase i), .void)
  | flipBit a i => (update s a (symmDiff (s a) {i}), .void)
  | setAll a => (update s a (range (n a)), .void)
  | clearAll a => (update s a ∅, .void)
  | intersect a b => (update s a (s a ∩ s b), .void)
  | union a b => (update s a (s a ∪ s b), .void)
  | subtract a b => (update s a (s a \ s b), .void)
  | xor a b => (update s a (symmDiff (s a) (s b)), .void)
  | invert a => (update s a (range (n a) \ s a), .void)
  | copy a b => (update s a (s b), .void)
  | isSet a i => (s, .bool (i ∈ s a))
  | isClearAll a => (s, .bool (s a = ∅))
  | isSetAll a => (s, .bool (s a = range (n a)))
  | isSubset a b => (s, .bool (s a ⊆ s b))
  | isOverlapping a b => (s, .bool (s a ∩ s b).Nonempty)
  | cmp a b => (s, .bool (s a = s b))
  | bitsSet a => (s, .num (s a).card)
  | getFirst a => (s, .num (leastBit (range (n a) \ s a)))
  | getFirstSet a => (s, .num (leastBit (s a)))
  | setNext a =>
    let free := range (n a) \ s a
    (if free.Nonempty then update s a (insert (leastBit free) (s a)) else s, .num (leastBit free))

/-- What the functions assert: a bit of the bitmap, and operands of one size. -/
def Enabled (n : ι → ℕ) : BitmapCall ι → Prop
  | setBit a i | clearBit a i | flipBit a i | isSet a i => i < n a
  | union a b | subtract a b | xor a b | copy a b | isSubset a b | isOverlapping a b
  | cmp a b => n a = n b
  | _ => True

structure Represents (s : ι → MyBitmap) (n : ι → ℕ) (t : ι → Finset ℕ) : Prop where
  wellFormed : ∀ a, WellFormed (s a)
  nBits : ∀ a, (s a).nBits = n a
  contents : ∀ a, (s a).contents = t a

section

variable {s : ι → MyBitmap} {n : ι → ℕ} {t : ι → Finset ℕ}

section

variable (h : Represents s n t)
include h

omit [DecidableEq ι] in
theorem Represents.nBits_eq {a b : ι} (hn : n a = n b) : (s a).nBits = (s b).nBits := by
  rw [h.nBits, h.nBits, hn]

variable (a : ι)

theorem Represents.update {m : MyBitmap} {u : Finset ℕ} (hn : m.nBits = (s a).nBits)
    (hmask : m.lastWordMask = (s a).lastWordMask) (hlast : m.lastWordPtr = (s a).lastWordPtr)
    (hm : m.contents = u) : Represents (update s a m) n (update t a u) := by
  have hold := h.wellFormed a
  refine ⟨fun b => ?_, fun b => ?_, fun b => ?_⟩
  · by_cases hb : b = a
    · rw [hb, update_self]
      exact ⟨hn ▸ hold.pos, hn ▸ hold.small, by rw [hmask, hn, hold.mask],
        by rw [hlast, hn, hold.last]⟩
    · rw [update_of_ne hb]
      exact h.wellFormed b
  · by_cases hb : b = a
    · rw [hb, update_self, hn, h.nBits a]
    · rw [update_of_ne hb, h.nBits b]
  · by_cases hb : b = a
    · rw [hb, update_self, update_self, hm]
    · rw [update_of_ne hb, update_of_ne hb, h.contents b]

theorem Represents.same {m : MyBitmap} (hn : m.nBits = (s a).nBits)
    (hmask : m.lastWordMask = (s a).lastWordMask) (hlast : m.lastWordPtr = (s a).lastWordPtr)
    (hm : m.contents = (s a).contents) : Represents (Function.update s a m) n t := by
  have hupdate := h.update a hn hmask hlast (hm.trans (h.contents a))
  rwa [update_eq_self] at hupdate

theorem Represents.clearAt : Represents (clearAt s a) n t :=
  h.same a rfl rfl rfl (contents_clearPadding (h.wellFormed a))

theorem Represents.setAt : Represents (setAt s a) n t :=
  h.same a rfl rfl rfl (contents_setPadding (h.wellFormed a))

theorem cleared_clearAt : (clearAt s a a).Cleared := by
  rw [BitmapCall.clearAt, update_self]
  exact cleared_clearPadding (h.wellFormed a)

theorem filled_setAt : (setAt s a a).Filled := by
  rw [BitmapCall.setAt, update_self]
  exact filled_setPadding (h.wellFormed a)

theorem cleared_clearAt_other {a : ι} (hc : (s a).Cleared) (b : ι) :
    (BitmapCall.clearAt s b a).Cleared := by
  by_cases hab : a = b
  · rw [hab]
    exact cleared_clearAt h b
  · rw [BitmapCall.clearAt, update_of_ne hab]
    exact hc

theorem filled_setAt_other {a : ι} (hf : (s a).Filled) (b : ι) :
    (BitmapCall.setAt s b a).Filled := by
  by_cases hab : a = b
  · rw [hab]
    exact filled_setAt h b
  · rw [BitmapCall.setAt, update_of_ne hab]
    exact hf

theorem setNext_spec (hf : (s a).Filled) :
    Represents (update s a (s a).setNext.1) n (setOp n t (setNext a)).1 ∧
      (s a).setNext.2 = leastBit (range (n a) \ t a) := by
  have hwf := h.wellFormed a
  have hfirst := getFirst_spec hwf hf
  rw [h.nBits a, h.contents a] at hfirst
  refine ⟨?_, hfirst⟩
  rw [setOp, MyBitmap.setNext, hfirst]
  by_cases hfree : (range (n a) \ t a).Nonempty
  · have hmem : leastBit (range (n a) \ t a) ∈ range (n a) \ t a := by
      rw [leastBit, dif_pos hfree]
      exact min'_mem _ _
    have hlt : leastBit (range (n a) \ t a) < n a := mem_range.mp (mem_sdiff.mp hmem).1
    have hsmall := hwf.small
    rw [h.nBits a] at hsmall
    rw [if_pos hfree, if_pos (by rw [myBitNone]; omega)]
    exact h.update a rfl rfl rfl (by rw [contents_setBit (by rw [h.nBits a]; exact hlt),
      h.contents a])
  · rw [if_neg hfree, leastBit, dif_neg hfree, if_neg (by simp), update_eq_self]
    exact h

theorem exec_spec (c : BitmapCall ι) (henabled : Enabled n c) :
    Represents (exec s c).1 n (setOp n t c).1 ∧ (exec s c).2 = (setOp n t c).2 := by
  have hwf := h.wellFormed
  cases c with
  | setBit a i =>
    have hi : i < (s a).nBits := by rw [h.nBits]; exact henabled
    exact ⟨h.update a rfl rfl rfl (by rw [contents_setBit hi, h.contents]), rfl⟩
  | clearBit a i => exact ⟨h.update a rfl rfl rfl (by rw [contents_clearBit, h.contents]), rfl⟩
  | flipBit a i =>
    have hi : i < (s a).nBits := by rw [h.nBits]; exact henabled
    exact ⟨h.update a rfl rfl rfl (by rw [contents_flipBit hi, h.contents]), rfl⟩
  | setAll a => exact ⟨h.update a rfl rfl rfl (by rw [contents_setAll (hwf a), h.nBits]), rfl⟩
  | clearAll a => exact ⟨h.update a rfl rfl rfl (contents_clearAll (hwf a)), rfl⟩
  | intersect a b =>
    have h' := h.clearAt b
    refine ⟨h'.update a rfl rfl rfl ?_, rfl⟩
    rw [contents_intersect (h'.wellFormed a) (h'.wellFormed b) (cleared_clearAt h b),
      h'.contents, h'.contents]
  | union a b =>
    have hn := h.nBits_eq henabled
    exact ⟨h.update a rfl rfl rfl (by rw [contents_union (hwf a) hn, h.contents, h.contents]), rfl⟩
  | subtract a b =>
    have hn := h.nBits_eq henabled
    exact ⟨h.update a rfl rfl rfl (by rw [contents_subtract (hwf a) hn, h.contents, h.contents]),
      rfl⟩
  | xor a b =>
    have hn := h.nBits_eq henabled
    exact ⟨h.update a rfl rfl rfl (by rw [contents_xor (hwf a) hn, h.contents, h.contents]), rfl⟩
  | invert a =>
    exact ⟨h.update a rfl rfl rfl (by rw [contents_invert (hwf a), h.nBits, h.contents]), rfl⟩
  | copy a b =>
    have hn := h.nBits_eq henabled
    exact ⟨h.update a rfl rfl rfl (by rw [contents_copy (hwf a) hn, h.contents]), rfl⟩
  | isSet a i =>
    refine ⟨h, congrArg BitmapResult.bool ?_⟩
    have hi : i < (s a).nBits := by rw [h.nBits]; exact henabled
    rw [isSet_eq, Bool.eq_iff_iff, decide_eq_true_iff, ← h.contents, mem_contents]
    exact ⟨fun hbit => ⟨hi, hbit⟩, fun hmem => hmem.2⟩
  | isClearAll a =>
    exact ⟨h, congrArg BitmapResult.bool (by rw [isClearAll_spec (hwf a), h.contents])⟩
  | isSetAll a =>
    have h' := h.setAt a
    refine ⟨h', congrArg BitmapResult.bool ?_⟩
    rw [isSetAll_spec (h'.wellFormed a) (filled_setAt h a), h'.contents, h'.nBits]
  | isSubset a b =>
    have h1 := h.clearAt a
    have h2 := h1.clearAt b
    refine ⟨h2, congrArg BitmapResult.bool ?_⟩
    rw [isSubset_spec (h2.wellFormed a) (h2.wellFormed b) (h2.nBits_eq henabled)
      (cleared_clearAt_other h1 (cleared_clearAt h a) b) (cleared_clearAt h1 b), h2.contents,
      h2.contents]
  | isOverlapping a b =>
    have h1 := h.clearAt a
    have h2 := h1.clearAt b
    refine ⟨h2, congrArg BitmapResult.bool ?_⟩
    rw [isOverlapping_spec (h2.wellFormed a) (h2.wellFormed b) (h2.nBits_eq henabled)
      (cleared_clearAt_other h1 (cleared_clearAt h a) b) (cleared_clearAt h1 b)]
    congr 2
    rw [h2.contents, h2.contents]
  | cmp a b =>
    have h1 := h.setAt a
    have h2 := h1.setAt b
    refine ⟨h2, congrArg BitmapResult.bool ?_⟩
    rw [cmp_spec (h2.wellFormed a) (h2.wellFormed b) (by rw [h2.nBits, h2.nBits]; exact henabled)
      (filled_setAt_other h1 (filled_setAt h a) b) (filled_setAt h1 b), h2.contents, h2.contents]
  | bitsSet a =>
    have h' := h.clearAt a
    refine ⟨h', congrArg BitmapResult.num ?_⟩
    rw [bitsSet_spec (h'.wellFormed a) (cleared_clearAt h a), h'.contents]
  | getFirst a =>
    have h' := h.setAt a
    refine ⟨h', congrArg BitmapResult.num ?_⟩
    rw [getFirst_spec (h'.wellFormed a) (filled_setAt h a), h'.contents, h'.nBits]
  | getFirstSet a =>
    have h' := h.clearAt a
    refine ⟨h', congrArg BitmapResult.num ?_⟩
    rw [getFirstSet_spec (h'.wellFormed a) (cleared_clearAt h a), h'.contents]
  | setNext a =>
    obtain ⟨hsets, hbit⟩ := setNext_spec (h.setAt a) a (filled_setAt h a)
    exact ⟨hsets, congrArg BitmapResult.num hbit⟩

end

end

def execAll (s : ι → MyBitmap) : List (BitmapCall ι) → (ι → MyBitmap) × List BitmapResult
  | [] => (s, [])
  | c :: cs => ((execAll (exec s c).1 cs).1, (exec s c).2 :: (execAll (exec s c).1 cs).2)

def setOpAll (n : ι → ℕ) (t : ι → Finset ℕ) :
    List (BitmapCall ι) → (ι → Finset ℕ) × List BitmapResult
  | [] => (t, [])
  | c :: cs => ((setOpAll n (setOp n t c).1 cs).1,
      (setOp n t c).2 :: (setOpAll n (setOp n t c).1 cs).2)

/-- Any sequence of calls returns what the operations on sets return, whatever the last bits
contain, when the number of words is a `uint`. -/
theorem execAll_spec (s : ι → MyBitmap) (hwf : ∀ a, WellFormed (s a)) (cs : List (BitmapCall ι))
    (henabled : ∀ c ∈ cs, Enabled (fun a => (s a).nBits) c) :
    (execAll s cs).2 = (setOpAll (fun a => (s a).nBits) (fun a => (s a).contents) cs).2 ∧
      ∀ a, ((execAll s cs).1 a).contents =
        (setOpAll (fun a => (s a).nBits) (fun a => (s a).contents) cs).1 a := by
  have hrun : ∀ (cs : List (BitmapCall ι)) (s : ι → MyBitmap) (n : ι → ℕ) (t : ι → Finset ℕ),
      Represents s n t → (∀ c ∈ cs, Enabled n c) →
        Represents (execAll s cs).1 n (setOpAll n t cs).1 ∧
          (execAll s cs).2 = (setOpAll n t cs).2 := by
    intro cs
    induction cs with
    | nil => exact fun s n t h _ => ⟨h, rfl⟩
    | cons c cs ih =>
      intro s n t h hall
      obtain ⟨hstep, hresult⟩ := exec_spec h c (hall c (List.mem_cons_self ..))
      obtain ⟨hrest, hresults⟩ := ih _ n _ hstep fun c hc => hall c (List.mem_cons_of_mem _ hc)
      exact ⟨hrest, by rw [execAll, setOpAll, hresult, hresults]⟩
  obtain ⟨hsets, hresults⟩ := hrun cs s _ _ ⟨hwf, fun _ => rfl, fun _ => rfl⟩ henabled
  exact ⟨hresults, hsets.contents⟩

theorem execAll_spec_invert :
    (execAll (fun _ : Unit => bitmapInit (fun _ => 0) 33) [.invert (), .bitsSet ()]).2 =
      (setOpAll (fun _ : Unit => 33) (fun _ => (bitmapInit (fun _ => 0) 33).contents)
        [.invert (), .bitsSet ()]).2 :=
  (execAll_spec (fun _ : Unit => bitmapInit (fun _ => 0) 33)
    (fun _ => wellFormed_bitmapInit _ (by omega) (by omega)) [.invert (), .bitsSet ()]
    (by simp [Enabled])).1

/-- A bitmap of `2 ^ 32 - 31` bits has no words as a `uint`: no bit is set by `bitmap_set_all`. -/
theorem execAll_no_words :
    (execAll (fun _ : Unit => bitmapInit (fun _ => 0) (2 ^ 32 - 31)) [.setAll (), .isSet () 0]).2 =
      [.void, .bool false] ∧
    (setOpAll (fun _ : Unit => 2 ^ 32 - 31)
      (fun _ => (bitmapInit (fun _ => 0) (2 ^ 32 - 31)).contents) [.setAll (), .isSet () 0]).2 =
        [.void, .bool true] :=
  ⟨by decide, by simp [setOpAll, setOp]⟩

end BitmapCall

end LibSources
