import LibSources.TreeRun

/-!
# The Tree as a Counted Ordered Multiset

A key is in the tree when it has been inserted and not deleted since, and its element counts these
insertions, up to the largest number of 31 bits. Keys that compare equal are one key.

## Main results

* `Tree.run_counted`
-/

namespace LibSources

open List LibSources.RBTree

variable {α : Type}

def treeSearchFrom (compare : α → α → ℤ) (tree : Tree α) (key : α) :
    ℕ → ℕ → Option (Option ℕ)
  | 0, _ => none
  | fuel + 1, element =>
    if element = nullElement then some none
    else
      let cmp := compare (tree.heap element).key key
      if cmp = 0 then some (some element)
      else if cmp < 0 then treeSearchFrom compare tree key fuel (tree.heap element).right
      else treeSearchFrom compare tree key fuel (tree.heap element).left

section

variable (compare : α → α → ℤ) (tree : Tree α) (key : α)

def treeSearch : Option (Option ℕ) :=
  treeSearchFrom compare tree key (tree.elementsInTree + 1) tree.root

theorem treeSearchFrom_eq (fuel element : ℕ) (parents : List Link) :
    treeSearchFrom compare tree key fuel element =
      (treeDescend compare tree key fuel element parents).map fun found =>
        if found.1 = nullElement then none else some found.1 := by
  induction fuel generalizing element parents with
  | zero => rfl
  | succ fuel ih =>
    rw [treeSearchFrom, treeDescend]
    by_cases hnull : element = nullElement
    · rw [if_pos hnull, if_pos hnull, Option.map_some, if_pos hnull]
    rw [if_neg hnull, if_neg hnull]
    by_cases hzero : compare (tree.heap element).key key = 0
    · rw [if_pos hzero, if_pos hzero, Option.map_some, if_neg hnull]
    rw [if_neg hzero, if_neg hzero]
    by_cases hlt : compare (tree.heap element).key key < 0
    · rw [if_pos hlt, if_pos hlt]
      exact ih _ _
    · rw [if_neg hlt, if_neg hlt]
      exact ih _ _

end

section

variable {compare : α → α → ℤ} (hc : TotalOrderComparison compare)

include hc

theorem TreeInvariant.treeSearch_eq {tree : Tree α} {t : RBTree (Cell α)}
    (h : TreeInvariant compare tree t) (key : α) :
    (treeSearch compare tree key = some none ∧ ∀ x ∈ t.toList, compare x.key key ≠ 0) ∨
      ∃ x ∈ t.toList, compare x.key key = 0 ∧ treeSearch compare tree key = some (some x.addr) ∧
        (tree.heap x.addr).key = x.key ∧ (tree.heap x.addr).count = x.count := by
  obtain ⟨ctx, t', hdescend, rfl, hctx, hfound⟩ := h.treeDescend hc key
  rw [treeSearch, treeSearchFrom_eq compare tree key _ _ [.root], hdescend, Option.map_some]
  cases t' with
  | nil =>
    refine .inl ⟨congrArg some (if_pos rfl), fun x hx => ?_⟩
    rw [toList_plug, toList, append_nil, mem_append] at hx
    rcases hx with hx | hx
    · exact (hctx.1 x hx).ne
    · exact (hctx.2 x hx).ne'
  | node c l x r =>
    obtain ⟨hheap, -, -⟩ := h.represents.holds.of_plug
    refine .inr ⟨x, ?_, hfound c l x r rfl, congrArg some (if_neg h.represents.addr_ne_null),
      by rw [hheap], by rw [hheap]⟩
    rw [toList_plug, toList]
    exact mem_append_left _ (mem_append_right _ (mem_append_right _ mem_cons_self))

end

/-! ### Counted keys -/

def maxCount : ℕ := 2 ^ 31 - 1

section

variable (compare : α → α → ℤ) (withDelete : Bool)

/-- The number of insertions of each key since it last came into the tree, after one more
call. A call of `tree_delete` is refused when the tree is not made for deletions. -/
def TreeCall.tally (n : α → ℕ) (call : TreeCall α) : α → ℕ := fun key =>
  match call with
  | .insert key' _ => if compare key key' = 0 then n key + 1 else n key
  | .delete key' _ => if withDelete = true ∧ compare key key' = 0 then 0 else n key

/-- The number of insertions of each key since it last came into the tree. -/
def insertions (calls : List (TreeCall α)) : α → ℕ :=
  calls.foldl (TreeCall.tally compare withDelete) fun _ => 0

end

structure Counted (compare : α → α → ℤ) (n : α → ℕ) (cells : List (Cell α)) : Prop where
  count : ∀ x ∈ cells, 0 < n x.key ∧ x.count = min (n x.key) maxCount
  present : ∀ key, 0 < n key → ∃ x ∈ cells, compare x.key key = 0
  respects : ∀ a b, compare a b = 0 → n a = n b

theorem countUp_min (n : ℕ) : countUp (min n maxCount) = min (n + 1) maxCount := by
  have hmax : maxCount + 1 = 2 ^ 31 := rfl
  rw [countUp, ← hmax]
  by_cases hlt : n < maxCount
  · rw [min_eq_left hlt.le, min_eq_left hlt, Nat.mod_eq_of_lt (by omega),
      if_neg (Nat.succ_ne_zero n)]
  · rw [min_eq_right (not_lt.mp hlt), Nat.mod_self, if_pos rfl, min_eq_right (by omega)]
    rfl

section

variable {compare : α → α → ℤ} (hc : TotalOrderComparison compare)

include hc

theorem TotalOrderComparison.eq_congr {a b : α} (hab : compare a b = 0) (key : α) :
    compare a key = 0 ↔ compare b key = 0 := by
  have hsymm := hc.eq_symm hab
  have hself : ∀ {a b key : α}, compare a b = 0 → compare b a = 0 → compare a key = 0 →
      compare b key = 0 := by
    intro a b key _ hba hkey
    have hle : compare b key ≤ 0 := hc.trans b a key hba.le hkey.le
    have hge : ¬ compare b key < 0 := by
      intro hlt
      have hkb := (hc.swap b key).mp hlt
      have hle' : compare key b ≤ 0 := hc.trans key a b (hc.eq_symm hkey).le (by omega)
      omega
    omega
  exact ⟨hself hab hsymm, hself hsymm hab⟩

theorem TreeCall.tally_respects {n : α → ℕ} (h : ∀ a b, compare a b = 0 → n a = n b)
    (withDelete : Bool) (call : TreeCall α) (a b : α) (hab : compare a b = 0) :
    TreeCall.tally compare withDelete n call a = TreeCall.tally compare withDelete n call b := by
  cases call with
  | insert key _ =>
    rw [tally, tally, h a b hab]
    exact if_congr (hc.eq_congr hab key) rfl rfl
  | delete key _ =>
    rw [tally, tally, h a b hab]
    exact if_congr (and_congr_right' (hc.eq_congr hab key)) rfl rfl

section

variable {n : α → ℕ} {cells cells' : List (Cell α)}

theorem Counted.inserted (h : Counted compare n cells) {key : α}
    (hins : Inserted compare key cells cells') (withDelete : Bool) (keySize : ℕ) :
    Counted compare (TreeCall.tally compare withDelete n (.insert key keySize)) cells' := by
  obtain ⟨xs, ys, hxs, hys, hcells⟩ := hins
  have hself : compare key key = 0 := by
    have h1 : ¬ compare key key < 0 := fun hlt => by
      have := (hc.swap key key).mp hlt
      omega
    have h2 : ¬ 0 < compare key key := fun hlt => by
      have := (hc.swap key key).mpr hlt
      omega
    omega
  have hother : ∀ x ∈ cells, compare x.key key ≠ 0 →
      0 < TreeCall.tally compare withDelete n (.insert key keySize) x.key ∧
        x.count = min (TreeCall.tally compare withDelete n (.insert key keySize) x.key)
          maxCount := by
    intro x hx hne
    rw [TreeCall.tally, if_neg hne]
    exact h.count x hx
  refine ⟨?_, ?_, TreeCall.tally_respects hc h.respects withDelete _⟩
  · rcases hcells with ⟨rfl, a, rfl⟩ | ⟨x, hx, rfl, rfl⟩
    · -- the key was not in the tree
      have hzero : n key = 0 := by
        by_contra hpos
        obtain ⟨x, hx, hkey⟩ := h.present key (pos_of_ne_zero hpos)
        rcases mem_append.mp hx with hx | hx
        · exact (hxs x hx).ne hkey
        · exact (hys x hx).ne' hkey
      intro y hy
      rcases mem_append.mp hy with hy | hy
      · exact hother y (mem_append_left _ hy) (hxs y hy).ne
      rcases mem_cons.mp hy with rfl | hy
      · dsimp only
        rw [TreeCall.tally, if_pos hself, hzero]
        decide
      · exact hother y (mem_append_right _ hy) (hys y hy).ne'
    · intro y hy
      rcases mem_append.mp hy with hy | hy
      · exact hother y (mem_append_left _ hy) (hxs y hy).ne
      rcases mem_cons.mp hy with rfl | hy
      · have hcount := (h.count x (mem_append_right _ mem_cons_self)).2
        rw [TreeCall.tally, if_pos hx, hcount, countUp_min]
        exact ⟨Nat.succ_pos _, rfl⟩
      · exact hother y (mem_append_right _ (mem_cons_of_mem x hy)) (hys y hy).ne'
  · intro key' hpos
    rw [TreeCall.tally] at hpos
    by_cases hkey' : compare key' key = 0
    · rcases hcells with ⟨-, a, rfl⟩ | ⟨x, hx, -, rfl⟩
      · exact ⟨_, mem_append_right _ mem_cons_self, hc.eq_symm hkey'⟩
      · refine ⟨_, mem_append_right _ mem_cons_self, ?_⟩
        exact hc.eq_symm ((hc.eq_congr hkey' x.key).mpr (hc.eq_symm hx))
    rw [if_neg hkey'] at hpos
    obtain ⟨x, hx, hcmp⟩ := h.present key' hpos
    rcases hcells with ⟨rfl, a, rfl⟩ | ⟨x', hx', rfl, rfl⟩
    · refine ⟨x, ?_, hcmp⟩
      rcases mem_append.mp hx with hx | hx
      · exact mem_append_left _ hx
      · exact mem_append_right _ (mem_cons_of_mem _ hx)
    rcases mem_append.mp hx with hx | hx
    · exact ⟨x, mem_append_left _ hx, hcmp⟩
    rcases mem_cons.mp hx with rfl | hx
    · exact ⟨_, mem_append_right _ mem_cons_self, hcmp⟩
    · exact ⟨x, mem_append_right _ (mem_cons_of_mem _ hx), hcmp⟩

theorem Counted.deleted (h : Counted compare n cells) {withDelete : Bool} {key : α}
    (hdel : Deleted compare withDelete key cells cells') (keySize : ℕ) :
    Counted compare (TreeCall.tally compare withDelete n (.delete key keySize)) cells' := by
  rcases hdel with ⟨rfl, rfl⟩ | ⟨rfl, xs, ys, hxs, hys, rfl, hcells⟩
  · have htally : TreeCall.tally compare false n (.delete key keySize) = n := by
      funext key'
      rw [TreeCall.tally, if_neg fun hfalse => absurd hfalse.1 Bool.false_ne_true]
    rw [htally]
    exact h
  have hne : ∀ x ∈ xs ++ ys, compare x.key key ≠ 0 := by
    intro x hx
    rcases mem_append.mp hx with hx | hx
    · exact (hxs x hx).ne
    · exact (hys x hx).ne'
  have hmem : ∀ x ∈ xs ++ ys, x ∈ cells := by
    rcases hcells with rfl | ⟨x, -, rfl⟩
    · exact fun x hx => hx
    intro y hy
    rcases mem_append.mp hy with hy | hy
    · exact mem_append_left _ hy
    · exact mem_append_right _ (mem_cons_of_mem x hy)
  refine ⟨fun x hx => ?_, fun key' hpos => ?_, TreeCall.tally_respects hc h.respects true _⟩
  · rw [TreeCall.tally, if_neg fun hcmp => hne x hx hcmp.2]
    exact h.count x (hmem x hx)
  rw [TreeCall.tally] at hpos
  have hkey' : ¬ compare key' key = 0 := by
    intro hzero
    rw [if_pos ⟨rfl, hzero⟩] at hpos
    exact lt_irrefl 0 hpos
  rw [if_neg fun hcmp => hkey' hcmp.2] at hpos
  obtain ⟨x, hx, hcmp⟩ := h.present key' hpos
  rcases hcells with rfl | ⟨x', hx', rfl⟩
  · exact ⟨x, hx, hcmp⟩
  rcases mem_append.mp hx with hx | hx
  · exact ⟨x, mem_append_left _ hx, hcmp⟩
  rcases mem_cons.mp hx with rfl | hx
  · exact absurd ((hc.eq_congr hcmp key).mp hx') hkey'
  · exact ⟨x, mem_append_right _ hx, hcmp⟩

end

/-! ### Runs -/

section

variable {tree : Tree α} {t : RBTree (Cell α)} {n : α → ℕ} {withDelete : Bool}
  (h : TreeInvariant compare tree t) (hn : Counted compare n t.toList)
  (hflags : tree.flags = (0, withDelete, false))
include h hn hflags

theorem TreeInvariant.call_counted (c : TreeCall α) :
    ∃ tree' t', tree.call compare c = some tree' ∧ TreeInvariant compare tree' t' ∧
      tree'.flags = tree.flags ∧
      Counted compare (TreeCall.tally compare withDelete n c) t'.toList := by
  simp only [Tree.flags, Prod.mk.injEq] at hflags
  obtain ⟨hlimit, hdelete, hdups⟩ := hflags
  cases c with
  | insert key keySize =>
    obtain ⟨element, tree', t', hinsert, h', hflags', hins⟩ := h.treeInsert hc key keySize
    exact ⟨tree', t', by rw [Tree.call, hinsert]; rfl, h', hflags',
      hn.inserted hc (hins hlimit hdups) withDelete keySize⟩
  | delete key keySize =>
    obtain ⟨error, tree', t', hdel, h', hflags', hcells⟩ := h.treeDelete hc key keySize
    rw [hdelete] at hcells
    exact ⟨tree', t', by rw [Tree.call, hdel]; rfl, h', hflags', hn.deleted hc hcells keySize⟩

theorem TreeInvariant.counted_run (calls : List (TreeCall α)) :
    ∃ tree' t', tree.run compare calls = some tree' ∧ TreeInvariant compare tree' t' ∧
      Counted compare (calls.foldl (TreeCall.tally compare withDelete) n) t'.toList := by
  induction calls generalizing tree t n with
  | nil => exact ⟨tree, t, rfl, h, hn⟩
  | cons c calls ih =>
    obtain ⟨tree1, t1, hcall, h1, hflags1, hn1⟩ := h.call_counted hc hn hflags c
    rw [Tree.run, hcall, Option.bind_some]
    exact ih h1 hn1 (hflags1.trans hflags)

end

end

def collectElement (key : α) (count : ℕ) (elements : List (α × ℕ)) : ℤ × List (α × ℕ) :=
  (0, elements ++ [(key, count)])

theorem visitAll_collectElement (xs : List (Cell α)) (elements : List (α × ℕ)) :
    visitAll collectElement xs elements = (0, elements ++ xs.map fun x => (x.key, x.count)) := by
  induction xs generalizing elements with
  | nil => rw [visitAll, map_nil, append_nil]
  | cons x xs ih =>
    rw [visitAll, collectElement, if_neg (not_not.mpr rfl), ih, map_cons]
    exact congrArg (Prod.mk 0) (append_assoc elements [(x.key, x.count)] _)

/-- After any run without a memory limit and with duplicates allowed: `tree_search` finds a key
iff it has been inserted and not deleted since, in an element whose count is the number
of these insertions, up to `2 ^ 31 - 1`. `tree_walk` visits the elements with these counts, each
once, in ascending or in descending order. -/
theorem Tree.run_counted [Inhabited α] {compare : α → α → ℤ} (hc : TotalOrderComparison compare)
    (size : ℤ) (withDelete freeElement : Bool) (calls : List (TreeCall α)) :
    ∃ tree, (Tree.start 0 size withDelete freeElement false).run compare calls = some tree ∧
      (∀ key, ∃ found, treeSearch compare tree key = some found ∧
        (found.isSome = true ↔ 0 < insertions compare withDelete calls key) ∧
        ∀ element ∈ found, compare (tree.heap element).key key = 0 ∧ (tree.heap element).count =
            min (insertions compare withDelete calls key) (2 ^ 31 - 1)) ∧
      ∃ elements, treeWalk tree collectElement [] .left = some (0, elements) ∧
        treeWalk tree collectElement [] .right = some (0, elements.reverse) ∧
        (elements.Pairwise fun x y => compare x.1 y.1 < 0) ∧
        (∀ x ∈ elements, 0 < insertions compare withDelete calls x.1 ∧
          x.2 = min (insertions compare withDelete calls x.1) (2 ^ 31 - 1)) ∧
        ∀ key, 0 < insertions compare withDelete calls key →
          ∃ x ∈ elements, compare x.1 key = 0 := by
  have hempty : Counted compare (fun _ => 0) (RBTree.nil : RBTree (Cell α)).toList :=
    ⟨fun _ hx => absurd hx not_mem_nil, fun _ hpos => absurd hpos (lt_irrefl 0), fun _ _ _ => rfl⟩
  obtain ⟨tree, t, hrun, h, hn⟩ :=
    (TreeInvariant.start compare 0 size withDelete freeElement false).counted_run hc hempty rfl
      calls
  refine ⟨tree, hrun, fun key => ?_, t.toList.map fun x => (x.key, x.count), ?_, ?_, ?_,
    fun x hx => ?_, fun key hpos => ?_⟩
  · rcases h.treeSearch_eq hc key with ⟨hsearch, hno⟩ | ⟨x, hx, hcmp, hsearch, hkey, hcount⟩
    · refine ⟨none, hsearch, iff_of_false Bool.false_ne_true fun hpos => ?_, nofun⟩
      obtain ⟨x, hx, hcmp⟩ := hn.present key hpos
      exact hno x hx hcmp
    have heq : insertions compare withDelete calls x.key =
        insertions compare withDelete calls key := hn.respects _ _ hcmp
    obtain ⟨hpos, hmin⟩ := hn.count x hx
    refine ⟨some x.addr, hsearch, iff_of_true rfl (heq ▸ hpos), fun element helement => ?_⟩
    obtain rfl := Option.some.inj helement
    rw [hkey, hcount, ← heq]
    exact ⟨hcmp, hmin⟩
  · rw [treeWalk_eq_visitAll h, visitAll_collectElement, nil_append]
    rfl
  · rw [treeWalk_eq_visitAll h, visitAll_collectElement, nil_append, ← map_reverse]
    rfl
  · exact pairwise_map.mpr h.increasing
  · obtain ⟨y, hy, rfl⟩ := List.mem_map.mp hx
    exact hn.count y hy
  · obtain ⟨x, hx, hcmp⟩ := hn.present key hpos
    exact ⟨_, List.mem_map_of_mem hx, hcmp⟩

theorem Tree.run_counted_sub :
    ∃ tree, (Tree.start 0 4 true false false).run (fun a b : ℤ => a - b)
        [.insert 2 0, .insert 1 0, .insert 2 0, .delete 1 0] = some tree ∧
      (∀ key, ∃ found, treeSearch (fun a b : ℤ => a - b) tree key = some found ∧
        (found.isSome = true ↔ 0 < insertions (fun a b : ℤ => a - b) true
          [.insert 2 0, .insert 1 0, .insert 2 0, .delete 1 0] key) ∧
        ∀ element ∈ found, (tree.heap element).key - key = 0 ∧
          (tree.heap element).count = min (insertions (fun a b : ℤ => a - b) true
            [.insert 2 0, .insert 1 0, .insert 2 0, .delete 1 0] key) (2 ^ 31 - 1)) ∧
      ∃ elements, treeWalk tree collectElement [] .left = some (0, elements) ∧
        treeWalk tree collectElement [] .right = some (0, elements.reverse) ∧
        (elements.Pairwise fun x y => x.1 - y.1 < 0) ∧
        (∀ x ∈ elements, 0 < insertions (fun a b : ℤ => a - b) true
            [.insert 2 0, .insert 1 0, .insert 2 0, .delete 1 0] x.1 ∧
          x.2 = min (insertions (fun a b : ℤ => a - b) true
            [.insert 2 0, .insert 1 0, .insert 2 0, .delete 1 0] x.1) (2 ^ 31 - 1)) ∧
        ∀ key, 0 < insertions (fun a b : ℤ => a - b) true
            [.insert 2 0, .insert 1 0, .insert 2 0, .delete 1 0] key →
          ∃ x ∈ elements, x.1 - key = 0 :=
  Tree.run_counted ⟨fun a b => by omega, fun a b c => by omega⟩ 4 true false _

end LibSources
