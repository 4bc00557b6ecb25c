import LibSources.TreeShape

/-!
# Insertion and Deletion

`TreeInvariant tree t` is what `tree_insert` and `tree_delete` keep: the links form the tree `t`,
which is balanced and in the order of the comparison function, and `elements_in_tree` counts its
elements.
-/

namespace LibSources

open List LibSources.RBTree

variable {α : Type}

/-- The comparison function is that of a total order: its sign changes when its arguments are
exchanged, and it is transitive. -/
structure TotalOrderComparison (compare : α → α → ℤ) : Prop where
  swap : ∀ a b, compare a b < 0 ↔ 0 < compare b a
  trans : ∀ a b c, compare a b ≤ 0 → compare b c ≤ 0 → compare a c ≤ 0

theorem totalOrderComparison_sub : TotalOrderComparison (fun a b : ℤ => a - b) :=
  ⟨fun a b => by omega, fun a b c => by omega⟩

section

variable {compare : α → α → ℤ} (h : TotalOrderComparison compare)
include h

variable {a b c : α}

theorem TotalOrderComparison.lt_trans (hab : compare a b < 0) (hbc : compare b c < 0) :
    compare a c < 0 := by
  by_contra hac
  have hca : compare c a ≤ 0 := not_lt.mp fun hlt => hac ((h.swap a c).mpr hlt)
  have hba : compare b a ≤ 0 := h.trans b c a hbc.le hca
  exact hba.not_gt ((h.swap a b).mp hab)

theorem TotalOrderComparison.lt_of_lt_of_eq (hab : compare a b < 0)
    (hbc : compare b c = 0) : compare a c < 0 := by
  by_contra hac
  have hca : compare c a ≤ 0 := not_lt.mp fun hlt => hac ((h.swap a c).mpr hlt)
  have hba : compare b a ≤ 0 := h.trans b c a hbc.le hca
  exact hba.not_gt ((h.swap a b).mp hab)

theorem TotalOrderComparison.eq_symm {a b : α} (hab : compare a b = 0) : compare b a = 0 := by
  have h1 : ¬ compare b a < 0 := fun hlt => by
    have := (h.swap b a).mp hlt
    omega
  have h2 : ¬ 0 < compare b a := fun hlt => by
    have := (h.swap a b).mpr hlt
    omega
  omega

theorem TotalOrderComparison.gt_of_lt_of_eq (hba : compare b a < 0)
    (hbc : compare b c = 0) : 0 < compare a c := by
  refine (h.swap c a).mp ?_
  by_contra hca
  have hac : compare a c ≤ 0 := not_lt.mp fun hlt => hca ((h.swap c a).mpr hlt)
  have hab : compare a b ≤ 0 := h.trans a c b hac (h.eq_symm hbc).le
  exact hab.not_gt ((h.swap b a).mp hba)

end

def Increasing (compare : α → α → ℤ) (cells : List (Cell α)) : Prop :=
  cells.Pairwise fun x y => compare x.key y.key < 0

structure TreeInvariant (compare : α → α → ℤ) (tree : Tree α) (t : RBTree (Cell α)) : Prop where
  represents : Represents tree t
  balanced : ∃ n, Balanced .black n t
  increasing : Increasing compare t.toList
  elements : tree.elementsInTree = t.toList.length
  allocator : nullElement < tree.next

variable {t : RBTree (Cell α)}

section

variable {compare : α → α → ℤ} {tree : Tree α}

theorem TreeInvariant.shape (h : TreeInvariant compare tree t) : TreeShape tree t :=
  ⟨h.represents, h.balanced, h.elements, h.allocator⟩

theorem TreeShape.invariant (h : TreeShape tree t)
    (hsorted : Increasing compare t.toList) : TreeInvariant compare tree t :=
  ⟨h.represents, h.balanced, hsorted, h.elements, h.allocator⟩

end

/-! ### The search -/

/-- The key belongs between the elements before a position and those behind it. -/
def Between (compare : α → α → ℤ) (key : α) (ctx : List (Frame (Cell α))) : Prop :=
  (∀ x ∈ before ctx, compare x.key key < 0) ∧ ∀ x ∈ after ctx, 0 < compare x.key key

section

variable {compare : α → α → ℤ} {key : α} {ctx : List (Frame (Cell α))} {c : Colour} {x : Cell α}
  {l r : RBTree (Cell α)}

section

variable (hc : TotalOrderComparison compare) (h : Between compare key ctx)
  (hsorted : Increasing compare (node c l x r).toList)
include hc h hsorted

theorem Between.right (hx : compare x.key key < 0) :
    Between compare key (⟨.right, c, x, l⟩ :: ctx) := by
  refine ⟨fun y hy => ?_, fun y hy => h.2 y hy⟩
  have hl := (pairwise_append.mp hsorted).2.2
  rw [before, mem_append] at hy
  rcases hy with hy | hy
  · exact h.1 y hy
  rcases mem_append.mp hy with hy | hy
  · exact hc.lt_trans (hl y hy x mem_cons_self) hx
  · rw [mem_singleton.mp hy]
    exact hx

theorem Between.left (hx : 0 < compare x.key key) :
    Between compare key (⟨.left, c, x, r⟩ :: ctx) := by
  refine ⟨fun y hy => ?_, fun y hy => ?_⟩
  · rw [before, Frame.before, append_nil] at hy
    exact h.1 y hy
  have hr := (pairwise_cons.mp (pairwise_append.mp hsorted).2.1).1
  rw [after, Frame.after, cons_append] at hy
  rcases mem_cons.mp hy with rfl | hy
  · exact hx
  rcases mem_append.mp hy with hy | hy
  · exact (hc.swap _ _).mp (hc.lt_trans ((hc.swap _ _).mpr hx) (hr y hy))
  · exact h.2 y hy

end

theorem Increasing.of_plug {t : RBTree (Cell α)} (h : Increasing compare (plug ctx t).toList) :
    Increasing compare t.toList := by
  rw [toList_plug] at h
  exact (pairwise_append.mp (pairwise_append.mp h).1).2.1

/-- The search ends at an element with the key or at the empty subtree where the key
belongs. -/
theorem treeDescend_spec {tree : Tree α} {t : RBTree (Cell α)} {fuel : ℕ}
    (hc : TotalOrderComparison compare) (h : Represents tree (plug ctx t))
    (hsorted : Increasing compare (plug ctx t).toList) (hctx : Between compare key ctx)
    (hfuel : t.toList.length < fuel) :
    ∃ ctx' t', treeDescend compare tree key fuel t.addr (links ctx) = some (t'.addr, links ctx') ∧
      plug ctx' t' = plug ctx t ∧ Between compare key ctx' ∧
      ∀ c l x r, t' = .node c l x r → compare x.key key = 0 := by
  have hnode : ∀ {ctx' c l x r}, plug ctx' (.node c l x r) = plug ctx t →
      Increasing compare (node c l x r).toList := fun {ctx' c l x r} heq => by
    rw [← heq] at hsorted
    exact hsorted.of_plug
  exact treeDescend_place h rfl
    (fun _ _ _ _ _ heq hbetween hlt => hbetween.right hc (hnode heq) hlt)
    (fun _ _ _ _ _ heq hbetween hgt => hbetween.left hc (hnode heq) hgt) hctx hfuel

end

/-! ### Insertion -/

section

variable {compare : α → α → ℤ} {tree : Tree α}

theorem TreeInvariant.addElement {t : RBTree (Cell α)} {ctx : List (Frame (Cell α))} {key : α}
    (hc : TotalOrderComparison compare) (h : TreeInvariant compare tree t)
    (hplug : plug ctx .nil = t) (hctx : Between compare key ctx) :
    ∃ element tree' t', addElement tree (links ctx) key = some (element, tree') ∧
      TreeInvariant compare tree' t' ∧ tree'.flags = tree.flags ∧
      t'.toList = before ctx ++ ⟨tree.next, key, 1⟩ :: after ctx := by
  subst hplug
  obtain ⟨element, tree', t', hadd, hshape, hflags, hlist⟩ := h.shape.addElement key
  refine ⟨element, tree', t', hadd, hshape.invariant ?_, hflags, hlist⟩
  have hsorted := h.increasing
  rw [toList_plug, toList, append_nil, Increasing, pairwise_append] at hsorted
  rw [hlist, Increasing, pairwise_append]
  refine ⟨hsorted.1, pairwise_cons.mpr ⟨fun y hy => (hc.swap _ _).mpr (hctx.2 y hy),
    hsorted.2.1⟩, fun y hy z hz => ?_⟩
  rcases mem_cons.mp hz with rfl | hz
  · exact hctx.1 y hy
  · exact hsorted.2.2 y hy z hz

theorem Increasing.of_map_key {cells cells' : List (Cell α)} (h : Increasing compare cells)
    (heq : cells'.map Cell.key = cells.map Cell.key) : Increasing compare cells' := by
  rw [Increasing, ← pairwise_map (R := fun a b => compare a b < 0)] at h ⊢
  rwa [heq]
theorem TreeInvariant.addDuplicate {ctx : List (Frame (Cell α))} {c : Colour}
    {l r : RBTree (Cell α)} {x : Cell α} (h : TreeInvariant compare tree t)
    (hplug : plug ctx (.node c l x r) = t) :
    ∃ t', TreeInvariant compare (addDuplicate tree x.addr).2 t' ∧
      (addDuplicate tree x.addr).2.flags = tree.flags ∧
      (tree.noDups = false → t'.toList = before ctx ++ (l.toList ++
        { x with count := countUp x.count } :: r.toList) ++ after ctx) := by
  subst hplug
  obtain ⟨t', hshape, hflags, hkeys, hlist⟩ := h.shape.addDuplicate
  exact ⟨t', hshape.invariant (h.increasing.of_map_key hkeys), hflags, hlist⟩

theorem TreeInvariant.of_eq {tree' : Tree α} (h : TreeInvariant compare tree t)
    (hroot : tree'.root = tree.root) (hheap : tree'.heap = tree.heap)
    (hnext : tree'.next = tree.next) (helements : tree'.elementsInTree = tree.elementsInTree) :
    TreeInvariant compare tree' t :=
  ⟨h.represents.of_eq hroot hheap hnext, h.balanced, h.increasing, helements.trans h.elements,
    hnext ▸ h.allocator⟩

theorem TreeInvariant.resetTree (h : TreeInvariant compare tree t) :
    TreeInvariant compare (resetTree tree) .nil :=
  h.shape.resetTree.invariant List.Pairwise.nil

theorem Between.root (compare : α → α → ℤ) (key : α) : Between compare key [] :=
  ⟨fun _ hx => absurd hx not_mem_nil, fun _ hx => absurd hx not_mem_nil⟩

theorem TreeInvariant.treeDescend (hc : TotalOrderComparison compare)
    (h : TreeInvariant compare tree t) (key : α) :
    ∃ ctx t', treeDescend compare tree key (tree.elementsInTree + 1) tree.root [.root] =
      some (t'.addr, links ctx) ∧ plug ctx t' = t ∧ Between compare key ctx ∧
      ∀ c l x r, t' = .node c l x r → compare x.key key = 0 := by
  have hfuel : t.toList.length < tree.elementsInTree + 1 := by
    rw [h.elements]
    omega
  rw [h.represents.root]
  exact @treeDescend_spec _ compare key [] tree t _ hc h.represents h.increasing
    (Between.root compare key) hfuel

theorem Between.node (hc : TotalOrderComparison compare) {key : α} {ctx : List (Frame (Cell α))}
    (h : Between compare key ctx) {c : Colour} {x : Cell α} {l r : RBTree (Cell α)}
    (hsorted : Increasing compare (node c l x r).toList) (hx : compare x.key key = 0) :
    (∀ y ∈ before ctx ++ l.toList, compare y.key key < 0) ∧
      ∀ y ∈ r.toList ++ after ctx, 0 < compare y.key key := by
  obtain ⟨-, hr, hl⟩ := pairwise_append.mp hsorted
  refine ⟨fun y hy => ?_, fun y hy => ?_⟩
  · rcases mem_append.mp hy with hy | hy
    · exact h.1 y hy
    · exact hc.lt_of_lt_of_eq (hl y hy x mem_cons_self) hx
  rcases mem_append.mp hy with hy | hy
  · exact hc.gt_of_lt_of_eq ((pairwise_cons.mp hr).1 y hy) hx
  · exact h.2 y hy

/-- What an insertion does to the elements: the key gets an element of its own between the
smaller and the larger ones, or its element is counted once more. -/
def Inserted (compare : α → α → ℤ) (key : α) (cells cells' : List (Cell α)) : Prop :=
  ∃ xs ys, (∀ x ∈ xs, compare x.key key < 0) ∧ (∀ y ∈ ys, 0 < compare y.key key) ∧
    ((cells = xs ++ ys ∧ ∃ a, cells' = xs ++ ⟨a, key, 1⟩ :: ys) ∨
      ∃ x, compare x.key key = 0 ∧ cells = xs ++ x :: ys ∧
        cells' = xs ++ { x with count := countUp x.count } :: ys)

theorem TreeInvariant.treeInsert (hc : TotalOrderComparison compare)
    (h : TreeInvariant compare tree t) (key : α) (keySize : ℕ) :
    ∃ element tree' t', treeInsert compare tree key keySize = some (element, tree') ∧
      TreeInvariant compare tree' t' ∧ tree'.flags = tree.flags ∧
      (tree.memoryLimit = 0 → tree.noDups = false → Inserted compare key t.toList t'.toList) := by
  obtain ⟨ctx, t', hdescend, rfl, hctx, hfound⟩ := h.treeDescend hc key
  simp only [LibSources.treeInsert, hdescend, Option.bind_eq_bind, Option.bind_some]
  cases t' with
  | nil =>
    rw [addr, if_pos rfl]
    split
    case isTrue hlimit =>
      obtain ⟨element, tree', t', hadd, hinv, hflags, -⟩ := @TreeInvariant.addElement _ compare _
        .nil [] key hc (h.resetTree.of_eq rfl rfl rfl rfl :
          TreeInvariant compare (chargeAlloc (LibSources.resetTree (chargeAlloc tree keySize))
            keySize) .nil) rfl (Between.root compare key)
      exact ⟨element, tree', t', hadd, hinv, hflags, fun hzero => absurd hzero hlimit.1⟩
    case isFalse =>
      obtain ⟨element, tree', t', hadd, hinv, hflags, hlist⟩ := TreeInvariant.addElement hc
        (h.of_eq rfl rfl rfl rfl : TreeInvariant compare (chargeAlloc tree keySize) _) rfl hctx
      refine ⟨element, tree', t', hadd, hinv, hflags, fun _ _ =>
        ⟨before ctx, after ctx, hctx.1, hctx.2, .inl ⟨?_, _, hlist⟩⟩⟩
      rw [toList_plug, toList, append_nil]
  | node c l x r =>
    obtain ⟨t', ht', hflags, hlist⟩ := h.addDuplicate rfl
    have hx := hfound c l x r rfl
    obtain ⟨hlt, hgt⟩ := hctx.node hc h.increasing.of_plug hx
    rw [addr, if_neg h.represents.addr_ne_null]
    refine ⟨_, _, t', rfl, ht', hflags, fun _ hdups =>
      ⟨before ctx ++ l.toList, r.toList ++ after ctx, hlt, hgt, .inr ⟨x, hx, ?_, ?_⟩⟩⟩
    · rw [toList_plug, toList]
      simp only [append_assoc, cons_append]
    · rw [hlist hdups]
      simp only [append_assoc, cons_append]

end

section

variable {compare : α → α → ℤ} {tree : Tree α}

/-- What a deletion does to the elements: it is refused, or the element with the key goes if
there is one. -/
def Deleted (compare : α → α → ℤ) (allowed : Bool) (key : α) (cells cells' : List (Cell α)) :
    Prop :=
  (allowed = false ∧ cells' = cells) ∨
    (allowed = true ∧ ∃ xs ys, (∀ x ∈ xs, compare x.key key < 0) ∧
      (∀ y ∈ ys, 0 < compare y.key key) ∧ cells' = xs ++ ys ∧
      (cells = xs ++ ys ∨ ∃ x, compare x.key key = 0 ∧ cells = xs ++ x :: ys))

theorem TreeInvariant.treeDelete (hc : TotalOrderComparison compare)
    (h : TreeInvariant compare tree t) (key : α) (keySize : ℕ) :
    ∃ error tree' t', treeDelete compare tree key keySize = some (error, tree') ∧
      TreeInvariant compare tree' t' ∧ tree'.flags = tree.flags ∧
      Deleted compare tree.withDelete key t.toList t'.toList := by
  by_cases hallowed : tree.withDelete
  swap
  · rw [LibSources.treeDelete, if_pos hallowed]
    exact ⟨1, tree, t, rfl, h, rfl, .inl ⟨Bool.eq_false_iff.mpr hallowed, rfl⟩⟩
  obtain ⟨ctx, t', hdescend, rfl, hctx, hfound⟩ := h.treeDescend hc key
  cases t' with
  | nil =>
    have hempty : (plug ctx (.nil : RBTree (Cell α))).toList = before ctx ++ after ctx := by
      rw [toList_plug, toList, append_nil]
    refine ⟨1, tree, plug ctx .nil, ?_, h, rfl, .inr ⟨hallowed, before ctx, after ctx, hctx.1,
      hctx.2, hempty, .inl hempty⟩⟩
    rw [LibSources.treeDelete, if_neg (not_not.mpr hallowed), hdescend]
    rfl
  | node c l x r =>
    have hold : (plug ctx (.node c l x r)).toList =
        before ctx ++ (l.toList ++ x :: r.toList) ++ after ctx := toList_plug _ _
    obtain ⟨tree', t', hdelete, hshape, hflags, hlist⟩ :=
      h.shape.treeDelete_found hallowed hdescend keySize
    have hx := hfound c l x r rfl
    obtain ⟨hlt, hgt⟩ := hctx.node hc h.increasing.of_plug hx
    refine ⟨0, tree', t', hdelete, hshape.invariant ?_, hflags,
      .inr ⟨hallowed, before ctx ++ l.toList, r.toList ++ after ctx, hlt, hgt, ?_,
        .inr ⟨x, hx, ?_⟩⟩⟩
    · rw [hlist]
      refine List.Pairwise.sublist ?_ (hold ▸ h.increasing)
      exact ((sublist_cons_self x r.toList).append_left _).append_left _ |>.append_right _
    · rw [hlist]
      simp only [append_assoc]
    · rw [hold]
      simp only [append_assoc, cons_append]

end

end LibSources
