import LibSources.TreeUpdate

/-!
# Runs of the Tree

Any calls of `tree_insert` and `tree_delete` on a tree that `init_tree` has set up leave a
red-black tree. `tree_walk` visits its elements in order.

## Main results

* `Tree.run_redBlack`
-/

namespace LibSources

open TreeElement List LibSources.RBTree

variable {α : Type}

/-! ### Traversal -/

section

variable {σ : Type} {action : α → ℕ → σ → ℤ × σ}

/-- The action on one element after the other, until it returns an error. -/
def visitAll (action : α → ℕ → σ → ℤ × σ) : List (Cell α) → σ → ℤ × σ
  | [], argument => (0, argument)
  | x :: xs, argument =>
    if (action x.key x.count argument).1 ≠ 0 then action x.key x.count argument
    else visitAll action xs (action x.key x.count argument).2

theorem visitAll_append (xs ys : List (Cell α)) (argument : σ) :
    visitAll action (xs ++ ys) argument =
      if (visitAll action xs argument).1 ≠ 0 then visitAll action xs argument
      else visitAll action ys (visitAll action xs argument).2 := by
  induction xs generalizing argument with
  | nil => exact (if_neg (not_not.mpr rfl)).symm
  | cons x xs ih =>
    rw [cons_append, visitAll, visitAll]
    by_cases herror : (action x.key x.count argument).1 ≠ 0
    · rw [if_pos herror, if_pos herror, if_pos herror]
    · rw [if_neg herror, if_neg herror, ih]

/-- The elements in the order of a traversal that starts at a side. -/
def RBTree.visits (side : Side) (t : RBTree (Cell α)) : List (Cell α) :=
  match side with
  | .left => t.toList
  | .right => t.toList.reverse

theorem RBTree.visits_ofSides (side : Side) (c : Colour) (x : Cell α) (near far : RBTree (Cell α)) :
    (ofSides side c x near far).visits side = near.visits side ++ x :: far.visits side := by
  cases side with
  | left => rfl
  | right =>
    simp only [visits, ofSides, toList, reverse_append, reverse_cons,
      append_assoc, singleton_append]

variable {tree : Tree α} {ctx : List (Frame (Cell α))} {t : RBTree (Cell α)}

theorem Represents.addr_ne_zero (h : Represents tree (plug ctx t)) : t.addr ≠ 0 := by
  rcases t.addr_mem_or with hmem | hnull
  · exact Nat.ne_of_gt (lt_trans one_pos (h.bounds _ (mem_addrs_plug.mpr (.inl hmem))).1)
  · rw [hnull]
    exact one_ne_zero

theorem treeWalkFrom_spec {fuel : ℕ} (h : Represents tree (plug ctx t)) (side : Side)
    (hfuel : t.toList.length < fuel) (argument : σ) :
    treeWalkFrom side action tree fuel t.addr argument =
      some (visitAll action (t.visits side) argument) := by
  induction fuel generalizing ctx t argument with
  | zero => exact absurd hfuel (Nat.not_lt_zero _)
  | succ fuel ih =>
    rcases eq_nil_or_ofSides side t with rfl | ⟨c, x, near, far, rfl⟩
    · have hnull : (tree.heap nullElement).child side = 0 := by
        cases side with
        | left => exact h.null_left
        | right => exact h.null_right
      rw [RBTree.addr, treeWalkFrom, if_neg (not_not.mpr hnull)]
      cases side <;> rfl
    have hnear : Represents tree (plug (⟨side, c, x, far⟩ :: ctx) near) := h
    have hfar : Represents tree (plug (⟨side.other, c, x, near⟩ :: ctx) far) := by
      rw [plug_sibling]
      exact h
    have hlength := (toList_ofSides_perm side c x near far).length_eq
    rw [length_cons, length_append] at hlength
    rw [addr_ofSides, treeWalkFrom, h.heap_eq, TreeElement.child_ofSides,
      TreeElement.child_other_ofSides, if_pos hnear.addr_ne_zero, ih hnear (by omega),
      visits_ofSides, visitAll_append, visitAll]
    simp only [Option.bind_eq_bind, Option.bind_some, ih hfar (by omega),
      key_ofSides, count_ofSides]
    split_ifs <;> rfl

theorem treeWalk_eq_visitAll {compare : α → α → ℤ} {tree : Tree α} {t : RBTree (Cell α)}
    (h : TreeInvariant compare tree t) (visit : Side) (argument : σ) :
    treeWalk tree action argument visit = some (visitAll action (t.visits visit) argument) := by
  rw [treeWalk, h.represents.root]
  exact @treeWalkFrom_spec _ _ _ tree [] t _ h.represents visit
    (by rw [h.elements]; exact lt_add_one _) argument

end

def collectKey (key : α) (_ : ℕ) (keys : List α) : ℤ × List α := (0, keys ++ [key])

theorem visitAll_collectKey (xs : List (Cell α)) (keys : List α) :
    visitAll collectKey xs keys = (0, keys ++ xs.map Cell.key) := by
  induction xs generalizing keys with
  | nil => rw [visitAll, map_nil, append_nil]
  | cons x xs ih =>
    rw [visitAll, collectKey, if_neg (not_not.mpr rfl), ih, map_cons]
    exact congrArg (Prod.mk 0) (append_assoc keys [x.key] _)

/-! ### Runs -/

inductive TreeCall (α : Type) where
  | insert (key : α) (keySize : ℕ)
  | delete (key : α) (keySize : ℕ)

namespace Tree

def call (compare : α → α → ℤ) (tree : Tree α) : TreeCall α → Option (Tree α)
  | .insert key keySize => (treeInsert compare tree key keySize).map Prod.snd
  | .delete key keySize => (treeDelete compare tree key keySize).map Prod.snd

def run (compare : α → α → ℤ) (tree : Tree α) : List (TreeCall α) → Option (Tree α)
  | [] => some tree
  | c :: calls => (call compare tree c).bind fun tree => run compare tree calls

def start [Inhabited α] (memoryLimit : ℕ) (size : ℤ) (withDelete freeElement noDups : Bool) :
    Tree α :=
  { initTree memoryLimit size withDelete freeElement with noDups := noDups }

/-- The links of `tree` form the tree `t`, which is a red-black tree: its traversal is strictly
increasing, its root is black, no red node has a red child, and all paths to `null_element`
have the same number of black nodes. -/
structure RedBlack (compare : α → α → ℤ) (tree : Tree α) (t : RBTree (Cell α)) : Prop where
  represents : Represents tree t
  traversal : treeWalk tree collectKey [] .left = some (0, t.toList.map Cell.key)
  increasing : (t.toList.map Cell.key).Pairwise fun a b => compare a b < 0
  root_black : (tree.heap tree.root).colour = .black
  noRedRed : NoRedRed t
  blackHeight : ∃ n, BlackHeight t n
  null_black : (tree.heap nullElement).colour = .black
  null_children : (tree.heap nullElement).left = 0 ∧ (tree.heap nullElement).right = 0
  elements : tree.elementsInTree = t.toList.length

end Tree

theorem TreeInvariant.redBlack {compare : α → α → ℤ} {tree : Tree α} {t : RBTree (Cell α)}
    (h : TreeInvariant compare tree t) : tree.RedBlack compare t := by
  obtain ⟨n, hbalanced⟩ := h.balanced
  refine ⟨h.represents, ?_, pairwise_map.mpr h.increasing, ?_, hbalanced.noRedRed,
    ⟨n, hbalanced.blackHeight⟩, h.represents.null_black,
    ⟨h.represents.null_left, h.represents.null_right⟩, h.elements⟩
  · rw [treeWalk_eq_visitAll h, visitAll_collectKey]
    rfl
  · rw [h.represents.root, @Represents.colour_addr _ tree [] t h.represents]
    exact hbalanced.colour_eq

theorem TreeShape.start [Inhabited α] (memoryLimit : ℕ) (size : ℤ)
    (withDelete freeElement noDups : Bool) :
    TreeShape (Tree.start memoryLimit size withDelete freeElement noDups : Tree α) .nil :=
  ⟨⟨rfl, trivial, nodup_nil, fun _ ha => absurd ha not_mem_nil, rfl, rfl, rfl⟩,
    ⟨0, .nil⟩, rfl, Nat.one_lt_two⟩

theorem TreeInvariant.start [Inhabited α] (compare : α → α → ℤ) (memoryLimit : ℕ) (size : ℤ)
    (withDelete freeElement noDups : Bool) :
    TreeInvariant compare
      (Tree.start memoryLimit size withDelete freeElement noDups : Tree α) .nil :=
  (TreeShape.start memoryLimit size withDelete freeElement noDups).invariant List.Pairwise.nil

section

variable {compare : α → α → ℤ} (hc : TotalOrderComparison compare)

include hc

theorem TreeInvariant.call {tree : Tree α} {t : RBTree (Cell α)}
    (h : TreeInvariant compare tree t) (c : TreeCall α) :
    ∃ tree' t', tree.call compare c = some tree' ∧ TreeInvariant compare tree' t' := by
  cases c with
  | insert key keySize =>
    obtain ⟨element, tree', t', hinsert, h', -⟩ := h.treeInsert hc key keySize
    exact ⟨tree', t', by rw [Tree.call, hinsert]; rfl, h'⟩
  | delete key keySize =>
    obtain ⟨error, tree', t', hdelete, h', -⟩ := h.treeDelete hc key keySize
    exact ⟨tree', t', by rw [Tree.call, hdelete]; rfl, h'⟩

theorem TreeInvariant.run {tree : Tree α} {t : RBTree (Cell α)}
    (h : TreeInvariant compare tree t) (calls : List (TreeCall α)) :
    ∃ tree' t', tree.run compare calls = some tree' ∧ TreeInvariant compare tree' t' := by
  induction calls generalizing tree t with
  | nil => exact ⟨tree, t, rfl, h⟩
  | cons c calls ih =>
    obtain ⟨tree1, t1, hcall, h1⟩ := h.call hc c
    rw [Tree.run, hcall, Option.bind_some]
    exact ih h1

/-- Every sequence of insertions and deletions on a new tree returns a red-black tree. -/
theorem Tree.run_redBlack [Inhabited α] (memoryLimit : ℕ) (size : ℤ)
    (withDelete freeElement noDups : Bool) (calls : List (TreeCall α)) :
    ∃ tree t, (start memoryLimit size withDelete freeElement noDups).run compare calls =
      some tree ∧ tree.RedBlack compare t := by
  obtain ⟨tree, t, hrun, h⟩ :=
    (TreeInvariant.start compare memoryLimit size withDelete freeElement noDups).run hc calls
  exact ⟨tree, t, hrun, h.redBlack⟩

end

theorem Tree.run_redBlack_sub :
    TotalOrderComparison (fun a b : ℤ => a - b) ∧
    ∃ tree t, (start 0 4 true false false).run (fun a b : ℤ => a - b)
      [.insert 2 0, .insert 1 0, .insert 3 0, .delete 2 0] = some tree ∧
      tree.RedBlack (fun a b : ℤ => a - b) t := by
  have hc := totalOrderComparison_sub
  exact ⟨hc, run_redBlack hc 0 4 true false false _⟩

end LibSources
