import LibSources.TreeRun

/-!
# The Array of Parents

`tree_insert`, `tree_delete` and `rb_delete_fixup` keep the links from the root to an element in
the array `parents` of `MAX_TREE_HEIGHT` entries, without a check of its end. Here every function
gets the list of the indexes of the array that it writes to, in order.

* The top of the list `parents` of a function is at the index `parents.length - 1`.
* `rb_insert` only reads the array.
* The comparison function is arbitrary: it need not be an order.

## Main results

* `Tree.run_parentsWrites_lt`: every write is inside the array.
-/

namespace LibSources

open List LibSources.RBTree

variable {α : Type}

def maxTreeHeight : ℕ := 64

/-! ### The writes -/

/-- The writes of the search of `tree_insert` and `tree_delete`, where `top` is the index of
`parent`. -/
def treeDescendWrites (compare : α → α → ℤ) (tree : Tree α) (key : α) : ℕ → ℕ → ℕ → List ℕ
  | 0, _, _ => []
  | fuel + 1, element, top =>
    if element = nullElement then []
    else
      let cmp := compare (tree.heap element).key key
      if cmp = 0 then []
      else if cmp < 0 then
        (top + 1) :: treeDescendWrites compare tree key fuel (tree.heap element).right (top + 1)
      else (top + 1) :: treeDescendWrites compare tree key fuel (tree.heap element).left (top + 1)

section

variable (compare : α → α → ℤ)

def treeInsertWrites (tree : Tree α) (key : α) (keySize : ℕ) : List ℕ :=
  let fuel := tree.elementsInTree + 1
  0 :: treeDescendWrites compare tree key fuel tree.root 0 ++
    match treeDescend compare tree key fuel tree.root [.root] with
    | none => []
    | some (element, _) =>
      let charged := chargeAlloc tree keySize
      -- the call of `tree_insert` on the empty tree
      if element = nullElement ∧ charged.memoryLimit ≠ 0 ∧ charged.elementsInTree ≠ 0 ∧
          charged.memoryLimit < charged.allocated then [0]
      else []

/-- The writes of the loop of `tree_delete` that looks for the successor. -/
def treeMinWrites (tree : Tree α) : ℕ → ℕ → ℕ → List ℕ
  | 0, _, _ => []
  | fuel + 1, nod, top =>
    if (tree.heap nod).left = nullElement then []
    else (top + 1) :: treeMinWrites tree fuel (tree.heap nod).left (top + 1)

/-- The writes of the part of `tree_delete` that unlinks an element: `org_parent[1]` is written
twice. -/
def unlinkWrites (tree : Tree α) (parents : List Link) (element : ℕ) : List ℕ :=
  if (tree.heap element).left = nullElement then []
  else if (tree.heap element).right = nullElement then []
  else
    parents.length :: treeMinWrites tree (tree.elementsInTree + 1) (tree.heap element).right
      parents.length ++ [parents.length]

/-- The writes of the loop of `rb_delete_fixup`: a red sibling replaces `parent[0]` and pushes
one more link. -/
def rbDeleteFixupWrites : ℕ → Tree α → List Link → ℕ → List ℕ
  | 0, _, _, _ => []
  | fuel + 1, tree, parents, x =>
    if x = tree.root ∨ (tree.heap x).colour ≠ .black then []
    else
      match parents with
      | _ :: up :: rest =>
        let par := tree.getLink up
        let side := if x = (tree.heap par).left then Side.left else Side.right
        let w := (tree.heap par).child side.other
        let writes := if (tree.heap w).colour = .red then [rest.length + 1, rest.length + 2] else []
        let (tree, above, w) := rbDeleteSibling side tree (up :: rest) up par w
        if (tree.heap ((tree.heap w).child side)).colour = .black ∧
            (tree.heap ((tree.heap w).child side.other)).colour = .black then
          writes ++ rbDeleteFixupWrites fuel (tree.setColour w .red) above par
        else writes
      | _ => []

variable (tree : Tree α)

def removeWrites (parents : List Link) (element : ℕ) : List ℕ :=
  unlinkWrites tree parents element ++ match unlinkElement tree parents element with
    | some (.black, top :: parents, tree) =>
      rbDeleteFixupWrites ((top :: parents).length + 1) tree (top :: parents) (tree.getLink top)
    | _ => []

def treeDeleteWrites (key : α) : List ℕ :=
  if ¬ tree.withDelete then []
  else
    let fuel := tree.elementsInTree + 1
    0 :: treeDescendWrites compare tree key fuel tree.root 0 ++
      match treeDescend compare tree key fuel tree.root [.root] with
      | none => []
      | some (element, parents) =>
        if element = nullElement then [] else removeWrites tree parents element

def Tree.parentsWrites : TreeCall α → List ℕ
  | .insert key keySize => treeInsertWrites compare tree key keySize
  | .delete key _ => treeDeleteWrites compare tree key

end

variable {β : Type*} {c : Colour} {n element : ℕ} {ctx : List (Frame (Cell α))}
  {parents' parents : List Link}

theorem Balanced.two_pow_le {t : RBTree β} (h : Balanced c n t) : 2 ^ n ≤ t.toList.length + 1 := by
  induction h with
  | nil => exact le_rfl
  | red x _ _ ihl ihr =>
    rw [toList, length_append, length_cons]
    omega
  | black x _ _ ihl ihr =>
    rw [toList, length_append, length_cons, pow_succ]
    omega

theorem Context.Balanced.length_le {height : ℕ} {ctx : List (Frame β)}
    (h : Context.Balanced height c n ctx) :
    ctx.length + 2 * n + (if c = .red then 1 else 0) ≤ 2 * height := by
  induction h with
  | root => exact le_of_eq (zero_add _)
  | red hf hw h ih =>
    rw [if_pos rfl] at ih
    rw [if_neg Colour.noConfusion, length_cons]
    omega
  | @black n c c' f ctx hf hw h ih =>
    rw [if_neg Colour.noConfusion] at ih
    rw [length_cons]
    split <;> omega

theorem length_links (ctx : List (Frame (Cell α))) : (links ctx).length = ctx.length + 1 := by
  rw [links, length_append, length_map, length_singleton]

/-- The links of a path, with the one that `rb_delete_fixup` may add, have room in the array. -/
theorem links_length_le {tree : Tree α} {t : RBTree (Cell α)} (h : TreeShape tree (plug ctx t))
    (helements : tree.elementsInTree < 2 ^ 31) : (links ctx).length + 1 ≤ maxTreeHeight := by
  obtain ⟨height, hbalanced⟩ := h.balanced
  obtain ⟨c, n, hctx, -⟩ := hbalanced.zoom
  have hpow : 2 ^ height ≤ 2 ^ 31 := hbalanced.two_pow_le.trans (h.elements ▸ helements)
  have hheight : height ≤ 31 := (Nat.pow_le_pow_iff_right Nat.one_lt_two).mp hpow
  have hlength := hctx.length_le
  rw [length_links, maxTreeHeight]
  omega

/-! ### The writes of each function -/

section

variable {compare : α → α → ℤ} {tree : Tree α} {key : α}

theorem treeDescendWrites_lt {fuel top element' : ℕ} (htop : parents.length = top + 1)
    (h : treeDescend compare tree key fuel element parents = some (element', parents')) :
    parents.length ≤ parents'.length ∧
      ∀ i ∈ treeDescendWrites compare tree key fuel element top, i < parents'.length := by
  induction fuel generalizing element top parents with
  | zero => cases h
  | succ fuel ih =>
    rw [treeDescend] at h
    rw [treeDescendWrites]
    -- a step to a child writes the next index
    have hstep : ∀ link child,
        treeDescend compare tree key fuel child (link :: parents) = some (element', parents') →
        parents.length ≤ parents'.length ∧ ∀ i ∈ (top + 1) ::
          treeDescendWrites compare tree key fuel child (top + 1), i < parents'.length := by
      intro link child hchild
      obtain ⟨hle, hwrites⟩ := ih (by rw [length_cons, htop]) hchild
      rw [length_cons] at hle
      refine ⟨by omega, fun i hi => ?_⟩
      rcases mem_cons.mp hi with rfl | hi
      · omega
      · exact hwrites i hi
    by_cases hnull : element = nullElement
    · rw [if_pos hnull] at h ⊢
      cases h
      exact ⟨le_rfl, fun i hi => absurd hi not_mem_nil⟩
    by_cases hzero : compare (tree.heap element).key key = 0
    · simp only [if_neg hnull, if_pos hzero] at h ⊢
      cases h
      exact ⟨le_rfl, fun i hi => absurd hi not_mem_nil⟩
    by_cases hlt : compare (tree.heap element).key key < 0
    · simp only [if_neg hnull, if_neg hzero, if_pos hlt] at h ⊢
      exact hstep _ _ h
    · simp only [if_neg hnull, if_neg hzero, if_neg hlt] at h ⊢
      exact hstep _ _ h

theorem treeMinWrites_lt {fuel nod top nod' : ℕ} {inner inner' : List Link} {base : ℕ}
    (htop : inner.length + base = top + 1) (h : treeMin tree fuel nod inner = some (nod', inner')) :
    inner.length ≤ inner'.length ∧
      ∀ i ∈ treeMinWrites tree fuel nod top, i < inner'.length + base := by
  induction fuel generalizing nod top inner with
  | zero => cases h
  | succ fuel ih =>
    rw [treeMin] at h
    rw [treeMinWrites]
    by_cases hnull : (tree.heap nod).left = nullElement
    · rw [if_pos hnull] at h ⊢
      cases h
      exact ⟨le_rfl, fun i hi => absurd hi not_mem_nil⟩
    rw [if_neg hnull] at h ⊢
    have htop' : (Link.child .left nod :: inner).length + base = top + 1 + 1 := by
      rw [length_cons]
      omega
    obtain ⟨hle, hwrites⟩ := ih htop' h
    rw [length_cons] at hle
    refine ⟨by omega, fun i hi => ?_⟩
    rcases mem_cons.mp hi with rfl | hi
    · omega
    · exact hwrites i hi

theorem unlinkWrites_lt {tree' : Tree α}
    (h : unlinkElement tree parents element = some (c, parents', tree')) :
    ∀ i ∈ unlinkWrites tree parents element, i < parents'.length := by
  cases parents with
  | nil => cases h
  | cons top parents =>
    simp only [unlinkElement] at h
    rw [unlinkWrites]
    split at h
    · rename_i hleft
      rw [if_pos hleft]
      exact fun i hi => absurd hi not_mem_nil
    rename_i hleft
    split at h
    · rename_i hright
      rw [if_neg hleft, if_pos hright]
      exact fun i hi => absurd hi not_mem_nil
    rename_i hright
    rw [if_neg hleft, if_neg hright]
    simp only [unlinkInner, Option.bind_eq_bind, Option.bind_eq_some_iff] at h
    obtain ⟨⟨nod, inner⟩, hmin, h⟩ := h
    obtain ⟨hle, hwrites⟩ := @treeMinWrites_lt _ tree _ _ (top :: parents).length _ _ _
      (top :: parents).length (add_comm _ _) hmin
    cases inner with
    | nil => cases h
    | cons last inner =>
      simp only [Option.some.injEq, Prod.mk.injEq] at h
      obtain ⟨-, rfl, -⟩ := h
      have hlength : ((last :: inner).dropLast ++ [Link.child .right nod] ++
          top :: parents).length = (last :: inner).length + (top :: parents).length := by
        simp only [length_append, length_dropLast, length_cons, length_nil]
        omega
      intro i hi
      rw [hlength]
      simp only [length_cons] at hle
      rcases mem_append.mp hi with hi | hi
      · rcases mem_cons.mp hi with rfl | hi
        · simp only [length_cons]
          omega
        · exact hwrites i hi
      · rw [mem_singleton.mp hi]
        simp only [length_cons]
        omega

theorem rbDeleteSibling_length_le (side : Side) (tree : Tree α) (parents : List Link) (up : Link)
    (par w : ℕ) : (rbDeleteSibling side tree parents up par w).2.1.length ≤ parents.length + 1 := by
  rw [rbDeleteSibling]
  split
  · exact le_rfl
  · exact Nat.le_succ _

/-- The rebalancing needs at most one entry more than the stack that it gets: after a push it
goes up at least one link. -/
theorem rbDeleteFixupWrites_le (fuel : ℕ) (tree : Tree α) (parents : List Link) (x : ℕ) :
    ∀ i ∈ rbDeleteFixupWrites fuel tree parents x, i ≤ parents.length := by
  induction fuel generalizing tree parents x with
  | zero => exact nofun
  | succ fuel ih =>
    match parents with
    | [] | [_] =>
      rw [rbDeleteFixupWrites, ite_self]
      · exact nofun
      · exact nofun
    | top :: up :: rest =>
      rw [rbDeleteFixupWrites]
      split
      · exact nofun
      have hwrites : ∀ w, ∀ i ∈ (if (tree.heap w).colour = .red then
          [rest.length + 1, rest.length + 2] else []), i ≤ (top :: up :: rest).length := by
        intro w i hi
        split at hi
        · simp only [mem_cons, not_mem_nil, or_false] at hi
          simp only [length_cons]
          omega
        · cases hi
      intro i hi
      dsimp only at hi
      generalize (if x = (tree.heap (tree.getLink up)).left then Side.left else Side.right) =
        side at hi
      generalize (tree.heap (tree.getLink up)).child side.other = w at hi
      have hif {p : Prop} [Decidable p] {xs ys : List ℕ} (h : i ∈ if p then xs ++ ys else xs) :
          i ∈ xs ∨ i ∈ ys := by
        split at h
        · exact mem_append.mp h
        · exact .inl h
      rcases hif hi with hi | hi
      · exact hwrites w i hi
      · exact (ih _ _ _ i hi).trans (rbDeleteSibling_length_le side tree (up :: rest) up _ w)

end

/-! ### The writes of the calls -/

section

variable {tree : Tree α} {t : RBTree (Cell α)}

/-- The search of a call, with the first entry, stays in the array. -/
theorem TreeShape.treeDescendWrites_lt (h : TreeShape tree t)
    (helements : tree.elementsInTree < 2 ^ 31) (compare : α → α → ℤ) (key : α) :
    ∀ i ∈ 0 :: treeDescendWrites compare tree key (tree.elementsInTree + 1) tree.root 0,
      i < maxTreeHeight := by
  obtain ⟨ctx, t', hdescend, rfl⟩ := h.treeDescend compare key
  have hroom := links_length_le h helements
  obtain ⟨-, hwrites⟩ := LibSources.treeDescendWrites_lt rfl hdescend
  intro i hi
  rcases mem_cons.mp hi with rfl | hi
  · exact Nat.zero_lt_succ 63
  · exact (hwrites i hi).trans (by omega)

theorem TreeShape.removeWrites_lt {x : Cell α} {l r : RBTree (Cell α)}
    (h : TreeShape tree (plug ctx (.node c l x r))) (helements : tree.elementsInTree < 2 ^ 31) :
    ∀ i ∈ removeWrites tree (links ctx) x.addr, i < maxTreeHeight := by
  obtain ⟨c', ctx', tree1, -, -, hunlink, -, ⟨ctx0, t0, hplace, hlength⟩, -⟩ := h.deleteElement
  have hroom : (links ctx').length + 1 ≤ maxTreeHeight := by
    rw [length_links, ← hlength, ← length_links]
    exact links_length_le (hplace ▸ h) helements
  intro i hi
  rw [removeWrites, hunlink] at hi
  rcases mem_append.mp hi with hi | hi
  · exact (unlinkWrites_lt hunlink i hi).trans (by omega)
  cases c' with
  | red => cases hi
  | black =>
    obtain ⟨rest, hlinks⟩ := links_eq_cons ctx'
    rw [hlinks] at hi hroom
    exact (rbDeleteFixupWrites_le _ _ _ _ i hi).trans_lt hroom

theorem TreeShape.parentsWrites_lt (h : TreeShape tree t)
    (helements : tree.elementsInTree < 2 ^ 31) (compare : α → α → ℤ) (c : TreeCall α) :
    ∀ i ∈ tree.parentsWrites compare c, i < maxTreeHeight := by
  cases c with
  | insert key keySize =>
    intro i hi
    rcases mem_append.mp hi with hi | hi
    · exact h.treeDescendWrites_lt helements compare key i hi
    obtain ⟨ctx, t', hdescend, -⟩ := h.treeDescend compare key
    simp only [hdescend] at hi
    split at hi
    · rw [mem_singleton.mp hi]
      exact Nat.zero_lt_succ 63
    · cases hi
  | delete key keySize =>
    intro i hi
    rw [Tree.parentsWrites, treeDeleteWrites] at hi
    split at hi
    · cases hi
    rcases mem_append.mp hi with hi | hi
    · exact h.treeDescendWrites_lt helements compare key i hi
    obtain ⟨ctx, t', hdescend, rfl⟩ := h.treeDescend compare key
    simp only [hdescend] at hi
    split at hi
    · cases hi
    rename_i hfound
    cases t' with
    | nil => exact absurd rfl hfound
    | node c l x r => exact h.removeWrites_lt helements i hi

theorem TreeShape.call (h : TreeShape tree t) (compare : α → α → ℤ) (c : TreeCall α) :
    ∃ tree' t', tree.call compare c = some tree' ∧ TreeShape tree' t' := by
  cases c with
  | insert key keySize =>
    obtain ⟨element, tree', t', hinsert, h'⟩ := h.treeInsert compare key keySize
    exact ⟨tree', t', by rw [Tree.call, hinsert]; rfl, h'⟩
  | delete key keySize =>
    obtain ⟨error, tree', t', hdelete, h'⟩ := h.treeDelete compare key keySize
    exact ⟨tree', t', by rw [Tree.call, hdelete]; rfl, h'⟩

theorem TreeShape.run (h : TreeShape tree t) (compare : α → α → ℤ) (calls : List (TreeCall α)) :
    ∃ tree' t', tree.run compare calls = some tree' ∧ TreeShape tree' t' := by
  induction calls generalizing tree t with
  | nil => exact ⟨tree, t, rfl, h⟩
  | cons c calls ih =>
    obtain ⟨tree1, t1, hcall, h1⟩ := h.call compare c
    rw [Tree.run, hcall, Option.bind_some]
    exact ih h1

end

/-- Whatever the comparison function answers, every sequence of insertions and deletions on a
new tree returns. If the tree then has less than `2 ^ 31` elements, no write of the next call to
`parents` is behind the `MAX_TREE_HEIGHT` entries of the array. -/
theorem Tree.run_parentsWrites_lt [Inhabited α] (compare : α → α → ℤ) (memoryLimit : ℕ)
    (size : ℤ) (withDelete freeElement noDups : Bool) (calls : List (TreeCall α)) :
    ∃ tree, (Tree.start memoryLimit size withDelete freeElement noDups).run compare calls =
      some tree ∧ (tree.elementsInTree < 2 ^ 31 →
        ∀ c, ∀ i ∈ tree.parentsWrites compare c, i < maxTreeHeight) := by
  obtain ⟨tree, t, hrun, h⟩ := (TreeShape.start memoryLimit size withDelete freeElement
    noDups).run compare calls
  exact ⟨tree, hrun, fun helements c => h.parentsWrites_lt helements compare c⟩

/-- Six keys that are compared by subtraction: the removal of the root finds its successor two
links below, and the removal of the first key rotates a red sibling. -/
theorem Tree.run_parentsWrites_lt_six :
    ∃ tree, (Tree.start 0 4 true false false).run (fun a b : ℤ => a - b)
      [.insert 1 0, .insert 2 0, .insert 3 0, .insert 4 0, .insert 5 0, .insert 6 0] = some tree ∧
      tree.elementsInTree = 6 ∧
      tree.parentsWrites (fun a b : ℤ => a - b) (.delete 2 0) = [0, 1, 2, 1] ∧
      tree.parentsWrites (fun a b : ℤ => a - b) (.delete 1 0) = [0, 1, 1, 2] ∧
      ∀ c, ∀ i ∈ tree.parentsWrites (fun a b : ℤ => a - b) c, i < maxTreeHeight := by
  obtain ⟨tree, hrun, hwrites⟩ := Tree.run_parentsWrites_lt (fun a b : ℤ => a - b) 0 4 true false
    false [.insert 1 0, .insert 2 0, .insert 3 0, .insert 4 0, .insert 5 0, .insert 6 0]
  have hvalues : some (tree.elementsInTree, tree.parentsWrites (fun a b : ℤ => a - b) (.delete 2 0),
      tree.parentsWrites (fun a b : ℤ => a - b) (.delete 1 0)) =
      some (6, [0, 1, 2, 1], [0, 1, 1, 2]) := by
    rw [← Option.map_some (f := fun tree : Tree ℤ => (tree.elementsInTree,
      tree.parentsWrites (fun a b : ℤ => a - b) (.delete 2 0),
      tree.parentsWrites (fun a b : ℤ => a - b) (.delete 1 0))), ← hrun]
    decide +kernel
  simp only [Option.some.injEq, Prod.mk.injEq] at hvalues
  obtain ⟨helements, htwo, hone⟩ := hvalues
  exact ⟨tree, hrun, helements, htwo, hone, hwrites (by rw [helements]; decide)⟩

end LibSources
