import LibSources.RedBlack

/-!
# The Binary Tree of `mysys/tree.c`

A model of `init_tree`, `tree_insert`, `tree_delete`, `tree_walk` and what they call.

* An address is a number: `0` is the null pointer, `1` is `&tree->null_element`, and the
  elements that `my_malloc` returns come from `2` on. `null_element` is part of the heap.
* The stack `tree->parents` of the addresses of links is a list with `parent[0]` first. That
  the array of `MAX_TREE_HEIGHT` links is long enough is `links_length_le`; the wrap around of
  `elements_in_tree` at `2 ^ 32` elements is not modelled.
* Two halves of the source that exchange left and right are one definition with a parameter
  `side`.
* A loop has fuel; `none` is a loop that runs out of it or reads outside the stack.
* A key is stored as a value. The calls of `tree->free` are left out.
-/

namespace LibSources

open Function

def nullElement : ℕ := 1

structure TreeElement (α : Type) where
  left : ℕ
  right : ℕ
  count : ℕ
  colour : Colour
  key : α

inductive Link where
  | root
  | child (side : Side) (element : ℕ)

structure Tree (α : Type) where
  root : ℕ
  heap : ℕ → TreeElement α
  /-- The address of the next element that is allocated. -/
  next : ℕ
  elementsInTree : ℕ
  sizeOfElement : ℕ
  memoryLimit : ℕ
  allocated : ℕ
  withDelete : Bool
  /-- `TREE_NO_DUPS` in `tree->flag`. -/
  noDups : Bool

variable {α : Type}

def TreeElement.child (element : TreeElement α) : Side → ℕ
  | .left => element.left
  | .right => element.right

def TreeElement.setChild (element : TreeElement α) (side : Side) (value : ℕ) : TreeElement α :=
  match side with
  | .left => { element with left := value }
  | .right => { element with right := value }

namespace Tree

def setChild (tree : Tree α) (element : ℕ) (side : Side) (value : ℕ) : Tree α :=
  { tree with heap :=
      Function.update tree.heap element ((tree.heap element).setChild side value) }

variable (tree : Tree α)

def setColour (element : ℕ) (colour : Colour) : Tree α :=
  { tree with heap :=
      Function.update tree.heap element { tree.heap element with colour := colour } }

def getLink : Link → ℕ
  | .root => tree.root
  | .child side element => (tree.heap element).child side

def setLink (link : Link) (value : ℕ) : Tree α :=
  match link with
  | .root => { tree with root := value }
  | .child side element => tree.setChild element side value

end Tree

/-- `init_tree`. The key is kept behind the element when no function frees elements and its
size asks for no alignment; otherwise the element has a pointer to it. -/
def initTree [Inhabited α] (memoryLimit : ℕ) (size : ℤ) (withDelete freeElement : Bool) :
    Tree α where
  root := nullElement
  heap := fun _ => ⟨0, 0, 0, .black, default⟩
  next := 2
  elementsInTree := 0
  sizeOfElement :=
    if !freeElement ∧ 0 ≤ size ∧ (size ≤ 8 ∨ size % 8 ≠ 0) then size.toNat
    else size.toNat + 8
  memoryLimit := memoryLimit
  allocated := 0
  withDelete := withDelete
  noDups := false

def resetTree (tree : Tree α) : Tree α :=
  { tree with root := nullElement, elementsInTree := 0, allocated := 0 }

def rotate (side : Side) (tree : Tree α) (parent : Link) (leaf : ℕ) : Tree α :=
  let y := (tree.heap leaf).child side.other
  let tree := tree.setChild leaf side.other ((tree.heap y).child side)
  let tree := tree.setLink parent y
  tree.setChild y side leaf

def leftRotate : Tree α → Link → ℕ → Tree α := rotate .left

def rightRotate : Tree α → Link → ℕ → Tree α := rotate .right

def rbInsertRotate (side : Side) (tree : Tree α) (up up2 : Link) (leaf par par2 : ℕ) : Tree α :=
  let (tree, par) :=
    if leaf = (tree.heap par).child side.other then (rotate side tree up par, leaf)
    else (tree, par)
  rotate side.other ((tree.setColour par .black).setColour par2 .red) up2 par2

def rbInsertLoop : ℕ → Tree α → List Link → ℕ → Option (Tree α)
  | 0, _, _, _ => none
  | fuel + 1, tree, parents, leaf =>
    if leaf = tree.root then some tree
    else
      match parents with
      | _ :: up :: rest =>
        let par := tree.getLink up
        if (tree.heap par).colour ≠ .red then some tree
        else
          match rest with
          | up2 :: _ =>
            let par2 := tree.getLink up2
            let side := if par = (tree.heap par2).left then Side.left else Side.right
            let y := (tree.heap par2).child side.other
            if (tree.heap y).colour = .red then
              let tree := (tree.setColour par .black).setColour y .black
              rbInsertLoop fuel (tree.setColour par2 .red) rest par2
            else some (rbInsertRotate side tree up up2 leaf par par2)
          | [] => none
      | _ => none

def rbInsert (tree : Tree α) (parents : List Link) (leaf : ℕ) : Option (Tree α) := do
  let tree ← rbInsertLoop (parents.length + 1) (tree.setColour leaf .red) parents leaf
  pure (tree.setColour tree.root .black)

/-! ### Rebalancing after a deletion -/

def rbDeleteRotate (side : Side) (tree : Tree α) (up : Link) (par w : ℕ) : Tree α :=
  let (tree, w) :=
    if (tree.heap ((tree.heap w).child side.other)).colour = .black then
      let tree := (tree.setColour ((tree.heap w).child side) .black).setColour w .red
      let tree := rotate side.other tree (.child side.other par) w
      (tree, (tree.heap par).child side.other)
    else (tree, w)
  let tree := (tree.setColour w (tree.heap par).colour).setColour par .black
  let tree := tree.setColour ((tree.heap w).child side.other) .black
  rotate side tree up par

/-- The step of `rb_delete_fixup` that makes the sibling `w` black: the tree, the stack from
`parent[-1]` on and the new sibling. -/
def rbDeleteSibling (side : Side) (tree : Tree α) (parents : List Link) (up : Link)
    (par w : ℕ) : Tree α × List Link × ℕ :=
  if (tree.heap w).colour = .red then
    let tree := rotate side ((tree.setColour w .black).setColour par .red) up par
    (tree, .child side w :: parents, (tree.heap par).child side.other)
  else (tree, parents, w)

def rbDeleteFixupLoop : ℕ → Tree α → List Link → ℕ → Option (ℕ × Tree α)
  | 0, _, _, _ => none
  | fuel + 1, tree, parents, x =>
    if x = tree.root ∨ (tree.heap x).colour ≠ .black then some (x, tree)
    else
      match parents with
      | _ :: up :: rest =>
        let par := tree.getLink up
        let side := if x = (tree.heap par).left then Side.left else Side.right
        let (tree, above, w) :=
          rbDeleteSibling side tree (up :: rest) up par ((tree.heap par).child side.other)
        if (tree.heap ((tree.heap w).child side)).colour = .black ∧
            (tree.heap ((tree.heap w).child side.other)).colour = .black then
          rbDeleteFixupLoop fuel (tree.setColour w .red) above par
        else
          match above with
          | up :: _ =>
            let tree := rbDeleteRotate side tree up par w
            some (tree.root, tree)
          | [] => none
      | _ => none

variable (tree : Tree α)

def rbDeleteFixup (parents : List Link) : Option (Tree α) :=
  match parents with
  | [] => none
  | top :: _ => do
      let (x, tree) ← rbDeleteFixupLoop (parents.length + 1) tree parents (tree.getLink top)
      pure (tree.setColour x .black)

/-! ### Insertion and deletion -/

/-- The search of `tree_insert` and `tree_delete`, from an element on: the element with the
key or `null_element`, and the stack. -/
def treeDescend (compare : α → α → ℤ) (tree : Tree α) (key : α) :
    ℕ → ℕ → List Link → Option (ℕ × List Link)
  | 0, _, _ => none
  | fuel + 1, element, parents =>
    if element = nullElement then some (element, parents)
    else
      let cmp := compare (tree.heap element).key key
      if cmp = 0 then some (element, parents)
      else if cmp < 0 then
        treeDescend compare tree key fuel (tree.heap element).right
          (.child .right element :: parents)
      else
        treeDescend compare tree key fuel (tree.heap element).left (.child .left element :: parents)

def allocSize (keySize : ℕ) : ℕ := (24 + keySize + tree.sizeOfElement) % 2 ^ 32

def chargeAlloc (keySize : ℕ) : Tree α :=
  { tree with allocated := (tree.allocated + allocSize tree keySize) % 2 ^ 64 }

def linkElement (parent : Link) (key : α) : Tree α :=
  let element := tree.next
  let tree := tree.setLink parent element
  { tree with
    heap := update tree.heap element ⟨nullElement, nullElement, 1, .black, key⟩,
    next := element + 1,
    elementsInTree := tree.elementsInTree + 1 }

def addElement (parents : List Link) (key : α) : Option (ℕ × Tree α) :=
  match parents with
  | [] => none
  | top :: _ => do
      let element := tree.next
      let tree ← rbInsert (linkElement tree top key) parents element
      pure (element, tree)

/-- The part of `tree_insert` for an element that has the key: the count has 31 bits. -/
def addDuplicate (element : ℕ) : ℕ × Tree α :=
  if tree.noDups then (0, tree)
  else
    let count := ((tree.heap element).count + 1) % 2 ^ 31
    let count := if count = 0 then 2 ^ 31 - 1 else count
    let counted := { tree.heap element with count := count }
    (element, { tree with heap := update tree.heap element counted })

variable (compare : α → α → ℤ)

def treeInsert (tree : Tree α) (key : α) (keySize : ℕ) : Option (ℕ × Tree α) := do
  let (element, parents) ← treeDescend compare tree key (tree.elementsInTree + 1) tree.root [.root]
  if element = nullElement then
    let tree := chargeAlloc tree keySize
    if tree.memoryLimit ≠ 0 ∧ tree.elementsInTree ≠ 0 ∧ tree.memoryLimit < tree.allocated then
      -- `tree_insert` calls itself on an empty tree, where it does not reset again
      addElement (chargeAlloc (resetTree tree) keySize) [.root] key
    else addElement tree parents key
  else pure (addDuplicate tree element)

/-- The loop of `tree_delete` that looks for the successor: the element and the links that
lead to it. -/
def treeMin (tree : Tree α) : ℕ → ℕ → List Link → Option (ℕ × List Link)
  | 0, _, _ => none
  | fuel + 1, nod, inner =>
    if (tree.heap nod).left = nullElement then some (nod, inner)
    else treeMin tree fuel (tree.heap nod).left (.child .left nod :: inner)

def putInPlace (parent : Link) (nod element : ℕ) : Tree α :=
  let tree := tree.setLink parent nod
  let tree := tree.setChild nod .left (tree.heap element).left
  let tree := tree.setChild nod .right (tree.heap element).right
  tree.setColour nod (tree.heap element).colour

/-- The part of `tree_delete` that unlinks an element with two children: its successor `nod`
takes its place. The result is the colour of `nod`, the stack and the tree. -/
def unlinkInner (top : Link) (parents : List Link) (element : ℕ) :
    Option (Colour × List Link × Tree α) := do
  let (nod, inner) ← treeMin tree (tree.elementsInTree + 1) (tree.heap element).right
    [.child .right element]
  match inner with
  | [] => none
  | last :: _ =>
    let removeColour := (tree.heap nod).colour
    let unlinked := tree.setLink last (tree.heap nod).right
    -- `org_parent[1]` is the last of the links that lead to `nod`
    let inner := inner.dropLast ++ [.child .right nod]
    some (removeColour, inner ++ parents, putInPlace unlinked top nod element)

def unlinkElement (parents : List Link) (element : ℕ) : Option (Colour × List Link × Tree α) :=
  match parents with
  | [] => none
  | top :: _ =>
    if (tree.heap element).left = nullElement then
      some ((tree.heap element).colour, parents, tree.setLink top (tree.heap element).right)
    else if (tree.heap element).right = nullElement then
      some ((tree.heap element).colour, parents, tree.setLink top (tree.heap element).left)
    else unlinkInner tree top parents element

def treeDelete (tree : Tree α) (key : α) (keySize : ℕ) : Option (ℕ × Tree α) :=
  if ¬ tree.withDelete then some (1, tree)
  else do
    let (element, parents) ←
      treeDescend compare tree key (tree.elementsInTree + 1) tree.root [.root]
    if element = nullElement then pure (1, tree)
    else
      let (removeColour, parents, tree) ← unlinkElement tree parents element
      let tree ← (if removeColour = .black then rbDeleteFixup tree parents else some tree)
      pure (0, { tree with
        allocated := (tree.allocated + 2 ^ 64 - (24 + tree.sizeOfElement + keySize) % 2 ^ 64)
          % 2 ^ 64,
        elementsInTree := tree.elementsInTree - 1 })

/-- `tree_walk_left_root_right` and `tree_walk_right_root_left`, from an element on. The
action gets the key, the count and its argument, and stops the walk with an error. -/
def treeWalkFrom {σ : Type} (side : Side) (action : α → ℕ → σ → ℤ × σ) (tree : Tree α) :
    ℕ → ℕ → σ → Option (ℤ × σ)
  | 0, _, _ => none
  | fuel + 1, element, argument =>
    if (tree.heap element).child side ≠ 0 then do
      let (error, argument) ←
        treeWalkFrom side action tree fuel ((tree.heap element).child side) argument
      if error ≠ 0 then pure (error, argument)
      else
        let (error, argument) := action (tree.heap element).key (tree.heap element).count argument
        if error ≠ 0 then pure (error, argument)
        else
          treeWalkFrom side action tree fuel ((tree.heap element).child side.other) argument
    else some (0, argument)

def treeWalk {σ : Type} (tree : Tree α) (action : α → ℕ → σ → ℤ × σ) (argument : σ)
    (visit : Side) : Option (ℤ × σ) :=
  treeWalkFrom visit action tree (tree.elementsInTree + 1) tree.root argument

end LibSources
