import LibSources.Tree

/-!
# The Tree in the Heap

`Represents tree t` says that the links of `tree` form the tree `t`. A position of `t` is a
context and a subtree, and the stack of the source is the list `links` of the links on the way.
Every write of the source replaces the subtree at a position.
-/

namespace LibSources

open Function List LibSources.RBTree

variable {α : Type}

structure Cell (α : Type) where
  addr : ℕ
  key : α
  count : ℕ

def RBTree.addr : RBTree (Cell α) → ℕ
  | .nil => nullElement
  | .node _ _ x _ => x.addr

def RBTree.addrs (t : RBTree (Cell α)) : List ℕ := t.toList.map Cell.addr

def TreeElement.ofSides (side : Side) (near far : ℕ) (c : Colour) (x : Cell α) : TreeElement α :=
  match side with
  | .left => ⟨near, far, x.count, c, x.key⟩
  | .right => ⟨far, near, x.count, c, x.key⟩

def Holds (heap : ℕ → TreeElement α) : RBTree (Cell α) → Prop
  | .nil => True
  | .node c l x r => heap x.addr = ⟨l.addr, r.addr, x.count, c, x.key⟩ ∧ Holds heap l ∧ Holds heap r

def Frame.link (f : Frame (Cell α)) : Link := .child f.side f.data.addr

def links (ctx : List (Frame (Cell α))) : List Link := ctx.map Frame.link ++ [.root]

def topLink : List (Frame (Cell α)) → Link
  | [] => .root
  | f :: _ => f.link

structure Represents (tree : Tree α) (t : RBTree (Cell α)) : Prop where
  root : tree.root = t.addr
  holds : Holds tree.heap t
  nodup : t.addrs.Nodup
  bounds : ∀ a ∈ t.addrs, nullElement < a ∧ a < tree.next
  null_black : (tree.heap nullElement).colour = .black
  null_left : (tree.heap nullElement).left = 0
  null_right : (tree.heap nullElement).right = 0

def Relinks (tree tree' : Tree α) : Prop :=
  tree' = { tree with root := tree'.root, heap := tree'.heap }

theorem Relinks.refl (tree : Tree α) : Relinks tree tree := rfl

theorem Relinks.trans {tree1 tree2 tree3 : Tree α} (h1 : Relinks tree1 tree2)
    (h2 : Relinks tree2 tree3) : Relinks tree1 tree3 := by
  rw [Relinks, h2, h1]

/-! ### Elements and links -/

namespace TreeElement

section

variable (side : Side) (near far : ℕ) (c : Colour) (x : Cell α)

@[simp] theorem child_ofSides : (ofSides side near far c x).child side = near := by
  cases side <;> rfl

@[simp] theorem child_other_ofSides : (ofSides side near far c x).child side.other = far := by
  cases side <;> rfl

@[simp] theorem colour_ofSides : (ofSides side near far c x).colour = c := by
  cases side <;> rfl

@[simp] theorem key_ofSides : (ofSides side near far c x).key = x.key := by
  cases side <;> rfl

@[simp] theorem count_ofSides : (ofSides side near far c x).count = x.count := by
  cases side <;> rfl

end

variable (side : Side)

@[simp] theorem setChild_ofSides (near far near' : ℕ) (c : Colour) (x : Cell α) :
    (ofSides side near far c x).setChild side near' = ofSides side near' far c x := by
  cases side <;> rfl

@[simp] theorem setChild_other_ofSides (near far far' : ℕ) (c : Colour)
    (x : Cell α) : (ofSides side near far c x).setChild side.other far' =
      ofSides side near far' c x := by
  cases side <;> rfl

@[simp] theorem setColour_ofSides (near far : ℕ) (c c' : Colour) (x : Cell α) :
    { ofSides side near far c x with colour := c' } = ofSides side near far c' x := by
  cases side <;> rfl

theorem setChild_child (e : TreeElement α) (side : Side) : e.setChild side (e.child side) = e := by
  cases side <;> rfl

end TreeElement

section

variable (tree : Tree α)

theorem Tree.setLink_getLink (link : Link) : tree.setLink link (tree.getLink link) = tree := by
  cases link with
  | root => rfl
  | child side element =>
    rw [setLink, getLink, setChild, TreeElement.setChild_child, update_eq_self]

theorem Tree.setChild_heap_self (element : ℕ) (side : Side) (value : ℕ) :
    (tree.setChild element side value).heap element = (tree.heap element).setChild side value :=
  update_self ..

variable {a element : ℕ}

theorem Tree.setChild_heap_of_ne (h : a ≠ element) (side : Side)
    (value : ℕ) : (tree.setChild element side value).heap a = tree.heap a :=
  update_of_ne h ..

theorem Tree.setColour_heap_self (element : ℕ) (c : Colour) :
    (tree.setColour element c).heap element = { tree.heap element with colour := c } :=
  update_self ..

theorem Tree.setColour_heap_of_ne (h : a ≠ element) (c : Colour) :
    (tree.setColour element c).heap a = tree.heap a :=
  update_of_ne h ..

end

section

variable {tree tree' : Tree α}

theorem Relinks.setChild (h : Relinks tree tree') (element : ℕ) (side : Side) (value : ℕ) :
    Relinks tree (tree'.setChild element side value) :=
  h.trans rfl

theorem Relinks.setColour (h : Relinks tree tree') (element : ℕ) (c : Colour) :
    Relinks tree (tree'.setColour element c) :=
  h.trans rfl

theorem Relinks.setLink (h : Relinks tree tree') (link : Link) (value : ℕ) :
    Relinks tree (tree'.setLink link value) := by
  cases link <;> exact h.trans rfl

theorem Relinks.rotate (h : Relinks tree tree') (side : Side) (parent : Link) (leaf : ℕ) :
    Relinks tree (rotate side tree' parent leaf) :=
  ((h.setChild _ _ _).setLink _ _).setChild _ _ _

end

/-! ### Addresses -/

section

variable (side : Side) (c : Colour) (x : Cell α) (near far : RBTree (Cell α))

@[simp] theorem RBTree.addr_ofSides : (ofSides side c x near far).addr = x.addr := by
  cases side <;> rfl

@[simp] theorem Frame.addr_fill (f : Frame (Cell α)) (t : RBTree (Cell α)) :
    (f.fill t).addr = f.data.addr :=
  addr_ofSides _ _ _ _ _

theorem RBTree.addrs_ofSides_perm :
    (ofSides side c x near far).addrs.Perm (x.addr :: (near.addrs ++ far.addrs)) := by
  have h := (toList_ofSides_perm side c x near far).map Cell.addr
  rwa [map_cons, map_append] at h

end

section

variable {side : Side} {c : Colour} {x : Cell α} {near far : RBTree (Cell α)}

theorem RBTree.nodup_addrs_ofSides : (ofSides side c x near far).addrs.Nodup ↔
      x.addr ∉ near.addrs ∧ x.addr ∉ far.addrs ∧ near.addrs.Nodup ∧ far.addrs.Nodup ∧
        near.addrs.Disjoint far.addrs := by
  rw [(addrs_ofSides_perm side c x near far).nodup_iff, nodup_cons, mem_append,
    not_or, nodup_append', and_assoc]

theorem RBTree.nodup_addrs_node {c : Colour} {x : Cell α} {l r : RBTree (Cell α)} :
    (node c l x r).addrs.Nodup ↔ x.addr ∉ l.addrs ∧ x.addr ∉ r.addrs ∧ l.addrs.Nodup ∧
      r.addrs.Nodup ∧ l.addrs.Disjoint r.addrs :=
  @nodup_addrs_ofSides _ .left c x l r

theorem RBTree.mem_addrs_ofSides {a : ℕ} :
    a ∈ (ofSides side c x near far).addrs ↔ a = x.addr ∨ a ∈ near.addrs ∨ a ∈ far.addrs := by
  rw [(addrs_ofSides_perm side c x near far).mem_iff, mem_cons, mem_append]

end

theorem RBTree.mem_addrs_node {c : Colour} {x : Cell α} {l r : RBTree (Cell α)} {a : ℕ} :
    a ∈ (node c l x r).addrs ↔ a = x.addr ∨ a ∈ l.addrs ∨ a ∈ r.addrs :=
  @mem_addrs_ofSides _ .left c x l r a

def outsideAddrs (ctx : List (Frame (Cell α))) : List ℕ := (outside ctx).map Cell.addr

theorem addrs_plug_perm (ctx : List (Frame (Cell α))) (t : RBTree (Cell α)) :
    (plug ctx t).addrs.Perm (t.addrs ++ outsideAddrs ctx) := by
  have h := (toList_plug_perm ctx t).map Cell.addr
  rwa [map_append] at h

section

variable {ctx : List (Frame (Cell α))} {t : RBTree (Cell α)}

theorem mem_addrs_plug {a : ℕ} : a ∈ (plug ctx t).addrs ↔ a ∈ t.addrs ∨ a ∈ outsideAddrs ctx := by
  rw [(addrs_plug_perm ctx t).mem_iff, mem_append]

theorem nodup_addrs_plug : (plug ctx t).addrs.Nodup ↔
      t.addrs.Nodup ∧ (outsideAddrs ctx).Nodup ∧ t.addrs.Disjoint (outsideAddrs ctx) := by
  rw [(addrs_plug_perm ctx t).nodup_iff, nodup_append']

theorem mem_outsideAddrs_cons {f : Frame (Cell α)} {ctx : List (Frame (Cell α))} {a : ℕ} :
    a ∈ outsideAddrs (f :: ctx) ↔ a = f.data.addr ∨ a ∈ f.sibling.addrs ∨ a ∈ outsideAddrs ctx := by
  rw [outsideAddrs, outside, map_cons, map_append, mem_cons, mem_append]
  exact Iff.rfl

theorem addr_plug_congr (ctx : List (Frame (Cell α))) {t t' : RBTree (Cell α)}
    (h : t.addr = t'.addr) : (plug ctx t).addr = (plug ctx t').addr := by
  induction ctx generalizing t t' with
  | nil => exact h
  | cons f ctx ih => exact ih (by rw [Frame.addr_fill, Frame.addr_fill])

theorem addr_plug_mem (hne : ctx ≠ []) : (plug ctx t).addr ∈ outsideAddrs ctx := by
  induction ctx generalizing t with
  | nil => exact absurd rfl hne
  | cons f ctx ih =>
    rw [mem_outsideAddrs_cons]
    by_cases hctx : ctx = []
    · subst hctx
      exact .inl (Frame.addr_fill f t)
    · exact .inr (.inr (ih hctx))

end

theorem RBTree.addr_mem_or (t : RBTree (Cell α)) : t.addr ∈ t.addrs ∨ t.addr = nullElement := by
  cases t with
  | nil => exact .inr rfl
  | node c l x r => exact .inl (mem_addrs_node.mpr (.inl rfl))

section

variable (tree : Tree α) {ctx : List (Frame (Cell α))} {e : ℕ} (he : e ∉ outsideAddrs ctx)
include tree he

theorem Tree.setLink_topLink_heap (value : ℕ) :
    (tree.setLink (topLink ctx) value).heap e = tree.heap e := by
  cases ctx with
  | nil => rfl
  | cons f ctx =>
    exact setChild_heap_of_ne _ (fun heq => he (mem_outsideAddrs_cons.mpr (.inl heq))) _ _

theorem Tree.setChild_setLink_topLink (side : Side) (value value' : ℕ) :
    (tree.setLink (topLink ctx) value).setChild e side value' =
      (tree.setChild e side value').setLink (topLink ctx) value := by
  cases ctx with
  | nil => rfl
  | cons f ctx =>
    have hne : e ≠ f.data.addr := fun heq => he (mem_outsideAddrs_cons.mpr (.inl heq))
    simp only [topLink, Frame.link, setLink, setChild, update_of_ne hne,
      update_of_ne hne.symm, update_comm hne.symm]

theorem Tree.setColour_setLink_topLink (value : ℕ) (c : Colour) :
    (tree.setLink (topLink ctx) value).setColour e c =
      (tree.setColour e c).setLink (topLink ctx) value := by
  cases ctx with
  | nil => rfl
  | cons f ctx =>
    have hne : e ≠ f.data.addr := fun heq => he (mem_outsideAddrs_cons.mpr (.inl heq))
    simp only [topLink, Frame.link, setLink, setChild, setColour, update_of_ne hne,
      update_of_ne hne.symm, update_comm hne.symm]

end

/-! ### Trees in the heap -/

theorem holds_ofSides {heap : ℕ → TreeElement α} {side : Side} {c : Colour} {x : Cell α}
    {near far : RBTree (Cell α)} :
    Holds heap (ofSides side c x near far) ↔
      heap x.addr = TreeElement.ofSides side near.addr far.addr c x ∧ Holds heap near ∧
        Holds heap far := by
  cases side with
  | left => exact Iff.rfl
  | right => exact and_congr_right fun _ => and_comm

theorem Holds.congr {heap heap' : ℕ → TreeElement α} {t : RBTree (Cell α)} (h : Holds heap t)
    (heq : ∀ a ∈ t.addrs, heap' a = heap a) : Holds heap' t := by
  induction t with
  | nil => exact trivial
  | node c l x r ihl ihr =>
    refine ⟨?_, ihl h.2.1 fun a ha => heq a (mem_addrs_node.mpr (.inr (.inl ha))),
      ihr h.2.2 fun a ha => heq a (mem_addrs_node.mpr (.inr (.inr ha)))⟩
    rw [heq _ (mem_addrs_node.mpr (.inl rfl))]
    exact h.1

theorem Holds.update {heap : ℕ → TreeElement α} {t : RBTree (Cell α)} (h : Holds heap t) {a : ℕ}
    (ha : a ∉ t.addrs) (e : TreeElement α) : Holds (update heap a e) t :=
  h.congr fun b hb => update_of_ne (fun hba : b = a => ha (hba ▸ hb)) _ _

theorem Holds.of_plug {heap : ℕ → TreeElement α} {ctx : List (Frame (Cell α))}
    {t : RBTree (Cell α)} (h : Holds heap (plug ctx t)) : Holds heap t := by
  induction ctx generalizing t with
  | nil => exact h
  | cons f ctx ih => exact (holds_ofSides.mp (ih h)).2.1

theorem Holds.plug_congr {heap heap' : ℕ → TreeElement α} {ctx : List (Frame (Cell α))}
    {t t' : RBTree (Cell α)} (h : Holds heap (plug ctx t)) (haddr : t'.addr = t.addr)
    (heq : ∀ a ∈ outsideAddrs ctx, heap' a = heap a) (h' : Holds heap' t') :
    Holds heap' (plug ctx t') := by
  induction ctx generalizing t t' with
  | nil => exact h'
  | cons f ctx ih =>
    have hfill := holds_ofSides.mp (@Holds.of_plug _ _ ctx _ h)
    refine ih h (by rw [Frame.addr_fill, Frame.addr_fill])
      (fun a ha => heq a (mem_outsideAddrs_cons.mpr (.inr (.inr ha)))) ?_
    refine holds_ofSides.mpr ⟨?_, h', hfill.2.2.congr fun a ha =>
      heq a (mem_outsideAddrs_cons.mpr (.inr (.inl ha)))⟩
    rw [heq _ (mem_outsideAddrs_cons.mpr (.inl rfl)), hfill.1, haddr]

/-! ### Positions -/

theorem links_eq_cons (ctx : List (Frame (Cell α))) : ∃ rest, links ctx = topLink ctx :: rest := by
  cases ctx with
  | nil => exact ⟨[], rfl⟩
  | cons f ctx => exact ⟨links ctx, rfl⟩

theorem links_cons (f : Frame (Cell α)) (ctx : List (Frame (Cell α))) :
    links (f :: ctx) = f.link :: links ctx := rfl

theorem links_append (inner ctx : List (Frame (Cell α))) :
    links (inner ++ ctx) = inner.map Frame.link ++ links ctx := by
  rw [links, links, map_append, append_assoc]

section

variable {tree : Tree α} {ctx : List (Frame (Cell α))} {t : RBTree (Cell α)}

theorem Represents.heap_eq {side : Side} {c : Colour} {x : Cell α} {near far : RBTree (Cell α)}
    (h : Represents tree (plug ctx (ofSides side c x near far))) :
    tree.heap x.addr = TreeElement.ofSides side near.addr far.addr c x :=
  (holds_ofSides.mp h.holds.of_plug).1

theorem Represents.heap_frame {f : Frame (Cell α)} (h : Represents tree (plug (f :: ctx) t)) :
    tree.heap f.data.addr = TreeElement.ofSides f.side t.addr f.sibling.addr f.colour f.data :=
  @Represents.heap_eq _ tree ctx _ _ _ _ _ h

theorem Represents.colour_addr (h : Represents tree (plug ctx t)) :
    (tree.heap t.addr).colour = t.colour := by
  cases t with
  | nil => exact h.null_black
  | node c l x r => exact congrArg TreeElement.colour (h.holds.of_plug).1

theorem Represents.colour_sibling {f : Frame (Cell α)} (h : Represents tree (plug (f :: ctx) t)) :
    (tree.heap f.sibling.addr).colour = f.sibling.colour := by
  rw [← plug_sibling] at h
  exact h.colour_addr

theorem Represents.getLink_topLink (h : Represents tree (plug ctx t)) :
    tree.getLink (topLink ctx) = t.addr := by
  cases ctx with
  | nil => exact h.root
  | cons f ctx => rw [topLink, Frame.link, Tree.getLink, h.heap_frame, TreeElement.child_ofSides]

theorem Represents.ne_null (h : Represents tree t) {a : ℕ} (ha : a ∈ t.addrs) : a ≠ nullElement :=
  Nat.ne_of_gt (h.bounds a ha).1

theorem Represents.addr_ne_null {c : Colour} {x : Cell α}
    {l r : RBTree (Cell α)} (h : Represents tree (plug ctx (.node c l x r))) :
    x.addr ≠ nullElement :=
  h.ne_null (mem_addrs_plug.mpr (.inl (mem_addrs_node.mpr (.inl rfl))))

theorem Represents.addr_ne_null_of_ne_nil (h : Represents tree (plug ctx t)) (hne : t ≠ .nil) :
    t.addr ≠ nullElement := by
  cases t with
  | nil => exact absurd rfl hne
  | node c l x r => exact h.addr_ne_null

theorem Represents.addr_ne_of_disjoint {t1 t2 : RBTree (Cell α)} (h : Represents tree t)
    (h1 : ∀ a ∈ t1.addrs, a ∈ t.addrs) (hd : t1.addrs.Disjoint t2.addrs)
    (hne : t1 ≠ .nil) : t1.addr ≠ t2.addr := by
  have hmem : t1.addr ∈ t1.addrs := by
    cases t1 with
    | nil => exact absurd rfl hne
    | node c l x r => exact mem_addrs_node.mpr (.inl rfl)
  intro heq
  rcases t2.addr_mem_or with hmem2 | hnull
  · exact hd hmem (heq ▸ hmem2)
  · exact h.ne_null (h1 _ hmem) (heq.trans hnull)

section

variable {f : Frame (Cell α)} (h : Represents tree (plug (f :: ctx) t))
  (hne : t ≠ .nil ∨ f.sibling ≠ .nil)
include h hne

theorem Represents.addr_ne_sibling : t.addr ≠ f.sibling.addr := by
  have hmem : ∀ a, a ∈ t.addrs ∨ a ∈ f.sibling.addrs → a ∈ (plug (f :: ctx) t).addrs := by
    rintro a (ha | ha)
    · exact mem_addrs_plug.mpr (.inl ha)
    · exact mem_addrs_plug.mpr (.inr (mem_outsideAddrs_cons.mpr (.inr (.inl ha))))
  have hdisjoint : t.addrs.Disjoint f.sibling.addrs := fun a ha ha' =>
    (nodup_addrs_plug.mp h.nodup).2.2 ha (mem_outsideAddrs_cons.mpr (.inr (.inl ha')))
  rcases hne with hne | hne
  · exact h.addr_ne_of_disjoint (fun a ha => hmem a (.inl ha)) hdisjoint hne
  · exact (h.addr_ne_of_disjoint (fun a ha => hmem a (.inr ha)) hdisjoint.symm hne).symm

theorem Represents.side_eq :
    (if t.addr = (tree.heap f.data.addr).left then Side.left else Side.right) = f.side := by
  have hsibling := h.addr_ne_sibling hne
  rw [h.heap_frame]
  rcases f with ⟨side, c, x, w⟩
  cases side with
  | left => exact if_pos rfl
  | right => exact if_neg hsibling

end

theorem Represents.addr_eq_root (h : Represents tree (plug ctx t)) :
    t.addr = tree.root ↔ ctx = [] := by
  constructor
  · intro heq
    by_contra hne
    have hroot : tree.root ∈ outsideAddrs ctx := by
      rw [h.root]
      exact addr_plug_mem hne
    have hmem : tree.root ∈ (plug ctx t).addrs := mem_addrs_plug.mpr (.inr hroot)
    rcases t.addr_mem_or with ht | ht
    · exact (nodup_addrs_plug.mp h.nodup).2.2 ht (heq ▸ hroot)
    · exact h.ne_null hmem (heq.symm.trans ht)
  · rintro rfl
    exact h.root.symm

end

/-! ### Writes at a position -/

/-- Another subtree, linked to the position of the old one. The rest of the tree is as it
was. -/
theorem Represents.replace {tree tree' : Tree α} {ctx : List (Frame (Cell α))}
    {t t' : RBTree (Cell α)} (h : Represents tree (plug ctx t)) (hroot : tree'.root = tree.root)
    (hnull : tree'.heap nullElement = tree.heap nullElement) (hnext : tree.next ≤ tree'.next)
    (heap_eq : ∀ a ∈ outsideAddrs ctx, tree'.heap a = tree.heap a) (holds : Holds tree'.heap t')
    (nodup : t'.addrs.Nodup) (disjoint : t'.addrs.Disjoint (outsideAddrs ctx))
    (bounds : ∀ a ∈ t'.addrs, nullElement < a ∧ a < tree'.next) :
    Represents (tree'.setLink (topLink ctx) t'.addr) (plug ctx t') := by
  have hbounds : ∀ a ∈ outsideAddrs ctx, nullElement < a ∧ a < tree'.next := fun a ha =>
    have ⟨h1, h2⟩ := h.bounds a (mem_addrs_plug.mpr (.inr ha))
    ⟨h1, h2.trans_le hnext⟩
  have hnodup : (plug ctx t').addrs.Nodup :=
    nodup_addrs_plug.mpr ⟨nodup, (nodup_addrs_plug.mp h.nodup).2.1, disjoint⟩
  have hbounds' : ∀ a ∈ (plug ctx t').addrs, nullElement < a ∧ a < tree'.next := fun a ha =>
    (mem_addrs_plug.mp ha).elim (bounds a) (hbounds a)
  cases ctx with
  | nil =>
    rw [topLink, Tree.setLink]
    exact ⟨rfl, holds, nodup, bounds, hnull ▸ h.null_black, hnull ▸ h.null_left,
      hnull ▸ h.null_right⟩
  | cons f ctx =>
    have hmem : f.data.addr ∈ outsideAddrs (f :: ctx) := mem_outsideAddrs_cons.mpr (.inl rfl)
    have hne : nullElement ≠ f.data.addr := Nat.ne_of_lt (hbounds _ hmem).1
    have hframe := holds_ofSides.mp (@Holds.of_plug _ _ ctx _ h.holds)
    have houtside := (nodup_addrs_plug.mp h.nodup).2.1
    rw [outsideAddrs, outside, map_cons, nodup_cons, map_append, mem_append, not_or] at houtside
    have hnull' : (tree'.setChild f.data.addr f.side t'.addr).heap nullElement =
        tree.heap nullElement := (Tree.setChild_heap_of_ne _ hne _ _).trans hnull
    rw [topLink, Frame.link, Tree.setLink]
    refine ⟨?_, ?_, hnodup, hbounds', hnull' ▸ h.null_black, hnull' ▸ h.null_left,
      hnull' ▸ h.null_right⟩
    · exact (hroot.trans h.root).trans
        (addr_plug_congr ctx (by rw [Frame.addr_fill, Frame.addr_fill]))
    refine @Holds.plug_congr _ tree.heap _ ctx (f.fill t) (f.fill t') h.holds
      (by rw [Frame.addr_fill, Frame.addr_fill]) ?_ ?_
    · intro a ha
      rw [Tree.setChild_heap_of_ne]
      · exact heap_eq a (mem_outsideAddrs_cons.mpr (.inr (.inr ha)))
      · rintro rfl
        exact houtside.1.2 ha
    · refine holds_ofSides.mpr ⟨?_, holds.update (fun ha => disjoint ha hmem) _, ?_⟩
      · rw [Tree.setChild_heap_self, heap_eq _ hmem, hframe.1, TreeElement.setChild_ofSides]
      · refine Holds.update (hframe.2.2.congr fun a ha => ?_) houtside.1.1 _
        exact heap_eq a (mem_outsideAddrs_cons.mpr (.inr (.inl ha)))

section

variable {tree tree' : Tree α} {ctx : List (Frame (Cell α))} {t t' : RBTree (Cell α)}

section

variable (h : Represents tree (plug ctx t)) (hroot : tree'.root = tree.root)
  (hnext : tree'.next = tree.next) (heap_eq : ∀ a, a ∉ t.addrs → tree'.heap a = tree.heap a)
  (holds : Holds tree'.heap t') (hsub : t'.addrs.Subperm t.addrs)
include h hroot hnext heap_eq holds hsub

/-- The elements of a subtree, some of them left out, in another shape. -/
theorem Represents.rearrange : Represents (tree'.setLink (topLink ctx) t'.addr) (plug ctx t') := by
  obtain ⟨hnodup, -, hdisjoint⟩ := nodup_addrs_plug.mp h.nodup
  have hmem : ∀ a ∈ t.addrs, a ∈ (plug ctx t).addrs := fun a ha => mem_addrs_plug.mpr (.inl ha)
  refine h.replace hroot (heap_eq _ fun ha => ?_) hnext.ge
    (fun a ha => heap_eq a fun hat => hdisjoint hat ha) holds ?_
    (fun a ha => hdisjoint (hsub.subset ha)) fun a ha => ?_
  · exact h.ne_null (hmem _ ha) rfl
  · obtain ⟨l, hperm, hsublist⟩ := hsub
    exact hperm.nodup_iff.mp (hnodup.sublist hsublist)
  · rw [hnext]
    exact h.bounds a (hmem a (hsub.subset ha))

theorem Represents.rearrange_of_addr_eq (haddr : t'.addr = t.addr) :
    Represents tree' (plug ctx t') := by
  have hlink : tree'.getLink (topLink ctx) = t'.addr := by
    rw [haddr, ← h.getLink_topLink]
    cases ctx with
    | nil => exact hroot
    | cons f ctx =>
      have hmem : f.data.addr ∈ outsideAddrs (f :: ctx) := mem_outsideAddrs_cons.mpr (.inl rfl)
      rw [topLink, Frame.link, Tree.getLink, Tree.getLink,
        heap_eq _ fun ha => (nodup_addrs_plug.mp h.nodup).2.2 ha hmem]
  have hrep := h.rearrange hroot hnext heap_eq holds hsub
  rwa [← hlink, Tree.setLink_getLink] at hrep

end

variable {side : Side} {c : Colour} {x : Cell α} {near far : RBTree (Cell α)}

theorem Represents.setColour (h : Represents tree (plug ctx (ofSides side c x near far)))
    (c' : Colour) :
    Represents (tree.setColour x.addr c') (plug ctx (ofSides side c' x near far)) := by
  obtain ⟨hnear, hfar, -⟩ := nodup_addrs_ofSides.mp (nodup_addrs_plug.mp h.nodup).1
  obtain ⟨hx, hnear', hfar'⟩ := holds_ofSides.mp h.holds.of_plug
  refine h.rearrange_of_addr_eq rfl rfl (fun a ha => ?_) ?_ ?_ ?_
  · refine Tree.setColour_heap_of_ne _ ?_ _
    rintro rfl
    exact ha (mem_addrs_ofSides.mpr (.inl rfl))
  · refine holds_ofSides.mpr ⟨?_, hnear'.update hnear _, hfar'.update hfar _⟩
    rw [Tree.setColour_heap_self, hx, TreeElement.setColour_ofSides]
  · exact ((addrs_ofSides_perm _ _ _ _ _).trans (addrs_ofSides_perm _ _ _ _ _).symm).subperm
  · rw [addr_ofSides, addr_ofSides]

theorem Represents.paint (h : Represents tree (plug ctx t)) (hne : t ≠ .nil) (c : Colour) :
    Represents (tree.setColour t.addr c) (plug ctx (t.paint c)) := by
  rcases eq_nil_or_ofSides .left t with rfl | ⟨c', x, near, far, rfl⟩
  · exact absurd rfl hne
  · rw [paint_ofSides, addr_ofSides]
    exact h.setColour c

theorem Represents.paint_black (h : Represents tree (plug ctx t)) :
    Represents (tree.setColour t.addr .black) (plug ctx (t.paint .black)) := by
  cases t with
  | nil =>
    have heq : tree.setColour nullElement .black = tree := by
      have hnull : { tree.heap nullElement with colour := .black } = tree.heap nullElement := by
        rw [← h.null_black]
      rw [Tree.setColour, hnull, update_eq_self]
    rw [RBTree.addr, heq]
    exact h
  | node c l x r => exact h.paint nofun .black

theorem Represents.paint_sibling {f : Frame (Cell α)} (h : Represents tree (plug (f :: ctx) t))
    (hne : f.sibling ≠ .nil) (c : Colour) :
    Represents (tree.setColour f.sibling.addr c)
      (plug (⟨f.side, f.colour, f.data, f.sibling.paint c⟩ :: ctx) t) := by
  rw [← plug_sibling]
  refine Represents.paint ?_ hne c
  rw [plug_sibling]
  exact h

theorem Represents.rotate {c1 c2 : Colour} {y : Cell α} {a b d : RBTree (Cell α)}
    (h : Represents tree (plug ctx (ofSides side c1 x a (ofSides side c2 y b d)))) :
    Represents (rotate side tree (topLink ctx) x.addr)
      (plug ctx (ofSides side c2 y (ofSides side c1 x a b) d)) := by
  obtain ⟨hnodup, -, hdisjoint⟩ := nodup_addrs_plug.mp h.nodup
  obtain ⟨hxa, hxinner, -, hinner, hdisjoint'⟩ := nodup_addrs_ofSides.mp hnodup
  obtain ⟨hyb, hyd, -, -, -⟩ := nodup_addrs_ofSides.mp hinner
  simp only [mem_addrs_ofSides, not_or] at hxinner
  obtain ⟨hxy, hxb, hxd⟩ := hxinner
  have hya : y.addr ∉ a.addrs := fun ha => hdisjoint' ha (mem_addrs_ofSides.mpr (.inl rfl))
  have hyout : y.addr ∉ outsideAddrs ctx := hdisjoint
    (mem_addrs_ofSides.mpr (.inr (.inr (mem_addrs_ofSides.mpr (.inl rfl)))))
  obtain ⟨hx, ha, hrest⟩ := holds_ofSides.mp h.holds.of_plug
  obtain ⟨hy, hb, hd⟩ := holds_ofSides.mp hrest
  -- the write to the link comes last
  have hrotate : LibSources.rotate side tree (topLink ctx) x.addr =
      ((tree.setChild x.addr side.other b.addr).setChild y.addr side x.addr).setLink
        (topLink ctx) y.addr := by
    simp only [LibSources.rotate, hx, TreeElement.child_other_ofSides, addr_ofSides, hy,
      TreeElement.child_ofSides]
    exact Tree.setChild_setLink_topLink _ hyout _ _ _
  rw [hrotate, ← addr_ofSides side c2 y (ofSides side c1 x a b) d]
  refine h.rearrange rfl rfl (fun e he => ?_) ?_ ?_
  · simp only [mem_addrs_ofSides, not_or] at he
    rw [addr_ofSides, Tree.setChild_heap_of_ne _ he.2.2.1, Tree.setChild_heap_of_ne _ he.1]
  · rw [addr_ofSides]
    refine holds_ofSides.mpr ⟨?_, holds_ofSides.mpr ⟨?_, (ha.update hxa _).update hya _,
      (hb.update hxb _).update hyb _⟩, (hd.update hxd _).update hyd _⟩
    · rw [Tree.setChild_heap_self, Tree.setChild_heap_of_ne _ (Ne.symm hxy), hy,
        TreeElement.setChild_ofSides, addr_ofSides]
    · rw [Tree.setChild_heap_of_ne _ hxy, Tree.setChild_heap_self, hx,
        TreeElement.setChild_other_ofSides]
  · rw [addrs, ← toList_rotate side c1 c2]
    exact List.Subperm.refl _

end

end LibSources
