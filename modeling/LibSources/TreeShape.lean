import LibSources.TreeFix

/-!
# The Shape of the Tree

`TreeShape tree t` is the part of the invariant that does not depend on the comparison function:
the links form the balanced tree `t`, and `elements_in_tree` counts its elements. Both calls keep
it whatever the comparison function answers.
-/

namespace LibSources

open Relinks Function List LibSources.RBTree

variable {α : Type}

/-- The links form the balanced tree `t`, whose elements are counted. -/
structure TreeShape (tree : Tree α) (t : RBTree (Cell α)) : Prop where
  represents : Represents tree t
  balanced : ∃ n, Balanced .black n t
  elements : tree.elementsInTree = t.toList.length
  allocator : nullElement < tree.next

section

variable {compare : α → α → ℤ} {key : α} {tree : Tree α}

/-- The search ends at an element with the key or at an empty subtree. What the steps of the
search keep holds of the place where it ends. -/
theorem treeDescend_place {whole t : RBTree (Cell α)} {ctx : List (Frame (Cell α))} {fuel : ℕ}
    {P : List (Frame (Cell α)) → Prop} (h : Represents tree whole) (hwhole : plug ctx t = whole)
    (hright : ∀ ctx c l x r, plug ctx (.node c l x r) = whole → P ctx → compare x.key key < 0 →
      P (⟨.right, c, x, l⟩ :: ctx))
    (hleft : ∀ ctx c l x r, plug ctx (.node c l x r) = whole → P ctx → 0 < compare x.key key →
      P (⟨.left, c, x, r⟩ :: ctx))
    (hctx : P ctx) (hfuel : t.toList.length < fuel) :
    ∃ ctx' t', treeDescend compare tree key fuel t.addr (links ctx) = some (t'.addr, links ctx') ∧
      plug ctx' t' = whole ∧ P ctx' ∧ ∀ c l x r, t' = .node c l x r → compare x.key key = 0 := by
  obtain ⟨fuel, rfl⟩ : ∃ k, fuel = k + 1 := ⟨fuel - 1, by omega⟩
  induction t generalizing ctx fuel with
  | nil => exact ⟨ctx, .nil, if_pos rfl, hwhole, hctx, nofun⟩
  | node c l x r ihl ihr =>
    have hplug : Represents tree (plug ctx (.node c l x r)) := hwhole ▸ h
    have hnode : tree.heap x.addr = ⟨l.addr, r.addr, x.count, c, x.key⟩ := hplug.holds.of_plug.1
    have hne : x.addr ≠ nullElement := hplug.addr_ne_null
    have hlength : l.toList.length + r.toList.length < fuel := by
      rw [toList, length_append, length_cons] at hfuel
      omega
    obtain ⟨fuel, rfl⟩ : ∃ k, fuel = k + 1 := ⟨fuel - 1, by omega⟩
    rw [addr, treeDescend, if_neg hne, hnode]
    by_cases hzero : compare x.key key = 0
    · refine ⟨ctx, .node c l x r, if_pos hzero, hwhole, hctx, fun c' l' x' r' heq => ?_⟩
      cases heq
      exact hzero
    by_cases hlt : compare x.key key < 0
    · rw [if_neg hzero, if_pos hlt]
      exact @ihr (⟨.right, c, x, l⟩ :: ctx) hwhole (hright ctx c l x r hwhole hctx hlt) fuel
        (by omega)
    rw [if_neg hzero, if_neg hlt]
    exact @ihl (⟨.left, c, x, r⟩ :: ctx) hwhole
      (hleft ctx c l x r hwhole hctx (by omega)) fuel (by omega)

theorem TreeShape.treeDescend {t : RBTree (Cell α)} (h : TreeShape tree t)
    (compare : α → α → ℤ) (key : α) :
    ∃ ctx t', treeDescend compare tree key (tree.elementsInTree + 1) tree.root [.root] =
      some (t'.addr, links ctx) ∧ plug ctx t' = t := by
  have hfuel : t.toList.length < tree.elementsInTree + 1 := by
    rw [h.elements]
    omega
  rw [h.represents.root]
  obtain ⟨ctx, t', hdescend, hplug, -⟩ := @treeDescend_place _ compare key tree t t [] _
    (fun _ => True) h.represents rfl (fun _ _ _ _ _ _ _ _ => trivial)
    (fun _ _ _ _ _ _ _ _ => trivial) trivial hfuel
  exact ⟨ctx, t', hdescend, hplug⟩

end

/-! ### Insertion -/

section

variable {tree : Tree α}

theorem Represents.of_eq {tree' : Tree α} {t : RBTree (Cell α)} (h : Represents tree t)
    (hroot : tree'.root = tree.root) (hheap : tree'.heap = tree.heap)
    (hnext : tree'.next = tree.next) : Represents tree' t := by
  obtain ⟨h1, h2, h3, h4, h5, h6, h7⟩ := h
  constructor
  · rw [hroot, h1]
  · rw [hheap]
    exact h2
  · exact h3
  · rw [hnext]
    exact h4
  · rw [hheap, h5]
  · rw [hheap, h6]
  · rw [hheap, h7]

def Tree.flags (tree : Tree α) : ℕ × Bool × Bool := (tree.memoryLimit, tree.withDelete, tree.noDups)

section

variable (tree : Tree α) (link : Link) (value : ℕ)

theorem Tree.setLink_flags : (tree.setLink link value).flags = tree.flags := by
  cases link <;> rfl

theorem Relinks.flags {tree tree' : Tree α} (h : Relinks tree tree') :
    tree'.flags = tree.flags := by
  rw [h]
  rfl

theorem Tree.setLink_elementsInTree :
    (tree.setLink link value).elementsInTree = tree.elementsInTree := by
  cases link <;> rfl

end

theorem Represents.linkElement {ctx : List (Frame (Cell α))} (h : Represents tree (plug ctx .nil))
    (hnext : nullElement < tree.next) (key : α) :
    Represents (linkElement tree (topLink ctx) key)
      (plug ctx (.node .black .nil ⟨tree.next, key, 1⟩ .nil)) := by
  have hfresh : tree.next ∉ outsideAddrs ctx := fun hmem =>
    (h.bounds _ (mem_addrs_plug.mpr (.inr hmem))).2.false
  have hne : ∀ a ∈ outsideAddrs ctx, a ≠ tree.next := fun a ha heq => hfresh (heq ▸ ha)
  have hrep := @Represents.replace _ tree
    { tree with
      heap := update tree.heap tree.next ⟨nullElement, nullElement, 1, .black, key⟩,
      next := tree.next + 1 } ctx .nil (.node .black .nil ⟨tree.next, key, 1⟩ .nil) h rfl
    (update_of_ne hnext.ne _ _) (Nat.le_succ _)
    (fun a ha => update_of_ne (hne a ha) _ _)
    ⟨update_self _ _ _, trivial, trivial⟩ (nodup_singleton _)
    (fun a ha => by rw [mem_singleton.mp ha]; exact hfresh)
    (fun a ha => by rw [mem_singleton.mp ha]; exact ⟨hnext, lt_add_one _⟩)
  cases ctx with
  | nil => exact hrep.of_eq rfl rfl rfl
  | cons f ctx =>
    have hf := hne f.data.addr (mem_outsideAddrs_cons.mpr (.inl rfl))
    refine hrep.of_eq rfl ?_ rfl
    simp only [LibSources.linkElement, topLink, Frame.link, Tree.setLink, Tree.setChild,
      update_of_ne hf, update_comm hf]
    rfl

theorem TreeShape.addElement {ctx : List (Frame (Cell α))} (h : TreeShape tree (plug ctx .nil))
    (key : α) :
    ∃ element tree' t', addElement tree (links ctx) key = some (element, tree') ∧
      TreeShape tree' t' ∧ tree'.flags = tree.flags ∧
      t'.toList = before ctx ++ ⟨tree.next, key, 1⟩ :: after ctx := by
  obtain ⟨rest, hlinks⟩ := links_eq_cons ctx
  obtain ⟨n, hbalanced⟩ := h.balanced
  obtain ⟨c, m, hctxBalanced, hnil⟩ := hbalanced.zoom
  cases hnil
  have hrep := h.represents.linkElement h.allocator key
  obtain ⟨tree', hinsert, hrelinks, hrep'⟩ := rbInsert_spec hrep hctxBalanced
  obtain ⟨c', n', hfix⟩ := hctxBalanced.insertFix (.red ⟨tree.next, key, 1⟩ .nil .nil)
  have hlist : (insertFix ctx (.node .red .nil ⟨tree.next, key, 1⟩ .nil)).toList =
      before ctx ++ ⟨tree.next, key, 1⟩ :: after ctx := by
    rw [toList_insertFix, toList_plug]
    exact append_assoc _ _ _
  refine ⟨tree.next, tree', _, ?_, ⟨hrep', hfix.paint_black, ?_, ?_⟩, ?_, ?_⟩
  · rw [hlinks] at hinsert
    rw [hlinks, LibSources.addElement]
    simp only [hinsert]
    rfl
  · have helements := h.elements
    rw [toList_plug, toList, append_nil, length_append] at helements
    rw [hrelinks, toList_paint, hlist, length_append, length_cons]
    change (tree.setLink _ _).elementsInTree + 1 = _
    rw [Tree.setLink_elementsInTree]
    omega
  · rw [hrelinks]
    exact h.allocator.trans (lt_add_one _)
  · rw [hrelinks.flags]
    exact Tree.setLink_flags tree _ _
  · rw [toList_paint, hlist]

/-- The next value of a count of 31 bits, which does not wrap over. -/
def countUp (count : ℕ) : ℕ := if (count + 1) % 2 ^ 31 = 0 then 2 ^ 31 - 1 else (count + 1) % 2 ^ 31

theorem TreeShape.addDuplicate {ctx : List (Frame (Cell α))} {c : Colour}
    {l r : RBTree (Cell α)} {x : Cell α} (h : TreeShape tree (plug ctx (.node c l x r))) :
    ∃ t', TreeShape (addDuplicate tree x.addr).2 t' ∧
      (addDuplicate tree x.addr).2.flags = tree.flags ∧
      t'.toList.map Cell.key = (plug ctx (.node c l x r)).toList.map Cell.key ∧
      (tree.noDups = false → t'.toList = before ctx ++ (l.toList ++
        { x with count := countUp x.count } :: r.toList) ++ after ctx) := by
  by_cases hdups : tree.noDups
  · rw [LibSources.addDuplicate, if_pos hdups]
    exact ⟨_, h, rfl, rfl, fun hfalse => absurd (hdups.symm.trans hfalse) (by decide)⟩
  rw [LibSources.addDuplicate, if_neg hdups]
  obtain ⟨n, hbalanced⟩ := h.balanced
  obtain ⟨c', m, hctx, hnode⟩ := hbalanced.zoom
  obtain ⟨hheap, hl, hr⟩ := h.represents.holds.of_plug
  obtain ⟨hxl, hxr, -⟩ := nodup_addrs_node.mp (nodup_addrs_plug.mp h.represents.nodup).1
  have hcount : (if ((tree.heap x.addr).count + 1) % 2 ^ 31 = 0 then 2 ^ 31 - 1
      else ((tree.heap x.addr).count + 1) % 2 ^ 31) = countUp x.count := by
    rw [hheap]
    rfl
  dsimp only
  rw [hcount]
  generalize countUp x.count = count
  refine ⟨plug ctx (.node c l ⟨x.addr, x.key, count⟩ r), ⟨?_, ?_, ?_, h.allocator⟩, rfl, ?_,
    fun _ => toList_plug _ _⟩
  · refine h.represents.rearrange_of_addr_eq rfl rfl (fun a ha => update_of_ne ?_ _ _)
      ⟨?_, hl.update hxl _, hr.update hxr _⟩ ?_ rfl
    · rintro rfl
      exact ha (mem_addrs_node.mpr (.inl rfl))
    · dsimp only
      rw [update_self, hheap]
    · rw [addrs, addrs, toList, toList, map_append, map_append]
      exact List.Subperm.refl _
  · cases hnode with
    | red x hl hr => exact ⟨n, hctx.plug (.red _ hl hr)⟩
    | black x hl hr => exact ⟨n, hctx.plug (.black _ hl hr)⟩
  · have helements := h.elements
    simp only [toList_plug, toList, length_append, length_cons] at helements ⊢
    exact helements
  · simp only [toList_plug, toList, map_append, map_cons]

theorem TreeShape.of_eq {tree' : Tree α} {t : RBTree (Cell α)} (h : TreeShape tree t)
    (hroot : tree'.root = tree.root) (hheap : tree'.heap = tree.heap)
    (hnext : tree'.next = tree.next) (helements : tree'.elementsInTree = tree.elementsInTree) :
    TreeShape tree' t :=
  ⟨h.represents.of_eq hroot hheap hnext, h.balanced, helements.trans h.elements,
    hnext ▸ h.allocator⟩

theorem TreeShape.resetTree {t : RBTree (Cell α)} (h : TreeShape tree t) :
    TreeShape (resetTree tree) .nil :=
  ⟨⟨rfl, trivial, nodup_nil, fun _ ha => absurd ha not_mem_nil, h.represents.null_black,
    h.represents.null_left, h.represents.null_right⟩, ⟨0, .nil⟩, rfl, h.allocator⟩

theorem TreeShape.treeInsert {t : RBTree (Cell α)} (h : TreeShape tree t)
    (compare : α → α → ℤ) (key : α) (keySize : ℕ) :
    ∃ element tree' t', treeInsert compare tree key keySize = some (element, tree') ∧
      TreeShape tree' t' := by
  obtain ⟨ctx, t', hdescend, rfl⟩ := h.treeDescend compare key
  simp only [LibSources.treeInsert, hdescend, Option.bind_eq_bind, Option.bind_some]
  cases t' with
  | nil =>
    rw [addr, if_pos rfl]
    split
    case isTrue =>
      obtain ⟨element, tree', t', hadd, hshape, -⟩ := @TreeShape.addElement _ _ []
        (h.resetTree.of_eq rfl rfl rfl rfl :
          TreeShape (chargeAlloc (LibSources.resetTree (chargeAlloc tree keySize)) keySize) .nil)
        key
      exact ⟨element, tree', t', hadd, hshape⟩
    case isFalse =>
      obtain ⟨element, tree', t', hadd, hshape, -⟩ := TreeShape.addElement
        (h.of_eq rfl rfl rfl rfl : TreeShape (chargeAlloc tree keySize) _) key
      exact ⟨element, tree', t', hadd, hshape⟩
  | node c l x r =>
    obtain ⟨t', ht', -⟩ := h.addDuplicate
    rw [addr, if_neg h.represents.addr_ne_null]
    exact ⟨_, _, t', rfl, ht'⟩

end

/-! ### Deletion -/

section

variable {tree : Tree α} {ctx : List (Frame (Cell α))} {c : Colour}
  {x : Cell α} {l r : RBTree (Cell α)}

variable {t : RBTree (Cell α)}

/-- The successor of an element: the first element of its right subtree. -/
theorem treeMin_spec {fuel : ℕ} (h : Represents tree (plug ctx t))
    (hne : t ≠ .nil) (hfuel : t.toList.length ≤ fuel) (base : List Link) :
    ∃ inner c' nod r', treeMin tree fuel t.addr base =
        some (nod.addr, inner.map Frame.link ++ base) ∧
      t = plug inner (.node c' .nil nod r') ∧ t.toList = nod :: (plug inner r').toList := by
  induction t generalizing ctx fuel base with
  | nil => exact absurd rfl hne
  | node c l x r ihl _ =>
    have hnode : tree.heap x.addr = ⟨l.addr, r.addr, x.count, c, x.key⟩ := h.holds.of_plug.1
    rw [toList, length_append, length_cons] at hfuel
    obtain ⟨fuel, rfl⟩ : ∃ k, fuel = k + 1 := ⟨fuel - 1, by omega⟩
    rw [addr, treeMin, hnode]
    cases l with
    | nil => exact ⟨[], c, x, r, if_pos rfl, rfl, rfl⟩
    | node c1 l1 x1 r1 =>
      have hl : Represents tree (plug (⟨.left, c, x, r⟩ :: ctx) (.node c1 l1 x1 r1)) := h
      obtain ⟨inner, c', nod, r', hmin, hplug, hlist⟩ := @ihl (⟨.left, c, x, r⟩ :: ctx) fuel hl
        (by rintro ⟨⟩) (by omega) (.child .left x.addr :: base)
      refine ⟨inner ++ [⟨.left, c, x, r⟩], c', nod, r', ?_, ?_, ?_⟩
      · refine (if_neg hl.addr_ne_null).trans (hmin.trans ?_)
        rw [map_append, append_assoc]
        rfl
      · rw [plug_append, ← hplug]
        rfl
      · rw [toList, hlist, plug_append]
        rfl

theorem Represents.putInPlace (h : Represents tree (plug ctx (.node c l x r))) {y : Cell α}
    (hy : (tree.heap y.addr).key = y.key ∧ (tree.heap y.addr).count = y.count)
    (hfresh : y.addr ∉ (plug ctx (.node c l x r)).addrs)
    (hbounds : nullElement < y.addr ∧ y.addr < tree.next) :
    Represents (putInPlace tree (topLink ctx) y.addr x.addr) (plug ctx (.node c l y r)) := by
  obtain ⟨hnodup, -, hdisjoint⟩ := nodup_addrs_plug.mp h.nodup
  have hxout : x.addr ∉ outsideAddrs ctx := hdisjoint (mem_addrs_node.mpr (.inl rfl))
  rw [mem_addrs_plug, mem_addrs_node, not_or, not_or, not_or] at hfresh
  obtain ⟨⟨hyx, hyl, hyr⟩, hyout⟩ := hfresh
  obtain ⟨hx, hl, hr⟩ := h.holds.of_plug
  obtain ⟨-, -, hlnodup, hrnodup, hlr⟩ := nodup_addrs_node.mp hnodup
  have hx1 : (tree.setLink (topLink ctx) y.addr).heap x.addr =
      ⟨l.addr, r.addr, x.count, c, x.key⟩ := by
    rw [Tree.setLink_topLink_heap _ hxout, hx]
  -- the write to the link comes last
  have heq : LibSources.putInPlace tree (topLink ctx) y.addr x.addr =
      (((tree.setChild y.addr .left l.addr).setChild y.addr .right r.addr).setColour y.addr
        c).setLink (topLink ctx) y.addr := by
    simp only [LibSources.putInPlace, hx1, Tree.setChild_heap_of_ne _ (Ne.symm hyx)]
    rw [Tree.setChild_setLink_topLink _ hyout, Tree.setChild_setLink_topLink _ hyout,
      Tree.setColour_setLink_topLink _ hyout]
  have hheap : ∀ a, a ≠ y.addr → (((tree.setChild y.addr .left l.addr).setChild y.addr .right
      r.addr).setColour y.addr c).heap a = tree.heap a := fun a ha => by
    rw [Tree.setColour_heap_of_ne _ ha, Tree.setChild_heap_of_ne _ ha,
      Tree.setChild_heap_of_ne _ ha]
  rw [heq]
  refine @Represents.replace _ tree _ ctx _ (.node c l y r) h rfl (hheap _ hbounds.1.ne) le_rfl
    (fun a ha => hheap a ?_) ⟨?_, hl.congr fun a ha => hheap a ?_, hr.congr fun a ha => hheap a ?_⟩
    ?_ ?_ ?_
  · rintro rfl
    exact hyout ha
  · rw [Tree.setColour_heap_self, Tree.setChild_heap_self, Tree.setChild_heap_self]
    rw [← hy.1, ← hy.2]
    rfl
  · rintro rfl
    exact hyl ha
  · rintro rfl
    exact hyr ha
  · exact nodup_addrs_node.mpr ⟨hyl, hyr, hlnodup, hrnodup, hlr⟩
  · intro a ha
    rcases mem_addrs_node.mp ha with rfl | ha
    · exact hyout
    · exact hdisjoint (mem_addrs_node.mpr (.inr ha))
  · intro a ha
    rcases mem_addrs_node.mp ha with rfl | ha
    · exact hbounds
    · exact h.bounds a (mem_addrs_plug.mpr (.inl (mem_addrs_node.mpr (.inr ha))))

/-- The removal of an element whose subtree takes its place. -/
theorem Represents.unlink {t t' : RBTree (Cell α)} (h : Represents tree (plug ctx t))
    (holds : Holds tree.heap t') (hsub : t'.addrs.Subperm t.addrs) :
    Represents (tree.setLink (topLink ctx) t'.addr) (plug ctx t') :=
  h.rearrange rfl rfl (fun _ _ => rfl) holds hsub

theorem RBTree.addrs_subperm_node_left : l.addrs.Subperm (node c l x r).addrs := by
  rw [addrs, addrs, toList, map_append]
  exact (sublist_append_left _ _).subperm

theorem RBTree.addrs_subperm_node_right : r.addrs.Subperm (node c l x r).addrs := by
  rw [addrs, addrs, toList, map_append]
  exact ((sublist_cons_self _ _).trans (sublist_append_right _ _)).subperm

theorem unlinkInner_spec (h : Represents tree (plug ctx (.node c l x r))) (hr : r ≠ .nil)
    (hfuel : r.toList.length ≤ tree.elementsInTree + 1) :
    ∃ inner c' nod r' tree', r = plug inner (.node c' .nil nod r') ∧
      r.toList = nod :: (plug inner r').toList ∧
      unlinkInner tree (topLink ctx) (links ctx) x.addr =
        some (c', links (inner ++ ⟨.right, c, nod, l⟩ :: ctx), tree') ∧
      Relinks tree tree' ∧ Represents tree' (plug (inner ++ ⟨.right, c, nod, l⟩ :: ctx) r') := by
  obtain ⟨inner, c', nod, r', hmin, rfl, hlist⟩ := @treeMin_spec _ tree (⟨.right, c, x, l⟩ :: ctx) r
    _ h hr hfuel [.child .right x.addr]
  -- the position of the successor
  have hnod :
      Represents tree (plug (inner ++ ⟨.right, c, x, l⟩ :: ctx) (.node c' .nil nod r')) := by
    rw [plug_append]
    exact h
  have hnode : tree.heap nod.addr = ⟨nullElement, r'.addr, nod.count, c', nod.key⟩ :=
    hnod.holds.of_plug.1
  have hnode' : tree.heap x.addr =
      ⟨l.addr, (plug inner (.node c' .nil nod r')).addr, x.count, c, x.key⟩ := h.holds.of_plug.1
  obtain ⟨⟨-, hnr, -⟩, -, hdisjoint⟩ :=
    (nodup_addrs_plug.mp hnod.nodup).imp_left nodup_addrs_node.mp
  have hout : nod.addr ∉ outsideAddrs (inner ++ ⟨.right, c, x, l⟩ :: ctx) :=
    hdisjoint (mem_addrs_node.mpr (.inl rfl))
  obtain ⟨rest, htop⟩ : ∃ rest, inner.map Frame.link ++ [.child .right x.addr] =
      topLink (inner ++ ⟨.right, c, x, l⟩ :: ctx) :: rest := by
    cases inner with
    | nil => exact ⟨[], rfl⟩
    | cons g inner => exact ⟨_, rfl⟩
  -- without the successor
  have h1 := hnod.unlink hnod.holds.of_plug.2.2 addrs_subperm_node_right
  have hfresh : nod.addr ∉ (plug (inner ++ ⟨.right, c, x, l⟩ :: ctx) r').addrs := by
    rw [mem_addrs_plug, not_or]
    exact ⟨hnr, hout⟩
  have hbounds := hnod.bounds nod.addr (mem_addrs_plug.mpr (.inl (mem_addrs_node.mpr (.inl rfl))))
  rw [plug_append] at h1 hfresh
  have hheap : (tree.setLink (topLink (inner ++ ⟨.right, c, x, l⟩ :: ctx)) r'.addr).heap nod.addr =
      tree.heap nod.addr := Tree.setLink_topLink_heap tree hout _
  -- the successor in the place of the element
  have h2 := @Represents.putInPlace _ _ ctx c x l (plug inner r') h1 nod
    (by rw [hheap, hnode]; exact ⟨rfl, rfl⟩) hfresh
    (by rw [setLink (refl tree)]; exact hbounds)
  have hplug : plug ctx (.node c l nod (plug inner r')) =
      plug (inner ++ ⟨.right, c, nod, l⟩ :: ctx) r' := by
    rw [plug_append]
    rfl
  rw [hplug] at h2
  refine ⟨inner, c', nod, r', _, rfl, hlist, ?_, ?_, h2⟩
  · simp only [unlinkInner, hnode', hmin, Option.bind_eq_bind, Option.bind_some]
    rw [htop]
    simp only [hnode, ← htop, dropLast_concat]
    rw [links_append, links_cons, append_assoc]
    rfl
  · exact ((((refl tree).setLink _ _).setLink _ _).setChild _ _ _).setChild _ _ _
      |>.setColour _ _

theorem unlinkElement_spec {height : ℕ} (h : Represents tree (plug ctx (.node c l x r)))
    (hbalanced : Balanced .black height (plug ctx (.node c l x r)))
    (hfuel : r.toList.length ≤ tree.elementsInTree + 1) :
    ∃ ctx' t' c' tree', unlinkElement tree (links ctx) x.addr = some (c', links ctx', tree') ∧
      Relinks tree tree' ∧ Represents tree' (plug ctx' t') ∧
      (∃ ctx0 t0, plug ctx0 t0 = plug ctx (.node c l x r) ∧ ctx0.length = ctx'.length) ∧
      (plug ctx' t').toList = before ctx ++ (l.toList ++ r.toList) ++ after ctx ∧
      (c' = .red → Balanced .black height (plug ctx' t')) ∧
      (c' = .black → ∃ c'' n, Context.Balanced height c'' (n + 1) ctx' ∧ Lacks n t') := by
  obtain ⟨rest, hlinks⟩ := links_eq_cons ctx
  obtain ⟨hnode, hl, hr⟩ := h.holds.of_plug
  have hleft : (tree.heap x.addr).left = l.addr := by rw [hnode]
  have hright : (tree.heap x.addr).right = r.addr := by rw [hnode]
  have hcolour : (tree.heap x.addr).colour = c := by rw [hnode]
  obtain ⟨c0, n, hctx, hx⟩ := hbalanced.zoom
  by_cases hlnil : l = .nil
  · subst hlnil
    refine ⟨ctx, r, c, _, ?_, (refl tree).setLink _ _,
      h.unlink hr addrs_subperm_node_right, ⟨ctx, _, rfl, rfl⟩, toList_plug _ _,
      @Context.Balanced.remove _ _ _ _ _ .left _ _ _ hctx hx⟩
    rw [hlinks]
    simp only [unlinkElement, hleft, hright, hcolour]
    exact if_pos rfl
  have hlne : l.addr ≠ nullElement :=
    @Represents.addr_ne_null_of_ne_nil _ tree (⟨.left, c, x, r⟩ :: ctx) l h hlnil
  by_cases hrnil : r = .nil
  · subst hrnil
    refine ⟨ctx, l, c, _, ?_, (refl tree).setLink _ _,
      h.unlink hl addrs_subperm_node_left, ⟨ctx, _, rfl, rfl⟩, ?_,
      @Context.Balanced.remove _ _ _ _ _ .right _ _ _ hctx hx⟩
    · rw [hlinks]
      simp only [unlinkElement, hleft, hright, hcolour, if_neg hlne]
      exact if_pos rfl
    · rw [toList_plug, toList, append_nil]
  have hrne : r.addr ≠ nullElement :=
    @Represents.addr_ne_null_of_ne_nil _ tree (⟨.right, c, x, l⟩ :: ctx) r h hrnil
  obtain ⟨inner, c', nod, r', tree', rfl, hlist, hunlink, hrelinks, hrep⟩ :=
    unlinkInner_spec h hrnil hfuel
  -- the place of the successor in the old tree
  have hplug : plug ctx (.node c l x (plug inner (.node c' .nil nod r'))) =
      plug (inner ++ ⟨.right, c, x, l⟩ :: ctx) (.node c' .nil nod r') := by
    rw [plug_append]
    rfl
  rw [hplug] at hbalanced
  obtain ⟨c1, n1, hctx1, hnod⟩ := hbalanced.zoom
  refine ⟨inner ++ ⟨.right, c, nod, l⟩ :: ctx, r', c', tree', ?_, hrelinks, hrep,
    ⟨inner ++ ⟨.right, c, x, l⟩ :: ctx, _, hplug.symm, by simp only [length_append,
      length_cons]⟩, ?_,
    @Context.Balanced.remove _ _ _ _ _ .left _ _ _ (hctx1.change_data nod) hnod⟩
  · rw [hlinks] at hunlink ⊢
    simp only [unlinkElement, hleft, hright, if_neg hlne, if_neg hrne]
    exact hunlink
  · rw [plug_append, hlist]
    exact toList_plug ctx (.node c l nod (plug inner r'))

theorem TreeShape.deleteElement (h : TreeShape tree (plug ctx (.node c l x r))) :
    ∃ (c' : Colour) (ctx' : List (Frame (Cell α))) (tree1 tree2 : Tree α) (t2 : RBTree (Cell α)),
      unlinkElement tree (links ctx) x.addr = some (c', links ctx', tree1) ∧
      (if c' = .black then rbDeleteFixup tree1 (links ctx') else some tree1) = some tree2 ∧
      (∃ ctx0 t0, plug ctx0 t0 = plug ctx (.node c l x r) ∧ ctx0.length = ctx'.length) ∧
      Relinks tree tree2 ∧ Represents tree2 t2 ∧ (∃ n, Balanced .black n t2) ∧
      t2.toList = before ctx ++ (l.toList ++ r.toList) ++ after ctx := by
  obtain ⟨height, hbalanced⟩ := h.balanced
  have helements := h.elements
  rw [toList_plug, toList] at helements
  simp only [length_append, length_cons] at helements
  obtain ⟨ctx', t', c', tree1, hunlink, hrelinks, hrep, hplace, hlist, hred, hblack⟩ :=
    unlinkElement_spec h.represents hbalanced (by omega)
  -- both colours end in a balanced tree with the same elements
  cases c' with
  | red =>
    exact ⟨.red, ctx', tree1, tree1, _, hunlink, if_neg Colour.noConfusion, hplace, hrelinks,
      hrep, ⟨_, hred rfl⟩, hlist⟩
  | black =>
    obtain ⟨c'', n, hctx', ht'⟩ := hblack rfl
    obtain ⟨tree2, hfixup, hrelinks2, hrep2⟩ := rbDeleteFixup_spec hrep hctx' ht'
    exact ⟨.black, ctx', tree1, tree2, _, hunlink, (if_pos rfl).trans hfixup, hplace,
      hrelinks.trans hrelinks2, hrep2, hctx'.deleteFix ht', (toList_deleteFix _ _).trans hlist⟩

theorem TreeShape.treeDelete_found (h : TreeShape tree (plug ctx (.node c l x r)))
    {compare : α → α → ℤ} {key : α} (hallowed : tree.withDelete)
    (hdescend : LibSources.treeDescend compare tree key (tree.elementsInTree + 1) tree.root
      [.root] = some (x.addr, links ctx)) (keySize : ℕ) :
    ∃ tree' t', treeDelete compare tree key keySize = some (0, tree') ∧ TreeShape tree' t' ∧
      tree'.flags = tree.flags ∧
      t'.toList = before ctx ++ (l.toList ++ r.toList) ++ after ctx := by
  obtain ⟨c', ctx', tree1, tree2, t2, hunlink, hfix, -, hrelinks, hrep, hbalanced, hlist⟩ :=
    h.deleteElement
  rw [LibSources.treeDelete, if_neg (not_not.mpr hallowed)]
  simp only [hdescend, hunlink, hfix, Option.bind_eq_bind, Option.bind_some,
    if_neg h.represents.addr_ne_null]
  refine ⟨_, t2, rfl, ⟨hrep.of_eq rfl rfl rfl, hbalanced, ?_, ?_⟩, hrelinks.flags, hlist⟩
  · have helements := h.elements
    rw [toList_plug, toList] at helements
    rw [hrelinks, hlist]
    simp only [length_append, length_cons] at helements ⊢
    omega
  · rw [hrelinks]
    exact h.allocator

theorem TreeShape.treeDelete (h : TreeShape tree t) (compare : α → α → ℤ) (key : α) (keySize : ℕ) :
    ∃ error tree' t', treeDelete compare tree key keySize = some (error, tree') ∧
      TreeShape tree' t' := by
  by_cases hallowed : tree.withDelete
  swap
  · exact ⟨1, tree, t, if_pos hallowed, h⟩
  obtain ⟨ctx, t', hdescend, rfl⟩ := h.treeDescend compare key
  cases t' with
  | nil =>
    refine ⟨1, tree, _, ?_, h⟩
    rw [LibSources.treeDelete, if_neg (not_not.mpr hallowed), hdescend]
    rfl
  | node c l x r =>
    obtain ⟨tree', t', hdelete, hshape, -⟩ := h.treeDelete_found hallowed hdescend keySize
    exact ⟨0, tree', t', hdelete, hshape⟩

end

end LibSources
