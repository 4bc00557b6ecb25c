import LibSources.TreeHeap

/-!
# Rebalancing in the Heap

The loops of `rb_insert` and `rb_delete_fixup` do on the links what `insertFix` and `deleteFix` do
on trees. The stack of the source is always the list of the links to the position.
-/

namespace LibSources

open Relinks List LibSources.RBTree

variable {α : Type} {tree : Tree α} {ctx : List (Frame (Cell α))} {t : RBTree (Cell α)}

/-! ### After an insertion -/

variable {f g : Frame (Cell α)} {c : Colour} {z x w : Cell α} {n height fuel : ℕ} {side : Side}
  {far near : RBTree (Cell α)}

theorem rbInsertLoop_black (h : Represents tree (plug (f :: ctx) t)) (hf : f.colour = .black)
    (fuel : ℕ) : rbInsertLoop (fuel + 1) tree (links (f :: ctx)) t.addr = some tree := by
  obtain ⟨rest, hlinks⟩ := links_eq_cons ctx
  have hroot : t.addr ≠ tree.root := fun heq => cons_ne_nil _ _ (h.addr_eq_root.mp heq)
  have hpar : tree.getLink (topLink ctx) = f.data.addr :=
    (@Represents.getLink_topLink _ tree ctx _ h).trans (f.addr_fill t)
  rw [links_cons, hlinks, rbInsertLoop, if_neg hroot]
  simp only [hpar, h.heap_frame, TreeElement.colour_ofSides, hf]
  rfl

theorem rbInsertLoop_red (h : Represents tree (plug (f :: g :: ctx) t)) (hf : f.colour = .red)
    (fuel : ℕ) :
    rbInsertLoop (fuel + 1) tree (links (f :: g :: ctx)) t.addr = if g.sibling.colour = .red then
        rbInsertLoop fuel (((tree.setColour f.data.addr .black).setColour g.sibling.addr
          .black).setColour g.data.addr .red) (links ctx) g.data.addr
      else some (rbInsertRotate g.side tree (topLink (g :: ctx)) (topLink ctx) t.addr f.data.addr
        g.data.addr) := by
  obtain ⟨rest, hlinks⟩ := links_eq_cons ctx
  have hroot : t.addr ≠ tree.root := fun heq => cons_ne_nil _ _ (h.addr_eq_root.mp heq)
  have h1 : Represents tree (plug (g :: ctx) (f.fill t)) := h
  have h2 : Represents tree (plug ctx (g.fill (f.fill t))) := h
  have hpar : tree.getLink (topLink (g :: ctx)) = f.data.addr := h1.getLink_topLink.trans
    (f.addr_fill t)
  have hpar2 : tree.getLink (topLink ctx) = g.data.addr := h2.getLink_topLink.trans (g.addr_fill _)
  have hside : (if f.data.addr = (tree.heap g.data.addr).left then Side.left else Side.right) =
      g.side := by
    rw [← f.addr_fill t]
    exact h1.side_eq (.inl (f.fill_ne_nil t))
  rw [links_cons, links_cons, hlinks, rbInsertLoop, if_neg hroot]
  rw [topLink] at hpar
  simp only [hpar, hpar2, hside, h.heap_frame, TreeElement.colour_ofSides, hf, ne_eq,
    not_true_eq_false, if_false]
  rw [h1.heap_frame, TreeElement.child_other_ofSides, h1.colour_sibling]
  rfl

theorem Represents.insert_rotate {a b : RBTree (Cell α)}
    (h : Represents tree (plug (g :: ctx) (ofSides g.side c z a b))) :
    Represents (LibSources.rotate g.side.other ((tree.setColour z.addr .black).setColour
        g.data.addr .red) (topLink ctx) g.data.addr)
      (plug ctx (ofSides g.side .black z a (ofSides g.side .red g.data b g.sibling))) := by
  have h1 : Represents (tree.setColour z.addr .black)
      (plug ctx (ofSides g.side g.colour g.data (ofSides g.side .black z a b) g.sibling)) :=
    h.setColour .black
  have h2 := h1.setColour .red
  rw [← ofSides_other, ← ofSides_other g.side .black] at h2
  have h3 := h2.rotate
  rwa [ofSides_other, ofSides_other] at h3

theorem rbInsertRotate_spec (h : Represents tree (plug (f :: g :: ctx) t)) (ht : Balanced .red n t)
    (hf : f.colour ≠ .black) (hu : g.sibling.colour ≠ .red) :
    Represents (rbInsertRotate g.side tree (topLink (g :: ctx)) (topLink ctx) t.addr f.data.addr
      g.data.addr) (insertFix (f :: g :: ctx) t) := by
  obtain ⟨z, near, far, rfl, -, -⟩ := ht.exists_red g.side
  rw [insertFix, if_neg hf, if_neg hu]
  have hsibling := h.addr_ne_sibling (.inl (ofSides_ne_nil _ _ _ _ _))
  have hpar := h.heap_frame
  by_cases hside : f.side = g.side
  · rw [hside] at hpar
    rw [if_pos hside, rbInsertRotate, hpar, TreeElement.child_other_ofSides, if_neg hsibling]
    have h1 : Represents tree
        (plug (g :: ctx) (ofSides f.side f.colour f.data (ofSides g.side .red z near far)
          f.sibling)) := h
    rw [hside] at h1
    exact h1.insert_rotate
  have hother := Side.eq_other hside
  have hchild : (tree.heap f.data.addr).child g.side.other =
      (ofSides g.side .red z near far).addr := by
    rw [hpar, hother, TreeElement.child_ofSides]
  rw [if_neg hside, rbInsertRotate, hchild, if_pos rfl, addr_ofSides, rotateInner_ofSides]
  have h1 : Represents tree
      (plug (g :: ctx) (ofSides f.side f.colour f.data (ofSides g.side .red z near far)
        f.sibling)) := h
  rw [hother, ofSides_other, Colour.eq_red hf] at h1
  exact h1.rotate.insert_rotate

theorem Relinks.rbInsertRotate (side : Side) (tree : Tree α) (up up2 : Link)
    (leaf par par2 : ℕ) : Relinks tree (rbInsertRotate side tree up up2 leaf par par2) := by
  by_cases h : leaf = (tree.heap par).child side.other
  · rw [LibSources.rbInsertRotate, if_pos h]
    exact ((((refl tree).rotate _ _ _).setColour _ _).setColour _ _).rotate _ _ _
  · rw [LibSources.rbInsertRotate, if_neg h]
    exact (((refl tree).setColour _ _).setColour _ _).rotate _ _ _

theorem rbInsertLoop_spec (h : Represents tree (plug ctx t))
    (hctx : Context.Balanced height c n ctx) (ht : Balanced .red n t) (hfuel : ctx.length < fuel) :
    ∃ tree', rbInsertLoop fuel tree (links ctx) t.addr = some tree' ∧ Relinks tree tree' ∧
      Represents tree' (insertFix ctx t) := by
  obtain ⟨fuel, rfl⟩ : ∃ k, fuel = k + 1 := ⟨fuel - 1, by omega⟩
  induction ctx, t using insertFix.induct generalizing tree c n fuel with
  | case1 t => exact ⟨tree, if_pos h.root.symm, refl _, h⟩
  | case2 f t =>
    -- the root is black
    cases hctx with
    | red _ _ hroot => cases hroot
    | black hf _ _ => exact ⟨tree, rbInsertLoop_black h hf fuel, refl _, h⟩
  | case3 f g ctx t hf =>
    rw [insertFix, if_pos hf]
    exact ⟨tree, rbInsertLoop_black h hf fuel, refl _, h⟩
  | case4 f g ctx t hf hu ih =>
    obtain ⟨hw, hsibling, hrest⟩ := hctx.of_not_black hf
    rw [hu] at hsibling
    have hne : g.sibling ≠ .nil := by
      intro hnil
      rw [hnil] at hu
      exact Colour.noConfusion hu
    have h1 : Represents (tree.setColour f.data.addr .black)
        (plug (g :: ctx) (ofSides f.side .black f.data t f.sibling)) :=
      @Represents.setColour _ tree (g :: ctx) _ _ _ _ _ h .black
    have h2 := h1.paint_sibling hne .black
    have h3 := @Represents.setColour _ _ ctx _ _ _ _ _ h2 .red
    rw [rbInsertLoop_red h (Colour.eq_red hf), if_pos hu, insertFix, if_neg hf, if_pos hu]
    obtain ⟨k, rfl⟩ : ∃ k, fuel = k + 1 := ⟨fuel - 1, by simp only [length_cons] at hfuel; omega⟩
    have hspec := ih h3 hrest (.ofSides_red _ _ (.ofSides_black _ _ ht hw) hsibling.paint_red) k
      (by simp only [length_cons] at hfuel; omega)
    rwa [addr_ofSides] at hspec
  | case5 f g ctx t hf hu _ | case6 f g ctx t hf hu _ =>
    rw [rbInsertLoop_red h (Colour.eq_red hf), if_neg hu]
    exact ⟨_, rfl, Relinks.rbInsertRotate .., rbInsertRotate_spec h ht hf hu⟩

theorem rbInsert_spec (h : Represents tree (plug ctx (.node .black .nil x .nil)))
    (hctx : Context.Balanced height c 0 ctx) :
    ∃ tree', rbInsert tree (links ctx) x.addr = some tree' ∧ Relinks tree tree' ∧
      Represents tree' ((insertFix ctx (.node .red .nil x .nil)).paint .black) := by
  have h1 : Represents (tree.setColour x.addr .red) (plug ctx (.node .red .nil x .nil)) :=
    @Represents.setColour _ tree ctx .left _ x .nil .nil h .red
  have hfuel : ctx.length < (links ctx).length + 1 := by
    rw [links, length_append, length_map]
    omega
  obtain ⟨tree', hloop, hrelinks, hrep⟩ := rbInsertLoop_spec h1 hctx (.red x .nil .nil) hfuel
  have hblack := @Represents.paint_black _ tree' [] _ hrep
  refine ⟨tree'.setColour tree'.root .black, ?_, setColour hrelinks _ _, ?_⟩
  · rw [RBTree.addr] at hloop
    rw [rbInsert, hloop]
    rfl
  · rwa [← hrep.root] at hblack

/-! ### After a deletion -/

theorem Represents.delete_rotate {c' : Colour}
    (h : Represents tree (plug (⟨side, c, x, ofSides side c' w near far⟩ :: ctx) t))
    (hfar : far ≠ .nil) :
    let tree1 := (tree.setColour w.addr (tree.heap x.addr).colour).setColour x.addr .black
    Represents (LibSources.rotate side
        (tree1.setColour ((tree1.heap w.addr).child side.other) .black) (topLink ctx) x.addr)
      (plug ctx (ofSides side c w (ofSides side .black x t near) (far.paint .black))) := by
  have hcolour : (tree.heap x.addr).colour = c := by rw [h.heap_frame, TreeElement.colour_ofSides]
  have h1 := h.paint_sibling (ofSides_ne_nil _ _ _ _ _) c
  rw [paint_ofSides, addr_ofSides] at h1
  have h2 := @Represents.setColour _ _ ctx _ _ _ _ _ h1 .black
  -- focus on the child of the sibling
  have h3 : Represents ((tree.setColour w.addr c).setColour x.addr .black)
      (plug (⟨side, c, w, far⟩ :: ⟨side.other, .black, x, t⟩ :: ctx) near) := by
    rw [plug, plug_sibling]
    exact h2
  have h4 := h3.paint_sibling hfar .black
  rw [plug, plug_sibling] at h4
  have hchild : (((tree.setColour w.addr c).setColour x.addr .black).heap w.addr).child
      side.other = far.addr := by
    rw [h3.heap_frame, TreeElement.child_other_ofSides]
  intro tree1
  have htree1 : tree1 = (tree.setColour w.addr c).setColour x.addr .black := by rw [← hcolour]
  rw [htree1, hchild]
  exact @Represents.rotate _ _ ctx side x _ _ w t near _ h4

theorem Represents.delete_rotate_inner {c' c'' : Colour} {a b : RBTree (Cell α)}
    (h : Represents tree
      (plug (⟨side, c, x, ofSides side c' w (ofSides side c'' z a b) far⟩ :: ctx) t)) :
    Represents (LibSources.rotate side.other ((tree.setColour z.addr .black).setColour w.addr .red)
        (.child side.other x.addr) w.addr)
      (plug (⟨side, c, x, ofSides side .black z a (ofSides side .red w b far)⟩ :: ctx) t) := by
  have h1 : Represents tree (plug (⟨side, c', w, far⟩ :: ⟨side.other, c, x, t⟩ :: ctx)
      (ofSides side c'' z a b)) := by
    rw [plug, plug_sibling]
    exact h
  have h2 := @Represents.setColour _ _ (⟨side.other, c, x, t⟩ :: ctx) _ _ _ _ _
    (h1.setColour .black) .red
  simp only [← ofSides_other side] at h2
  have h3 := h2.rotate
  simp only [ofSides_other side] at h3
  rwa [plug_sibling] at h3

theorem rbDeleteRotate_spec (h : Represents tree (plug (f :: ctx) t)) (hw : f.sibling ≠ .nil)
    (hred : ¬ BlackChildren f.sibling) :
    Represents (rbDeleteRotate f.side tree (topLink ctx) f.data.addr f.sibling.addr)
      (plug ctx (restructure f.side f.colour f.data t f.sibling)) := by
  rcases f with ⟨side, c, x, w⟩
  obtain ⟨c', w, near, far, rfl⟩ := (eq_nil_or_ofSides side w).resolve_left hw
  rw [blackChildren_ofSides] at hred
  -- focus on the children of the sibling
  have hfar : Represents tree (plug (⟨side, c', w, far⟩ :: ⟨side.other, c, x, t⟩ :: ctx) near) := by
    rw [plug, plug_sibling]
    exact h
  have hheap : (tree.heap w.addr).child side.other = far.addr ∧
      (tree.heap w.addr).child side = near.addr := by
    rw [hfar.heap_frame]
    exact ⟨TreeElement.child_other_ofSides .., TreeElement.child_ofSides ..⟩
  rw [rbDeleteRotate]
  simp only [addr_ofSides, hheap.1, hheap.2, hfar.colour_sibling]
  by_cases hblack : far.colour = .black
  · have hnear : near.colour ≠ .black := fun h => hred ⟨h, hblack⟩
    rcases eq_nil_or_ofSides side near with rfl | ⟨c2, z, a, b, rfl⟩
    · exact absurd rfl hnear
    rw [if_pos hblack, restructure_near _ _ _ _ _ _ _ _ _ _ hblack]
    have h1 := h.delete_rotate_inner
    have hz := congrArg (TreeElement.child · side.other) h1.heap_frame
    simp only [TreeElement.child_other_ofSides, addr_ofSides] at hz
    have h2 := h1.delete_rotate (ofSides_ne_nil _ _ _ _ _)
    rw [paint_ofSides] at h2
    simp only [addr_ofSides, hz]
    exact h2
  · have hne : far ≠ .nil := by
      rintro rfl
      exact hblack rfl
    rw [if_neg hblack, restructure_far _ _ _ _ _ _ _ hblack]
    exact h.delete_rotate hne

theorem Relinks.rbDeleteRotate (side : Side) (tree : Tree α) (up : Link) (par w : ℕ) :
    Relinks tree (rbDeleteRotate side tree up par w) := by
  by_cases h : (tree.heap ((tree.heap w).child side.other)).colour = .black
  · rw [LibSources.rbDeleteRotate, if_pos h]
    exact ((((((refl tree).setColour _ _).setColour _ _).rotate _ _ _).setColour _ _
      |>.setColour _ _).setColour _ _).rotate _ _ _
  · rw [LibSources.rbDeleteRotate, if_neg h]
    exact ((((refl tree).setColour _ _).setColour _ _).setColour _ _).rotate _ _ _

theorem rbDeleteFixupLoop_round {tree' : Tree α} {f' : Frame (Cell α)}
    {ctx' : List (Frame (Cell α))} (h : Represents tree (plug (f :: ctx) t))
    (ht : t.colour = .black) (hw : f.sibling ≠ .nil)
    (hsibling : rbDeleteSibling f.side tree (links ctx) (topLink ctx) f.data.addr f.sibling.addr =
      (tree', links ctx', f'.sibling.addr)) (h' : Represents tree' (plug (f' :: ctx') t))
    (hside : f'.side = f.side) (hdata : f'.data = f.data) (hw' : f'.sibling ≠ .nil) (fuel : ℕ) :
    rbDeleteFixupLoop (fuel + 1) tree (links (f :: ctx)) t.addr = if BlackChildren f'.sibling then
        rbDeleteFixupLoop fuel (tree'.setColour f'.sibling.addr .red) (links ctx') f.data.addr
      else
        let tree'' := rbDeleteRotate f'.side tree' (topLink ctx') f'.data.addr f'.sibling.addr
        some (tree''.root, tree'') := by
  obtain ⟨rest, hlinks⟩ := links_eq_cons ctx
  obtain ⟨rest', hlinks'⟩ := links_eq_cons ctx'
  have hstop : ¬ (t.addr = tree.root ∨ (tree.heap t.addr).colour ≠ .black) := by
    rw [h.addr_eq_root, h.colour_addr, ht]
    simp
  have hpar : tree.getLink (topLink ctx) = f.data.addr :=
    (@Represents.getLink_topLink _ tree ctx _ h).trans (f.addr_fill t)
  have hchild : (tree.heap f.data.addr).child f.side.other = f.sibling.addr := by
    rw [h.heap_frame, TreeElement.child_other_ofSides]
  -- the colours of the children of the sibling
  have hchildren : ((tree'.heap ((tree'.heap f'.sibling.addr).child f.side)).colour = .black ∧
      (tree'.heap ((tree'.heap f'.sibling.addr).child f.side.other)).colour = .black) ↔
      BlackChildren f'.sibling := by
    rcases f' with ⟨side, c, x, w⟩
    obtain ⟨c', w, near, far, rfl⟩ := (eq_nil_or_ofSides side w).resolve_left hw'
    subst hside
    have hnear : Represents tree'
        (plug (⟨f.side, c', w, far⟩ :: ⟨f.side.other, c, x, t⟩ :: ctx') near) := by
      rw [plug, plug_sibling]
      exact h'
    simp only [addr_ofSides]
    rw [hnear.heap_frame]
    simp only [TreeElement.child_ofSides, TreeElement.child_other_ofSides]
    rw [hnear.colour_addr, hnear.colour_sibling, blackChildren_ofSides]
  rw [hlinks] at hsibling
  rw [links_cons, hlinks, rbDeleteFixupLoop, if_neg hstop]
  simp only [hpar, h.side_eq (.inr hw), hchild, hsibling, hchildren]
  simp only [hlinks', hside, hdata]

theorem rbDeleteSibling_red
    (h : Represents tree (plug (⟨side, c, x, ofSides side .red w near far⟩ :: ctx) t)) :
    ∃ tree', rbDeleteSibling side tree (links ctx) (topLink ctx) x.addr w.addr =
        (tree', links (⟨side, .black, w, far⟩ :: ctx), near.addr) ∧ Relinks tree tree' ∧
      Represents tree' (plug (⟨side, .red, x, near⟩ :: ⟨side, .black, w, far⟩ :: ctx) t) := by
  have hw : (tree.heap w.addr).colour = .red := by
    have hcolour := h.colour_sibling
    rwa [addr_ofSides, colour_ofSides] at hcolour
  have h1 := h.paint_sibling (ofSides_ne_nil _ _ _ _ _) .black
  rw [paint_ofSides, addr_ofSides] at h1
  have h2 := @Represents.setColour _ _ ctx _ _ _ _ _ h1 .red
  have h3 := @Represents.rotate _ _ ctx _ _ _ _ _ _ _ _ h2
  have hnear := congrArg (TreeElement.child · side.other)
    (@Represents.heap_frame _ _ (⟨side, .black, w, far⟩ :: ctx) t ⟨side, .red, x, near⟩ h3)
  simp only [TreeElement.child_other_ofSides] at hnear
  refine ⟨_, ?_, ((((Relinks.refl tree).setColour _ _).setColour _ _).rotate side (topLink ctx)
    x.addr), h3⟩
  rw [rbDeleteSibling, if_pos hw]
  simp only [hnear]
  rfl

theorem rbDeleteFixupLoop_stop (h : Represents tree (plug ctx t))
    (hstop : ctx = [] ∨ t.colour = .red) (fuel : ℕ) (parents : List Link) :
    rbDeleteFixupLoop (fuel + 1) tree parents t.addr = some (t.addr, tree) := by
  have hcond : t.addr = tree.root ∨ (tree.heap t.addr).colour ≠ .black := by
    rw [h.addr_eq_root, h.colour_addr]
    refine hstop.imp_right fun hred => ?_
    rw [hred]
    exact Colour.noConfusion
  exact if_pos hcond

theorem rbDeleteFixupLoop_red (h : Represents tree (plug (f :: ctx) t)) (ht : t.colour = .black)
    (hw : Balanced .red (n + 1) f.sibling) (fuel : ℕ) :
    ∃ x tree', rbDeleteFixupLoop (fuel + 2) tree (links (f :: ctx)) t.addr = some (x, tree') ∧
      Relinks tree tree' ∧ Represents (tree'.setColour x .black) (deleteRed ctx f t) := by
  rcases f with ⟨side, c, x, w⟩
  obtain ⟨w, near, far, rfl, hnear, -⟩ := hw.exists_red side
  have hne : near ≠ .nil := by
    rintro rfl
    cases hnear
  obtain ⟨tree1, hsibling, hrelinks, h1⟩ := rbDeleteSibling_red h
  have hround := rbDeleteFixupLoop_round h ht (ofSides_ne_nil _ _ _ _ _)
    (by rw [addr_ofSides]; exact hsibling) h1 rfl rfl hne (fuel + 1)
  rw [hround, deleteRed_ofSides]
  by_cases hchildren : BlackChildren near
  · have h2 := h1.paint_sibling hne .red
    rw [if_pos hchildren, if_pos hchildren]
    refine ⟨x.addr, _, ?_, hrelinks.setColour _ _,
      @Represents.setColour _ _ (⟨side, .black, w, far⟩ :: ctx) _ _ _ _ _ h2 .black⟩
    have hstop := @rbDeleteFixupLoop_stop _ _ (⟨side, .black, w, far⟩ :: ctx) _ h2
      (.inr (colour_ofSides _ _ _ _ _)) fuel (links (⟨side, .black, w, far⟩ :: ctx))
    rwa [Frame.addr_fill] at hstop
  · have h2 := rbDeleteRotate_spec h1 hne hchildren
    rw [if_neg hchildren, if_neg hchildren]
    refine ⟨_, _, rfl, hrelinks.trans (Relinks.rbDeleteRotate ..), ?_⟩
    rw [h2.root]
    exact @Represents.paint_black _ _ [] _ h2

theorem rbDeleteFixupLoop_spec (h : Represents tree (plug ctx t))
    (hctx : Context.Balanced height c (n + 1) ctx) (ht : Lacks n t)
    (hfuel : ctx.length + 1 < fuel) :
    ∃ x tree', rbDeleteFixupLoop fuel tree (links ctx) t.addr = some (x, tree') ∧
      Relinks tree tree' ∧ Represents (tree'.setColour x .black) (deleteFix ctx t) := by
  induction ctx generalizing tree t c n fuel with
  | nil =>
    obtain ⟨k, rfl⟩ : ∃ k, fuel = k + 1 := ⟨fuel - 1, by omega⟩
    exact ⟨t.addr, tree, rbDeleteFixupLoop_stop h (.inl rfl) k _, refl _, h.paint_black⟩
  | cons f ctx ih =>
    obtain ⟨k, rfl⟩ : ∃ k, fuel = k + 2 := ⟨fuel - 2, by rw [length_cons] at hfuel; omega⟩
    rw [deleteFix]
    rcases ht with ⟨hred, -⟩ | ht
    · rw [if_pos hred]
      exact ⟨t.addr, tree, rbDeleteFixupLoop_stop h (.inr hred) _ _, refl _, h.paint_black⟩
    rw [if_neg (by rw [ht.colour_eq]; exact Colour.noConfusion)]
    by_cases hsibling : f.sibling.colour = .red
    · rw [if_pos hsibling]
      exact rbDeleteFixupLoop_red h ht.colour_eq (hctx.of_red_sibling hsibling).1 k
    have hsame : rbDeleteSibling f.side tree (links ctx) (topLink ctx) f.data.addr
        f.sibling.addr = (tree, links ctx, f.sibling.addr) := by
      rw [rbDeleteSibling, h.colour_sibling, if_neg hsibling]
    rw [if_neg hsibling, rbDeleteFixupLoop_round h ht.colour_eq hctx.sibling_ne_nil hsame h
      rfl rfl hctx.sibling_ne_nil]
    by_cases hchildren : BlackChildren f.sibling
    · obtain ⟨c', m, hrest, hlacks⟩ := hctx.lacks_fill ht hsibling hchildren
      have h1 := h.paint_sibling hctx.sibling_ne_nil .red
      have hspec := @ih _ _ c' m (k + 1) h1 hrest hlacks (by rw [length_cons] at hfuel; omega)
      rw [Frame.addr_fill] at hspec
      rw [if_pos hchildren, if_pos hchildren]
      exact hspec
    · have h1 := rbDeleteRotate_spec h hctx.sibling_ne_nil hchildren
      rw [if_neg hchildren, if_neg hchildren]
      refine ⟨_, _, rfl, Relinks.rbDeleteRotate .., ?_⟩
      rw [h1.root]
      exact @Represents.paint_black _ _ [] _ h1

theorem rbDeleteFixup_spec (h : Represents tree (plug ctx t))
    (hctx : Context.Balanced height c (n + 1) ctx) (ht : Lacks n t) :
    ∃ tree', rbDeleteFixup tree (links ctx) = some tree' ∧ Relinks tree tree' ∧
      Represents tree' (deleteFix ctx t) := by
  obtain ⟨rest, hlinks⟩ := links_eq_cons ctx
  have hfuel : ctx.length + 1 < (links ctx).length + 1 := by
    rw [links, length_append, length_map, length_singleton]
    omega
  obtain ⟨x, tree', hloop, hrelinks, hrep⟩ := rbDeleteFixupLoop_spec h hctx ht hfuel
  refine ⟨tree'.setColour x .black, ?_, hrelinks.setColour _ _, hrep⟩
  rw [hlinks] at hloop
  rw [hlinks, rbDeleteFixup]
  simp only [h.getLink_topLink, hloop]
  rfl

end LibSources
