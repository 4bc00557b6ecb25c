import Mathlib.Tactic

/-!
# Red-Black Trees and Their Contexts

A position in a tree is a subtree with its context: the nodes on the path to the root, each with
the sibling that is not on the path. Rebalancing works its way up a context: `insertFix` after a
red leaf has been put in, `deleteFix` after a black node has been taken out. Left and right are
exchanged by a parameter `side`.
-/

namespace LibSources

variable {c : Colour}

inductive Colour where
  | red
  | black
  deriving DecidableEq

inductive Side where
  | left
  | right
  deriving DecidableEq

def Side.other : Side → Side
  | .left => .right
  | .right => .left

inductive RBTree (β : Type*) where
  | nil
  | node (colour : Colour) (left : RBTree β) (data : β) (right : RBTree β)

variable {β : Type*}

namespace RBTree

def colour : RBTree β → Colour
  | nil => .black
  | node c _ _ _ => c

def toList : RBTree β → List β
  | nil => []
  | node _ l x r => l.toList ++ x :: r.toList

def paint (c : Colour) : RBTree β → RBTree β
  | nil => nil
  | node _ l x r => node c l x r

def child : Side → RBTree β → RBTree β
  | _, nil => nil
  | .left, node _ l _ _ => l
  | .right, node _ _ _ r => r

section

variable (side : Side) (c : Colour) (x : β) (near far : RBTree β)

def ofSides : RBTree β :=
  match side with
  | .left => node c near x far
  | .right => node c far x near

@[simp] theorem colour_ofSides : (ofSides side c x near far).colour = c := by
  cases side <;> rfl

end

@[simp] theorem paint_ofSides (side : Side) (c c' : Colour) (x : β) (near far : RBTree β) :
    (ofSides side c x near far).paint c' = ofSides side c' x near far := by
  cases side <;> rfl

section

variable (side : Side) (c : Colour) (x : β) (near far : RBTree β)

@[simp] theorem child_ofSides : (ofSides side c x near far).child side = near := by
  cases side <;> rfl

@[simp] theorem child_other_ofSides : (ofSides side c x near far).child side.other = far := by
  cases side <;> rfl

theorem ofSides_other : ofSides side.other c x near far = ofSides side c x far near := by
  cases side <;> rfl

theorem ofSides_ne_nil : ofSides side c x near far ≠ nil := by
  cases side <;> exact nofun

end

variable {far near t w : RBTree β} {side : Side} {n height : ℕ}

theorem ofSides_inj {c c' : Colour} {x x' : β} {near' far' : RBTree β}
    (h : ofSides side c x near far = ofSides side c' x' near' far') :
    c = c' ∧ x = x' ∧ near = near' ∧ far = far' := by
  cases side <;> cases h <;> exact ⟨rfl, rfl, rfl, rfl⟩

theorem eq_nil_or_ofSides (side : Side) (t : RBTree β) :
    t = nil ∨ ∃ c x near far, t = ofSides side c x near far := by
  cases t with
  | nil => exact .inl rfl
  | node c l x r =>
    cases side with
    | left => exact .inr ⟨c, x, l, r, rfl⟩
    | right => exact .inr ⟨c, x, r, l, rfl⟩

@[simp] theorem toList_paint (c : Colour) (t : RBTree β) : (t.paint c).toList = t.toList := by
  cases t <;> rfl

end RBTree

open List LibSources.RBTree

/-! ### Contexts -/

/-- A node on the path to the root: the path comes from `side`. -/
structure Frame (β : Type*) where
  side : Side
  colour : Colour
  data : β
  sibling : RBTree β

/-- The node with a subtree in the place of the path. -/
def Frame.fill (f : Frame β) (t : RBTree β) : RBTree β := ofSides f.side f.colour f.data t f.sibling

theorem Frame.fill_ne_nil (f : Frame β) (t : RBTree β) : f.fill t ≠ .nil := ofSides_ne_nil _ _ _ _ _

/-- The whole tree, from a subtree and its context. The first frame is the innermost one. -/
def plug : List (Frame β) → RBTree β → RBTree β
  | [], t => t
  | f :: ctx, t => plug ctx (f.fill t)

/-- The elements before the path at a node. -/
def Frame.before (f : Frame β) : List β :=
  match f.side with
  | .left => []
  | .right => f.sibling.toList ++ [f.data]

/-- The elements behind the path at a node. -/
def Frame.after (f : Frame β) : List β :=
  match f.side with
  | .left => f.data :: f.sibling.toList
  | .right => []

def before : List (Frame β) → List β
  | [] => []
  | f :: ctx => before ctx ++ f.before

def after : List (Frame β) → List β
  | [] => []
  | f :: ctx => f.after ++ after ctx

theorem Frame.toList_fill (f : Frame β) (t : RBTree β) :
    (f.fill t).toList = f.before ++ t.toList ++ f.after := by
  rcases f with ⟨side, c, x, w⟩
  cases side with
  | left => rfl
  | right =>
    change w.toList ++ x :: t.toList = (w.toList ++ [x]) ++ t.toList ++ []
    rw [append_nil, append_assoc]
    rfl

theorem toList_plug (ctx : List (Frame β)) (t : RBTree β) :
    (plug ctx t).toList = before ctx ++ t.toList ++ after ctx := by
  induction ctx generalizing t with
  | nil => rw [plug, before, after, nil_append, append_nil]
  | cons f ctx ih =>
    rw [plug, ih, Frame.toList_fill, before, after]
    simp only [append_assoc]

theorem plug_append (ctx ctx' : List (Frame β)) (t : RBTree β) :
    plug (ctx ++ ctx') t = plug ctx' (plug ctx t) := by
  induction ctx generalizing t with
  | nil => rfl
  | cons f ctx ih => exact ih (f.fill t)

def outside : List (Frame β) → List β
  | [] => []
  | f :: ctx => f.data :: (f.sibling.toList ++ outside ctx)

section

variable (side : Side) (c : Colour) (x : β)

theorem RBTree.toList_ofSides_perm (near far : RBTree β) :
    (ofSides side c x near far).toList.Perm (x :: (near.toList ++ far.toList)) := by
  cases side with
  | left => exact perm_middle
  | right => exact perm_middle.trans (List.Perm.cons x perm_append_comm)

theorem toList_plug_perm (ctx : List (Frame β)) (t : RBTree β) :
    (plug ctx t).toList.Perm (t.toList ++ outside ctx) := by
  induction ctx generalizing t with
  | nil => rw [plug, outside, append_nil]
  | cons f ctx ih =>
    refine (ih (f.fill t)).trans ?_
    refine ((toList_ofSides_perm _ _ _ _ _).append_right _).trans ?_
    rw [outside, cons_append, append_assoc]
    exact perm_middle.symm

theorem plug_sibling (w t : RBTree β) (ctx : List (Frame β)) :
    plug (⟨side.other, c, x, t⟩ :: ctx) w = plug (⟨side, c, x, w⟩ :: ctx) t := by
  cases side <;> rfl

end

/-! ### Balance -/

/-- The tree has a root of the colour, no red node with a red child, and the same number of
black nodes on each path to an empty tree. -/
inductive Balanced : Colour → ℕ → RBTree β → Prop where
  | nil : Balanced .black 0 nil
  | red {n : ℕ} {l r : RBTree β} (x : β) (hl : Balanced .black n l) (hr : Balanced .black n r) :
      Balanced .red n (node .red l x r)
  | black {n : ℕ} {c c' : Colour} {l r : RBTree β} (x : β) (hl : Balanced c n l)
      (hr : Balanced c' n r) : Balanced .black (n + 1) (node .black l x r)

/-- A context whose hole takes a tree of the colour and black height, for a whole tree of
black height `height` with a black root. -/
inductive Context.Balanced (height : ℕ) : Colour → ℕ → List (Frame β) → Prop where
  | root : Context.Balanced height .black height []
  | red {n : ℕ} {f : Frame β} {ctx : List (Frame β)} (hf : f.colour = .red)
      (hw : LibSources.Balanced .black n f.sibling) (h : Context.Balanced height .red n ctx) :
      Context.Balanced height .black n (f :: ctx)
  | black {n : ℕ} {c c' : Colour} {f : Frame β} {ctx : List (Frame β)} (hf : f.colour = .black)
      (hw : LibSources.Balanced c' n f.sibling) (h : Context.Balanced height .black (n + 1) ctx) :
      Context.Balanced height c n (f :: ctx)

theorem Balanced.colour_eq (h : Balanced c n t) : t.colour = c := by
  cases h <;> rfl

theorem Balanced.ofSides_red (side : Side) (x : β) (hn : Balanced .black n near)
    (hf : Balanced .black n far) : Balanced .red n (ofSides side .red x near far) := by
  cases side with
  | left => exact .red x hn hf
  | right => exact .red x hf hn

theorem Balanced.ofSides_black {c c' : Colour} (side : Side) (x : β) (hn : Balanced c n near)
    (hf : Balanced c' n far) : Balanced .black (n + 1) (ofSides side .black x near far) := by
  cases side with
  | left => exact .black x hn hf
  | right => exact .black x hf hn

theorem Balanced.exists_red (side : Side) (h : Balanced .red n t) :
    ∃ x near far, t = ofSides side .red x near far ∧ Balanced .black n near ∧
      Balanced .black n far := by
  cases h with
  | red x hl hr =>
    cases side with
    | left => exact ⟨x, _, _, rfl, hl, hr⟩
    | right => exact ⟨x, _, _, rfl, hr, hl⟩

theorem Balanced.exists_black (side : Side) (h : Balanced .black (n + 1) t) :
    ∃ c c' x near far, t = ofSides side .black x near far ∧ Balanced c n near ∧
      Balanced c' n far := by
  cases h with
  | black x hl hr =>
    cases side with
    | left => exact ⟨_, _, x, _, _, rfl, hl, hr⟩
    | right => exact ⟨_, _, x, _, _, rfl, hr, hl⟩

theorem Balanced.paint_red (h : Balanced .red n t) : Balanced .black (n + 1) (t.paint .black) := by
  cases h with
  | red x hl hr => exact .black x hl hr

theorem Balanced.paint_black {n : ℕ} {t : RBTree β} (h : Balanced c n t) :
    ∃ n', Balanced .black n' (t.paint .black) := by
  cases h with
  | nil => exact ⟨0, .nil⟩
  | red x hl hr => exact ⟨_, .black x hl hr⟩
  | black x hl hr => exact ⟨_, .black x hl hr⟩

theorem Context.Balanced.plug {ctx : List (Frame β)} (hctx : Context.Balanced height c n ctx)
    (h : LibSources.Balanced c n t) : LibSources.Balanced .black height (plug ctx t) := by
  induction hctx generalizing t with
  | root => exact h
  | @red n f ctx hf hw _ ih =>
    refine ih ?_
    rw [Frame.fill, hf]
    exact .ofSides_red _ _ h hw
  | @black n c c' f ctx hf hw _ ih =>
    refine ih ?_
    rw [Frame.fill, hf]
    exact .ofSides_black _ _ h hw

section

variable {ctx : List (Frame β)}

theorem Balanced.zoom (h : Balanced .black height (plug ctx t)) :
    ∃ c n, Context.Balanced height c n ctx ∧ Balanced c n t := by
  induction ctx generalizing t with
  | nil => exact ⟨.black, height, .root, h⟩
  | cons f ctx ih =>
    obtain ⟨c, n, hctx, hfill⟩ := ih h
    rcases f with ⟨side, c', x, w⟩
    cases c with
    | red =>
      obtain ⟨y, near, far, heq, hnear, hfar⟩ := hfill.exists_red side
      obtain ⟨rfl, rfl, rfl, rfl⟩ := ofSides_inj heq
      exact ⟨.black, n, .red rfl hfar hctx, hnear⟩
    | black =>
      cases n with
      | zero => cases side <;> cases hfill
      | succ n =>
        obtain ⟨c1, c2, y, near, far, heq, hnear, hfar⟩ := hfill.exists_black side
        obtain ⟨rfl, rfl, rfl, rfl⟩ := ofSides_inj heq
        exact ⟨c1, n, .black rfl hfar hctx, hnear⟩

theorem Context.Balanced.change_data {c c' : Colour} {x : β} (y : β) {inner ctx : List (Frame β)}
    (h : Context.Balanced height c n (inner ++ ⟨side, c', x, w⟩ :: ctx)) :
    Context.Balanced height c n (inner ++ ⟨side, c', y, w⟩ :: ctx) := by
  induction inner generalizing c n with
  | nil =>
    cases h with
    | red hf hw h => exact .red hf hw h
    | black hf hw h => exact .black hf hw h
  | cons f inner ih =>
    cases h with
    | red hf hw h => exact .red hf hw (ih h)
    | black hf hw h => exact .black hf hw (ih h)

theorem Context.Balanced.of_red (h : Context.Balanced height .red n ctx) :
    ∃ f ctx' c, ctx = f :: ctx' ∧ f.colour = .black ∧ LibSources.Balanced c n f.sibling ∧
      Context.Balanced height .black (n + 1) ctx' := by
  cases h with
  | black hf hw h => exact ⟨_, _, _, rfl, hf, hw, h⟩

theorem Context.Balanced.black_hole (h : Context.Balanced height c n ctx) :
    Context.Balanced height .black n ctx := by
  cases c with
  | black => exact h
  | red =>
    obtain ⟨f, ctx', c, rfl, hf, hw, h'⟩ := h.of_red
    exact .black hf hw h'

end

/-- The order of the elements of the whole tree only depends on the order in the hole. -/
theorem toList_plug_congr (ctx : List (Frame β)) {t' : RBTree β} (h : t.toList = t'.toList) :
    (plug ctx t).toList = (plug ctx t').toList := by
  rw [toList_plug, toList_plug, h]

/-! ### Rebalancing after an insertion -/

/-- The double rotation: a grandchild on the inner side becomes the root. -/
def rotateInner (side : Side) (x y : β) (a t d : RBTree β) : RBTree β :=
  match t with
  | .nil => ofSides side .red y (ofSides side.other .red x .nil a) d
  | .node _ _ z _ => ofSides side .black z (ofSides side .red x a (t.child side))
      (ofSides side .red y (t.child side.other) d)

/-- Rebalancing from a red subtree on upwards. While its parent is red: if its uncle is red
too, both are painted black and the grandparent red; otherwise one or two rotations end the
work. -/
def insertFix : List (Frame β) → RBTree β → RBTree β
  | [], t => t
  | [f], t => f.fill t
  | f :: g :: ctx, t =>
    if f.colour = .black then plug (f :: g :: ctx) t
    else if g.sibling.colour = .red then
      insertFix ctx (ofSides g.side .red g.data (ofSides f.side .black f.data t f.sibling)
        (g.sibling.paint .black))
    else if f.side = g.side then
      plug ctx (ofSides g.side .black f.data t (ofSides g.side .red g.data f.sibling g.sibling))
    else plug ctx (rotateInner g.side f.data g.data f.sibling t g.sibling)

section

variable (side : Side)

theorem rotateInner_ofSides (c : Colour) (x y z : β) (a b d e : RBTree β) :
    rotateInner side x y a (ofSides side c z b d) e =
      ofSides side .black z (ofSides side .red x a b) (ofSides side .red y d e) := by
  cases side <;> rfl

theorem Side.eq_other {s s' : Side} (h : s ≠ s') : s = s'.other := by
  cases s <;> cases s' <;> first | rfl | exact absurd rfl h

theorem RBTree.toList_ofSides_congr (c c' : Colour) (x : β) {near' far' : RBTree β}
    (hn : near.toList = near'.toList) (hf : far.toList = far'.toList) :
    (ofSides side c x near far).toList = (ofSides side c' x near' far').toList := by
  cases side <;> simp only [ofSides, toList, hn, hf]

theorem RBTree.toList_rotate (c1 c2 c3 c4 : Colour) (x y : β) (a b d : RBTree β) :
    (ofSides side c1 x a (ofSides side c2 y b d)).toList =
      (ofSides side c3 y (ofSides side c4 x a b) d).toList := by
  cases side <;> simp only [ofSides, toList, append_assoc, cons_append]

theorem RBTree.toList_rotateInner (c c' : Colour) (x y : β) (a t d : RBTree β) :
    (rotateInner side x y a t d).toList =
      (ofSides side c y (ofSides side.other c' x t a) d).toList := by
  rcases eq_nil_or_ofSides side t with rfl | ⟨c1, z, near, far, rfl⟩
  · exact toList_ofSides_congr _ _ _ _ (toList_ofSides_congr _ _ _ _ rfl rfl) rfl
  · rw [rotateInner_ofSides]
    cases side <;> simp only [ofSides, toList, Side.other, append_assoc, cons_append]

end

theorem toList_insertFix (ctx : List (Frame β)) (t : RBTree β) :
    (insertFix ctx t).toList = (plug ctx t).toList := by
  induction ctx, t using insertFix.induct with
  | case1 t => rfl
  | case2 f t => rfl
  | case3 f g ctx t h => rw [insertFix, if_pos h]
  | case4 f g ctx t h1 h2 ih =>
    rw [insertFix, if_neg h1, if_pos h2, ih]
    exact toList_plug_congr ctx (toList_ofSides_congr _ _ _ _ (toList_ofSides_congr _ _ _ _ rfl rfl)
      (toList_paint _ _))
  | case5 f g ctx t h1 h2 h3 =>
    rw [insertFix, if_neg h1, if_neg h2, if_pos h3, toList_plug_congr ctx (toList_rotate _ _ _
      g.colour f.colour _ _ _ _ _), plug, plug, Frame.fill, Frame.fill, h3]
  | case6 f g ctx t h1 h2 h3 =>
    rw [insertFix, if_neg h1, if_neg h2, if_neg h3, toList_plug_congr ctx (toList_rotateInner _
      g.colour f.colour _ _ _ _ _), plug, plug, Frame.fill, Frame.fill, Side.eq_other h3]

theorem Context.Balanced.of_not_black {f g : Frame β} {ctx : List (Frame β)}
    (h : Context.Balanced height c n (f :: g :: ctx)) (hf : f.colour ≠ .black) :
    LibSources.Balanced .black n f.sibling ∧ LibSources.Balanced g.sibling.colour n g.sibling ∧
      Context.Balanced height .black (n + 1) ctx := by
  cases h with
  | black hf' _ _ => exact absurd hf' hf
  | red _ hw hrest =>
    obtain ⟨g', ctx', c', heq, -, hw', h'⟩ := hrest.of_red
    obtain ⟨rfl, rfl⟩ := cons.inj heq
    rw [hw'.colour_eq]
    exact ⟨hw, hw', h'⟩

theorem Colour.eq_red (h : c ≠ .black) : c = .red := by
  cases c with
  | red => rfl
  | black => exact absurd rfl h

theorem Colour.eq_black (h : c ≠ .red) : c = .black := by
  cases c with
  | red => exact absurd rfl h
  | black => rfl

/-- Rebalancing restores the balance, up to the colour of the root. -/
theorem Context.Balanced.insertFix {ctx : List (Frame β)} (hctx : Context.Balanced height c n ctx)
    (h : LibSources.Balanced .red n t) : ∃ c' n', LibSources.Balanced c' n' (insertFix ctx t) := by
  induction ctx, t using insertFix.induct generalizing c n with
  | case1 t => exact ⟨_, _, h⟩
  | case2 f t =>
    cases hctx with
    | red hf _ hroot => cases hroot
    | black hf hw hroot =>
      rw [LibSources.insertFix, Frame.fill, hf]
      exact ⟨_, _, .ofSides_black _ _ h hw⟩
  | case3 f g ctx t hblack =>
    rw [LibSources.insertFix, if_pos hblack]
    cases hctx with
    | red hf _ _ => exact absurd (hf.symm.trans hblack) Colour.noConfusion
    | black hf hw hrest => exact ⟨_, _, Context.Balanced.plug (.black hf hw hrest) h⟩
  | case4 f g ctx t h1 h2 ih =>
    obtain ⟨hw, hu, hrest⟩ := hctx.of_not_black h1
    rw [LibSources.insertFix, if_neg h1, if_pos h2]
    rw [h2] at hu
    exact ih hrest (.ofSides_red _ _ (.ofSides_black _ _ h hw) hu.paint_red)
  | case5 f g ctx t h1 h2 h3 =>
    obtain ⟨hw, hu, hrest⟩ := hctx.of_not_black h1
    rw [LibSources.insertFix, if_neg h1, if_neg h2, if_pos h3]
    rw [Colour.eq_black h2] at hu
    exact ⟨_, _, hrest.plug (.ofSides_black _ _ h (.ofSides_red _ _ hw hu))⟩
  | case6 f g ctx t h1 h2 h3 =>
    obtain ⟨hw, hu, hrest⟩ := hctx.of_not_black h1
    obtain ⟨x, near, far, rfl, hnear, hfar⟩ := h.exists_red g.side
    rw [LibSources.insertFix, if_neg h1, if_neg h2, if_neg h3, rotateInner_ofSides]
    rw [Colour.eq_black h2] at hu
    exact ⟨_, _, hrest.plug (.ofSides_black _ _ (.ofSides_red _ _ hw hnear)
      (.ofSides_red _ _ hfar hu))⟩

/-! ### Rebalancing after a deletion -/

/-- The rotations that end the rebalancing after a deletion, for a black sibling with a red
child. -/
def restructure (side : Side) (c : Colour) (x : β) (t w : RBTree β) : RBTree β :=
  match w with
  | .nil => ofSides side c x t .nil
  | .node _ _ y _ =>
    if (w.child side.other).colour = .black then
      match w.child side with
      | .nil => ofSides side c x t w
      | .node _ _ z _ =>
        ofSides side c z (ofSides side .black x t ((w.child side).child side))
          (ofSides side .black y ((w.child side).child side.other) (w.child side.other))
    else
      ofSides side c y (ofSides side .black x t (w.child side)) ((w.child side.other).paint .black)

def BlackChildren (w : RBTree β) : Prop :=
  (w.child .left).colour = .black ∧ (w.child .right).colour = .black

instance (w : RBTree β) : Decidable (BlackChildren w) := inferInstanceAs (Decidable (_ ∧ _))

section

variable (side : Side)

theorem blackChildren_ofSides (c : Colour) (x : β) (near far : RBTree β) :
    BlackChildren (ofSides side c x near far) ↔ near.colour = .black ∧ far.colour = .black := by
  cases side with
  | left => exact Iff.rfl
  | right => exact and_comm

variable (c c' : Colour) (x y : β)

theorem restructure_far (t near : RBTree β) (h : far.colour ≠ .black) :
    restructure side c x t (ofSides side c' y near far) =
      ofSides side c y (ofSides side .black x t near) (far.paint .black) := by
  cases side <;> exact if_neg h

theorem restructure_near (c c' c'' : Colour) (x y z : β) (t a b : RBTree β)
    (h : far.colour = .black) :
    restructure side c x t (ofSides side c' y (ofSides side c'' z a b) far) =
      ofSides side c z (ofSides side .black x t a) (ofSides side .black y b far) := by
  cases side <;> exact if_pos h

theorem restructure_nil (t : RBTree β) (h : far.colour = .black) :
    restructure side c x t (ofSides side c' y .nil far) =
      ofSides side c x t (ofSides side c' y .nil far) := by
  cases side <;> exact if_pos h

end

/-- The rebalancing with a red sibling: the sibling is rotated up, its inner child becomes the
sibling, and the work ends there. -/
def deleteRed (ctx : List (Frame β)) (f : Frame β) (t : RBTree β) : RBTree β :=
  match f.sibling with
  | .nil => plug (f :: ctx) t
  | .node _ _ w _ =>
    let near := f.sibling.child f.side
    let g : Frame β := ⟨f.side, .black, w, f.sibling.child f.side.other⟩
    if BlackChildren near then
      plug (g :: ctx) (ofSides f.side .black f.data t (near.paint .red))
    else (plug (g :: ctx) (restructure f.side .red f.data t near)).paint .black

/-- Rebalancing from a subtree on upwards that has one black node too few. -/
def deleteFix : List (Frame β) → RBTree β → RBTree β
  | [], t => t.paint .black
  | f :: ctx, t =>
    if t.colour = .red then plug (f :: ctx) (t.paint .black)
    else if f.sibling.colour = .red then deleteRed ctx f t
    else if BlackChildren f.sibling then
      deleteFix ctx (ofSides f.side f.colour f.data t (f.sibling.paint .red))
    else (plug ctx (restructure f.side f.colour f.data t f.sibling)).paint .black

section

variable (ctx : List (Frame β))

theorem deleteRed_ofSides (side : Side) (c c' : Colour) (x w : β) (near far t : RBTree β) :
    deleteRed ctx ⟨side, c, x, ofSides side c' w near far⟩ t = if BlackChildren near then
        plug (⟨side, .black, w, far⟩ :: ctx) (ofSides side .black x t (near.paint .red))
      else
        (plug (⟨side, .black, w, far⟩ :: ctx) (restructure side .red x t near)).paint .black := by
  cases side <;> rfl

theorem RBTree.toList_restructure (side : Side) (c c' : Colour) (x : β) (t w : RBTree β) :
    (restructure side c x t w).toList = (ofSides side c' x t w).toList := by
  rcases eq_nil_or_ofSides side w with rfl | ⟨c1, y, near, far, rfl⟩
  · exact toList_ofSides_congr _ _ _ _ rfl rfl
  by_cases hfar : far.colour = .black
  · rcases eq_nil_or_ofSides side near with rfl | ⟨c2, z, a, b, rfl⟩
    · rw [restructure_nil _ _ _ _ _ _ hfar]
      exact toList_ofSides_congr _ _ _ _ rfl rfl
    · rw [restructure_near _ _ _ _ _ _ _ _ _ _ hfar]
      cases side <;> simp only [ofSides, toList, append_assoc, cons_append]
  · rw [restructure_far _ _ _ _ _ _ _ hfar, ← toList_rotate side c' c1 c .black]
    exact toList_ofSides_congr _ _ _ _ rfl (toList_ofSides_congr _ _ _ _ rfl (toList_paint _ _))

theorem RBTree.toList_deleteRed (f : Frame β) (t : RBTree β) :
    (deleteRed ctx f t).toList = (plug (f :: ctx) t).toList := by
  rcases f with ⟨side, c, x, w⟩
  rcases eq_nil_or_ofSides side w with rfl | ⟨c', y, near, far, rfl⟩
  · rfl
  have hrotate : (plug (⟨side, c, x, ofSides side c' y near far⟩ :: ctx) t).toList =
      (plug (⟨side, .black, y, far⟩ :: ctx) (ofSides side .red x t near)).toList :=
    toList_plug_congr ctx (toList_rotate _ _ _ _ _ _ _ _ _ _)
  rw [deleteRed_ofSides, hrotate]
  split
  · exact toList_plug_congr _ (toList_ofSides_congr _ _ _ _ rfl (toList_paint _ _))
  · rw [toList_paint]
    exact toList_plug_congr _ (toList_restructure _ _ _ _ _ _)

theorem toList_deleteFix (t : RBTree β) : (deleteFix ctx t).toList = (plug ctx t).toList := by
  induction ctx generalizing t with
  | nil => exact toList_paint _ _
  | cons f ctx ih =>
    rw [deleteFix]
    split_ifs with h1 h2 h3
    · exact toList_plug_congr _ (toList_paint _ _)
    · exact toList_deleteRed ctx f t
    · rw [ih]
      exact toList_plug_congr ctx (toList_ofSides_congr _ _ _ _ rfl (toList_paint _ _))
    · rw [toList_paint]
      exact toList_plug_congr ctx (toList_restructure _ _ _ _ _ _)

end

theorem Balanced.restructure_red (side : Side) (x : β) (ht : Balanced c n t)
    (hw : Balanced .black (n + 1) w) (hred : ¬ BlackChildren w) :
    Balanced .red (n + 1) (restructure side .red x t w) ∧
      Balanced .black (n + 2) (restructure side .black x t w) := by
  obtain ⟨c1, c2, y, near, far, rfl, hnear, hfar⟩ := hw.exists_black side
  rw [blackChildren_ofSides] at hred
  by_cases hblack : far.colour = .black
  · -- the inner child is red
    have hnear' : c1 = .red := by
      rw [← hnear.colour_eq]
      exact Colour.eq_red fun h => hred ⟨h, hblack⟩
    subst hnear'
    obtain ⟨z, a, b, rfl, ha, hb⟩ := hnear.exists_red side
    rw [restructure_near _ _ _ _ _ _ _ _ _ _ hblack, restructure_near _ _ _ _ _ _ _ _ _ _ hblack]
    exact ⟨.ofSides_red _ _ (.ofSides_black _ _ ht ha) (.ofSides_black _ _ hb hfar),
      .ofSides_black _ _ (.ofSides_black _ _ ht ha) (.ofSides_black _ _ hb hfar)⟩
  · have hfar' : c2 = .red := by
      rw [← hfar.colour_eq]
      exact Colour.eq_red hblack
    subst hfar'
    rw [restructure_far _ _ _ _ _ _ _ hblack, restructure_far _ _ _ _ _ _ _ hblack]
    exact ⟨.ofSides_red _ _ (.ofSides_black _ _ ht hnear) hfar.paint_red,
      .ofSides_black _ _ (.ofSides_black _ _ ht hnear) hfar.paint_red⟩

theorem Balanced.paint_of_blackChildren (hw : Balanced .black (n + 1) w)
    (hblack : BlackChildren w) : Balanced .red n (w.paint .red) := by
  obtain ⟨c1, c2, y, near, far, rfl, hnear, hfar⟩ := hw.exists_black .left
  obtain ⟨h1, h2⟩ := (blackChildren_ofSides _ _ _ _ _).mp hblack
  rw [hnear.colour_eq] at h1
  rw [hfar.colour_eq] at h2
  subst h1 h2
  exact .red y hnear hfar

theorem Context.Balanced.deleteRed {f : Frame β} {ctx : List (Frame β)}
    (hw : LibSources.Balanced .red (n + 1) f.sibling)
    (hctx : Context.Balanced height .black (n + 2) ctx) (h : LibSources.Balanced .black n t) :
    ∃ n', LibSources.Balanced .black n' (deleteRed ctx f t) := by
  rcases f with ⟨side, c, x, w⟩
  obtain ⟨y, near, far, rfl, hnear, hfar⟩ := hw.exists_red side
  have hraised : ∀ c, Context.Balanced height c (n + 1) (⟨side, .black, y, far⟩ :: ctx) :=
    fun _ => .black rfl hfar hctx
  rw [deleteRed_ofSides]
  split_ifs with hblack
  · exact ⟨_, (hraised _).plug (.ofSides_black _ _ h (hnear.paint_of_blackChildren hblack))⟩
  · exact ((hraised _).plug (h.restructure_red side x hnear hblack).1).paint_black

/-- A subtree with one black node too few: a red root can be painted black. -/
def Lacks (n : ℕ) (t : RBTree β) : Prop :=
  (t.colour = .red ∧ Balanced .black (n + 1) (t.paint .black)) ∨ Balanced .black n t

theorem Balanced.lacks (h : Balanced c n t) : Lacks n t := by
  cases c with
  | red => exact .inl ⟨h.colour_eq, h.paint_red⟩
  | black => exact .inr h

/-- A node with one empty child is taken out: nothing is missing when it is red, and one black
node when it is black. -/
theorem Context.Balanced.remove {height : ℕ} {n : ℕ} {ctx : List (Frame β)} {side : Side}
    {c' : Colour} {x : β} {t : RBTree β} (hctx : Context.Balanced height c n ctx)
    (h : LibSources.Balanced c n (ofSides side c' x .nil t)) :
    (c' = .red → LibSources.Balanced .black height (LibSources.plug ctx t)) ∧
      (c' = .black → ∃ c'' m, Context.Balanced height c'' (m + 1) ctx ∧ Lacks m t) := by
  have hcolour := h.colour_eq
  rw [colour_ofSides] at hcolour
  subst hcolour
  constructor
  · rintro rfl
    obtain ⟨y, near, far, heq, -, hfar⟩ := h.exists_red side
    obtain ⟨-, -, -, rfl⟩ := ofSides_inj heq
    exact hctx.black_hole.plug hfar
  rintro rfl
  cases n with
  | zero => cases side <;> cases h
  | succ n =>
    obtain ⟨c1, c2, y, near, far, heq, -, hfar⟩ := h.exists_black side
    obtain ⟨-, -, -, rfl⟩ := ofSides_inj heq
    exact ⟨_, n, hctx, hfar.lacks⟩

section

variable {f : Frame β} {ctx : List (Frame β)}

theorem Context.Balanced.sibling_ne_nil (h : Context.Balanced height c (n + 1) (f :: ctx)) :
    f.sibling ≠ .nil := by
  intro hnil
  cases h with
  | red _ hw _ => rw [hnil] at hw; cases hw
  | black _ hw _ => rw [hnil] at hw; cases hw

theorem Context.Balanced.lacks_fill (hctx : Context.Balanced height c (n + 1) (f :: ctx))
    (h : LibSources.Balanced .black n t) (hsibling : f.sibling.colour ≠ .red)
    (hchildren : BlackChildren f.sibling) :
    ∃ c' m, Context.Balanced height c' (m + 1) ctx ∧
      Lacks m (ofSides f.side f.colour f.data t (f.sibling.paint .red)) := by
  cases hctx with
  | red hf hw hrest =>
    refine ⟨_, n, hrest, .inl ⟨(colour_ofSides _ _ _ _ _).trans hf, ?_⟩⟩
    rw [paint_ofSides]
    exact .ofSides_black _ _ h (hw.paint_of_blackChildren hchildren)
  | black hf hw hrest =>
    rw [hw.colour_eq] at hsibling
    rw [Colour.eq_black hsibling] at hw
    rw [hf]
    exact ⟨_, n + 1, hrest, .inr (.ofSides_black _ _ h (hw.paint_of_blackChildren hchildren))⟩

theorem Context.Balanced.of_red_sibling (h : Context.Balanced height c n (f :: ctx))
    (hsibling : f.sibling.colour = .red) :
    LibSources.Balanced .red n f.sibling ∧ Context.Balanced height .black (n + 1) ctx := by
  cases h with
  | red _ hw _ =>
    rw [hw.colour_eq] at hsibling
    exact Colour.noConfusion hsibling
  | black _ hw hrest =>
    rw [hw.colour_eq] at hsibling
    rw [hsibling] at hw
    exact ⟨hw, hrest⟩

theorem Context.Balanced.restructure (hctx : Context.Balanced height c (n + 1) (f :: ctx))
    (h : LibSources.Balanced .black n t) (hsibling : f.sibling.colour ≠ .red)
    (hchildren : ¬ BlackChildren f.sibling) :
    LibSources.Balanced .black height
      (LibSources.plug ctx (restructure f.side f.colour f.data t f.sibling)) := by
  cases hctx with
  | red hf hw hrest =>
    rw [hf]
    exact hrest.plug (h.restructure_red f.side f.data hw hchildren).1
  | black hf hw hrest =>
    rw [hw.colour_eq] at hsibling
    rw [Colour.eq_black hsibling] at hw
    rw [hf]
    exact hrest.plug (h.restructure_red f.side f.data hw hchildren).2

end

theorem Context.Balanced.deleteFix {ctx : List (Frame β)}
    (hctx : Context.Balanced height c (n + 1) ctx) (h : Lacks n t) :
    ∃ n', LibSources.Balanced .black n' (deleteFix ctx t) := by
  induction ctx generalizing t c n with
  | nil =>
    rcases h with ⟨-, h⟩ | h
    · exact ⟨_, h⟩
    · exact h.paint_black
  | cons f ctx ih =>
    rw [LibSources.deleteFix]
    rcases h with ⟨hred, h⟩ | h
    · rw [if_pos hred]
      exact ⟨_, hctx.black_hole.plug h⟩
    rw [if_neg (by rw [h.colour_eq]; exact Colour.noConfusion)]
    split_ifs with hsibling hchildren
    · obtain ⟨hw, hrest⟩ := hctx.of_red_sibling hsibling
      exact Context.Balanced.deleteRed hw hrest h
    · obtain ⟨c', m, hrest, hlacks⟩ := hctx.lacks_fill h hsibling hchildren
      exact ih hrest hlacks
    · exact (hctx.restructure h hsibling hchildren).paint_black

/-! ### What balance means -/

def NoRedRed : RBTree β → Prop
  | .nil => True
  | .node c l _ r => (c = .red → l.colour = .black ∧ r.colour = .black) ∧ NoRedRed l ∧ NoRedRed r

/-- Every path to an empty tree has `n` black nodes. -/
def BlackHeight : RBTree β → ℕ → Prop
  | .nil, n => n = 0
  | .node .red l _ r, n => BlackHeight l n ∧ BlackHeight r n
  | .node .black l _ r, n => ∃ m, n = m + 1 ∧ BlackHeight l m ∧ BlackHeight r m

theorem Balanced.noRedRed (h : Balanced c n t) : NoRedRed t := by
  induction h with
  | nil => exact trivial
  | red x hl hr ihl ihr => exact ⟨fun _ => ⟨hl.colour_eq, hr.colour_eq⟩, ihl, ihr⟩
  | black x hl hr ihl ihr => exact ⟨fun h => absurd h Colour.noConfusion, ihl, ihr⟩

theorem Balanced.blackHeight (h : Balanced c n t) : BlackHeight t n := by
  induction h with
  | nil => rfl
  | red x hl hr ihl ihr => exact ⟨ihl, ihr⟩
  | black x hl hr ihl ihr => exact ⟨_, rfl, ihl, ihr⟩

end LibSources
