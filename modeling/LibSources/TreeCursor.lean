import LibSources.TreeCount

/-!
# Ordered Cursors over the Tree

A model of `tree_search_key`, `tree_search_edge` and `tree_search_next` of
`mysys/tree.c`. A cursor is the stack of the elements from the root on, with `null_element`
below the root.

* The array `parents` up to `*last_pos` is a list with `**last_pos` first. The entries behind it
  are written before they are read again, so a position that is remembered during the search is
  the list at that time.
* `l_offs` and `r_offs` are a side and the other side.

## Main results

* `Tree.RedBlack.cursor_spec`: a cursor walks through the elements in order.
-/

namespace LibSources

open Nat List LibSources.RBTree

variable {α : Type}

variable {tree : Tree α} {ctx : List (Frame (Cell α))} {t : RBTree (Cell α)} {flag : ReadFlag}

/-- `ha_rkey_function`. -/
inductive ReadFlag where
  | keyExact
  | keyOrNext
  | keyOrPrev
  | afterKey
  | beforeKey
  | prefixKey
  | prefixLast
  | prefixLastOrPrev
  | mbrContain
  | mbrIntersect
  | mbrWithin
  | mbrDisjoint
  | mbrEqual
  deriving DecidableEq

structure SearchMarks where
  lastLeftStepParent : Option (List ℕ)
  lastRightStepParent : Option (List ℕ)
  lastEqualElement : Option (List ℕ)

/-- The switch for an element with the key: is it remembered, and the sign to go on with. There
is none for the other flags. -/
def equalStep : ReadFlag → Option (Bool × ℤ)
  | .keyExact => some (true, 1)
  | .keyOrNext => some (true, 1)
  | .beforeKey => some (true, 1)
  | .afterKey => some (false, -1)
  | .prefixLast => some (true, -1)
  | .prefixLastOrPrev => some (true, -1)
  | _ => none

def searchKeyLoop (compare : α → α → ℤ) (tree : Tree α) (key : α) (flag : ReadFlag) :
    ℕ → ℕ → List ℕ → SearchMarks → Option (Option SearchMarks)
  | 0, _, _, _ => none
  | fuel + 1, element, parents, marks =>
    if element = nullElement then some (some marks)
    else
      let parents := element :: parents
      let cmp := compare (tree.heap element).key key
      let step := if cmp = 0 then equalStep flag else some (false, cmp)
      match step with
      | none => some none
      | some (equal, cmp) =>
        let marks := if equal then { marks with lastEqualElement := some parents } else marks
        if cmp < 0 then
          searchKeyLoop compare tree key flag fuel (tree.heap element).right parents
            { marks with lastRightStepParent := some parents }
        else
          searchKeyLoop compare tree key flag fuel (tree.heap element).left parents
            { marks with lastLeftStepParent := some parents }

def SearchMarks.position (marks : SearchMarks) : ReadFlag → Option (List ℕ)
  | .keyExact => marks.lastEqualElement
  | .prefixLast => marks.lastEqualElement
  | .keyOrNext => marks.lastEqualElement.or marks.lastLeftStepParent
  | .afterKey => marks.lastLeftStepParent
  | .prefixLastOrPrev => marks.lastEqualElement.or marks.lastRightStepParent
  | .beforeKey => marks.lastRightStepParent
  | _ => none

def treeSearchKey (compare : α → α → ℤ) (tree : Tree α) (key : α) (flag : ReadFlag) :
    Option (Option (List ℕ)) := do
  let marks ← searchKeyLoop compare tree key flag (tree.elementsInTree + 1) tree.root
    [nullElement] ⟨none, none, none⟩
  pure (marks.bind fun marks => marks.position flag)

def descendEdge (tree : Tree α) (side : Side) : ℕ → ℕ → List ℕ → Option (List ℕ)
  | 0, _, _ => none
  | fuel + 1, element, parents =>
    if element = nullElement then some parents
    else descendEdge tree side fuel ((tree.heap element).child side) (element :: parents)

def treeSearchEdge (tree : Tree α) (side : Side) : Option (Option (List ℕ)) := do
  let parents ← descendEdge tree side (tree.elementsInTree + 1) tree.root [nullElement]
  pure (if parents.head? = some nullElement then none else some parents)

/-- The loop of `tree_search_next` that goes up from `x`: the stack from `y` on. -/
def climb (tree : Tree α) (side : Side) : ℕ → List ℕ → Option (List ℕ)
  | _, [] => none
  | x, y :: parents =>
    if y ≠ nullElement ∧ x = (tree.heap y).child side.other then climb tree side y parents
    else some (y :: parents)

def treeSearchNext (tree : Tree α) (side : Side) (parents : List ℕ) : Option (Option ℕ × List ℕ) :=
  match parents with
  | [] => none
  | x :: rest =>
    if (tree.heap x).child side.other ≠ nullElement then do
      let stack ← descendEdge tree side (tree.elementsInTree + 1)
        ((tree.heap x).child side.other) parents
      pure (stack.head?, stack)
    else do
      let stack ← climb tree side x rest
      pure (if stack.head? = some nullElement then none else stack.head?, stack)

/-- Calls of `tree_search_next` until it returns `NULL`: the elements. -/
def searchRest (tree : Tree α) (side : Side) : ℕ → List ℕ → Option (List ℕ)
  | 0, _ => none
  | fuel + 1, parents => do
      let (found, parents) ← treeSearchNext tree side parents
      match found with
      | none => pure []
      | some element => do
          let rest ← searchRest tree side fuel parents
          pure (element :: rest)

/-! ### Positions -/

def ancestors (ctx : List (Frame (Cell α))) : List ℕ :=
  ctx.map (fun f => f.data.addr) ++ [nullElement]

/-- The elements behind a position in the order that starts at `side`. -/
def later (side : Side) : List (Frame (Cell α)) → List (Cell α)
  | [] => []
  | f :: ctx =>
    if f.side = side then f.data :: (f.sibling.visits side ++ later side ctx)
    else later side ctx

def earlier (side : Side) : List (Frame (Cell α)) → List (Cell α)
  | [] => []
  | f :: ctx =>
    if f.side = side then earlier side ctx
    else earlier side ctx ++ f.sibling.visits side ++ [f.data]

theorem visits_plug (side : Side) (ctx : List (Frame (Cell α))) (t : RBTree (Cell α)) :
    (plug ctx t).visits side = earlier side ctx ++ t.visits side ++ later side ctx := by
  induction ctx generalizing t with
  | nil => rw [plug, earlier, later, nil_append, append_nil]
  | cons f ctx ih =>
    rcases f with ⟨s, c, x, w⟩
    rw [plug, ih, earlier, later]
    dsimp only [Frame.fill]
    by_cases hs : s = side
    · rw [if_pos hs, if_pos hs, hs, visits_ofSides]
      simp only [append_assoc, cons_append]
    · rw [if_neg hs, if_neg hs, Side.eq_other hs, ofSides_other, visits_ofSides]
      simp only [append_assoc, cons_append, nil_append]

variable {fuel : ℕ} {far near : RBTree (Cell α)} {c : Colour} {x y : Cell α} {parents : List ℕ}
  {equal : Bool} {p : Cell α → Bool}

theorem descendEdge_spec (h : Represents tree (plug ctx t)) (side : Side) (hne : t ≠ .nil)
    (hfuel : t.toList.length < fuel) :
    ∃ ctx' c x far, descendEdge tree side fuel t.addr (ancestors ctx) =
        some (x.addr :: ancestors ctx') ∧
      plug ctx' (ofSides side c x .nil far) = plug ctx t ∧
      t.visits side ++ later side ctx = x :: (far.visits side ++ later side ctx') := by
  induction fuel generalizing ctx t with
  | zero => exact absurd hfuel (not_lt_zero _)
  | succ fuel ih =>
    obtain ⟨c, x, near, far, rfl⟩ := (eq_nil_or_ofSides side t).resolve_left hne
    have hx : x.addr ≠ nullElement := by
      have := h.addr_ne_null_of_ne_nil hne
      rwa [addr_ofSides] at this
    have hlength := (toList_ofSides_perm side c x near far).length_eq
    rw [length_cons, length_append] at hlength
    rw [addr_ofSides, descendEdge, if_neg hx, h.heap_eq, TreeElement.child_ofSides]
    by_cases hnear : near = .nil
    · subst hnear
      refine ⟨ctx, c, x, far, ?_, rfl, ?_⟩
      · obtain ⟨fuel, rfl⟩ : ∃ k, fuel = k + 1 := ⟨fuel - 1, by omega⟩
        rw [addr, descendEdge, if_pos rfl]
      have hnil : (nil : RBTree (Cell α)).visits side = [] := by cases side <;> rfl
      rw [visits_ofSides, hnil]
      rfl
    · have hrep : Represents tree (plug (⟨side, c, x, far⟩ :: ctx) near) := h
      obtain ⟨ctx', c', x', far', heq, hplug, hvisits⟩ := ih hrep hnear (by omega)
      refine ⟨ctx', c', x', far', heq, hplug, ?_⟩
      rw [visits_ofSides, append_assoc, cons_append, ← hvisits, later, if_pos rfl]

theorem climb_spec (h : Represents tree (plug ctx t)) (side : Side) (hne : t ≠ .nil) :
    (later side ctx = [] ∧ climb tree side t.addr (ancestors ctx) = some [nullElement]) ∨
      ∃ ctx' c y near far, climb tree side t.addr (ancestors ctx) =
          some (y.addr :: ancestors ctx') ∧
        plug ctx' (ofSides side c y near far) = plug ctx t ∧
        later side ctx = y :: (far.visits side ++ later side ctx') := by
  induction ctx generalizing t with
  | nil => exact .inl ⟨rfl, if_neg fun hand => hand.1 rfl⟩
  | cons f ctx ih =>
    have hfill : Represents tree (plug ctx (f.fill t)) := h
    have haddr : (f.fill t).addr = f.data.addr := addr_ofSides _ _ _ _ _
    have hf : f.data.addr ≠ nullElement := by
      rw [← haddr]
      exact hfill.addr_ne_null_of_ne_nil (f.fill_ne_nil t)
    have hheap := h.heap_frame
    have hanc : ancestors (f :: ctx) = f.data.addr :: ancestors ctx := rfl
    rw [hanc, climb, later]
    by_cases hside : f.side = side
    · have hstop : ¬ (f.data.addr ≠ nullElement ∧
          t.addr = (tree.heap f.data.addr).child side.other) := by
        rintro ⟨-, heq⟩
        rw [hheap, ← hside, TreeElement.child_other_ofSides] at heq
        exact h.addr_ne_sibling (.inl hne) heq
      rw [if_neg hstop, if_pos hside]
      refine .inr ⟨ctx, f.colour, f.data, t, f.sibling, rfl, ?_, rfl⟩
      rw [← hside]
      rfl
    · have hother : side.other = f.side := (Side.eq_other hside).symm
      have hgo : f.data.addr ≠ nullElement ∧ t.addr = (tree.heap f.data.addr).child side.other := by
        refine ⟨hf, ?_⟩
        rw [hheap, hother, TreeElement.child_ofSides]
      rw [if_pos hgo, if_neg hside, ← haddr]
      exact ih hfill (f.fill_ne_nil t)

/-- One step goes to the next element, and the stack has its ancestors again. -/
theorem treeSearchNext_spec {side : Side}
    (h : Represents tree (plug ctx (ofSides side c x near far)))
    (hfuel : far.toList.length ≤ tree.elementsInTree) :
    (far.visits side ++ later side ctx = [] ∧
        ∃ parents, treeSearchNext tree side (x.addr :: ancestors ctx) = some (none, parents)) ∨
      ∃ ctx' c' y near' far', treeSearchNext tree side (x.addr :: ancestors ctx) =
          some (some y.addr, y.addr :: ancestors ctx') ∧
        plug ctx' (ofSides side c' y near' far') = plug ctx (ofSides side c x near far) ∧
        far.visits side ++ later side ctx = y :: (far'.visits side ++ later side ctx') := by
  have hnil : (nil : RBTree (Cell α)).visits side = [] := by cases side <;> rfl
  have hfar : Represents tree (plug (⟨side.other, c, x, near⟩ :: ctx) far) := by
    rw [plug_sibling]
    exact h
  have hlater : later side (⟨side.other, c, x, near⟩ :: ctx) = later side ctx := by
    rw [later, if_neg]
    cases side <;> exact nofun
  rw [treeSearchNext, h.heap_eq, TreeElement.child_other_ofSides]
  by_cases hempty : far = .nil
  · subst hempty
    have hnode : ofSides side c x near .nil ≠ .nil := ofSides_ne_nil _ _ _ _ _
    have hclimb := climb_spec h side hnode
    rw [addr_ofSides] at hclimb
    rw [addr, if_neg (not_not.mpr rfl), hnil, nil_append]
    rcases hclimb with ⟨hdone, heq⟩ | ⟨ctx', c', y, near', far', heq, hplug, hvisits⟩
    · exact .inl ⟨hdone, [nullElement], by rw [heq]; rfl⟩
    have hy : y.addr ≠ nullElement := by
      rw [← hplug] at h
      have := h.addr_ne_null_of_ne_nil (ofSides_ne_nil _ _ _ _ _)
      rwa [addr_ofSides] at this
    refine .inr ⟨ctx', c', y, near', far', ?_, hplug, hvisits⟩
    rw [heq, Option.bind_eq_bind, Option.bind_some, head?_cons,
      if_neg fun hcontra => hy (Option.some.inj hcontra)]
    rfl
  · rw [if_pos (hfar.addr_ne_null_of_ne_nil hempty)]
    obtain ⟨ctx', c', y, far', heq, hplug, hvisits⟩ :=
      descendEdge_spec hfar side hempty (lt_succ_of_le hfuel)
    have hanc : ancestors (⟨side.other, c, x, near⟩ :: ctx) = x.addr :: ancestors ctx := rfl
    rw [hanc] at heq
    rw [hlater] at hvisits
    refine .inr ⟨ctx', c', y, .nil, far', ?_, ?_, hvisits⟩
    · rw [heq]
      rfl
    · rw [hplug, plug_sibling]
      rfl

theorem searchRest_spec (h : Represents tree t) (hsize : t.toList.length = tree.elementsInTree)
    {side : Side} (hplug : plug ctx (ofSides side c x near far) = t)
    (hfuel : (far.visits side ++ later side ctx).length < fuel) :
    searchRest tree side fuel (x.addr :: ancestors ctx) =
      some ((far.visits side ++ later side ctx).map Cell.addr) := by
  induction fuel generalizing ctx c x near far with
  | zero => exact absurd hfuel (not_lt_zero _)
  | succ fuel ih =>
    have hlength : far.toList.length ≤ tree.elementsInTree := by
      have hperm := (toList_plug_perm ctx (ofSides side c x near far)).length_eq
      have hsides := (toList_ofSides_perm side c x near far).length_eq
      rw [length_append, hplug, hsize] at hperm
      rw [length_cons, length_append] at hsides
      omega
    rw [searchRest]
    rcases treeSearchNext_spec (hplug ▸ h) hlength with
      ⟨hdone, parents, heq⟩ | ⟨ctx', c', y, near', far', heq, hplug', hvisits⟩
    · rw [heq, hdone]
      rfl
    rw [hvisits, length_cons] at hfuel
    rw [heq, hvisits, map_cons, Option.bind_eq_bind, Option.bind_some]
    dsimp only
    rw [ih (hplug'.trans hplug) (by omega)]
    rfl

/-! ### Cursors -/

def PointsTo (t : RBTree (Cell α)) (parents : List ℕ) (x : Cell α) : Prop :=
  ∃ ctx c l r, plug ctx (.node c l x r) = t ∧ parents = x.addr :: ancestors ctx

theorem PointsTo.mem (h : PointsTo t parents x) : x ∈ t.toList := by
  obtain ⟨ctx, c, l, r, rfl, -⟩ := h
  rw [toList_plug, toList]
  exact mem_append_left _ (mem_append_right _ (mem_append_right _ mem_cons_self))

theorem PointsTo.enumerates (h : Represents tree t) (hsize : t.toList.length = tree.elementsInTree)
    (hx : PointsTo t parents x) (side : Side) :
    ∃ pre post, t.visits side = pre ++ x :: post ∧
      searchRest tree side (tree.elementsInTree + 1) parents = some (post.map Cell.addr) := by
  obtain ⟨ctx, c, l, r, hplug, rfl⟩ := hx
  obtain ⟨c', x', near, far, hnode⟩ := (eq_nil_or_ofSides side (.node c l x r)).resolve_left nofun
  obtain rfl : x' = x := by
    cases side <;> cases hnode <;> rfl
  rw [hnode] at hplug
  have hvisits : t.visits side = (earlier side ctx ++ near.visits side) ++
      x' :: (far.visits side ++ later side ctx) := by
    rw [← hplug, visits_plug, visits_ofSides]
    simp only [append_assoc, cons_append]
  refine ⟨_, _, hvisits, searchRest_spec h hsize hplug ?_⟩
  have hlength : (t.visits side).length = t.toList.length := by
    cases side with
    | left => rfl
    | right => exact length_reverse
  rw [hvisits, length_append, length_cons, hsize] at hlength
  omega

/-- The cursor at the innermost node of a path that was left to `side`. -/
def mark (side : Side) : List (Frame (Cell α)) → Option (List ℕ)
  | [] => none
  | f :: ctx => if f.side = side then some (f.data.addr :: ancestors ctx) else mark side ctx

def equalMark (compare : α → α → ℤ) (key : α) : List (Frame (Cell α)) → Option (List ℕ)
  | [] => none
  | f :: ctx =>
    if compare f.data.key key = 0 then some (f.data.addr :: ancestors ctx)
    else equalMark compare key ctx

theorem Frame.pointsTo (f : Frame (Cell α)) (ctx : List (Frame (Cell α))) (t : RBTree (Cell α)) :
    PointsTo (plug (f :: ctx) t) (f.data.addr :: ancestors ctx) f.data := by
  rcases f with ⟨side, c, x, w⟩
  cases side with
  | left => exact ⟨ctx, c, t, w, rfl, rfl⟩
  | right => exact ⟨ctx, c, w, t, rfl, rfl⟩

section

variable (ctx : List (Frame (Cell α))) (t : RBTree (Cell α))

theorem mark_left_spec : (after ctx = [] ∧ mark .left ctx = none) ∨
      ∃ x rest parents, after ctx = x :: rest ∧ mark .left ctx = some parents ∧
        PointsTo (plug ctx t) parents x ∧ ∃ f ∈ ctx, f.side = .left ∧ f.data = x := by
  induction ctx generalizing t with
  | nil => exact .inl ⟨rfl, rfl⟩
  | cons f ctx ih =>
    rw [mark, after, Frame.after]
    cases hside : f.side with
    | left =>
      exact .inr ⟨f.data, _, _, rfl, if_pos rfl, f.pointsTo ctx t, f, mem_cons_self, hside, rfl⟩
    | right =>
      rw [if_neg (by decide), nil_append]
      rcases ih (f.fill t) with hnone | ⟨x, rest, parents, hafter, hmark, hx, g, hg, hgx⟩
      · exact .inl hnone
      · exact .inr ⟨x, rest, parents, hafter, hmark, hx, g, mem_cons_of_mem f hg, hgx⟩

theorem mark_right_spec : (before ctx = [] ∧ mark .right ctx = none) ∨
      ∃ x init parents, before ctx = init ++ [x] ∧ mark .right ctx = some parents ∧
        PointsTo (plug ctx t) parents x ∧ ∃ f ∈ ctx, f.side = .right ∧ f.data = x := by
  induction ctx generalizing t with
  | nil => exact .inl ⟨rfl, rfl⟩
  | cons f ctx ih =>
    rw [mark, before, Frame.before]
    cases hside : f.side with
    | right =>
      refine .inr ⟨f.data, _, _, (append_assoc _ _ _).symm, if_pos rfl,
        f.pointsTo ctx t, f, mem_cons_self, hside, rfl⟩
    | left =>
      rw [if_neg (by decide), append_nil]
      rcases ih (f.fill t) with hnone | ⟨x, init, parents, hbefore, hmark, hx, g, hg, hgx⟩
      · exact .inl hnone
      · exact .inr ⟨x, init, parents, hbefore, hmark, hx, g, mem_cons_of_mem f hg, hgx⟩

end

section

variable (compare : α → α → ℤ) (key : α)

theorem equalMark_spec (ctx : List (Frame (Cell α))) (t : RBTree (Cell α)) :
    (equalMark compare key ctx = none ∧ ∀ f ∈ ctx, compare f.data.key key ≠ 0) ∨
      ∃ x parents, equalMark compare key ctx = some parents ∧ compare x.key key = 0 ∧
        PointsTo (plug ctx t) parents x := by
  induction ctx generalizing t with
  | nil => exact .inl ⟨rfl, fun _ hf => absurd hf not_mem_nil⟩
  | cons f ctx ih =>
    rw [equalMark]
    by_cases hzero : compare f.data.key key = 0
    · exact .inr ⟨f.data, _, if_pos hzero, hzero, f.pointsTo ctx t⟩
    rw [if_neg hzero]
    rcases ih (f.fill t) with ⟨hnone, hne⟩ | hsome
    · refine .inl ⟨hnone, fun g hg => ?_⟩
      rcases mem_cons.mp hg with rfl | hg
      · exact hzero
      · exact hne g hg
    · exact .inr hsome

/-! ### `tree_search_key` -/

def demanded (cells : List (Cell α)) : ReadFlag → Option (Cell α)
  | .keyExact => cells.find? fun x => compare x.key key = 0
  | .prefixLast => cells.find? fun x => compare x.key key = 0
  | .keyOrNext => cells.find? fun x => 0 ≤ compare x.key key
  | .afterKey => cells.find? fun x => 0 < compare x.key key
  | .prefixLastOrPrev => cells.reverse.find? fun x => compare x.key key ≤ 0
  | .keyOrPrev => cells.reverse.find? fun x => compare x.key key ≤ 0
  | .beforeKey => cells.reverse.find? fun x => compare x.key key < 0
  | _ => none

/-- The positions that are remembered on a path, where `equal` tells whether elements with the
key are. -/
def marksOf (equal : Bool) (ctx : List (Frame (Cell α))) : SearchMarks :=
  ⟨mark .left ctx, mark .right ctx, if equal then equalMark compare key ctx else none⟩

def steered (compare : α → α → ℤ) (sign : ℤ) (a b : α) : ℤ :=
  if compare a b = 0 then sign else compare a b

theorem marksOf_cons (equal : Bool) (side : Side) (c : Colour)
    (x : Cell α) (w : RBTree (Cell α)) (ctx : List (Frame (Cell α))) :
    marksOf compare key equal (⟨side, c, x, w⟩ :: ctx) =
      { lastLeftStepParent :=
          if side = .left then some (x.addr :: ancestors ctx) else mark .left ctx
        lastRightStepParent :=
          if side = .right then some (x.addr :: ancestors ctx) else mark .right ctx
        lastEqualElement :=
          if (decide (compare x.key key = 0) && equal) = true then
            some (x.addr :: ancestors ctx)
          else (marksOf compare key equal ctx).lastEqualElement } := by
  rw [marksOf, marksOf, mark, mark, equalMark]
  by_cases hzero : compare x.key key = 0 <;> cases equal <;> simp [hzero]

theorem searchKeyLoop_spec {sign : ℤ}
    (hflag : equalStep flag = some (equal, sign)) (h : Represents tree (plug ctx t))
    (hctx : ∀ f ∈ ctx, (f.side = .right ↔ steered compare sign f.data.key key < 0))
    (hfuel : t.toList.length < fuel) :
    ∃ ctx', searchKeyLoop compare tree key flag fuel t.addr (ancestors ctx)
        (marksOf compare key equal ctx) = some (some (marksOf compare key equal ctx')) ∧
      plug ctx' .nil = plug ctx t ∧
      ∀ f ∈ ctx', (f.side = .right ↔ steered compare sign f.data.key key < 0) := by
  induction fuel generalizing ctx t with
  | zero => exact absurd hfuel (not_lt_zero _)
  | succ fuel ih =>
    cases t with
    | nil =>
      refine ⟨ctx, ?_, rfl, hctx⟩
      rw [RBTree.addr, searchKeyLoop, if_pos rfl]
    | node c l x r =>
      have hnode : tree.heap x.addr = ⟨l.addr, r.addr, x.count, c, x.key⟩ := h.holds.of_plug.1
      have hne : x.addr ≠ nullElement := h.addr_ne_null
      rw [toList, length_append, length_cons] at hfuel
      have hstep : (if compare x.key key = 0 then equalStep flag
          else some (false, compare x.key key)) =
            some (decide (compare x.key key = 0) && equal, steered compare sign x.key key) := by
        rw [steered]
        split
        case isTrue hzero => rw [hflag, decide_eq_true hzero]; rfl
        case isFalse hzero => rw [decide_eq_false hzero]; rfl
      rw [addr, searchKeyLoop, if_neg hne, hnode]
      dsimp only
      rw [hstep]
      dsimp only
      by_cases hlt : steered compare sign x.key key < 0
      · rw [if_pos hlt]
        have hr : Represents tree (plug (⟨.right, c, x, l⟩ :: ctx) r) := h
        have hpath : ∀ f ∈ (⟨.right, c, x, l⟩ :: ctx : List (Frame (Cell α))),
            (f.side = .right ↔ steered compare sign f.data.key key < 0) := by
          rw [forall_mem_cons]
          exact ⟨iff_of_true rfl hlt, hctx⟩
        obtain ⟨ctx', heq, hplug, hctx'⟩ := ih hr hpath (by omega)
        refine ⟨ctx', ?_, hplug, hctx'⟩
        rw [← heq, marksOf_cons]
        congr 1
        split <;> rfl
      rw [if_neg hlt]
      have hl : Represents tree (plug (⟨.left, c, x, r⟩ :: ctx) l) := h
      have hpath : ∀ f ∈ (⟨.left, c, x, r⟩ :: ctx : List (Frame (Cell α))),
          (f.side = .right ↔ steered compare sign f.data.key key < 0) := by
        rw [forall_mem_cons]
        exact ⟨iff_of_false (by rintro ⟨⟩) hlt, hctx⟩
      obtain ⟨ctx', heq, hplug, hctx'⟩ := ih hl hpath (by omega)
      refine ⟨ctx', ?_, hplug, hctx'⟩
      rw [← heq, marksOf_cons]
      congr 1
      split <;> rfl

theorem searchKeyLoop_unsupported (hflag : equalStep flag = none) (parents : List ℕ)
    (marks : SearchMarks) (h : Represents tree (plug ctx t)) (hfuel : t.toList.length < fuel) :
    ∃ found, searchKeyLoop compare tree key flag fuel t.addr parents marks = some found := by
  induction fuel generalizing ctx t parents marks with
  | zero => exact absurd hfuel (not_lt_zero _)
  | succ fuel ih =>
    cases t with
    | nil => exact ⟨some marks, by rw [RBTree.addr, searchKeyLoop, if_pos rfl]⟩
    | node c l x r =>
      have hnode : tree.heap x.addr = ⟨l.addr, r.addr, x.count, c, x.key⟩ := h.holds.of_plug.1
      have hne : x.addr ≠ nullElement := h.addr_ne_null
      rw [toList, length_append, length_cons] at hfuel
      rw [addr, searchKeyLoop, if_neg hne, hnode]
      dsimp only
      by_cases hzero : compare x.key key = 0
      · rw [if_pos hzero, hflag]
        exact ⟨none, rfl⟩
      rw [if_neg hzero]
      dsimp only
      have hr : Represents tree (plug (⟨.right, c, x, l⟩ :: ctx) r) := h
      have hl : Represents tree (plug (⟨.left, c, x, r⟩ :: ctx) l) := h
      split
      · exact ih _ _ hr (by omega)
      · exact ih _ _ hl (by omega)

end

/-! ### The element that is found -/

section

variable {compare : α → α → ℤ} (hc : TotalOrderComparison compare)

include hc

theorem steered_mono {sign : ℤ} {a b key : α} (hab : compare a b < 0)
    (hb : steered compare sign b key < 0) : steered compare sign a key < 0 := by
  have ha : compare a key < 0 := by
    rw [steered] at hb
    split at hb
    case isTrue hzero => exact hc.lt_of_lt_of_eq hab hzero
    case isFalse => exact hc.lt_trans hab hb
  rwa [steered, if_neg ha.ne]

section

variable {key : α} {sign : ℤ} (hsorted : Increasing compare (plug ctx .nil).toList)
  (hctx : ∀ f ∈ ctx, (f.side = .right ↔ steered compare sign f.data.key key < 0))
include hsorted hctx

theorem steered_before : ∀ x ∈ before ctx, steered compare sign x.key key < 0 := by
  rw [toList_plug] at hsorted
  intro x hx
  rcases mark_right_spec ctx .nil with ⟨hnil, -⟩ | ⟨y, init, parents, hinit, -, -, f, hf, hside, rfl⟩
  · rw [hnil] at hx
    exact absurd hx not_mem_nil
  have hlast := (hctx f hf).mp hside
  rw [hinit] at hx hsorted
  rcases mem_append.mp hx with hx | hx
  · have hpair := (pairwise_append.mp (pairwise_append.mp (pairwise_append.mp hsorted).1).1).2.2
    exact steered_mono hc (hpair x hx f.data (mem_singleton.mpr rfl)) hlast
  · rwa [mem_singleton.mp hx]

theorem steered_after : ∀ x ∈ after ctx, ¬ steered compare sign x.key key < 0 := by
  rw [toList_plug] at hsorted
  intro x hx
  rcases mark_left_spec ctx .nil with ⟨hnil, -⟩ | ⟨y, rest, parents, hrest, -, -, f, hf, hside, rfl⟩
  · rw [hnil] at hx
    exact absurd hx not_mem_nil
  have hfirst : ¬ steered compare sign f.data.key key < 0 := fun hlt => by
    have := (hctx f hf).mpr hlt
    rw [hside] at this
    exact nomatch this
  have hpair := (pairwise_append.mp hsorted).2.1
  rw [hrest] at hx hpair
  rcases mem_cons.mp hx with rfl | hx
  · exact hfirst
  · exact fun hlt => hfirst (steered_mono hc ((pairwise_cons.mp hpair).1 x hx) hlt)

end

omit hc in
/-- The first element that satisfies a test which holds from some point on. -/
theorem find?_append_of_forall {xs ys : List (Cell α)} (hxs : ∀ x ∈ xs, ¬ p x = true)
    (hys : ∀ y ∈ ys, p y = true) : (xs ++ ys).find? p = ys.head? := by
  rw [find?_append, find?_eq_none.mpr hxs, Option.none_or]
  cases ys with
  | nil => rfl
  | cons y ys => exact find?_cons_of_pos (hys y mem_cons_self)

omit hc in
theorem find?_reverse_append_of_forall {xs ys : List (Cell α)} (hxs : ∀ x ∈ xs, p x = true)
    (hys : ∀ y ∈ ys, ¬ p y = true) : (xs ++ ys).reverse.find? p = xs.getLast? := by
  rw [reverse_append, find?_append_of_forall, head?_reverse]
  · exact fun y hy => hys y (mem_reverse.mp hy)
  · exact fun x hx => hxs x (mem_reverse.mp hx)

omit hc in
theorem mark_left_rel (ctx : List (Frame (Cell α))) (t : RBTree (Cell α)) :
    Option.Rel (PointsTo (plug ctx t)) (mark .left ctx) (after ctx).head? := by
  rcases mark_left_spec ctx t with ⟨hafter, hmark⟩ | ⟨x, rest, parents, hafter, hmark, hx, -⟩
  · rw [hafter, hmark]
    exact .none
  · rw [hafter, hmark]
    exact .some hx

omit hc in
theorem mark_right_rel (ctx : List (Frame (Cell α))) (t : RBTree (Cell α)) :
    Option.Rel (PointsTo (plug ctx t)) (mark .right ctx) (before ctx).getLast? := by
  rcases mark_right_spec ctx t with ⟨hbefore, hmark⟩ | ⟨x, init, parents, hbefore, hmark, hx, -⟩
  · rw [hbefore, hmark]
    exact .none
  · rw [hbefore, hmark, getLast?_append]
    exact .some hx

theorem Increasing.eq_of_equal {cells : List (Cell α)} (h : Increasing compare cells) {key : α}
    (hx : x ∈ cells) (hy : y ∈ cells) (hxkey : compare x.key key = 0)
    (hykey : compare y.key key = 0) : x = y := by
  obtain ⟨i, hi, rfl⟩ := getElem_of_mem hx
  obtain ⟨j, hj, rfl⟩ := getElem_of_mem hy
  have hpair := pairwise_iff_getElem.mp h
  rcases lt_trichotomy i j with hij | rfl | hij
  · exact absurd hxkey (hc.lt_of_lt_of_eq (hpair i j hi hj hij) hykey).ne
  · rfl
  · exact absurd hykey (hc.lt_of_lt_of_eq (hpair j i hj hi hij) hxkey).ne

variable {key : α} {sign : ℤ} {ctx : List (Frame (Cell α))}
  (hsorted : Increasing compare (plug ctx .nil).toList)
  (hctx : ∀ f ∈ ctx, (f.side = .right ↔ steered compare sign f.data.key key < 0))

include hsorted hctx

theorem head?_after_of_equal (hy : y ∈ after ctx) (hzero : compare y.key key = 0) :
    (after ctx).head? = some y := by
  have hafter := steered_after hc hsorted hctx
  rw [toList_plug] at hsorted
  have hpair := (pairwise_append.mp hsorted).2.1
  cases hlist : after ctx with
  | nil =>
    rw [hlist] at hy
    exact absurd hy not_mem_nil
  | cons z rest =>
    rw [hlist] at hy hpair hafter
    rcases mem_cons.mp hy with rfl | hy
    · rfl
    have hz := hc.lt_of_lt_of_eq ((pairwise_cons.mp hpair).1 y hy) hzero
    have hnot := hafter z mem_cons_self
    rw [steered, if_neg hz.ne] at hnot
    exact absurd hz hnot

theorem getLast?_before_of_equal (hy : y ∈ before ctx) (hzero : compare y.key key = 0) :
    (before ctx).getLast? = some y := by
  have hbefore := steered_before hc hsorted hctx
  rw [toList_plug] at hsorted
  have hpair := (pairwise_append.mp (pairwise_append.mp hsorted).1).1
  rcases eq_nil_or_concat (before ctx) with hlist | ⟨init, z, hlist⟩
  · rw [hlist] at hy
    exact absurd hy not_mem_nil
  rw [hlist] at hy hpair hbefore ⊢
  rw [concat_eq_append] at hy hpair hbefore ⊢
  rcases mem_append.mp hy with hy | hy
  · have hz := hc.gt_of_lt_of_eq
      ((pairwise_append.mp hpair).2.2 y hy z (mem_singleton.mpr rfl)) hzero
    have hlt := hbefore z (mem_append_right _ (mem_singleton.mpr rfl))
    rw [steered, if_neg hz.ne'] at hlt
    exact absurd hlt hz.not_gt
  · rw [mem_singleton.mp hy, getLast?_append]
    rfl

theorem equalMark_rel :
    Option.Rel (PointsTo (plug ctx .nil)) (equalMark compare key ctx)
      ((plug ctx .nil).toList.find? fun x => compare x.key key = 0) := by
  rcases equalMark_spec compare key ctx .nil with
    ⟨hmark, hne⟩ | ⟨x, parents, hmark, hzero, hx⟩
  · have hnone : ∀ y ∈ (plug ctx nil).toList, compare y.key key ≠ 0 := by
      intro y hy hzero
      rw [toList_plug, toList, append_nil] at hy
      rcases mem_append.mp hy with hy | hy
      · have hlast := getLast?_before_of_equal hc hsorted hctx hy hzero
        rcases mark_right_spec ctx .nil with
          ⟨hnil, -⟩ | ⟨z, init, parents, hinit, -, -, f, hf, -, rfl⟩
        · rw [hnil] at hy
          exact absurd hy not_mem_nil
        rw [hinit, getLast?_append] at hlast
        obtain rfl : f.data = y := Option.some.inj hlast
        exact hne f hf hzero
      have hfirst := head?_after_of_equal hc hsorted hctx hy hzero
      rcases mark_left_spec ctx .nil with
        ⟨hnil, -⟩ | ⟨z, rest, parents, hrest, -, -, f, hf, -, rfl⟩
      · rw [hnil] at hy
        exact absurd hy not_mem_nil
      rw [hrest, head?_cons] at hfirst
      obtain rfl : f.data = y := Option.some.inj hfirst
      exact hne f hf hzero
    rw [hmark, find?_eq_none.mpr fun y hy => by simpa using hnone y hy]
    exact .none
  · have hfind : (plug ctx .nil).toList.find? (fun x => compare x.key key = 0) = some x := by
      cases hfound : (plug ctx .nil).toList.find? (fun x => compare x.key key = 0) with
      | none =>
        have := find?_eq_none.mp hfound x hx.mem
        exact absurd (decide_eq_true hzero) this
      | some y =>
        have hy := find?_some hfound
        rw [decide_eq_true_eq] at hy
        rw [hsorted.eq_of_equal hc (mem_of_find?_eq_some hfound) hx.mem hy hzero]
    rw [hmark, hfind]
    exact .some hx

end

section

variable (compare : α → α → ℤ) (a key : α)

theorem steered_one : steered compare 1 a key < 0 ↔ compare a key < 0 := by
  rw [steered]
  split <;> omega

theorem steered_neg_one : steered compare (-1) a key < 0 ↔ compare a key ≤ 0 := by
  rw [steered]
  split <;> omega

end

/-- An element with the key is preferred, and it is the one that is looked for. -/
theorem Rel.or_of_imp {r : List ℕ → Cell α → Prop} {a b : Option (List ℕ)}
    {x y : Option (Cell α)} (ha : Option.Rel r a x) (hb : Option.Rel r b y)
    (h : ∀ z, x = some z → y = some z) : Option.Rel r (a.or b) y := by
  cases ha with
  | none => exact hb
  | some hr =>
    rw [h _ rfl]
    exact .some hr

theorem position_rel {compare : α → α → ℤ} (hc : TotalOrderComparison compare) {key : α} {sign : ℤ}
    (hflag : equalStep flag = some (equal, sign))
    (hsorted : Increasing compare (plug ctx .nil).toList)
    (hctx : ∀ f ∈ ctx, (f.side = .right ↔ steered compare sign f.data.key key < 0)) :
    Option.Rel (PointsTo (plug ctx .nil)) ((marksOf compare key equal ctx).position flag)
      (demanded compare key (plug ctx .nil).toList flag) := by
  have hequal := equalMark_rel hc hsorted hctx
  have hleft := mark_left_rel ctx .nil
  have hright := mark_right_rel ctx .nil
  have hbefore := steered_before hc hsorted hctx
  have hafter := steered_after hc hsorted hctx
  have hsplit : (plug ctx .nil).toList = before ctx ++ after ctx := by
    rw [toList_plug, toList, append_nil]
  have hfound : ∀ y, (plug ctx .nil).toList.find? (fun x => compare x.key key = 0) = some y →
      (y ∈ before ctx ∨ y ∈ after ctx) ∧ compare y.key key = 0 := by
    intro y hy
    have hzero := find?_some hy
    rw [decide_eq_true_eq] at hzero
    have hmem := mem_of_find?_eq_some hy
    rw [hsplit] at hmem
    exact ⟨mem_append.mp hmem, hzero⟩
  have hfirst : ∀ {p : Cell α → Bool}, (∀ x ∈ before ctx, ¬ p x = true) →
      (∀ x ∈ after ctx, p x = true) → (plug ctx .nil).toList.find? p = (after ctx).head? := by
    rw [hsplit]
    exact find?_append_of_forall
  have hlast : ∀ {p : Cell α → Bool}, (∀ x ∈ before ctx, p x = true) →
      (∀ x ∈ after ctx, ¬ p x = true) →
      (plug ctx .nil).toList.reverse.find? p = (before ctx).getLast? := by
    rw [hsplit]
    exact find?_reverse_append_of_forall
  cases flag <;> cases hflag
  case keyExact => exact hequal
  case prefixLast => exact hequal
  case keyOrNext =>
    simp only [steered_one, not_lt] at hbefore hafter
    rw [demanded, hfirst (by simpa using hbefore) (by simpa using hafter)]
    refine Rel.or_of_imp hequal hleft fun y hy => ?_
    obtain ⟨hmem, hzero⟩ := hfound y hy
    exact head?_after_of_equal hc hsorted hctx
      (hmem.resolve_left fun hmem => (hbefore y hmem).ne hzero) hzero
  case afterKey =>
    simp only [steered_neg_one, not_le] at hbefore hafter
    rw [demanded, hfirst (by simpa using hbefore) (by simpa using hafter)]
    exact hleft
  case beforeKey =>
    simp only [steered_one, not_lt] at hbefore hafter
    rw [demanded, hlast (by simpa using hbefore) (by simpa using hafter)]
    exact hright
  case prefixLastOrPrev =>
    simp only [steered_neg_one, not_le] at hbefore hafter
    rw [demanded, hlast (by simpa using hbefore) (by simpa using hafter)]
    refine Rel.or_of_imp hequal hright fun y hy => ?_
    obtain ⟨hmem, hzero⟩ := hfound y hy
    exact getLast?_before_of_equal hc hsorted hctx
      (hmem.resolve_right fun hmem => (hafter y hmem).ne' hzero) hzero

theorem treeSearchKey_rel {compare : α → α → ℤ} (hc : TotalOrderComparison compare)
    (h : tree.RedBlack compare t) {sign : ℤ} (hflag : equalStep flag = some (equal, sign))
    (key : α) :
    ∃ cursor, treeSearchKey compare tree key flag = some cursor ∧
      Option.Rel (PointsTo t) cursor (demanded compare key t.toList flag) := by
  have hfuel : t.toList.length < tree.elementsInTree + 1 := by
    rw [h.elements]
    exact lt_succ_self _
  have hroot : Represents tree (plug [] t) := h.represents
  obtain ⟨ctx, hloop, hplug, hctx⟩ := searchKeyLoop_spec compare key hflag hroot
    (fun f hf => absurd hf not_mem_nil) hfuel
  rw [← h.represents.root] at hloop
  have hplug : plug ctx .nil = t := hplug
  have hinit : marksOf compare key equal [] = ⟨none, none, none⟩ := by cases equal <;> rfl
  subst hplug
  refine ⟨_, ?_, position_rel hc hflag (pairwise_map.mp h.increasing) hctx⟩
  rw [hinit] at hloop
  rw [treeSearchKey]
  exact congrArg (Option.bind · _) hloop

def OrderedCursor (tree : Tree α) (t : RBTree (Cell α)) (parents : List ℕ) : Prop :=
  ∀ side, ∃ visited x rest, t.visits side = visited ++ x :: rest ∧ parents.head? = some x.addr ∧
    searchRest tree side (tree.elementsInTree + 1) parents = some (rest.map Cell.addr)

section

variable {compare : α → α → ℤ} (h : tree.RedBlack compare t)
include h

theorem PointsTo.cursor (hx : PointsTo t parents x) : OrderedCursor tree t parents := by
  intro side
  obtain ⟨visited, rest, hvisits, hrest⟩ := hx.enumerates h.represents h.elements.symm side
  obtain ⟨ctx, c, l, r, -, rfl⟩ := hx
  exact ⟨visited, x, rest, hvisits, rfl, hrest⟩

theorem treeSearchEdge_rel (side : Side) :
    ∃ cursor, treeSearchEdge tree side = some cursor ∧
      Option.Rel (PointsTo t) cursor (t.visits side).head? := by
  rw [treeSearchEdge, h.represents.root]
  by_cases hnil : t = .nil
  · subst hnil
    refine ⟨none, ?_, ?_⟩
    · rw [RBTree.addr, descendEdge, if_pos rfl]
      rfl
    · cases side <;> exact .none
  have hroot : Represents tree (plug [] t) := h.represents
  obtain ⟨ctx, c, x, far, heq, hplug, hvisits⟩ :=
    descendEdge_spec hroot side hnil (lt_succ_of_le h.elements.symm.le)
  have hplug : plug ctx (ofSides side c x .nil far) = t := hplug
  have hx : x.addr ≠ nullElement := by
    have hrep := h.represents
    rw [← hplug] at hrep
    have := hrep.addr_ne_null_of_ne_nil (ofSides_ne_nil _ _ _ _ _)
    rwa [addr_ofSides] at this
  have hhead : (t.visits side).head? = some x := by
    rw [later, append_nil] at hvisits
    rw [hvisits]
    rfl
  refine ⟨some (x.addr :: ancestors ctx), ?_, ?_⟩
  · have heq : descendEdge tree side (tree.elementsInTree + 1) t.addr [nullElement] = _ := heq
    rw [heq, Option.bind_eq_bind, Option.bind_some, head?_cons,
      if_neg fun hcontra => hx (Option.some.inj hcontra)]
    rfl
  rw [hhead]
  refine .some ?_
  cases side with
  | left => exact ⟨ctx, c, .nil, far, hplug, rfl⟩
  | right => exact ⟨ctx, c, far, .nil, hplug, rfl⟩

theorem cursor_of_rel {cursor : Option (List ℕ)} {x : Option (Cell α)}
    (hrel : Option.Rel (PointsTo t) cursor x) :
    cursor.bind List.head? = x.map Cell.addr ∧
      ∀ parents, cursor = some parents → OrderedCursor tree t parents := by
  cases hrel with
  | none => exact ⟨rfl, fun parents hcontra => nomatch hcontra⟩
  | some hx =>
    refine ⟨?_, fun parents hparents => ?_⟩
    · obtain ⟨ctx, c, l, r, -, rfl⟩ := hx
      rfl
    · cases hparents
      exact hx.cursor h

end

def supportedFlags : List ReadFlag :=
  [.keyExact, .keyOrNext, .afterKey, .beforeKey, .prefixLast, .prefixLastOrPrev]

theorem mem_supportedFlags : flag ∈ supportedFlags ↔ (equalStep flag).isSome = true := by
  cases flag <;> decide

theorem SearchMarks.position_eq_none (marks : SearchMarks) (hflag : equalStep flag = none) :
    marks.position flag = none := by
  cases flag <;> first | rfl | exact nomatch hflag

/-- In a red-black tree, `tree_search_key` finds the element that the flag demands,
`tree_search_edge` finds the first or last one, and from there `tree_search_next` goes to the
remaining elements in order. -/
theorem Tree.RedBlack.cursor_spec {compare : α → α → ℤ} (hc : TotalOrderComparison compare)
    {tree : Tree α} {t : RBTree (Cell α)} (h : tree.RedBlack compare t) :
    (∀ flag ∈ supportedFlags, ∀ key, ∃ cursor, treeSearchKey compare tree key flag = some cursor ∧
      cursor.bind List.head? = (demanded compare key t.toList flag).map Cell.addr ∧
      ∀ parents, cursor = some parents → OrderedCursor tree t parents) ∧
    (∀ flag ∉ supportedFlags, ∀ key, treeSearchKey compare tree key flag = some none) ∧
    ∀ side, ∃ cursor, treeSearchEdge tree side = some cursor ∧
      cursor.bind List.head? = (t.visits side).head?.map Cell.addr ∧
      ∀ parents, cursor = some parents → OrderedCursor tree t parents := by
  refine ⟨fun flag hflag key => ?_, fun flag hflag key => ?_, fun side => ?_⟩
  · obtain ⟨⟨equal, sign⟩, hstep⟩ := Option.isSome_iff_exists.mp (mem_supportedFlags.mp hflag)
    obtain ⟨cursor, hcursor, hrel⟩ := treeSearchKey_rel hc h hstep key
    exact ⟨cursor, hcursor, cursor_of_rel h hrel⟩
  · have hstep : equalStep flag = none := by
      rw [← Option.not_isSome_iff_eq_none]
      exact fun hsome => hflag (mem_supportedFlags.mpr hsome)
    have hroot : Represents tree (plug [] t) := h.represents
    obtain ⟨found, hfound⟩ := searchKeyLoop_unsupported compare key hstep [nullElement]
      ⟨none, none, none⟩ hroot (lt_succ_of_le h.elements.symm.le)
    rw [← h.represents.root] at hfound
    rw [treeSearchKey, hfound]
    cases found with
    | none => rfl
    | some marks => exact congrArg some (marks.position_eq_none hstep)
  · obtain ⟨cursor, hcursor, hrel⟩ := treeSearchEdge_rel h side
    exact ⟨cursor, hcursor, cursor_of_rel h hrel⟩

theorem Tree.RedBlack.cursor_spec_sub :
    TotalOrderComparison (fun a b : ℤ => a - b) ∧
    ∃ tree t, (Tree.start 0 4 true false false).run (fun a b : ℤ => a - b)
      [.insert 2 0, .insert 1 0, .insert 3 0] = some tree ∧
      tree.RedBlack (fun a b : ℤ => a - b) t ∧
      (∀ flag ∈ supportedFlags, ∀ key, ∃ cursor,
        treeSearchKey (fun a b : ℤ => a - b) tree key flag = some cursor ∧
        cursor.bind List.head? = (demanded (fun a b : ℤ => a - b) key t.toList flag).map Cell.addr ∧
        ∀ parents, cursor = some parents → OrderedCursor tree t parents) ∧
      (∀ flag ∉ supportedFlags, ∀ key,
        treeSearchKey (fun a b : ℤ => a - b) tree key flag = some none) ∧
      ∀ side, ∃ cursor, treeSearchEdge tree side = some cursor ∧
        cursor.bind List.head? = (t.visits side).head?.map Cell.addr ∧
        ∀ parents, cursor = some parents → OrderedCursor tree t parents := by
  have hc := totalOrderComparison_sub
  obtain ⟨tree, t, hrun, h⟩ := (TreeInvariant.start _ 0 4 true false false).run hc
    [.insert 2 0, .insert 1 0, .insert 3 0]
  exact ⟨hc, tree, t, hrun, h.redBlack, Tree.RedBlack.cursor_spec hc h.redBlack⟩

/-- `HA_READ_KEY_OR_PREV` is not supported: the search for 2 in a tree with the element 1 returns
`NULL`. -/
theorem treeSearchKey_keyOrPrev :
    ∃ tree t, (Tree.start 0 4 true false false).run (fun a b : ℤ => a - b) [.insert 1 0] =
        some tree ∧
      tree.RedBlack (fun a b : ℤ => a - b) t ∧
      (demanded (fun a b : ℤ => a - b) 2 t.toList .keyOrPrev).isSome = true ∧
      treeSearchKey (fun a b : ℤ => a - b) tree 2 .keyOrPrev = some none := by
  have hc := totalOrderComparison_sub
  obtain ⟨tree, t, hrun, h⟩ := (TreeInvariant.start _ 0 4 true false false).run hc [.insert 1 0]
  have hwalk : treeWalk tree collectKey [] .left = some (0, [1]) := by
    have hbind : ((Tree.start 0 4 true false false).run (fun a b : ℤ => a - b)
        [.insert 1 0]).bind (fun tree => treeWalk tree collectKey [] .left) = some (0, [1]) := rfl
    rwa [hrun] at hbind
  have hsearch : treeSearchKey (fun a b : ℤ => a - b) tree 2 .keyOrPrev = some none := by
    have hbind : ((Tree.start 0 4 true false false).run (fun a b : ℤ => a - b)
        [.insert 1 0]).bind (fun tree => treeSearchKey (fun a b : ℤ => a - b) tree 2 .keyOrPrev) =
          some none := rfl
    rwa [hrun] at hbind
  refine ⟨tree, t, hrun, h.redBlack, ?_, hsearch⟩
  have hkeys := h.redBlack.traversal.symm.trans hwalk
  have hkeys : t.toList.map Cell.key = [1] := congrArg Prod.snd (Option.some.inj hkeys)
  obtain ⟨x, hx, hkey⟩ := map_eq_singleton_iff.mp hkeys
  rw [hx, demanded, reverse_singleton, find?_cons_of_pos]
  · rfl
  · rw [hkey]
    rfl

end LibSources
