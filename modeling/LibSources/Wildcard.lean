import Mathlib.Tactic

/-!
# Matching with Wildcards

A pattern is a list of tokens over an arbitrary alphabet. A matcher that backtracks answers 0 for
a match, and a negative number if no later start can match either; the rules for such an answer
follow the tokens of the pattern.
-/

namespace LibSources

open List

variable {α β : Type*}

inductive Wild (β : Type*) where
  | lit (c : β)
  | one
  | many

/-- `r` says which characters a literal matches. -/
def Matches (r : β → α → Prop) : List (Wild β) → List α → Prop
  | [], s => s = []
  | .lit c :: p, s => ∃ x t, s = x :: t ∧ r c x ∧ Matches r p t
  | .one :: p, s => ∃ x t, s = x :: t ∧ Matches r p t
  | .many :: p, s => ∃ t, t <:+ s ∧ Matches r p t

/-- The answer `v` of a matcher for `P`. Without `H`, it may miss a match. -/
structure Answers (H : Prop) (P : List α → Prop) (s : List α) (v : ℤ) : Prop where
  sound : v = 0 → P s
  complete : H → P s → v = 0
  prune : H → v < 0 → ∀ t, t <:+ s → ¬P t

/-- The search for a character behind which the rest matches. Without `more`, the first one is the
only one that is tried. -/
def search (found : α → Bool) (more : Bool) (rest : List α → ℤ) : List α → ℤ
  | [] => -1
  | x :: s =>
    if found x = false then search found more rest s
    else if rest s ≤ 0 then rest s
    else if more ∧ s ≠ [] then search found more rest s
    else -1

/-- The characters that are special in a pattern. -/
structure LikeChars (β : Type*) where
  escape : β
  one : β
  many : β
  escape_ne_one : escape ≠ one
  escape_ne_many : escape ≠ many
  one_ne_many : one ≠ many

/-- An escape at the end stands for itself. -/
def LikeChars.tokens [DecidableEq β] (w : LikeChars β) : List β → List (Wild β)
  | [] => []
  | c :: p =>
    if c = w.many then .many :: w.tokens p
    else if c = w.one then .one :: w.tokens p
    else if c = w.escape then
      match p with
      | [] => [.lit c]
      | d :: p => .lit d :: w.tokens p
    else .lit c :: w.tokens p

/-- The tokens that are left. Behind a `many`, wildcards are skipped. -/
def skipped (skipping : Bool) (p : List (Wild β)) : List (Wild β) :=
  if skipping then .many :: p else p

/-- The pattern ends in a `many`, any number of `one`s and the literal `c`. -/
def EndsOpen (c : β) (p : List (Wild β)) : Prop :=
  ∃ front k, p = front ++ .many :: (replicate k .one ++ [.lit c])

/-! ### The rules -/

variable {c : β} {x : α} (skipping : Bool)

theorem exists_cons_suffix_iff {u s : List α} : (∃ y, y :: u <:+ x :: s) ↔ u <:+ s := by
  constructor
  · rintro ⟨y, hy⟩
    rcases suffix_cons_iff.mp hy with heq | hsuf
    · rw [(cons.inj heq).2]
    · exact (suffix_cons y u).trans hsuf
  · rintro ⟨front, rfl⟩
    obtain ⟨init, y, heq⟩ := (eq_nil_or_concat (x :: front)).resolve_left (cons_ne_nil x front)
    exact ⟨y, init, by rw [← cons_append, heq, concat_append]⟩

variable {H : Prop} {P Q : List α → Prop} {r : β → α → Prop} {p : List (Wild β)} {s : List α}
  {v : ℤ}

theorem Matches.mono {r' : β → α → Prop} (hr : ∀ c x, r c x → r' c x) (h : Matches r p s) :
    Matches r' p s := by
  induction p generalizing s with
  | nil => exact h
  | cons c p ih =>
    cases c with
    | lit c =>
      obtain ⟨x, t, hs, hx, h⟩ := h
      exact ⟨x, t, hs, hr c x hx, ih h⟩
    | one =>
      obtain ⟨x, t, hs, h⟩ := h
      exact ⟨x, t, hs, ih h⟩
    | many =>
      obtain ⟨t, ht, h⟩ := h
      exact ⟨t, ht, ih h⟩

theorem Matches.exists_mem (h : Matches r p s) (hc : .lit c ∈ p) : ∃ x ∈ s, r c x := by
  induction p generalizing s with
  | nil => exact absurd hc not_mem_nil
  | cons t p ih =>
    cases t with
    | lit d =>
      obtain ⟨x, t, rfl, hx, h⟩ := h
      rcases mem_cons.mp hc with heq | hc
      · rw [Wild.lit.inj heq]
        exact ⟨x, mem_cons_self, hx⟩
      · obtain ⟨y, hy, hr⟩ := ih h hc
        exact ⟨y, mem_cons_of_mem x hy, hr⟩
    | one =>
      obtain ⟨x, t, rfl, h⟩ := h
      obtain ⟨y, hy, hr⟩ := ih h (by simpa using hc)
      exact ⟨y, mem_cons_of_mem x hy, hr⟩
    | many =>
      obtain ⟨t, ht, h⟩ := h
      obtain ⟨y, hy, hr⟩ := ih h (by simpa using hc)
      exact ⟨y, ht.subset hy, hr⟩

theorem EndsOpen.of_many (h : EndsOpen c (.many :: p)) :
    EndsOpen c p ∨ ∃ k, p = replicate k .one ++ [.lit c] := by
  obtain ⟨_ | ⟨t, front⟩, k, heq⟩ := h
  · exact .inr ⟨k, (cons.inj heq).2⟩
  · exact .inl ⟨front, k, (cons.inj heq).2⟩

theorem EndsOpen.cons (h : EndsOpen c p) (t : Wild β) : EndsOpen c (t :: p) := by
  obtain ⟨front, k, rfl⟩ := h
  exact ⟨t :: front, k, rfl⟩

theorem EndsOpen.of_cons {t : Wild β} (ht : t ≠ .many) (h : EndsOpen c (t :: p)) :
    EndsOpen c p := by
  obtain ⟨_ | ⟨t, front⟩, k, heq⟩ := h
  · exact absurd (cons.inj heq).1 ht
  · exact ⟨front, k, (cons.inj heq).2⟩

/-- A pattern that ends openly in `c` matches a string with any number of `x` at its end. -/
theorem EndsOpen.exists_matches (h : EndsOpen c p) (r : β → α → Prop) (hr : ∀ c, ∃ x, r c x)
    (x : α) (hx : r c x) (n : ℕ) : ∃ u, Matches r p (u ++ replicate (n + 1) x) := by
  obtain ⟨front, k, rfl⟩ := h
  induction front with
  | nil =>
    have hlit : Matches r [.lit c] [x] := ⟨x, [], rfl, hx, rfl⟩
    have hones : ∀ k, Matches r (replicate k .one ++ [.lit c]) (replicate k x ++ [x]) := by
      intro k
      induction k with
      | zero => exact hlit
      | succ k ih => exact ⟨x, _, rfl, ih⟩
    refine ⟨replicate k x, replicate k x ++ [x], ?_, hones k⟩
    rw [← replicate_succ', ← replicate_add]
    exact ⟨replicate n x, by rw [← replicate_add]; congr 1; omega⟩
  | cons t front ih =>
    obtain ⟨u, hu⟩ := ih
    cases t with
    | lit d =>
      obtain ⟨y, hy⟩ := hr d
      exact ⟨y :: u, y, _, rfl, hy, hu⟩
    | one => exact ⟨x :: u, x, _, rfl, hu⟩
    | many => exact ⟨u, _, suffix_rfl, hu⟩

theorem endsOpen_skipped_many (h : EndsOpen c (skipped skipping (.many :: p))) :
    EndsOpen c (.many :: p) := by
  cases skipping with
  | false => exact h
  | true =>
    refine h.of_many.resolve_right ?_
    rintro ⟨_ | k, heq⟩
    · cases (cons.inj heq).1
    · cases (cons.inj heq).1

theorem endsOpen_skipped_one :
    EndsOpen c (skipped skipping (.one :: p)) ↔ EndsOpen c (skipped skipping p) := by
  cases skipping with
  | false => exact ⟨fun h => h.of_cons (by simp), fun h => h.cons _⟩
  | true =>
    constructor
    · intro h
      rcases h.of_many with h | ⟨_ | k, heq⟩
      · exact (h.of_cons (by simp)).cons _
      · cases (cons.inj heq).1
      · exact ⟨[], k, congrArg _ (cons.inj heq).2⟩
    · intro h
      rcases h.of_many with h | ⟨k, heq⟩
      · exact (h.cons _).cons _
      · exact ⟨[], k + 1, by rw [heq]; rfl⟩

theorem endsOpen_skipped_lit {d : β} : EndsOpen c (skipped skipping (.lit d :: p)) ↔
    EndsOpen c p ∨ skipping = true ∧ d = c ∧ p = [] := by
  cases skipping with
  | false =>
    rw [or_iff_left fun h => Bool.false_ne_true h.1]
    exact ⟨fun h => h.of_cons (by simp), fun h => h.cons _⟩
  | true =>
    constructor
    · intro h
      rcases h.of_many with h | ⟨_ | k, heq⟩
      · exact .inl (h.of_cons (by simp))
      · exact .inr ⟨rfl, Wild.lit.inj (cons.inj heq).1, (cons.inj heq).2⟩
      · cases (cons.inj heq).1
    · rintro (h | ⟨-, rfl, rfl⟩)
      · exact (h.cons _).cons _
      · exact ⟨[], 0, rfl⟩

theorem Answers.mismatch (hP : ¬P s) : Answers H P s 1 where
  sound h := absurd h one_ne_zero
  complete _ h := absurd h hP
  prune _ h := absurd h (by decide)

/-- A character is taken. -/
theorem Answers.cons (h : Answers H Q s v) (hx : Q s → P (x :: s))
    (hP : ∀ y t, P (y :: t) → Q t) (hnil : ¬P []) : Answers H P (x :: s) v where
  sound hv := hx (h.sound hv)
  complete hH hs := h.complete hH (hP x s hs)
  prune hH hv t ht hPt := by
    cases t with
    | nil => exact hnil hPt
    | cons y t => exact h.prune hH hv t (exists_cons_suffix_iff.mp ⟨y, ht⟩) (hP y t hPt)

/-- Where a suffix matches, the pruning is sound. -/
theorem Answers.of_suffix (h0 : v = 0 → ∃ t, t <:+ s ∧ Q t)
    (h1 : H → (∃ t, t <:+ s ∧ Q t) → v = 0) : Answers H (fun s => ∃ t, t <:+ s ∧ Q t) s v where
  sound := h0
  complete := h1
  prune hH hneg t ht := by
    rintro ⟨u, hu, hQ⟩
    exact hneg.ne (h1 hH ⟨u, hu.trans ht, hQ⟩)

theorem answers_end [DecidableEq α] (skipping : Bool) (s : List α) :
    Answers H (Matches r (skipped skipping [])) s (if skipping ∨ s = [] then 0 else 1) := by
  cases skipping with
  | true => exact Answers.of_suffix (fun _ => ⟨[], nil_suffix, rfl⟩) fun _ _ => rfl
  | false =>
    cases s with
    | nil => exact ⟨fun _ => rfl, fun _ _ => rfl, fun _ h => absurd h (lt_irrefl 0)⟩
    | cons x s => exact Answers.mismatch (cons_ne_nil x s)

theorem Answers.many (h : Answers H (Matches r (.many :: p)) s v) (skipping : Bool) :
    Answers H (Matches r (skipped skipping (.many :: p))) s v := by
  cases skipping with
  | true =>
    refine Answers.of_suffix (fun hv => ⟨s, suffix_rfl, h.sound hv⟩) fun hH => ?_
    rintro ⟨t, ht, u, hu, hp⟩
    exact h.complete hH ⟨u, hu.trans ht, hp⟩
  | false => exact h

theorem not_matches_one_nil : ¬Matches r (skipped skipping (.one :: p)) [] := by
  cases skipping with
  | true =>
    rintro ⟨t, ht, x, u, rfl, -⟩
    exact cons_ne_nil x u (suffix_nil.mp ht)
  | false => exact fun ⟨_, _, h, _⟩ => cons_ne_nil _ _ h.symm

theorem answers_one_nil (hv : v ≠ 0) :
    Answers H (Matches r (skipped skipping (.one :: p))) [] v where
  sound h := absurd h hv
  complete _ h := absurd h (not_matches_one_nil skipping)
  prune _ _ t ht := by
    rw [suffix_nil.mp ht]
    exact not_matches_one_nil skipping

theorem Answers.one {skipping : Bool} (h : Answers H (Matches r (skipped skipping p)) s v) (x : α) :
    Answers H (Matches r (skipped skipping (.one :: p))) (x :: s) v := by
  refine h.cons ?_ ?_ (not_matches_one_nil skipping)
  · cases skipping with
    | true =>
      rintro ⟨t, ht, hp⟩
      obtain ⟨y, hy⟩ := exists_cons_suffix_iff.mpr ht
      exact ⟨y :: t, hy, y, t, rfl, hp⟩
    | false => exact fun hp => ⟨x, s, rfl, hp⟩
  cases skipping with
  | true =>
    rintro y t ⟨_, hu, z, u, rfl, hp⟩
    exact ⟨u, exists_cons_suffix_iff.mp ⟨z, hu⟩, hp⟩
  | false =>
    rintro y t ⟨_, _, heq, hp⟩
    rwa [(cons.inj heq).2]

theorem not_matches_lit_nil : ¬Matches r (.lit c :: p) [] :=
  fun ⟨_, _, h, _⟩ => cons_ne_nil _ _ h.symm

theorem Answers.lit (h : Answers H (Matches r p) s v) (hx : r c x) :
    Answers H (Matches r (.lit c :: p)) (x :: s) v := by
  refine h.cons (fun hp => ⟨x, s, rfl, hx, hp⟩) ?_ not_matches_lit_nil
  rintro y t ⟨_, _, heq, -, hp⟩
  rwa [(cons.inj heq).2]

theorem answers_lit_ne (hx : ¬r c x) : Answers H (Matches r (.lit c :: p)) (x :: s) 1 := by
  refine Answers.mismatch ?_
  rintro ⟨y, t, heq, hy, -⟩
  rw [(cons.inj heq).1] at hx
  exact hx hy

variable {found : α → Bool} {more : Bool} {rest : List α → ℤ}

theorem search_nonpos (s : List α) : search found more rest s ≤ 0 := by
  induction s with
  | nil => exact neg_one_lt_zero.le
  | cons x s ih =>
    rw [search]
    split_ifs with h1 h2 h3
    · exact ih
    · exact h2
    · exact ih
    · decide

theorem search_sound (hrest : ∀ s, rest s = 0 → P s) (hs : search found more rest s = 0) :
    ∃ x t, x :: t <:+ s ∧ found x = true ∧ P t := by
  induction s with
  | nil => exact absurd hs (neg_ne_zero.mpr one_ne_zero)
  | cons x s ih =>
    have hlater : search found more rest s = 0 → ∃ y t, y :: t <:+ x :: s ∧ found y = true ∧ P t :=
      fun h => by
        obtain ⟨y, t, ht, hfound⟩ := ih h
        exact ⟨y, t, ht.trans (suffix_cons x s), hfound⟩
    rw [search] at hs
    split_ifs at hs with h1 h2 h3
    · exact hlater hs
    · exact ⟨x, s, suffix_rfl, by simpa using h1, hrest s hs⟩
    · exact hlater hs

/-- The search finds a match if the rest prunes soundly and a failed try leads to another one. -/
theorem search_complete (hH : H) (hrest : ∀ s, Answers H P s (rest s))
    (hmore : more = true ∨ ∀ s, rest s ≤ 0)
    (hs : ∃ x t, x :: t <:+ s ∧ found x = true ∧ P t) : search found more rest s = 0 := by
  obtain ⟨x, t, ht, hx, hP⟩ := hs
  induction s with
  | nil => exact absurd (suffix_nil.mp ht) (cons_ne_nil x t)
  | cons y s ih =>
    rw [search]
    rcases suffix_cons_iff.mp ht with heq | hsuf
    · obtain ⟨rfl, rfl⟩ := cons.inj heq
      have hzero := (hrest t).complete hH hP
      rw [if_neg (by simp [hx]), if_pos hzero.le, hzero]
    split_ifs with h1 h2 h3
    · exact ih hsuf
    · by_contra hne
      exact (hrest s).prune hH (lt_of_le_of_ne h2 hne) t ((suffix_cons x t).trans hsuf) hP
    · exact ih hsuf
    · rcases hmore with rfl | hle
      · exact absurd ⟨rfl, hsuf.ne_nil (cons_ne_nil x t)⟩ h3
      · exact absurd (hle s) h2

/-- A search over a string that ends in many `c` fails, if the rest fails behind each of them that
is tried. -/
theorem search_ne_zero {c : α} {n : ℕ} (hrest : ∀ u, rest (u ++ replicate n c) ≠ 0)
    (htail : more = false ∨ rest (replicate n c) ≤ 0 ∨ ∀ m, rest (replicate m c) ≠ 0)
    (u : List α) : search found more rest (u ++ replicate (n + 1) c) ≠ 0 := by
  have hruns : (∀ m, rest (replicate m c) ≠ 0) ∨ found c = false → ∀ m,
      search found more rest (replicate m c) ≠ 0 := by
    intro h m
    induction m with
    | zero => exact neg_ne_zero.mpr one_ne_zero
    | succ m ih =>
      rw [replicate_succ, search]
      split_ifs with h1 h2 h3
      · exact ih
      · exact h.resolve_right h1 m
      · exact ih
      · decide
  induction u with
  | nil =>
    rw [nil_append, replicate_succ, search]
    split_ifs with h1 h2 h3
    · exact hruns (.inr h1) n
    · exact hrest []
    · rcases htail with hmore | hle | hne
      · exact absurd (hmore.symm.trans h3.1) Bool.false_ne_true
      · exact absurd hle h2
      · exact hruns (.inl hne) n
    · decide
  | cons x u ih =>
    have hlater : u ++ replicate (n + 1) c = (u ++ [c]) ++ replicate n c := by
      rw [append_assoc, replicate_succ, singleton_append]
    rw [cons_append, search]
    split_ifs
    · exact ih
    · rw [hlater]
      exact hrest _
    · exact ih
    · decide

theorem search_answers (hfound : ∀ x, found x = true ↔ r c x)
    (hrest : ∀ s, Answers H (Matches r p) s (rest s))
    (hmore : H → more = true ∨ ∀ s, rest s ≤ 0) (s : List α) :
    Answers H (Matches r (.many :: .lit c :: p)) s (search found more rest s) := by
  refine Answers.of_suffix (fun h => ?_) fun hH => ?_
  · obtain ⟨x, t, ht, hx, hp⟩ := search_sound (fun s => (hrest s).sound) h
    exact ⟨_, ht, x, t, rfl, (hfound x).mp hx, hp⟩
  · rintro ⟨_, ht, x, t, rfl, hx, hp⟩
    exact search_complete hH hrest (hmore hH) ⟨x, t, ht, (hfound x).mpr hx, hp⟩

end LibSources
