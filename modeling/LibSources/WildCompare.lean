import LibSources.SimpleCollation

/-!
# `wild_compare` of `mysys/mf_wcomp.c`

A string is the list of its bytes without the NUL, and `wild_prefix` is the escape of `LikeChars`.
If it is zero, which it is unless a program sets it, no character of a string is a prefix.

## Main results

* `wildCompare_matches_iff`: what is matched.
* `wildcmp8bit_of_wildCompare`: `my_wildcmp_8bit` agrees.
-/

namespace LibSources

open List SimpleCollation

namespace WildCompare

variable (w : LikeChars UInt8) (pattern : Bool)

/-- `while (str_is_pattern && *str == wild_many) str++`. -/
def skipMany (str : List UInt8) : List UInt8 := if pattern then str.dropWhile (· = w.many) else str

/-- A character of `wildstr` that is no wildcard, with or without a prefix. -/
def literal (prefixed : Bool) (c : UInt8) (rest : List UInt8 → ℤ) : List UInt8 → ℤ
  | [] => 1
  | x :: str =>
    if prefixed ∧ pattern then
      if x ≠ w.escape then 1
      else match str with
        | [] => 1
        | y :: str => if c ≠ y then 1 else rest str
    else if c ≠ x then 1 else rest str

/-- The loop behind a `wild_many`. The comparison is started where `cmp` stands. -/
def searchFor (cmp : UInt8) (compare : List UInt8 → ℤ) : List UInt8 → ℤ
  | [] => 1
  | x :: str => if x = cmp ∧ compare (x :: str) = 0 then 0 else searchFor cmp compare str

/-- A literal character, searched for behind a `*`. -/
def place (skipping prefixed : Bool) (c : UInt8) (rest : List UInt8 → ℤ) (str : List UInt8) : ℤ :=
  if skipping then
    searchFor (if prefixed ∧ pattern then w.escape else c) (literal w pattern prefixed c rest) str
  else literal w pattern prefixed c rest str

/-- `wild_compare`, where `skipping` says whether wildcards behind a `wild_many` are skipped. -/
def wildCompare : List UInt8 → Bool → List UInt8 → ℤ
  | [], skipping, str => if skipping ∨ str = [] then 0 else 1
  | c :: wild, skipping, str =>
    if c = w.many then wildCompare wild true (skipMany w pattern str)
    else if c = w.one then
      match str with
      | [] => 1
      | x :: str =>
        if pattern ∧ x = w.many ∧ ¬skipping then 1
        else wildCompare wild skipping (if pattern ∧ x = w.escape then str.tail else str)
    else if c = w.escape then
      match wild with
      | [] => place w pattern skipping false c (fun str => if str = [] then 0 else 1) str
      | d :: wild => place w pattern skipping true d (wildCompare wild false) str
    else place w pattern skipping false c (wildCompare wild false) str

variable {w}

theorem searchFor_eq_zero_iff {cmp : UInt8} {compare : List UInt8 → ℤ} {str : List UInt8} :
    searchFor cmp compare str = 0 ↔ ∃ t, cmp :: t <:+ str ∧ compare (cmp :: t) = 0 := by
  induction str with
  | nil => simp [searchFor]
  | cons x str ih =>
    rw [searchFor]
    split_ifs with h
    · exact iff_of_true rfl ⟨str, h.1 ▸ suffix_rfl, h.1 ▸ h.2⟩
    rw [ih]
    refine exists_congr fun t => and_congr_left fun ht => ?_
    refine ⟨fun hs => hs.trans (suffix_cons x str), fun hs => ?_⟩
    refine (suffix_cons_iff.mp hs).resolve_left fun heq => h ?_
    obtain ⟨rfl, rfl⟩ := cons.inj heq
    exact ⟨rfl, ht⟩

theorem place_answers {prefixed : Bool} {c : UInt8} {rest : List UInt8 → ℤ} {p : List (Wild UInt8)}
    (hrest : ∀ t, Answers True (Matches Eq p) t (rest t)) (skipping : Bool) (str : List UInt8) :
    Answers True (Matches Eq (skipped skipping (.lit c :: p))) str
      (place w false skipping prefixed c rest str) := by
  have hplain : ¬(prefixed = true ∧ false = true) := fun h => Bool.false_ne_true h.2
  have hlit (t : List UInt8) :
      Answers True (Matches Eq (.lit c :: p)) t (literal w false prefixed c rest t) := by
    cases t with
    | nil => exact Answers.mismatch not_matches_lit_nil
    | cons x t =>
      unfold literal
      dsimp only
      rw [if_neg hplain]
      split_ifs with hx
      · exact answers_lit_ne hx
      · exact (hrest t).lit (not_not.mp hx)
  cases skipping with
  | false => exact hlit str
  | true =>
    rw [place, if_pos rfl, if_neg hplain]
    refine Answers.of_suffix (fun h => ?_) fun _ => ?_
    · obtain ⟨t, ht, hzero⟩ := searchFor_eq_zero_iff.mp h
      exact ⟨_, ht, (hlit _).sound hzero⟩
    rintro ⟨t, ht, hp⟩
    have hzero := (hlit t).complete trivial hp
    obtain ⟨x, u, rfl, rfl, -⟩ := hp
    exact searchFor_eq_zero_iff.mpr ⟨u, ht, hzero⟩

theorem wildCompare_answers (wild : List UInt8) (skipping : Bool) (str : List UInt8) :
    Answers True (Matches Eq (skipped skipping (w.tokens wild))) str
      (wildCompare w false wild skipping str) := by
  -- a prefix takes two bytes, so the induction is on the length
  induction hn : wild.length using Nat.strong_induction_on generalizing wild skipping str
  rename_i n ih
  subst hn
  cases wild with
  | nil => exact answers_end skipping str
  | cons c wild =>
    have hrest := ih _ (Nat.lt_succ_self _) wild
    unfold wildCompare LikeChars.tokens
    by_cases hmany : c = w.many
    · rw [if_pos hmany, if_pos hmany]
      exact (hrest true str rfl).many skipping
    rw [if_neg hmany, if_neg hmany]
    by_cases hone : c = w.one
    · rw [if_pos hone, if_pos hone]
      cases str with
      | nil => exact answers_one_nil skipping one_ne_zero
      | cons x str => exact (hrest skipping str rfl).one x
    rw [if_neg hone, if_neg hone]
    split_ifs with hescape
    · cases wild with
      | nil =>
        exact place_answers (fun t => by simpa [skipped] using answers_end false t) skipping str
      | cons d wild => exact place_answers (fun t => ih _ (by simp) wild false t rfl) skipping str
    · exact place_answers (fun t => hrest false t rfl) skipping str

/-- Without pattern mode, a string is compared with a pattern as the pattern says. -/
theorem wildCompare_matches_iff (w : LikeChars UInt8) (wild str : List UInt8) :
    wildCompare w false wild false str = 0 ↔ Matches Eq (w.tokens wild) str :=
  have h := wildCompare_answers wild false str
  ⟨h.sound, h.complete trivial⟩

/-- What `wild_compare` finds, `my_wildcmp_8bit` finds in every collation, and nothing else in one
that tells all bytes apart. -/
theorem wildcmp8bit_of_wildCompare (sort : UInt8 → UInt8) (w : LikeChars UInt8) {next : UInt8}
    (hnext : next ≠ w.many) (wild str : List UInt8) :
    (wildCompare w false wild false str = 0 → wildcmp8bit sort w next str wild = 0) ∧
      (sort.Injective → wildcmp8bit sort w next str wild = 0 →
        wildCompare w false wild false str = 0) := by
  have h := wildCompare_answers (w := w) wild false str
  have h8 := (wildcmpLoop_answers sort w next wild false (-1) str (by decide)).1
  constructor
  · intro hzero
    exact h8.complete hnext ((h.sound hzero).mono fun c x => congrArg sort)
  · intro hsort hzero
    exact h.complete trivial ((h8.sound hzero).mono fun c x hx => hsort hx)

theorem wildcmp8bit_of_wildCompare_ab :
    wildcmp8bit id ⟨92, 95, 37, by decide, by decide, by decide⟩ 0 [97, 98] [37, 98] = 0 :=
  (wildcmp8bit_of_wildCompare id _ (by decide) _ _).1 (by decide)

end WildCompare

end LibSources
