import LibSources.Wildcard

/-!
# Simple Collations of `strings/ctype-simple.c`

An 8-bit collation is given by the weights of the bytes, `sort_order`. The special characters of a
pattern are ASCII, so a `char` equals one of them iff the bytes agree. A `ulong` has 64 bits.

## Main results

* `wildcmp8bit_eq_zero_iff`: the patterns that are matched as `LIKE` says.
* `likeRangeSimple_sound`: matching strings lie in the range.
* `hashSortSimple_eq_iff`: the weights for which equal strings hash equally.
-/

namespace LibSources

open Nat Prod List

namespace SimpleCollation

variable (sort : UInt8 → UInt8)

/-! ### `LIKE` -/

/-- A literal of the pattern and what is behind it. Behind a `w_many`, it is searched for; the
search ends if the next byte of the pattern is a `w_many` again. -/
def matchLiteral (c : UInt8) (skipping atMany : Bool) (rest : ℤ → List UInt8 → ℤ)
    (str : List UInt8) : ℤ :=
  if skipping then search (fun x => sort c = sort x) (!atMany) (rest (-1)) str
  else match str with
    | [] => 1
    | x :: str => if sort c ≠ sort x then 1 else rest 1 str

variable (w : LikeChars UInt8) (next : UInt8)

/-- The loop of `my_wildcmp_8bit` over the pattern. `next` is the byte at `wildend`; `skipping` says
whether wildcards behind a `w_many` are removed. -/
def wildcmpLoop : List UInt8 → Bool → ℤ → List UInt8 → ℤ
  | [], skipping, _, str => if skipping ∨ str = [] then 0 else 1
  | c :: wild, skipping, result, str =>
    if c = w.many then wildcmpLoop wild true result str
    else if c = w.one then
      match str with
      | [] => if skipping then -1 else result
      | _ :: str => wildcmpLoop wild skipping result str
    else if c = w.escape then
      match wild with
      | [] =>
        matchLiteral sort c skipping (next = w.many) (fun _ str => if str = [] then 0 else 1) str
      | d :: wild =>
        matchLiteral sort d skipping (wild.headD next = w.many) (wildcmpLoop wild false) str
    else matchLiteral sort c skipping (wild.headD next = w.many) (wildcmpLoop wild false) str

/-- `my_wildcmp_8bit`. -/
def wildcmp8bit (str wild : List UInt8) : ℤ := wildcmpLoop sort w next wild false (-1) str

variable {sort w next} {H : Prop} {p : List (Wild UInt8)} {rest : ℤ → List UInt8 → ℤ}

theorem matchLiteral_answers {c : UInt8} (atMany : Bool)
    (hrest : ∀ result str, result ≠ 0 →
      Answers H (Matches (sort · = sort ·) p) str (rest result str))
    (hmany : atMany = true → H → ∀ str, rest (-1) str ≤ 0) (skipping : Bool) (str : List UInt8) :
    Answers H (Matches (sort · = sort ·) (skipped skipping (.lit c :: p))) str
        (matchLiteral sort c skipping atMany rest str) ∧
      (skipping = true → matchLiteral sort c skipping atMany rest str ≤ 0) := by
  cases skipping with
  | true =>
    refine ⟨search_answers (fun x => decide_eq_true_iff) (fun s => hrest (-1) s (by decide))
      (fun hH => ?_) str, fun _ => search_nonpos str⟩
    cases atMany with
    | true => exact .inr (hmany rfl hH)
    | false => exact .inl rfl
  | false =>
    refine ⟨?_, fun h => absurd h Bool.false_ne_true⟩
    cases str with
    | nil => exact Answers.mismatch not_matches_lit_nil
    | cons x str =>
      rw [matchLiteral, if_neg Bool.false_ne_true]
      split_ifs with hx
      · exact answers_lit_ne hx
      · exact (hrest 1 str one_ne_zero).lit (not_not.mp hx)

variable (sort w) in
/-- The rounds of the loop: a `w_many`, a `w_one` or a literal, which may be escaped. -/
theorem wildcmpLoop_cons (c : UInt8) (wild : List UInt8) :
    (w.tokens (c :: wild) = .many :: w.tokens wild ∧ c = w.many ∧
      ∀ next skipping result str, wildcmpLoop sort w next (c :: wild) skipping result str =
        wildcmpLoop sort w next wild true result str) ∨
    c ≠ w.many ∧ (w.tokens (c :: wild) = .one :: w.tokens wild ∧
      (∀ next skipping result, wildcmpLoop sort w next (c :: wild) skipping result [] =
        if skipping then -1 else result) ∧
      ∀ next skipping result x str, wildcmpLoop sort w next (c :: wild) skipping result (x :: str) =
        wildcmpLoop sort w next wild skipping result str) ∨
    c ≠ w.many ∧ ∃ d tail, tail.length ≤ wild.length ∧
      w.tokens (c :: wild) = .lit d :: w.tokens tail ∧
      ∀ next skipping result str, wildcmpLoop sort w next (c :: wild) skipping result str =
        matchLiteral sort d skipping (tail.headD next = w.many)
          (wildcmpLoop sort w next tail false) str := by
  by_cases hmany : c = w.many
  · refine .inl ⟨?_, hmany, fun _ _ _ _ => ?_⟩
    · conv_lhs => unfold LikeChars.tokens
      rw [if_pos hmany]
    · conv_lhs => unfold wildcmpLoop
      rw [if_pos hmany]
  by_cases hone : c = w.one
  · refine .inr (.inl ⟨hmany, ?_, fun _ _ _ => ?_, fun _ _ _ _ _ => ?_⟩)
    · conv_lhs => unfold LikeChars.tokens
      rw [if_neg hmany, if_pos hone]
    · conv_lhs => unfold wildcmpLoop
      rw [if_neg hmany, if_pos hone]
    · conv_lhs => unfold wildcmpLoop
      rw [if_neg hmany, if_pos hone]
  refine .inr (.inr ⟨hmany, ?_⟩)
  by_cases hescape : c = w.escape
  · cases wild with
    | nil =>
      refine ⟨c, [], le_rfl, ?_, fun next skipping result str => ?_⟩
      · conv_lhs => unfold LikeChars.tokens
        rw [if_neg hmany, if_neg hone, if_pos hescape]
        rfl
      have hend : wildcmpLoop sort w next [] false = fun _ str => if str = [] then 0 else 1 := by
        funext result str
        simp [wildcmpLoop]
      conv_lhs => unfold wildcmpLoop
      rw [if_neg hmany, if_neg hone, if_pos hescape, hend]
      rfl
    | cons d wild =>
      refine ⟨d, wild, Nat.le_succ _, ?_, fun _ _ _ _ => ?_⟩
      · conv_lhs => unfold LikeChars.tokens
        rw [if_neg hmany, if_neg hone, if_pos hescape]
      · conv_lhs => unfold wildcmpLoop
        rw [if_neg hmany, if_neg hone, if_pos hescape]
  · refine ⟨c, wild, le_rfl, ?_, fun _ _ _ _ => ?_⟩
    · conv_lhs => unfold LikeChars.tokens
      rw [if_neg hmany, if_neg hone, if_neg hescape]
    · conv_lhs => unfold wildcmpLoop
      rw [if_neg hmany, if_neg hone, if_neg hescape]

variable (sort w next) in
/-- A byte behind the pattern that is a `w_many` can only make the loop miss a match. -/
theorem wildcmpLoop_answers (wild : List UInt8) (skipping : Bool) (result : ℤ) (str : List UInt8)
    (hresult : result ≠ 0) :
    Answers (next ≠ w.many) (Matches (sort · = sort ·) (skipped skipping (w.tokens wild))) str
        (wildcmpLoop sort w next wild skipping result str) ∧
      (skipping = true ∨ wild.head? = some w.many →
        wildcmpLoop sort w next wild skipping result str ≤ 0) := by
  -- an escape takes two bytes of the pattern, so the induction is on its length
  induction hn : wild.length using Nat.strong_induction_on generalizing wild skipping result str
  rename_i n ih
  subst hn
  cases wild with
  | nil =>
    refine ⟨answers_end skipping str, fun h => ?_⟩
    rw [wildcmpLoop, if_pos (.inl (h.resolve_right (Option.some_ne_none _).symm))]
  | cons c wild =>
    have hlt : wild.length < (c :: wild).length := lt_succ_self _
    have hhead : c ≠ w.many → skipping = true ∨ (c :: wild).head? = some w.many →
        skipping = true := fun hmany h => h.resolve_right fun h => hmany (Option.some.inj h)
    rcases wildcmpLoop_cons sort w c wild with ⟨htokens, -, hloop⟩ | ⟨hmany, htokens, hnil, hcons⟩ |
      ⟨hmany, d, tail, hle, htokens, hloop⟩
    · rw [htokens, hloop]
      have h := ih _ hlt wild true result str hresult rfl
      exact ⟨h.1.many skipping, fun _ => h.2 (.inl rfl)⟩
    · rw [htokens]
      cases str with
      | nil =>
        rw [hnil]
        refine ⟨answers_one_nil skipping ?_, fun h => ?_⟩
        · split_ifs
          · decide
          · exact hresult
        · exact (if_pos (hhead hmany h)).le.trans (by decide)
      | cons x str =>
        rw [hcons]
        have h := ih _ hlt wild skipping result str hresult rfl
        exact ⟨h.1.one x, fun hs => h.2 (.inl (hhead hmany hs))⟩
    · rw [htokens, hloop]
      have hlt : tail.length < (c :: wild).length := hle.trans_lt hlt
      have h := matchLiteral_answers (c := d) (decide (tail.headD next = w.many))
        (fun result str h => (ih _ hlt tail false result str h rfl).1) (fun hopen hnext str => by
          refine (ih _ hlt tail false (-1) str (by decide) rfl).2 (.inr ?_)
          cases tail with
          | nil => exact absurd (of_decide_eq_true hopen) hnext
          | cons d tail => exact congrArg some (of_decide_eq_true hopen)) skipping str
      exact ⟨h.1, fun hs => h.2 (hhead hmany hs)⟩

/-! ### The byte behind the pattern -/

variable (sort) in
/-- The byte behind the pattern is only read for a pattern that ends openly. -/
theorem wildcmpLoop_congr (next' : UInt8) (wild : List UInt8) (skipping : Bool) (result : ℤ)
    (str : List UInt8) (hopen : ∀ c, ¬EndsOpen c (skipped skipping (w.tokens wild))) :
    wildcmpLoop sort w next wild skipping result str =
      wildcmpLoop sort w next' wild skipping result str := by
  induction hn : wild.length using Nat.strong_induction_on generalizing wild skipping result str
  rename_i n ih
  subst hn
  cases wild with
  | nil => rfl
  | cons c wild =>
    have hlt : wild.length < (c :: wild).length := lt_succ_self _
    rcases wildcmpLoop_cons sort w c wild with ⟨htokens, -, hloop⟩ | ⟨-, htokens, hnil, hcons⟩ |
      ⟨-, d, tail, hle, htokens, hloop⟩
    · rw [htokens] at hopen
      rw [hloop, hloop]
      refine ih _ hlt wild true result str (fun e h => hopen e ?_) rfl
      cases skipping with
      | false => exact h
      | true => exact h.cons _
    · simp only [htokens, endsOpen_skipped_one] at hopen
      cases str with
      | nil => rw [hnil, hnil]
      | cons x str =>
        rw [hcons, hcons]
        exact ih _ hlt wild skipping result str hopen rfl
    · simp only [htokens, endsOpen_skipped_lit, not_or] at hopen
      have hrest : wildcmpLoop sort w next tail false = wildcmpLoop sort w next' tail false := by
        funext result str
        exact ih _ (hle.trans_lt hlt) tail false result str (fun e => (hopen e).1) rfl
      rw [hloop, hloop, hrest]
      cases tail with
      | cons d tail => rfl
      | nil =>
        cases skipping with
        | false => rfl
        | true => exact absurd ⟨rfl, rfl, rfl⟩ (hopen d).2

variable {e : UInt8}

/-- A pattern whose literals all match `e` goes as far as its first `w_many`. -/
theorem wildcmpLoop_nonpos (wild : List UInt8) (result : ℤ) (n : ℕ) (hresult : result ≠ 0)
    (hlits : ∀ d, .lit d ∈ w.tokens wild → sort d = sort e) (hmany : .many ∈ w.tokens wild)
    (hn : (w.tokens wild).length ≤ n) :
    wildcmpLoop sort w next wild false result (replicate n e) ≤ 0 := by
  induction hlen : wild.length using Nat.strong_induction_on generalizing wild result n
  rename_i m ih
  subst hlen
  cases wild with
  | nil => exact absurd hmany not_mem_nil
  | cons c wild =>
    have hlt : wild.length < (c :: wild).length := lt_succ_self _
    rcases wildcmpLoop_cons sort w c wild with ⟨-, rfl, -⟩ | ⟨-, htokens, -, hcons⟩ |
      ⟨-, d, tail, hle, htokens, hloop⟩
    · exact (wildcmpLoop_answers sort w next _ false result _ hresult).2 (.inr rfl)
    · rw [htokens] at hlits hmany hn
      obtain ⟨n, rfl⟩ := Nat.exists_eq_add_of_le' ((Nat.le_add_left 1 _).trans hn)
      rw [replicate_succ, hcons]
      exact ih _ hlt wild result n hresult (fun d hd => hlits d (mem_cons_of_mem _ hd))
        (by simpa using hmany) (Nat.le_of_succ_le_succ hn) rfl
    · rw [htokens] at hlits hmany hn
      obtain ⟨n, rfl⟩ := Nat.exists_eq_add_of_le' ((Nat.le_add_left 1 _).trans hn)
      rw [hloop, replicate_succ, matchLiteral, if_neg Bool.false_ne_true,
        if_neg (not_not.mpr (hlits d mem_cons_self))]
      exact ih _ (hle.trans_lt hlt) tail 1 n one_ne_zero
        (fun d hd => hlits d (mem_cons_of_mem _ hd)) (by simpa using hmany)
        (Nat.le_of_succ_le_succ hn) rfl

variable (sort w) in
/-- With a `w_many` behind it, a pattern that ends openly in `e` does not match a string with many
`e` at its end. -/
theorem wildcmpLoop_ne_zero (wild : List UInt8) (skipping : Bool) (result : ℤ) (u : List UInt8)
    (n : ℕ) (hresult : result ≠ 0) (hopen : EndsOpen e (skipped skipping (w.tokens wild)))
    (hn : (w.tokens wild).length ≤ n) :
    wildcmpLoop sort w w.many wild skipping result (u ++ replicate (n + 1) e) ≠ 0 := by
  induction hlen : wild.length using Nat.strong_induction_on
    generalizing wild skipping result u n
  rename_i m ih
  subst hlen
  cases wild with
  | nil =>
    obtain ⟨front, k, heq⟩ := hopen
    have hle : (skipped skipping (w.tokens [])).length ≤ 1 := by
      cases skipping <;> simp [skipped, LikeChars.tokens]
    rw [heq, length_append, length_cons, length_append, length_singleton] at hle
    omega
  | cons c wild =>
    have hlt : wild.length < (c :: wild).length := lt_succ_self _
    rcases wildcmpLoop_cons sort w c wild with ⟨htokens, -, hloop⟩ | ⟨-, htokens, -, hcons⟩ |
      ⟨-, d, tail, hle, htokens, hloop⟩
    · rw [htokens] at hopen hn
      rw [hloop]
      exact ih _ hlt wild true result u n hresult (endsOpen_skipped_many skipping hopen)
        ((Nat.le_succ _).trans hn) rfl
    · rw [htokens, endsOpen_skipped_one] at hopen
      rw [htokens] at hn
      obtain ⟨n, rfl⟩ := Nat.exists_eq_add_of_le' ((Nat.le_add_left 1 _).trans hn)
      have hn := Nat.le_of_succ_le_succ hn
      cases u with
      | nil =>
        rw [nil_append, replicate_succ, hcons]
        exact ih _ hlt wild skipping result [] n hresult hopen hn rfl
      | cons x u =>
        rw [cons_append, hcons]
        exact ih _ hlt wild skipping result u (n + 1) hresult hopen (hn.trans (Nat.le_succ n)) rfl
    · rw [htokens, endsOpen_skipped_lit] at hopen
      rw [htokens] at hn
      obtain ⟨n, rfl⟩ := Nat.exists_eq_add_of_le' ((Nat.le_add_left 1 _).trans hn)
      have hn := Nat.le_of_succ_le_succ hn
      have hlt := hle.trans_lt hlt
      rw [hloop]
      cases skipping with
      | false =>
        have hopen := hopen.resolve_right fun h => Bool.false_ne_true h.1
        cases u with
        | nil =>
          rw [nil_append, replicate_succ, matchLiteral, if_neg Bool.false_ne_true]
          split_ifs
          · exact one_ne_zero
          · exact ih _ hlt tail false 1 [] n one_ne_zero hopen hn rfl
        | cons x u =>
          rw [cons_append, matchLiteral, if_neg Bool.false_ne_true]
          split_ifs
          · exact one_ne_zero
          · exact ih _ hlt tail false 1 u (n + 1) one_ne_zero hopen (hn.trans (Nat.le_succ n)) rfl
      | true =>
        unfold matchLiteral
        rw [if_pos rfl]
        rcases hopen with hopen | ⟨-, rfl, hnil⟩
        · refine search_ne_zero (fun u => ih _ hlt tail false (-1) u n (by decide) hopen hn rfl)
            (.inr ?_) u
          -- a literal that does not match `e` fails on every run of `e`
          by_cases hlits : ∀ d, .lit d ∈ w.tokens tail → sort d = sort e
          · refine .inl (wildcmpLoop_nonpos tail (-1) (n + 1) (by decide) hlits ?_
              (hn.trans (Nat.le_succ n)))
            obtain ⟨front, k, heq⟩ := hopen
            rw [heq]
            exact mem_append_right front mem_cons_self
          · refine .inr fun m hzero => hlits fun d hd => ?_
            have hmatch :=
              (wildcmpLoop_answers sort w w.many tail false (-1) _ (by decide)).1.sound hzero
            obtain ⟨x, hx, hsort⟩ := hmatch.exists_mem hd
            rw [eq_of_mem_replicate hx] at hsort
            exact hsort
        · obtain rfl : tail = [] := by
            cases tail with
            | nil => rfl
            | cons c tail =>
              rcases wildcmpLoop_cons sort w c tail with
                ⟨heq, -⟩ | ⟨-, heq, -⟩ | ⟨-, _, _, -, heq, -⟩
              all_goals
                rw [heq] at hnil
                cases hnil
          refine search_ne_zero (fun u => ?_) (.inl (by simp)) u
          simp [wildcmpLoop]

/-- `LIKE` is decided rightly iff the byte behind the pattern is not a `w_many`, or the pattern does
not end in a `w_many`, any number of `w_one` and a literal: for such a pattern only the first place
for the literal is tried. For all other patterns, the byte does not change the result. -/
theorem wildcmp8bit_eq_zero_iff (sort : UInt8 → UInt8) (w : LikeChars UInt8) (next : UInt8)
    (wild : List UInt8) :
    ((∀ str, wildcmp8bit sort w next str wild = 0 ↔
        Matches (sort · = sort ·) (w.tokens wild) str) ↔
      next ≠ w.many ∨ ¬∃ c, EndsOpen c (w.tokens wild)) ∧
    ((∀ next' str, wildcmp8bit sort w next str wild = wildcmp8bit sort w next' str wild) ↔
      ¬∃ c, EndsOpen c (w.tokens wild)) := by
  have hright : ∀ next, next ≠ w.many → ∀ str, wildcmp8bit sort w next str wild = 0 ↔
      Matches (sort · = sort ·) (w.tokens wild) str := by
    intro next hnext str
    have h := (wildcmpLoop_answers sort w next wild false (-1) str (by decide)).1
    exact ⟨h.sound, h.complete hnext⟩
  have hfails : ∀ c, EndsOpen c (w.tokens wild) → ∃ str, wildcmp8bit sort w w.many str wild ≠ 0 ∧
      Matches (sort · = sort ·) (w.tokens wild) str := by
    intro c hopen
    obtain ⟨u, hu⟩ := hopen.exists_matches (sort · = sort ·) (fun c => ⟨c, rfl⟩) c rfl
      (w.tokens wild).length
    exact ⟨_, wildcmpLoop_ne_zero sort w wild false (-1) u _ (by decide) hopen le_rfl, hu⟩
  have hsame : (¬∃ c, EndsOpen c (w.tokens wild)) → ∀ next next' str,
      wildcmp8bit sort w next str wild = wildcmp8bit sort w next' str wild :=
    fun hopen next next' str =>
      wildcmpLoop_congr sort next' wild false (-1) str fun c h => hopen ⟨c, h⟩
  refine ⟨⟨fun h => ?_, fun h str => ?_⟩, fun h => ?_, fun h next' str => hsame h _ _ _⟩
  · by_contra! hcontra
    obtain ⟨rfl, c, hopen⟩ := hcontra
    obtain ⟨str, hne, hmatch⟩ := hfails c hopen
    exact hne ((h str).mpr hmatch)
  · rcases h with hnext | hopen
    · exact hright next hnext str
    · rw [hsame hopen next w.one]
      exact hright _ w.one_ne_many str
  · rintro ⟨c, hopen⟩
    obtain ⟨str, hne, hmatch⟩ := hfails c hopen
    rw [← h w.many, h w.one] at hne
    exact hne ((hright _ w.one_ne_many str).mpr hmatch)

/-- The pattern `%a`, with a `%` behind it in the memory, does not match `aa`. -/
theorem wildcmp8bit_behind :
    wildcmp8bit id ⟨92, 95, 37, by decide, by decide, by decide⟩ 37 [97, 97] [37, 97] = -1 ∧
      wildcmp8bit id ⟨92, 95, 37, by decide, by decide, by decide⟩ 0 [97, 97] [37, 97] = 0 := by
  decide

/-! ### Comparison, hash and range -/

variable (sort) in
/-- The rest of the longer string; `swap` is 1 if it is the first one. -/
def compareTail (swap : ℤ) : List UInt8 → ℤ
  | [] => 0
  | x :: a => if sort x ≠ 32 then if sort x < 32 then -swap else swap else compareTail swap a

variable (sort) in
/-- `my_strnncollsp_simple`. -/
def strnncollspSimple : List UInt8 → List UInt8 → ℤ
  | x :: a, y :: b =>
    if sort x ≠ sort y then (sort x).toNat - (sort y).toNat else strnncollspSimple a b
  | [], b => compareTail sort (-1) b
  | a, [] => compareTail sort 1 a

def skipTrailingSpace : List UInt8 → List UInt8
  | [] => []
  | x :: key => if x = 32 ∧ skipTrailingSpace key = [] then [] else x :: skipTrailingSpace key

/-- A weight is added to the hash `nr1` and `nr2`. -/
def hashAdd (nr : UInt64 × UInt64) (weight : UInt64) : UInt64 × UInt64 :=
  (nr.1 ^^^ (((nr.1 &&& (63 : UInt64)) + nr.2) * weight + (nr.1 <<< (8 : UInt64))), nr.2 + 3)

variable (sort) in
/-- `my_hash_sort_simple`. -/
def hashSortSimple (key : List UInt8) (nr : UInt64 × UInt64) : UInt64 × UInt64 :=
  (skipTrailingSpace key).foldl (fun nr x => hashAdd nr (sort x).toUInt64) nr

variable (w) in
/-- `my_like_range_simple`: the bytes of `min_str`, each with that of `max_str`. -/
def likeRangeSimple (maxSortChar : UInt8) : ℕ → List UInt8 → List (UInt8 × UInt8)
  | 0, _ => []
  | n + 1, [] => replicate (n + 1) (32, 32)
  | n + 1, c :: ptr =>
    if h : c = w.escape ∧ ptr ≠ [] then
      (ptr.head h.2, ptr.head h.2) :: likeRangeSimple maxSortChar n ptr.tail
    else if c = w.one then (0, maxSortChar) :: likeRangeSimple maxSortChar n ptr
    else if c = w.many then replicate (n + 1) (0, maxSortChar)
    else (c, c) :: likeRangeSimple maxSortChar n ptr

variable (sort) in
def maxSortLoop : List UInt8 → UInt8 → UInt8
  | [], m => m
  | i :: l, m => maxSortLoop l (if sort m < sort i then i else m)

variable (sort) in
def setMaxSortChar (maxSortChar : UInt8) : UInt8 :=
  maxSortLoop sort ((range 256).map UInt8.ofNat) maxSortChar

/-! ### Equal strings and their hashes -/

theorem skipTrailingSpace_eq_nil {a : List UInt8} {swap : ℤ} (hspace : ∀ c, sort c = 32 ↔ c = 32)
    (hswap : swap ≠ 0) (h : compareTail sort swap a = 0) : skipTrailingSpace a = [] := by
  induction a with
  | nil => rfl
  | cons x a ih =>
    rw [compareTail] at h
    split_ifs at h with hx hlt
    · exact absurd (neg_eq_zero.mp h) hswap
    · exact absurd h hswap
    · exact if_pos ⟨(hspace x).mp (not_not.mp hx), ih h⟩

theorem map_skipTrailingSpace {a b : List UInt8} (hspace : ∀ c, sort c = 32 ↔ c = 32)
    (h : strnncollspSimple sort a b = 0) :
    (skipTrailingSpace a).map sort = (skipTrailingSpace b).map sort := by
  induction a, b using strnncollspSimple.induct sort with
  | case1 x a y b hne =>
    rw [strnncollspSimple, if_pos hne] at h
    exact absurd (UInt8.toNat_inj.mp (by omega)) hne
  | case2 x a y b heq ih =>
    rw [strnncollspSimple, if_neg heq] at h
    have hab := ih h
    have hnil : skipTrailingSpace a = [] ↔ skipTrailingSpace b = [] := by
      rw [← map_eq_nil_iff (f := sort), hab, map_eq_nil_iff]
    have hxy : x = 32 ↔ y = 32 := by rw [← hspace x, ← hspace y, not_not.mp heq]
    simp only [skipTrailingSpace, hnil, hxy]
    split_ifs
    · rfl
    · rw [map_cons, map_cons, not_not.mp heq, hab]
  | case3 b =>
    rw [strnncollspSimple] at h
    rw [skipTrailingSpace_eq_nil hspace (by decide) h]
    rfl
  | case4 a ha =>
    rw [strnncollspSimple] at h
    · rw [skipTrailingSpace_eq_nil hspace (by decide) h]
      rfl
    · exact ha

/-- Strings that compare equal have equal hashes iff no other byte has the weight of a space: a
space at the end is ignored by its weight in a comparison, and by its value in a hash. -/
theorem hashSortSimple_eq_iff (sort : UInt8 → UInt8) (h32 : sort 32 = 32) :
    (∀ a b, strnncollspSimple sort a b = 0 →
      ∀ nr, hashSortSimple sort a nr = hashSortSimple sort b nr) ↔ ∀ c, sort c = 32 → c = 32 := by
  constructor
  · intro h c hc
    by_contra hne
    have hhash := h [] [c] (by simp [strnncollspSimple, compareTail, hc]) (0, 0)
    simp [hashSortSimple, skipTrailingSpace, hne, hashAdd] at hhash
  intro hspace a b h nr
  have hmap := map_skipTrailingSpace (fun c => ⟨hspace c, fun hc => hc ▸ h32⟩) h
  rw [hashSortSimple, hashSortSimple,
    ← foldl_map (f := sort) (g := fun nr x => hashAdd nr x.toUInt64), hmap, foldl_map]

theorem hashSortSimple_eq_iff_id :
    hashSortSimple id [97, 32] (1, 4) = hashSortSimple id [97] (1, 4) :=
  (hashSortSimple_eq_iff id rfl).mpr (fun _ h => h) _ _ (by decide) _

/-- A no-break space that weighs as much as a space. -/
theorem hashSortSimple_ne :
    strnncollspSimple (fun c => if c = 160 then 32 else c) [97, 160] [97] = 0 ∧
      hashSortSimple (fun c => if c = 160 then 32 else c) [97, 160] (1, 4) ≠
        hashSortSimple (fun c => if c = 160 then 32 else c) [97] (1, 4) := by
  decide

/-! ### Ranges -/

theorem le_maxSortLoop {c m : UInt8} {l : List UInt8} (h : c = m ∨ c ∈ l) :
    sort c ≤ sort (maxSortLoop sort l m) := by
  induction l generalizing c m with
  | nil =>
    rw [h.resolve_right not_mem_nil]
    exact UInt8.le_refl _
  | cons i l ih =>
    rw [maxSortLoop]
    have hbest := ih (m := if sort m < sort i then i else m) (.inl rfl)
    rcases h with rfl | hmem
    · refine UInt8.le_trans ?_ hbest
      split_ifs with hlt
      · exact UInt8.le_of_lt hlt
      · exact UInt8.le_refl _
    rcases mem_cons.mp hmem with rfl | hmem
    · refine UInt8.le_trans ?_ hbest
      split_ifs with hlt
      · exact UInt8.le_refl _
      · exact UInt8.not_lt.mp hlt
    · exact ih (.inr hmem)

theorem le_setMaxSortChar (c m : UInt8) : sort c ≤ sort (setMaxSortChar sort m) :=
  le_maxSortLoop (.inr (mem_map.mpr ⟨c.toNat, mem_range.mpr c.toNat_lt, c.ofNat_toNat⟩))

variable (sort) in
/-- A string, extended with spaces, lies between the two bounds byte for byte. -/
def Bounded : List UInt8 → List (UInt8 × UInt8) → Prop
  | str, [] => str = []
  | [], bound :: bounds => sort bound.1 ≤ 32 ∧ 32 ≤ sort bound.2 ∧ Bounded [] bounds
  | x :: str, bound :: bounds => sort bound.1 ≤ sort x ∧ sort x ≤ sort bound.2 ∧ Bounded str bounds

theorem Bounded.strnncollsp {str : List UInt8} {bounds : List (UInt8 × UInt8)}
    (h : Bounded sort str bounds) :
    0 ≤ strnncollspSimple sort str (bounds.map fst) ∧
      strnncollspSimple sort str (bounds.map snd) ≤ 0 := by
  induction bounds generalizing str with
  | nil =>
    obtain rfl : str = [] := by simpa [Bounded] using h
    exact ⟨le_rfl, le_rfl⟩
  | cons bound bounds ih =>
    cases str with
    | nil =>
      obtain ⟨hlo, hhi, hrest⟩ := h
      have h' := ih hrest
      simp only [strnncollspSimple, map_cons, compareTail] at h' ⊢
      split_ifs <;> grind
    | cons x str =>
      obtain ⟨hlo, hhi, hrest⟩ := h
      have h' := ih hrest
      simp only [strnncollspSimple, map_cons] at h' ⊢
      rw [UInt8.le_iff_toNat_le] at hlo hhi
      split_ifs <;> grind

theorem bounded_replicate {lo hi : UInt8} (hlo : sort lo ≤ 32) (hhi : 32 ≤ sort hi) {n : ℕ}
    {str : List UInt8} (hlen : str.length ≤ n)
    (hstr : ∀ x ∈ str, sort lo ≤ sort x ∧ sort x ≤ sort hi) :
    Bounded sort str (replicate n (lo, hi)) := by
  induction n generalizing str with
  | zero => simpa [Bounded] using hlen
  | succ n ih =>
    cases str with
    | nil => exact ⟨hlo, hhi, ih (zero_le n) hstr⟩
    | cons x str =>
      obtain ⟨hx, hrest⟩ := forall_mem_cons.mp hstr
      exact ⟨hx.1, hx.2, ih (le_of_succ_le_succ hlen) hrest⟩

theorem bounded_likeRangeSimple {m : UInt8} (h32 : sort 32 = 32) (hmin : ∀ c, sort 0 ≤ sort c)
    (hmax : ∀ c, sort c ≤ sort m) {n : ℕ} {ptr str : List UInt8} (hlen : str.length ≤ n)
    (hstr : Matches (sort · = sort ·) (w.tokens ptr) str) :
    Bounded sort str (likeRangeSimple w m n ptr) := by
  have hlo := hmin 32
  have hhi := hmax 32
  rw [h32] at hlo hhi
  induction n generalizing ptr str with
  | zero => simpa [likeRangeSimple, Bounded] using hlen
  | succ n ih =>
    have hlit : ∀ c ptr, Matches (sort · = sort ·) (.lit c :: w.tokens ptr) str →
        Bounded sort str ((c, c) :: likeRangeSimple w m n ptr) := by
      rintro c ptr ⟨x, t, rfl, hx, ht⟩
      exact ⟨hx ▸ UInt8.le_refl _, hx ▸ UInt8.le_refl _, ih (Nat.le_of_succ_le_succ hlen) ht⟩
    cases ptr with
    | nil =>
      obtain rfl : str = [] := hstr
      exact bounded_replicate (UInt8.le_of_eq h32) (UInt8.le_of_eq h32.symm) hlen
        fun x hx => absurd hx not_mem_nil
    | cons c ptr =>
      unfold LikeChars.tokens at hstr
      unfold likeRangeSimple
      by_cases hescape : c = w.escape
      · rw [if_neg (hescape ▸ w.escape_ne_many), if_neg (hescape ▸ w.escape_ne_one),
          if_pos hescape] at hstr
        cases ptr with
        | nil =>
          rw [dif_neg (fun h => h.2 rfl), if_neg (hescape ▸ w.escape_ne_one),
            if_neg (hescape ▸ w.escape_ne_many)]
          exact hlit c [] hstr
        | cons d ptr =>
          rw [dif_pos ⟨hescape, cons_ne_nil d ptr⟩]
          exact hlit d ptr hstr
      rw [dif_neg fun h => hescape h.1]
      by_cases hone : c = w.one
      · rw [if_neg (hone ▸ w.one_ne_many), if_pos hone] at hstr
        rw [if_pos hone]
        obtain ⟨x, t, rfl, ht⟩ := hstr
        exact ⟨hmin x, hmax x, ih (le_of_succ_le_succ hlen) ht⟩
      rw [if_neg hone]
      split_ifs at hstr ⊢ with hmany
      · exact bounded_replicate hlo hhi hlen fun x _ => ⟨hmin x, hmax x⟩
      · exact hlit c ptr hstr

/-- Each string that matches a pattern lies in the range of the pattern. -/
theorem likeRangeSimple_sound (sort : UInt8 → UInt8) (h32 : sort 32 = 32)
    (hmin : ∀ c, sort 0 ≤ sort c) (w : LikeChars UInt8) (next m : UInt8) (n : ℕ)
    (ptr str : List UInt8) (hlen : str.length ≤ n) (hmatch : wildcmp8bit sort w next str ptr = 0) :
    0 ≤ strnncollspSimple sort str ((likeRangeSimple w (setMaxSortChar sort m) n ptr).map fst) ∧
      strnncollspSimple sort str ((likeRangeSimple w (setMaxSortChar sort m) n ptr).map snd) ≤ 0 :=
  (bounded_likeRangeSimple h32 hmin (le_setMaxSortChar · m) hlen
    ((wildcmpLoop_answers sort w next ptr false (-1) str (by decide)).1.sound hmatch)).strnncollsp

/-- The range of `a_%` with three bytes has `abc` in it. -/
theorem likeRangeSimple_sound_abc :
    0 ≤ strnncollspSimple id [97, 98, 99] ((likeRangeSimple
        ⟨92, 95, 37, by decide, by decide, by decide⟩ (setMaxSortChar id 0) 3 [97, 95, 37]).map
          fst) ∧
      strnncollspSimple id [97, 98, 99] ((likeRangeSimple
        ⟨92, 95, 37, by decide, by decide, by decide⟩ (setMaxSortChar id 0) 3 [97, 95, 37]).map
          snd) ≤ 0 :=
  likeRangeSimple_sound id rfl (fun c => zero_le c.toNat) _ 0 0 3 _ _ (by decide) (by decide)

end SimpleCollation

end LibSources
