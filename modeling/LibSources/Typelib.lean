import Mathlib.Tactic

/-!
# `find_typeset` of `mysys/typelib.c`

A model of `find_typeset`, with `find_type` as it is called there (`full_name` is `2 | 8`).
The loop over the list looks for the next comma, but nothing steps over it.

* A string is the list of its bytes without the NUL. A comma is 44, a space is 32.
* A run that does not end has no result.

## Main results

* `findTypeset_iff`: the lists that are decoded, and the errors that are reported.
-/

namespace LibSources

open List

/-- `my_toupper` for `my_charset_latin1`. -/
def toUpperLatin1 (c : UInt8) : UInt8 :=
  if (97 ≤ c ∧ c ≤ 122) ∨ (224 ≤ c ∧ c ≤ 254 ∧ c ≠ 247) then c - 32 else c

/-- What is left of `x` and of a name behind the characters that agree. -/
def skipCommon : List UInt8 → List UInt8 → List UInt8 × List UInt8
  | c :: i, d :: j =>
    if c ≠ 44 ∧ toUpperLatin1 c = toUpperLatin1 d then skipCommon i j else (c :: i, d :: j)
  | i, j => (i, j)

/-- The name ends, and `x` has only spaces up to the next comma. -/
def matchesName (x name : List UInt8) : Bool :=
  let i := (skipCommon x name).1.dropWhile (· = 32)
  (skipCommon x name).2 = [] ∧ (i = [] ∨ i.head? = some 44)

/-- The loop of `find_type` over the names: `find` of them start with `x`, the last at `findpos`. -/
def findType (x : List UInt8) : List (List UInt8) → ℕ → ℕ → ℕ → ℤ
  | [], _, find, findpos => if find = 0 ∨ x = [] then 0 else if find ≠ 1 then -1 else findpos + 1
  | name :: names, pos, find, findpos =>
    if matchesName x name then pos + 1
    else if (skipCommon x name).1 = [] then findType x names (pos + 1) (find + 1) pos
    else findType x names (pos + 1) find findpos

variable (names : List (List UInt8))

/-- The loop of `find_typeset`: the bits and `*err`. -/
def typesetLoop : ℕ → List UInt8 → ℕ → BitVec 64 → Option (BitVec 64 × ℕ)
  | 0, _, _, _ => none
  | fuel + 1, x, err, result =>
    let find := findType x names 0 0 0 - 1
    if x = [] then some (result, 0)
    else if find < 0 then some (0, err + 1)
    else typesetLoop fuel (x.dropWhile (· ≠ 44)) (err + 1) (result ||| 1#64 <<< find.toNat)

/-- Without names, `*err` is left as it is. -/
def findTypeset (x : List UInt8) (err : ℕ) : Option (BitVec 64 × ℕ) :=
  if names = [] then some (0, err) else typesetLoop names (x.length + 2) x 0 0

/-! ### Names and lists -/

/-- The text without its case. -/
def upper (s : List UInt8) : List UInt8 := s.map toUpperLatin1

structure Typelib where
  names : List (List UInt8)
  length_le : names.length ≤ 64
  no_comma : ∀ name ∈ names, 44 ∉ name
  prefix_free : ∀ p q : Fin names.length, p ≠ q → ¬upper (names.get p) <+: upper (names.get q)

/-- A name with or without spaces behind it. -/
def FullName (e : List UInt8) : Prop :=
  ∃ name ∈ names, ∃ k, upper e = upper name ++ replicate k 32

/-- A full name, or the start of exactly one name. -/
def Known (e : List UInt8) : Prop :=
  FullName names e ∨ names.countP (fun name => upper e <+: upper name) = 1

/-- The element number `k` is the first that is not known. -/
def FirstUnknown (elems : List (List UInt8)) (k : ℕ) : Prop :=
  ∃ good bad rest, elems = good ++ bad :: rest ∧ k = good.length + 1 ∧
    (∀ e ∈ good, Known names e) ∧ ¬Known names bad

/-- The elements with commas between them. -/
def listText : List (List UInt8) → List UInt8
  | [] => []
  | e :: elems => e ++ elems.flatMap (44 :: ·)

/-! ### `find_type` -/

variable {names} {e e' x name : List UInt8} {elems : List (List UInt8)}

theorem skipCommon_self (he : 44 ∉ e) : skipCommon e e = ([], []) := by
  induction e with
  | nil => rfl
  | cons c e ih =>
    rw [mem_cons, not_or] at he
    rw [skipCommon, if_pos ⟨Ne.symm he.1, rfl⟩, ih he.2]

theorem upper_start (h : (skipCommon x name).2 = []) : upper name <+: upper x := by
  fun_induction skipCommon x name with
  | case1 c i d j hcd ih => exact cons_prefix_cons.mpr ⟨hcd.2.symm, ih h⟩
  | case2 c i d j => exact absurd h (cons_ne_nil d j)
  | case3 i j => exact (show j = [] from h) ▸ nil_prefix

theorem findType_of_matches {pos find findpos : ℕ} (h : ∃ n ∈ names, matchesName x n) :
    findType x names pos find findpos = pos + names.findIdx (matchesName x) + 1 := by
  induction names generalizing pos find findpos with
  | nil => simp at h
  | cons n names ih =>
    rw [findType, findIdx_cons]
    by_cases hn : matchesName x n
    · simp [hn]
    · have htail : ∃ n ∈ names, matchesName x n := by simpa [hn] using h
      rw [if_neg hn, ih htail, ih htail, ite_self, eq_false_of_ne_true hn]
      push_cast [cond_false]
      ring

/-- A name is found at its own position. -/
theorem Typelib.findType_get (lib : Typelib) (p : Fin lib.names.length) :
    findType (lib.names.get p) lib.names 0 0 0 = p + 1 := by
  have hself : matchesName (lib.names.get p) (lib.names.get p) := by
    rw [matchesName, skipCommon_self (lib.no_comma _ (get_mem lib.names p))]
    rfl
  have hidx : lib.names.findIdx (matchesName (lib.names.get p)) = p := by
    refine (findIdx_eq p.isLt).mpr ⟨hself, fun q hq => eq_false_of_ne_true fun h => ?_⟩
    refine lib.prefix_free ⟨q, hq.trans p.isLt⟩ p (Fin.ne_of_lt hq) (upper_start ?_)
    exact (of_decide_eq_true h).1
  rw [findType_of_matches ⟨_, get_mem lib.names p, hself⟩, hidx, Nat.cast_zero, zero_add]

/-! ### Elements -/

variable {rest : List UInt8}

theorem toUpperLatin1_eq_space (c : UInt8) : toUpperLatin1 c = 32 ↔ c = 32 := by
  rw [toUpperLatin1]
  split_ifs with h
  · simp only [UInt8.le_iff_toNat_le, ← UInt8.toNat_inj, UInt8.toNat_sub, UInt8.reduceToNat] at h ⊢
    omega
  · rfl

/-- Behind its spaces, an element is at its end iff it has nothing else. -/
theorem dropWhile_append (he : 44 ∉ e) (hrest : rest = [] ∨ ∃ x, rest = 44 :: x) :
    ((e ++ rest).dropWhile (· = 32) = [] ∨ ((e ++ rest).dropWhile (· = 32)).head? = some 44) ↔
      ∃ k, upper e = replicate k 32 := by
  induction e with
  | nil =>
    refine iff_of_true ?_ ⟨0, rfl⟩
    rcases hrest with rfl | ⟨x, rfl⟩
    · exact .inl rfl
    · exact .inr rfl
  | cons c e ih =>
    rw [mem_cons, not_or] at he
    by_cases hc : c = 32
    · subst hc
      rw [cons_append, dropWhile_cons_of_pos (by simp), ih he.2]
      refine ⟨fun ⟨k, hk⟩ => ⟨k + 1, congrArg (cons 32) hk⟩, fun ⟨k, hk⟩ => ?_⟩
      cases k with
      | zero => cases hk
      | succ k => exact ⟨k, (cons.inj hk).2⟩
    · rw [cons_append, dropWhile_cons_of_neg (by simpa using hc)]
      refine iff_of_false ?_ ?_
      · rintro (hnil | hhead)
        · cases hnil
        · exact he.1 (Option.some.inj hhead).symm
      · rintro ⟨_ | k, hk⟩
        · cases hk
        · exact hc ((toUpperLatin1_eq_space c).mp (cons.inj hk).1)

/-- An element behind which the text ends or has a comma. -/
theorem matchesName_append (he : 44 ∉ e) (hrest : rest = [] ∨ ∃ x, rest = 44 :: x) :
    matchesName (e ++ rest) name = true ↔ ∃ k, upper e = upper name ++ replicate k 32 := by
  induction name generalizing e with
  | nil =>
    have hskip : skipCommon (e ++ rest) [] = (e ++ rest, []) := by
      cases e ++ rest <;> rfl
    rw [matchesName, hskip, decide_eq_true_iff, eq_self, true_and]
    exact dropWhile_append he hrest
  | cons d name ih =>
    cases e with
    | nil =>
      refine iff_of_false ?_ fun ⟨k, hk⟩ => absurd hk.symm (cons_ne_nil _ _)
      rcases hrest with rfl | ⟨x, rfl⟩ <;> simp [matchesName, skipCommon]
    | cons c e =>
      rw [mem_cons, not_or] at he
      by_cases hcd : toUpperLatin1 c = toUpperLatin1 d
      · have hskip : skipCommon (c :: e ++ rest) (d :: name) = skipCommon (e ++ rest) name :=
          if_pos ⟨Ne.symm he.1, hcd⟩
        rw [matchesName, hskip, ← matchesName, ih he.2]
        simp only [upper, map_cons, cons_append, hcd, cons.injEq, true_and]
      · refine iff_of_false ?_ fun ⟨k, hk⟩ => hcd (cons.inj hk).1
        have hskip : skipCommon (c :: e ++ rest) (d :: name) = (c :: e ++ rest, d :: name) :=
          if_neg fun h => hcd h.2
        rw [matchesName, hskip]
        simp

theorem skipCommon_append (he : 44 ∉ e) (hrest : rest = [] ∨ ∃ x, rest = 44 :: x) :
    (skipCommon (e ++ rest) name).1 = [] ↔ rest = [] ∧ upper e <+: upper name := by
  induction e generalizing name with
  | nil =>
    rcases hrest with rfl | ⟨x, rfl⟩
    · cases name <;> simp [skipCommon, upper]
    · cases name <;> simp [skipCommon]
  | cons c e ih =>
    rw [mem_cons, not_or] at he
    cases name with
    | nil => simp [skipCommon, upper]
    | cons d name =>
      have hcons : upper (c :: e) <+: upper (d :: name) ↔
          toUpperLatin1 c = toUpperLatin1 d ∧ upper e <+: upper name := cons_prefix_cons
      rw [hcons]
      by_cases hcd : toUpperLatin1 c = toUpperLatin1 d
      · rw [cons_append, skipCommon, if_pos ⟨Ne.symm he.1, hcd⟩, ih he.2]
        simp [hcd]
      · rw [cons_append, skipCommon, if_neg fun h => hcd h.2]
        simp [hcd]

theorem findType_of_not_matches {pos find findpos : ℕ} (hx : x ≠ [])
    (h : ∀ n ∈ names, matchesName x n = false) : 0 < findType x names pos find findpos ↔
      find + names.countP (fun name => (skipCommon x name).1 = []) = 1 := by
  induction names generalizing pos find findpos with
  | nil =>
    simp only [findType, hx, or_false, countP_nil, add_zero]
    split_ifs <;> omega
  | cons n names ih =>
    have hn := h n mem_cons_self
    have htail := fun n hn => h n (mem_cons_of_mem _ hn)
    rw [findType, if_neg (by rw [hn]; exact Bool.false_ne_true), countP_cons]
    split_ifs with hstart hstart' hstart'
    · rw [ih htail]
      omega
    · exact absurd (decide_eq_true hstart) hstart'
    · exact absurd (of_decide_eq_true hstart') hstart
    · rw [ih htail, add_zero]

variable (names) in
/-- An element is found iff it is a full name or, at the end of the text, the start of one name. -/
theorem findType_pos_iff (he : 44 ∉ e) (hrest : rest = [] ∨ ∃ x, rest = 44 :: x)
    (hx : e ++ rest ≠ []) : 0 < findType (e ++ rest) names 0 0 0 ↔
      FullName names e ∨ rest = [] ∧ names.countP (fun name => upper e <+: upper name) = 1 := by
  have hmatches : (∃ n ∈ names, matchesName (e ++ rest) n = true) ↔ FullName names e := by
    simp only [matchesName_append he hrest, FullName]
  by_cases hfull : FullName names e
  · rw [findType_of_matches (hmatches.mpr hfull)]
    exact iff_of_true (by omega) (.inl hfull)
  · rw [← hmatches] at hfull
    push Not at hfull
    rw [findType_of_not_matches hx fun n hn => eq_false_of_ne_true (hfull n hn), zero_add,
      or_iff_right (mt hmatches.mpr (by push Not; exact hfull))]
    simp only [skipCommon_append he hrest]
    by_cases hend : rest = []
    · simp [hend]
    · simp [hend]

/-! ### `find_typeset` -/

theorem fullName_nil : FullName names [] ↔ [] ∈ names := by
  refine ⟨fun ⟨name, hname, k, hk⟩ => ?_, fun h => ⟨[], h, 0, rfl⟩⟩
  obtain ⟨hupper, -⟩ := append_eq_nil_iff.mp hk.symm
  rwa [map_eq_nil_iff.mp hupper] at hname

/-- At a comma, the loop does not end if there is an empty name, and fails otherwise. -/
theorem typesetLoop_comma (fuel err : ℕ) (result : BitVec 64) :
    typesetLoop names (fuel + 1) (44 :: x) err result =
      if [] ∈ names then none else some (0, err + 1) := by
  have hfound : 0 < findType (44 :: x) names 0 0 0 ↔ [] ∈ names := by
    have h := @findType_pos_iff names [] (44 :: x) not_mem_nil (.inr ⟨x, rfl⟩) (cons_ne_nil _ _)
    rw [nil_append] at h
    rw [h, fullName_nil, or_iff_left fun h => cons_ne_nil _ _ h.1]
  split_ifs with hempty
  · have h := hfound.mpr hempty
    have hnone : ∀ fuel err result, typesetLoop names fuel (44 :: x) err result = none := by
      intro fuel
      induction fuel with
      | zero => exact fun _ _ => rfl
      | succ fuel ih =>
        intro err result
        rw [typesetLoop, if_neg (cons_ne_nil 44 x), if_neg (by omega)]
        exact ih _ _
    exact hnone _ _ _
  · have h := mt hfound.mp hempty
    rw [typesetLoop, if_neg (cons_ne_nil 44 x), if_pos (by omega)]

theorem dropWhile_listText (he : 44 ∉ e) :
    (listText (e :: elems)).dropWhile (· ≠ 44) = elems.flatMap (44 :: ·) := by
  rw [listText, dropWhile_append_of_pos (by simpa using fun c hc (heq : c = 44) => he (heq ▸ hc))]
  cases elems <;> rfl

theorem flatMap_comma (elems : List (List UInt8)) :
    elems.flatMap (44 :: ·) = [] ∨ ∃ x, elems.flatMap (44 :: ·) = 44 :: x := by
  cases elems with
  | nil => exact .inl rfl
  | cons e elems => exact .inr ⟨_, rfl⟩

variable (e' elems) in
/-- A list of two or more elements. -/
theorem findTypeset_two (hnames : names ≠ []) (he : 44 ∉ e) (err : ℕ) :
    (FullName names e → findTypeset names (listText (e :: e' :: elems)) err =
      if [] ∈ names then none else some (0, 2)) ∧
    (¬FullName names e → findTypeset names (listText (e :: e' :: elems)) err = some (0, 1)) := by
  have hx : listText (e :: e' :: elems) ≠ [] := by simp [listText]
  have hfound := findType_pos_iff names he (flatMap_comma (e' :: elems)) hx
  rw [or_iff_left fun h => cons_ne_nil _ _ h.1] at hfound
  change 0 < findType (listText (e :: e' :: elems)) names 0 0 0 ↔ FullName names e at hfound
  rw [findTypeset, if_neg hnames, typesetLoop, if_neg hx, dropWhile_listText he, ← hfound]
  refine ⟨fun h => ?_, fun h => if_pos (by omega)⟩
  rw [if_neg (by omega)]
  exact typesetLoop_comma _ _ _

theorem Typelib.findTypeset_get (lib : Typelib) (p : Fin lib.names.length) (err : ℕ) :
    findTypeset lib.names (listText [lib.names.get p]) err =
      if lib.names.get p = [] then some (0, 0) else some (1#64 <<< p.val, 0) := by
  have hmem := get_mem lib.names p
  have hx : listText [lib.names.get p] = lib.names.get p := append_nil _
  rw [findTypeset, if_neg (ne_nil_of_mem hmem), typesetLoop,
    dropWhile_listText (lib.no_comma _ hmem), hx, lib.findType_get p]
  split_ifs with hnil hneg
  · rfl
  · omega
  · simp [typesetLoop]

/-- A list whose first element is not known. -/
theorem findTypeset_unknown (hnames : names ≠ []) (he : 44 ∉ e) (hunknown : ¬Known names e)
    (err : ℕ) : findTypeset names (listText (e :: elems)) err =
      if listText (e :: elems) = [] then some (0, 0) else some (0, 1) := by
  rw [findTypeset, if_neg hnames, typesetLoop]
  split_ifs with hx hneg
  · rfl
  · rfl
  · have hfound := findType_pos_iff names he (flatMap_comma elems) hx
    change 0 < findType (listText (e :: elems)) names 0 0 0 ↔ _ at hfound
    exact absurd ((hfound.mp (by omega)).imp_right And.right) hunknown

/-- A list of names is decoded iff it has one element that is not empty. The first unknown element
is reported iff it is the first one of a list that is not empty, or the second one behind a full
name and no name is empty. Without names, `*err` is left as it is. -/
theorem findTypeset_iff (lib : Typelib) (err : ℕ) :
    (∀ ps : List (Fin lib.names.length), ps ≠ [] →
      (findTypeset lib.names (listText (ps.map lib.names.get)) err =
          some (ps.foldr (fun p bits => 1#64 <<< p.val ||| bits) 0, 0) ↔
        ∃ p, ps = [p] ∧ lib.names.get p ≠ [])) ∧
    ∀ elems k, (∀ e ∈ elems, 44 ∉ e) → FirstUnknown lib.names elems k →
      (findTypeset lib.names (listText elems) err = some (0, k) ↔
        lib.names = [] ∧ err = 1 ∨ lib.names ≠ [] ∧ (k = 1 ∧ listText elems ≠ [] ∨
          k = 2 ∧ (∃ e ∈ elems.head?, FullName lib.names e) ∧ [] ∉ lib.names)) := by
  refine ⟨fun ps hps => ?_, fun elems k hcommas hfirst => ?_⟩
  · obtain ⟨p, ps, rfl⟩ := exists_cons_of_ne_nil hps
    have hmem := get_mem lib.names p
    cases ps with
    | nil =>
      have hbit : 1#64 <<< p.val ≠ 0 := fun h => by
        have hp := congrArg (BitVec.getLsbD · p.val) h
        simp [p.isLt.trans_le lib.length_le] at hp
      rw [map_cons, map_nil, lib.findTypeset_get p]
      split_ifs with hnil
      · simpa [-get_eq_getElem, hnil] using hbit.symm
      · simpa using hnil
    | cons q ps =>
      refine iff_of_false ?_ (by simp)
      rw [map_cons, map_cons, (findTypeset_two _ _ (ne_nil_of_mem hmem) (lib.no_comma _ hmem)
        err).1 ⟨_, hmem, 0, (append_nil _).symm⟩]
      split_ifs <;> simp
  obtain ⟨good, bad, rest, rfl, rfl, hgood, hbad⟩ := hfirst
  by_cases hnames : lib.names = []
  · have hnil : good = [] := eq_nil_iff_forall_not_mem.mpr fun e he => by
      simpa [Known, FullName, hnames] using hgood e he
    rw [findTypeset, if_pos hnames, hnil]
    simp [hnames]
  rw [or_iff_right fun h => hnames h.1]
  cases good with
  | nil =>
    rw [nil_append, findTypeset_unknown hnames (hcommas bad mem_cons_self) hbad]
    split_ifs with hx
    · simp [hx]
    · simp [hx, hnames]
  | cons e good =>
    obtain ⟨e', elems, heq⟩ := exists_cons_of_ne_nil
      (append_ne_nil_of_right_ne_nil good (cons_ne_nil bad rest))
    rw [cons_append, heq]
    have htwo := findTypeset_two e' elems hnames (hcommas e mem_cons_self) err
    by_cases hfull : FullName lib.names e
    · rw [htwo.1 hfull]
      split_ifs with hempty
      · simp [hempty]
      · simp [hempty, hfull, hnames, eq_comm]
    · rw [htwo.2 hfull]
      simp [hfull]

/-- The names `a` and `b`. -/
def abTypelib : Typelib := ⟨[[97], [98]], by decide, by decide, by decide⟩

theorem findTypeset_a : findTypeset abTypelib.names [97] 0 = some (1#64 <<< 0 ||| 0, 0) :=
  ((findTypeset_iff abTypelib 0).1 [⟨0, two_pos⟩] (cons_ne_nil _ _)).mpr ⟨_, rfl, cons_ne_nil _ _⟩

/-- The list `a,b`. -/
theorem findTypeset_comma : findTypeset [[97], [98]] [97, 44, 98] 0 = some (0, 2) := by
  decide

end LibSources
