import LibSources.Buckets
import LibSources.ByteMemory
import LibSources.MachineInt

/-!
# `radixsort_for_str_ptr` of `mysys/mf_radix.c`

A radix sort of pointers to strings of a fixed length. Every pass distributes the pointers over
256 buckets by one byte of their strings, from the last byte to the first. A pass is left when
one bucket has all pointers, which may be noticed when some of the counters are sums already.

* An array is a function from positions. `mem p i` is the byte `i` of the string at `p`.
* `size_of_element` is a `size_t`, but the number of the pass is an `int`, which wraps.
* `number_of_elements` is a `uint`, so that a counter of type `uint32` never wraps.

## Main results

* `radixsortForStrPtr_iff`: the arrays that are sorted.
-/

namespace LibSources

open Function List

section

variable {α : Type}

def countKeys (key : α → ℕ) (base : ℕ → α) : ℕ → (ℕ → ℕ)
  | 0 => fun _ => 0
  | k + 1 =>
    let count := countKeys key base k
    update count (key (base k)) (count (key (base k)) + 1)

/-- The loop that sums the counters from `count_ptr` on, `k` times. There is no result when a
counter has all pointers. -/
def sumCounts (n : ℕ) : ℕ → ℕ → (ℕ → ℕ) → Option (ℕ → ℕ)
  | 0, _, count => some count
  | k + 1, c, count =>
    if count c = n then none
    else sumCounts n k (c + 1) (update count c (count c + count (c - 1)))

/-- `buffer[--count[ptr[0][pass]]]= *ptr`, for the first `k` pointers from the last one on. -/
def scatter (key : α → ℕ) (base : ℕ → α) : ℕ → (ℕ → ℕ) → (ℕ → α) → (ℕ → α)
  | 0, _, buffer => buffer
  | k + 1, count, buffer =>
    let c := key (base k)
    scatter key base k (update count c (count c - 1)) (update buffer (count c - 1) (base k))

section

variable (key : α → ℕ) (n : ℕ) (s : (ℕ → α) × (ℕ → α))

def radixPass : (ℕ → α) × (ℕ → α) :=
  let count := countKeys key s.1 n
  if count 0 = n then s
  else
    match sumCounts n 255 1 count with
    | none => s
    | some count =>
      let buffer := scatter key s.1 n count s.2
      (store s.1 0 (window buffer 0 n), buffer)

def sumAllCounts : ℕ → ℕ → (ℕ → ℕ) → (ℕ → ℕ)
  | 0, _, count => count
  | k + 1, c, count => sumAllCounts k (c + 1) (update count c (count c + count (c - 1)))

def radixPassAlways : (ℕ → α) × (ℕ → α) :=
  let buffer := scatter key s.1 n (sumAllCounts 255 1 (countKeys key s.1 n)) s.2
  (store s.1 0 (window buffer 0 n), buffer)

end

def radixLoop (mem : α → ℕ → UInt8) (n : ℕ) : ℕ → (ℕ → α) × (ℕ → α) → (ℕ → α) × (ℕ → α)
  | 0, s => s
  | k + 1, s => radixLoop mem n k (radixPass (fun p => (mem p k).toNat) n s)

/-- The number of passes: `pass` goes from `(int) size_of_element-1` down to `0`. -/
def radixPasses (sizeOfElement : ℕ) : ℕ := (toInt32 (toInt32 sizeOfElement - 1) + 1).toNat

def radixLoopAlways (mem : α → ℕ → UInt8) (n : ℕ) :
    ℕ → (ℕ → α) × (ℕ → α) → (ℕ → α) × (ℕ → α)
  | 0, s => s
  | k + 1, s => radixLoopAlways mem n k (radixPassAlways (fun p => (mem p k).toNat) n s)

section

variable (mem : α → ℕ → UInt8) (base : ℕ → α) (n k : ℕ) (buffer : ℕ → α)

def radixsortPasses : ℕ → α := (radixLoop mem n k (base, buffer)).1

def radixsortForStrPtr (numberOfElements sizeOfElement : ℕ) (buffer : ℕ → α) : ℕ → α :=
  radixsortPasses mem base numberOfElements (radixPasses sizeOfElement) buffer

/-- The array after `k` passes when none is left. -/
def radixsortAlways : ℕ → α := (radixLoopAlways mem n k (base, buffer)).1

end

/-! ### One pass -/

variable {key : α → ℕ} {base buffer : ℕ → α} {n : ℕ}

section

variable (key : α → ℕ) (l : List α)

def bucketStart (c : ℕ) : ℕ := (l.filter fun x => key x < c).length

theorem bucketStart_succ (c : ℕ) :
    bucketStart key l (c + 1) = bucketStart key l c + (l.filter fun x => key x = c).length := by
  rw [bucketStart, ← (buckets_perm_filter key (c + 1) l).length_eq, buckets_succ,
    length_append, (buckets_perm_filter key c l).length_eq, bucketStart]

theorem bucketStart_mono {c d : ℕ} (h : c ≤ d) : bucketStart key l c ≤ bucketStart key l d := by
  induction h with
  | refl => exact le_rfl
  | step h ih => exact ih.trans (by rw [bucketStart_succ]; omega)

end

theorem bucketStart_top {l : List α} {m : ℕ} (h : ∀ x ∈ l, key x < m) :
    bucketStart key l m = l.length :=
  congrArg length (filter_eq_self.mpr fun x hx => decide_eq_true (h x hx))

theorem window_last (base : ℕ → α) (k : ℕ) :
    window base 0 (k + 1) = window base 0 k ++ [base k] := by
  rw [window_add, window_succ, window_zero, zero_add]

theorem getElem?_window (base : ℕ → α) {n i : ℕ} (hi : i < n) :
    (window base 0 n)[i]? = some (base i) := by
  rw [window, getElem?_map, getElem?_range hi, Option.map_some, zero_add]

theorem window_inj {base base' : ℕ → α} {n i : ℕ} (h : window base 0 n = window base' 0 n)
    (hi : i < n) : base i = base' i := by
  have hget : (window base 0 n)[i]? = (window base' 0 n)[i]? := by rw [h]
  rwa [getElem?_window _ hi, getElem?_window _ hi, Option.some.injEq] at hget

theorem countKeys_eq (key : α → ℕ) (base : ℕ → α) (k c : ℕ) :
    countKeys key base k c = ((window base 0 k).filter fun x => key x = c).length := by
  induction k with
  | zero => rfl
  | succ k ih =>
    rw [countKeys, window_last, filter_append, length_append, ← ih]
    by_cases heq : c = key (base k)
    · have hone : ([base k].filter fun x => key x = c) = [base k] :=
        filter_cons_of_pos (decide_eq_true heq.symm)
      rw [heq, update_self, ← heq, hone, length_singleton]
    have hnone : ([base k].filter fun x => key x = c) = [] :=
      filter_cons_of_neg (by simpa using Ne.symm heq)
    rw [update_of_ne heq, hnone, length_nil, add_zero]

theorem sumAllCounts_eq {l : List α} (k c : ℕ) (hc : 0 < c) {count : ℕ → ℕ}
    (hlow : ∀ d < c, count d = bucketStart key l (d + 1))
    (hhigh : ∀ d, c ≤ d → count d = (l.filter fun x => key x = d).length) :
    ∀ d < c + k, sumAllCounts k c count d = bucketStart key l (d + 1) := by
  induction k generalizing c count with
  | zero => exact hlow
  | succ k ih =>
    intro d hd
    rw [sumAllCounts]
    refine ih (c + 1) (Nat.succ_pos c) (fun e he => ?_) (fun e he => ?_) d (by omega)
    · rcases Nat.lt_succ_iff_lt_or_eq.mp he with hlt | rfl
      · rw [update_of_ne hlt.ne, hlow e hlt]
      · rw [update_self, hhigh e le_rfl, hlow (e - 1) (by omega), Nat.sub_add_cancel hc,
          bucketStart_succ, add_comm]
    · rw [update_of_ne (by omega), hhigh e (by omega)]

theorem sumCounts_cases (n k c : ℕ) (count : ℕ → ℕ) :
    (sumCounts n k c count = none ∧ ∃ d, c ≤ d ∧ d < c + k ∧ count d = n) ∨
      sumCounts n k c count = some (sumAllCounts k c count) := by
  induction k generalizing c count with
  | zero => exact .inr rfl
  | succ k ih =>
    rw [sumCounts, sumAllCounts]
    split_ifs with hfull
    · exact .inl ⟨rfl, c, le_rfl, by omega, hfull⟩
    rcases ih (c + 1) (update count c (count c + count (c - 1))) with
      ⟨hnone, d, hle, hlt, hd⟩ | hsome
    · rw [update_of_ne (by omega)] at hd
      exact .inl ⟨hnone, d, by omega, by omega, hd⟩
    · exact .inr hsome

theorem scatter_spec {m : ℕ} (l : List α) (hkey : ∀ i, key (base i) < m) (k : ℕ) {count : ℕ → ℕ}
    {done : ℕ → List α}
    (hroom : ∀ c < m, count c = bucketStart key l c +
      ((window base 0 k).filter fun x => key x = c).length)
    (hend : ∀ c < m, count c + (done c).length = bucketStart key l (c + 1))
    (hdone : ∀ c < m, window buffer (count c) (done c).length = done c) :
    ∀ c < m, window (scatter key base k count buffer) (bucketStart key l c)
        (((window base 0 k).filter fun x => key x = c) ++ done c).length =
      ((window base 0 k).filter fun x => key x = c) ++ done c := by
  induction k generalizing count buffer done with
  | zero =>
    intro c hc
    have hstart := hroom c hc
    rw [window_zero, filter_nil, length_nil, add_zero] at hstart
    rw [window_zero, filter_nil, nil_append, scatter, ← hstart]
    exact hdone c hc
  | succ k ih =>
    intro c hc
    have hfilter : ∀ d, ((window base 0 (k + 1)).filter fun x => key x = d) =
        ((window base 0 k).filter fun x => key x = d) ++
          if key (base k) = d then [base k] else [] := by
      intro d
      rw [window_last, filter_append, filter_singleton]
      by_cases heq : key (base k) = d
      · rw [if_pos heq, decide_eq_true heq, cond_true]
      · rw [if_neg heq, decide_eq_false heq, cond_false]
    have hpos : 0 < count (key (base k)) := by
      rw [hroom _ (hkey k), hfilter, if_pos rfl, length_append, length_singleton]
      omega
    have hroom' : ∀ d < m, update count (key (base k)) (count (key (base k)) - 1) d =
          bucketStart key l d + ((window base 0 k).filter fun x => key x = d).length := by
      intro d hd
      have hd' := hroom d hd
      rw [hfilter, length_append] at hd'
      by_cases heq : d = key (base k)
      · subst heq
        rw [if_pos rfl, length_singleton] at hd'
        rw [update_self]
        omega
      · rw [if_neg (Ne.symm heq), length_nil] at hd'
        rw [update_of_ne heq]
        exact hd'
    have hend' : ∀ d < m, update count (key (base k)) (count (key (base k)) - 1) d +
          ((if key (base k) = d then [base k] else []) ++ done d).length =
            bucketStart key l (d + 1) := by
      intro d hd
      have hd' := hend d hd
      rw [length_append]
      by_cases heq : d = key (base k)
      · subst heq
        rw [if_pos rfl, length_singleton, update_self]
        omega
      · rw [if_neg (Ne.symm heq), length_nil, update_of_ne heq]
        omega
    have hdone' : ∀ d < m, window (update buffer (count (key (base k)) - 1) (base k))
          (update count (key (base k)) (count (key (base k)) - 1) d)
          ((if key (base k) = d then [base k] else []) ++ done d).length =
            (if key (base k) = d then [base k] else []) ++ done d := by
      intro d hd
      have hd' := hdone d hd
      by_cases heq : d = key (base k)
      · subst heq
        rw [if_pos rfl, singleton_append, length_cons, update_self,
          window_succ, update_self, Nat.sub_add_cancel hpos]
        refine congrArg (base k :: ·) (Eq.trans (window_congr fun j hj _ => ?_) hd')
        exact update_of_ne (by omega) _ _
      rw [if_neg (Ne.symm heq), nil_append, update_of_ne heq]
      refine Eq.trans (window_congr fun j hj hj' => update_of_ne ?_ _ _) hd'
      -- the place is in another bucket
      have hstart := hroom _ (hkey k)
      have hstop := hend _ (hkey k)
      rw [hfilter, if_pos rfl, length_append, length_singleton] at hstart
      have hstart' := hroom d hd
      have hstop' := hend d hd
      rcases lt_or_gt_of_ne heq with hlt | hgt
      · have := bucketStart_mono key l (by omega : d + 1 ≤ key (base k))
        omega
      · have := bucketStart_mono key l (by omega : key (base k) + 1 ≤ d)
        omega
    rw [scatter, hfilter, append_assoc]
    exact ih hroom' hend' hdone' c hc

theorem window_scatter (key : α → ℕ) (base buffer : ℕ → α) (n : ℕ)
    (hkey : ∀ i, key (base i) < 256) :
    window (scatter key base n (sumAllCounts 255 1 (countKeys key base n)) buffer) 0 n =
      buckets key 256 (window base 0 n) := by
  have hcounts : ∀ c < 256, sumAllCounts 255 1 (countKeys key base n) c =
      bucketStart key (window base 0 n) (c + 1) := by
    refine sumAllCounts_eq 255 1 one_pos (fun d hd => ?_) fun d _ => countKeys_eq key base n d
    have hnone : bucketStart key (window base 0 n) 0 = 0 := by simp [bucketStart]
    rw [Nat.lt_one_iff.mp hd, countKeys_eq, bucketStart_succ, hnone, zero_add]
  have hspec : ∀ c < 256,
      window (scatter key base n (sumAllCounts 255 1 (countKeys key base n)) buffer)
        (bucketStart key (window base 0 n) c)
        (((window base 0 n).filter fun x => key x = c) ++ []).length =
      ((window base 0 n).filter fun x => key x = c) ++ [] :=
    scatter_spec (window base 0 n) hkey n (fun c hc => by rw [hcounts c hc, bucketStart_succ])
      (fun c hc => by rw [hcounts c hc, length_nil, add_zero]) fun c _ => rfl
  have hbefore : ∀ m ≤ 256,
      window (scatter key base n (sumAllCounts 255 1 (countKeys key base n)) buffer) 0
        (bucketStart key (window base 0 n) m) = buckets key m (window base 0 n) := by
    intro m hm
    induction m with
    | zero =>
      have hnone : bucketStart key (window base 0 n) 0 = 0 := by simp [bucketStart]
      rw [hnone]
      rfl
    | succ m ih =>
      have hbucket := hspec m (by omega)
      rw [append_nil] at hbucket
      rw [bucketStart_succ, window_add, ih (by omega), zero_add, hbucket, buckets_succ]
  have htop := hbefore 256 le_rfl
  have hall : ∀ x ∈ window base 0 n, key x < 256 := by
    intro x hx
    obtain ⟨i, -, rfl⟩ := mem_map.mp hx
    exact hkey _
  rwa [bucketStart_top hall, length_window] at htop

section

variable (n : ℕ) (s : (ℕ → α) × (ℕ → α))

/-- A pass puts the buckets one behind the other, also when it is left. -/
theorem radixPass_window (hkey : ∀ x, key x < 256) :
    window (radixPass key n s).1 0 n = buckets key 256 (window s.1 0 n) := by
  have hleft : ∀ c < 256, countKeys key s.1 n c = n →
      window s.1 0 n = buckets key 256 (window s.1 0 n) := by
    intro c hc hfull
    refine (buckets_of_const hc fun x hx => ?_).symm
    rw [countKeys_eq] at hfull
    have hself : ((window s.1 0 n).filter fun x => key x = c) = window s.1 0 n :=
      filter_sublist.eq_of_length (by rw [hfull, length_window])
    exact of_decide_eq_true (filter_eq_self.mp hself x hx)
  rw [radixPass]
  split_ifs with hfirst
  · exact hleft 0 (by omega) hfirst
  rcases sumCounts_cases n 255 1 (countKeys key s.1 n) with ⟨hnone, c, -, hlt, hfull⟩ | hsome
  · rw [hnone]
    exact hleft c (by omega) hfull
  rw [hsome]
  have hlength : (window (scatter key s.1 n (sumAllCounts 255 1 (countKeys key s.1 n)) s.2) 0
    n).length = n := length_window _ _ _
  have hstore := window_store_self s.1 0
    (window (scatter key s.1 n (sumAllCounts 255 1 (countKeys key s.1 n)) s.2) 0 n)
  rw [hlength] at hstore
  exact hstore.trans (window_scatter key s.1 s.2 n fun i => hkey _)

theorem radixPass_of_ge {i : ℕ} (hi : n ≤ i) : (radixPass key n s).1 i = s.1 i := by
  have hstore : ∀ b : ℕ → α, store s.1 0 (window b 0 n) i = s.1 i := fun b =>
    store_of_ge _ _ (by rw [length_window]; omega)
  rw [radixPass]
  split_ifs
  · rfl
  split
  · rfl
  · exact hstore _

end

theorem radixPass_eq_always (n : ℕ) (s s' : (ℕ → α) × (ℕ → α)) (hbase : s.1 = s'.1)
    (hkey : ∀ x, key x < 256) : (radixPass key n s).1 = (radixPassAlways key n s').1 := by
  funext i
  rcases Nat.lt_or_ge i n with hlt | hge
  · have halways : window (radixPassAlways key n s').1 0 n = buckets key 256 (window s'.1 0 n) := by
      have hstore := window_store_self s'.1 0 (window (scatter key s'.1 n
        (sumAllCounts 255 1 (countKeys key s'.1 n)) s'.2) 0 n)
      rw [length_window] at hstore
      exact hstore.trans (window_scatter key s'.1 s'.2 n fun i => hkey _)
    have heq := (radixPass_window n s hkey).trans ((congrArg (fun b => buckets key 256
      (window b 0 n)) hbase).trans halways.symm)
    exact window_inj heq hlt
  · rw [radixPass_of_ge n s hge, hbase]
    have hlength : ∀ b : ℕ → α, 0 + (window b 0 n).length ≤ i := fun b => by
      rw [length_window, zero_add]
      exact hge
    exact (store_of_ge _ _ (hlength _)).symm

/-! ### All passes -/

def BytesLE (mem : α → ℕ → UInt8) (lo size : ℕ) (p q : α) : Prop :=
  ∀ i, lo ≤ i → i < size → (∀ j, lo ≤ j → j < i → mem p j = mem q j) → mem p i ≤ mem q i

def byteBuckets (mem : α → ℕ → UInt8) : ℕ → List α → List α
  | 0, l => l
  | k + 1, l => byteBuckets mem k (buckets (fun p => (mem p k).toNat) 256 l)

section

variable (mem : α → ℕ → UInt8)

theorem radixLoop_window (n k : ℕ) (s : (ℕ → α) × (ℕ → α)) :
    window (radixLoop mem n k s).1 0 n = byteBuckets mem k (window s.1 0 n) := by
  induction k generalizing s with
  | zero => rfl
  | succ k ih => rw [radixLoop, ih, radixPass_window n s fun p => (mem p k).toNat_lt, byteBuckets]

variable (base : ℕ → α) (n k : ℕ) (buffer : ℕ → α)

theorem radixsortPasses_window :
    window (radixsortPasses mem base n k buffer) 0 n = byteBuckets mem k (window base 0 n) :=
  radixLoop_window mem n k (base, buffer)

theorem byteBuckets_perm (k : ℕ) (l : List α) : (byteBuckets mem k l).Perm l := by
  induction k generalizing l with
  | zero => exact List.Perm.refl l
  | succ k ih => exact (ih _).trans (buckets_perm fun p _ => (mem p k).toNat_lt)

theorem pairwise_bytesLE_step {size k : ℕ} {l : List α}
    (h : l.Pairwise (BytesLE mem (k + 1) size)) :
    (buckets (fun p => (mem p k).toNat) 256 l).Pairwise (BytesLE mem k size) := by
  refine List.Pairwise.imp ?_ (pairwise_of_key_filter (R := BytesLE mem (k + 1) size)
    (pairwise_buckets (fun p => (mem p k).toNat) 256 l) fun c => ?_)
  · intro p q hpq i hlo hi hsame
    rcases hpq with hlt | ⟨heq, hle⟩
    · rcases hlo.eq_or_lt with rfl | hlt'
      · exact UInt8.le_iff_toNat_le.mpr hlt.le
      · exact absurd (congrArg UInt8.toNat (hsame k le_rfl hlt')) hlt.ne
    rcases hlo.eq_or_lt with rfl | hlt'
    · exact UInt8.le_iff_toNat_le.mpr heq.le
    · exact hle i hlt' hi fun j hj hj' => hsame j (by omega) hj'
  rcases Nat.lt_or_ge c 256 with hlt | hge
  · rw [filter_buckets hlt]
    exact h.sublist filter_sublist
  have hnone : ((buckets (fun p => (mem p k).toNat) 256 l).filter
      fun p => (mem p k).toNat = c) = [] := by
    rw [filter_eq_nil_iff]
    intro p _
    have := (mem p k).toNat_lt
    rw [decide_eq_true_eq]
    omega
  rw [hnone]
  exact List.Pairwise.nil

theorem pairwise_byteBuckets {size k : ℕ} {l : List α} (h : l.Pairwise (BytesLE mem k size)) :
    (byteBuckets mem k l).Pairwise (BytesLE mem 0 size) := by
  induction k generalizing l with
  | zero => exact h
  | succ k ih => exact ih (pairwise_bytesLE_step mem h)

theorem filter_byteBuckets {size k : ℕ} (hk : k ≤ size) (v : List UInt8) (l : List α) :
    ((byteBuckets mem k l).filter fun p => window (mem p) 0 size = v) =
      l.filter fun p => window (mem p) 0 size = v := by
  induction k generalizing l with
  | zero => rfl
  | succ k ih =>
    rw [byteBuckets, ih (by omega)]
    rcases hv : v[k]? with - | b
    · -- no string has these bytes
      have hnone : ∀ p, window (mem p) 0 size ≠ v := by
        rintro p rfl
        rw [getElem?_window _ (by omega)] at hv
        exact absurd hv (Option.some_ne_none _)
      rw [filter_eq_nil_iff.mpr fun p _ => by simpa using hnone p,
        filter_eq_nil_iff.mpr fun p _ => by simpa using hnone p]
    have hsub : ∀ l' : List α, (l'.filter fun p => window (mem p) 0 size = v) =
        (l'.filter fun p => (mem p k).toNat = b.toNat).filter
          fun p => window (mem p) 0 size = v := by
      intro l'
      rw [filter_filter]
      refine filter_congr fun p _ => ?_
      rw [eq_comm, Bool.and_eq_left_iff_imp, decide_eq_true_iff, decide_eq_true_iff]
      rintro rfl
      rw [getElem?_window _ (by omega), Option.some.injEq] at hv
      rw [hv]
    rw [hsub, filter_buckets (c := b.toNat) b.toNat_lt, ← hsub]

theorem radixLoop_eq_always (n k : ℕ) (s s' : (ℕ → α) × (ℕ → α)) (hbase : s.1 = s'.1) :
    (radixLoop mem n k s).1 = (radixLoopAlways mem n k s').1 := by
  induction k generalizing s s' with
  | zero => exact hbase
  | succ k ih => exact ih _ _ (radixPass_eq_always n s s' hbase fun p => (mem p k).toNat_lt)

theorem radixsortPasses_eq_always :
    radixsortPasses mem base n k buffer = radixsortAlways mem base n k buffer :=
  radixLoop_eq_always mem n k _ _ rfl

end

theorem radixPasses_cases (size : ℕ) :
    radixPasses size ≤ size ∧ (size ≤ 2 ^ 31 → radixPasses size = size) := by
  rw [radixPasses, toInt32, toInt32, Int.bmod_def, Int.bmod_def]
  constructor
  · split_ifs <;> omega
  · intro hsize
    split_ifs <;> omega

theorem bytesLE_iff {mem : α → ℕ → UInt8} {k size : ℕ} {p q : α} (hlow : BytesLE mem 0 k p q) :
    BytesLE mem 0 size p q ↔
      (window (mem p) 0 k = window (mem q) 0 k → BytesLE mem k size p q) := by
  constructor
  · intro h hsame i hi hi' hbytes
    refine h i zero_le hi' fun j _ hj => ?_
    rcases Nat.lt_or_ge j k with hlt | hge
    · exact window_inj hsame hlt
    · exact hbytes j hge hj
  intro h i _ hi hbytes
  rcases Nat.lt_or_ge i k with hlt | hge
  · exact hlow i zero_le hlt hbytes
  · refine h (window_congr fun j _ hj => ?_) i hge hi fun j _ hj => hbytes j zero_le hj
    exact hbytes j zero_le (by omega)

variable (mem : α → ℕ → UInt8)

theorem byteBuckets_sorted_iff (k size : ℕ) (l : List α) :
    (byteBuckets mem k l).Pairwise (BytesLE mem 0 size) ↔ l.Pairwise fun p q =>
        window (mem p) 0 k = window (mem q) 0 k → BytesLE mem k size p q := by
  have hlow : (byteBuckets mem k l).Pairwise (BytesLE mem 0 k) :=
    pairwise_byteBuckets mem (pairwise_of_forall fun p q i hlo hi => absurd hlo (by omega))
  have hsame : (∀ v, (l.filter fun p => window (mem p) 0 k = v).Pairwise (BytesLE mem k size)) ↔
      ∀ v, ((byteBuckets mem k l).filter fun p => window (mem p) 0 k = v).Pairwise
        (BytesLE mem k size) := forall_congr' fun v => by rw [filter_byteBuckets mem le_rfl]
  rw [pairwise_same_iff, hsame, ← pairwise_same_iff]
  exact ⟨fun h => (hlow.and h).imp fun ⟨hpq, hle⟩ => (bytesLE_iff hpq).mp hle,
    fun h => (hlow.and h).imp fun ⟨hpq, hle⟩ => (bytesLE_iff hpq).mpr hle⟩

/-- The array after the call is a permutation of the array before it that is in the order of the
bytes. Strings with the same bytes keep their order, and the result is that of the passes that
are never left. -/
theorem radixsortForStrPtr_iff (base buffer : ℕ → α) (n size : ℕ) :
    ((window (radixsortForStrPtr mem base n size buffer) 0 n).Perm (window base 0 n) ∧
      (window (radixsortForStrPtr mem base n size buffer) 0 n).Pairwise (BytesLE mem 0 size) ∧
      (∀ v, ((window (radixsortForStrPtr mem base n size buffer) 0 n).filter
          fun p => window (mem p) 0 size = v) =
        (window base 0 n).filter fun p => window (mem p) 0 size = v) ∧
      radixsortForStrPtr mem base n size buffer =
        radixsortAlways mem base n (radixPasses size) buffer) ↔
    size ≤ 2 ^ 31 ∨ (window base 0 n).Pairwise fun p q =>
      window (mem p) 0 (radixPasses size) = window (mem q) 0 (radixPasses size) →
        BytesLE mem (radixPasses size) size p q := by
  obtain ⟨hle, hsmall⟩ := radixPasses_cases size
  rw [radixsortForStrPtr, radixsortPasses_window, byteBuckets_sorted_iff mem]
  constructor
  · rintro ⟨-, hsorted, -, -⟩
    exact .inr hsorted
  intro h
  refine ⟨byteBuckets_perm mem _ _, ?_, fun v => filter_byteBuckets mem hle v _,
    radixsortPasses_eq_always mem base n _ buffer⟩
  rcases h with hsize | hsorted
  · have hall := hsmall hsize
    exact pairwise_of_forall fun p q _ i hlo hi =>
      absurd (hall ▸ hlo : size ≤ i) (Nat.not_le.mpr hi)
  · exact hsorted

end

/-- Two strings of `2 ^ 31 + 1` bytes in the wrong order: there is no pass at all. -/
theorem radixsortForStrPtr_no_pass :
    ¬ (window (radixsortForStrPtr (fun p i => if p = 0 ∧ i = 0 then 1 else 0) id 2 (2 ^ 31 + 1) id)
      0 2).Pairwise (BytesLE (fun p i => if p = 0 ∧ i = 0 then 1 else 0) 0 (2 ^ 31 + 1)) := by
  intro h
  have hstay : window (radixsortForStrPtr (fun p i => if p = 0 ∧ i = 0 then 1 else 0) id 2
      (2 ^ 31 + 1) id) 0 2 = [0, 1] := by decide
  rw [hstay] at h
  have hfirst := (pairwise_cons.mp h).1 1 (mem_singleton_self 1) 0 le_rfl (by omega)
    fun j _ hj => absurd hj (Nat.not_lt_zero j)
  exact absurd hfirst (by decide)

end LibSources
