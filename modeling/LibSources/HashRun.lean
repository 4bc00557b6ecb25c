import LibSources.HashUpdate

/-!
# Whole Runs of the Table

A run starts from `_my_hash_init` and is a list of calls by a user of the table. The
memory of a record changes just before the call of `my_hash_update` for it, and the user
may write the memory of a record that is not stored.

## Main results

* `HashState.run_valid`: every run keeps the table valid.
-/

namespace LibSources

open List Function

variable {R : Type}

/-! ### The self-test -/

theorem checkChain_eq (hash : Hash R) (mem : R → List UInt8) (fuel found : ℕ) {i : ℕ}
    {l : List ℕ} (hseg : Segment (nextOf hash.array) l none)
    (hl : ∀ x ∈ l, x < hash.records ∧
      homeOf (recHashnr hash mem) hash.blength hash.records hash.array x = i)
    (hfound : found + l.length ≤ hash.records) (hfuel : l.length ≤ fuel) :
    checkChain hash mem i fuel l.head? found false = some (found + l.length, false) := by
  induction l generalizing fuel found with
  | nil => rw [head?_nil, checkChain, length_nil, add_zero]
  | cons x l ih =>
    obtain ⟨fuel, rfl⟩ : ∃ f, fuel = f + 1 := ⟨fuel - 1, by simp at hfuel; omega⟩
    obtain ⟨hx, hhome⟩ := hl x mem_cons_self
    have hnext : (hash.array x).next = l.head? := by simpa [nextOf] using hseg.1
    have hin : decide (hash.records ≤ x) = false := by simpa using hx
    rw [length_cons] at hfound hfuel
    rw [head?_cons, checkChain, if_neg (by omega), hnext, hin]
    refine (if_neg (not_not.mpr hhome)).trans ?_
    rw [Bool.or_false, ih _ _ hseg.2 (fun y hy => hl y (mem_cons_of_mem x hy)) (by omega)
      (by omega), length_cons]
    congr 2
    omega

variable {chain : ℕ → List ℕ} {stored : Multiset R} {mem : R → List UInt8} {hash : Hash R}

theorem sum_chain_length {home : ℕ → ℕ} {nxt : ℕ → Option ℕ} {n : ℕ}
    (F : ChainFamily (· < n) home nxt chain) (hhome : ∀ i < n, home i < n) :
    ∑ h ∈ Finset.range n, (chain h).length = n := by
  have hcard : ∀ h, (chain h).length = ((Finset.range n).filter (home · = h)).card := by
    intro h
    rw [← toFinset_card_of_nodup (F.nodup h)]
    congr 1
    ext i
    simp [F.mem_iff]
  calc ∑ h ∈ Finset.range n, (chain h).length
      = ∑ h ∈ Finset.range n, ((Finset.range n).filter (home · = h)).card :=
        Finset.sum_congr rfl fun h _ => hcard h
    _ = (Finset.range n).card :=
        (Finset.card_eq_sum_card_fiberwise fun i hi => by simpa using hhome i (by simpa using hi)).symm
    _ = n := Finset.card_range n

theorem checkSlots_eq (hash : Hash R) (mem : R → List UInt8) (F : ChainFamily (· < hash.records)
      (homeOf (recHashnr hash mem) hash.blength hash.records hash.array)
      (nextOf hash.array) chain)
    (hsum : ∑ h ∈ Finset.range hash.records, (chain h).length = hash.records) (m i : ℕ)
    (hi : i + m = hash.records) :
    checkSlots hash mem m i (∑ h ∈ Finset.range i, (chain h).length) false =
      some (hash.records, false) := by
  induction m generalizing i with
  | zero =>
    obtain rfl : i = hash.records := by omega
    rw [checkSlots, hsum]
  | succ m ih =>
    have hle : ∑ h ∈ Finset.range (i + 1), (chain h).length ≤ hash.records := by
      rw [← hsum]
      exact Finset.sum_le_sum_of_subset (Finset.range_subset_range.mpr (by omega))
    have hstep := ih (i + 1) (by omega)
    rw [Finset.sum_range_succ] at hle hstep
    rw [checkSlots]
    by_cases hhome : homeOf (recHashnr hash mem) hash.blength hash.records hash.array i = i
    · obtain ⟨l, hl⟩ := F.chain_eq_cons (by omega : i < hash.records) hhome
      have hseg := F.seg i
      rw [hl] at hseg hle hstep
      rw [length_cons] at hle hstep
      have hmem : ∀ x ∈ l, x < hash.records ∧
          homeOf (recHashnr hash mem) hash.blength hash.records hash.array x = i := by
        intro x hx
        refine (F.mem_iff i x).mp ?_
        rw [hl]
        exact mem_cons_of_mem i hx
      have hnext : (hash.array i).next = l.head? := by simpa [nextOf] using hseg.1
      have hcheck := checkChain_eq hash mem (hash.records + 1)
        (∑ h ∈ Finset.range i, (chain h).length + 1) hseg.2 hmem (by omega) (by omega)
      refine (if_pos hhome).trans ?_
      rw [hnext, hcheck, Option.bind_eq_bind, Option.bind_some]
      rw [show ∑ h ∈ Finset.range i, (chain h).length + 1 + l.length =
        ∑ h ∈ Finset.range i, (chain h).length + (l.length + 1) by omega]
      exact hstep
    · rw [F.chain_eq_nil fun h => hhome h.2, length_nil, add_zero] at hstep
      exact (if_neg hhome).trans hstep

/-- The self-test accepts every valid table. -/
theorem HashInv.myHashCheck_eq (I : HashInv hash mem stored) :
    myHashCheck hash mem = some false := by
  obtain ⟨chain, F⟩ := I.chained
  have hsum := sum_chain_length F fun i hi => myHashMask_lt I.length (by omega) _
  have hslots := checkSlots_eq hash mem F hsum hash.records 0 (zero_add _)
  rw [Finset.range_zero, Finset.sum_empty] at hslots
  rw [myHashCheck, hslots]
  simp

theorem HashInv.next_lt (I : HashInv hash mem stored) {i j : ℕ} (hi : i < hash.records)
    (hj : (hash.array i).next = some j) : j < hash.records := by
  obtain ⟨chain, F⟩ := I.chained
  exact (F.slots_of_nxt hi hj).1

/-! ### Runs -/

inductive HashOp (R : Type) where
  /-- Call `my_hash_insert`. -/
  | insert (record : R)
  /-- Call `my_hash_delete`. -/
  | delete (record : R)
  /-- Write `contents` to the memory of the record and call `my_hash_update` with a copy
  `oldKey` of its old key. With `undo` the old memory is put back when the call fails. -/
  | update (record : R) (contents oldKey : List UInt8) (undo : Bool)
  /-- Write the memory of a record. -/
  | write (record : R) (contents : List UInt8)

/-- A table, the memory of the records, and the records inserted and not deleted. -/
structure HashState (R : Type) where
  hash : Hash R
  mem : R → List UInt8
  stored : Multiset R

namespace HashState

variable [DecidableEq R]

def step (s : HashState R) : HashOp R → Option (HashState R)
  | .insert record => do
      let (hash, error) ← myHashInsert s.hash s.mem record
      pure { s with hash := hash, stored := if error then s.stored else record ::ₘ s.stored }
  | .delete record => do
      let (hash, error) ← myHashDelete s.hash s.mem record
      pure { s with hash := hash, stored := if error then s.stored else s.stored.erase record }
  | .update record contents oldKey undo => do
      let mem := update s.mem record contents
      let (hash, error) ←
        myHashUpdate s.hash mem record oldKey (myHashKey s.hash s.mem record false).2
      pure { s with hash := hash, mem := if error && undo then s.mem else mem }
  | .write record contents => some { s with mem := update s.mem record contents }

def run (s : HashState R) : List (HashOp R) → Option (HashState R)
  | [] => some s
  | op :: ops => do
      let s' ← s.step op
      run s' ops

def RunKeeps (ok : HashState R → HashOp R → Prop) (s : HashState R) : List (HashOp R) → Prop
  | [] => True
  | op :: ops => ok s op ∧ ∀ s' ∈ s.step op, RunKeeps ok s' ops

def init (keyOffset keyLength : ℕ) (unique : Bool)
    (getKey : Option (List UInt8 → Bool → List UInt8 × ℕ)) (charset : Collation)
    (array : ℕ → HashLink R) (mem : R → List UInt8) : HashState R :=
  ⟨myHashInit keyOffset keyLength unique getKey charset array, mem, 0⟩

end HashState

/-- How the memory of the records changes: stored records only change just before
`my_hash_update`, which gets their old key. -/
def HashOp.AsCallers (s : HashState R) : HashOp R → Prop
  | .insert _ => True
  | .delete _ => True
  | .update record _ oldKey _ =>
    let (key, length) := myHashKey s.hash s.mem record false
    oldKey.take length = key.take length
  | .write record _ => record ∉ s.stored

/-- What `my_hash_update` further relies on: the table is not empty, the record is stored
at most once, an empty old key is not taken for a key of the fixed length, and the user
undoes the change of a stored record when the call fails. -/
def HashOp.Ok [DecidableEq R] (s : HashState R) : HashOp R → Prop
  | .update record contents oldKey undo =>
    HashOp.AsCallers s (.update record contents oldKey undo) ∧
      0 < s.hash.records ∧ s.stored.count record ≤ 1 ∧
      ((myHashKey s.hash s.mem record false).2 ≠ 0 ∨ s.hash.keyLength = 0) ∧
      (undo = true ∨ record ∉ s.stored)
  | op => op.AsCallers s

instance HashOp.decidableAsCallers [DecidableEq R] (s : HashState R) (op : HashOp R) :
    Decidable (op.AsCallers s) :=
  match op with
  | .insert _ => inferInstanceAs (Decidable True)
  | .delete _ => inferInstanceAs (Decidable True)
  | .update record _ oldKey _ =>
    inferInstanceAs (Decidable (oldKey.take (myHashKey s.hash s.mem record false).2 =
      (myHashKey s.hash s.mem record false).1.take (myHashKey s.hash s.mem record false).2))
  | .write record _ => inferInstanceAs (Decidable (record ∉ s.stored))

instance HashOp.decidableOk [DecidableEq R] (s : HashState R) (op : HashOp R) :
    Decidable (op.Ok s) :=
  match op with
  | .insert _ => inferInstanceAs (Decidable True)
  | .delete _ => inferInstanceAs (Decidable True)
  | .update record contents oldKey undo =>
    inferInstanceAs (Decidable (HashOp.AsCallers s (.update record contents oldKey undo) ∧
      0 < s.hash.records ∧ s.stored.count record ≤ 1 ∧
      ((myHashKey s.hash s.mem record false).2 ≠ 0 ∨ s.hash.keyLength = 0) ∧
      (undo = true ∨ record ∉ s.stored)))
  | .write record _ => inferInstanceAs (Decidable (record ∉ s.stored))

instance HashState.decidableRunKeeps [DecidableEq R] (ok : HashState R → HashOp R → Prop)
    [∀ s op, Decidable (ok s op)] :
    ∀ (s : HashState R) (ops : List (HashOp R)), Decidable (s.RunKeeps ok ops)
  | _, [] => inferInstanceAs (Decidable True)
  | s, op :: ops =>
    haveI := fun s' => decidableRunKeeps ok s' ops
    inferInstanceAs (Decidable (ok s op ∧ ∀ s' ∈ s.step op, s'.RunKeeps ok ops))

theorem HashInv.write {mem' : R → List UInt8} (I : HashInv hash mem stored)
    (hmem : ∀ r ∈ stored, mem' r = mem r) :
    HashInv hash mem' stored where
  length := I.length
  elements_eq := I.elements_eq
  chained := by
    obtain ⟨chain, F⟩ := I.chained
    refine ⟨chain, F.congr (fun _ => Iff.rfl) (fun i hi => ?_) fun _ _ => rfl⟩
    have hrec : (hash.array i).data ∈ stored := by
      rw [← I.stored_eq]
      exact mem_contents.mpr ⟨i, Finset.mem_range.mpr hi, rfl⟩
    rw [homeOf, recHashnr_congr hash (hmem _ hrec), homeOf]
  stored_eq := I.stored_eq

theorem HashState.calcHash_oldKey {s : HashState R} {record : R} {oldKey : List UInt8}
    (hkey : oldKey.take (myHashKey s.hash s.mem record false).2 =
      (myHashKey s.hash s.mem record false).1.take (myHashKey s.hash s.mem record false).2)
    (hlen : (myHashKey s.hash s.mem record false).2 ≠ 0 ∨ s.hash.keyLength = 0) :
    calcHash s.hash oldKey (if (myHashKey s.hash s.mem record false).2 ≠ 0 then
        (myHashKey s.hash s.mem record false).2 else s.hash.keyLength) =
      recHashnr s.hash s.mem record := by
  have hif : (if (myHashKey s.hash s.mem record false).2 ≠ 0 then
      (myHashKey s.hash s.mem record false).2 else s.hash.keyLength) =
      (myHashKey s.hash s.mem record false).2 := by
    split
    · rfl
    · rename_i h
      rw [hlen.resolve_left h, not_not.mp h]
  rw [hif, calcHash, hkey]
  rfl

def HashState.Valid (s : HashState R) : Prop := HashInv s.hash s.mem s.stored

namespace HashState

variable [DecidableEq R]

/-- One call that keeps the rules returns and keeps the table valid. -/
theorem Valid.step {s : HashState R} (hs : s.Valid) {op : HashOp R} (hop : op.Ok s) :
    ∃ s', s.step op = some s' ∧ s'.Valid := by
  cases op with
  | insert record =>
    rcases HashInv.myHashInsert hs record with h | ⟨hash', h, hinv⟩
    · exact ⟨s, by simp only [HashState.step, h]; rfl, hs⟩
    · exact ⟨{ s with hash := hash', stored := record ::ₘ s.stored },
        by simp only [HashState.step, h]; rfl, hinv⟩
  | delete record =>
    rcases HashInv.myHashDelete hs record with ⟨-, h⟩ | ⟨hash', stored', heq, h, hinv⟩
    · exact ⟨s, by simp only [HashState.step, h]; rfl, hs⟩
    refine ⟨_, by simp only [HashState.step, h]; rfl, ?_⟩
    have herase : s.stored.erase record = stored' := by rw [heq, Multiset.erase_cons_head]
    rw [← herase] at hinv
    exact hinv
  | update record contents oldKey undo =>
    obtain ⟨hkey, hn, hcount, hlen, hundo⟩ := hop
    have hmem : ∀ r, r ≠ record → update s.mem record contents r = s.mem r :=
      fun r hr => update_of_ne hr _ _
    rcases HashInv.myHashUpdate hs hmem hcount hn (calcHash_oldKey hkey hlen) with
      h | ⟨hash', h, hinv⟩
    · refine ⟨_, by simp only [HashState.step, h]; rfl, ?_⟩
      cases undo with
      | true => exact hs
      | false =>
        -- the memory of a record that is not stored may stay changed
        have hnot := hundo.resolve_left Bool.false_ne_true
        refine HashInv.write hs fun r hr => hmem r ?_
        rintro rfl
        exact hnot hr
    · refine ⟨_, by simp only [HashState.step, h]; rfl, ?_⟩
      exact hinv
  | write record contents =>
    refine ⟨_, rfl, HashInv.write hs fun r hr => update_of_ne ?_ _ _⟩
    rintro rfl
    exact hop hr

theorem Valid.run {s : HashState R} (hs : s.Valid) {ops : List (HashOp R)}
    (hops : s.RunKeeps HashOp.Ok ops) : ∃ s', s.run ops = some s' ∧ s'.Valid := by
  induction ops generalizing s with
  | nil => exact ⟨s, rfl, hs⟩
  | cons op ops ih =>
    obtain ⟨hop, hrest⟩ := hops
    obtain ⟨s1, hstep, hs1⟩ := hs.step hop
    obtain ⟨s', hrun, hs'⟩ := ih hs1 (hrest s1 hstep)
    exact ⟨s', by rw [HashState.run, hstep]; exact hrun, hs'⟩

/-- From `_my_hash_init` on, for every key function and every hash function, after every
run whose updates keep the rules of `HashOp.Ok`: the length is the right power of two, the
slots in use are partitioned into linked chains that start at the position of their
records, every link stays inside the table, the stored records are those inserted and not
deleted, and the self-test passes. -/
theorem run_valid (keyOffset keyLength : ℕ) (unique : Bool)
    (getKey : Option (List UInt8 → Bool → List UInt8 × ℕ)) (charset : Collation)
    (array : ℕ → HashLink R) (mem : R → List UInt8) (ops : List (HashOp R))
    (hops : (init keyOffset keyLength unique getKey charset array mem).RunKeeps HashOp.Ok ops) :
    ∃ s, (init keyOffset keyLength unique getKey charset array mem).run ops = some s ∧
      HashInv s.hash s.mem s.stored ∧
      (∀ i < s.hash.records, ∀ j, (s.hash.array i).next = some j → j < s.hash.records) ∧
      myHashCheck s.hash s.mem = some false := by
  have hinit : (init keyOffset keyLength unique getKey charset array mem).Valid :=
    hashInv_myHashInit keyOffset keyLength unique getKey charset array mem
  obtain ⟨s, hrun, hs⟩ := hinit.run hops
  exact ⟨s, hrun, hs, fun i hi j hj => hs.next_lt hi hj, hs.myHashCheck_eq⟩

end HashState

/-! ### The rules are needed -/

def firstByteCollation : Collation where
  hashSort key := (key.headD 0).toNat
  strnncoll a b := if a = b then 0 else 1

def HashState.ofBytes (unique : Bool) (getKey : Option (List UInt8 → Bool → List UInt8 × ℕ)) :
    HashState ℕ :=
  init 0 1 unique getKey firstByteCollation (fun i => ⟨some (i + 1), 0⟩)
    fun record => [record.toUInt8]

/-- `HashState.run_valid` at a run with a split, an update that moves a record, an update
that is rejected and undone, and a deletion. -/
theorem HashState.run_valid_ofBytes :
    ∃ s, (ofBytes true none).run [.insert 1, .insert 2, .insert 3, .insert 4,
        .update 1 [6] [1] true, .update 2 [3] [2] true, .delete 3] = some s ∧
      HashInv s.hash s.mem s.stored ∧
      (∀ i < s.hash.records, ∀ j, (s.hash.array i).next = some j → j < s.hash.records) ∧
      myHashCheck s.hash s.mem = some false :=
  run_valid 0 1 true none firstByteCollation _ _ _ (by decide)

/-- Runs in which the records only change as `HashOp.AsCallers` has it can break a table:
by updating a record that is stored twice, by leaving the new key of a rejected update in
place, by updating a record with an empty key in a table with a key length, and by updating
in an empty table, where the walk leaves the array. -/
theorem HashState.update_breaks_table :
    ((ofBytes false none).RunKeeps HashOp.AsCallers
        [.insert 1, .insert 1, .update 1 [2] [1] true] ∧
      ((ofBytes false none).run [.insert 1, .insert 1, .update 1 [2] [1] true]).map
        (fun s => myHashCheck s.hash s.mem) = some (some true)) ∧
    ((ofBytes true none).RunKeeps HashOp.AsCallers [.insert 1, .insert 2, .update 1 [2] [1] false] ∧
      ((ofBytes true none).run [.insert 1, .insert 2, .update 1 [2] [1] false]).map
        (fun s => myHashCheck s.hash s.mem) = some (some true)) ∧
    ((ofBytes false (some fun mem _ => (mem, mem.length))).RunKeeps HashOp.AsCallers
        [.insert 1, .insert 2, .update 1 [] [1] true, .update 1 [1] [1] true] ∧
      ((ofBytes false (some fun mem _ => (mem, mem.length))).run
        [.insert 1, .insert 2, .update 1 [] [1] true, .update 1 [1] [1] true]).map
          (fun s => myHashCheck s.hash s.mem) = some (some true)) ∧
    ((ofBytes true none).RunKeeps HashOp.AsCallers [.update 1 [2] [1] true] ∧
      ((ofBytes true none).run [.update 1 [2] [1] true]).isNone) := by
  decide

end LibSources
