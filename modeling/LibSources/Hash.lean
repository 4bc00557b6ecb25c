import Mathlib.Data.Nat.Bitwise
import Mathlib.Tactic

/-!
# The Linear Hash Table of `mysys/hash.c`

A model of `myHashInit`, the searches `myHashFirst` and `myHashNext`, `myHashInsert`,
`myHashDelete`, `myHashUpdate` and the self-test `myHashCheck`.

* A record is a pointer of an arbitrary type `R`; `mem : R → List UInt8` is the memory that the
  key functions read there. A pointer to a key is the memory from there on, and its length is
  passed along as in the source.
* A pointer into the slot array is its index. `NO_RECORD` is `none`.
* The slot array is a total function; only the slots below `elements` are allocated.
  Allocation never fails.
* A loop that follows links has a budget of `records + 1` steps and returns `none` when it runs
  out: such a walk has met a slot twice and would not end. Following `NO_RECORD` as if it were a
  slot also gives `none`.
* Numbers of records do not wrap around at `2 ^ 32`.
* `hash->free` only disposes of the deleted record, so it is left out.
-/

namespace LibSources

open Function

variable {R : Type}

structure HashLink (R : Type) where
  next : Option ℕ
  data : R

/-- The two collation functions the table calls. `hashSort` is the value left in `nr1`
when `hash_sort` is started with `nr1 = 1`, `nr2 = 4`. -/
structure Collation where
  hashSort : List UInt8 → ℕ
  strnncoll : List UInt8 → List UInt8 → ℤ

/-- The table, `HASH`, with the used part of its `DYNAMIC_ARRAY`. -/
structure Hash (R : Type) where
  keyOffset : ℕ
  keyLength : ℕ
  blength : ℕ
  records : ℕ
  unique : Bool
  array : ℕ → HashLink R
  elements : ℕ
  getKey : Option (List UInt8 → Bool → List UInt8 × ℕ)
  charset : Collation

/-- `_my_hash_init`: an empty table over unspecified array memory. -/
def myHashInit (keyOffset keyLength : ℕ) (unique : Bool)
    (getKey : Option (List UInt8 → Bool → List UInt8 × ℕ)) (charset : Collation)
    (array : ℕ → HashLink R) : Hash R where
  keyOffset := keyOffset
  keyLength := keyLength
  blength := 1
  records := 0
  unique := unique
  array := array
  elements := 0
  getKey := getKey
  charset := charset

/-! ### Keys and positions -/

def calcHash (hash : Hash R) (key : List UInt8) (length : ℕ) : ℕ :=
  hash.charset.hashSort (key.take length) % 2 ^ 32

section

variable (hash : Hash R) (mem : R → List UInt8)

def myHashKey (record : R) (first : Bool) : List UInt8 × ℕ :=
  match hash.getKey with
  | some getKey => getKey (mem record) first
  | none => ((mem record).drop hash.keyOffset, hash.keyLength)

def myHashMask (hashnr buffmax maxlength : ℕ) : ℕ :=
  if hashnr &&& (buffmax - 1) < maxlength then hashnr &&& (buffmax - 1)
  else if buffmax >>> 1 = 0 then hashnr
  else hashnr &&& ((buffmax >>> 1) - 1)

def recHashnr (record : R) : ℕ :=
  let (key, length) := myHashKey hash mem record false
  calcHash hash key length

def myHashRecMask (pos : HashLink R) (buffmax maxlength : ℕ) : ℕ :=
  myHashMask (recHashnr hash mem pos.data) buffmax maxlength

/-- `hashcmp`: `true` when the key of the record differs from `key`. A `length` of `0`
compares with the length of the record's own key. -/
def hashcmp (pos : HashLink R) (key : List UInt8) (length : ℕ) : Bool :=
  let (recKey, recKeyLength) := myHashKey hash mem pos.data true
  (length != 0 && length != recKeyLength) ||
    hash.charset.strnncoll (recKey.take recKeyLength) (key.take recKeyLength) != 0

/-! ### Searching -/

/-- The loop of `my_hash_first`; `flag` is set on its first round only. The result is
the slot of the record found, if any. -/
def myHashFirstLoop (hash : Hash R) (mem : R → List UInt8) (key : List UInt8) (length : ℕ) :
    ℕ → Bool → ℕ → Option (Option ℕ)
  | 0, _, _ => none
  | fuel + 1, flag, idx =>
    if hashcmp hash mem (hash.array idx) key length = false then some (some idx)
    else if flag && myHashRecMask hash mem (hash.array idx) hash.blength hash.records != idx then
      some none
    else
      match (hash.array idx).next with
      | none => some none
      | some idx' => myHashFirstLoop hash mem key length fuel false idx'

variable (key : List UInt8) (length : ℕ)

def myHashFirst : Option (Option ℕ) :=
  if hash.records = 0 then some none
  else
    myHashFirstLoop hash mem key length (hash.records + 1) true
      (myHashMask (calcHash hash key (if length ≠ 0 then length else hash.keyLength))
        hash.blength hash.records)

def myHashNextLoop (hash : Hash R) (mem : R → List UInt8) (key : List UInt8) (length : ℕ) :
    ℕ → Option ℕ → Option (Option ℕ)
  | _, none => some none
  | 0, some _ => none
  | fuel + 1, some idx =>
    if hashcmp hash mem (hash.array idx) key length = false then some (some idx)
    else myHashNextLoop hash mem key length fuel (hash.array idx).next

/-- `my_hash_next`, called with the slot of the record found last. -/
def myHashNext (currentRecord : Option ℕ) : Option (Option ℕ) :=
  match currentRecord with
  | none => some none
  | some idx => myHashNextLoop hash mem key length (hash.records + 1) (hash.array idx).next

end

/-- `movelink`: walk from `nextLink` to the slot whose link is `find` and make it point
to `newlink`. -/
def movelink (find newlink : Option ℕ) :
    ℕ → (ℕ → HashLink R) → ℕ → Option (ℕ → HashLink R)
  | 0, _, _ => none
  | fuel + 1, array, nextLink =>
    if (array nextLink).next = find then
      some (update array nextLink { array nextLink with next := newlink })
    else
      match (array nextLink).next with
      | none => none
      | some next => movelink find newlink fuel array next

/-! ### Insertion -/

/-- The bits `LOWFIND`, `LOWUSED`, `HIGHFIND` and `HIGHUSED` of `flag`. -/
structure SplitFlag where
  lowFind : Bool
  lowUsed : Bool
  highFind : Bool
  highUsed : Bool
  deriving DecidableEq

/-- The local variables of the loop of `my_hash_insert` that splits a chain. -/
structure Split (R : Type) where
  data : ℕ → HashLink R
  flag : SplitFlag
  empty : ℕ
  gpos : ℕ
  ptrToRec : R
  gpos2 : ℕ
  ptrToRec2 : R

/-- The part of the loop body for a key that stays in the lower chain. -/
def splitLow (st : Split R) (pos : ℕ) : Split R :=
  let rec_ := (st.data pos).data
  if !st.flag.lowFind then
    if st.flag.highFind then
      -- the key is moved to the current empty position, and its own place becomes free
      { st with flag := ⟨true, false, true, false⟩, gpos := st.empty, ptrToRec := rec_,
                empty := pos }
    else
      { st with flag := ⟨true, true, false, false⟩, gpos := pos, ptrToRec := rec_ }
  else if !st.flag.lowUsed then
    -- change the link of the previous low key
    { st with data := update st.data st.gpos ⟨some pos, st.ptrToRec⟩,
              flag := ⟨true, true, st.flag.highFind, false⟩, gpos := pos, ptrToRec := rec_ }
  else
    { st with gpos := pos, ptrToRec := rec_ }

/-- The part of the loop body for a key that moves to the upper chain. -/
def splitHigh (st : Split R) (pos : ℕ) : Split R :=
  let rec_ := (st.data pos).data
  if !st.flag.highFind then
    -- the key is moved to the last (empty) position
    { st with flag := ⟨st.flag.lowFind, false, true, false⟩, gpos2 := st.empty, empty := pos,
              ptrToRec2 := rec_ }
  else if !st.flag.highUsed then
    -- change the link of the previous high key and save
    { st with data := update st.data st.gpos2 ⟨some pos, st.ptrToRec2⟩,
              flag := ⟨st.flag.lowFind, false, true, true⟩, gpos2 := pos, ptrToRec2 := rec_ }
  else
    { st with gpos2 := pos, ptrToRec2 := rec_ }

/-- The loop over the chain that has to be split. It ends at once when its first slot
belongs to another chain. -/
def splitLoop (info : Hash R) (mem : R → List UInt8) (halfbuff firstIndex : ℕ) :
    ℕ → Split R → ℕ → Option (Split R)
  | 0, _, _ => none
  | fuel + 1, st, pos =>
    let hashNr := recHashnr info mem (st.data pos).data
    if st.flag = ⟨false, false, false, false⟩ ∧
        myHashMask hashNr info.blength info.records ≠ firstIndex then
      some st
    else
      let st' := if hashNr &&& halfbuff = 0 then splitLow st pos else splitHigh st pos
      match (st'.data pos).next with
      | none => some st'
      | some idx => splitLoop info mem halfbuff firstIndex fuel st' idx

/-- The writes after the loop that end the two chains. -/
def splitFinish (st : Split R) : Split R :=
  let st₁ :=
    if st.flag.lowFind && !st.flag.lowUsed then
      { st with data := update st.data st.gpos ⟨none, st.ptrToRec⟩ }
    else st
  if st₁.flag.highFind && !st₁.flag.highUsed then
    { st₁ with data := update st₁.data st₁.gpos2 ⟨none, st₁.ptrToRec2⟩ }
  else st₁

section

variable (info : Hash R) (mem : R → List UInt8) (record : R)

/-- The split of `my_hash_insert`: the slot array after it, and the slot left free. -/
def splitChain : Option ((ℕ → HashLink R) × ℕ) :=
  let empty := info.elements
  let halfbuff := info.blength >>> 1
  let firstIndex := info.records - halfbuff
  if firstIndex ≠ info.records then do
    let st ← splitLoop info mem halfbuff firstIndex (info.records + 1)
      ⟨info.array, ⟨false, false, false, false⟩, empty, 0, record, 0, record⟩ firstIndex
    let st := splitFinish st
    pure (st.data, st.empty)
  else pure (info.array, empty)

/-- The end of `my_hash_insert`: put the record in its place, with `empty` free. -/
def insertAt (data : ℕ → HashLink R) (empty : ℕ) : Option (ℕ → HashLink R) :=
  let pos := myHashMask (recHashnr info mem record) info.blength (info.records + 1)
  if pos = empty then some (update data pos ⟨none, record⟩)
  else
    -- check if more records in same hash-nr family
    let data₁ := update data empty (data pos)
    let gpos := myHashRecMask info mem (data₁ pos) info.blength (info.records + 1)
    if pos = gpos then some (update data₁ pos ⟨some empty, record⟩)
    else
      movelink (some pos) (some empty) (info.records + 1) (update data₁ pos ⟨none, record⟩) gpos

def insertDuplicate : Option Bool :=
  let (key, length) := myHashKey info mem record true
  if info.unique then (myHashFirst info mem key length).map Option.isSome
  else some false

def myHashInsert : Option (Hash R × Bool) := do
  let duplicate ← insertDuplicate info mem record
  if duplicate then pure (info, true)
  else
    let (data, empty) ← splitChain info mem record
    let array ← insertAt info mem record data empty
    let records := info.records + 1
    pure ({ info with
      array := array
      elements := info.elements + 1
      records := records
      blength := if records = info.blength then info.blength + info.blength
                 else info.blength }, false)

end

/-! ### Deletion -/

/-- The search loop of `my_hash_delete` and `my_hash_update`: the slot of the record and
the slot before it on the walk, or `none` when the walk ends first. -/
def findRecord [DecidableEq R] (array : ℕ → HashLink R) (record : R) :
    ℕ → ℕ → Option ℕ → Option (Option (ℕ × Option ℕ))
  | 0, _, _ => none
  | fuel + 1, pos, gpos =>
    if (array pos).data = record then some (some (pos, gpos))
    else
      match (array pos).next with
      | none => some none
      | some next => findRecord array record fuel next (some pos)

/-- Removing the link to the record at `pos`: the array after it and the slot that
became free. A head with a successor takes over the successor's contents. -/
def unlink (array : ℕ → HashLink R) (pos : ℕ) (gpos : Option ℕ) : (ℕ → HashLink R) × ℕ :=
  match gpos, (array pos).next with
  | some g, next => (update array g { array g with next := next }, pos)
  | none, some empty => (update array pos (array empty), empty)
  | none, none => (array, pos)

variable (hash : Hash R) (mem : R → List UInt8)

/-- The second half of `my_hash_delete`: move the contents of the last slot `lastpos`,
which is cut off, so that the slot `empty` is filled. `blength` is the old length;
`hash` has the new length and number of records. -/
def moveLast (blength : ℕ) (data : ℕ → HashLink R) (empty : ℕ) : Option (ℕ → HashLink R) :=
  let lastpos := hash.records
  if empty = lastpos then some data
  else
    let lastposHashnr := recHashnr hash mem (data lastpos).data
    -- pos is where lastpos should be
    let pos := myHashMask lastposHashnr hash.blength hash.records
    if pos = empty then some (update data empty (data lastpos))
    else
      let posHashnr := recHashnr hash mem (data pos).data
      -- pos3 is where the pos should be
      let pos3 := myHashMask posHashnr hash.blength hash.records
      if pos ≠ pos3 then
        let data₁ := update data empty (data pos)
        let data₂ := update data₁ pos (data₁ lastpos)
        movelink (some pos) (some empty) (hash.records + 2) data₂ pos3
      else
        let pos2 := myHashMask lastposHashnr blength (hash.records + 1)
        let same := pos2 = myHashMask posHashnr blength (hash.records + 1)
        let data₁ := update data empty (data lastpos)
        if same ∧ pos2 ≠ hash.records then
          movelink (some lastpos) (some empty) (hash.records + 2) data₁ pos
        else do
          -- link pos->next after lastpos, or merge two different positions
          let idx := if same then some pos else none
          let data₂ ← movelink idx (data₁ pos).next (hash.records + 2) data₁ empty
          pure (update data₂ pos { data₂ pos with next := some empty })

def myHashDelete [DecidableEq R] (hash : Hash R) (mem : R → List UInt8) (record : R) :
    Option (Hash R × Bool) :=
  if hash.records = 0 then some (hash, true)
  else do
    let pos := myHashMask (recHashnr hash mem record) hash.blength hash.records
    let found ← findRecord hash.array record (hash.records + 1) pos none
    match found with
    | none => pure (hash, true)
    | some (pos, gpos) =>
      let records := hash.records - 1
      let hash' := { hash with
        records := records
        blength := if records < hash.blength >>> 1 then hash.blength >>> 1
                   else hash.blength }
      let (data, empty) := unlink hash.array pos gpos
      let array ← moveLast hash' mem hash.blength data empty
      pure ({ hash' with array := array, elements := hash.elements - 1 }, false)

/-! ### Update -/

/-- The duplicate check of `my_hash_update`: is a record other than `record` found under
the new key? -/
def duplicateLoop [DecidableEq R] (hash : Hash R) (mem : R → List UInt8) (record : R)
    (key : List UInt8) (length : ℕ) : ℕ → Option ℕ → Option Bool
  | _, none => some false
  | 0, some _ => none
  | fuel + 1, some idx =>
    if (hash.array idx).data ≠ record then some true
    else do
      let next ← myHashNext hash mem key length (some idx)
      duplicateLoop hash mem record key length fuel next

def updateDuplicate [DecidableEq R] (hash : Hash R) (mem : R → List UInt8) (record : R) :
    Option Bool :=
  let (newKey, length) := myHashKey hash mem record true
  if hash.unique then do
    let found ← myHashFirst hash mem newKey length
    duplicateLoop hash mem record newKey length (hash.records + 1) found
  else some false

/-- The end of `my_hash_update`: the record, unlinked from its chain with the link
`orgLink`, is linked at `newIndex`; `idx` was its slot and `empty` is free. -/
def relinkAt (data : ℕ → HashLink R)
    (orgLink : HashLink R) (idx empty newIndex : ℕ) : Option (ℕ → HashLink R) :=
  if newIndex = empty then
    let data₁ := if empty ≠ idx then update data empty orgLink else data
    some (update data₁ empty { data₁ empty with next := none })
  else
    let newPosIndex := myHashRecMask hash mem (data newIndex) hash.blength hash.records
    if newIndex ≠ newPosIndex then do
      -- other record in wrong position
      let data₁ := update data empty (data newIndex)
      let data₂ ← movelink (some newIndex) (some empty) (hash.records + 1) data₁ newPosIndex
      pure (update data₂ newIndex { orgLink with next := none })
    else
      -- link in chain at right position
      let data₁ := update data empty { orgLink with next := (data newIndex).next }
      some (update data₁ newIndex { data₁ newIndex with next := some empty })

def myHashUpdate [DecidableEq R] (hash : Hash R) (mem : R → List UInt8) (record : R)
    (oldKey : List UInt8) (oldKeyLength : ℕ) : Option (Hash R × Bool) := do
  let duplicate ← updateDuplicate hash mem record
  if duplicate then pure (hash, true)
  else
    let length := if oldKeyLength ≠ 0 then oldKeyLength else hash.keyLength
    let idx := myHashMask (calcHash hash oldKey length) hash.blength hash.records
    let newIndex := myHashMask (recHashnr hash mem record) hash.blength hash.records
    if idx = newIndex then pure (hash, false)
    else
      let found ← findRecord hash.array record (hash.records + 1) idx none
      match found with
      | none => pure (hash, true)
      | some (pos, previous) =>
        let (data, empty) := unlink hash.array pos previous
        let array ← relinkAt hash mem data (hash.array pos) pos empty newIndex
        pure ({ hash with array := array }, false)

/-- The inner loop of `my_hash_check` over the chain that starts at slot `i`: the
counter `found` and the error flag after it. -/
def checkChain (hash : Hash R) (mem : R → List UInt8) (i : ℕ) :
    ℕ → Option ℕ → ℕ → Bool → Option (ℕ × Bool)
  | _, none, found, error => some (found, error)
  | 0, some _, _, _ => none
  | fuel + 1, some idx, found, error =>
    if hash.records + 1 ≤ found then some (found, error)
    else
      let outside := decide (hash.records ≤ idx)
      if myHashRecMask hash mem (hash.array idx) hash.blength hash.records ≠ i then
        checkChain hash mem i fuel (hash.array idx).next found true
      else
        checkChain hash mem i fuel (hash.array idx).next (found + 1) (error || outside)

def checkSlots (hash : Hash R) (mem : R → List UInt8) :
    ℕ → ℕ → ℕ → Bool → Option (ℕ × Bool)
  | 0, _, found, error => some (found, error)
  | n + 1, i, found, error =>
    if myHashRecMask hash mem (hash.array i) hash.blength hash.records = i then do
      let (found, error) ←
        checkChain hash mem i (hash.records + 1) (hash.array i).next (found + 1) error
      checkSlots hash mem n (i + 1) found error
    else checkSlots hash mem n (i + 1) found error

/-- `my_hash_check`; `true` reports a broken table. -/
def myHashCheck : Option Bool := do
  let (found, error) ← checkSlots hash mem hash.records 0 0 false
  pure (error || found != hash.records)

end LibSources
