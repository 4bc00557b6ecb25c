import LibSources.Rearrange
import LibSources.MachineInt

/-!
# `my_qsort` of `mysys/mf_qsort.c`

A quicksort with an explicit stack of pending partitions, insertion sort for small partitions
and a pivot that is a median. Positions are counted in elements from `base_ptr`; they are
integers, since `high_ptr` may point before the array. Distances are in bytes.

An access outside the array, a push on a full stack, and a loop that runs longer than it can
have no result. `SWAP` exchanges two elements, as bytes or as one pointer.
-/

namespace LibSources

def stackSize (sizeofLong : ℕ) : ℕ := 8 * sizeofLong

def thresholdForInsertSort : ℤ := 10

section

variable {α : Type} (cmp : α → α → ℤ) (count : ℕ)

section

variable (arr : ℤ → α)

def elementAt (i : ℤ) : Option α := if 0 ≤ i ∧ i < count then some (arr i) else none

variable (i j : ℤ)

def swapElements : Option (ℤ → α) := do
  let a ← elementAt count arr i
  let b ← elementAt count arr j
  pure (Function.update (Function.update arr i b) j a)

def compareAt : Option ℤ := do
  let a ← elementAt count arr i
  let b ← elementAt count arr j
  pure (cmp a b)

def swapIfLess : Option (ℤ → α) := do
  let c ← compareAt cmp count arr i j
  if c < 0 then swapElements count arr i j else pure arr

def median (low mid high : ℤ) : Option (ℤ → α) := do
  let arr ← swapIfLess cmp count arr high low
  let c ← compareAt cmp count arr mid low
  if c < 0 then swapElements count arr mid low
  else
    let c ← compareAt cmp count arr high mid
    if c < 0 then swapElements count arr mid high else pure arr

end

def insertDown (low : ℤ) : ℕ → (ℤ → α) → Option (ℤ → α)
  | 0, arr => some arr
  | n + 1, arr => do
      let c ← compareAt cmp count arr (low + n) (low + (n + 1))
      if 0 < c then
        let arr ← swapElements count arr (low + (n + 1)) (low + n)
        insertDown low n arr
      else pure arr

def insertSort (low : ℤ) : ℕ → (ℤ → α) → Option (ℤ → α)
  | 0, arr => some arr
  | n + 1, arr => do
      let arr ← insertSort low n arr
      insertDown cmp count low (n + 1) arr

/-! ### Partition -/

def choosePivot (arr : ℤ → α) (low high n : ℤ) : Option ((ℤ → α) × ℤ × ℤ × ℤ) := do
  let mid := low + n / 2
  if 40 < n then
    let step := n / 8
    let arr ← median cmp count arr low (low + step) (low + step * 2)
    let arr ← median cmp count arr (mid - step) mid (mid + step)
    let arr ← median cmp count arr (high - 2 * step) (high - step) high
    let arr ← median cmp count arr (low + step) mid (high - step)
    pure (arr, mid, low, high)
  else
    let arr ← median cmp count arr low mid high
    pure (arr, mid, low + 1, high - 1)

/-- `while (CMP(low_ptr, pivot) < 0) low_ptr += size;` -/
def scanUp (pivot : α) (arr : ℤ → α) : ℕ → ℤ → Option ℤ
  | 0, _ => none
  | n + 1, i => do
      let a ← elementAt count arr i
      if cmp a pivot < 0 then scanUp pivot arr n (i + 1) else pure i

/-- `while (CMP(pivot, high_ptr) < 0) high_ptr -= size;` -/
def scanDown (pivot : α) (arr : ℤ → α) : ℕ → ℤ → Option ℤ
  | 0, _ => none
  | n + 1, i => do
      let a ← elementAt count arr i
      if cmp pivot a < 0 then scanDown pivot arr n (i - 1) else pure i

def partitionLoop (pivot : α) : ℕ → (ℤ → α) → ℤ → ℤ → Option ((ℤ → α) × ℤ × ℤ)
  | 0, _, _, _ => none
  | n + 1, arr, lowPtr, highPtr => do
      let lowPtr ← scanUp cmp count pivot arr (count + 1) lowPtr
      let highPtr ← scanDown cmp count pivot arr (count + 1) highPtr
      if lowPtr < highPtr then
        let arr ← swapElements count arr lowPtr highPtr
        if lowPtr + 1 ≤ highPtr - 1 then partitionLoop pivot n arr (lowPtr + 1) (highPtr - 1)
        else pure (arr, lowPtr + 1, highPtr - 1)
      else if lowPtr = highPtr then pure (arr, lowPtr + 1, highPtr - 1)
      else pure (arr, lowPtr, highPtr)

/-! ### The stack -/

variable (size sizeofLong : ℕ)

def push (stack : List (ℤ × ℤ)) (entry : ℤ × ℤ) : Option (List (ℤ × ℤ)) :=
  if stack.length + 1 < stackSize sizeofLong then some (entry :: stack) else none

/-- What is sorted next: nothing for parts of one element, and the smaller of two parts first. -/
def nextPartitions (low high lowPtr highPtr : ℤ) (stack : List (ℤ × ℤ)) : Option (List (ℤ × ℤ)) :=
  if toInt32 ((highPtr - low) * size) ≤ 0 then
    if toInt32 ((high - lowPtr) * size) ≤ 0 then some stack
    else some ((lowPtr, high) :: stack)
  else if toInt32 ((high - lowPtr) * size) ≤ 0 then some ((low, highPtr) :: stack)
  else if (high - lowPtr) * size < (highPtr - low) * size then do
    let stack ← push sizeofLong stack (low, highPtr)
    pure ((lowPtr, high) :: stack)
  else do
    let stack ← push sizeofLong stack (lowPtr, high)
    pure ((low, highPtr) :: stack)

def qsortRound (arr : ℤ → α) (low high : ℤ) (stack : List (ℤ × ℤ)) :
    Option ((ℤ → α) × List (ℤ × ℤ)) := do
  let n := (high - low) * size / size + 1
  if n < thresholdForInsertSort then
    let arr ← insertSort cmp count low (high - low).toNat arr
    pure (arr, stack)
  else
    let (arr, mid, lowPtr, highPtr) ← choosePivot cmp count arr low high n
    let pivot ← elementAt count arr mid
    let (arr, lowPtr, highPtr) ← partitionLoop cmp count pivot count arr lowPtr highPtr
    let pending ← nextPartitions size sizeofLong low high lowPtr highPtr stack
    pure (arr, pending)

/-- The loop over the pending partitions: the current one and those on the stack. -/
def qsortLoop : ℕ → (ℤ → α) → List (ℤ × ℤ) → Option (ℤ → α)
  | _, arr, [] => some arr
  | 0, _, _ :: _ => none
  | n + 1, arr, (low, high) :: stack => do
      let (arr, pending) ← qsortRound cmp count size sizeofLong arr low high stack
      qsortLoop n arr pending

def myQsort (arr : ℤ → α) : Option (ℤ → α) :=
  if count ≤ 1 then some arr
  else qsortLoop cmp count size sizeofLong (2 * count) arr [(0, count - 1)]

end

end LibSources
