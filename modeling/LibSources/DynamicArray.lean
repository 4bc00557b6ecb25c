import LibSources.ByteMemory

/-!
# The dynamic array of `mysys/array.c`

Elements of one size in a buffer of bytes. The buffer is behind the structure at first, or there
is none, and it moves to the heap when the array grows.

* An allocation gives `none`, or the bytes that a new block happens to have.
* An access outside the buffer has no result.
* All counters and sizes are of type `uint` and wrap.

## Main results

* `DynamicArray.run_spec`: the calls act on a list, or report a failure.
-/

namespace LibSources

open Nat List Option

variable {e : List UInt8} {α : Type*} {l' : List (List UInt8)} {idx : ℕ}

variable (mem : ℕ → α) (p : ℕ)

theorem take_drop_window {m o n : ℕ} (h : o + n ≤ m) :
    ((window mem p m).drop o).take n = window mem (p + o) n := by
  obtain ⟨r, rfl⟩ := Nat.exists_eq_add_of_le h
  rw [add_assoc, window_add, drop_left' (length_window _ _ _), window_add,
    take_left' (length_window _ _ _)]

theorem window_store_inside {l : List α} {o n : ℕ} (h : o + n ≤ l.length) :
    window (store mem p l) (p + o) n = (l.drop o).take n := by
  rw [← take_drop_window (store mem p l) p h, window_store_self]

theorem take_drop_flatten {l : List (List α)} {size : ℕ} (hsize : ∀ e ∈ l, e.length = size) {k : ℕ}
    {e : List α} (h : l[k]? = some e) :
    (l.flatten.drop (k * size)).take size = e ∧ k * size + size ≤ l.flatten.length := by
  induction l generalizing k with
  | nil => exact absurd h (by simp)
  | cons x l ih =>
    have hx := hsize x (mem_cons_self ..)
    rw [flatten_cons, length_append]
    cases k with
    | zero =>
      rw [getElem?_cons_zero, some.injEq] at h
      subst h
      rw [zero_mul, drop_zero, take_left' hx]
      exact ⟨rfl, by omega⟩
    | succ k =>
      rw [getElem?_cons_succ] at h
      obtain ⟨hpart, hlength⟩ := ih (fun e he => hsize e (mem_cons_of_mem x he)) h
      rw [succ_mul, add_comm (k * size), ← drop_drop, drop_left' hx]
      exact ⟨hpart, by omega⟩

/-! ### The buffer -/

structure DynBuffer where
  isInline : Bool
  size : ℕ
  bytes : ℕ → UInt8

def DynBuffer.write (b : DynBuffer) (p : ℕ) (l : List UInt8) : Option DynBuffer :=
  if p + l.length ≤ b.size then some { b with bytes := store b.bytes p l } else none

def DynBuffer.read (b : DynBuffer) (p n : ℕ) : Option (List UInt8) :=
  if p + n ≤ b.size then some (window b.bytes p n) else none

/-- The product of two numbers of type `uint`. -/
def mul32 (x y : ℕ) : ℕ := x * y % 2 ^ 32

/-- The sum of two numbers of type `uint`. -/
def add32 (x y : ℕ) : ℕ := (x + y) % 2 ^ 32

structure DynamicArray where
  buffer : Option DynBuffer
  elements : ℕ
  maxElement : ℕ
  allocIncrement : ℕ
  sizeOfElement : ℕ

namespace DynamicArray

abbrev Alloc := Option (ℕ → UInt8)

def initIncrement (elementSize initAlloc allocIncrement : ℕ) : ℕ :=
  if allocIncrement = 0 then
    let allocIncrement := max ((8192 - 8) / elementSize) 16
    if 8 < initAlloc ∧ mul32 initAlloc 2 < allocIncrement then mul32 initAlloc 2
    else allocIncrement
  else allocIncrement

def initDynamicArray2 (elementSize : ℕ) (initBuffer : Option (ℕ × (ℕ → UInt8)))
    (initAlloc allocIncrement : ℕ) (alloc : Alloc) : DynamicArray × Bool :=
  let a : DynamicArray :=
    { buffer := none
      elements := 0
      maxElement := initAlloc
      allocIncrement := initIncrement elementSize initAlloc allocIncrement
      sizeOfElement := elementSize }
  match initBuffer with
  | some (size, bytes) => ({ a with buffer := some ⟨true, size, bytes⟩ }, false)
  | none =>
    if initAlloc = 0 then (a, false)
    else
      match alloc with
      | none => ({ a with maxElement := 0 }, true)
      | some bytes => ({ a with buffer := some ⟨false, mul32 elementSize initAlloc, bytes⟩ }, false)

def write (a : DynamicArray) (p : ℕ) (l : List UInt8) : Option DynamicArray := do
  let b ← a.buffer
  let b ← b.write p l
  return { a with buffer := some b }

def read (a : DynamicArray) (p n : ℕ) : Option (List UInt8) := do
  let b ← a.buffer
  b.read p n

/-- The block that `my_realloc` returns. -/
def reallocated (b : DynBuffer) (size : ℕ) (bytes : ℕ → UInt8) : DynBuffer :=
  ⟨false, size, fun i => if i < min b.size size then b.bytes i else bytes i⟩

section

variable (a : DynamicArray)

/-- A buffer for more elements: `my_malloc` and `memcpy` when the buffer is behind the structure,
`my_realloc` otherwise. The inner result is `none` when the allocation fails. -/
def newBuffer (size : ℕ) (alloc : Alloc) : Option (Option DynBuffer) :=
  match alloc with
  | none => some none
  | some bytes =>
    match a.buffer with
    | none => some (some ⟨false, size, bytes⟩)
    | some b =>
      if b.isInline then do
        let l ← b.read 0 (mul32 a.elements a.sizeOfElement)
        let b ← DynBuffer.write ⟨false, size, bytes⟩ 0 l
        return some b
      else some (some (reallocated b size bytes))

def isInline (a : DynamicArray) : Bool := a.buffer.any (·.isInline)

def allocDynamic (alloc : Alloc) : Option (DynamicArray × Option ℕ) :=
  if a.elements = a.maxElement then do
    match ← newBuffer a (mul32 (add32 a.maxElement a.allocIncrement) a.sizeOfElement) alloc with
    | none => return (a, none)
    | some b =>
      return ({ a with
        buffer := some b
        maxElement := add32 a.maxElement a.allocIncrement
        elements := add32 a.elements 1 }, some (mul32 a.elements a.sizeOfElement))
  else return ({ a with elements := add32 a.elements 1 }, some (mul32 a.elements a.sizeOfElement))

variable (element : List UInt8)

def insertDynamic (alloc : Alloc) : Option (DynamicArray × Bool) :=
  if a.elements = a.maxElement then do
    match ← allocDynamic a alloc with
    | (a, none) => return (a, true)
    | (a, some p) =>
      let a ← a.write p element
      return (a, false)
  else do
    let a ← { a with elements := add32 a.elements 1 : DynamicArray }.write
      (mul32 a.elements a.sizeOfElement) element
    return (a, false)

def popDynamic : Option (DynamicArray × Option (List UInt8)) :=
  if a.elements ≠ 0 then do
    let l ← a.read (mul32 (a.elements - 1) a.sizeOfElement) a.sizeOfElement
    return ({ a with elements := a.elements - 1 }, some l)
  else return (a, none)

/-- `allocate_dynamic`. A failed `my_malloc` is reported as `0`, which is no failure. -/
def allocateDynamic (maxElements : ℕ) (alloc : Alloc) : Option (DynamicArray × Bool) :=
  if a.maxElement ≤ maxElements then do
    let size := mul32 (add32 maxElements a.allocIncrement / a.allocIncrement) a.allocIncrement
    match ← newBuffer a (mul32 size a.sizeOfElement) alloc with
    | none => return (a, if a.isInline then false else true)
    | some b => return ({ a with buffer := some b, maxElement := size }, false)
  else return (a, false)

variable (idx : ℕ)

def setPlace : Option (DynamicArray × Bool) := do
  let a ← if a.elements ≤ idx then do
      let a ← a.write (mul32 a.elements a.sizeOfElement)
        (replicate (mul32 (idx - a.elements) a.sizeOfElement) 0)
      pure { a with elements := add32 idx 1 : DynamicArray }
    else pure a
  let a ← a.write (mul32 idx a.sizeOfElement) element
  return (a, false)

def setDynamic (alloc : Alloc) : Option (DynamicArray × Bool) :=
  if a.elements ≤ idx ∧ a.maxElement ≤ idx then do
    match ← allocateDynamic a idx alloc with
    | (a, true) => return (a, true)
    | (a, false) => setPlace a element idx
  else setPlace a element idx

def getDynamic : Option (List UInt8) :=
  if a.elements ≤ idx then some (replicate a.sizeOfElement 0)
  else a.read (mul32 idx a.sizeOfElement) a.sizeOfElement

def deleteDynamicElement : Option DynamicArray := do
  let p := mul32 a.sizeOfElement idx
  let elements := (a.elements + (2 ^ 32 - 1)) % 2 ^ 32
  let l ← a.read (p + a.sizeOfElement) (mul32 ((elements + 2 ^ 32 - idx) % 2 ^ 32) a.sizeOfElement)
  { a with elements := elements : DynamicArray }.write p l

def freezeSize (alloc : Alloc) : DynamicArray :=
  let elements := max a.elements 1
  match a.buffer with
  | none => a
  | some b =>
    if b.isInline then a
    else if a.maxElement ≠ elements then
      { a with
        buffer := alloc.map (reallocated b (mul32 elements a.sizeOfElement))
        maxElement := elements }
    else a

end

/-! ### The elements in the buffer -/

/-- The elements of `l` are in the bytes. -/
def Stores (bytes : ℕ → UInt8) (size : ℕ) (l : List (List UInt8)) : Prop :=
  ∀ (k : ℕ) (e : List UInt8), l[k]? = some e → window bytes (k * size) size = e

section

variable {bytes : ℕ → UInt8} {size : ℕ} {l : List (List UInt8)}

theorem Stores.append (h : Stores bytes size l) (hsize : ∀ e ∈ l', e.length = size) :
    Stores (store bytes (l.length * size) l'.flatten) size (l ++ l') := by
  intro k e hk
  rcases lt_or_ge k l.length with hlt | hge
  · rw [getElem?_append_left hlt] at hk
    have hle : k * size + size ≤ l.length * size := by
      rw [← succ_mul]
      exact mul_le_mul_right size hlt
    rw [window_store_of_le _ _ hle]
    exact h k e hk
  rw [getElem?_append_right hge] at hk
  obtain ⟨hpart, hlength⟩ := take_drop_flatten hsize hk
  have hplace : k * size = l.length * size + (k - l.length) * size := by
    rw [← add_mul, Nat.add_sub_cancel' hge]
  rw [hplace, window_store_inside _ _ hlength]
  exact hpart

theorem Stores.set (h : Stores bytes size l) (he : e.length = size) :
    Stores (store bytes (idx * size) e) size (l.set idx e) := by
  intro k x hk
  rcases lt_trichotomy k idx with hlt | rfl | hgt
  · rw [getElem?_set_ne (by omega)] at hk
    have hle : k * size + size ≤ idx * size := by
      rw [← succ_mul]
      exact mul_le_mul_right size hlt
    rw [window_store_of_le _ _ hle]
    exact h k x hk
  · have hself := window_store_self bytes (k * size) e
    rw [he] at hself
    rw [hself]
    rw [getElem?_set_self'] at hk
    obtain ⟨_, _, hx⟩ := Option.map_eq_some_iff.mp hk
    exact hx
  · rw [getElem?_set_ne (by omega)] at hk
    have hle : idx * size + e.length ≤ k * size := by
      rw [he, ← succ_mul]
      exact mul_le_mul_right size hgt
    rw [window_store_of_ge _ _ hle]
    exact h k x hk

theorem Stores.erase (h : Stores bytes size l) (hidx : idx < l.length) :
    Stores (store bytes (idx * size)
      (window bytes (idx * size + size) ((l.length - 1 - idx) * size))) size (l.eraseIdx idx) := by
  intro k e hk
  rw [getElem?_eraseIdx] at hk
  split_ifs at hk with hlt
  · have hle : k * size + size ≤ idx * size := by
      rw [← succ_mul]
      exact mul_le_mul_right size hlt
    rw [window_store_of_le _ _ hle]
    exact h k e hk
  have hbound : k + 1 < l.length := (List.getElem?_eq_some_iff.mp hk).1
  have hplace : k * size = idx * size + (k - idx) * size := by
    rw [← add_mul, Nat.add_sub_cancel' (not_lt.mp hlt)]
  have hroom : (k - idx) * size + size ≤ (l.length - 1 - idx) * size := by
    rw [← succ_mul]
    exact mul_le_mul_right size (by omega)
  have hnext : idx * size + size + (k - idx) * size = (k + 1) * size := by
    rw [succ_mul, hplace]
    omega
  rw [hplace, window_store_inside _ _ (by rw [length_window]; exact hroom),
    take_drop_window _ _ hroom, hnext]
  exact h (k + 1) e hk

theorem Stores.congr (h : Stores bytes size l) {bytes' : ℕ → UInt8}
    (hsame : ∀ i < l.length * size, bytes' i = bytes i) : Stores bytes' size l := by
  intro k e hk
  have hlt : k < l.length := (List.getElem?_eq_some_iff.mp hk).1
  have hle : k * size + size ≤ l.length * size := by
    rw [← succ_mul]
    exact mul_le_mul_right size hlt
  rw [← h k e hk]
  exact window_congr fun j _ hj => hsame j (by omega)

end

/-- The array stands for the list `l`. -/
structure Holds (a : DynamicArray) (l : List (List UInt8)) : Prop where
  size_pos : 1 ≤ a.sizeOfElement
  size_lt : a.sizeOfElement < 2 ^ 32
  increment_pos : 1 ≤ a.allocIncrement
  elements : a.elements = l.length
  elements_le : a.elements ≤ a.maxElement
  fits : a.maxElement * a.sizeOfElement < 2 ^ 32
  sizes : ∀ e ∈ l, e.length = a.sizeOfElement
  stores : ∀ b, a.buffer = some b → a.maxElement * a.sizeOfElement ≤ b.size ∧
    Stores b.bytes a.sizeOfElement l
  noBuffer : a.buffer = none → a.maxElement = 0

section

variable {a : DynamicArray} {l : List (List UInt8)}

theorem mul32_of_lt {x y : ℕ} (h : x * y < 2 ^ 32) : mul32 x y = x * y := mod_eq_of_lt h

theorem Holds.maxElement_lt (h : Holds a l) : a.maxElement < 2 ^ 32 :=
  (Nat.le_mul_of_pos_right _ h.size_pos).trans_lt h.fits

theorem Holds.mul_lt (h : Holds a l) {x : ℕ} (hx : x ≤ a.maxElement) :
    x * a.sizeOfElement ≤ a.maxElement * a.sizeOfElement ∧ x * a.sizeOfElement < 2 ^ 32 := by
  have hle := mul_le_mul_right a.sizeOfElement hx
  exact ⟨hle, hle.trans_lt h.fits⟩

theorem Holds.exists_buffer (h : Holds a l) (hpos : 0 < a.maxElement) : ∃ b, a.buffer = some b := by
  rcases hbuffer : a.buffer with - | b
  · have := h.noBuffer hbuffer
    omega
  · exact ⟨b, rfl⟩

theorem newBuffer_spec (h : Holds a l) {size : ℕ} (hsize : a.elements * a.sizeOfElement ≤ size)
    (bytes : ℕ → UInt8) :
    ∃ b, newBuffer a size (some bytes) = some (some b) ∧ b.size = size ∧
      Stores b.bytes a.sizeOfElement l := by
  obtain ⟨hle, hlt⟩ := h.mul_lt h.elements_le
  rw [newBuffer]
  rcases hbuffer : a.buffer with - | b
  · have hnone : l = [] := by
      have := h.noBuffer hbuffer
      have := h.elements
      have := h.elements_le
      exact eq_nil_of_length_eq_zero (by omega)
    refine ⟨_, rfl, rfl, fun k e hk => ?_⟩
    rw [hnone] at hk
    exact absurd hk (by simp)
  obtain ⟨hroom, hstores⟩ := h.stores b hbuffer
  dsimp only
  split_ifs with hinline
  · rw [mul32_of_lt hlt, DynBuffer.read, if_pos (by omega), bind_eq_bind, bind_some,
      DynBuffer.write, if_pos (by rw [length_window]; dsimp only; omega)]
    refine ⟨_, rfl, rfl, hstores.congr fun i hi => ?_⟩
    rw [← h.elements] at hi
    have hget := window_store_inside bytes 0
      (l := window b.bytes 0 (a.elements * a.sizeOfElement)) (o := i) (n := 1)
      (by rw [length_window]; omega)
    rw [take_drop_window _ _ (by omega), zero_add] at hget
    exact head_eq_of_cons_eq hget
  · refine ⟨_, rfl, rfl, hstores.congr fun i hi => ?_⟩
    rw [← h.elements] at hi
    exact if_pos (by omega)

theorem Holds.grow (h : Holds a l) {b : DynBuffer} {m : ℕ} (hm : a.elements ≤ m)
    (hfits : m * a.sizeOfElement < 2 ^ 32) (hsize : b.size = m * a.sizeOfElement)
    (hstores : Stores b.bytes a.sizeOfElement l) :
    Holds { a with buffer := some b, maxElement := m } l where
  size_pos := h.size_pos
  size_lt := h.size_lt
  increment_pos := h.increment_pos
  elements := h.elements
  elements_le := hm
  fits := hfits
  sizes := h.sizes
  stores := by
    rintro b' hb'
    obtain rfl := some.inj hb'
    exact ⟨hsize.ge, hstores⟩
  noBuffer := fun hnone => absurd hnone (some_ne_none b)

theorem write_eq_some {a : DynamicArray} {b : DynBuffer} (hbuffer : a.buffer = some b) {p : ℕ}
    {l : List UInt8} (hroom : p + l.length ≤ b.size) (n : ℕ) :
    { a with elements := n : DynamicArray }.write p l =
      some { a with buffer := some { b with bytes := store b.bytes p l }, elements := n } := by
  rw [write, hbuffer, bind_eq_bind, bind_some, DynBuffer.write, if_pos hroom]
  rfl

theorem Holds.write_append (h : Holds a l) (hsize : ∀ e ∈ l', e.length = a.sizeOfElement)
    (hpos : 0 < a.maxElement) (hroom : a.elements + l'.length ≤ a.maxElement) :
    ∃ b, (∀ n, { a with elements := n : DynamicArray }.write (mul32 a.elements a.sizeOfElement)
        l'.flatten = some { a with buffer := some b, elements := n }) ∧
      Holds { a with buffer := some b, elements := a.elements + l'.length } (l ++ l') := by
  obtain ⟨b, hbuffer⟩ := h.exists_buffer hpos
  obtain ⟨hplaces, hstores⟩ := h.stores b hbuffer
  have hlength : l'.flatten.length = l'.length * a.sizeOfElement := by
    rw [length_flatten, map_congr_left hsize, map_const', sum_replicate, smul_eq_mul]
  have hmul := (h.mul_lt h.elements_le).2
  have hall := (h.mul_lt hroom).1
  rw [add_mul] at hall
  rw [mul32_of_lt hmul]
  refine ⟨_, fun n => write_eq_some hbuffer (by omega) n, h.size_pos, h.size_lt,
    h.increment_pos, ?_, hroom, h.fits, fun e he => ?_, fun b' hb' => ?_,
    fun hnone => absurd hnone (some_ne_none _)⟩
  · rw [length_append, h.elements]
  · rcases mem_append.mp he with hold | hnew
    · exact h.sizes e hold
    · exact hsize e hnew
  obtain rfl := some.inj hb'
  refine ⟨hplaces, ?_⟩
  rw [h.elements]
  exact hstores.append hsize

theorem Holds.read_element (h : Holds a l) (he : l[idx]? = some e) :
    a.read (mul32 idx a.sizeOfElement) a.sizeOfElement = some e := by
  have hidx : idx < l.length := (List.getElem?_eq_some_iff.mp he).1
  rw [← h.elements] at hidx
  have hle := h.elements_le
  obtain ⟨b, hbuffer⟩ := h.exists_buffer (by omega)
  obtain ⟨hplaces, hstores⟩ := h.stores b hbuffer
  have hroom := (h.mul_lt (succ_le_of_lt (hidx.trans_le hle))).1
  rw [succ_mul] at hroom
  rw [mul32_of_lt (h.mul_lt (by omega)).2, read, hbuffer, bind_eq_bind, bind_some,
    DynBuffer.read, if_pos (by omega), hstores idx e he]

/-! ### The calls -/

/-- `insert_dynamic` appends the element, unless there is no memory for more elements. -/
theorem insertDynamic_spec (h : Holds a l) (he : e.length = a.sizeOfElement)
    (hfits : a.elements = a.maxElement →
      (a.maxElement + a.allocIncrement) * a.sizeOfElement < 2 ^ 32)
    (alloc : Alloc) :
    (a.elements = a.maxElement ∧ alloc = none → a.insertDynamic e alloc = some (a, true)) ∧
    (¬ (a.elements = a.maxElement ∧ alloc = none) →
      ∃ a', a.insertDynamic e alloc = some (a', false) ∧ Holds a' (l ++ [e])) := by
  have hflat : [e].flatten = e := by simp
  have hsize : ∀ x ∈ [e], x.length = a.sizeOfElement := by simpa using he
  have hmax := h.maxElement_lt
  rw [insertDynamic]
  refine ⟨?_, fun hnot => ?_⟩
  · rintro ⟨hfull, rfl⟩
    rw [if_pos hfull, allocDynamic, if_pos hfull, newBuffer]
    rfl
  split_ifs with hfull
  · rcases halloc : alloc with - | bytes
    · exact absurd ⟨hfull, halloc⟩ hnot
    have hbytes := hfits hfull
    have hinc := h.increment_pos
    have hsum : a.maxElement + a.allocIncrement < 2 ^ 32 :=
      (Nat.le_mul_of_pos_right _ h.size_pos).trans_lt hbytes
    have hadd : add32 a.maxElement a.allocIncrement = a.maxElement + a.allocIncrement :=
      mod_eq_of_lt hsum
    have hone : add32 a.elements 1 = a.elements + 1 := mod_eq_of_lt (by omega)
    obtain ⟨b, hnew, hbsize, hstores⟩ := newBuffer_spec h
      (mul_le_mul_right a.sizeOfElement (by omega :
        a.elements ≤ a.maxElement + a.allocIncrement)) bytes
    have hgrow := h.grow (by omega) hbytes hbsize hstores
    obtain ⟨b', hwrite, hholds⟩ := hgrow.write_append hsize (by dsimp only; omega)
      (by dsimp only; rw [length_singleton]; omega)
    rw [hflat] at hwrite
    rw [allocDynamic, if_pos hfull, hadd, mul32_of_lt hbytes, hnew, hone]
    simp only [bind_eq_bind, bind_some, Option.pure_def, hwrite]
    exact ⟨_, rfl, hholds⟩
  · have hle := h.elements_le
    have hone : add32 a.elements 1 = a.elements + 1 := mod_eq_of_lt (by omega)
    obtain ⟨b, hwrite, hholds⟩ := h.write_append hsize (by omega) (by rw [length_singleton]; omega)
    rw [hflat] at hwrite
    rw [hone, hwrite]
    exact ⟨_, rfl, hholds⟩

/-- The list after an element is set. The places between the last element and it are cleared. -/
def setList (size : ℕ) (l : List (List UInt8)) (e : List UInt8) (idx : ℕ) : List (List UInt8) :=
  if idx < l.length then l.set idx e
  else l ++ (replicate (idx - l.length) (replicate size 0) ++ [e])

section

variable (h : Holds a l)
include h

theorem setPlace_spec (he : e.length = a.sizeOfElement) (hidx : idx < a.maxElement) :
    ∃ a', a.setPlace e idx = some (a', false) ∧ Holds a' (setList a.sizeOfElement l e idx) := by
  have hmax := h.maxElement_lt
  have hlength := h.elements
  obtain ⟨hmul, hmul'⟩ := h.mul_lt hidx.le
  rw [setPlace, setList]
  by_cases hlt : idx < l.length
  · obtain ⟨b, hbuffer⟩ := h.exists_buffer (by omega)
    obtain ⟨hplaces, hstores⟩ := h.stores b hbuffer
    have hroom := (h.mul_lt (succ_le_of_lt hidx)).1
    rw [succ_mul] at hroom
    have hwrite : a.write (idx * a.sizeOfElement) e = some { a with
        buffer := some { b with bytes := store b.bytes (idx * a.sizeOfElement) e } } :=
      write_eq_some hbuffer (by omega) a.elements
    rw [if_neg (by omega), if_pos hlt]
    simp only [Option.pure_def, bind_eq_bind, bind_some, mul32_of_lt hmul', hwrite]
    refine ⟨_, rfl, h.size_pos, h.size_lt, h.increment_pos, ?_, h.elements_le, h.fits,
      fun x hx => ?_, fun b' hb' => ?_, fun hnone => absurd hnone (some_ne_none _)⟩
    · rw [length_set]
      exact h.elements
    · rcases mem_or_eq_of_mem_set hx with hold | rfl
      · exact h.sizes x hold
      · exact he
    · obtain rfl := some.inj hb'
      exact ⟨hplaces, hstores.set he⟩
  have hzeros : ∀ x ∈ replicate (idx - l.length)
      (replicate a.sizeOfElement (0 : UInt8)), x.length = a.sizeOfElement := fun x hx => by
    rw [eq_of_mem_replicate hx, length_replicate]
  obtain ⟨b, hclear, hholds⟩ := h.write_append hzeros (by omega) (by rw [length_replicate]; omega)
  have hflat : [e].flatten = e := by simp
  have hcount : a.elements + (idx - a.elements) = idx := by omega
  rw [length_replicate, ← hlength, hcount] at hholds
  have hsize : ∀ x ∈ [e], x.length = a.sizeOfElement := by simpa using he
  obtain ⟨b', hwrite, hholds'⟩ := hholds.write_append hsize
    (by dsimp only; omega) (by dsimp only; rw [length_singleton]; omega)
  have hclear' := hclear a.elements
  rw [flatten_replicate_replicate, ← hlength] at hclear'
  rw [hflat] at hwrite
  have hone : add32 idx 1 = idx + 1 := mod_eq_of_lt (by omega)
  have hgap : mul32 (idx - a.elements) a.sizeOfElement = (idx - a.elements) * a.sizeOfElement :=
    mul32_of_lt (h.mul_lt (by omega)).2
  rw [if_pos (by omega), if_neg hlt, ← append_assoc, ← hlength]
  simp only [hgap, hclear', hone, Option.pure_def, bind_eq_bind, bind_some, hwrite]
  exact ⟨_, rfl, hholds'⟩

/-- The places for an element at `idx`, in whole increments. -/
def roundedPlaces (idx increment : ℕ) : ℕ := (idx + increment) / increment * increment

theorem allocateDynamic_spec (hidx : a.maxElement ≤ idx)
    (hsum : idx + a.allocIncrement < 2 ^ 32)
    (hfits : roundedPlaces idx a.allocIncrement * a.sizeOfElement < 2 ^ 32) (bytes : ℕ → UInt8) :
    ∃ a', a.allocateDynamic idx (some bytes) = some (a', false) ∧ Holds a' l ∧
      idx < a'.maxElement ∧ a'.sizeOfElement = a.sizeOfElement := by
  have hinc := h.increment_pos
  have hle := h.elements_le
  have hadd : add32 idx a.allocIncrement = idx + a.allocIncrement := mod_eq_of_lt hsum
  have hdiv : (idx + a.allocIncrement) / a.allocIncrement * a.allocIncrement ≤
      idx + a.allocIncrement := div_mul_le_self _ _
  have hlt : idx < (idx + a.allocIncrement) / a.allocIncrement * a.allocIncrement := by
    have hmod := div_add_mod' (idx + a.allocIncrement) a.allocIncrement
    have hrest := mod_lt (idx + a.allocIncrement) (show a.allocIncrement > 0 by omega)
    omega
  rw [allocateDynamic, if_pos hidx, hadd, mul32_of_lt (hdiv.trans_lt hsum)]
  rw [roundedPlaces] at hfits
  generalize (idx + a.allocIncrement) / a.allocIncrement * a.allocIncrement = m at hfits hlt ⊢
  obtain ⟨b, hnew, hbsize, hstores⟩ := newBuffer_spec h
    (mul_le_mul_right a.sizeOfElement (by omega : a.elements ≤ m)) bytes
  dsimp only
  rw [mul32_of_lt hfits, hnew]
  exact ⟨_, rfl, h.grow (by omega) hfits hbsize hstores, hlt, rfl⟩

theorem setDynamic_spec (he : e.length = a.sizeOfElement) {alloc : Alloc}
    (hgrow : a.maxElement ≤ idx → idx + a.allocIncrement < 2 ^ 32 ∧
      roundedPlaces idx a.allocIncrement * a.sizeOfElement < 2 ^ 32 ∧
      (alloc = none → a.isInline = false)) :
    (a.maxElement ≤ idx ∧ alloc = none → a.setDynamic e idx alloc = some (a, true)) ∧
    (¬ (a.maxElement ≤ idx ∧ alloc = none) → ∃ a', a.setDynamic e idx alloc = some (a', false) ∧
        Holds a' (setList a.sizeOfElement l e idx)) := by
  have hle := h.elements_le
  rw [setDynamic]
  refine ⟨?_, fun hnot => ?_⟩
  · rintro ⟨hidx, rfl⟩
    have hfail : ∀ size, a.newBuffer size none = some none := fun _ => rfl
    rw [if_pos ⟨by omega, hidx⟩, allocateDynamic, if_pos hidx]
    dsimp only
    rw [hfail, (hgrow hidx).2.2 rfl]
    rfl
  split_ifs with hidx
  · rcases halloc : alloc with - | bytes
    · exact absurd ⟨hidx.2, halloc⟩ hnot
    obtain ⟨a', hallocate, hholds, hroom, hsize⟩ := allocateDynamic_spec h hidx.2
      (hgrow hidx.2).1 (hgrow hidx.2).2.1 bytes
    rw [hallocate, ← hsize]
    exact setPlace_spec hholds (he.trans hsize.symm) hroom
  · exact setPlace_spec h he (by omega)

theorem deleteDynamicElement_spec (hidx : idx < l.length) :
    ∃ a', a.deleteDynamicElement idx = some a' ∧ Holds a' (l.eraseIdx idx) := by
  have hlength := h.elements
  have hle := h.elements_le
  have hmax := h.maxElement_lt
  obtain ⟨b, hbuffer⟩ := h.exists_buffer (by omega)
  obtain ⟨hplaces, hstores⟩ := h.stores b hbuffer
  have helements : (a.elements + (2 ^ 32 - 1)) % 2 ^ 32 = a.elements - 1 := by omega
  have hrest : (a.elements - 1 + 2 ^ 32 - idx) % 2 ^ 32 = l.length - 1 - idx := by omega
  have hplace : mul32 a.sizeOfElement idx = idx * a.sizeOfElement := by
    rw [mul32, mul_comm]
    exact mod_eq_of_lt (h.mul_lt (by omega)).2
  have hbytes : mul32 (l.length - 1 - idx) a.sizeOfElement =
      (l.length - 1 - idx) * a.sizeOfElement := mul32_of_lt (h.mul_lt (by omega)).2
  have hroom : idx * a.sizeOfElement + a.sizeOfElement +
      (l.length - 1 - idx) * a.sizeOfElement ≤ a.maxElement * a.sizeOfElement := by
    rw [← succ_mul, ← add_mul]
    exact mul_le_mul_right a.sizeOfElement (by omega)
  have hread : a.read (idx * a.sizeOfElement + a.sizeOfElement)
      ((l.length - 1 - idx) * a.sizeOfElement) =
        some (window b.bytes (idx * a.sizeOfElement + a.sizeOfElement)
          ((l.length - 1 - idx) * a.sizeOfElement)) := by
    rw [read, hbuffer, bind_eq_bind, bind_some, DynBuffer.read, if_pos (by omega)]
  rw [deleteDynamicElement, helements, hrest, hplace, hbytes, hread, bind_eq_bind,
    bind_some, write_eq_some hbuffer (by rw [length_window]; omega)]
  refine ⟨_, rfl, h.size_pos, h.size_lt, h.increment_pos, ?_, (sub_le _ _).trans hle, h.fits,
    fun e he => h.sizes e (mem_of_mem_eraseIdx he), fun b' hb' => ?_,
    fun hnone => absurd hnone (some_ne_none _)⟩
  · rw [length_eraseIdx_of_lt hidx, ← hlength]
  · obtain rfl := some.inj hb'
    exact ⟨hplaces, hstores.erase hidx⟩

/-- `freeze_size` keeps the elements, when `my_realloc` does not fail. -/
theorem freezeSize_spec {alloc : Alloc} (halloc : alloc = none →
      a.isInline = true ∨ a.buffer = none ∨ a.maxElement = max a.elements 1) :
    Holds (a.freezeSize alloc) l := by
  rw [freezeSize]
  rcases hbuffer : a.buffer with - | b
  · exact h
  have hle := h.elements_le
  obtain ⟨hplaces, hstores⟩ := h.stores b hbuffer
  dsimp only
  split_ifs with hinline hsame
  · exact h
  · rcases alloc with - | bytes
    · rcases halloc rfl with hin | hnone | heq
      · rw [isInline, hbuffer] at hin
        exact absurd hin hinline
      · exact absurd (hbuffer.symm.trans hnone) (some_ne_none b)
      · exact absurd heq hsame
    have hbytes : max a.elements 1 * a.sizeOfElement < 2 ^ 32 := by
      rcases Nat.eq_zero_or_pos a.elements with hzero | hpos
      · rw [hzero, max_eq_right zero_le, one_mul]
        exact h.size_lt
      · rw [max_eq_left hpos]
        exact (h.mul_lt hle).2
    have hgrow := h.grow (b := reallocated b (mul32 (max a.elements 1) a.sizeOfElement) bytes)
      (m := max a.elements 1) (le_max_left _ _) hbytes (mul32_of_lt hbytes)
      (hstores.congr fun i hi => if_pos ?_)
    · exact hgrow
    rw [← h.elements] at hi
    have hmul := (h.mul_lt hle).1
    have hmax := mul_le_mul_right a.sizeOfElement (le_max_left a.elements 1)
    rw [mul32_of_lt hbytes]
    omega
  · exact h

theorem popDynamic_spec : ∃ a', a.popDynamic = some (a', l.getLast?) ∧ Holds a' l.dropLast := by
  have hlength := h.elements
  have hle := h.elements_le
  rw [popDynamic]
  split_ifs with hpos
  · have hlast : l[a.elements - 1]? = l.getLast? := by
      rw [getLast?_eq_getElem?, hlength]
    obtain ⟨e, he⟩ : ∃ e, l.getLast? = some e :=
      ⟨_, hlast.symm.trans (getElem?_eq_getElem (by omega))⟩
    rw [h.read_element (hlast.trans he), he]
    refine ⟨_, rfl, h.size_pos, h.size_lt, h.increment_pos, ?_, (sub_le _ _).trans hle, h.fits,
      fun e he => h.sizes e (mem_of_mem_dropLast he), fun b hb => ?_, h.noBuffer⟩
    · rw [length_dropLast, ← hlength]
    obtain ⟨hplaces, hstores⟩ := h.stores b hb
    refine ⟨hplaces, fun k e hk => hstores k e ?_⟩
    rw [getElem?_dropLast] at hk
    split_ifs at hk
    exact hk
  · have hnone : l = [] := eq_nil_of_length_eq_zero (by omega)
    subst hnone
    exact ⟨a, rfl, h⟩

theorem getDynamic_spec (idx : ℕ) :
    a.getDynamic idx = some (l.getD idx (replicate a.sizeOfElement 0)) := by
  rw [getDynamic, h.elements]
  split_ifs with hidx
  · rw [getD_eq_default _ _ hidx]
  have hlt := not_le.mp hidx
  rw [getD_eq_getElem _ _ hlt]
  exact h.read_element (getElem?_eq_getElem hlt)

end

end

/-! ### Runs -/

inductive DynCall
  | insert (element : List UInt8) (alloc : Alloc)
  | pop
  | set (element : List UInt8) (idx : ℕ) (alloc : Alloc)
  | get (idx : ℕ)
  | delete (idx : ℕ)
  | freeze (alloc : Alloc)

section

variable (a : DynamicArray)

/-- The array after a call, whether a failure is reported, and an element that is returned. -/
def exec : DynCall → Option (DynamicArray × Bool × Option (List UInt8))
  | .insert element alloc => (a.insertDynamic element alloc).map fun r => (r.1, r.2, none)
  | .pop => a.popDynamic.map fun r => (r.1, false, r.2)
  | .set element idx alloc => (a.setDynamic element idx alloc).map fun r => (r.1, r.2, none)
  | .get idx => (a.getDynamic idx).map fun e => (a, false, some e)
  | .delete idx => (a.deleteDynamicElement idx).map fun a' => (a', false, none)
  | .freeze alloc => some (a.freezeSize alloc, false, none)

/-- What a call is for. -/
def listEffect (size : ℕ) (l : List (List UInt8)) :
    DynCall → List (List UInt8) × Option (List UInt8)
  | .insert element _ => (l ++ [element], none)
  | .pop => (l.dropLast, l.getLast?)
  | .set element idx _ => (setList size l element idx, none)
  | .get idx => (l, some (l.getD idx (replicate size 0)))
  | .delete idx => (l.eraseIdx idx, none)
  | .freeze _ => (l, none)

/-- The call needs memory and does not get it. -/
def Fails : DynCall → Prop
  | .insert _ alloc => a.elements = a.maxElement ∧ alloc = none
  | .set _ idx alloc => a.maxElement ≤ idx ∧ alloc = none
  | _ => False

/-- The calls that are right: no size wraps, and no allocation fails in `freeze_size`, or in
`set_dynamic` for the buffer behind the structure. An element that is deleted is there. -/
def Sound : DynCall → Prop
  | .insert element _ => element.length = a.sizeOfElement ∧ (a.elements = a.maxElement →
      (a.maxElement + a.allocIncrement) * a.sizeOfElement < 2 ^ 32)
  | .set element idx alloc => element.length = a.sizeOfElement ∧ (a.maxElement ≤ idx →
      idx + a.allocIncrement < 2 ^ 32 ∧
      roundedPlaces idx a.allocIncrement * a.sizeOfElement < 2 ^ 32 ∧
      (alloc = none → a.isInline = false))
  | .delete idx => idx < a.elements
  | .freeze alloc => alloc = none →
      a.isInline = true ∨ a.buffer = none ∨ a.maxElement = max a.elements 1
  | _ => True

end

theorem exec_spec {a : DynamicArray} {l : List (List UInt8)} (h : Holds a l) (c : DynCall)
    (hsound : a.Sound c) :
    (a.Fails c → a.exec c = some (a, true, none)) ∧
    (¬ a.Fails c → ∃ a', a.exec c = some (a', false, (listEffect a.sizeOfElement l c).2) ∧
      Holds a' (listEffect a.sizeOfElement l c).1) := by
  cases c with
  | insert element alloc =>
    obtain ⟨hfail, hok⟩ := insertDynamic_spec h hsound.1 hsound.2 alloc
    refine ⟨fun hf => by rw [exec, hfail hf]; rfl, fun hf => ?_⟩
    obtain ⟨a', hrun, hholds⟩ := hok hf
    exact ⟨a', by rw [exec, hrun]; rfl, hholds⟩
  | pop =>
    obtain ⟨a', hrun, hholds⟩ := popDynamic_spec h
    exact ⟨fun hf => hf.elim, fun _ => ⟨a', by rw [exec, hrun]; rfl, hholds⟩⟩
  | set element idx alloc =>
    obtain ⟨hfail, hok⟩ := setDynamic_spec h hsound.1 hsound.2
    refine ⟨fun hf => by rw [exec, hfail hf]; rfl, fun hf => ?_⟩
    obtain ⟨a', hrun, hholds⟩ := hok hf
    exact ⟨a', by rw [exec, hrun]; rfl, hholds⟩
  | get idx => exact ⟨fun hf => hf.elim, fun _ => ⟨a, by rw [exec, getDynamic_spec h]; rfl, h⟩⟩
  | delete idx =>
    have hidx : idx < a.elements := hsound
    rw [h.elements] at hidx
    obtain ⟨a', hrun, hholds⟩ := deleteDynamicElement_spec h hidx
    exact ⟨fun hf => hf.elim, fun _ => ⟨a', by rw [exec, hrun]; rfl, hholds⟩⟩
  | freeze alloc => exact ⟨fun hf => hf.elim, fun _ => ⟨_, rfl, freezeSize_spec h hsound⟩⟩

/-- The arrays after any right calls, with the lists that they stand for. -/
inductive Reachable : DynamicArray → List (List UInt8) → Prop
  | init (elementSize : ℕ) (initBuffer : Option (ℕ × (ℕ → UInt8))) (initAlloc allocIncrement : ℕ)
      (alloc : Alloc) (hsize : 1 ≤ elementSize ∧ elementSize < 2 ^ 32)
      (hfits : initAlloc * elementSize < 2 ^ 32)
      (hincrement : allocIncrement = 0 → initAlloc < 2 ^ 31)
      (hbuffer : ∀ b, initBuffer = some b → initAlloc * elementSize ≤ b.1) :
      Reachable (initDynamicArray2 elementSize initBuffer initAlloc allocIncrement alloc).1 []
  | call {a a' : DynamicArray} {l : List (List UInt8)} (c : DynCall) (failed : Bool)
      (r : Option (List UInt8)) (h : Reachable a l) (hsound : a.Sound c)
      (hrun : a.exec c = some (a', failed, r)) :
      Reachable a' (if failed then l else (listEffect a.sizeOfElement l c).1)

theorem initIncrement_pos (elementSize initAlloc allocIncrement : ℕ)
    (h : allocIncrement = 0 → initAlloc < 2 ^ 31) :
    1 ≤ initIncrement elementSize initAlloc allocIncrement := by
  rw [initIncrement]
  split_ifs with hzero
  · dsimp only
    split_ifs with hsmall
    · have := h hzero
      rw [mul32]
      omega
    · omega
  · omega

theorem holds_of_reachable {a : DynamicArray} {l : List (List UInt8)} (h : Reachable a l) :
    Holds a l := by
  induction h with
  | init elementSize initBuffer initAlloc allocIncrement alloc hsize hfits hincrement hbuffer =>
    have hpos := initIncrement_pos elementSize initAlloc allocIncrement hincrement
    have hempty : ∀ bytes, Stores bytes elementSize [] := fun bytes k e hk =>
      absurd hk (by simp)
    rcases initBuffer with - | ⟨size, bytes⟩
    · simp only [initDynamicArray2]
      split_ifs with hzero
      · exact ⟨hsize.1, hsize.2, hpos, rfl, zero_le, hfits, by simp, by simp, fun _ => hzero⟩
      rcases alloc with - | bytes
      · exact ⟨hsize.1, hsize.2, hpos, rfl, zero_le, by simp, by simp, by simp, fun _ => rfl⟩
      refine ⟨hsize.1, hsize.2, hpos, rfl, zero_le, hfits, by simp, fun b hb => ?_,
        fun hnone => absurd hnone (some_ne_none _)⟩
      obtain rfl := some.inj hb
      refine ⟨?_, hempty _⟩
      rw [mul32, mul_comm elementSize, mod_eq_of_lt hfits]
    · refine ⟨hsize.1, hsize.2, hpos, rfl, zero_le, hfits, by simp, fun b hb => ?_,
        fun hnone => absurd hnone (some_ne_none _)⟩
      obtain rfl := some.inj hb
      exact ⟨hbuffer _ rfl, hempty _⟩
  | @call a a' l c failed r _ hsound hrun ih =>
    obtain ⟨hfail, hok⟩ := exec_spec ih c hsound
    by_cases hf : a.Fails c
    · obtain ⟨rfl, rfl, rfl⟩ : a' = a ∧ failed = true ∧ r = none := by
        simpa using hrun.symm.trans (hfail hf)
      exact ih
    obtain ⟨b, hexec, hholds⟩ := hok hf
    obtain ⟨rfl, rfl, rfl⟩ : a' = b ∧ failed = false ∧ r = _ := by
      simpa using hrun.symm.trans hexec
    exact hholds

/-- After any right calls, the next right call reports a failure and changes nothing, iff
it needs memory that it does not get. Otherwise it has its effect on the list. -/
theorem run_spec (a : DynamicArray) (l : List (List UInt8)) (h : Reachable a l) (c : DynCall)
    (hsound : a.Sound c) :
    (a.Fails c → a.exec c = some (a, true, none)) ∧
    (¬ a.Fails c → ∃ a', a.exec c = some (a', false, (listEffect a.sizeOfElement l c).2) ∧
      Reachable a' (listEffect a.sizeOfElement l c).1) ∧
    Holds a l := by
  have hholds := holds_of_reachable h
  obtain ⟨hfail, hok⟩ := exec_spec hholds c hsound
  refine ⟨hfail, fun hf => ?_, hholds⟩
  obtain ⟨a', hrun, -⟩ := hok hf
  exact ⟨a', hrun, Reachable.call c false _ h hsound hrun⟩

/-- An empty array with a place for one element behind the structure. -/
def inlineArray : DynamicArray := (initDynamicArray2 4 (some (4, fun _ => 0)) 1 16 none).1

theorem reachable_inlineArray : Reachable inlineArray [] :=
  Reachable.init 4 (some (4, fun _ => 0)) 1 16 none (by decide) (by decide) (by decide)
    fun b hb => by rw [← some.inj hb]

/-- The array with one element, and no place for another one. -/
def fullArray : DynamicArray :=
  { inlineArray with
    buffer := some ⟨true, 4, store (fun _ => 0) 0 [1, 2, 3, 4]⟩
    elements := 1 }

theorem reachable_fullArray : Reachable fullArray [[1, 2, 3, 4]] :=
  reachable_inlineArray.call (.insert [1, 2, 3, 4] none) false none
    ⟨rfl, fun h => absurd h (by decide)⟩ rfl

theorem run_spec_fullArray :
    fullArray.exec (.insert [5, 6, 7, 8] none) = some (fullArray, true, none) ∧
      ∃ a, fullArray.exec (.set [5, 6, 7, 8] 2 (some fun _ => 9)) = some (a, false, none) ∧
        Reachable a [[1, 2, 3, 4], [0, 0, 0, 0], [5, 6, 7, 8]] := by
  refine ⟨(run_spec fullArray _ reachable_fullArray (.insert [5, 6, 7, 8] none)
    ⟨rfl, fun _ => by decide⟩).1 ⟨rfl, rfl⟩, ?_⟩
  exact (run_spec fullArray _ reachable_fullArray (.set [5, 6, 7, 8] 2 (some fun _ => 9))
    ⟨rfl, fun _ => ⟨by decide, by decide, fun h => absurd h (some_ne_none _)⟩⟩).2.1
      fun hfails => absurd hfails.2 (some_ne_none _)

/-- `set_dynamic` at index `1` without memory: `allocate_dynamic` reports success, and the element
is written behind the buffer. And `freeze_size` without memory loses the buffer with its element. -/
theorem setDynamic_fails_silently :
    inlineArray.allocateDynamic 1 none = some (inlineArray, false) ∧
    inlineArray.exec (.set [1, 2, 3, 4] 1 none) = none ∧
    ((initDynamicArray2 4 none 16 16 (some fun _ => 0)).1.insertDynamic [1, 2, 3, 4] none).map
      (fun r => (r.1.freezeSize none).getDynamic 0) = some none :=
  ⟨rfl, rfl, rfl⟩

end DynamicArray

end LibSources
