import LibSources.LinkedQueues
import Mathlib.Data.UInt

/-!
# Table Locks of `mysys/thr_lock.c`

This module models `thr_lock`, `thr_unlock`, the end of `wait_for_lock` and
`thr_abort_locks_for_thread` with the functions they call, on the pointers of the four lists of a
`THR_LOCK`, and finds what holds after `wake_up_waiters`.

* A function runs under `lock->mutex`. `wait_for_lock` ends a step where it waits for the condition;
  what follows is a step of its own.
* `check_status` may return something else at each step: `status` says what it returns for the
  `status_param` of an element, which never changes.
* `get_status`, the statistics and the signals do not change the lock.
-/

namespace LibSources

open Function List

/-- `enum thr_lock_type`, without the values that only the parser uses. -/
inductive LockType where
  | unlock
  | read
  | readWithSharedLocks
  | readHighPriority
  | readNoInsert
  | writeAllowWrite
  | writeAllowRead
  | writeConcurrentInsert
  | writeDelayed
  | writeLowPriority
  | write
  | writeOnly
  deriving DecidableEq

namespace LockType

def code : LockType → ℕ
  | unlock => 0
  | read => 2
  | readWithSharedLocks => 3
  | readHighPriority => 4
  | readNoInsert => 5
  | writeAllowWrite => 6
  | writeAllowRead => 7
  | writeConcurrentInsert => 8
  | writeDelayed => 9
  | writeLowPriority => 11
  | write => 12
  | writeOnly => 13

instance : LE LockType := ⟨fun a b => a.code ≤ b.code⟩

instance : LT LockType := ⟨fun a b => a.code < b.code⟩

instance (a b : LockType) : Decidable (a ≤ b) := inferInstanceAs (Decidable (a.code ≤ b.code))

instance (a b : LockType) : Decidable (a < b) := inferInstanceAs (Decidable (a.code < b.code))

variable {a : LockType} {l : List D} {d : D} {n : ℕ} {upgrade : D → Bool}

theorem not_lowPriority_le (h : a ≤ .writeDelayed) : ¬ writeLowPriority ≤ a := by
  revert h
  cases a <;> decide

theorem allowWrite_le (h : ¬ a ≤ .readNoInsert) : writeAllowWrite ≤ a := by
  revert h
  cases a <;> decide

theorem not_le_readNoInsert (h : writeAllowWrite ≤ a) : ¬ a ≤ .readNoInsert := by
  revert h
  cases a <;> decide

end LockType

def thrUpgradedConcurrentInsertLock : LockType := .write

inductive LockList where
  | readWait
  | read
  | writeWait
  | write
  deriving DecidableEq

structure ThrLock (D O : Type) where
  links : Links LockList D
  type : D → LockType
  owner : D → O
  /-- `cond` is set. -/
  cond : D → Bool
  readNoWriteCount : UInt32
  writeLockCount : UInt64

/-- What does not change while a lock is used. -/
structure LockSettings (O : Type) where
  /-- The address of the `THR_LOCK_INFO` of an owner. -/
  info : O → ℕ
  /-- `thread_id` at that address. -/
  threadId : ℕ → ℕ
  /-- `check_status` is set. -/
  checkStatus : Bool
  allowMultipleConcurrentInsert : Bool
  maxWriteLockCount : UInt64

inductive LockResult where
  | success
  | aborted
  | deadlock
  | waits
  deriving DecidableEq

namespace ThrLock

variable {D O : Type} [DecidableEq D]

def first (s : ThrLock D O) (q : LockList) : Option D := s.links.link (.head q)

def setType (s : ThrLock D O) (d : D) (lockType : LockType) : ThrLock D O :=
  { s with type := update s.type d lockType }

def haveOldReadLock [Fintype D] [DecidableEq O] (s : ThrLock D O) (owner : O) : Bool :=
  (s.links.contents .read).any fun d => s.owner d = owner

def haveSpecificLock [Fintype D] (s : ThrLock D O) (lockType : LockType) : Bool :=
  (s.links.contents .writeWait).any fun d => s.type d = lockType

/-! ### `wake_up_waiters` -/

def freeReadLocks (usingConcurrentInsert : Bool) : ℕ → ThrLock D O → Option D → ThrLock D O
  | n + 1, s, some d =>
    if s.type d = .readNoInsert ∧ usingConcurrentInsert = true then
      let links := (s.links.unlink .read d).append .readWait d
      freeReadLocks usingConcurrentInsert n { s with links := links } (links.link (.next d))
    else
      freeReadLocks usingConcurrentInsert n
        { s with
          readNoWriteCount :=
            if s.type d = .readNoInsert then s.readNoWriteCount + 1 else s.readNoWriteCount
          cond := update s.cond d false }
        (s.links.link (.next d))
  | _, s, _ => s

def freeAllReadLocks [Fintype D] (s : ThrLock D O) (usingConcurrentInsert : Bool) : ThrLock D O :=
  match s.first .readWait with
  | none => s
  | some d =>
    let s := { s with links := s.links.splice .read .readWait d }
    let s := freeReadLocks usingConcurrentInsert (Fintype.card D) s (some d)
    let s := { s with links := s.links.clear (s.links.last .readWait) }
    if s.first .readWait = none then { s with writeLockCount := 0 } else s

def giveWriteLock (s : ThrLock D O) (upgrade : D → Bool) (d : D) : ThrLock D O :=
  { s with
    links := ((s.links.unlink .writeWait d).append .write d).clear (.next d)
    type := if s.type d = .writeConcurrentInsert ∧ upgrade d = true then
      update s.type d .write else s.type
    cond := update s.cond d false }

/-- The loops of `wake_up_waiters` that give write locks, and the last element that gets one. -/
def giveWriteLocks (upgrade : D → Bool) : ℕ → ThrLock D O → D → ThrLock D O × D
  | 0, s, d => (s, d)
  | n + 1, s, d =>
    let s := s.giveWriteLock upgrade d
    match s.first .writeWait with
    | none => (s, d)
    | some e =>
      if s.type d = .writeAllowWrite ∧ s.type e = .writeAllowWrite then
        giveWriteLocks upgrade n s e
      else (s, d)

/-- Readers are not to be mixed with these writers if they are `TL_READ_NO_INSERT`. -/
def isInsert (lockType : LockType) : Bool :=
  lockType = .writeConcurrentInsert ∨ lockType = .writeAllowWrite

def wakeUpWaiters [Fintype D] (settings : LockSettings O) (status : D → Bool) (s : ThrLock D O) :
    ThrLock D O :=
  match s.first .write, s.first .read, s.first .writeWait with
  | some _, _, _ => s
  | none, none, none => s.freeAllReadLocks false
  | none, none, some d =>
    if s.type d ≠ .writeLowPriority ∨
        ∀ r, s.first .readWait = some r → s.type r < .readHighPriority then
      let tooMany : Prop := settings.maxWriteLockCount < s.writeLockCount
      let s := { s with writeLockCount := if tooMany then 0 else s.writeLockCount + 1 }
      if tooMany ∧ s.first .readWait ≠ none then s.freeAllReadLocks false
      else
        let given := giveWriteLocks status (Fintype.card D) s d
        if LockType.writeLowPriority ≤ given.1.type given.2 then given.1
        else given.1.freeAllReadLocks (isInsert (given.1.type given.2))
    else s.freeAllReadLocks (isInsert (s.type d))
  | none, some _, none => s.freeAllReadLocks false
  | none, some _, some d =>
    if s.type d ≤ .writeDelayed ∧ (isInsert (s.type d) = false ∨ s.readNoWriteCount = 0) then
      if s.type d = .writeConcurrentInsert ∧ status d = true then
        (s.setType d .write).freeAllReadLocks false
      else
        -- `check_status` has been called.
        let given := giveWriteLocks (fun _ => false) (Fintype.card D) s d
        given.1.freeAllReadLocks (isInsert (s.type d))
    else s

/-! ### The functions of a step -/

section

variable (s : ThrLock D O) (d : D)

def addRead (lockType : LockType) : ThrLock D O :=
  { s with
    links := s.links.append .read d
    readNoWriteCount :=
      if lockType = .readNoInsert then s.readNoWriteCount + 1 else s.readNoWriteCount }

def addWrite : ThrLock D O := { s with links := s.links.append .write d }

def addWait (s : ThrLock D O) (q : LockList) (d : D) : ThrLock D O :=
  { s with links := s.links.append q d, cond := update s.cond d true }

def waitForLock (settings : LockSettings O) (s : ThrLock D O) (q : LockList) (d : D) (owner : O) :
    ThrLock D O × LockResult :=
  match (s.first .read).or (s.first .write) with
  | none => (s.addWait q d, .waits)
  | some lockOwner =>
    if settings.info (s.owner lockOwner) = settings.info owner then (s, .deadlock)
    else (s.addWait q d, .waits)

def lockRead [Fintype D] [DecidableEq O] (settings : LockSettings O) (s : ThrLock D O) (d : D)
    (owner : O) (lockType : LockType) : ThrLock D O × LockResult :=
  match s.first .write with
  | some w =>
    if owner = s.owner w ∨ (s.type w ≤ .writeDelayed ∧ (lockType ≤ .readHighPriority ∨
        (s.type w ≠ .writeConcurrentInsert ∧ s.type w ≠ .writeAllowRead))) then
      (s.addRead d lockType, .success)
    else if s.type w = .writeOnly then (s.setType d .unlock, .aborted)
    else waitForLock settings s .readWait d owner
  | none =>
    if (∀ w, s.first .writeWait = some w → s.type w ≤ .writeLowPriority) ∨
        lockType = .readHighPriority ∨ s.haveOldReadLock owner = true then
      (s.addRead d lockType, .success)
    else waitForLock settings s .readWait d owner

def lockWrite [DecidableEq O] (settings : LockSettings O) (status : D → Bool) (s : ThrLock D O)
    (d : D) (owner : O) (lockType : LockType) : ThrLock D O × LockResult :=
  match s.first .write, s.first .writeWait with
  | some w, wait =>
    if s.type w = .writeOnly ∧ owner ≠ s.owner w then (s.setType d .unlock, .aborted)
    else if owner = s.owner w ∨ (wait = none ∧ lockType = s.type w ∧
        (lockType = .writeAllowWrite ∨ (lockType = .writeConcurrentInsert ∧
          settings.allowMultipleConcurrentInsert = true))) then
      (s.addWrite d, .success)
    else waitForLock settings s .writeWait d owner
  | none, none =>
    let lockType := if lockType = .writeConcurrentInsert ∧ status d = true then
      thrUpgradedConcurrentInsertLock else lockType
    let s := s.setType d lockType
    if s.first .read = none ∨
        (lockType ≤ .writeDelayed ∧ (isInsert lockType = false ∨ s.readNoWriteCount = 0)) then
      (s.addWrite d, .success)
    else waitForLock settings s .writeWait d owner
  | none, some _ => waitForLock settings s .writeWait d owner

def requestWrite [Fintype D] [DecidableEq O] (settings : LockSettings O) (status : D → Bool)
    (s : ThrLock D O) (d : D) (owner : O) (lockType : LockType) : ThrLock D O × LockResult :=
  if lockType = .writeDelayed then
    if ∃ w, s.first .write = some w ∧ s.type w = .writeOnly then (s.setType d .unlock, .aborted)
    else if (∀ w, s.first .write = some w → s.type w ≠ .writeAllowRead) ∧
        s.haveSpecificLock .writeAllowRead = false ∧
        (s.first .write ≠ none ∨ s.first .read ≠ none) then
      (s.addWait .writeWait d, .success)
    else lockWrite settings status s d owner lockType
  else if lockType = .writeConcurrentInsert ∧ settings.checkStatus = false then
    lockWrite settings status (s.setType d thrUpgradedConcurrentInsertLock) d owner
      thrUpgradedConcurrentInsertLock
  else lockWrite settings status s d owner lockType

def prepare (owner : O) (lockType : LockType) : ThrLock D O :=
  { s with
    links := s.links.clear (.next d)
    cond := update s.cond d false
    type := update s.type d lockType
    owner := update s.owner d owner }

def thrLock [Fintype D] [DecidableEq O] (settings : LockSettings O) (status : D → Bool)
    (s : ThrLock D O) (d : D) (owner : O) (lockType : LockType) : ThrLock D O × LockResult :=
  if lockType ≤ .readNoInsert then
    lockRead settings (s.prepare d owner lockType) d owner lockType
  else requestWrite settings status (s.prepare d owner lockType) d owner lockType

/-- The list whose end `thr_unlock` moves. -/
def unlockList : LockList :=
  if s.type d ≤ .readNoInsert then .read
  else if s.type d = .writeDelayed ∧ s.cond d = true then .writeWait
  else .write

end

def thrUnlock [Fintype D] (settings : LockSettings O) (status : D → Bool) (s : ThrLock D O)
    (d : D) : ThrLock D O :=
  wakeUpWaiters settings status
    { s with
      links := s.links.unlink (s.unlockList d) d
      readNoWriteCount :=
        if s.type d = .readNoInsert then s.readNoWriteCount - 1 else s.readNoWriteCount
      type := update s.type d .unlock }

def waitAborted [Fintype D] (settings : LockSettings O) (status : D → Bool) (s : ThrLock D O)
    (q : LockList) (d : D) : ThrLock D O :=
  wakeUpWaiters settings status
    { s with links := s.links.unlink q d, type := update s.type d .unlock }

def abortLocks (settings : LockSettings O) (threadId : ℕ) (q : LockList) :
    ℕ → ThrLock D O → Option D → ThrLock D O
  | n + 1, s, some d =>
    let s := if settings.threadId (settings.info (s.owner d)) = threadId then
        { s with
          type := update s.type d .unlock
          cond := update s.cond d false
          links := s.links.unlink q d }
      else s
    abortLocks settings threadId q n s (s.links.link (.next d))
  | _, s, _ => s

def thrAbortLocksForThread [Fintype D] (settings : LockSettings O) (status : D → Bool)
    (s : ThrLock D O) (threadId : ℕ) : ThrLock D O :=
  let s := abortLocks settings threadId .readWait (Fintype.card D) s (s.first .readWait)
  let s := abortLocks settings threadId .writeWait (Fintype.card D) s (s.first .writeWait)
  wakeUpWaiters settings status s

/-! ### The invariant -/

def noInsertCount (s : ThrLock D O) (l : List D) : ℕ := l.countP fun d => s.type d = .readNoInsert

omit [DecidableEq D] in
theorem noInsertCount_append (s : ThrLock D O) (l1 l2 : List D) :
    s.noInsertCount (l1 ++ l2) = s.noInsertCount l1 + s.noInsertCount l2 :=
  countP_append

omit [DecidableEq D] in
theorem noInsertCount_singleton (s : ThrLock D O) (d : D) :
    s.noInsertCount [d] = if s.type d = .readNoInsert then 1 else 0 := by
  rw [noInsertCount, countP_singleton]
  simp only [decide_eq_true_eq]

omit [DecidableEq D] in
theorem noInsertCount_congr {s s' : ThrLock D O} (h : ∀ d ∈ l, s'.type d = s.type d) :
    s'.noInsertCount l = s.noInsertCount l :=
  countP_congr fun d hd => by rw [h d hd]

/-- The lists `C` and the fields of their elements fit together. -/
structure Valid (settings : LockSettings O) (s : ThrLock D O) (C : LockList → List D) : Prop where
  linked : s.links.Represents none C
  reads : ∀ d, d ∈ C .read ∨ d ∈ C .readWait → s.type d ≤ .readNoInsert
  writes : ∀ d, d ∈ C .write ∨ d ∈ C .writeWait → LockType.writeAllowWrite ≤ s.type d
  exclusive : ∀ d ∈ C .write, LockType.writeLowPriority ≤ s.type d → C .write = [d] ∧ C .read = []
  count : s.readNoWriteCount = UInt32.ofNat (s.noInsertCount (C .read))
  granted : ∀ d ∈ C .write, s.cond d = false
  queued : ∀ d ∈ C .writeWait, s.cond d = true
  checked : ∀ d, d ∈ C .write ∨ d ∈ C .writeWait → s.type d = .writeConcurrentInsert →
    settings.checkStatus = true

def Awake (C : LockList → List D) : Prop :=
  C .read = [] → C .write = [] → C .readWait = [] ∧ C .writeWait = []

/-- What the loop of `free_all_read_locks` does with the elements `rest` behind the elements `R`. -/
structure Freed (s s' : ThrLock D O) (C C' : LockList → List D) (R rest : List D) : Prop where
  linked : s'.links.Represents (some .readWait) C'
  type : s'.type = s.type
  cond : ∀ d ∉ rest, s'.cond d = s.cond d
  write : C' .write = C .write
  writeWait : C' .writeWait = C .writeWait
  count : s'.readNoWriteCount = UInt32.ofNat (s.noInsertCount (C' .read))
  read : C' .read ⊆ R ++ rest
  readWait : C' .readWait ⊆ C .readWait ++ rest

omit [DecidableEq D] in
theorem count_append (s : ThrLock D O) (l : List D) (d : D) :
    (if s.type d = .readNoInsert then UInt32.ofNat (s.noInsertCount l) + 1
      else UInt32.ofNat (s.noInsertCount l)) = UInt32.ofNat (s.noInsertCount (l ++ [d])) := by
  rw [noInsertCount_append, noInsertCount_singleton]
  split_ifs
  · rw [UInt32.ofNat_add]
    rfl
  · rw [add_zero]

omit [DecidableEq D] in
theorem subset_insert (R : List D) {rest : List D} : R ++ rest ⊆ R ++ d :: rest := by
  intro e he
  rcases mem_append.mp he with he | he
  · exact mem_append_left _ he
  · exact mem_append_right R (mem_cons_of_mem d he)

theorem freeReadLocks_freed (usingConcurrentInsert : Bool) (rest : List D) {s : ThrLock D O}
    {C : LockList → List D} {R : List D} (hn : rest.length ≤ n)
    (h : s.links.Represents (some .readWait) C) (hread : C .read = R ++ rest)
    (hcount : s.readNoWriteCount = UInt32.ofNat (s.noInsertCount R)) :
    ∃ C', Freed s (freeReadLocks usingConcurrentInsert n s rest.head?) C C' R rest ∧
      (usingConcurrentInsert = false → C' .read = C .read ∧ C' .readWait = C .readWait) := by
  induction rest generalizing n s C R with
  | nil =>
    have hstop : freeReadLocks usingConcurrentInsert n s none = s := by cases n <;> rfl
    rw [head?_nil, hstop]
    rw [append_nil] at hread
    refine ⟨C, ⟨h, rfl, fun _ _ => rfl, rfl, rfl, ?_, ?_, ?_⟩, fun _ => ⟨rfl, rfl⟩⟩
    · rw [hread]
      exact hcount
    · rw [hread, append_nil]
      exact List.Subset.refl R
    · rw [append_nil]
      exact List.Subset.refl _
  | cons d rest ih =>
    obtain ⟨n, rfl⟩ : ∃ k, n = k + 1 := ⟨n - 1, by rw [length_cons] at hn; omega⟩
    have hn : rest.length ≤ n := Nat.le_of_succ_le_succ hn
    have hne : some LockList.readWait ≠ some .read := by decide
    have hlist := h.isList .read
    rw [hread] at hlist
    have hnext := hlist.link_next hne
    rw [head?_cons, freeReadLocks]
    by_cases hkeep : s.type d = .readNoInsert ∧ usingConcurrentInsert = true
    · -- The element goes back to the waiting readers and keeps its `next` until the next one.
      rw [if_pos hkeep]
      have hfresh := h.notMem_update hread
      have happend := (h.unlink hne hread).append (q := .readWait) hfresh
        fun hcontra => absurd rfl hcontra
      have hnext' : ((s.links.unlink .read d).append .readWait d).link (.next d) = rest.head? := by
        have hslot := (Links.slotOf_endSlot LockList.readWait (C .readWait)).next_ne
          (hfresh .readWait)
        rw [← hnext, ← h.unlink_next (r := .read) hread]
        refine update_of_ne ?_ _ _
        rw [Links.unlink_last (by decide), (h.isList .readWait).last]
        exact hslot.symm
      dsimp only
      rw [hnext']
      obtain ⟨C', hfreed, -⟩ := @ih n
        { s with links := (s.links.unlink .read d).append .readWait d } _ R hn happend
        (by simp) hcount
      refine ⟨C', ⟨hfreed.linked, hfreed.type, fun e he => ?_, ?_, ?_, hfreed.count, ?_, ?_⟩,
        fun hcontra => absurd hkeep.2 (by rw [hcontra]; decide)⟩
      · exact hfreed.cond e fun hcontra => he (mem_cons_of_mem d hcontra)
      · rw [hfreed.write]
        simp
      · rw [hfreed.writeWait]
        simp
      · exact fun e he => subset_insert R (hfreed.read he)
      · have hsubset := hfreed.readWait
        simp only [update_self, ne_eq, reduceCtorEq, not_false_eq_true,
          update_of_ne, append_assoc] at hsubset
        exact hsubset
    · rw [if_neg hkeep, hnext]
      have hread' : C .read = (R ++ [d]) ++ rest := by
        rw [hread, append_assoc]
        rfl
      obtain ⟨C', hfreed, hall⟩ := @ih n
        { s with
          readNoWriteCount :=
            if s.type d = .readNoInsert then s.readNoWriteCount + 1 else s.readNoWriteCount
          cond := update s.cond d false } C (R ++ [d]) hn h hread' (by
            rw [hcount]
            exact s.count_append R d)
      refine ⟨C', ⟨hfreed.linked, hfreed.type, fun e he => ?_, hfreed.write, hfreed.writeWait,
        hfreed.count, ?_, ?_⟩, hall⟩
      · rw [hfreed.cond e fun hcontra => he (mem_cons_of_mem d hcontra)]
        exact update_of_ne (ne_of_not_mem_cons he) _ _
      · have hsubset := hfreed.read
        rwa [append_assoc] at hsubset
      · exact fun e he => subset_insert (C .readWait) (hfreed.readWait he)

namespace Valid

variable {settings : LockSettings O} {s : ThrLock D O} {C : LockList → List D}

omit [DecidableEq D] in
theorem first_eq (h : s.Valid settings C) (q : LockList) : s.first q = (C q).head? :=
  h.linked.link_head q

omit [DecidableEq D] in
theorem cons_of_first (h : s.Valid settings C) {q : LockList} (hq : s.first q = some d) :
    ∃ l, C q = d :: l := by
  rw [h.first_eq] at hq
  exact List.head?_eq_some_iff.mp hq

omit [DecidableEq D] in
theorem nil_of_first (h : s.Valid settings C) {q : LockList} (hq : s.first q = none) :
    C q = [] := by
  rw [h.first_eq] at hq
  exact head?_eq_none_iff.mp hq

/-- The waiting readers go to the readers, or some of them. -/
theorem freeAllReadLocks [Fintype D] (h : s.Valid settings C)
    (hwrite : ∀ w ∈ C .write, ¬ LockType.writeLowPriority ≤ s.type w)
    (usingConcurrentInsert : Bool) :
    ∃ C', (s.freeAllReadLocks usingConcurrentInsert).Valid settings C' ∧
      C' .write = C .write ∧ C' .writeWait = C .writeWait ∧
      (usingConcurrentInsert = false → C' .read = C .read ++ C .readWait ∧ C' .readWait = []) := by
  rw [ThrLock.freeAllReadLocks]
  cases hfirst : s.first .readWait with
  | none =>
    have hnil := h.nil_of_first hfirst
    refine ⟨C, h, rfl, rfl, fun _ => ⟨?_, hnil⟩⟩
    rw [hnil, append_nil]
  | some d =>
    obtain ⟨l, hl⟩ := h.cons_of_first hfirst
    have hsplice := h.linked.splice (r := .read) (by decide) hl
    have hlength : (d :: l).length ≤ Fintype.card D := by
      rw [← hl]
      exact (h.linked.isList .readWait).nodup.length_le_card
    obtain ⟨C', hfreed, hall⟩ := freeReadLocks_freed usingConcurrentInsert (d :: l) hlength
      (s := { s with links := s.links.splice .read .readWait d }) hsplice
      (update_self _ _ _) h.count
    have hmem : ∀ e, e ∈ C' .read ∨ e ∈ C' .readWait → e ∈ C .read ∨ e ∈ C .readWait := by
      rintro e (he | he)
      · have he := hfreed.read he
        rw [← hl] at he
        exact mem_append.mp he
      have he := hfreed.readWait he
      simp only [update_self, ne_eq, reduceCtorEq, not_false_eq_true,
        update_of_ne, nil_append] at he
      rw [← hl] at he
      exact .inr he
    have hwrite' : C' .write = C .write := hfreed.write.trans (by simp)
    have hwait' : C' .writeWait = C .writeWait := hfreed.writeWait.trans (by simp)
    have hcond : ∀ e, e ∈ C .write ∨ e ∈ C .writeWait → e ∉ d :: l := by
      intro e he hcontra
      rw [← hl] at hcontra
      rcases he with he | he
      · exact h.linked.disjoint .write .readWait (by decide) he hcontra
      · exact h.linked.disjoint .writeWait .readWait (by decide) he hcontra
    dsimp only
    rw [head?_cons] at hfreed
    generalize freeReadLocks usingConcurrentInsert (Fintype.card D)
      { s with links := s.links.splice .read .readWait d } (some d) = s' at hfreed
    have htype : s'.type = s.type := hfreed.type
    have hvalid : ({ s' with links := s'.links.clear (s'.links.last .readWait) } :
        ThrLock D O).Valid settings C' := by
      refine ⟨hfreed.linked.clear_last, fun e he => ?_, fun e he => ?_, fun e he hlow => ?_, ?_,
        fun e he => ?_, fun e he => ?_, fun e he => ?_⟩
      · exact htype ▸ h.reads e (hmem e he)
      · rw [hwrite', hwait'] at he
        exact htype ▸ h.writes e he
      · rw [hwrite'] at he
        exact absurd (htype ▸ hlow) (hwrite e he)
      · have hcount := hfreed.count
        rw [htype]
        exact hcount
      · rw [hwrite'] at he
        exact (hfreed.cond e (hcond e (.inl he))).trans (h.granted e he)
      · rw [hwait'] at he
        exact (hfreed.cond e (hcond e (.inr he))).trans (h.queued e he)
      · rw [hwrite', hwait'] at he
        exact htype ▸ h.checked e he
    refine ⟨C', ?_, hwrite', hwait', fun hfalse => ?_⟩
    · split_ifs
      · exact ⟨hvalid.linked, hvalid.reads, hvalid.writes, hvalid.exclusive, hvalid.count,
          hvalid.granted, hvalid.queued, hvalid.checked⟩
      · exact hvalid
    · obtain ⟨hread, hwait⟩ := hall hfalse
      rw [hread, hwait, hl]
      simp

theorem giveWriteLock_type_of_ne {s : ThrLock D O} {upgrade : D → Bool} {d e : D} (h : e ≠ d) :
    (s.giveWriteLock upgrade d).type e = s.type e := by
  rw [ThrLock.giveWriteLock]
  split_ifs
  · exact update_of_ne h _ _
  · rfl

/-- What a writer must fulfil to get its lock beside the locks that are active. -/
structure Grantable (s : ThrLock D O) (C : LockList → List D) (upgrade : D → Bool) (d : D) :
    Prop where
  alone : ∀ w ∈ C .write, s.type w = .writeAllowWrite ∧ s.type d = .writeAllowWrite
  shared : C .read ≠ [] → s.type d ≤ .writeDelayed ∧
    (s.type d = .writeConcurrentInsert → upgrade d = false)

theorem giveWriteLock (h : s.Valid settings C) (hl : C .writeWait = d :: l)
    (hd : Grantable s C upgrade d) :
    (s.giveWriteLock upgrade d).Valid settings
      (update (update C .writeWait l) .write (C .write ++ [d])) := by
  have hmiddle : C .writeWait = [] ++ d :: l := hl
  have hmove := h.linked.move (r := .write) (by decide) hmiddle
  rw [nil_append] at hmove
  have hmem : d ∈ C .writeWait := hl ▸ mem_cons_self
  have hother : ∀ q, q ≠ .writeWait → ∀ e ∈ C q, e ≠ d := fun q hq e he hcontra =>
    h.linked.disjoint q .writeWait hq he (hcontra ▸ hmem)
  have hrest : ∀ e ∈ l, e ≠ d := by
    have hnodup := (h.linked.isList .writeWait).nodup
    rw [hl] at hnodup
    exact fun e he => ne_of_mem_of_not_mem he (nodup_cons.mp hnodup).1
  have htype := fun e (he : e ≠ d) => @giveWriteLock_type_of_ne D O _ s upgrade d e he
  have hlist : ∀ e, e ∈ C .write ∨ e ∈ l → e ≠ d ∧ (e ∈ C .write ∨ e ∈ C .writeWait) := by
    rintro e (he | he)
    · exact ⟨hother .write (by decide) e he, .inl he⟩
    · exact ⟨hrest e he, .inr (hl ▸ mem_cons_of_mem d he)⟩
  have hupgrade : (s.giveWriteLock upgrade d).type d = s.type d ∨
      ((s.giveWriteLock upgrade d).type d = .write ∧ s.type d = .writeConcurrentInsert ∧
        upgrade d = true) := by
    rw [ThrLock.giveWriteLock]
    split_ifs with hcheck
    · exact .inr ⟨update_self _ _ _, hcheck⟩
    · exact .inl rfl
  have hdlist : LockType.writeAllowWrite ≤ (s.giveWriteLock upgrade d).type d := by
    rcases hupgrade with heq | ⟨heq, -, -⟩
    · exact heq ▸ h.writes d (.inr hmem)
    · rw [heq]
      decide
  refine ⟨hmove, ?_, ?_, ?_, ?_, ?_, ?_, ?_⟩ <;>
    simp only [update_self, ne_eq, reduceCtorEq, not_false_eq_true,
      update_of_ne, mem_append, mem_singleton]
  · intro e he
    have hne : e ≠ d := he.elim (hother .read (by decide) e) (hother .readWait (by decide) e)
    rw [htype e hne]
    exact h.reads e he
  · rintro e ((he | rfl) | he)
    · obtain ⟨hne, he⟩ := hlist e (.inl he)
      exact (htype e hne).symm ▸ h.writes e he
    · exact hdlist
    · obtain ⟨hne, he⟩ := hlist e (.inr he)
      exact (htype e hne).symm ▸ h.writes e he
  · rintro e (he | rfl) hlow
    · rw [htype e (hlist e (.inl he)).1, (hd.alone e he).1] at hlow
      exact absurd hlow (by decide)
    have hwrite : C .write = [] := by
      rw [eq_nil_iff_forall_not_mem]
      intro w hw
      have hallow := (hd.alone w hw).2
      rcases hupgrade with heq | ⟨-, hinsert, -⟩
      · rw [heq, hallow] at hlow
        exact absurd hlow (by decide)
      · rw [hallow] at hinsert
        cases hinsert
    have hread : C .read = [] := by
      by_contra hne
      obtain ⟨hle, hinsert⟩ := hd.shared hne
      rcases hupgrade with heq | ⟨-, hconcurrent, hstatus⟩
      · rw [heq] at hlow
        exact LockType.not_lowPriority_le hle hlow
      · rw [hinsert hconcurrent] at hstatus
        cases hstatus
    rw [hwrite]
    exact ⟨rfl, hread⟩
  · have hcount : (s.giveWriteLock upgrade d).noInsertCount (C .read) = s.noInsertCount (C .read) :=
      noInsertCount_congr fun e he => htype e (hother .read (by decide) e he)
    rw [hcount]
    exact h.count
  · rintro e (he | rfl)
    · exact (update_of_ne (hlist e (.inl he)).1 _ _).trans (h.granted e he)
    · exact update_self _ _ _
  · intro e he
    have hwait : e ∈ C .writeWait := hl ▸ mem_cons_of_mem d he
    exact (update_of_ne (hrest e he) _ _).trans (h.queued e hwait)
  · rintro e ((he | rfl) | he) hinsert
    · obtain ⟨hne, he⟩ := hlist e (.inl he)
      exact h.checked e he (htype e hne ▸ hinsert)
    · rcases hupgrade with heq | ⟨heq, -, -⟩
      · exact h.checked e (.inr hmem) (heq ▸ hinsert)
      · rw [heq] at hinsert
        cases hinsert
    · obtain ⟨hne, he⟩ := hlist e (.inr he)
      exact h.checked e he (htype e hne ▸ hinsert)

theorem giveWriteLock_first (h : s.Valid settings C) (hl : C .writeWait = d :: l)
    (hd : Grantable s C upgrade d) : (s.giveWriteLock upgrade d).first .writeWait = l.head? := by
  have hfirst := (h.giveWriteLock hl hd).first_eq .writeWait
  rwa [update_of_ne (by decide), update_self] at hfirst

/-- The loop gives locks to the first waiting writers, and it does not run out of steps. -/
theorem giveWriteLocks (h : s.Valid settings C) (hn : l.length < n) (hl : C .writeWait = d :: l)
    (hd : Grantable s C upgrade d) :
    ∃ C', (giveWriteLocks upgrade n s d).1.Valid settings C' ∧
      (giveWriteLocks upgrade n s d).2 ∈ C' .write ∧ C' .read = C .read ∧
      C' .readWait = C .readWait := by
  induction l generalizing s C d n with
  | nil =>
    obtain ⟨n, rfl⟩ : ∃ k, n = k + 1 := ⟨n - 1, by omega⟩
    have hgive := h.giveWriteLock hl hd
    rw [ThrLock.giveWriteLocks, h.giveWriteLock_first hl hd]
    exact ⟨_, hgive, by simp, by simp, by simp⟩
  | cons e l ih =>
    obtain ⟨n, rfl⟩ : ∃ k, n = k + 1 := ⟨n - 1, by omega⟩
    have hgive := h.giveWriteLock hl hd
    rw [ThrLock.giveWriteLocks, h.giveWriteLock_first hl hd, head?_cons]
    dsimp only
    split_ifs with hallow
    · rw [length_cons] at hn
      have hnext : Grantable (s.giveWriteLock upgrade d)
          (update (update C .writeWait (e :: l)) .write (C .write ++ [d]))
          upgrade e := by
        refine ⟨fun w hw => ⟨?_, hallow.2⟩, fun _ => ?_⟩
        · rw [update_self, mem_append, mem_singleton] at hw
          rcases hw with hw | rfl
          · have hne : w ≠ d := fun hcontra => h.linked.disjoint .write .writeWait (by decide) hw
              (by rw [hcontra, hl]; exact mem_cons_self)
            rw [giveWriteLock_type_of_ne hne]
            exact (hd.alone w hw).1
          · exact hallow.1
        · rw [hallow.2]
          exact ⟨by decide, nofun⟩
      obtain ⟨C', hvalid, hmem, hread, hwait⟩ := @ih _ _ n e hgive (by omega) (by simp) hnext
      exact ⟨C', hvalid, hmem, hread.trans (by simp), hwait.trans (by simp)⟩
    · exact ⟨_, hgive, by simp, by simp, by simp⟩

theorem freeAllReadLocks_awake [Fintype D] (h : s.Valid settings C) (hwrite : C .write = [])
    (hwait : C .read = [] → C .readWait = [] → C .writeWait = []) :
    ∃ C', (s.freeAllReadLocks false).Valid settings C' ∧ Awake C' := by
  obtain ⟨C', hvalid, -, hwait', hall⟩ := h.freeAllReadLocks (by simp [hwrite]) false
  obtain ⟨hread, hnone⟩ := hall rfl
  refine ⟨C', hvalid, fun hempty _ => ⟨hnone, ?_⟩⟩
  rw [hread, append_eq_nil_iff] at hempty
  rw [hwait']
  exact hwait hempty.1 hempty.2

theorem freeAllReadLocks_awake_of_write [Fintype D] (h : s.Valid settings C) {w : D}
    (hw : w ∈ C .write) (hwrite : ∀ w ∈ C .write, ¬ LockType.writeLowPriority ≤ s.type w)
    (usingConcurrentInsert : Bool) :
    ∃ C', (s.freeAllReadLocks usingConcurrentInsert).Valid settings C' ∧ Awake C' := by
  obtain ⟨C', hvalid, hwrite', -, -⟩ := h.freeAllReadLocks hwrite usingConcurrentInsert
  refine ⟨C', hvalid, fun _ hcontra => ?_⟩
  rw [← hwrite', hcontra] at hw
  cases hw

omit [DecidableEq D] in
theorem length_lt_card [Fintype D] (h : s.Valid settings C) {q : LockList} (hl : C q = d :: l) :
    l.length < Fintype.card D := by
  have hlength := (h.linked.isList q).nodup.length_le_card
  rw [hl, length_cons] at hlength
  omega

theorem setType_write (h : s.Valid settings C) (hd : d ∈ C .writeWait) (hwrite : C .write = []) :
    (s.setType d .write).Valid settings C := by
  have hother : ∀ q, q ≠ .writeWait → ∀ e ∈ C q, (s.setType d .write).type e = s.type e :=
    fun q hq e he => update_of_ne
      (ne_of_mem_of_not_mem he (h.linked.disjoint .writeWait q hq.symm hd)) _ _
  have htype : ∀ e, (s.setType d .write).type e = .write ∨
      (s.setType d .write).type e = s.type e := by
    intro e
    by_cases he : e = d
    · subst he
      exact .inl (update_self _ _ _)
    · exact .inr (update_of_ne he _ _)
  refine ⟨h.linked, ?_, fun e he => ?_, ?_, ?_, h.granted, h.queued, fun e he hinsert => ?_⟩
  · rintro e (he | he)
    · rw [hother .read (by decide) e he]
      exact h.reads e (.inl he)
    · rw [hother .readWait (by decide) e he]
      exact h.reads e (.inr he)
  · rcases htype e with heq | heq
    · rw [heq]
      decide
    · rw [heq]
      exact h.writes e he
  · intro e he
    rw [hwrite] at he
    cases he
  · rw [noInsertCount_congr (hother .read (by decide))]
    exact h.count
  · rcases htype e with heq | heq
    · rw [heq] at hinsert
      cases hinsert
    · exact h.checked e he (heq ▸ hinsert)

theorem wakeUpWriter [Fintype D] (h : s.Valid settings C) (hwrite : C .write = [])
    (hread : C .read = []) (hl : C .writeWait = d :: l) (status : D → Bool) :
    ∃ C', (let given := ThrLock.giveWriteLocks status (Fintype.card D) s d
      if LockType.writeLowPriority ≤ given.1.type given.2 then given.1
      else given.1.freeAllReadLocks (isInsert (given.1.type given.2))).Valid settings C' ∧
      Awake C' := by
  have hgrantable : Grantable s C status d :=
    ⟨by simp [hwrite], fun hcontra => absurd hread hcontra⟩
  obtain ⟨C', hvalid, hmem, -, -⟩ := h.giveWriteLocks (h.length_lt_card hl) hl hgrantable
  dsimp only
  split_ifs with hlow
  · refine ⟨C', hvalid, fun _ hcontra => ?_⟩
    rw [hcontra] at hmem
    cases hmem
  refine hvalid.freeAllReadLocks_awake_of_write hmem (fun w hw hcontra => hlow ?_) _
  rw [(hvalid.exclusive w hw hcontra).1, mem_singleton] at hmem
  rw [hmem]
  exact hcontra

/-- After `wake_up_waiters` no waiter is left alone, whatever the lists were before. -/
theorem wakeUpWaiters [Fintype D] (h : s.Valid settings C) (status : D → Bool) :
    ∃ C', (s.wakeUpWaiters settings status).Valid settings C' ∧ Awake C' := by
  rw [ThrLock.wakeUpWaiters]
  cases hfirst : s.first .write with
  | some w =>
    obtain ⟨l, hl⟩ := h.cons_of_first hfirst
    refine ⟨C, h, fun _ hcontra => ?_⟩
    rw [hl] at hcontra
    cases hcontra
  | none =>
    have hwrite := h.nil_of_first hfirst
    cases hfirst : s.first .read with
    | none =>
      have hread := h.nil_of_first hfirst
      cases hfirst : s.first .writeWait with
      | none => exact h.freeAllReadLocks_awake hwrite fun _ _ => h.nil_of_first hfirst
      | some d =>
        obtain ⟨l, hl⟩ := h.cons_of_first hfirst
        dsimp only
        have hcount : ∀ count, ({ s with writeLockCount := count } : ThrLock D O).Valid
            settings C := fun count => ⟨h.linked, h.reads, h.writes, h.exclusive, h.count,
          h.granted, h.queued, h.checked⟩
        generalize (if settings.maxWriteLockCount < s.writeLockCount then 0
          else s.writeLockCount + 1) = count
        by_cases hpriority : s.type d ≠ .writeLowPriority ∨
            ∀ r, s.first .readWait = some r → s.type r < .readHighPriority
        · rw [if_pos hpriority]
          by_cases hfree : settings.maxWriteLockCount < s.writeLockCount ∧
              ({ s with writeLockCount := count } : ThrLock D O).first .readWait ≠ none
          · rw [if_pos hfree]
            refine (hcount count).freeAllReadLocks_awake hwrite fun _ hnone => ?_
            exact absurd ((hcount count).first_eq .readWait) (by rw [hnone]; exact hfree.2)
          · rw [if_neg hfree]
            exact (hcount count).wakeUpWriter hwrite hread hl status
        -- A writer of low priority waits for readers of high priority.
        rw [if_neg hpriority]
        rw [not_or, not_not] at hpriority
        obtain ⟨hlow, hreader⟩ := hpriority
        have hinsert : isInsert (s.type d) = false := by
          rw [hlow]
          decide
        rw [hinsert]
        refine h.freeAllReadLocks_awake hwrite fun _ hnone => absurd ?_ hreader
        intro r hr
        rw [h.first_eq, hnone] at hr
        cases hr
    | some r =>
      obtain ⟨l, hread⟩ := h.cons_of_first hfirst
      have hne : C .read ≠ [] := by
        rw [hread]
        exact cons_ne_nil r l
      cases hfirst : s.first .writeWait with
      | none => exact h.freeAllReadLocks_awake hwrite fun hcontra => absurd hcontra hne
      | some d =>
        obtain ⟨l, hl⟩ := h.cons_of_first hfirst
        dsimp only
        split_ifs with hshared hupgrade
        · have hmem : d ∈ C .writeWait := hl ▸ mem_cons_self
          exact (h.setType_write hmem hwrite).freeAllReadLocks_awake hwrite
            fun hcontra => absurd hcontra hne
        · have hgrantable : Grantable s C (fun _ => false) d :=
            ⟨by simp [hwrite], fun _ => ⟨hshared.1, fun _ => rfl⟩⟩
          obtain ⟨C', hvalid, hmem, hread', -⟩ :=
            h.giveWriteLocks (h.length_lt_card hl) hl hgrantable
          refine hvalid.freeAllReadLocks_awake_of_write hmem (fun w hw hcontra => hne ?_) _
          rw [← hread']
          exact (hvalid.exclusive w hw hcontra).2
        · exact ⟨C, h, fun hcontra => absurd hcontra hne⟩

end Valid

end ThrLock

end LibSources
