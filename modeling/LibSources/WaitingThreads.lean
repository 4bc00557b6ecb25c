import Mathlib.Tactic

/-!
# Deadlock Detection of `mysys/waiting_threads.c`

A model of `deadlock_search`, `change_victim` and `deadlock`. The search walks a
wait-for graph with a limited depth; it locks the resources on its way, and each of them is
unlocked by its caller.

* The graph does not change during the search, so `waiting_for` is read once and the resource is
  `ACTIVE`. Pins and statistics are left out.
* `held` is the multiset of the read locks that the search holds. A run that unlocks a resource
  it does not hold, or follows a null pointer, returns `none`.
* `depth` does not wrap around: `max_depth + 1` is less than `2 ^ 32`.

## Main results

* `deadlock_spec`: a deadlock in reach is found, and every lock is released.
-/

namespace LibSources

open List Option

structure WaitGraph (Thd Rc : Type) where
  waitingFor : Thd → Option Rc
  owners : Rc → List Thd
  weight : Thd → ℕ

inductive WtResult where
  | ok
  | depthExceeded
  | deadlock
  | freeToGo
  deriving DecidableEq

/-- The part of `deadlock_arg` that changes, and the locks. -/
structure SearchState (Thd Rc : Type) where
  victim : Option Thd
  lastLockedRc : Option Rc
  held : Multiset Rc

variable {Thd Rc : Type}

/-! ### Paths -/

def WaitGraph.Edge (g : WaitGraph Thd Rc) (a b : Thd) : Prop :=
  ∃ rc, g.waitingFor a = some rc ∧ b ∈ g.owners rc

def WaitGraph.IsPath (g : WaitGraph Thd Rc) : Thd → List Thd → Thd → Prop
  | a, [], b => g.Edge a b
  | a, c :: via, b => g.Edge a c ∧ g.IsPath c via b

def WaitGraph.Reaches (g : WaitGraph Thd Rc) (edges : ℕ) (a b : Thd) : Prop :=
  ∃ via, g.IsPath a via b ∧ via.length + 1 ≤ edges

structure WaitGraph.Lightest (g : WaitGraph Thd Rc) (thd : Thd) (threads : List Thd)
    (victim : Thd) : Prop where
  mem : victim ∈ thd :: threads
  le : ∀ t ∈ thd :: threads, g.weight victim ≤ g.weight t

variable {g : WaitGraph Thd Rc} {via threads : List Thd} {rc : Rc} {thd victim : Thd} {edges : ℕ}
  {arg : SearchState Thd Rc} {held : Multiset Rc}

theorem WaitGraph.IsPath.ne_none {a b : Thd} (h : g.IsPath a via b) :
    ∃ rc, g.waitingFor a = some rc := by
  cases via with
  | nil =>
    obtain ⟨rc, hrc, -⟩ := h
    exact ⟨rc, hrc⟩
  | cons c via =>
    obtain ⟨⟨rc, hrc, -⟩, -⟩ := h
    exact ⟨rc, hrc⟩

theorem WaitGraph.IsPath.waits {a b t : Thd} (h : g.IsPath a via b) (ht : t ∈ via) :
    ∃ rc, g.waitingFor t = some rc := by
  induction via generalizing a with
  | nil => exact absurd ht not_mem_nil
  | cons c via ih =>
    rcases mem_cons.mp ht with rfl | ht
    · exact h.2.ne_none
    · exact ih h.2 ht

theorem WaitGraph.reaches_iff {blocker : Thd} (hrc : g.waitingFor blocker = some rc)
    (hthd : thd ∉ g.owners rc) :
    g.Reaches (edges + 1) blocker thd ↔ ∃ c ∈ g.owners rc, g.Reaches edges c thd := by
  constructor
  · rintro ⟨via, hpath, hlength⟩
    cases via with
    | nil =>
      obtain ⟨rc', hrc', hmem⟩ := hpath
      rw [hrc] at hrc'
      cases hrc'
      exact absurd hmem hthd
    | cons c via =>
      obtain ⟨⟨rc', hrc', hmem⟩, hrest⟩ := hpath
      rw [hrc] at hrc'
      cases hrc'
      rw [length_cons] at hlength
      exact ⟨c, hmem, via, hrest, by omega⟩
  · rintro ⟨c, hmem, via, hpath, hlength⟩
    refine ⟨c :: via, ⟨⟨rc, hrc, hmem⟩, hpath⟩, ?_⟩
    rw [length_cons]
    omega

/-! ### The functions -/

def rcRdlock (arg : SearchState Thd Rc) (rc : Rc) : SearchState Thd Rc :=
  { arg with held := rc ::ₘ arg.held }

variable [DecidableEq Rc]

def rcUnlock (arg : SearchState Thd Rc) (rc : Rc) : Option (SearchState Thd Rc) :=
  if rc ∈ arg.held then some { arg with held := arg.held.erase rc } else none

theorem rcUnlock_cons (h : arg.held = rc ::ₘ held) :
    rcUnlock arg rc = some { arg with held := held } := by
  rw [rcUnlock, h, if_pos (Multiset.mem_cons_self rc held), Multiset.erase_cons_head]

def unlockLast (arg : SearchState Thd Rc) : Option (SearchState Thd Rc) :=
  match arg.lastLockedRc with
  | none => some arg
  | some rc => rcUnlock arg rc

theorem unlockLast_some (hlast : arg.lastLockedRc = some rc) (hheld : arg.held = rc ::ₘ held) :
    unlockLast arg = some { arg with held := held } := by
  rw [← rcUnlock_cons hheld, unlockLast.eq_def, hlast]

variable [DecidableEq Thd]

section

variable (g : WaitGraph Thd Rc)

def changeVictim (thd found : Thd) (arg : SearchState Thd Rc) : Option (SearchState Thd Rc) :=
  match arg.victim with
  | none => none
  | some victim =>
    if g.weight found < g.weight victim then do
      let arg ← if victim ≠ thd then (g.waitingFor victim).bind (rcUnlock arg) else some arg
      pure { arg with victim := some found, lastLockedRc := none }
    else some arg

def searchOwners (g : WaitGraph Thd Rc) (thd : Thd)
    (search : SearchState Thd Rc → Thd → Option (WtResult × SearchState Thd Rc)) :
    List Thd → WtResult → SearchState Thd Rc → Option (WtResult × SearchState Thd Rc)
  | [], ret, arg => some (ret, arg)
  | cursor :: owners, ret, arg => do
      let (found, arg) ← search arg cursor
      match found with
      | .deadlock => do
          let arg ← changeVictim g thd cursor arg
          let arg ← unlockLast arg
          pure (.deadlock, arg)
      | .depthExceeded => do
          let arg ← unlockLast arg
          searchOwners g thd search owners .depthExceeded arg
      | _ => do
          let arg ← unlockLast arg
          searchOwners g thd search owners ret arg

/-- `deadlock_search`. Each call is deeper than its caller, so `fuel` bounds the recursion. -/
def deadlockSearch (g : WaitGraph Thd Rc) (thd : Thd) (maxDepth : ℕ) :
    ℕ → ℕ → SearchState Thd Rc → Thd → Option (WtResult × SearchState Thd Rc)
  | 0, _, _, _ => none
  | fuel + 1, depth, arg, blocker =>
    let arg := { arg with lastLockedRc := none }
    if maxDepth < depth then some (.depthExceeded, arg)
    else
      match g.waitingFor blocker with
      | none => some (.ok, arg)
      | some rc =>
        let arg := rcRdlock arg rc
        if thd ∈ g.owners rc then
          some (.deadlock, { arg with victim := some thd, lastLockedRc := some rc })
        else do
          let (ret, arg) ← searchOwners g thd (deadlockSearch g thd maxDepth fuel (depth + 1))
            (g.owners rc) .ok arg
          pure (ret, { arg with lastLockedRc := some rc })

def freeToGo (g : WaitGraph Thd Rc) (depth : ℕ) (ret : WtResult) (arg : SearchState Thd Rc) :
    WtResult :=
  match arg.lastLockedRc with
  | none => ret
  | some rc => if depth = 0 ∧ ret = .ok ∧ g.owners rc = [] then .freeToGo else ret

/-- The victim is notified: the return value, the thread that is killed and the locks that are
left. -/
def notifyVictim (thd : Thd) (ret : WtResult) (arg : SearchState Thd Rc) :
    Option (WtResult × Option Thd × Multiset Rc) :=
  if ret = .deadlock ∧ arg.victim ≠ some thd then do
    let victim ← arg.victim
    let rc ← g.waitingFor victim
    let arg ← rcUnlock arg rc
    pure (.ok, some victim, arg.held)
  else pure (ret, none, arg.held)

def deadlock (g : WaitGraph Thd Rc) (thd blocker : Thd) (depth maxDepth : ℕ) :
    Option (WtResult × Option Thd × Multiset Rc) := do
  let (ret, arg) ← deadlockSearch g thd maxDepth (maxDepth + 2) depth ⟨none, none, 0⟩ blocker
  let ret := if ret = .depthExceeded then .ok else ret
  let arg ← if ret = .deadlock ∧ depth ≠ 0 then changeVictim g thd blocker arg else some arg
  let ret := freeToGo g depth ret arg
  let arg ← unlockLast arg
  notifyVictim g thd ret arg

def WaitGraph.kept (thd victim : Thd) : Multiset Rc :=
  if victim = thd then 0 else ((g.waitingFor victim).map fun rc => {rc}).getD 0

end

omit [DecidableEq Rc] in
theorem WaitGraph.kept_self (g : WaitGraph Thd Rc) (thd : Thd) : g.kept thd thd = 0 := if_pos rfl

omit [DecidableEq Rc] in
theorem WaitGraph.kept_of_ne (hne : victim ≠ thd) (hrc : g.waitingFor victim = some rc) :
    g.kept thd victim = {rc} := by
  rw [WaitGraph.kept, if_neg hne, hrc]
  rfl

theorem changeVictim_spec {found : Thd} (hvictim : arg.victim = some victim)
    (hlight : g.Lightest thd threads victim)
    (hwaits : ∀ t ∈ threads, ∃ rc, g.waitingFor t = some rc) (hfound : g.waitingFor found = some rc)
    (hlast : arg.lastLockedRc = some rc) (hheld : arg.held = rc ::ₘ (g.kept thd victim + held)) :
    ∃ arg1 arg2 victim', changeVictim g thd found arg = some arg1 ∧ unlockLast arg1 = some arg2 ∧
      arg2.victim = some victim' ∧ g.Lightest thd (found :: threads) victim' ∧
      arg2.held = g.kept thd victim' + held ∧
      (arg1.lastLockedRc = none ∨ arg1.lastLockedRc = some rc) := by
  rw [changeVictim, hvictim]
  dsimp only
  by_cases hlt : g.weight found < g.weight victim
  · rw [if_pos hlt]
    have hne : found ≠ thd := by
      rintro rfl
      exact absurd (hlight.le found mem_cons_self) (not_le.mpr hlt)
    have hlight' : g.Lightest thd (found :: threads) found := by
      refine ⟨mem_cons_of_mem _ mem_cons_self, fun t ht => ?_⟩
      rcases mem_cons.mp ht with rfl | ht
      · exact hlt.le.trans (hlight.le _ mem_cons_self)
      rcases mem_cons.mp ht with rfl | ht
      · exact le_rfl
      · exact hlt.le.trans (hlight.le t (mem_cons_of_mem _ ht))
    by_cases hthd : victim = thd
    · rw [if_neg (not_not.mpr hthd)]
      refine ⟨_, _, found, rfl, rfl, rfl, hlight', ?_, .inl rfl⟩
      rw [hheld, hthd, g.kept_self, g.kept_of_ne hne hfound, zero_add, Multiset.singleton_add]
    rw [if_pos hthd]
    obtain ⟨rcv, hrcv⟩ := hwaits victim ((mem_cons.mp hlight.mem).resolve_left hthd)
    have hcons : arg.held = rcv ::ₘ (rc ::ₘ held) := by
      rw [hheld, g.kept_of_ne hthd hrcv, Multiset.singleton_add, Multiset.cons_swap]
    rw [hrcv, bind_some, rcUnlock_cons hcons]
    refine ⟨_, _, found, rfl, rfl, rfl, hlight', ?_, .inl rfl⟩
    rw [g.kept_of_ne hne hfound, Multiset.singleton_add]
  · rw [if_neg hlt]
    have hunlock := unlockLast_some hlast hheld
    refine ⟨arg, _, victim, rfl, hunlock, hvictim, ⟨?_, fun t ht => ?_⟩, rfl, .inr hlast⟩
    · rcases mem_cons.mp hlight.mem with rfl | hmem
      · exact mem_cons_self
      · exact mem_cons_of_mem _ (mem_cons_of_mem _ hmem)
    rcases mem_cons.mp ht with rfl | ht
    · exact hlight.le _ mem_cons_self
    rcases mem_cons.mp ht with rfl | ht
    · exact not_lt.mp hlt
    · exact hlight.le t (mem_cons_of_mem _ ht)

/-! ### The search -/

def lastLock (arg : SearchState Thd Rc) : Multiset Rc :=
  (arg.lastLockedRc.map fun rc => {rc}).getD 0

structure SearchResult (g : WaitGraph Thd Rc) (thd blocker : Thd) (edges : ℕ)
    (arg : SearchState Thd Rc) (ret : WtResult) (arg' : SearchState Thd Rc) : Prop where
  notFree : ret ≠ .freeToGo
  notFound : ret ≠ .deadlock → ¬ g.Reaches edges blocker thd ∧
    arg'.held = lastLock arg' + arg.held ∧
    ∀ rc, arg'.lastLockedRc = some rc → g.waitingFor blocker = some rc
  found : ret = .deadlock → ∃ via victim rc, g.IsPath blocker via thd ∧ via.length + 1 ≤ edges ∧
    arg'.victim = some victim ∧ g.Lightest thd via victim ∧
    g.waitingFor blocker = some rc ∧ arg'.lastLockedRc = some rc ∧
    arg'.held = rc ::ₘ (g.kept thd victim + arg.held)

omit [DecidableEq Thd] in
theorem unlockLast_eq {arg' : SearchState Thd Rc} (h : arg'.held = lastLock arg' + arg.held) :
    unlockLast arg' = some { arg' with held := arg.held } := by
  rcases arg' with ⟨victim, _ | rc, held⟩
  · obtain rfl : held = arg.held := h.trans (zero_add _)
    rfl
  · exact unlockLast_some rfl (h.trans (Multiset.singleton_add rc arg.held))

theorem searchOwners_spec
    {search : SearchState Thd Rc → Thd → Option (WtResult × SearchState Thd Rc)}
    (hsearch : ∀ arg cursor, ∃ ret arg', search arg cursor = some (ret, arg') ∧
      SearchResult g thd cursor edges arg ret arg') (owners : List Thd) (ret : WtResult)
    (arg : SearchState Thd Rc) (hret : ret = .ok ∨ ret = .depthExceeded) :
    ∃ ret' arg', searchOwners g thd search owners ret arg = some (ret', arg') ∧ ret' ≠ .freeToGo ∧
      (ret' ≠ .deadlock → (∀ c ∈ owners, ¬ g.Reaches edges c thd) ∧ arg'.held = arg.held) ∧
      (ret' = .deadlock → ∃ c ∈ owners, ∃ via victim, g.IsPath c via thd ∧
        via.length + 1 ≤ edges ∧ arg'.victim = some victim ∧ g.Lightest thd (c :: via) victim ∧
        arg'.held = g.kept thd victim + arg.held) := by
  induction owners generalizing ret arg with
  | nil =>
    refine ⟨ret, arg, rfl, ?_, fun _ => ⟨fun c hc => absurd hc not_mem_nil, rfl⟩, ?_⟩
    · rcases hret with rfl | rfl <;> exact nofun
    · rcases hret with rfl | rfl <;> exact nofun
  | cons cursor owners ih =>
    obtain ⟨found, arg1, heq, hresult⟩ := hsearch arg cursor
    rw [searchOwners, heq, bind_eq_bind, bind_some]
    -- the other owners are searched after a search that found nothing
    have hrest : found ≠ .deadlock → ∀ next, next = .ok ∨ next = .depthExceeded →
        unlockLast arg1 = some { arg1 with held := arg.held } ∧
        ∃ ret' arg', searchOwners g thd search owners next { arg1 with held := arg.held } =
            some (ret', arg') ∧ ret' ≠ .freeToGo ∧
          (ret' ≠ .deadlock → (∀ c ∈ cursor :: owners, ¬ g.Reaches edges c thd) ∧
            arg'.held = arg.held) ∧
          (ret' = .deadlock → ∃ c ∈ cursor :: owners, ∃ via victim, g.IsPath c via thd ∧
            via.length + 1 ≤ edges ∧ arg'.victim = some victim ∧
            g.Lightest thd (c :: via) victim ∧ arg'.held = g.kept thd victim + arg.held) := by
      intro hfound next hnext
      obtain ⟨hnot, hheld, -⟩ := hresult.notFound hfound
      obtain ⟨ret', arg', hloop, hfree, hnone, hsome⟩ :=
        ih next { arg1 with held := arg.held } hnext
      refine ⟨unlockLast_eq hheld, ret', arg', hloop, hfree, fun hne => ?_, fun hdead => ?_⟩
      · obtain ⟨hall, hheld'⟩ := hnone hne
        refine ⟨fun c hc => ?_, hheld'⟩
        rcases mem_cons.mp hc with rfl | hc
        · exact hnot
        · exact hall c hc
      · obtain ⟨c, hc, hfound⟩ := hsome hdead
        exact ⟨c, mem_cons_of_mem _ hc, hfound⟩
    cases found with
    | ok =>
      obtain ⟨hunlock, ret', arg', hloop, hspec⟩ := hrest (by decide) ret hret
      refine ⟨ret', arg', ?_, hspec⟩
      dsimp only
      rw [hunlock]
      exact hloop
    | depthExceeded =>
      obtain ⟨hunlock, ret', arg', hloop, hspec⟩ := hrest (by decide) .depthExceeded (.inr rfl)
      refine ⟨ret', arg', ?_, hspec⟩
      dsimp only
      rw [hunlock]
      exact hloop
    | deadlock =>
      obtain ⟨via, victim, rc, hpath, hlength, hvictim, hlight, hrc, hlast, hheld⟩ :=
        hresult.found rfl
      obtain ⟨arg2, arg3, victim', hchange, hunlock, hvictim', hlight', hheld', -⟩ :=
        changeVictim_spec hvictim hlight (fun t ht => hpath.waits ht) hrc hlast hheld
      refine ⟨.deadlock, arg3, ?_, by decide, fun hcontra => absurd rfl hcontra,
        fun _ => ⟨cursor, mem_cons_self, via, victim', hpath, hlength, hvictim', hlight', hheld'⟩⟩
      dsimp only
      rw [hchange, bind_eq_bind, bind_some, hunlock]
      rfl
    | freeToGo => exact absurd rfl hresult.notFree

theorem deadlockSearch_spec (g : WaitGraph Thd Rc) (thd : Thd) (maxDepth : ℕ) {fuel depth : ℕ}
    (hfuel : maxDepth + 1 < fuel + depth) (hpos : 0 < fuel) (arg : SearchState Thd Rc)
    (blocker : Thd) :
    ∃ ret arg', deadlockSearch g thd maxDepth fuel depth arg blocker = some (ret, arg') ∧
      SearchResult g thd blocker (maxDepth + 1 - depth) arg ret arg' := by
  induction fuel generalizing depth arg blocker with
  | zero => exact absurd hpos (lt_irrefl 0)
  | succ fuel ih =>
    rw [deadlockSearch]
    by_cases hdepth : maxDepth < depth
    · rw [if_pos hdepth]
      refine ⟨_, _, rfl, by decide, fun _ => ⟨?_, (zero_add _).symm,
        fun rc hcontra => (nomatch hcontra)⟩, nofun⟩
      rintro ⟨via, -, hlength⟩
      omega
    rw [if_neg hdepth]
    cases hrc : g.waitingFor blocker with
    | none =>
      refine ⟨_, _, rfl, by decide, fun _ => ⟨?_, (zero_add _).symm,
        fun rc hcontra => (nomatch hcontra)⟩, nofun⟩
      rintro ⟨via, hpath, -⟩
      obtain ⟨rc, hrc'⟩ := hpath.ne_none
      rw [hrc] at hrc'
      exact nomatch hrc'
    | some rc =>
      dsimp only
      by_cases hthd : thd ∈ g.owners rc
      · rw [if_pos hthd]
        refine ⟨_, _, rfl, by decide, fun hcontra => absurd rfl hcontra,
          fun _ => ⟨[], thd, rc, ⟨rc, hrc, hthd⟩, ?_, rfl, ⟨mem_cons_self, ?_⟩, hrc, rfl, ?_⟩⟩
        · rw [length_nil]
          omega
        · intro t ht
          rw [mem_singleton.mp ht]
        · rw [g.kept_self, zero_add]
          rfl
      rw [if_neg hthd]
      have hedges : maxDepth + 1 - depth = maxDepth + 1 - (depth + 1) + 1 := by omega
      have hsearch : ∀ arg cursor, ∃ ret arg',
          deadlockSearch g thd maxDepth fuel (depth + 1) arg cursor = some (ret, arg') ∧
            SearchResult g thd cursor (maxDepth + 1 - (depth + 1)) arg ret arg' :=
        fun arg cursor => ih (by omega) (by omega) arg cursor
      obtain ⟨ret', arg', hloop, hfree, hnone, hsome⟩ :=
        searchOwners_spec hsearch (g.owners rc) .ok
          (rcRdlock { arg with lastLockedRc := none } rc) (.inl rfl)
      rw [hloop, bind_eq_bind, bind_some]
      refine ⟨ret', { arg' with lastLockedRc := some rc }, rfl, hfree, fun hne => ?_,
        fun hdead => ?_⟩
      · obtain ⟨hall, hheld⟩ := hnone hne
        refine ⟨?_, ?_, fun rc' heq => ?_⟩
        · rw [hedges, g.reaches_iff hrc hthd]
          rintro ⟨c, hc, hreach⟩
          exact hall c hc hreach
        · exact hheld.trans (Multiset.singleton_add rc arg.held).symm
        · cases heq
          exact hrc
      · obtain ⟨c, hc, via, victim, hpath, hlength, hvictim, hlight, hheld⟩ := hsome hdead
        refine ⟨c :: via, victim, rc, ⟨⟨rc, hrc, hc⟩, hpath⟩, ?_, hvictim, hlight, hrc, rfl, ?_⟩
        · rw [length_cons]
          omega
        · rw [← Multiset.add_cons]
          exact hheld

/-! ### The whole detection -/

/-- How a deadlock is reported: by the return value, or by a victim that is killed. -/
def Reports (ret : WtResult) (killed : Option Thd) : Prop := ret = .deadlock ∨ killed.isSome = true

def IsVictim (thd : Thd) (ret : WtResult) (killed : Option Thd) (victim : Thd) : Prop :=
  (ret = .deadlock ∧ killed = none ∧ victim = thd) ∨
    (ret = .ok ∧ killed = some victim ∧ victim ≠ thd)

theorem notifyVictim_spec (hvictim : arg.victim = some victim)
    (hlight : g.Lightest thd threads victim)
    (hwaits : ∀ t ∈ threads, ∃ rc, g.waitingFor t = some rc)
    (hheld : arg.held = g.kept thd victim) :
    ∃ ret killed, notifyVictim g thd .deadlock arg = some (ret, killed, 0) ∧
      Reports ret killed ∧ IsVictim thd ret killed victim := by
  rw [notifyVictim]
  by_cases hthd : victim = thd
  · subst hthd
    refine ⟨.deadlock, none, ?_, .inl rfl, .inl ⟨rfl, rfl, rfl⟩⟩
    rw [if_neg fun hand => hand.2 hvictim, hheld, g.kept_self]
    rfl
  obtain ⟨rc, hrc⟩ := hwaits victim ((mem_cons.mp hlight.mem).resolve_left hthd)
  have hcons : arg.held = rc ::ₘ 0 := by
    rw [hheld, g.kept_of_ne hthd hrc]
    rfl
  refine ⟨.ok, some victim, ?_, .inr rfl, .inr ⟨rfl, rfl, hthd⟩⟩
  rw [if_pos ⟨rfl, by rw [hvictim]; exact fun heq => hthd (some.inj heq)⟩, hvictim,
    bind_eq_bind, bind_some, hrc, bind_eq_bind, bind_some,
    rcUnlock_cons hcons]
  rfl

omit [DecidableEq Rc] [DecidableEq Thd] in
theorem freeToGo_deadlock (g : WaitGraph Thd Rc) (depth : ℕ) (arg : SearchState Thd Rc) :
    freeToGo g depth .deadlock arg = .deadlock := by
  rw [freeToGo]
  split
  · rfl
  · exact if_neg fun hand => (nomatch hand.2.1)

omit [DecidableEq Rc] [DecidableEq Thd] in
theorem freeToGo_ok (g : WaitGraph Thd Rc) (depth : ℕ) (arg : SearchState Thd Rc) :
    freeToGo g depth .ok arg ≠ .deadlock := by
  rw [freeToGo]
  split
  · decide
  · split <;> decide

/-- Deadlock detection: a deadlock is reported iff there is a path of at most
`max_depth - depth + 1` edges from the blocker to `thd`, the victim is a thread of minimal weight
on the cycle that such a path closes, and every lock is released. With depth 0 the search starts
from `thd` itself. -/
theorem deadlock_spec (g : WaitGraph Thd Rc) (thd blocker : Thd) (depth maxDepth : ℕ) :
    ∃ ret killed, deadlock g thd blocker depth maxDepth = some (ret, killed, 0) ∧
      (Reports ret killed ↔ g.Reaches (maxDepth + 1 - depth) blocker thd) ∧
      (Reports ret killed → (depth = 0 → blocker = thd) →
        ∃ via victim, g.IsPath blocker via thd ∧ via.length + 1 ≤ maxDepth + 1 - depth ∧
          IsVictim thd ret killed victim ∧ g.Lightest thd (blocker :: via) victim) := by
  obtain ⟨ret, arg, hsearch, hresult⟩ := deadlockSearch_spec g thd maxDepth
    (by omega : maxDepth + 1 < maxDepth + 2 + depth) (by omega) ⟨none, none, 0⟩ blocker
  rw [deadlock, hsearch, bind_eq_bind, bind_some]
  dsimp only
  by_cases hdead : ret = .deadlock
  · subst hdead
    obtain ⟨via, victim, rc, hpath, hlength, hvictim, hlight, hrc, hlast, hheld⟩ :=
      hresult.found rfl
    have hreaches : g.Reaches (maxDepth + 1 - depth) blocker thd := ⟨via, hpath, hlength⟩
    have hret : (if WtResult.deadlock = .depthExceeded then WtResult.ok else .deadlock) =
        .deadlock := rfl
    rw [hret]
    by_cases hdepth : depth = 0
    · have hunlock := unlockLast_some hlast hheld
      rw [if_neg fun hand => hand.2 hdepth, bind_eq_bind, bind_some,
        freeToGo_deadlock, hunlock, bind_some]
      have hvictim₀ : SearchState.victim { arg with held := g.kept thd victim + 0 } =
          some victim := hvictim
      obtain ⟨ret, killed, hnotify, hreports, hvictim'⟩ :=
        notifyVictim_spec hvictim₀ hlight (fun t ht => hpath.waits ht) (add_zero _)
      refine ⟨ret, killed, hnotify, iff_of_true hreports hreaches, fun _ hthd =>
        ⟨via, victim, hpath, hlength, hvictim', ?_, ?_⟩⟩
      · rw [hthd hdepth]
        exact mem_cons_of_mem _ hlight.mem
      rw [hthd hdepth]
      intro t ht
      rcases mem_cons.mp ht with rfl | ht
      · exact hlight.le _ mem_cons_self
      · exact hlight.le t ht
    · obtain ⟨arg₁, arg₂, victim', hchange, hunlock, hvictim', hlight', hheld', -⟩ :=
        changeVictim_spec hvictim hlight (fun t ht => hpath.waits ht) hrc hlast hheld
      rw [if_pos ⟨rfl, hdepth⟩, hchange, bind_eq_bind, bind_some,
        freeToGo_deadlock, hunlock, bind_some]
      have hwaits : ∀ t ∈ blocker :: via, ∃ rc, g.waitingFor t = some rc := by
        intro t ht
        rcases mem_cons.mp ht with rfl | ht
        · exact ⟨rc, hrc⟩
        · exact hpath.waits ht
      obtain ⟨ret, killed, hnotify, hreports, hvictim''⟩ :=
        notifyVictim_spec hvictim' hlight' hwaits (hheld'.trans (add_zero _))
      exact ⟨ret, killed, hnotify, iff_of_true hreports hreaches, fun _ _ =>
        ⟨via, victim', hpath, hlength, hvictim'', hlight'⟩⟩
  · obtain ⟨hnot, hheld, -⟩ := hresult.notFound hdead
    have hret : (if ret = .depthExceeded then WtResult.ok else ret) = .ok := by
      cases ret with
      | ok => rfl
      | depthExceeded => rfl
      | deadlock => exact absurd rfl hdead
      | freeToGo => exact absurd rfl hresult.notFree
    rw [hret, if_neg fun hand => (nomatch hand.1), bind_eq_bind, bind_some,
      unlockLast_eq hheld, bind_some, notifyVictim,
      if_neg fun hand => freeToGo_ok g depth arg hand.1]
    refine ⟨_, none, rfl, iff_of_false ?_ hnot, fun hreports => ?_⟩
    · exact fun hreports => hreports.elim (freeToGo_ok g depth arg) nofun
    · exact hreports.elim (fun h => absurd h (freeToGo_ok g depth arg)) fun hcontra =>
        nomatch hcontra

def threeThreads : WaitGraph (Fin 3) (Fin 3) := ⟨some, fun rc => [rc + 1], fun t => 5 - t.val⟩

/-- Thread 2 is the lightest one, and it is killed. -/
theorem deadlock_spec_threeThreads :
    deadlock threeThreads 0 0 0 4 = some (.ok, some 2, 0) ∧
    (∃ via victim, threeThreads.IsPath 0 via 0 ∧ via.length + 1 ≤ 5 ∧
      IsVictim 0 .ok (some 2) victim ∧ threeThreads.Lightest 0 (0 :: via) victim) := by
  have hrun : deadlock threeThreads 0 0 0 4 = some (.ok, some 2, 0) := by decide
  obtain ⟨ret, killed, hdeadlock, -, hvictim⟩ := deadlock_spec threeThreads 0 0 0 4
  rw [hrun] at hdeadlock
  cases hdeadlock
  exact ⟨hrun, hvictim (.inr rfl) fun _ => rfl⟩

end LibSources
