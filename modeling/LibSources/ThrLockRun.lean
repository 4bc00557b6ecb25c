import LibSources.ThrLock

/-!
# Runs of the Table Lock Manager

Each call of `mysys/thr_lock.c` keeps the lists of a `THR_LOCK` in order and leaves no waiter alone.
So this holds in all states that can be reached.

## Main results

* `ThrLock.reachable_spec`
-/

namespace LibSources

open LockType Function List

namespace ThrLock

variable {D O : Type} [DecidableEq D] {settings : LockSettings O} {s s' : ThrLock D O}
  {C : LockList → List D} {q : LockList} {d : D}

/-! ### Elements that come and go -/

omit [DecidableEq D] in
theorem mem_update_append {q' : LockList} {e : D} :
    e ∈ update C q (C q ++ [d]) q' ↔ e ∈ C q' ∨ (q' = q ∧ e = d) := by
  by_cases hq : q' = q
  · subst hq
    simp
  · rw [update_of_ne hq]
    simp [hq]

namespace Valid

omit [DecidableEq D] in
/-- The fields of an element that is in no list do not matter. -/
theorem of_fresh (h : s.Valid settings C) (hd : ∀ q, d ∉ C q) (hlinks : s'.links.Represents none C)
    (htype : ∀ e, e ≠ d → s'.type e = s.type e) (hcond : ∀ e, e ≠ d → s'.cond e = s.cond e)
    (hcount : s'.readNoWriteCount = s.readNoWriteCount) : s'.Valid settings C := by
  have hne : ∀ q, ∀ e ∈ C q, e ≠ d := fun q e he => ne_of_mem_of_not_mem he (hd q)
  have hne2 : ∀ q q' e, e ∈ C q ∨ e ∈ C q' → e ≠ d := fun q q' e he =>
    he.elim (hne q e) (hne q' e)
  refine ⟨hlinks, fun e he => ?_, fun e he => ?_, fun e he hlow => ?_, ?_, fun e he => ?_,
    fun e he => ?_, fun e he hinsert => ?_⟩
  · rw [htype e (hne2 _ _ e he)]
    exact h.reads e he
  · rw [htype e (hne2 _ _ e he)]
    exact h.writes e he
  · rw [htype e (hne _ e he)] at hlow
    exact h.exclusive e he hlow
  · rw [hcount, noInsertCount_congr fun e he => htype e (hne _ e he)]
    exact h.count
  · rw [hcond e (hne _ e he)]
    exact h.granted e he
  · rw [hcond e (hne _ e he)]
    exact h.queued e he
  · rw [htype e (hne2 _ _ e he)] at hinsert
    exact h.checked e he hinsert

/-- What an element must fulfil to come to the end of the list `q`. -/
structure Fits (settings : LockSettings O) (s s' : ThrLock D O) (C : LockList → List D)
    (q : LockList) (d : D) : Prop where
  reads : q = .read ∨ q = .readWait → s.type d ≤ .readNoInsert
  writes : q = .write ∨ q = .writeWait → writeAllowWrite ≤ s.type d
  checked : s.type d = .writeConcurrentInsert → settings.checkStatus = true
  others : q = .read ∨ q = .write → ∀ w ∈ C .write, ¬ writeLowPriority ≤ s.type w
  alone : q = .write → writeLowPriority ≤ s.type d → C .write = [] ∧ C .read = []
  granted : q = .write → s'.cond d = false
  queued : q = .writeWait → s'.cond d = true
  count : s'.readNoWriteCount = UInt32.ofNat (s.noInsertCount (update C q (C q ++ [d]) .read))

theorem add (h : s.Valid settings C) (hd : ∀ q, d ∉ C q) (hnext : s.links.link (.next d) = none)
    (hlinks : s'.links = s.links.append q d) (htype : s'.type = s.type)
    (hcond : ∀ e, e ≠ d → s'.cond e = s.cond e) (hfits : Fits settings s s' C q d) :
    s'.Valid settings (update C q (C q ++ [d])) := by
  have hne : ∀ q, ∀ e ∈ C q, e ≠ d := fun q e he => ne_of_mem_of_not_mem he (hd q)
  refine ⟨?_, fun e he => ?_, fun e he => ?_, fun e he hlow => ?_, ?_, fun e he => ?_,
    fun e he => ?_, fun e he hinsert => ?_⟩
  · rw [hlinks]
    exact h.linked.append hd fun _ => hnext
  · rw [htype]
    simp only [mem_update_append] at he
    rcases he with (he | ⟨hq, rfl⟩) | (he | ⟨hq, rfl⟩)
    · exact h.reads e (.inl he)
    · exact hfits.reads (Or.inl hq.symm)
    · exact h.reads e (.inr he)
    · exact hfits.reads (.inr hq.symm)
  · rw [htype]
    simp only [mem_update_append] at he
    rcases he with (he | ⟨hq, rfl⟩) | (he | ⟨hq, rfl⟩)
    · exact h.writes e (.inl he)
    · exact hfits.writes (Or.inl hq.symm)
    · exact h.writes e (.inr he)
    · exact hfits.writes (.inr hq.symm)
  · rw [htype] at hlow
    rcases mem_update_append.mp he with he | ⟨rfl, rfl⟩
    · have hq : ¬ (q = .read ∨ q = .write) := fun hcontra => hfits.others hcontra e he hlow
      rw [not_or] at hq
      rw [update_of_ne (Ne.symm hq.2), update_of_ne (Ne.symm hq.1)]
      exact h.exclusive e he hlow
    · obtain ⟨hwrite, hread⟩ := hfits.alone rfl hlow
      rw [update_self, update_of_ne (by decide), hwrite]
      exact ⟨rfl, hread⟩
  · rw [hfits.count]
    exact congrArg _ (noInsertCount_congr fun e _ => by rw [htype]).symm
  · rcases mem_update_append.mp he with he | ⟨hq, rfl⟩
    · exact (hcond e (hne _ e he)).trans (h.granted e he)
    · exact hfits.granted hq.symm
  · rcases mem_update_append.mp he with he | ⟨hq, rfl⟩
    · exact (hcond e (hne _ e he)).trans (h.queued e he)
    · exact hfits.queued hq.symm
  · rw [htype] at hinsert
    simp only [mem_update_append] at he
    rcases he with (he | ⟨hq, rfl⟩) | (he | ⟨hq, rfl⟩)
    · exact h.checked e (.inl he) hinsert
    · exact hfits.checked hinsert
    · exact h.checked e (.inr he) hinsert
    · exact hfits.checked hinsert

theorem remove {t : ThrLock D O} (h : s.Valid settings C) {l1 l2 : List D}
    (hq : C q = l1 ++ d :: l2) (hlinks : t.links = s.links.unlink q d)
    (htype : ∀ e, e ≠ d → t.type e = s.type e) (hcond : ∀ e, e ≠ d → t.cond e = s.cond e)
    (hcount : t.readNoWriteCount = UInt32.ofNat (s.noInsertCount (update C q (l1 ++ l2) .read))) :
    t.Valid settings (update C q (l1 ++ l2)) := by
  have hsubset : ∀ q', ∀ e ∈ update C q (l1 ++ l2) q', e ≠ d ∧ e ∈ C q' := by
    intro q' e he
    refine ⟨ne_of_mem_of_not_mem he (h.linked.notMem_update hq q'), ?_⟩
    by_cases hne : q' = q
    · subst hne
      rw [update_self] at he
      rw [hq]
      exact subset_insert l1 he
    · rwa [update_of_ne hne] at he
  have hsubset2 : ∀ q1 q2 e, e ∈ update C q (l1 ++ l2) q1 ∨
      e ∈ update C q (l1 ++ l2) q2 → e ≠ d ∧ (e ∈ C q1 ∨ e ∈ C q2) := by
    rintro q1 q2 e (he | he)
    · exact ⟨(hsubset q1 e he).1, .inl (hsubset q1 e he).2⟩
    · exact ⟨(hsubset q2 e he).1, .inr (hsubset q2 e he).2⟩
  refine ⟨?_, fun e he => ?_, fun e he => ?_, fun e he hlow => ?_, ?_, fun e he => ?_,
    fun e he => ?_, fun e he hinsert => ?_⟩
  · rw [hlinks]
    exact h.linked.unlink (nofun) hq
  · obtain ⟨hne, he⟩ := hsubset2 _ _ e he
    rw [htype e hne]
    exact h.reads e he
  · obtain ⟨hne, he⟩ := hsubset2 _ _ e he
    rw [htype e hne]
    exact h.writes e he
  · obtain ⟨hne, he'⟩ := hsubset _ e he
    rw [htype e hne] at hlow
    obtain ⟨hwrite, hread⟩ := h.exclusive e he' hlow
    have hqwrite : q ≠ .write := by
      rintro rfl
      have hd : d ∈ C .write := hq ▸ mem_append_right l1 mem_cons_self
      rw [hwrite, mem_singleton] at hd
      exact hne hd.symm
    have hqread : q ≠ .read := by
      rintro rfl
      have hd : d ∈ C .read := hq ▸ mem_append_right l1 mem_cons_self
      rw [hread] at hd
      cases hd
    rw [update_of_ne hqwrite.symm, update_of_ne hqread.symm]
    exact ⟨hwrite, hread⟩
  · rw [hcount]
    exact congrArg _ (noInsertCount_congr fun e he => htype e (hsubset _ e he).1).symm
  · obtain ⟨hne, he⟩ := hsubset _ e he
    exact (hcond e hne).trans (h.granted e he)
  · obtain ⟨hne, he⟩ := hsubset _ e he
    exact (hcond e hne).trans (h.queued e he)
  · obtain ⟨hne, he⟩ := hsubset2 _ _ e he
    rw [htype e hne] at hinsert
    exact h.checked e he hinsert

end Valid

/-! ### `thr_lock` -/

structure Fresh (s : ThrLock D O) (C : LockList → List D) (d : D) (owner : O) : Prop where
  notMem : ∀ q, d ∉ C q
  next : s.links.link (.next d) = none
  cond : s.cond d = false
  owner : ∀ q, ∀ e ∈ C q, s.owner e ≠ owner

/-- The lists are in order and no waiter is left alone. -/
def Consistent (settings : LockSettings O) (s : ThrLock D O) : Prop :=
  ∃ C, s.Valid settings C ∧ Awake C

section Requests

variable {owner : O} {lockType : LockType}

theorem Fresh.setType (hf : Fresh s C d owner) (lockType : LockType) :
    Fresh (s.setType d lockType) C d owner :=
  ⟨hf.notMem, hf.next, hf.cond, hf.owner⟩

section

variable (h : s.Valid settings C) (hf : Fresh s C d owner)
include h hf

theorem Valid.setType (lockType : LockType) : (s.setType d lockType).Valid settings C :=
  h.of_fresh hf.notMem h.linked (fun _ he => update_of_ne he _ _) (fun _ _ => rfl) rfl

theorem Valid.aborted (hawake : Awake C) : (s.setType d .unlock).Consistent settings :=
  ⟨C, h.setType hf .unlock, hawake⟩

theorem Valid.addRead (htype : s.type d = lockType) (hread : lockType ≤ .readNoInsert)
    (hothers : ∀ w ∈ C .write, ¬ writeLowPriority ≤ s.type w) :
    (s.addRead d lockType).Consistent settings := by
  refine ⟨_, h.add (q := .read) hf.notMem hf.next rfl rfl (fun _ _ => rfl)
    ⟨fun _ => htype ▸ hread, ?_, fun hinsert => ?_, fun _ => hothers, ?_, ?_, ?_, ?_⟩,
    fun hcontra => ?_⟩
  · rintro (hcontra | hcontra) <;> cases hcontra
  · rw [htype] at hinsert
    rw [hinsert] at hread
    exact absurd hread (by decide)
  · exact nofun
  · exact nofun
  · exact nofun
  · rw [update_self, ← s.count_append, htype, ← h.count]
    rfl
  · rw [update_self] at hcontra
    exact absurd hcontra (append_ne_nil_of_right_ne_nil _ (cons_ne_nil d []))

theorem Valid.addWrite (hwrite : writeAllowWrite ≤ s.type d)
    (hchecked : s.type d = .writeConcurrentInsert → settings.checkStatus = true)
    (hothers : ∀ w ∈ C .write, ¬ writeLowPriority ≤ s.type w)
    (halone : writeLowPriority ≤ s.type d → C .write = [] ∧ C .read = []) :
    (s.addWrite d).Consistent settings := by
  refine ⟨_, h.add (q := .write) hf.notMem hf.next rfl rfl (fun _ _ => rfl)
    ⟨?_, fun _ => hwrite, hchecked, fun _ => hothers, fun _ => halone, fun _ => hf.cond, ?_, ?_⟩,
    fun _ hcontra => ?_⟩
  · rintro (hcontra | hcontra) <;> cases hcontra
  · exact nofun
  · rw [update_of_ne (by decide)]
    exact h.count
  · rw [update_self] at hcontra
    exact absurd hcontra (append_ne_nil_of_right_ne_nil _ (cons_ne_nil d []))

end

structure MayWait (settings : LockSettings O) (s : ThrLock D O) (C : LockList → List D)
    (q : LockList) (d : D) : Prop where
  queue : (q = .readWait ∧ s.type d ≤ .readNoInsert) ∨ (q = .writeWait ∧ writeAllowWrite ≤ s.type d)
  checked : s.type d = .writeConcurrentInsert → settings.checkStatus = true
  active : C .read ≠ [] ∨ C .write ≠ []

theorem Valid.addWait (h : s.Valid settings C) (hf : Fresh s C d owner)
    (hwait : MayWait settings s C q d) : (s.addWait q d).Consistent settings := by
  have hread : q ≠ .read := by
    rintro rfl
    rcases hwait.queue with ⟨hcontra, -⟩ | ⟨hcontra, -⟩ <;> cases hcontra
  have hwrite : q ≠ .write := by
    rintro rfl
    rcases hwait.queue with ⟨hcontra, -⟩ | ⟨hcontra, -⟩ <;> cases hcontra
  refine ⟨_, h.add (q := q) hf.notMem hf.next rfl rfl (fun _ he => update_of_ne he _ _)
    ⟨?_, ?_, hwait.checked, ?_, fun hcontra => absurd hcontra hwrite,
      fun hcontra => absurd hcontra hwrite, fun _ => update_self _ _ _, ?_⟩,
    fun hcontra hcontra' => ?_⟩
  · rintro (hcontra | rfl)
    · exact absurd hcontra hread
    · exact hwait.queue.elim And.right fun hcontra => (nomatch hcontra.1)
  · rintro (hcontra | rfl)
    · exact absurd hcontra hwrite
    · exact hwait.queue.elim (fun hcontra => (nomatch hcontra.1)) And.right
  · rintro (hcontra | hcontra)
    · exact absurd hcontra hread
    · exact absurd hcontra hwrite
  · rw [update_of_ne hread.symm]
    exact h.count
  · rw [update_of_ne hread.symm] at hcontra
    rw [update_of_ne hwrite.symm] at hcontra'
    exact absurd hwait.active (by rw [hcontra, hcontra']; simp)

theorem Valid.waitForLock (h : s.Valid settings C) (hf : Fresh s C d owner)
    (hwait : MayWait settings s C q d) :
    (waitForLock settings s q d owner).1.Consistent settings := by
  rw [ThrLock.waitForLock]
  cases (s.first .read).or (s.first .write) with
  | none => exact h.addWait hf hwait
  | some lockOwner =>
    dsimp only
    split_ifs
    · refine ⟨C, h, fun hcontra hcontra' => ?_⟩
      exact absurd hwait.active (by rw [hcontra, hcontra']; simp)
    · exact h.addWait hf hwait

omit [DecidableEq D] in
theorem Awake.active (hawake : Awake C) {w : D} (hw : w ∈ C .writeWait) :
    C .read ≠ [] ∨ C .write ≠ [] := by
  by_contra hnone
  rw [not_or, not_not, not_not] at hnone
  rw [(hawake hnone.1 hnone.2).2] at hw
  cases hw

theorem Valid.lockRead [Fintype D] [DecidableEq O] (h : s.Valid settings C) (hf : Fresh s C d owner)
    (hawake : Awake C) (htype : s.type d = lockType) (hread : lockType ≤ .readNoInsert) :
    (lockRead settings s d owner lockType).1.Consistent settings := by
  have hinsert : s.type d = .writeConcurrentInsert → settings.checkStatus = true := by
    intro hcontra
    rw [← htype, hcontra] at hread
    exact absurd hread (by decide)
  have hqueue : (LockList.readWait = .readWait ∧ s.type d ≤ .readNoInsert) ∨
      (LockList.readWait = .writeWait ∧ writeAllowWrite ≤ s.type d) :=
    .inl ⟨rfl, htype ▸ hread⟩
  rw [ThrLock.lockRead]
  cases hfirst : s.first .write with
  | some w =>
    obtain ⟨l, hl⟩ := h.cons_of_first hfirst
    have hw : w ∈ C .write := hl ▸ mem_cons_self
    dsimp only
    split_ifs with hgrant honly
    · rcases hgrant with howner | ⟨hle, -⟩
      · exact absurd howner.symm (hf.owner .write w hw)
      refine h.addRead hf htype hread fun w' hw' hlow => ?_
      rw [(h.exclusive w' hw' hlow).1, mem_singleton] at hw
      exact not_lowPriority_le hle (hw ▸ hlow)
    · exact h.aborted hf hawake
    · exact h.waitForLock hf ⟨hqueue, hinsert, .inr (ne_nil_of_mem hw)⟩
  | none =>
    have hwrite := h.nil_of_first hfirst
    split_ifs with hgrant
    · exact h.addRead hf htype hread (by simp [hwrite])
    rw [not_or] at hgrant
    have hwaiter : ∃ w, s.first .writeWait = some w := by
      by_contra hnone
      exact hgrant.1 fun w hw => absurd ⟨w, hw⟩ hnone
    obtain ⟨w, hw⟩ := hwaiter
    obtain ⟨l, hl⟩ := h.cons_of_first hw
    exact h.waitForLock hf ⟨hqueue, hinsert, hawake.active (hl ▸ mem_cons_self)⟩

theorem Valid.lockWrite [DecidableEq O] (h : s.Valid settings C) (hf : Fresh s C d owner)
    (hawake : Awake C) (status : D → Bool) (htype : s.type d = lockType)
    (hwrite : writeAllowWrite ≤ lockType)
    (hchecked : lockType = .writeConcurrentInsert → settings.checkStatus = true) :
    (lockWrite settings status s d owner lockType).1.Consistent settings := by
  have hqueue : (LockList.writeWait = .readWait ∧ s.type d ≤ .readNoInsert) ∨
      (LockList.writeWait = .writeWait ∧ writeAllowWrite ≤ s.type d) :=
    .inr ⟨rfl, htype ▸ hwrite⟩
  have hinsert : s.type d = .writeConcurrentInsert → settings.checkStatus = true := htype ▸ hchecked
  rw [lockWrite.eq_def]
  cases hfirst : s.first .write with
  | some w =>
    obtain ⟨l, hl⟩ := h.cons_of_first hfirst
    have hw : w ∈ C .write := hl ▸ mem_cons_self
    dsimp only
    split_ifs with honly hgrant
    · exact h.aborted hf hawake
    · rcases hgrant with howner | ⟨-, hsame, hallow⟩
      · exact absurd howner.symm (hf.owner .write w hw)
      have hlow : ¬ writeLowPriority ≤ lockType := by rcases hallow with rfl | ⟨rfl, -⟩ <;> decide
      refine h.addWrite hf (htype ▸ hwrite) hinsert (fun w' hw' hlow' => ?_) fun hcontra => ?_
      · rw [(h.exclusive w' hw' hlow').1, mem_singleton] at hw
        rw [hsame, hw] at hlow
        exact hlow hlow'
      · exact absurd (htype ▸ hcontra) hlow
    · exact h.waitForLock hf ⟨hqueue, hinsert, .inr (ne_nil_of_mem hw)⟩
  | none =>
    have hnone := h.nil_of_first hfirst
    cases hfirst : s.first .writeWait with
    | some w =>
      obtain ⟨l, hl⟩ := h.cons_of_first hfirst
      exact h.waitForLock hf ⟨hqueue, hinsert, hawake.active (hl ▸ mem_cons_self)⟩
    | none =>
      dsimp only
      generalize hupgraded : (if lockType = .writeConcurrentInsert ∧ status d = true then
        thrUpgradedConcurrentInsertLock else lockType) = upgraded
      have hupgraded : writeAllowWrite ≤ upgraded ∧
          (upgraded = .writeConcurrentInsert → settings.checkStatus = true) := by
        rw [← hupgraded]
        split_ifs
        · exact ⟨by decide, nofun⟩
        · exact ⟨hwrite, hchecked⟩
      have hset := h.setType hf upgraded
      have hfset := hf.setType upgraded
      have htype : (s.setType d upgraded).type d = upgraded := update_self _ _ _
      split_ifs with hgrant
      · refine hset.addWrite hfset (htype.symm ▸ hupgraded.1) (htype.symm ▸ hupgraded.2)
          (by simp [hnone]) fun hlow => ⟨hnone, ?_⟩
        rw [htype] at hlow
        rcases hgrant with hread | ⟨hle, -⟩
        · exact hset.nil_of_first hread
        · exact absurd hlow (not_lowPriority_le hle)
      · rw [not_or] at hgrant
        refine hset.waitForLock hfset ⟨.inr ⟨rfl, htype.symm ▸ hupgraded.1⟩,
          htype.symm ▸ hupgraded.2, .inl fun hread => hgrant.1 ?_⟩
        rw [hset.first_eq, hread]
        rfl

theorem Valid.requestWrite [Fintype D] [DecidableEq O] (h : s.Valid settings C)
    (hf : Fresh s C d owner) (hawake : Awake C) (status : D → Bool) (htype : s.type d = lockType)
    (hwrite : writeAllowWrite ≤ lockType) :
    (requestWrite settings status s d owner lockType).1.Consistent settings := by
  rw [ThrLock.requestWrite]
  split_ifs with hdelayed honly hqueue hupgrade
  · exact h.aborted hf hawake
  · refine h.addWait hf ⟨.inr ⟨rfl, htype ▸ hwrite⟩, fun hcontra => ?_, ?_⟩
    · rw [htype, hdelayed] at hcontra
      cases hcontra
    refine hqueue.2.2.symm.imp (fun hne hnil => hne ?_) fun hne hnil => hne ?_
    · rw [h.first_eq, hnil]
      rfl
    · rw [h.first_eq, hnil]
      rfl
  · refine h.lockWrite hf hawake status htype hwrite fun hcontra => ?_
    rw [hdelayed] at hcontra
    cases hcontra
  · exact (h.setType hf _).lockWrite (hf.setType _) hawake status (update_self _ _ _)
      (by decide) nofun
  · refine h.lockWrite hf hawake status htype hwrite fun hinsert => ?_
    rw [← Bool.not_eq_false]
    exact fun hcontra => hupgrade ⟨hinsert, hcontra⟩

theorem Valid.thrLock [Fintype D] [DecidableEq O] (h : s.Valid settings C) (hawake : Awake C)
    (status : D → Bool) (hd : ∀ q, d ∉ C q) (howner : ∀ q, ∀ e ∈ C q, s.owner e ≠ owner)
    (lockType : LockType) :
    (thrLock settings status s d owner lockType).1.Consistent settings := by
  have hprepare : (s.prepare d owner lockType).Valid settings C :=
    h.of_fresh hd (h.linked.clear_next hd) (fun _ he => update_of_ne he _ _)
      (fun _ he => update_of_ne he _ _) rfl
  have hf : Fresh (s.prepare d owner lockType) C d owner := by
    refine ⟨hd, update_self _ _ _, update_self _ _ _, fun q e he => ?_⟩
    have hne : e ≠ d := ne_of_mem_of_not_mem he (hd q)
    have howner' : (s.prepare d owner lockType).owner e = s.owner e := update_of_ne hne _ _
    rw [howner']
    exact howner q e he
  have htype : (s.prepare d owner lockType).type d = lockType := update_self _ _ _
  rw [ThrLock.thrLock]
  split_ifs with hread
  · exact hprepare.lockRead hf hawake htype hread
  · exact hprepare.requestWrite hf hawake status htype (allowWrite_le hread)

end Requests

/-! ### The other calls -/

omit [DecidableEq D] in
theorem noInsertCount_middle (s : ThrLock D O) (l1 l2 : List D) (d : D) :
    s.noInsertCount (l1 ++ d :: l2) =
      s.noInsertCount (l1 ++ l2) + if s.type d = .readNoInsert then 1 else 0 := by
  rw [← noInsertCount_singleton, ← noInsertCount_append]
  exact List.Perm.countP_eq _ (perm_middle.trans (perm_append_singleton d _).symm)

omit [DecidableEq D] in
theorem Valid.count_unlock (h : s.Valid settings C) {l1 l2 : List D} (hq : C q = l1 ++ d :: l2)
    (hread : s.type d = .readNoInsert → q = .read) :
    (if s.type d = .readNoInsert then s.readNoWriteCount - 1 else s.readNoWriteCount) =
      UInt32.ofNat (s.noInsertCount (update C q (l1 ++ l2) .read)) := by
  rw [h.count]
  by_cases hqread : q = .read
  · subst hqread
    rw [hq, noInsertCount_middle, update_self]
    split_ifs
    · rw [UInt32.ofNat_add]
      exact UInt32.add_sub_cancel _ _
    · rw [Nat.add_zero]
  · rw [if_neg fun hcontra => hqread (hread hcontra), update_of_ne (Ne.symm hqread)]

theorem Valid.thrUnlock [Fintype D] (h : s.Valid settings C) (status : D → Bool)
    (hd : d ∈ C .read ∨ d ∈ C .write ∨ (d ∈ C .writeWait ∧ s.type d = .writeDelayed)) :
    (thrUnlock settings status s d).Consistent settings := by
  have hlist : d ∈ C (s.unlockList d) := by
    rw [unlockList]
    rcases hd with hd | hd | ⟨hd, hdelayed⟩
    · rw [if_pos (h.reads d (.inl hd))]
      exact hd
    · have hwrite := not_le_readNoInsert (h.writes d (.inl hd))
      rw [if_neg hwrite, h.granted d hd, if_neg fun hcontra => (nomatch hcontra.2)]
      exact hd
    · have hwrite := not_le_readNoInsert (h.writes d (.inr hd))
      rw [if_neg hwrite, h.queued d hd, if_pos ⟨hdelayed, rfl⟩]
      exact hd
  have hread : s.type d = .readNoInsert → s.unlockList d = .read := by
    intro hinsert
    rw [unlockList, hinsert]
    exact if_pos (by decide)
  obtain ⟨l1, l2, hq⟩ := append_of_mem hlist
  have hremove := h.remove hq
    (t := { s with
      links := s.links.unlink (s.unlockList d) d
      readNoWriteCount :=
        if s.type d = .readNoInsert then s.readNoWriteCount - 1 else s.readNoWriteCount
      type := update s.type d .unlock })
    rfl (fun _ he => update_of_ne he _ _) (fun _ _ => rfl) (h.count_unlock hq hread)
  exact hremove.wakeUpWaiters status

def IsQueue (q : LockList) : Prop := q = .readWait ∨ q = .writeWait

theorem IsQueue.ne_read (hq : IsQueue q) : LockList.read ≠ q := by
  rcases hq with rfl | rfl <;> decide

theorem Valid.waitAborted [Fintype D] (h : s.Valid settings C) (status : D → Bool)
    (hqueue : IsQueue q) (hd : d ∈ C q) :
    (waitAborted settings status s q d).Consistent settings := by
  obtain ⟨l1, l2, hq⟩ := append_of_mem hd
  have hremove := h.remove hq
    (t := { s with links := s.links.unlink q d, type := update s.type d .unlock })
    rfl (fun _ he => update_of_ne he _ _) (fun _ _ => rfl) (by
      rw [update_of_ne hqueue.ne_read]
      exact h.count)
  exact hremove.wakeUpWaiters status

theorem Valid.abortLocks (threadId : ℕ) (hqueue : IsQueue q) (rest : List D) {n : ℕ}
    {K : List D} (h : s.Valid settings C) (hn : rest.length ≤ n) (hq : C q = K ++ rest) :
    ∃ C', (abortLocks settings threadId q n s rest.head?).Valid settings C' := by
  induction rest generalizing n s C K with
  | nil =>
    have hstop : abortLocks settings threadId q n s none = s := by cases n <;> rfl
    rw [head?_nil, hstop]
    exact ⟨C, h⟩
  | cons d rest ih =>
    obtain ⟨n, rfl⟩ : ∃ k, n = k + 1 := ⟨n - 1, by rw [length_cons] at hn; omega⟩
    have hn : rest.length ≤ n := Nat.le_of_succ_le_succ hn
    have hlist := h.linked.isList q
    rw [hq] at hlist
    have hnext := hlist.link_next nofun
    rw [head?_cons, abortLocks]
    split_ifs
    · have hremove := h.remove hq
        (t := { s with
          type := update s.type d .unlock
          cond := update s.cond d false
          links := s.links.unlink q d })
        rfl (fun _ he => update_of_ne he _ _)
        (fun _ he => update_of_ne he _ _) (by
          rw [update_of_ne hqueue.ne_read]
          exact h.count)
      rw [h.linked.unlink_next hq, hnext]
      exact ih hremove hn (update_self _ _ _)
    · rw [hnext]
      refine ih h hn (K := K ++ [d]) ?_
      rw [hq, append_assoc]
      rfl

theorem Valid.thrAbortLocksForThread [Fintype D] (h : s.Valid settings C) (status : D → Bool)
    (threadId : ℕ) : (thrAbortLocksForThread settings status s threadId).Consistent settings := by
  have hqueue : ∀ {s : ThrLock D O} {C}, s.Valid settings C → ∀ q, IsQueue q →
      ∃ C', (ThrLock.abortLocks settings threadId q (Fintype.card D) s (s.first q)).Valid
        settings C' := by
    intro s C h q hq
    rw [h.first_eq]
    exact h.abortLocks threadId hq (C q) (h.linked.isList q).nodup.length_le_card (K := []) rfl
  obtain ⟨C1, h1⟩ := hqueue h .readWait (.inl rfl)
  obtain ⟨C2, h2⟩ := hqueue h1 .writeWait (.inr rfl)
  exact h2.wakeUpWaiters status

/-! ### Runs -/

inductive LockCall (D O : Type) where
  | lock (status : D → Bool) (d : D) (owner : O) (lockType : LockType)
  | unlock (status : D → Bool) (d : D)
  | waitAborted (status : D → Bool) (q : LockList) (d : D)
  | abortLocksForThread (status : D → Bool) (threadId : ℕ)

variable [Fintype D]

/-- What the callers take care of: an owner has one element in the lists at most, and unlocks an
element that it got. A delayed write lock is got when it is put in the queue. -/
def Enabled (s : ThrLock D O) : LockCall D O → Prop
  | .lock _ d owner lockType => lockType ≠ .unlock ∧
      ∀ q, d ∉ s.links.contents q ∧ ∀ e ∈ s.links.contents q, s.owner e ≠ owner
  | .unlock _ d => d ∈ s.links.contents .read ∨ d ∈ s.links.contents .write ∨
      (d ∈ s.links.contents .writeWait ∧ s.type d = .writeDelayed)
  | .waitAborted _ q d => IsQueue q ∧ d ∈ s.links.contents q
  | .abortLocksForThread _ _ => True

variable [DecidableEq O]

def call (settings : LockSettings O) (s : ThrLock D O) : LockCall D O → ThrLock D O
  | .lock status d owner lockType => (thrLock settings status s d owner lockType).1
  | .unlock status d => thrUnlock settings status s d
  | .waitAborted status q d => waitAborted settings status s q d
  | .abortLocksForThread status threadId => thrAbortLocksForThread settings status s threadId

omit [DecidableEq D] [Fintype D] [DecidableEq O] in
def thrLockInit (s : ThrLock D O) : ThrLock D O :=
  { s with
    links :=
      { s.links with
        link := fun
          | .head _ => none
          | .next d => s.links.link (.next d)
        last := .head }
    readNoWriteCount := 0
    writeLockCount := 0 }

inductive Reachable (settings : LockSettings O) : ThrLock D O → Prop where
  | init (s : ThrLock D O) : Reachable settings s.thrLockInit
  | call {s : ThrLock D O} (h : Reachable settings s) (c : LockCall D O) (hc : s.Enabled c) :
      Reachable settings (s.call settings c)

omit [DecidableEq D] [Fintype D] [DecidableEq O] in
theorem consistent_init (settings : LockSettings O) (s : ThrLock D O) :
    s.thrLockInit.Consistent settings := by
  refine ⟨fun _ => [], ⟨⟨fun q => ⟨trivial, rfl, fun _ => rfl, nodup_nil⟩,
    fun _ _ _ => disjoint_nil_left _⟩, ?_, ?_, ?_, rfl, ?_, ?_, ?_⟩, fun _ _ => ⟨rfl, rfl⟩⟩ <;>
  simp

theorem Consistent.step (h : s.Consistent settings) {c : LockCall D O} (hc : s.Enabled c) :
    (s.call settings c).Consistent settings := by
  obtain ⟨C, hvalid, hawake⟩ := h
  have hcontents := hvalid.linked.contents_eq
  cases c with
  | lock status d owner lockType =>
    simp only [Enabled, hcontents] at hc
    exact hvalid.thrLock hawake status (fun q => (hc.2 q).1) (fun q => (hc.2 q).2) lockType
  | unlock status d =>
    simp only [Enabled, hcontents] at hc
    exact hvalid.thrUnlock status hc
  | waitAborted status q d =>
    simp only [Enabled, hcontents] at hc
    exact hvalid.waitAborted status hc.1 hc.2
  | abortLocksForThread status threadId => exact hvalid.thrAbortLocksForThread status threadId

theorem Reachable.consistent (h : Reachable settings s) : s.Consistent settings := by
  induction h with
  | init s => exact consistent_init settings s
  | call _ c hc ih => exact ih.step hc

def active (s : ThrLock D O) : List D := s.links.contents .read ++ s.links.contents .write

/-- In all states that calls lead to, the four lists are doubly linked with tail pointers and have
no common elements, an exclusive lock is the only active one, the readers that do not allow inserts
are counted, and no one waits if there is no active lock. -/
theorem reachable_spec (h : Reachable settings s) :
    (∀ q, s.links.IsList none q (s.links.contents q)) ∧
    (∀ q q', q ≠ q' → (s.links.contents q).Disjoint (s.links.contents q')) ∧
    (∀ d ∈ s.active, writeLowPriority ≤ s.type d → s.active = [d]) ∧
    s.readNoWriteCount = UInt32.ofNat (s.active.countP fun d => s.type d = .readNoInsert) ∧
    (s.active = [] → s.links.contents .readWait = [] ∧ s.links.contents .writeWait = []) := by
  obtain ⟨C, hvalid, hawake⟩ := h.consistent
  have hcontents := hvalid.linked.contents_eq
  simp only [active, hcontents]
  refine ⟨hvalid.linked.isList, hvalid.linked.disjoint, fun d hd hlow => ?_, ?_, fun hnone => ?_⟩
  · rcases mem_append.mp hd with hd | hd
    · have hread : s.type d ≤ .writeDelayed :=
        Nat.le_trans (hvalid.reads d (.inl hd)) (by decide)
      exact absurd hlow (not_lowPriority_le hread)
    obtain ⟨hwrite, hread⟩ := hvalid.exclusive d hd hlow
    rw [hwrite, hread]
    rfl
  · have hwrite : (C .write).countP (fun d => s.type d = .readNoInsert) = 0 := by
      rw [countP_eq_zero]
      intro d hd hcontra
      have hle := hvalid.writes d (.inl hd)
      rw [of_decide_eq_true hcontra] at hle
      exact absurd hle (by decide)
    rw [countP_append, hwrite]
    exact hvalid.count
  · rw [append_eq_nil_iff] at hnone
    exact hawake hnone.1 hnone.2

def twoInstances : ThrLock (Fin 2) (Fin 2) where
  links := ⟨fun _ => none, fun _ => .head .read, fun _ => .head .read⟩
  type := fun _ => .unlock
  owner := fun _ => 0
  cond := fun _ => false
  readNoWriteCount := 0
  writeLockCount := 0

def plainSettings : LockSettings (Fin 2) where
  info := fun owner => owner
  threadId := id
  checkStatus := false
  allowMultipleConcurrentInsert := false
  maxWriteLockCount := 0

/-- One owner writes and another one waits to read. -/
def writerAndReader : ThrLock (Fin 2) (Fin 2) :=
  (twoInstances.thrLockInit.call plainSettings (.lock (fun _ => false) 0 0 .write)).call
    plainSettings (.lock (fun _ => false) 1 1 .readNoInsert)

theorem reachable_spec_writerAndReader :
    Reachable plainSettings writerAndReader ∧ writerAndReader.active = [0] ∧
    (∀ q, writerAndReader.links.IsList none q (writerAndReader.links.contents q)) := by
  have hreachable : Reachable plainSettings writerAndReader := by
    have hfirst : Reachable plainSettings _ := (Reachable.init twoInstances).call
      (.lock (fun _ => false) 0 0 .write) ⟨by decide, fun q => by cases q <;> decide⟩
    exact hfirst.call (.lock (fun _ => false) 1 1 .readNoInsert)
      ⟨by decide, fun q => by cases q <;> decide⟩
  exact ⟨hreachable, by decide, (reachable_spec hreachable).1⟩

end ThrLock

end LibSources
