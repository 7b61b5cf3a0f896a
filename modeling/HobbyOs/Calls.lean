import HobbyOs.Effect

/-!
# The calls that block, exit, or take the caller's lock

How each of these system calls ends (`CallResult`), by evaluating it: the locks
it takes are free, so every `acquire` succeeds, but for the one of the caller's
own lock.
-/

namespace HobbyOs

open Outcome

variable {cfg : Config} {α β : Type}

/-! ## Locks that are free -/

/-- A body that keeps the locks, within a lock that is free. -/
theorem withLock_ok {l : Lock cfg} {m : KM cfg α} {k t : Kernel cfg} {a : α}
    (hl : k.held l = false) (hm : m (k.setHeld l true) = .ok a t)
    (hh : t.held = (k.setHeld l true).held) :
    ∃ u, withLock l m k = .ok a u ∧ u.core = t.core ∧ u.held = k.held := by
  refine ⟨t.setHeld l false, ?_, rfl, ?_⟩
  · rw [withLock, bind_ok (acquire_ok hl), bind_ok hm]
    rfl
  · show Function.update t.held l false = _
    rw [hh]
    exact update_held_self hl

theorem releasePage_ok {k : Kernel cfg} (hl : k.held .pagedMemory = false) (ptr : ℕ) :
    ∃ k', releasePage ptr k = .ok () k' ∧ k'.core = k.core ∧ k'.held = k.held :=
  ⟨_, releasePage_apply hl ptr, rfl, rfl⟩

/-! ## Exited children -/

variable {p q : Slot cfg} {k : Kernel cfg} {call : Kont cfg}

/-- `check_exited_children` at one slot, whose lock is free if it is a child. -/
theorem reapSlot_result (call : Kont cfg) (hp : k.held .pagedMemory = false)
    (hq : (k.core.procs q).parent = some p → k.held (.proc q) = false) :
    ((∃ k', reapSlot p call q k = .ok none k' ∧ k'.core = k.core ∧ k'.held = k.held) ∧
      ¬((k.core.procs q).parent = some p ∧ (k.core.procs q).state = .zombie)) ∨
    ((∃ k', reapSlot p call q k = .ok (some (int32 (k.core.procs q).pid)) k' ∧
        k'.core = k.core.setState q .available (.reap call) ∧ k'.held = k.held) ∧
      (k.core.procs q).parent = some p ∧ (k.core.procs q).state = .zombie) := by
  simp only [reapSlot, get_bind_apply]
  by_cases hpar : (k.procs q).parent = some p
  · rw [if_pos hpar]
    by_cases hz : (k.procs q).state = .zombie
    · right
      refine ⟨?_, hpar, hz⟩
      obtain ⟨k₁, h₁, hc₁, hh₁⟩ := releasePage_ok (k := k.setHeld (.proc q) true)
        (by simpa [Kernel.setHeld] using hp) (k.procs q).kstackPage
      obtain ⟨k', h', hc', hh'⟩ := withLock_ok (m := do
          let x := (← get).procs q
          if x.state = .zombie then
            releasePage x.kstackPage
            setState q .available (.reap call)
            return some (int32 x.pid)
          else return none) (t := k₁.setState q .available (.reap call))
        (a := some (int32 (k.procs q).pid)) (hq hpar) (by
          simp only [get_bind_apply]
          rw [if_pos (by exact hz)]
          exact bind_ok h₁) (by simpa using hh₁)
      refine ⟨k', h', ?_, hh'⟩
      rw [hc', Kernel.setState_core, hc₁]
      rfl
    · -- Not a zombie: the lock is taken and released, and nothing else.
      left
      refine ⟨?_, fun h => hz h.2⟩
      refine withLock_ok (t := k.setHeld (.proc q) true) (hq hpar) ?_ rfl
      simp only [get_bind_apply]
      rw [if_neg (by exact hz)]
      rfl
  · left
    rw [if_neg hpar]
    exact ⟨⟨k, rfl, rfl, rfl⟩, fun h => hpar h.1⟩

/-- `check_exited_children` frees one child that has exited, if there is one. -/
theorem checkExitedChildren_result (call : Kont cfg) (hk : ∀ l ∈ others p, k.held l = false)
    (hpar : (k.core.procs p).parent ≠ some p) :
    ∃ pid k', checkExitedChildren p call k = .ok pid k' ∧ Reaps p call k.core k'.core pid ∧
      k'.held = k.held := by
  -- The loop over the slots stops at the first child that has exited; the slots before
  -- it have been only looked at.
  have hloop : ∀ l : List (Slot cfg), ∀ k₀ : Kernel cfg, k₀.core = k.core → k₀.held = k.held →
      ((∃ k', l.findSomeM? (reapSlot p call) k₀ = .ok none k' ∧ k'.core = k.core ∧ k'.held = k.held) ∧
        ∀ q ∈ l, ¬((k.core.procs q).parent = some p ∧ (k.core.procs q).state = .zombie)) ∨
      ∃ pid k', l.findSomeM? (reapSlot p call) k₀ = .ok (some pid) k' ∧
        Reaps p call k.core k'.core pid ∧ k'.held = k.held := by
    intro l
    induction l with
    | nil => exact fun k₀ hc hh => .inl ⟨⟨k₀, rfl, hc, hh⟩, by simp⟩
    | cons q l ih =>
      intro k₀ hc hh
      have hq : (k₀.core.procs q).parent = some p → k₀.held (.proc q) = false := by
        intro h
        rw [hc] at h
        rw [hh]
        refine hk _ (proc_mem_others.2 ?_)
        rintro rfl
        exact hpar h
      rcases reapSlot_result call (by rw [hh]; exact hk _ (by simp)) hq with
        ⟨⟨k', h, hc', hh'⟩, hn⟩ | ⟨⟨k', h, hc', hh'⟩, hpq, hz⟩
      · rw [List.findSomeM?_cons, bind_ok h]
        rcases ih k' (hc'.trans hc) (hh'.trans hh) with ⟨hr, hall⟩ | hr
        · refine .inl ⟨hr, fun r hr => ?_⟩
          rcases List.mem_cons.1 hr with rfl | hr
          · rw [hc] at hn
            exact hn
          · exact hall r hr
        · exact .inr hr
      · rw [List.findSomeM?_cons, bind_ok h]
        rw [hc] at hpq hz hc'
        refine .inr ⟨_, k', rfl, ?_, hh'.trans hh⟩
        rw [hc', hc]
        exact .one hpq hz
  rw [checkExitedChildren]
  rcases hloop (List.finRange cfg.maxProcs) k rfl
    rfl with ⟨⟨k', h, hc, hh⟩, hall⟩ | ⟨pid, k', h, hr, hh⟩
  · rw [bind_ok h]
    refine ⟨-1, k', rfl, ?_, hh⟩
    rw [hc]
    exact .none fun q hq hz => hall q (List.mem_finRange q) ⟨hq, hz⟩
  · rw [bind_ok h]
    exact ⟨pid, k', rfl, hr, hh⟩

/-! ## Calls by their rules -/

namespace CallResult

variable {c : Call} {m : KM cfg α}

/-- A call that wakes sleepers, and does not take the caller's lock. -/
theorem of_quiet (hk : Calm p k) (hc : ¬TakesOwn p k c) (hm : Quiet (others p) m) :
    CallResult p k c (m k) := by
  rcases hm.result hk.free hk.sleepers with ⟨a, k', h, hw, hh⟩ | ⟨e, k', h, he, hw⟩
  · rw [h]
    exact .back (.quiet (by decide) hw) (by rw [hh]; exact hk.free) fun h => hc h.1
  · rw [h]
    exact .halt he (.quiet (by decide) hw) fun h => hc h.1

theorem of_still (hk : Calm p k) (hc : ¬TakesOwn p k c) (hm : Still (others p) m) :
    CallResult p k c (m k) := of_quiet hk hc hm.quiet

/-- A call that blocks in `proc_yield`. -/
theorem of_yields (hk : Calm p k) (hc : ¬TakesOwn p k c) (ht : c.isTransfer = true) (hm : Yields p m) :
    CallResult p k c (m k) := by
  have h := hm k hk
  revert h
  generalize m k = r
  intro h
  cases h with
  | ok hw hh => exact .back (.quiet (by decide) hw) (by rw [hh]; exact hk.free) fun h => hc h.1
  | halt he hw => exact .halt he (.quiet (by decide) hw) fun h => hc h.1
  | yield hw hy hs hh =>
    exact .away (by rw [hs]; exact .yield ht hw hy) (by rw [hh]; exact hk.free) fun h => hc h.1

/-- A call that blocks in `psleep`, its fields set before. -/
theorem of_psleep (hk : Calm p k) (hc : ¬TakesOwn p k c) {t : Kernel cfg} {call : Kont cfg}
    (hh : t.held = k.held) (he : CallEffect p k c .away (t.core.sleep p id t.trapFrame call)) :
    CallResult p k c ((psleep p call : KM cfg α) t) := by
  obtain ⟨k', h, hs, hh'⟩ := psleep_apply (α := α) p call t
  rw [h]
  exact .away (by rw [hs]; exact he) (by rw [hh', hh]; exact hk.free) fun h => hc h.1

end CallResult

/-! ## Waiting -/

theorem procWaitChild_result (hk : Calm p k) (hpar : (k.core.procs p).parent ≠ some p) (cond : ℕ) :
    CallResult p k (.wait cond) (procWaitChild p k) := by
  obtain ⟨pid, k₁, h₁, hr, hh⟩ := checkExitedChildren_result .waitChild hk.free hpar
  rw [procWaitChild, bind_ok h₁]
  by_cases hpid : 0 ≤ pid
  · simp only [if_pos hpid, get_bind_apply]
    have huid : (k₁.procs p).uid = (k.core.procs p).uid := hr.uid_eq p
    rw [huid]
    exact .back (.waited hr hpid) (by intro l hl; exact hh ▸ hk.free l hl) fun h => h.1
  · simp only [if_neg hpid]
    exact .of_psleep hk id hh (.wait hr (by omega))

theorem findProcByPid_some {pid : ℕ} (h : findProcByPid k pid = some q) :
    (k.core.procs q).pid = pid := by
  simpa [Kernel.core_procs] using List.find?_some h

theorem procWaitByCond_result (hk : Calm p k) (cond type targetPid want : ℕ) :
    CallResult p k (.wait cond) (procWaitByCond p type targetPid want k) := by
  rw [procWaitByCond]
  by_cases ht : type ≠ waitCondNscheds
  · simp only [if_pos ht]
    exact .of_still hk id (still_setErrno.bind fun _ => Still.pure _)
  simp only [if_neg ht, get_bind_apply]
  cases hq : findProcByPid k targetPid with
  | none => exact .of_still hk id (still_setErrno.bind fun _ => Still.pure _)
  | some q =>
    refine .of_psleep (t := k.setProc p _) hk id rfl ?_
    rw [Kernel.setProc_core, Core.sleep, Core.update_id]
    have hpid := findProcByPid_some hq
    subst hpid
    exact .waitCond

theorem procWait_result (hk : Calm p k) (hpar : (k.core.procs p).parent ≠ some p) (cond : ℕ) :
    CallResult p k (.wait cond) (procWait p cond k) := by
  simp only [procWait, get_bind_apply]
  split
  · exact procWaitByCond_result hk _ _ _ _
  · exact procWaitChild_result hk hpar cond

theorem procSleep_result (hk : Calm p k) (ms : ℕ) :
    CallResult p k (.sleep ms) (procSleep p ms k) := by
  refine .of_psleep (t := k.setProc p _) hk id rfl ?_
  rw [Kernel.setProc_core, Core.sleep, Core.update_id]
  exact .sleep

/-! ## Exit -/

/-- `proc_exit` makes the parent ready, whatever it was. -/
theorem wakeParent_ok {r : Slot cfg} (hl : k.held (.proc r) = false) (x : Proc cfg) :
    ∃ k', wakeParent x r k = .ok () k' ∧
      k'.core = k.core.setState r .ready (.exitParent x.uid x.forker) ∧ k'.held = k.held := by
  obtain ⟨k', h, hc, hh⟩ := withLock_ok (m := do
      setState r .ready (.exitParent x.uid x.forker)
      modify fun k : Kernel cfg => { k with trapFrame := (k.procs r).trap }) hl rfl rfl
  refine ⟨k', h, ?_, hh⟩
  rw [hc]
  exact Kernel.setState_core _ _ _ _

theorem quiet_closeFiles {L : Set (Lock cfg)} (ht : .procTable ∈ L) (hp : .pagedMemory ∈ L)
    (hi : ∀ i, .pipe i ∈ L) (files : Fin maxProcFds → Option FileRef) :
    Quiet L (closeFiles files : KM cfg Unit) := by
  refine Quiet.forM fun i => ?_
  split
  · exact Quiet.pure _
  · exact quiet_fsFreeFile ht hp hi

/-- The end of `proc_exit` goes to the scheduler, unless the files in `/proc`
    are missing. -/
theorem leaveTable_result (hl : k.held .procTable = false) (x : Proc cfg) :
    (∃ k', leaveTable p x k = .error .switch k' ∧
      k'.core = { k.core.update p fun x => { x with ctx := .exited } with
        numProcs := k.core.numProcs - 1 } ∧ k'.held = k.held) ∨
    leaveTable p x k = .error .fault k := by
  rw [leaveTable]
  cases hd : x.procfsDir with
  | none => exact .inr rfl
  | some d =>
    cases hj : x.procfsNameFile with
    | none => exact .inr rfl
    | some j =>
      left
      simp only [modify_bind_apply]
      obtain ⟨k₁, h₁, hc₁, hh₁⟩ := withLock_ok
        (m := (modify fun k => { k with numProcs := k.numProcs - 1 } : KM cfg Unit))
        (k := { k with
          dirs := Function.update k.dirs d { k.dirs d with flags := 0 }
          bfiles := Function.update k.bfiles j { k.bfiles j with flags := 0 } })
        hl (modify_apply _ _) rfl
      rw [bind_ok h₁]
      refine ⟨_, rfl, ?_, hh₁⟩
      rw [Kernel.setProc_core_of (f := fun x => { x with ctx := .exited }) rfl, hc₁]
      rfl

/-- The second half of `proc_exit`, from the kernel with the process a zombie. -/
theorem exitTail_result {t : Kernel cfg} (hk : Calm p k)
    (hpar : (k.core.procs p).parent ≠ some p) (hc : t.core = k.core.setState p .zombie .exit)
    (hh : t.held = k.held) :
    CallResult p k .exit ((match (t.procs p).parent with
      | none => throw .nullProcess
      | some r => do
        wakeParent (t.procs p) r
        closeFiles (t.procs p).files
        leaveTable p (t.procs p) : KM cfg ℤ) t) := by
  have hx : (t.procs p).toPCore = { k.core.procs p with state := .zombie } := by
    rw [← Kernel.core_procs, hc]
    simp
  have hparent : (t.procs p).parent = (k.core.procs p).parent := by rw [hx]
  cases hr : (t.procs p).parent with
  | none =>
    refine .halt (e := .nullProcess) trivial ?_ fun h => h.1
    rw [hc]
    exact .orphan (hparent ▸ hr)
  | some r =>
    have hr' : (k.core.procs p).parent = some r := hparent ▸ hr
    have hrp : r ≠ p := fun h => hpar (h ▸ hr')
    obtain ⟨k₄, h₄, hc₄, hh₄⟩ := wakeParent_ok (k := t) (r := r)
      (by rw [hh]; exact hk.free _ (by simpa using hrp)) (t.procs p)
    rw [hc, hx] at hc₄
    have hk₄ : Calm p k₄ := ⟨by rw [hh₄, hh]; exact hk.free, by simp [hc₄, hrp.symm]⟩
    simp only [bind_ok h₄]
    -- The files are closed with no lock held but that of the process, which is a
    -- zombie by now.
    rcases (quiet_closeFiles (L := others p) (by simp) (by simp) (by simp)
      (t.procs p).files).result hk₄.free hk₄.sleepers with
      ⟨_, k₅, h₅, hw, hh₅⟩ | ⟨e, k₅, h₅, he, hw⟩
    · rw [hc₄] at hw
      rw [bind_ok h₅]
      rcases leaveTable_result (p := p) (k := k₅) (by rw [hh₅]; exact hk₄.free _ (by simp))
        (t.procs p) with ⟨k₆, h₆, hc₆, hh₆⟩ | h₆
      · rw [h₆]
        exact .away (by rw [hc₆]; exact .exited hr' hw)
          (by rw [hh₆, hh₅]; exact hk₄.free) fun h => h.1
      · rw [h₆]
        exact .halt (e := .fault) trivial (.exiting hr' hw) fun h => h.1
    · rw [hc₄] at hw
      rw [bind_error h₅]
      exact .halt he (.exiting hr' hw) fun h => h.1

theorem procExit_result (hk : Calm p k) (hpar : (k.core.procs p).parent ≠ some p) :
    CallResult p k .exit (procExit p k) := by
  obtain ⟨k₁, h₁, hc₁, hh₁⟩ := releasePage_ok (hk.free _ (by simp)) (k.procs p).stackPage
  simp only [procExit, get_bind_apply]
  rw [bind_ok h₁]
  simp only [get_bind_apply]
  have hk₁ : Calm p k₁ := hk.same hc₁ hh₁
  rcases (still_freePageTable (L := others p) (by simp)).result (k := k₁) hk₁.free with
    ⟨_, k₂, h₂, hc₂, hh₂⟩ | ⟨e, k₂, h₂, he, hc₂⟩
  · rw [bind_ok h₂]
    have hc : k₂.core = k.core := hc₂.trans hc₁
    have hh : k₂.held = k.held := hh₂.trans hh₁
    refine exitTail_result (t := k₂.setState p .zombie .exit) hk hpar ?_ hh
    rw [Kernel.setState_core, hc]
  · rw [bind_error h₂]
    exact .halt he (by rw [hc₂, hc₁]; exact .quiet (by decide) .refl) fun h => h.1

/-! ## Calls that take the caller's lock -/

namespace CallResult

variable {c : Call} {m : KM cfg α}

/-- A call that takes the caller's lock, which is free. -/
theorem of_still_own (hk : Calm p k) (hl : k.held (.proc p) = false) (hm : Still Set.univ m) :
    CallResult p k c (m k) := by
  have hfree : ∀ l ∈ (Set.univ : Set (Lock cfg)), k.held l = false := by
    intro l _
    by_cases h : l = .proc p
    · rw [h, hl]
    · exact hk.free l h
  rcases hm.result hfree with ⟨a, k', h, hc, hh⟩ | ⟨e, k', h, he, hc⟩
  · rw [h]
    exact .back (by rw [hc]; exact .quiet (by decide) .refl) (by rw [hh]; exact hk.free)
      fun h => by simp [hl] at h
  · rw [h]
    exact .halt he (by rw [hc]; exact .quiet (by decide) .refl) fun h => by simp [hl] at h

/-- A call that starts by taking the caller's lock, which is held. -/
theorem of_held {f : Unit → KM cfg α} (ht : TakesOwn p k c) (hl : k.held (.proc p) = true) :
    CallResult p k c ((acquire (.proc p) >>= f) k) := by
  rw [bind_error (acquire_deadlock hl)]
  exact .deadlock rfl ht hl

end CallResult

/-! ### open -/

/-- `fs_alloc_file` finds a file object if one is free. -/
theorem fsAllocFile_result (hl : k.held .ftable = false) :
    ∃ f k', fsAllocFile k = .ok f k' ∧ k'.core = k.core ∧ k'.held = k.held ∧
      (f.isSome ↔ ∃ i, (k.files (.ftable i)).refcount = 0) := by
  have hbody : ∃ k', takeFile (freeFile k) (k.setHeld .ftable true) =
      .ok ((freeFile k).map .ftable) k' ∧ k'.core = k.core ∧
        k'.held = (k.setHeld .ftable true).held := by
    cases freeFile k <;> exact ⟨_, rfl, rfl, rfl⟩
  obtain ⟨k₁, h₁, hc₁, hh₁⟩ := hbody
  obtain ⟨k', h, hc, hh⟩ := withLock_ok (m := do takeFile (freeFile (← get))) hl h₁ hh₁
  exact ⟨_, k', h, hc.trans hc₁, hh, by simp [freeFile]⟩

theorem procOpen_result (hk : Calm p k) (path : ℕ) :
    CallResult p k (.open path) (procOpen p path k) := by
  cases hl : k.held (.proc p) with
  | false => exact .of_still_own hk hl (still_procOpen (by simp) (by simp) (by simp))
  | true =>
    simp only [procOpen, get_bind_apply]
    by_cases hpath : va2pa k (k.procs p).upagetable path = 0
    · rw [if_pos hpath]
      exact .of_still hk (fun h => h.1 hpath) (still_setErrno.bind fun _ => Still.pure _)
    rw [if_neg hpath]
    obtain ⟨f, k₁, h₁, hc₁, hh₁, hf⟩ := fsAllocFile_result (hk.free .ftable (by simp))
    rw [bind_ok h₁]
    cases f with
    | none =>
      have hno : ¬TakesOwn p k (.open path) := fun h => by simpa using hf.2 h.2
      refine .back ?_ (by intro l hl; exact (congrFun hh₁ l).trans (hk.free l hl)) fun h => hno h.1
      exact .quiet (by decide) (hc₁ ▸ .refl)
    | some f =>
      have ht : TakesOwn p k (.open path) := ⟨hpath, hf.1 rfl⟩
      simp only [openFile, withLock]
      rw [bind_error (acquire_deadlock (by rw [hh₁, hl]))]
      exact .deadlock hc₁ ht hl

/-! ### detach -/

theorem procDetach_result (hk : Calm p k) (hpar : (k.core.procs p).parent ≠ some p) :
    CallResult p k .detach (procDetach p k) := by
  simp only [procDetach, get_bind_apply]
  cases hr : (k.procs p).parent with
  | none => exact .of_still hk (fun h => h hr) (Still.pure _)
  | some r =>
    have ht : TakesOwn p k .detach := by simp [TakesOwn, hr]
    have hr' : (k.core.procs p).parent = some r := hr
    have hrp : r ≠ p := fun h => hpar (h ▸ hr')
    cases hl : k.held (.proc p) with
    | true =>
      have h : withLock (.proc p) (modifyProc p fun x => { x with parent := none }) k =
          .error (.deadlock (.proc p)) k := by
        rw [withLock, bind_error (acquire_deadlock hl)]
      simp only [bind_error h]
      exact .deadlock rfl ht hl
    | false =>
      have hnot : ¬(TakesOwn p k .detach ∧ k.held (.proc p) = true) := fun h => by simp [hl] at h
      obtain ⟨k₁, h₁, hc₁, hh₁⟩ :=
        withLock_ok (m := modifyProc p fun x => { x with parent := none })
        hl (modify_apply _ _) rfl
      rw [Kernel.setProc_core_of (f := fun x => { x with parent := none }) rfl] at hc₁
      simp only [bind_ok h₁]
      have hlr : k₁.held (.proc r) = false := by rw [hh₁]; exact hk.free _ (by simpa using hrp)
      have hstate : (k₁.procs r).toPCore = k.core.procs r := by
        rw [← Kernel.core_procs, hc₁]
        simp [hrp]
      -- Both branches take and release the lock of the parent; only the wake-up
      -- differs.
      by_cases hs : (k.core.procs r).state = .sleeping
      · obtain ⟨k₂, h₂, hc₂, hh₂⟩ := withLock_ok (m := do
            if ((← get).procs r).state = .sleeping then
              setState r .ready (.detach (k.procs p).uid (k.procs p).forker))
          (t := (k₁.setHeld (.proc r) true).setState r .ready
            (.detach (k.procs p).uid (k.procs p).forker)) hlr
          (by
            simp only [get_bind_apply]
            rw [if_pos (by rw [← hs, ← hstate]; rfl)]
            rfl) rfl
        rw [bind_ok h₂]
        refine .back ?_ (by rw [hh₂, hh₁]; exact hk.free) hnot
        rw [hc₂, Kernel.setState_core, Kernel.setHeld_core, hc₁]
        exact .detachedWake hr' hs
      · obtain ⟨k₂, h₂, hc₂, hh₂⟩ := withLock_ok (m := do
            if ((← get).procs r).state = .sleeping then
              setState r .ready (.detach (k.procs p).uid (k.procs p).forker))
          (t := k₁.setHeld (.proc r) true) hlr
          (by
            simp only [get_bind_apply]
            rw [if_neg (by rw [← hstate] at hs; exact hs)]
            rfl) rfl
        rw [bind_ok h₂]
        refine .back ?_ (by rw [hh₂, hh₁]; exact hk.free) hnot
        rw [hc₂, Kernel.setHeld_core, hc₁]
        exact .detached hr' hs

/-! ### pipeattch -/

/-- The second half of `proc_pipeattch`, with the caller's lock given back. -/
theorem attachPipe_result {q : Slot cfg} {f : FileRef} (hl : k.held (.proc q) = false) :
    ∃ a k', attachPipe p q f k = .ok a k' ∧ k'.held = k.held ∧ (k'.core = k.core ∨
      k'.core = k.core.update q fun x => { x with chan := (k.files f).fsFile.chan }) := by
  rw [attachPipe, bind_ok (acquire_ok hl)]
  simp only [get_bind_apply]
  have hheld : Function.update (Function.update k.held (.proc q) true) (.proc q) false = k.held :=
    update_held_self hl
  split
  · refine ⟨-1, _, rfl, hheld, .inl ?_⟩
    rfl
  · refine ⟨0, _, rfl, hheld, .inr ?_⟩
    exact Kernel.setProc_core_of (k := k) rfl

/-- `proc_pipeattch` once the file is there, with the caller's lock given back. -/
theorem attachTail_result {pid : ℕ} {fd : ℤ} {f : FileRef} {k₂ : Kernel cfg} (hk : Calm p k)
    (hl : k.held (.proc p) = false)
    (ht : ∀ q, findProcByPid k pid = some q → attachTarget p k pid fd = some (q, f))
    (hc : k₂.core = k.core) (hh : k₂.held = k.held) (hp : findProcByPid k₂ pid = findProcByPid k pid)
    (hf : (k₂.files f).fsFile = (k.files f).fsFile) :
    CallResult p k (.pipeattch pid fd) ((match findProcByPid k₂ pid with
      | none => do
        dropRef f
        setErrno p ESRCH
        return -1
      | some q => attachPipe p q f : KM cfg ℤ) k₂) := by
  have hnot : ¬(TakesOwn p k (.pipeattch pid fd) ∧ k.held (.proc p) = true) := by simp [hl]
  rw [hp]
  cases hq : findProcByPid k pid with
  | none =>
    refine .back ?_ (by intro l h; exact (congrFun hh l).trans (hk.free l h)) hnot
    exact .quiet (by decide) (hc ▸ .refl)
  | some q =>
    -- The process may attach to itself: its own lock has been released.
    have hlq : k₂.held (.proc q) = false := by
      rw [hh]
      by_cases h : q = p
      · rw [h, hl]
      · exact hk.free _ (by simpa using h)
    obtain ⟨a, k', h', hh', hc'⟩ := attachPipe_result (p := p) (f := f) hlq
    dsimp only
    rw [h']
    refine .back ?_ (by rw [hh', hh]; exact hk.free) hnot
    rw [hc, hf] at hc'
    rcases hc' with hc' | hc'
    · rw [hc']
      exact .quiet (by decide) .refl
    · rw [hc']
      exact .attached (ht q hq)

theorem procPipeattch_result (hk : Calm p k) (pid : ℕ) (fd : ℤ) :
    CallResult p k (.pipeattch pid fd) (procPipeattch p pid fd k) := by
  cases hl : k.held (.proc p) with
  | true => exact .of_held trivial hl
  | false =>
    have hnot : ¬(TakesOwn p k (.pipeattch pid fd) ∧ k.held (.proc p) = true) := by simp [hl]
    rw [procPipeattch, bind_ok (acquire_ok hl)]
    by_cases hfd : 0 ≤ fd ∧ fd.toNat < maxProcFds
    · have h₁ : fileOf p fd (k.setHeld (.proc p) true) =
          .ok ((k.procs p).files ⟨fd.toNat, hfd.2⟩) (k.setHeld (.proc p) true) := by
        rw [fileOf, dif_pos hfd]
        rfl
      rw [bind_ok h₁]
      cases hf : (k.procs p).files ⟨fd.toNat, hfd.2⟩ with
      | none =>
        refine .back (.quiet (by decide) .refl) ?_ hnot
        intro l h
        exact (Function.update_of_ne h _ _).trans (hk.free l h)
      | some f =>
        refine attachTail_result hk hl ?_ rfl (update_held_self hl) rfl
          (by simp [Kernel.setHeld, Kernel.setFile])
        intro q hq
        simp [attachTarget, hfd, hq, hf]
    · have h₁ : fileOf p fd (k.setHeld (.proc p) true) =
          .error .outOfBounds (k.setHeld (.proc p) true) := by
        rw [fileOf, dif_neg hfd]
        rfl
      rw [bind_error h₁]
      exact .halt (e := .outOfBounds) trivial (.quiet (by decide) .refl) hnot

/-! ### execv -/

/-- The core but for the saved registers of `p`. -/
def Reframed (p : Slot cfg) (k k' : Kernel cfg) : Prop :=
  ∃ frame, k'.core = k.core.update p fun x => { x with trap := frame }

theorem Reframed.trans {a b c : Kernel cfg} (h : Reframed p a b) (h' : Reframed p b c) :
    Reframed p a c := by
  obtain ⟨_, h⟩ := h
  obtain ⟨frame, h'⟩ := h'
  refine ⟨frame, ?_⟩
  rw [h', h, Core.update_update]

theorem SameCore.reframed {k k' : Kernel cfg} (h : SameCore k k') : Reframed p k k' := by
  refine ⟨(k.core.procs p).trap, ?_⟩
  rw [show k'.core = k.core from h]
  exact (Core.update_id _ p).symm

/-- All locks but that of `p` are free. -/
def OthersFree (p : Slot cfg) (k : Kernel cfg) : Prop := ∀ l ∈ others p, k.held l = false

/-- `m` may change the saved registers of `p`, and keeps no lock but maybe that
    of `p`. -/
def Reframes (p : Slot cfg) (m : KM cfg α) : Prop :=
  Along (Reframed p) (OthersFree p) (fun _ => OthersFree p) Stop.isHalt m

theorem Still.reframes {m : KM cfg α} (hm : Still (others p) m) : Reframes p m := by
  intro k
  refine ⟨(hm (fun _ => false) (fun _ _ => rfl) k).1.reframed, fun hk => ?_⟩
  have h := (hm k.held hk k).2 rfl
  cases hr : m k with
  | ok a k' =>
    rw [hr] at h
    intro l hl
    exact (congrFun h l).trans (hk l hl)
  | error e k' =>
    rw [hr] at h
    exact h

theorem Reframes.bind {m : KM cfg α} {f : α → KM cfg β} (hm : Reframes p m)
    (hf : ∀ a, Reframes p (f a)) : Reframes p (m >>= f) :=
  Along.bind hm Reframed.trans hf

/-- The registers of `p` and fields outside of the core are set. -/
theorem Reframes.modify {g : Kernel cfg → Kernel cfg} (hc : ∀ k, Reframed p k (g k))
    (hh : ∀ k, (g k).held = k.held) :
    Reframes p (modifyGet fun k => (PUnit.unit, g k) : KM cfg PUnit) :=
  Along.modify hc fun k h l hl => (congrFun (hh k) l).trans (h l hl)

theorem reframes_release : Reframes p (release (.proc p) : KM cfg Unit) :=
  Along.modify (fun k => (SameCore.refl k).reframed) fun _ h l hl =>
    (Function.update_of_ne hl _ _).trans (h l hl)

theorem reframes_execProgram {prog : ℕ × List UInt8} {sp argv : ℕ} :
    Reframes p (execProgram p prog sp argv) := by
  refine Reframes.bind (Reframes.modify ?_ fun _ => rfl) fun _ => ?_
  · intro k
    exact ⟨_, Kernel.setProc_core_of rfl⟩
  refine Still.get.reframes.bind fun k => ?_
  dsimp only
  split
  · exact Still.reframes (Still.throw trivial)
  refine still_copyArgv.reframes.bind fun r => ?_
  refine (still_mapStack (by simp)).reframes.bind fun _ => ?_
  refine (still_releasePage (by simp)).reframes.bind fun _ => ?_
  refine Reframes.bind (Reframes.modify ?_ fun _ => rfl) fun _ => ?_
  · intro k
    exact ⟨_, Kernel.setProc_core_of rfl⟩
  refine Reframes.bind (Reframes.modify (fun k => SameCore.reframed rfl) fun _ => rfl) fun _ => ?_
  split
  · exact Still.reframes (Still.throw trivial)
  refine Reframes.bind (Reframes.modify (fun k => SameCore.reframed rfl) fun _ => rfl) fun _ => ?_
  exact reframes_release.bind fun _ => (Still.pure _).reframes

/-- How such a computation ends, from a kernel with the same core. -/
theorem CallResult.of_reframes {c : Call} {m : KM cfg α} {t : Kernel cfg} (hm : Reframes p m)
    (hk : OthersFree p t) (hc : t.core = k.core)
    (hnot : ¬(TakesOwn p k c ∧ k.held (.proc p) = true)) : CallResult p k c (m t) := by
  obtain ⟨⟨frame, hr⟩, hend⟩ := hm t
  have hend := hend hk
  rw [hc] at hr
  cases h : m t with
  | ok a k' =>
    rw [h] at hr hend
    exact .back (hr ▸ .frame (by decide)) hend hnot
  | error e k' =>
    rw [h] at hr hend
    exact .halt hend (hr ▸ .frame (by decide)) hnot

theorem procExecv_result (hk : Calm p k) (filename argv : ℕ) :
    CallResult p k (.execv filename argv) (procExecv p filename argv k) := by
  cases hl : k.held (.proc p) with
  | true => exact .of_held trivial hl
  | false =>
    have hnot : ¬(TakesOwn p k (.execv filename argv) ∧ k.held (.proc p) = true) := by simp [hl]
    rw [procExecv, bind_ok (acquire_ok hl)]
    refine CallResult.of_reframes (t := k.setHeld (.proc p) true) ?_ ?_ rfl hnot
    · refine Still.get.reframes.bind fun k => ?_
      dsimp only
      split
      · exact (still_setErrno.bind fun _ => Still.pure _).reframes
      split
      · exact (still_setErrno.bind fun _ => Still.pure _).reframes
      refine (still_kalloc (by simp)).reframes.bind fun sp => ?_
      split
      · exact (still_setErrno.bind fun _ => Still.pure _).reframes
      · exact reframes_execProgram
    · intro l h
      exact (Function.update_of_ne h _ _).trans (hk.free l h)

end HobbyOs
