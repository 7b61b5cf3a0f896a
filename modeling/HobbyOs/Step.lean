import HobbyOs.Fork
import HobbyOs.Machine

/-!
# What the kernel does when it is entered

The code of the kernel that a step of the machine runs, in terms of the core.

* `syscall_result`: how a system call may end;
* `resume_result`: how a process may go on that is switched to;
* `examine_result`: what the scheduler does at a slot.
-/

namespace HobbyOs

open Outcome

variable {cfg : Config} {α : Type} {p q : Slot cfg} {k : Kernel cfg}

/-! ## System calls -/

/-- How a system call ends, under the locks that are held in user mode. -/
theorem runCall_result (hk : Calm p k) (hcpu : k.core.cpuProc = some p)
    (hpar : (k.core.procs p).parent ≠ some p) (c : Call) : CallResult p k c (runCall p c k) := by
  cases c with
  | exit => exact procExit_result hk hpar
  | fork => exact procFork_result hk hcpu
  | read fd buf size => exact .of_yields hk id rfl yields_procRead
  | write fd buf size => exact .of_yields hk id rfl yields_procWrite
  | «open» path => exact procOpen_result hk path
  | close fd => exact .of_quiet hk id (quiet_procClose (by simp) (by simp) (by simp))
  | wait cond => exact procWait_result hk hpar cond
  | execv filename argv => exact procExecv_result hk filename argv
  | getpid => exact .of_still hk id (Still.get.bind fun _ => Still.pure _)
  | dup fd => exact .of_still hk id still_procDup
  | pipe fds => exact .of_still hk id (still_pipeOpen (by simp) (by simp) (by simp) (by simp))
  | sysinfo info => exact .of_still hk id (still_procSysinfo (by simp) (by simp))
  | sleep ms => exact procSleep_result hk ms
  | plist pids size => exact .of_still hk id (still_procPlist (by simp))
  | pinfo pid pinfo => exact .of_still hk id (still_procPinfo (by simp) (by simp))
  | pgalloc => exact .of_still hk id (still_procPgalloc (by simp))
  | pgfree page => exact .of_still hk id (still_procPgfree (by simp))
  | gpio pin enable value => exact .of_still hk id (Still.pure _)
  | detach => exact procDetach_result hk hpar
  | isopen fd => exact .of_still hk id still_procIsopen
  | pipeattch pid fd => exact procPipeattch_result hk pid fd
  | lsdir dir dirents size => exact .of_still hk id still_procLsdir

/-- The kernel that a call of `p` runs in: `errno` is cleared, and the program
    counter is at the next instruction. -/
def Kernel.entry (k : Kernel cfg) (p : Slot cfg) : Kernel cfg :=
  { k with
    mem := storeBytes k.mem (k.procs p).perrno (bytesOfWord 0 cfg.regSz)
    trapFrame := { k.trapFrame with pc := cfg.reg (k.trapFrame.pc + 4) } }

@[simp] theorem Kernel.entry_core : (k.entry p).core = k.core := rfl
@[simp] theorem Kernel.entry_held : (k.entry p).held = k.held := rfl

/-- The call that `p` makes, if its number is one of a call and the user stack
    has not overflowed. -/
def callOf (k : Kernel cfg) (p : Slot cfg) : Option Call :=
  if stackOverflow (k.entry p) p then none else decodeCall cfg k.trapFrame

/-- What a system call of `p` does to the core, by how it ends. -/
inductive SyscallEffect (p : Slot cfg) (k : Kernel cfg) : How → Core cfg → Prop
  | none {how : How} : how ≠ .away → SyscallEffect p k how k.core
  | call {c : Call} {how : How} {t : Core cfg} : callOf k p = some c →
      CallEffect p (k.entry p) c how t → SyscallEffect p k how t

/-- The call of `p` takes the lock of `p`, which is held. -/
def Blocks (p : Slot cfg) (k : Kernel cfg) : Prop :=
  ∃ c ∈ callOf k p, TakesOwn p (k.entry p) c ∧ k.held (.proc p) = true

/-- How a system call of `p` may end. -/
inductive SyscallResult (p : Slot cfg) (k : Kernel cfg) :
    EStateM.Result (Stop cfg) (Kernel cfg) α → Prop
  | back {a : α} {k' : Kernel cfg} : SyscallEffect p k .back k'.core →
      (∀ l ∈ others p, k'.held l = false) → ¬Blocks p k → SyscallResult p k (.ok a k')
  | away {k' : Kernel cfg} : SyscallEffect p k .away k'.core →
      (∀ l ∈ others p, k'.held l = false) → ¬Blocks p k → SyscallResult p k (.error .switch k')
  | halt {e : Stop cfg} {how : How} {k' : Kernel cfg} : e.isHalt → how ≠ .away →
      SyscallEffect p k how k'.core → ¬Blocks p k → SyscallResult p k (.error e k')
  | deadlock {k' : Kernel cfg} : k'.core = k.core → Blocks p k →
      SyscallResult p k (.error (.deadlock (.proc p)) k')

theorem still_syscallTail {L : Set (Lock cfg)} (ret : ℤ) : Still L (syscallTail p ret) := by
  refine Still.bind (Still.modify (fun _ => rfl) fun _ => rfl) fun _ => Still.get.bind fun k => ?_
  split
  · exact Still.throw trivial
  · exact Still.pure _

/-- The end of a call, after it has come back. -/
theorem SyscallResult.tail {k' : Kernel cfg} (he : SyscallEffect p k .back k'.core)
    (hfree : ∀ l ∈ others p, k'.held l = false) (hb : ¬Blocks p k) (ret : ℤ) :
    SyscallResult p k (syscallTail p ret k') := by
  rcases (still_syscallTail ret).result hfree with ⟨_, k'', h, hc, hh⟩ | ⟨e, k'', h, hhalt, hc⟩
  · rw [h]
    exact .back (hc ▸ he) (by rw [hh]; exact hfree) hb
  · rw [h]
    exact .halt hhalt (by decide) (hc ▸ he) hb

theorem syscall_result (hk : Calm p k) (hcpu : k.core.cpuProc = some p)
    (hpar : (k.core.procs p).parent ≠ some p) : SyscallResult p k (syscall p k) := by
  have hrun : syscall p k = (do
      if stackOverflow (← get) p then throw .hang
      syscallTail p (← dispatch p) : KM cfg Unit) (k.entry p) := rfl
  rw [hrun, get_bind_apply]
  by_cases ho : stackOverflow (k.entry p) p
  · have hb : ¬Blocks p k := fun ⟨c, hc, _⟩ => by simp [callOf, ho] at hc
    rw [if_pos ho]
    exact .halt (e := .hang) trivial (show How.halt ≠ .away by decide) (.none (by decide)) hb
  rw [if_neg ho]
  have hcall : callOf k p = decodeCall cfg k.trapFrame := if_neg ho
  show SyscallResult p k ((dispatch p >>= syscallTail p) (k.entry p))
  -- A number without a call returns -1 and sets errno.
  cases hd : decodeCall cfg k.trapFrame with
  | none =>
    have hb : ¬Blocks p k := fun ⟨c, hc, _⟩ => by simp [hcall, hd] at hc
    have h : dispatch p (k.entry p) = (do setErrno p ENOSYS; return -1 : KM cfg ℤ) (k.entry p) := by
      rw [dispatch, get_bind_apply, show decodeCall cfg (k.entry p).trapFrame = none from hd]
    rw [bind_ok (h.trans rfl)]
    refine SyscallResult.tail ?_ ?_ hb _
    · exact .none (by decide)
    · exact hk.free
  | some c =>
    rw [hd] at hcall
    have h : dispatch p (k.entry p) = runCall p c (k.entry p) := by
      rw [dispatch, get_bind_apply, show decodeCall cfg (k.entry p).trapFrame = some c from hd]
    have hblocks : Blocks p k ↔ TakesOwn p (k.entry p) c ∧ (k.entry p).held (.proc p) = true := by
      simp [Blocks, hcall]
    have hres := runCall_result (k := k.entry p) (hk.same rfl rfl) hcpu hpar c
    rw [← h] at hres
    revert hres
    generalize hr : dispatch p (k.entry p) = r
    intro hres
    cases hres with
    | back he hfree hb =>
      rw [bind_ok hr]
      exact SyscallResult.tail (.call hcall he) hfree (hblocks.not.2 hb) _
    | away he hfree hb =>
      rw [bind_error hr]
      exact .away (.call hcall he) hfree (hblocks.not.2 hb)
    | halt hhalt he hb =>
      rw [bind_error hr]
      exact .halt hhalt (show How.halt ≠ .away by decide) (.call hcall he) (hblocks.not.2 hb)
    | deadlock hc ht hl =>
      rw [bind_error hr]
      exact .deadlock hc (hblocks.2 ⟨ht, hl⟩)

/-! ## Going on -/

/-- What `p` does to the core when it is switched to, by how it ends. -/
inductive ResumeEffect (p : Slot cfg) (s : Core cfg) : How → Core cfg → Prop
  | same {how : How} : how ≠ .away → ResumeEffect p s how s
  | waited {how : How} {t : Core cfg} {pid : ℤ} : how ≠ .away → (s.procs p).ctx = .waitChild →
      Reaps p .waitChild s t pid → ResumeEffect p s how (t.record (.waited (s.procs p).uid pid))
  /-- Within any other call, a child may be freed as well. -/
  | reaped {how : How} {t u : Core cfg} {pid : ℤ} : how ≠ .away → (s.procs p).ctx ≠ .waitChild →
      Reaps p (s.procs p).ctx s t pid → Wakes t u → ResumeEffect p s how u
  /-- The call blocks again. -/
  | yield {t u : Core cfg} {pid : ℤ} {ch ch' : Chan cfg} {frame : TrapFrame} {call : Kont cfg} :
      (s.procs p).ctx.yieldChan = some ch → Reaps p (s.procs p).ctx s t pid → Wakes t u →
      call.yieldChan = some ch' →
      ResumeEffect p s .away (u.sleep p (fun x => { x with chan := ch' }) frame call)

/-- How `p` may go on. -/
inductive ResumeResult (p : Slot cfg) (s : Core cfg) : EStateM.Result (Stop cfg) (Kernel cfg) α → Prop
  | back {a : α} {k' : Kernel cfg} : ResumeEffect p s .back k'.core →
      (∀ l ∈ others p, k'.held l = false) → ResumeResult p s (.ok a k')
  | away {k' : Kernel cfg} : ResumeEffect p s .away k'.core →
      (∀ l ∈ others p, k'.held l = false) → ResumeResult p s (.error .switch k')
  | halt {e : Stop cfg} {how : How} {k' : Kernel cfg} : e.isHalt → how ≠ .away →
      ResumeEffect p s how k'.core → ResumeResult p s (.error e k')

namespace ResumeResult

variable {s : Core cfg}

/-- The call ends without more ado. -/
theorem tail {t : Kernel cfg} (he : ∀ {how}, how ≠ .away → ResumeEffect p s how t.core)
    (hfree : ∀ l ∈ others p, t.held l = false) (ret : ℤ) :
    ResumeResult p s (syscallTail p ret t) := by
  rcases (still_syscallTail ret).result hfree with ⟨_, u, h, hc, hh⟩ | ⟨e, u, h, hhalt, hc⟩
  · rw [h]
    exact .back (hc ▸ he (by decide)) (by rw [hh]; exact hfree)
  · rw [h]
    exact .halt hhalt (show How.halt ≠ .away by decide) (hc ▸ he (by decide))

/-- The call ends after a child was freed. -/
theorem of_reaps {call : Kont cfg} {k₁ : Kernel cfg} {pid : ℤ} (hctx : (s.procs p).ctx = call)
    (hne : call ≠ .waitChild) (hr : Reaps p call s k₁.core pid)
    (hfree : ∀ l ∈ others p, k₁.held l = false) (ret : ℤ) :
    ResumeResult p s (syscallTail p ret k₁) := by
  subst hctx
  exact tail (fun h => .reaped h hne hr .refl) hfree ret

/-- The call goes on after a child was freed, and may block again. -/
theorem of_yields {m : KM cfg α} {t : Kernel cfg} {c : Chan cfg} {pid : ℤ} (hk : Calm p t)
    (hch : (s.procs p).ctx.yieldChan = some c) (hr : Reaps p (s.procs p).ctx s t.core pid)
    (hm : Yields p m) : ResumeResult p s (m t) := by
  have hne : (s.procs p).ctx ≠ .waitChild := fun h => by
    rw [h] at hch
    simp [Kont.yieldChan] at hch
  have h := hm t hk
  revert h
  generalize m t = r
  intro h
  cases h with
  | ok hw hh => exact .back (.reaped (by decide) hne hr hw) (by rw [hh]; exact hk.free)
  | halt he hw => exact .halt he (show How.halt ≠ .away by decide) (.reaped (by decide) hne hr hw)
  | yield hw hy hs hh => exact .away (hs ▸ .yield hch hr hw hy) (by rw [hh]; exact hk.free)

end ResumeResult

theorem afterYield_result (call : Kont cfg) (hk : Calm p k)
    (hpar : (k.core.procs p).parent ≠ some p) :
    ∃ pid k', afterYield p call k = .ok () k' ∧ Reaps p call k.core k'.core pid ∧ Calm p k' := by
  obtain ⟨pid, k₁, h, hr, hh⟩ := checkExitedChildren_result call hk.free hpar
  refine ⟨pid, { k₁ with trapFrame := (k₁.procs p).trap }, ?_, hr, ?_, ?_⟩
  · rw [afterYield, bind_ok h]
    rfl
  · intro l hl
    exact (congrFun hh l).trans (hk.free l hl)
  · show (k₁.core.procs p).state ≠ .sleeping
    rw [hr.procs_self hpar]
    exact hk.awake

/-- How a process goes on that is switched to. -/
theorem resume_result (hk : Calm p k) (hpar : (k.core.procs p).parent ≠ some p) :
    ResumeResult p k.core (resume p k) := by
  rw [resume, get_bind_apply]
  have hctx : (k.core.procs p).ctx = (k.procs p).ctx := rfl
  -- What a call goes on with says what is left of it; `proc_yield` first looks for
  -- children that have exited.
  cases hcall : (k.procs p).ctx with
  | forkret =>
    refine .back (.same (by decide)) fun l hl => ?_
    exact (Function.update_of_ne hl _ _).trans (hk.free l hl)
  | timerTick => exact .back (.same (by decide)) hk.free
  | exited => exact .tail (fun h => .same h) hk.free 0
  | waitChild =>
    obtain ⟨pid, k₁, h, hr, hh⟩ := checkExitedChildren_result .waitChild hk.free hpar
    rw [resumeFrom, bind_ok h]
    have huid : (k₁.procs p).uid = (k.core.procs p).uid := hr.uid_eq p
    simp only [get_bind_apply, huid]
    refine ResumeResult.tail (t := { k₁ with log := _ }) (fun h => .waited h (hctx.trans hcall) hr) ?_ pid
    intro l hl
    exact (congrFun hh l).trans (hk.free l hl)
  | waitCond q since want =>
    obtain ⟨pid, k₁, h, hr, hh⟩ := checkExitedChildren_result (.waitCond q since want) hk.free hpar
    rw [resumeFrom, bind_ok h]
    exact .of_reaps (hctx.trans hcall) (by simp) hr (by rw [hh]; exact hk.free) pid
  | sleep deadline =>
    obtain ⟨pid, k₁, h, hr, hh⟩ := checkExitedChildren_result (.sleep deadline) hk.free hpar
    rw [resumeFrom, bind_ok h]
    exact .of_reaps (hctx.trans hcall) (by simp) hr (by rw [hh]; exact hk.free) pid
  | pipeRead f i buf size =>
    obtain ⟨pid, k₁, h, hr, hk₁⟩ := afterYield_result (.pipeRead f i buf size) hk hpar
    rw [resumeFrom, bind_ok h]
    refine .of_yields (c := .pipe i) hk₁ (by rw [hctx, hcall]; rfl) (by rw [hctx, hcall]; exact hr) ?_
    refine yields_pipeReadLoopTop.bind fun n => Yields.of_still ?_
    exact still_readTail.bind fun _ => still_syscallTail _
  | pipeWrite f i buf nbytes nwritten =>
    obtain ⟨pid, k₁, h, hr, hk₁⟩ := afterYield_result (.pipeWrite f i buf nbytes nwritten) hk hpar
    rw [resumeFrom, bind_ok h]
    refine .of_yields (c := .pipe i) hk₁ (by rw [hctx, hcall]; rfl) (by rw [hctx, hcall]; exact hr) ?_
    refine yields_pipeWriteResume.bind fun n => Yields.of_still ?_
    exact still_writeTail.bind fun _ => still_syscallTail _
  | uartRead f buf size =>
    obtain ⟨pid, k₁, h, hr, hk₁⟩ := afterYield_result (.uartRead f buf size) hk hpar
    rw [resumeFrom, bind_ok h]
    refine .of_yields (c := .uart0) hk₁ (by rw [hctx, hcall]; rfl) (by rw [hctx, hcall]; exact hr) ?_
    refine yields_uartReadline.bind fun n => Yields.of_still ?_
    exact still_readTail.bind fun _ => still_syscallTail _

/-! ## The scheduler -/

/-- The timer interrupts a process. -/
theorem preempt_apply (p : Slot cfg) (k : Kernel cfg) :
    ∃ k', preempt p k = .error .switch k' ∧
      k'.core = (k.core.setState p .ready .sched).update p (fun x => { x with ctx := .timerTick }) ∧
      k'.held = k.held := by
  refine ⟨_, rfl, ?_, rfl⟩
  rw [Kernel.setProc_core_of (f := fun x => { x with ctx := .timerTick }) rfl, Kernel.setState_core]

/-- The process is asleep, and `should_wake_up` says that its time has come. -/
def Core.Due (s : Core cfg) (p : Slot cfg) : Prop :=
  (s.procs p).state = .sleeping ∧ (s.procs p).wakeupTime ≠ 0 ∧ (s.procs p).wakeupTime ≤ s.now

instance (s : Core cfg) (p : Slot cfg) : Decidable (s.Due p) :=
  inferInstanceAs (Decidable (_ ∧ _ ∧ _))

/-- The scheduler wakes a process whose time has come. -/
def Core.awaken (s : Core cfg) (p : Slot cfg) : Core cfg :=
  if s.Due p then s.setState p .ready .wakeup else s

/-- The scheduler runs a process. -/
def Core.run (s : Core cfg) (p : Slot cfg) : Core cfg :=
  { (s.setState p .running .scheduler).update p fun x =>
      { x with nscheds := (x.nscheds + 1) % 2 ^ 64 } with cpuProc := some p }

/-- What the scheduler does at the slot `p`, all locks being free. -/
inductive ExamineResult (p : Slot cfg) (k : Kernel cfg) :
    EStateM.Result (Stop cfg) (Kernel cfg) Bool → Prop
  | pass {k' : Kernel cfg} : ¬k.core.Due p → (k.core.procs p).state ≠ .ready → k'.core = k.core →
      k'.held = k.held → ExamineResult p k (.ok false k')
  | switch {k' : Kernel cfg} : ((k.core.awaken p).procs p).state = .ready →
      Wakes ((k.core.awaken p).run p) k'.core → k'.held = Function.update k.held (.proc p) true →
      k'.trapFrame = (k'.core.procs p).trap → ExamineResult p k (.ok true k')
  | halt {e : Stop cfg} {k' : Kernel cfg} : e.isHalt → ((k.core.awaken p).procs p).state = .ready →
      Wakes ((k.core.awaken p).run p) k'.core → ExamineResult p k (.error e k')

theorem shouldWakeUp_iff : ((k.procs p).state = .sleeping ∧ shouldWakeUp k p = true) ↔ k.core.Due p := by
  simp [shouldWakeUp, Core.Due, Kernel.core]

theorem runSlot_result {s : Core cfg} (hc : k.core = s) (ht : k.held .procTable = false)
    (hs : ∀ q, k.held (.proc q) = true → q = p) :
    (∃ k', runSlot p k = .ok true k' ∧ Wakes (s.run p) k'.core ∧ k'.held = k.held ∧
      k'.trapFrame = (k'.core.procs p).trap) ∨
    ∃ e k', runSlot p k = .error e k' ∧ e.isHalt ∧ Wakes (s.run p) k'.core := by
  have hrun : ∃ k₁ : Kernel cfg, k₁.core = s.run p ∧ k₁.held = k.held ∧ runSlot p k = (do
      procMarkForWakeup (.proc p)
      modify fun k => { k with trapFrame := (k.procs p).trap }
      return true : KM cfg Bool) k₁ := by
    refine ⟨_, ?_, ?_, rfl⟩
    · rw [Kernel.setProc_core_of (f := fun x => { x with nscheds := (x.nscheds + 1) % 2 ^ 64 }) rfl]
      show Core.update { (k.setState p .running .scheduler).core with cpuProc := some p } p _ = _
      rw [Kernel.setState_core, hc]
      rfl
    · rfl
  obtain ⟨k₁, hc₁, hh₁, hrun⟩ := hrun
  have hawake : ∀ q, k₁.held (.proc q) = true → (k₁.core.procs q).state ≠ .sleeping := by
    intro q hq
    rw [hh₁] at hq
    rw [hs q hq, hc₁]
    simp [Core.run]
  rw [hrun]
  rcases (quiet_procMarkForWakeup (L := {.procTable}) rfl (c := .proc p) (by simp)).result (k := k₁)
    (by simpa [hh₁] using ht) hawake with ⟨_, k₂, h, hw, hh⟩ | ⟨e, k₂, h, he, hw⟩
  · rw [hc₁] at hw
    rw [bind_ok h]
    exact .inl ⟨{ k₂ with trapFrame := (k₂.procs p).trap }, rfl, hw, hh.trans hh₁, rfl⟩
  · rw [hc₁] at hw
    exact .inr ⟨e, k₂, bind_error h, he, hw⟩

/-- The second half of `scheduler` at a slot, from a kernel with its lock taken. -/
theorem examineTail_result {t : Kernel cfg} (hfree : ∀ l, k.held l = false)
    (hc : t.core = k.core.awaken p) (hh : t.held = Function.update k.held (.proc p) true) :
    ExamineResult p k ((if (t.procs p).state = .ready then runSlot p
      else do release (.proc p); return false : KM cfg Bool) t) := by
  have hstate : (t.procs p).state = ((k.core.awaken p).procs p).state := by
    rw [← hc]
    rfl
  by_cases hready : (t.procs p).state = .ready
  · rw [if_pos hready]
    rcases runSlot_result (p := p) hc (by rw [hh]; simpa using hfree _) (fun q hq => by
        by_contra hne
        rw [hh, Function.update_of_ne (by simpa using hne), hfree] at hq
        cases hq) with ⟨k', h, hw, hh', ht⟩ | ⟨e, k', h, he, hw⟩
    · rw [h]
      exact .switch (hstate ▸ hready) hw (hh'.trans hh) ht
    · rw [h]
      exact .halt he (hstate ▸ hready) hw
  · rw [if_neg hready]
    have hdue : ¬k.core.Due p := by
      intro h
      rw [hstate, Core.awaken, if_pos h] at hready
      simp at hready
    rw [Core.awaken, if_neg hdue] at hc hstate
    refine .pass hdue (hstate ▸ hready) hc ?_
    show Function.update t.held (.proc p) false = _
    rw [hh, update_held_self (hfree _)]

theorem examine_result (hfree : ∀ l, k.held l = false) (p : Slot cfg) :
    ExamineResult p k (examine p k) := by
  rw [examine, bind_ok (acquire_ok (hfree _))]
  simp only [get_bind_apply]
  by_cases hdue : k.core.Due p
  · have hif : ((k.setHeld (.proc p) true).procs p).state = .sleeping ∧
        shouldWakeUp (k.setHeld (.proc p) true) p = true := shouldWakeUp_iff.2 hdue
    rw [if_pos hif]
    refine examineTail_result (t := (k.setHeld (.proc p) true).setState p .ready .wakeup) hfree ?_ rfl
    rw [Kernel.setState_core, Core.awaken, if_pos hdue]
    rfl
  · have hif : ¬(((k.setHeld (.proc p) true).procs p).state = .sleeping ∧
        shouldWakeUp (k.setHeld (.proc p) true) p = true) := fun h => hdue (shouldWakeUp_iff.1 h)
    rw [if_neg hif]
    refine examineTail_result (t := k.setHeld (.proc p) true) hfree ?_ rfl
    rw [Core.awaken, if_neg hdue]
    rfl

end HobbyOs
