import HobbyOs.FileObjects
import HobbyOs.Lives

/-!
# What a step does to the tables of the kernel

The inversion of a step of the machine that the kernel does not halt in, beyond
scheduling (`KernelStep`): the tables of files, pipes, pages and of the baked-in
file system change within system calls, and when a process goes on with one it
had waited in. No other step changes them.
-/

namespace HobbyOs

open Outcome Transition

variable {cfg : Config} {α : Type} {p : Slot cfg} {k k' : Kernel cfg} {m m' : Machine cfg}

/-- How the code of a process has ended, with the kernel it left: it came back,
    or went away to the scheduler. -/
inductive Ended (r : EStateM.Result (Stop cfg) (Kernel cfg) α) : How → Kernel cfg → Prop
  | back {a : α} {k' : Kernel cfg} : r = .ok a k' → Ended r .back k'
  | away {k' : Kernel cfg} : r = .error .switch k' → Ended r .away k'

/-- A call that neither transfers data nor waits comes back. -/
theorem CallEffect.not_away {c : Call} {t : Core cfg} (h : CallEffect p k c .away t) (ht : c.isTransfer = false)
    (hs : ∀ ms, c ≠ .sleep ms) (hw : ∀ cond, c ≠ .wait cond) (hx : c ≠ .exit) : False := by
  cases h with
  | quiet h _ | frame h => exact h rfl
  | yield h _ _ => rw [ht] at h; cases h
  | sleep => exact hs _ rfl
  | wait | waitCond => exact hw _ rfl
  | fork _ _ hf =>
    cases hf with
    | pid h => exact h rfl
  | exited => exact hx rfl

/-- What the code leaves alone is as it was. -/
theorem Ended.same {m : KM cfg α} {S : Set Part} {x : Part} {how : How} (h : Ended (m k) how k')
    (hm : Frame S m) (hx : x ∉ S) : x.Same k k' := by
  have hsame := hm k x hx
  cases h with
  | back hr | away hr =>
    rw [hr] at hsame
    exact hsame

/-- The parts that a process may change when it goes on with a call. -/
def resumeParts : Set Part := {.files, .kmem, .pages, .uart} ∪ Set.range .ring

/-- The process is not within a call that waits. -/
def Kont.isPlain : Kont cfg → Bool
  | .forkret | .timerTick | .exited => true
  | _ => false

/-- What a step does to the core in which no process makes a call or goes on with
    one. -/
inductive Aside (m : Machine cfg) : Core cfg → Prop
  | same : Aside m m.k.core
  | time {ticks : ℕ} : Aside m { m.k.core with now := m.k.core.now + ticks }
  | overlay {o : Chan cfg → ℕ × ℕ} : Aside m { m.k.core with overlay := o }
  | preempt {p : Slot cfg} : OnCpu p m.k.core →
      Aside m (((m.k.core.setState p .ready .sched).update p fun x => { x with ctx := .timerTick }).after .away)
  | run {p : Slot cfg} {t : Core cfg} : OffCpu m.k.core → ((m.k.core.awaken p).procs p).state = .ready →
      Wakes ((m.k.core.awaken p).run p) t → Aside m t

/-- What a step that the kernel does not halt in does to the kernel. -/
inductive KernelStep (m : Machine cfg) : Event cfg → Kernel cfg → Prop
  /-- The tables are left alone. -/
  | aside {e : Event cfg} {k' : Kernel cfg} :
      (∀ x : Part, x.Same m.k k') → Aside m k'.core → KernelStep m e k'
  /-- The console has received characters. -/
  | plic {received : List UInt8} {k' : Kernel cfg} : m.mode = .user ∨ m.mode = .idle →
      uartEnqueueChars received (trap m) = .ok () k' → (∀ x ≠ Part.uart, x.Same m.k k') →
      Wakes m.k.core k'.core → KernelStep m (.plic received) k'
  /-- A process goes on, with a call if it was in one. -/
  | resume {p : Slot cfg} {how : How} {k₁ k' : Kernel cfg} : OnCpu p m.k.core → m.mode = .switched p →
      Ended (resume p m.k) how k₁ → ResumeEffect p m.k.core how k₁.core →
      (∀ x : Part, x.Same k₁ k') →
      k'.core = k₁.core.after how → ((m.k.procs p).ctx.isPlain = true → k'.core = m.k.core) →
      KernelStep m .kernel k'
  /-- The call `c` of `p` has ended. -/
  | call {p : Slot cfg} {c : Call} {how : How} {k₁ k' : Kernel cfg} : OnCpu p m.k.core →
      Calm p ((trap m).entry p) → callOf (trap m) p = some c →
      Ended (runCall p c ((trap m).entry p)) how k₁ →
      CallEffect p ((trap m).entry p) c how k₁.core → (∀ x : Part, x.Same k₁ k') →
      k'.core = k₁.core.after how → KernelStep m .ecall k'

/-- The parts that code of a process has left alone are left alone by the step. -/
theorem same_outcome {r : EStateM.Result (Stop cfg) (Kernel cfg) α} {x : Part}
    (h : x.Same k (final r)) : x.Same k (outcome r).k := by
  cases r with
  | ok a k' => exact h
  | error e k' =>
    cases e with
    | switch =>
      rw [outcome]
      cases hcpu : k'.cpuProc with
      | none => exact h
      | some p => exact h.trans (Part.same_of_parts rfl)
    | _ => exact h

/-- The end of a call only sets `a0`, unless the kernel panics. -/
theorem syscallTail_ok {ret : ℤ} (h : ∀ why, (outcome (syscallTail p ret k)).mode ≠ .halted why) :
    (∀ x : Part, x.Same k (outcome (syscallTail p ret k)).k) ∧
    (outcome (syscallTail p ret k)).k.core = k.core := by
  rw [syscallTail, modify_bind_apply, get_bind_apply] at h ⊢
  by_cases hmagic : loadWord k.mem (k.procs p).magic 4 ≠ procMagicStackSentinel
  · rw [if_pos hmagic] at h
    exact absurd rfl (h .panic)
  · rw [if_neg hmagic] at h ⊢
    exact ⟨fun _ => Part.same_of_parts rfl, rfl⟩

/-- A call, and the check of the kernel stack that it ends with. -/
theorem ecallStep_call {c : Call} (hp : m.k.cpuProc = some p) (hc : callOf (trap m) p = some c) :
    ecallStep m = outcome ((runCall p c >>= syscallTail p) ((trap m).entry p)) := by
  have hrun : syscall p (trap m) = (do
      if stackOverflow (← get) p then throw .hang
      syscallTail p (← dispatch p) : KM cfg Unit) ((trap m).entry p) := rfl
  rw [callOf] at hc
  split at hc
  · cases hc
  · rename_i hover
    have hdispatch : dispatch p ((trap m).entry p) = runCall p c ((trap m).entry p) := by
      rw [dispatch, get_bind_apply, show decodeCall cfg ((trap m).entry p).trapFrame = some c from hc]
    rw [ecallStep, hp]
    dsimp only
    rw [hrun, get_bind_apply, if_neg hover]
    show outcome ((dispatch p >>= syscallTail p) ((trap m).entry p)) = _
    cases hr : runCall p c ((trap m).entry p) with
    | ok ret k' => rw [bind_ok (hdispatch.trans hr), bind_ok hr]
    | error e k' => rw [bind_error (hdispatch.trans hr), bind_error hr]

/-- A call that comes back ends with the check of the kernel stack. -/
theorem ecallStep_eq {c : Call} {ret : ℤ} (hp : m.k.cpuProc = some p) (hc : callOf (trap m) p = some c)
    (hr : runCall p c ((trap m).entry p) = .ok ret k') : ecallStep m = outcome (syscallTail p ret k') := by
  rw [ecallStep_call hp hc, bind_ok hr]

/-- A call that does not come back ends the trap. -/
theorem ecallStep_error {c : Call} {e : Stop cfg} (hp : m.k.cpuProc = some p) (hc : callOf (trap m) p = some c)
    (hr : runCall p c ((trap m).entry p) = .error e k') :
    ecallStep m = outcome (.error e k' : EStateM.Result (Stop cfg) (Kernel cfg) Unit) := by
  rw [ecallStep_call hp hc, bind_error hr]

/-- It returns if the sentinel is in place. -/
theorem outcome_syscallTail {ret : ℤ} (h : (outcome (syscallTail p ret k)).mode = .user) :
    outcome (syscallTail p ret k) =
      ⟨{ k with trapFrame := k.trapFrame.set TrapFrame.a0 (cfg.reg ret) },
        k.trapFrame.set TrapFrame.a0 (cfg.reg ret), .user⟩ := by
  rw [syscallTail, modify_bind_apply, get_bind_apply] at h ⊢
  split at h
  · cases h
  · rename_i hmagic
    rw [if_neg hmagic]
    rfl

/-- How the call `c` of `p` ends that the kernel does not halt in. -/
structure CallEnds (m : Machine cfg) (p : Slot cfg) (c : Call) (how : How) (k₁ : Kernel cfg) : Prop where
  onCpu : OnCpu p m.k.core
  calm : Calm p ((trap m).entry p)
  ended : Ended (runCall p c ((trap m).entry p)) how k₁
  effect : CallEffect p ((trap m).entry p) c how k₁.core
  same : ∀ x : Part, x.Same k₁ (ecallStep m).k
  core : (ecallStep m).k.core = k₁.core.after how

theorem ecall_callEnds {c : Call} (hb : Base m) (hmode : m.mode = .user) (hcpu : m.k.cpuProc = some p)
    (hcall : callOf (trap m) p = some c) (hm : ∀ why, (ecallStep m).mode ≠ .halted why) :
    ∃ how k₁, CallEnds m p c how k₁ := by
  have hat := hb.at_
  rw [hmode] at hat
  obtain ⟨q, hp, hfree⟩ := hat
  obtain rfl : q = p := Option.some.inj (hp.cpu.symm.trans hcpu)
  have hcalm : Calm q ((trap m).entry q) :=
    ⟨hfree, by rw [show ((trap m).entry q).core = m.k.core from rfl, hp.running]; decide⟩
  have hres := runCall_result hcalm hp.cpu (hb.lineal q) c
  revert hres
  generalize hr : runCall q c ((trap m).entry q) = r
  intro hres
  cases hres with
  | @back ret k₁ he _ _ =>
    rw [ecallStep_eq hcpu hcall hr] at hm
    obtain ⟨hsame, hcore⟩ := syscallTail_ok hm
    rw [← ecallStep_eq hcpu hcall hr] at hsame hcore
    exact ⟨_, _, hp, hcalm, .back hr, he, hsame, hcore⟩
  | @away k₁ he _ _ =>
    have hcpu₁ : k₁.core.cpuProc = some q := (Lawful.of_call he).cpu.trans hp.cpu
    have hstep : ecallStep m = backToScheduler k₁ q := by
      rw [ecallStep_error hcpu hcall hr, outcome_switch hcpu₁]
    refine ⟨_, _, hp, hcalm, .away hr, he, fun _ => ?_, ?_⟩
    · rw [hstep]
      exact Part.same_of_parts rfl
    · rw [hstep]
      rfl
  | halt hhalt _ _ =>
    rw [ecallStep_error hcpu hcall hr, outcome_halt hhalt] at hm
    exact absurd rfl (hm _)
  | deadlock _ _ _ =>
    rw [ecallStep_error hcpu hcall hr] at hm
    exact absurd rfl (hm _)

/-- A call after which user code goes on has come back. -/
theorem ecall_returned {c : Call} (hb : Base m) (hmode : m.mode = .user) (hcpu : m.k.cpuProc = some p)
    (hcall : callOf (trap m) p = some c) (huser : (ecallStep m).mode = .user) :
    ∃ ret k₁, CallEnds m p c .back k₁ ∧ runCall p c ((trap m).entry p) = .ok ret k₁ ∧
      ecallStep m = ⟨{ k₁ with trapFrame := k₁.trapFrame.set TrapFrame.a0 (cfg.reg ret) },
        k₁.trapFrame.set TrapFrame.a0 (cfg.reg ret), .user⟩ := by
  obtain ⟨how, k₁, h⟩ := ecall_callEnds hb hmode hcpu hcall (by simp [huser])
  cases h.ended with
  | @back ret _ hr =>
    rw [ecallStep_eq hcpu hcall hr] at huser
    exact ⟨ret, k₁, h, hr, (ecallStep_eq hcpu hcall hr).trans (outcome_syscallTail huser)⟩
  | away hr =>
    rw [ecallStep_error hcpu hcall hr, outcome_switch ((Lawful.of_call h.effect).cpu.trans hcpu)] at huser
    cases huser

/-- A system call that the kernel does not halt in. -/
theorem ecall_kernelStep (hb : Base m) (hmode : m.mode = .user)
    (hm : ∀ why, (ecallStep m).mode ≠ .halted why) : KernelStep m .ecall (ecallStep m).k := by
  have hat := hb.at_
  rw [hmode] at hat
  obtain ⟨p, hp, -⟩ := hat
  have hcpu : m.k.cpuProc = some p := hp.cpu
  cases hcall : callOf (trap m) p with
  | some c =>
    obtain ⟨how, k₁, h⟩ := ecall_callEnds hb hmode hcpu hcall hm
    exact .call h.onCpu h.calm hcall h.ended h.effect h.same h.core
  | none =>
    have hstep : ecallStep m = outcome (syscall p (trap m)) := by
      rw [ecallStep, hcpu]
    have hrun : syscall p (trap m) = (do
        if stackOverflow (← get) p then throw .hang
        syscallTail p (← dispatch p) : KM cfg Unit) ((trap m).entry p) := rfl
    rw [hstep, hrun, get_bind_apply] at hm ⊢
    by_cases ho : stackOverflow ((trap m).entry p) p
    · rw [if_pos ho] at hm
      exact absurd rfl (hm .hang)
    rw [if_neg ho] at hm ⊢
    -- No call is decoded: the number is unknown, and the process gets an error.
    have hdecode : decodeCall cfg ((trap m).entry p).trapFrame = none := (if_neg ho).symm.trans hcall
    have hnosys : dispatch p ((trap m).entry p) = (do setErrno p ENOSYS; return -1 : KM cfg ℤ)
        ((trap m).entry p) := by
      rw [dispatch, get_bind_apply, hdecode]
    change ∀ why, (outcome ((dispatch p >>= syscallTail p) ((trap m).entry p))).mode ≠ .halted why at hm
    show KernelStep m .ecall (outcome ((dispatch p >>= syscallTail p) ((trap m).entry p))).k
    rw [bind_ok (hnosys.trans rfl)] at hm ⊢
    obtain ⟨hsame, hcore⟩ := syscallTail_ok hm
    refine .aside (fun x => ?_) ?_
    · refine Part.Same.trans ?_ (hsame x)
      exact Part.same_of_parts rfl
    · rw [hcore]
      exact .same

namespace Aside

variable {t : Core cfg}

/-- Lives begin and end in system calls only. -/
theorem sameLives (h : Aside m t) : SameLives m.k.core t := by
  cases h with
  | same => exact .refl
  | time | overlay => exact ⟨rfl, fun _ => rfl, fun _ _ => rfl, fun _ _ => rfl⟩
  | preempt _ =>
    refine SameLives.after (.trans ?_ (.update fun _ => rfl))
    exact .setState (by simp) (by simp)
  | run _ _ hw => exact .run hw

/-- No process goes, but by a system call. -/
theorem ages (h : Aside m t) : Ages none m.k.core t := by
  cases h with
  | same => exact .refl
  | time | overlay => exact ⟨fun _ _ h => h, fun _ _ h => h, id⟩
  | preempt _ =>
    refine Ages.after (.trans ?_ (.update fun _ => rfl))
    exact .setState (.inl (by simp [PState.isGone])) (by simp)
  | run _ _ hw => exact .run hw

theorem of_core {e : Event cfg} (h : CoreStep m e t) (he : e ≠ .ecall)
    (hi : ∀ received, e ≠ .plic received)
    (hk : e = .kernel → ∀ p, m.mode ≠ .switched p) : Aside m t := by
  cases h with
  | same => exact .same
  | time => exact .time
  | overlay => exact .overlay
  | plic _ => exact absurd rfl (hi _)
  | preempt hp => exact .preempt hp
  | call => exact absurd rfl he
  | run hoff hready hw => exact .run hoff hready hw
  | resume _ hmode _ => exact absurd hmode (hk rfl _)

end Aside

/-- A process that is not within a call goes on in user code. -/
theorem resume_core (h : (k.procs p).ctx.isPlain = true) : (outcome (resume p k)).k.core = k.core := by
  have hrun : resume p k = resumeFrom p (k.procs p).ctx k := rfl
  rw [hrun]
  cases hctx : (k.procs p).ctx with
  | forkret => rfl
  | timerTick => rfl
  | exited =>
    rw [resumeFrom, syscallTail, modify_bind_apply, get_bind_apply]
    split
    · rfl
    · rfl
  | _ =>
    rw [hctx] at h
    cases h

/-- The parts that a process leaves alone when it goes on. -/
theorem same_resumed {how : How} {x : Part} (h : Ended (resume p k) how k') (hx : x ∉ resumeParts) :
    x.Same k k' := by
  refine h.same (frame_resume (S := resumeParts) ?_ ?_ ?_ ?_ ?_) hx
  · simp [resumeParts]
  · simp [resumeParts]
  · simp [resumeParts]
  · simp [resumeParts]
  · simp [resumeParts]

/-- What a system call does to the core, also if the kernel halts in it: with the
    kernel that its code has left. -/
inductive CallStep (m : Machine cfg) : Core cfg → Prop
  | none : CallStep m m.k.core
  | call {p : Slot cfg} {c : Call} {how : How} {k₁ : Kernel cfg} : OnCpu p m.k.core →
      Calm p ((trap m).entry p) → callOf (trap m) p = some c →
      final (runCall p c ((trap m).entry p)) = k₁ →
      CallEffect p ((trap m).entry p) c how k₁.core →
      (how = .away → runCall p c ((trap m).entry p) = .error .switch k₁) →
      CallStep m (k₁.core.after how)

theorem ecall_callStep (hb : Base m) (hmode : m.mode = .user) : CallStep m (ecallStep m).k.core := by
  have hat := hb.at_
  rw [hmode] at hat
  obtain ⟨p, hp, hfree⟩ := hat
  have hcpu : m.k.cpuProc = some p := hp.cpu
  have hcalm : Calm p ((trap m).entry p) :=
    ⟨hfree, by rw [show ((trap m).entry p).core = m.k.core from rfl, hp.running]; decide⟩
  have hstep : ecallStep m = outcome (syscall p (trap m)) := by
    rw [ecallStep, hcpu]
  have hrun : syscall p (trap m) = (do
      if stackOverflow (← get) p then throw .hang
      syscallTail p (← dispatch p) : KM cfg Unit) ((trap m).entry p) := rfl
  rw [hstep, hrun, get_bind_apply]
  -- On an overflow of the stack the kernel hangs, and makes no call.
  by_cases ho : stackOverflow ((trap m).entry p) p
  · rw [if_pos ho]
    exact .none
  rw [if_neg ho]
  have hcall : callOf (trap m) p = decodeCall cfg (trap m).trapFrame := if_neg ho
  show CallStep m (outcome ((dispatch p >>= syscallTail p) ((trap m).entry p))).k.core
  -- The result goes into the frame of the trap, which is not in the core.
  have htail : ∀ (ret : ℤ) (k : Kernel cfg), (outcome (syscallTail p ret k)).k.core = k.core := by
    intro ret k
    rw [syscallTail, modify_bind_apply, get_bind_apply]
    split <;> rfl
  cases hd : decodeCall cfg (trap m).trapFrame with
  | none =>
    have h : dispatch p ((trap m).entry p) = (do setErrno p ENOSYS; return -1 : KM cfg ℤ)
        ((trap m).entry p) := by
      rw [dispatch, get_bind_apply, show decodeCall cfg ((trap m).entry p).trapFrame = none from hd]
    rw [bind_ok (h.trans rfl), htail]
    exact .none
  | some c =>
    have h : dispatch p ((trap m).entry p) = runCall p c ((trap m).entry p) := by
      rw [dispatch, get_bind_apply, show decodeCall cfg ((trap m).entry p).trapFrame = some c from hd]
    have hres := runCall_result hcalm hp.cpu (hb.lineal p) c
    revert hres
    generalize hr : runCall p c ((trap m).entry p) = r
    intro hres
    cases hres with
    | back he _ _ =>
      rw [bind_ok (h.trans hr), htail]
      show CallStep m (Core.after _ .back)
      exact .call hp hcalm (hcall.trans hd) (congrArg final hr) he (by simp)
    | @away k₁ he _ _ =>
      have hcpu₁ : k₁.core.cpuProc = some p := (Lawful.of_call he).cpu.trans hp.cpu
      rw [bind_error (h.trans hr), outcome_switch hcpu₁]
      show CallStep m (k₁.core.after .away)
      exact .call hp hcalm (hcall.trans hd) (congrArg final hr) he fun _ => hr
    | halt hhalt he _ =>
      rw [bind_error (h.trans hr), outcome_halt hhalt]
      show CallStep m (Core.after _ .halt)
      exact .call hp hcalm (hcall.trans hd) (congrArg final hr) he (by simp)
    | @deadlock k₁ hc _ _ =>
      rw [bind_error (h.trans hr)]
      exact (show k₁.core = m.k.core from hc) ▸ .none

/-- A process that the kernel does not halt in goes on. -/
theorem resume_kernelStep (hb : Base m) (hmode : m.mode = .switched p)
    (hm : ∀ why, (outcome (resume p m.k)).mode ≠ .halted why) :
    KernelStep m .kernel (outcome (resume p m.k)).k := by
  have hat := hb.at_
  rw [hmode] at hat
  obtain ⟨hp, hfree, -, -⟩ := hat
  have hres := resume_result (k := m.k) ⟨hfree, by rw [hp.running]; decide⟩ (hb.lineal p)
  have hplain := resume_core (p := p) (k := m.k)
  cases hr : resume p m.k with
  | ok a k₁ =>
    rw [hr] at hres hplain
    cases hres with
    | back he _ => exact .resume hp hmode (.back hr) he (fun _ => .refl _) rfl hplain
  | error e k₁ =>
    rw [hr] at hm hres hplain
    cases hres with
    | away he _ =>
      have hcpu : k₁.core.cpuProc = some p := (Lawful.of_resume he).cpu.trans hp.cpu
      rw [outcome_switch hcpu] at hplain ⊢
      exact .resume hp hmode (.away hr) he (fun _ => Part.same_of_parts rfl) rfl hplain
    | halt hhalt _ _ =>
      rw [outcome_halt hhalt] at hm
      exact absurd rfl (hm _)

/-- What received characters do to the core. -/
theorem plic_wakes {received : List UInt8} {t : Core cfg} (h : CoreStep m (.plic received) t) :
    Wakes m.k.core t := by
  cases h with
  | same => exact .refl
  | plic hw => exact hw

/-- Received characters, when the kernel does not halt. -/
theorem plic_kernelStep {received : List UInt8} (hmode : m.mode = .user ∨ m.mode = .idle)
    (h : CoreStep m (.plic received) (plicStep m received).k.core)
    (hm : ∀ why, (plicStep m received).mode ≠ .halted why) :
    KernelStep m (.plic received) (plicStep m received).k := by
  have hw := plic_wakes h
  have htrap : ∀ x : Part, x.Same m.k (trap m) := fun _ => Part.same_of_parts rfl
  have hsame : ∀ x ≠ Part.uart, x.Same m.k (final (uartEnqueueChars received (trap m))) := fun x hx =>
    (htrap x).trans
      (frame_uartEnqueueChars (S := {.uart}) (by simp) received (trap m) x (by simpa using hx))
  rw [plicStep] at hm hw ⊢
  cases hr : uartEnqueueChars received (trap m) with
  | ok _ k =>
    rw [hr] at hw hsame
    exact .plic hmode hr hsame hw
  | error e k =>
    rw [hr] at hm
    exact absurd rfl (hm e)

/-- What a step does that the kernel does not halt in. -/
theorem step_kernelStep {e : Event cfg} (hb : Base m) (h : step e m = some m')
    (hm : ∀ why, m'.mode ≠ .halted why) : KernelStep m e m'.k := by
  have hs := step_stepped hb h
  -- Within the kernel, the parts that its code leaves alone.
  have haside : e ≠ .ecall → (∀ received, e ≠ .plic received) →
      (e = .kernel → ∀ p, m.mode ≠ .switched p) →
      (∀ x : Part, x.Same m.k m'.k) → KernelStep m e m'.k :=
    fun he hi hk hsame => .aside hsame (.of_core hs.core he hi hk)
  have htrap : ∀ x : Part, x.Same m.k (trap m) := fun _ => Part.same_of_parts rfl
  cases e with
  | exec hart stores =>
    cases hmode : m.mode with
    | user | idle =>
      simp only [step, hmode, Option.some.injEq] at h
      subst h
      exact haside (by simp) (by simp) (by simp) fun _ => Part.same_of_parts rfl
    | sched | switched | halted => simp [step, hmode] at h
  | exception =>
    cases hmode : m.mode with
    | user =>
      simp only [step, hmode, Option.some.injEq] at h
      subst h
      exact absurd rfl (hm _)
    | idle | sched | switched | halted => simp [step, hmode] at h
  | ecall =>
    cases hmode : m.mode with
    | user =>
      simp only [step, hmode, Option.some.injEq] at h
      subst h
      exact ecall_kernelStep hb hmode hm
    | idle | sched | switched | halted => simp [step, hmode] at h
  | tick =>
    cases hmode : m.mode with
    | user | idle =>
      simp only [step, hmode, Option.some.injEq] at h
      subst h
      refine haside (by simp) (by simp) (by simp) fun x => ?_
      rw [tickStep]
      cases m.k.cpuProc with
      | none => exact htrap x
      | some p => exact (htrap x).trans (same_outcome (frame_preempt (S := ∅) _ x (by simp)))
    | sched | switched | halted => simp [step, hmode] at h
  | plic received =>
    cases hmode : m.mode with
    | user | idle =>
      simp only [step, hmode, Option.some.injEq] at h
      subst h
      exact plic_kernelStep (by simp [hmode]) hs.core hm
    | sched | switched | halted => simp [step, hmode] at h
  | time ticks =>
    simp only [step, Option.some.injEq] at h
    subst h
    exact haside (by simp) (by simp) (by simp) fun _ => Part.same_of_parts rfl
  | overlay o =>
    simp only [step, Option.some.injEq] at h
    subst h
    exact haside (by simp) (by simp) (by simp) fun _ => Part.same_of_parts rfl
  | kernel =>
    cases hmode : m.mode with
    | sched i iAfterWakeup newLoop =>
      simp only [step, hmode, Option.some.injEq] at h
      subst h
      refine haside (by simp) (by simp) (by simp [hmode]) fun x => ?_
      rw [schedStep]
      split
      · rename_i hi
        split
        · exact Part.same_of_parts rfl
        · have hsame := frame_examine (S := ∅) (p := ⟨i, hi⟩) m.k x (by simp)
          cases hr : examine ⟨i, hi⟩ m.k with
          | ok b k =>
            rw [hr] at hsame
            cases b with
            | true => exact hsame
            | false => exact hsame
          | error e k =>
            rw [hr] at hsame
            exact hsame
      · exact .refl _
    | switched p =>
      simp only [step, hmode, Option.some.injEq] at h
      subst h
      exact resume_kernelStep hb hmode hm
    | user | idle | halted => simp [step, hmode] at h

/-! ## Boot -/

theorem frame_makeKernelPageTable {S : Set Part} (hp : .pages ∈ S) (ht : .pte ∈ S) :
    Frame S (makeKernelPageTable : KM cfg Unit) := by
  rw [makeKernelPageTable]
  split
  · refine (frame_kalloc hp).bind fun pt => ?_
    cases pt with
    | none => exact Frame.throw
    | some pt =>
      refine (frame_clearTable ht).bind fun _ => ?_
      refine (Frame.forM fun _ => frame_mapRange hp ht).bind fun _ => ?_
      refine (Frame.forM fun _ => frame_mapPageSv39 hp ht).bind fun _ => ?_
      exact Frame.forM fun _ => frame_mapPageSv39 hp ht
  · exact Frame.pure

theorem frame_injectLoop {S : Set Part} (ss : List (List UInt8)) (bottom newArgv : ℕ) :
    Frame S (injectLoop ss bottom newArgv : KM cfg ℕ) := by
  induction ss generalizing bottom newArgv with
  | nil => exact frame_store.bind fun _ => Frame.pure
  | cons s ss ih => exact frame_store.bind fun _ => frame_store.bind fun _ => ih _ _

theorem frame_startInit {S : Set Part} (name : List UInt8) : Frame S (startInit p name) := by
  have hscript : Frame S (injectScript p name) := by
    rw [injectScript]
    split
    · exact Frame.pure
    · exact Frame.get.bind fun _ => (frame_injectLoop _ _ _).bind fun _ => frame_modifyProc fun _ => rfl
  refine hscript.bind fun _ => frame_release.bind fun _ => Frame.get.bind fun _ => ?_
  exact frame_record.bind fun _ => Frame.of_rest fun _ => rfl

/-- The first process is set up, but for its registers. -/
theorem startInit_procs {name : List UInt8} (h : startInit p name k = .ok () k') (q : Slot cfg) :
    (k'.procs q).state = (k.procs q).state ∧ (k'.procs q).pid = (k.procs q).pid := by
  obtain ⟨_, k₁, h₁, h⟩ := bind_eq_ok.1 h
  obtain ⟨⟨frame, hc⟩, -⟩ := reframes_injectScript (p := p) name k
  rw [h₁] at hc
  have hc : k₁.core = k.core.update p fun x => { x with trap := frame } := hc
  cases h
  have hstate : (k₁.core.procs q).state = (k.procs q).state ∧
      (k₁.core.procs q).pid = (k.procs q).pid := by
    rw [hc]
    by_cases hq : q = p
    · subst hq
      simp [Kernel.core_procs]
    · simp [Kernel.core_procs, hq]
  exact hstate

/-- `kinit`, when it returns: the slot `p` was filled in by `init_proc`, and the
    pipes are not allocated. -/
theorem kinit_ok (hfree : ∀ l, k.held l = false) (h : kinit k = .ok () k') :
    ∃ k₁ p pc name k₂, makeKernelPageTable k = .ok () k₁ ∧
      initProc p pc (some name) (k₁.setHeld (.proc p) true) = .ok 0 k₂ ∧
      (∀ x : Part, x.isPipe = false → x.Same k₂ k') ∧ (∀ i, (k'.pipes i).anyFlag = false) ∧
      ∀ q, (k'.procs q).state = (k₂.procs q).state ∧ (k'.procs q).pid = (k₂.procs q).pid := by
  obtain ⟨_, k₁, h₁, h⟩ := bind_eq_ok.1 h
  obtain ⟨_, k₄, h₄, h⟩ := bind_eq_ok.1 h
  have hfree₁ : ∀ l, k₁.held l = false := by
    intro l
    have hend := (still_makeKernelPageTable (L := {.pagedMemory}) rfl _ (fun l _ => hfree l) k).2 rfl
    rw [h₁] at hend
    exact (congrFun hend l).trans (hfree l)
  rw [assignInitProgram] at h₄
  cases hprog : findUserProgram (ascii "sh") with
  | none =>
    rw [hprog] at h₄
    cases h₄
  | some prog =>
    rw [hprog] at h₄
    dsimp only at h₄
    rw [bind_ok (allocProcess_apply (hfree₁ _) fun q _ => hfree₁ _)] at h₄
    cases hs : freeSlot k₁ with
    | none =>
      rw [hs] at h₄
      cases h₄
    | some p =>
      rw [hs] at h₄
      obtain ⟨status, k₂, h₂, h₄⟩ := bind_eq_ok.1 h₄
      split at h₄
      · cases h₄
      · rename_i hstatus
        obtain rfl : status = 0 := not_not.1 hstatus
        refine ⟨k₁, p, _, _, k₂, h₁, h₂, fun x hx => ?_, fun i => ?_, ?_⟩
        · -- `init_pipes` writes to the pipes only.
          refine (Frame.same (frame_startInit prog.2) h₄).trans ?_
          cases h
          cases x with
          | ends | ring => cases hx
          | files | pages | pte | kmem | uart => rfl
          | handles | dirs | bfiles => exact fun _ => rfl
          | bdata => exact fun _ => ⟨rfl, rfl⟩
          | fds | procfs | stackPages => exact fun _ => .refl _
        · cases h
          rfl
        · have hprocs := startInit_procs h₄
          cases h
          exact hprocs

/-! ## Runs -/

/-- A path to a state in which the kernel has not halted comes from one. -/
theorem running_of_path {C : Machine cfg → Event cfg → Prop} (h : Path (machine cfg) C m m')
    (hm : ∀ why, m'.mode ≠ .halted why) (why : Stop cfg) : m.mode ≠ .halted why := by
  intro hmode
  obtain ⟨why', h'⟩ := h.induct (I := fun m => ∃ why, m.mode = .halted why) ⟨why, hmode⟩
    fun ⟨why, hw⟩ _ hs => ⟨why, halted_step hw hs⟩
  exact hm why' h'

/-- What is kept by every step that the kernel does not halt in is kept along a
    guarded path on which it does not. -/
theorem kernel_of_path_running {C : Machine cfg → Event cfg → Prop} {I : Kernel cfg → Prop} (hb : Base m)
    (hI : (∃ why, m.mode = .halted why) ∨ I m.k)
    (hstep : ∀ {m k' e}, Base m → I m.k → C m e → KernelStep m e k' → I k')
    (h : Path (machine cfg) C m m') (hm : ∀ why, m'.mode ≠ .halted why) : I m'.k := by
  have hinv : Base m' ∧ ((∃ why, m'.mode = .halted why) ∨ I m'.k) := by
    refine h.induct (I := fun m => Base m ∧ ((∃ why, m.mode = .halted why) ∨ I m.k)) ⟨hb, hI⟩ ?_
    intro u u' e hu hC hs
    refine ⟨(step_stepped hu.1 hs).base, ?_⟩
    rcases hu.2 with ⟨why, hmode⟩ | hI
    · exact .inl ⟨why, halted_step hmode hs⟩
    · by_cases hhalt : ∃ why, u'.mode = .halted why
      · exact .inl hhalt
      · exact .inr (hstep hu.1 hI hC (step_kernelStep hu.1 hs fun why hw => hhalt ⟨why, hw⟩))
  exact hinv.2.resolve_left fun ⟨why, h⟩ => hm why h

/-- What holds of the kernel that has booted, and is kept by every step that the
    kernel does not halt in, holds in every state reached in which it has not. -/
theorem kernel_of_reach_running {C : Machine cfg → Event cfg → Prop} {I : Kernel cfg → Prop}
    (hboot : ∀ {mem k}, kinit (initKernel cfg mem) = .ok () k → I k)
    (hstep : ∀ {m k' e}, Base m → I m.k → C m e → KernelStep m e k' → I k')
    (h : Reach (machine cfg) C m) (hm : ∀ why, m.mode ≠ .halted why) : I m.k := by
  obtain ⟨_, ⟨mem, rfl⟩, hp⟩ := h
  refine kernel_of_path_running (base_boot mem) ?_ hstep hp hm
  rw [boot]
  cases hr : kinit (initKernel cfg mem) with
  | ok a k => exact .inr (hboot hr)
  | error e k => exact .inl ⟨e, rfl⟩

end HobbyOs
