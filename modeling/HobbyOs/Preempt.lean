import HobbyOs.Base

/-!
# Preemption

A process that the timer interrupts is put back to the ready ones, and goes on
in `kernel_timer_tick` when it is switched to. The registers it goes on with are
those that the scheduler loads into `trap_frame`: its saved registers, which
`sched` has not saved.

* `Waiting`: from the interrupt until it is entered again, the process is ready
  or just switched to, with the saved registers it had; whatever else happens;
* `preempted_frame_iff`: so it is entered with the registers it was interrupted
  with if and only if its saved registers were these.
-/

namespace HobbyOs

open Outcome Transition

variable {cfg : Config} {p q : Slot cfg} {k : Kernel cfg} {s t u : Core cfg} {m m' : Machine cfg}

/-! ## A process that is ready -/

/-- If the process `q` is ready, it stays so, with its saved registers and the
    place it goes on from. -/
def Keeps (q : Slot cfg) (s t : Core cfg) : Prop :=
  (s.procs q).state = .ready → (t.procs q).state = .ready ∧ (t.procs q).ctx = (s.procs q).ctx ∧
    (t.procs q).trap = (s.procs q).trap

namespace Keeps

theorem of_eq (h : t.procs q = s.procs q) : Keeps q s t := by
  intro hq
  rw [h]
  exact ⟨hq, rfl, rfl⟩

theorem refl : Keeps q s s := of_eq rfl

theorem trans (h : Keeps q s t) (h' : Keeps q t u) : Keeps q s u := by
  intro hq
  obtain ⟨hs, hc, ht⟩ := h hq
  obtain ⟨hs', hc', ht'⟩ := h' hs
  exact ⟨hs', hc'.trans hc, ht'.trans ht⟩

/-- The parent of a process that exits is made ready: it may be so already. -/
theorem setState_ready {site : Site cfg} : Keeps q s (s.setState p .ready site) := by
  intro hq
  by_cases hqp : q = p
  · subst hqp
    simp
  · simpa [hqp] using hq

theorem setState_of_ne {new : PState} {site : Site cfg} (h : (s.procs p).state ≠ .ready) :
    Keeps q s (s.setState p new site) := by
  intro hq
  have hqp : q ≠ p := fun hqp => h (hqp ▸ hq)
  simpa [hqp] using hq

theorem of_wakes (h : Wakes s t) : Keeps q s t :=
  fun hq => of_eq (h.procs_of_ne_sleeping (by simp [hq])) hq

theorem of_reaps {call : Kont cfg} {pid : ℤ} (h : Reaps p call s t pid) : Keeps q s t := by
  cases h with
  | none _ => exact refl
  | one _ hz => exact setState_of_ne (by simp [hz])

theorem update_of_ne {f : PCore cfg → PCore cfg} (h : q ≠ p) : Keeps q s (s.update p f) :=
  of_eq (by simp [h])

theorem update_chan {c : PCore cfg → Chan cfg} :
    Keeps q s (s.update p fun x => { x with chan := c x }) := by
  intro hq
  by_cases hqp : q = p
  · subst hqp
    simpa using hq
  · simpa [hqp] using hq

theorem sleep_of_ne {f : PCore cfg → PCore cfg} {frame : TrapFrame} {call : Kont cfg} (h : q ≠ p) :
    Keeps q s (s.sleep p f frame call) :=
  of_eq (Core.sleep_procs_of_ne h)

end Keeps

/-- A system call of another process keeps a process that is ready. -/
theorem CallEffect.keeps {c : Call} {how : How} (h : CallEffect p k c how t)
    (hs : (k.core.procs p).state = .running) (hq : q ≠ p) : Keeps q k.core t := by
  cases h with
  | quiet _ hw => exact .of_wakes hw
  | frame _ => exact .update_of_ne hq
  | yield _ hw _ => exact (Keeps.of_wakes hw).trans (.sleep_of_ne hq)
  | sleep => exact .sleep_of_ne hq
  | waited hr _ => exact (Keeps.of_reaps hr).trans (.of_eq rfl)
  | wait hr _ => exact (Keeps.of_reaps hr).trans (.sleep_of_ne hq)
  | waitCond => exact .sleep_of_ne hq
  | @fork r _ _ _ hr ha hf =>
    intro hready
    have hqr : q ≠ r := by
      rintro rfl
      rw [hready] at ha
      cases ha
    exact Keeps.of_eq ((hf.procs_of_ne hqr).trans (Core.update_procs_of_ne _ _ hq)) hready
  | orphan _ => exact .setState_of_ne (by simp [hs])
  | exiting _ hw =>
    exact ((Keeps.setState_of_ne (by simp [hs])).trans .setState_ready).trans (.of_wakes hw)
  | exited _ hw =>
    have h := ((Keeps.setState_of_ne (q := q) (by simp [hs])).trans .setState_ready).trans
      (Keeps.of_wakes hw)
    exact h.trans (.of_eq (by simp [hq]))
  | detached _ _ => exact .update_of_ne hq
  | detachedWake _ _ => exact (Keeps.update_of_ne hq).trans .setState_ready
  | attached _ => exact .update_chan

theorem ResumeEffect.keeps {how : How} (h : ResumeEffect p s how t) (hq : q ≠ p) : Keeps q s t := by
  cases h with
  | same _ => exact .refl
  | waited _ _ hr => exact (Keeps.of_reaps hr).trans (.of_eq rfl)
  | reaped _ _ hr hw => exact (Keeps.of_reaps hr).trans (.of_wakes hw)
  | yield _ hr hw _ => exact ((Keeps.of_reaps hr).trans (.of_wakes hw)).trans (.sleep_of_ne hq)

/-- The scheduler keeps the saved registers of a process it runs. -/
theorem run_procs_self (hw : Wakes ((s.awaken p).run p) t) :
    (t.procs p).state = .running ∧ (t.procs p).ctx = (s.procs p).ctx ∧
      (t.procs p).trap = (s.procs p).trap := by
  rw [hw.procs_of_ne_sleeping (by simp [Core.run])]
  rw [Core.awaken]
  split <;> simp [Core.run]

/-- A step keeps a process that is ready, unless it is the one that the
    scheduler runs. -/
theorem CoreStep.keeps {e : Event cfg} (h : CoreStep m e t) :
    Keeps p m.k.core t ∨ e = .kernel ∧ OffCpu m.k.core ∧ (t.procs p).state = .running ∧
      (t.procs p).ctx = (m.k.core.procs p).ctx ∧ (t.procs p).trap = (m.k.core.procs p).trap := by
  cases h with
  | same => exact .inl .refl
  | time => exact .inl (.of_eq rfl)
  | overlay => exact .inl (.of_eq rfl)
  | plic hw => exact .inl (.of_wakes hw)
  | @preempt r hr =>
    refine .inl fun hp => ?_
    have hpr : p ≠ r := fun h => by simp [h, hr.running] at hp
    exact Keeps.of_eq (by simp [Core.after, hpr]) hp
  | @call r how t hr he =>
    refine .inl fun hp => ?_
    have hpr : p ≠ r := fun h => by simp [h, hr.running] at hp
    have hkeep : Keeps p m.k.core t := by
      cases he with
      | none _ => exact .refl
      | call _ he => exact CallEffect.keeps (k := (trap m).entry r) he hr.running hpr
    cases how <;> exact hkeep hp
  | @run r _ hoff hready hw =>
    -- The scheduler picks `p` itself: this is the step the right side describes.
    by_cases hpr : p = r
    · subst hpr
      exact .inr ⟨rfl, hoff, run_procs_self hw⟩
    · refine .inl (Keeps.trans ?_ (.of_wakes hw))
      exact .of_eq (by simp [Core.run, hpr, Core.awaken_procs_of_ne hpr])
  | @resume r how t hr _ he =>
    refine .inl fun hp => ?_
    have hpr : p ≠ r := fun h => by simp [h, hr.running] at hp
    have hkeep : Keeps p m.k.core t := he.keeps hpr
    cases how <;> exact hkeep hp

/-! ## From the interrupt to the next entry -/

/-- The process `p` runs in user mode. -/
def InUser (p : Slot cfg) (m : Machine cfg) : Prop := m.mode = .user ∧ m.k.cpuProc = some p

instance (p : Slot cfg) (m : Machine cfg) : Decidable (InUser p m) :=
  inferInstanceAs (Decidable (_ ∧ _))

/-- The timer interrupts the process `p` in `m`, and `m'` is the next state in
    which it is entered. -/
structure Preempted (p : Slot cfg) (m m' : Machine cfg) : Prop where
  inUser : InUser p m
  entered : InUser p m'
  next : ∃ m₁ m₂ e, step .tick m = some m₁ ∧
    Path (machine cfg) (fun u _ => ¬InUser p u) m₁ m₂ ∧
    ¬InUser p m₂ ∧ step e m₂ = some m'

/-- The process `p` waits to go on in `kernel_timer_tick`, with these saved
    registers: it is ready, or has just been switched to. -/
structure Waiting (p : Slot cfg) (frame : TrapFrame) (m : Machine cfg) : Prop where
  base : Base m
  ctx : (m.k.core.procs p).ctx = .timerTick
  trap : (m.k.core.procs p).trap = frame
  where_ : (m.k.core.procs p).state = .ready ∨ m.mode = .switched p

/-- The kernel has halted, or the process `p` waits. -/
def WaitingOrHalted (p : Slot cfg) (frame : TrapFrame) (m : Machine cfg) : Prop :=
  (∃ e, m.mode = .halted e) ∨ Waiting p frame m

/-- A step of the scheduler does not go to user mode. -/
theorem schedStep_mode {i : ℕ} {iAfterWakeup : ℤ} {newLoop : Bool} :
    (schedStep m i iAfterWakeup newLoop).mode ≠ .user := by
  rw [schedStep]
  split
  · split
    · simp
    · split <;> simp
  · simp

/-- A process that is ready is not the one in user mode. -/
theorem Base.not_inUser (hb : Base m) (hp : (m.k.core.procs p).state = .ready) : ¬InUser p m := by
  rintro ⟨hmode, hcpu⟩
  have hat := hb.at_
  rw [hmode] at hat
  obtain ⟨r, hr, -⟩ := hat
  have hrp : r = p := Option.some.inj (hr.cpu.symm.trans hcpu)
  have hrun := hr.running
  rw [hrp, hp] at hrun
  cases hrun

/-- A kernel that leaves no process running has not been in user mode. -/
theorem Base.mode_of_offCpu (hb : Base m) (hoff : OffCpu m.k.core) :
    (∃ i iAfterWakeup newLoop, m.mode = .sched i iAfterWakeup newLoop) ∨ m.mode = .idle ∨
      ∃ why, m.mode = .halted why := by
  have hat := hb.at_
  cases hmode : m.mode with
  | user =>
    rw [hmode] at hat
    obtain ⟨r, hr, -⟩ := hat
    exact absurd hr.running (hoff r)
  | switched r =>
    rw [hmode] at hat
    exact absurd hat.1.running (hoff r)
  | sched i a b => exact .inl ⟨i, a, b, rfl⟩
  | idle => exact .inr (.inl rfl)
  | halted why => exact .inr (.inr ⟨why, rfl⟩)

/-- A process that runs is in user mode, just switched to, or the kernel has
    halted. -/
theorem Base.mode_of_running (hb : Base m) (hp : (m.k.core.procs p).state = .running) :
    m.mode = .user ∨ m.mode = .switched p ∨ ∃ why, m.mode = .halted why := by
  have hat := hb.at_
  cases hmode : m.mode with
  | user => exact .inl rfl
  | switched r =>
    rw [hmode] at hat
    have hrp : r = p := by
      by_contra hne
      exact hat.1.only p (Ne.symm hne) hp
    exact .inr (.inl (by rw [hrp]))
  | halted why => exact .inr (.inr ⟨why, rfl⟩)
  | sched | idle =>
    rw [hmode] at hat
    exact absurd hp (hat.1 p)

/-- The scheduler switches to the process. -/
theorem waiting_of_run {frame : TrapFrame} (hb : Base m) (hb' : Base m') (hoff : OffCpu m.k.core)
    (h : step .kernel m = some m') (hrun : (m'.k.core.procs p).state = .running)
    (hctx : (m'.k.core.procs p).ctx = .timerTick) (htrap : (m'.k.core.procs p).trap = frame) :
    WaitingOrHalted p frame m' ∧ ¬InUser p m' := by
  have huser : m'.mode ≠ .user := by
    rcases hb.mode_of_offCpu hoff with ⟨i, a, b, hmode⟩ | hmode | ⟨why, hmode⟩
    · simp only [HobbyOs.step, hmode, Option.some.injEq] at h
      rw [← h]
      exact schedStep_mode
    · simp [HobbyOs.step, hmode] at h
    · simp [HobbyOs.step, hmode] at h
  refine ⟨?_, fun hin => huser hin.1⟩
  rcases hb'.mode_of_running hrun with hmode | hmode | hhalt
  · exact absurd hmode huser
  · exact .inr ⟨hb', hctx, htrap, .inr hmode⟩
  · exact .inl hhalt

/-- The process goes on after it was switched to. -/
theorem Waiting.step_switched {e : Event cfg} {frame : TrapFrame} (hw : Waiting p frame m)
    (hmode : m.mode = .switched p) (h : step e m = some m') :
    Waiting p frame m' ∧ ¬InUser p m' ∨ InUser p m' ∧ m'.k.trapFrame = frame := by
  have hb' := (step_stepped hw.base h).base
  have hat := hw.base.at_
  rw [hmode] at hat
  obtain ⟨hcpu, -, -, hframe⟩ := hat
  cases e with
  | time _ | overlay _ =>
    simp only [HobbyOs.step, Option.some.injEq] at h
    subst h
    refine .inl ⟨⟨hb', hw.ctx, hw.trap, .inr hmode⟩, fun hin => ?_⟩
    simp [InUser, hmode] at hin
  | kernel =>
    simp only [HobbyOs.step, hmode, Option.some.injEq] at h
    have hres : resume p m.k = .ok () m.k := by
      rw [resume, get_bind_apply, show (m.k.procs p).ctx = .timerTick from hw.ctx]
      rfl
    rw [hres] at h
    subst h
    exact .inr ⟨⟨rfl, hcpu.cpu⟩, hframe.trans hw.trap⟩
  | exec | exception | ecall | tick | plic => simp [HobbyOs.step, hmode] at h

/-- The process waits until it is entered, and then has its saved registers. -/
theorem Waiting.step {e : Event cfg} {frame : TrapFrame} (hw : Waiting p frame m)
    (h : step e m = some m') :
    WaitingOrHalted p frame m' ∧ ¬InUser p m' ∨ InUser p m' ∧ m'.k.trapFrame = frame := by
  have hs := step_stepped hw.base h
  rcases hw.where_ with hready | hmode
  · rcases hs.core.keeps (p := p) with hkeep | ⟨rfl, hoff, hrun, hctx, htrap⟩
    · obtain ⟨hready', hctx, htrap⟩ := hkeep hready
      refine .inl ⟨.inr ⟨hs.base, hctx.trans hw.ctx, htrap.trans hw.trap, .inl hready'⟩, ?_⟩
      exact hs.base.not_inUser hready'
    · exact .inl (waiting_of_run hw.base hs.base hoff h hrun (hctx.trans hw.ctx) (htrap.trans hw.trap))
  · rcases hw.step_switched hmode h with ⟨hw', hnot⟩ | h
    · exact .inl ⟨.inr hw', hnot⟩
    · exact .inr h

/-- What waits goes on waiting, unless it is entered. -/
theorem WaitingOrHalted.step {e : Event cfg} {frame : TrapFrame} (hw : WaitingOrHalted p frame m)
    (h : step e m = some m') :
    WaitingOrHalted p frame m' ∧ ¬InUser p m' ∨ InUser p m' ∧ m'.k.trapFrame = frame := by
  rcases hw with ⟨why, hmode⟩ | hw
  · have hmode' := halted_step hmode h
    exact .inl ⟨.inl ⟨why, hmode'⟩, fun hin => by simp [InUser, hmode'] at hin⟩
  · exact hw.step h

/-- The process waits as long as it is not entered. -/
theorem WaitingOrHalted.path {frame : TrapFrame} (hw : WaitingOrHalted p frame m)
    (h : Path (machine cfg) (fun u _ => ¬InUser p u) m m') (hnot : ¬InUser p m') :
    WaitingOrHalted p frame m' := by
  refine (h.induct (I := fun u => InUser p u ∨ WaitingOrHalted p frame u) (.inr hw) ?_).resolve_left hnot
  intro u u' e hu hC hstep
  rcases (hu.resolve_left hC).step hstep with ⟨hw', -⟩ | ⟨hin, -⟩
  · exact .inr hw'
  · exact .inl hin

/-- The timer interrupts the process: it waits, with the saved registers it
    has. -/
theorem waiting_of_tick (hb : Base m) (hin : InUser p m) (h : step .tick m = some m') :
    Waiting p (m.k.procs p).trap m' := by
  have hb' := (step_stepped hb h).base
  obtain ⟨hmode, hcpu⟩ := hin
  obtain ⟨k', hk, hc, -⟩ := preempt_apply p (trap m)
  have hcpu' : k'.core.cpuProc = some p := by
    rw [hc]
    exact hcpu
  simp only [HobbyOs.step, hmode, tickStep, hcpu, hk, Option.some.injEq, outcome_switch hcpu'] at h
  have hp : m'.k.core.procs p = { m.k.core.procs p with state := .ready, ctx := .timerTick } := by
    rw [← h]
    show k'.core.procs p = _
    rw [hc]
    simp [trap, Kernel.core]
  refine ⟨hb', ?_, ?_, .inl ?_⟩
  all_goals rw [hp]
  rfl

/-- A process that the timer interrupts is entered again with the registers it
    was interrupted with if and only if its saved registers are these. -/
theorem preempted_frame_iff (hm : Reach (machine cfg) free m) (h : Preempted p m m') :
    m'.k.trapFrame = m.hart ↔ (m.k.procs p).trap = m.hart := by
  obtain ⟨m₁, m₂, e, htick, hpath, hnot, hstep⟩ := h.next
  have hw : WaitingOrHalted p (m.k.procs p).trap m₂ :=
    WaitingOrHalted.path (.inr (waiting_of_tick (base_of_reach hm) h.inUser htick)) hpath hnot
  rcases hw.step hstep with ⟨-, hnot'⟩ | ⟨-, hframe⟩
  · exact absurd h.entered hnot'
  · rw [hframe]

/-! ## Two runs -/

/-- The machine after the first process has run for a while and is interrupted,
    and the other slots have been looked at. -/
def untilSwitched (m : Machine .qemuE) : Option (Machine .qemuE) :=
  (step .tick m).bind
    (run (fun u _ => ¬InUser ⟨0, Config.qemuE_maxProcs_pos⟩ u) (machine .qemuE) (.replicate 5 .kernel))

/-- The machines at the interrupt and when the process is entered again, after
    the events `es` from a boot. -/
def interruptAfter (es : List (Event .qemuE)) : Option (Machine .qemuE × Machine .qemuE) := do
  let m ← runFrom .qemuE es
  let u ← untilSwitched m
  let m' ← step .kernel u
  if InUser ⟨0, Config.qemuE_maxProcs_pos⟩ m ∧ ¬InUser ⟨0, Config.qemuE_maxProcs_pos⟩ u ∧
      InUser ⟨0, Config.qemuE_maxProcs_pos⟩ m' then some (m, m')
  else none

theorem preempted_of_interruptAfter {es : List (Event .qemuE)} {m m' : Machine .qemuE}
    (h : interruptAfter es = some (m, m')) :
    Reach (machine .qemuE) free m ∧ Preempted ⟨0, by decide⟩ m m' := by
  simp only [interruptAfter, untilSwitched, Option.bind_eq_bind, Option.bind_eq_some_iff] at h
  obtain ⟨u, hu, v, ⟨w, hw, hv⟩, u', hu', h⟩ := h
  split at h
  · obtain ⟨hin, hnot, hin'⟩ := ‹_ ∧ _›
    cases h
    exact ⟨reach_of_runFrom hu, hin, hin', w, v, _, hw, .of_run _ hv, hnot, hu'⟩
  · cases h

/-- The first process changes a register, and is interrupted. -/
def changedRegister : List (Event .qemuE) := [.kernel, .kernel, .exec (callRegs 0x80003ff0 0 7 0 0) []]

theorem changedRegister_lost :
    ¬∀ (m m' : Machine .qemuE) (p : Slot .qemuE), Reach (machine .qemuE) free m → Preempted p m m' →
      m'.k.trapFrame = m.hart := by
  have h : ((interruptAfter changedRegister).map fun x => decide (x.2.k.trapFrame = x.1.hart)) =
      some false := by
    decide +kernel
  obtain ⟨⟨m, m'⟩, hm, hne⟩ := Option.map_eq_some_iff.1 h
  obtain ⟨hreach, hp⟩ := preempted_of_interruptAfter hm
  exact fun hall => of_decide_eq_false hne (hall m m' _ hreach hp)

/-- A process that is interrupted before its first instruction goes on with the
    registers it had. -/
theorem unchanged_registers_kept :
    ∃ m m' : Machine .qemuE, Preempted ⟨0, by decide⟩ m m' ∧ m'.k.trapFrame = m.hart := by
  have h : ((interruptAfter [.kernel, .kernel]).map fun x =>
      decide ((x.1.k.procs ⟨0, by decide⟩).trap = x.1.hart)) = some true := by
    decide +kernel
  obtain ⟨⟨m, m'⟩, hm, heq⟩ := Option.map_eq_some_iff.1 h
  obtain ⟨hreach, hp⟩ := preempted_of_interruptAfter hm
  exact ⟨m, m', hp, (preempted_frame_iff hreach hp).2 (of_decide_eq_true heq)⟩

end HobbyOs
