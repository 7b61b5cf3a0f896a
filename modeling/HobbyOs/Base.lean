import HobbyOs.Boot

/-!
# The machine, step by step

What holds of the machine in every state reached, and what a step does to
scheduling.

* `Base`: at most one process runs, and it is the one on the CPU; in user mode
  no lock is held but maybe that of this process, in the scheduler none. It
  holds in every state reached (`base_of_reach`);
* `CoreStep`: the inversion of a step. With `Base`, every step does one of these
  to the core (`step_stepped`).
-/

namespace HobbyOs

open Outcome Transition

variable {cfg : Config} {α : Type} {p q : Slot cfg} {k : Kernel cfg} {s t u : Core cfg}

/-! ## Which process runs -/

/-- The process `p` runs, and no other does. -/
structure OnCpu (p : Slot cfg) (s : Core cfg) : Prop where
  cpu : s.cpuProc = some p
  running : (s.procs p).state = .running
  only : ∀ q ≠ p, (s.procs q).state ≠ .running

/-- No process runs. -/
def OffCpu (s : Core cfg) : Prop := ∀ q, (s.procs q).state ≠ .running

/-- No process is its own parent. -/
def Lineal (s : Core cfg) : Prop := ∀ q, (s.procs q).parent ≠ some q

namespace Wakes

theorem onCpu (h : Wakes s t) (hs : OnCpu p s) : OnCpu p t where
  cpu := h.rest.2.2.1.trans hs.cpu
  running := by
    rw [h.procs_of_ne_sleeping (by simp [hs.running])]
    exact hs.running
  only q hq := by
    rcases h.procs_eq q with h | ⟨_, h⟩
    · rw [h]
      exact hs.only q hq
    · simp [h]

theorem offCpu (h : Wakes s t) (hs : OffCpu s) : OffCpu t := by
  intro q
  rcases h.procs_eq q with h | ⟨_, h⟩
  · rw [h]
    exact hs q
  · simp [h]

theorem lineal (h : Wakes s t) (hs : Lineal s) : Lineal t := by
  intro q
  rcases h.procs_eq q with h | ⟨_, h⟩
  · rw [h]
    exact hs q
  · rw [h]
    exact hs q

end Wakes

/-- The CPU is not given to another process, no process but `p` starts to run,
    and none becomes its own parent. -/
structure Lawful (p : Slot cfg) (s t : Core cfg) : Prop where
  cpu : t.cpuProc = s.cpuProc
  only : ∀ q ≠ p, (t.procs q).state = .running → (s.procs q).state = .running
  lineal : Lineal s → Lineal t

namespace Lawful

theorem refl : Lawful p s s := ⟨rfl, fun _ _ h => h, id⟩

theorem trans (h : Lawful p s t) (h' : Lawful p t u) : Lawful p s u :=
  ⟨h'.cpu.trans h.cpu, fun q hq hr => h.only q hq (h'.only q hq hr), fun hs => h'.lineal (h.lineal hs)⟩

/-- An update of fields other than the state and the parent. -/
theorem update {f : PCore cfg → PCore cfg} (hstate : ∀ x, (f x).state = x.state)
    (hpar : ∀ x, (f x).parent = x.parent) : Lawful p s (s.update q f) where
  cpu := rfl
  only r _ h := by
    by_cases hr : r = q
    · subst hr
      simpa [hstate] using h
    · simpa [hr] using h
  lineal hs r := by
    by_cases hr : r = q
    · subst hr
      simpa [hpar] using hs r
    · simpa [hr] using hs r

theorem setState {new : PState} {site : Site cfg} (hnew : new ≠ .running) :
    Lawful p s (s.setState q new site) where
  cpu := rfl
  only r _ h := by
    by_cases hr : r = q
    · subst hr
      simp [hnew] at h
    · simpa [hr] using h
  lineal hs r := by
    by_cases hr : r = q
    · subst hr
      simpa using hs r
    · simpa [hr] using hs r

theorem record {e : Ev cfg} : Lawful p s (s.record e) := ⟨rfl, fun _ _ h => h, id⟩

theorem wake {site : Site cfg} : Lawful p s (s.wake q site) :=
  (setState (by decide)).trans (update (fun _ => rfl) fun _ => rfl)

theorem of_wakes (h : Wakes s t) : Lawful p s t :=
  h.induct (I := Lawful p s) refl fun hu _ _ _ => hu.trans wake

theorem sleep {f : PCore cfg → PCore cfg} {frame : TrapFrame} {call : Kont cfg}
    (hstate : ∀ x, (f x).state = x.state) (hpar : ∀ x, (f x).parent = x.parent) :
    Lawful p s (s.sleep q f frame call) :=
  ((update hstate hpar).trans (setState (by decide))).trans (update (fun _ => rfl) fun _ => rfl)

theorem of_reaps {call : Kont cfg} {pid : ℤ} (h : Reaps p call s t pid) : Lawful p s t := by
  cases h with
  | none _ => exact refl
  | one _ _ => exact setState (by decide)

theorem newPid : Lawful p s (s.newPid q) := by
  have h := update (p := p) (s := s) (q := q)
    (f := fun x => { x with pid := s.pidCounter % 2 ^ 32, uid := s.pidCounter, forker := none })
    (fun _ => rfl) fun _ => rfl
  exact ⟨h.cpu, h.only, h.lineal⟩

theorem fresh {frame : TrapFrame} : Lawful p s (s.fresh q frame) := by
  refine trans ?_ (setState (by decide))
  exact update (fun _ => rfl) fun _ => rfl

theorem counted : Lawful p s s.counted := ⟨rfl, fun _ _ h => h, id⟩

theorem adopted {r : Slot cfg} (h : q ≠ r) : Lawful p s (s.adopted r q) where
  cpu := rfl
  only x _ hx := by
    by_cases hr : x = q
    · subst hr
      simpa [Core.adopted] using hx
    · simpa [Core.adopted, hr] using hx
  lineal hs x := by
    by_cases hr : x = q
    · subst hr
      simpa [Core.adopted] using h.symm
    · simpa [Core.adopted, hr] using hs x

theorem detached : Lawful p s (s.update q fun x => { x with parent := none }) where
  cpu := rfl
  only x _ hx := by
    by_cases hr : x = q
    · subst hr
      simpa using hx
    · simpa [hr] using hx
  lineal hs x := by
    by_cases hr : x = q
    · subst hr
      simp
    · simpa [hr] using hs x

theorem of_forks {how : How} (hq : q ≠ p) (h : Forks k p q s how t) : Lawful p s t := by
  cases h with
  | pid _ => exact newPid
  | full _ => exact newPid.trans fresh
  | fresh => exact newPid.trans fresh
  | adopted => exact ((newPid.trans fresh).trans counted).trans (adopted hq)
  | created =>
    refine trans ?_ record
    refine trans ?_ (update (fun _ => rfl) fun _ => rfl)
    exact ((newPid.trans fresh).trans counted).trans (adopted hq)

theorem of_call {c : Call} {how : How} (h : CallEffect p k c how t) : Lawful p k.core t := by
  cases h with
  | quiet _ hw => exact of_wakes hw
  | frame _ => exact update (fun _ => rfl) fun _ => rfl
  | yield _ hw _ => exact (of_wakes hw).trans (sleep (fun _ => rfl) fun _ => rfl)
  | sleep => exact sleep (fun _ => rfl) fun _ => rfl
  | waited hr _ => exact (of_reaps hr).trans record
  | wait hr _ => exact (of_reaps hr).trans (sleep (fun _ => rfl) fun _ => rfl)
  | waitCond => exact sleep (fun _ => rfl) fun _ => rfl
  | fork hq _ hf =>
    refine trans ?_ (of_forks hq hf)
    exact update (fun _ => rfl) fun _ => rfl
  | orphan _ => exact setState (by decide)
  | exiting _ hw => exact ((setState (by decide)).trans (setState (by decide))).trans (of_wakes hw)
  | exited _ hw =>
    have h := ((setState (by decide)).trans (setState (by decide))).trans (of_wakes (p := p) hw)
    have h := h.trans (update (q := p) (f := fun x => { x with ctx := .exited })
      (fun _ => rfl) fun _ => rfl)
    exact ⟨h.cpu, h.only, h.lineal⟩
  | detached _ _ => exact detached
  | detachedWake _ _ => exact detached.trans (setState (by decide))
  | attached _ => exact update (fun _ => rfl) fun _ => rfl

theorem of_resume {how : How} (h : ResumeEffect p s how t) : Lawful p s t := by
  cases h with
  | same _ => exact refl
  | waited _ _ hr => exact (of_reaps hr).trans record
  | reaped _ _ hr hw => exact (of_reaps hr).trans (of_wakes hw)
  | yield _ hr hw _ =>
    exact ((of_reaps hr).trans (of_wakes hw)).trans (sleep (fun _ => rfl) fun _ => rfl)

end Lawful

/-! ### The process that runs -/

theorem Forks.procs_of_ne {how : How} {r : Slot cfg} (h : Forks k p q s how t) (hr : r ≠ q) :
    t.procs r = s.procs r := by
  cases h <;> simp [Core.newPid, Core.fresh, Core.counted, Core.adopted, hr]

@[simp] theorem Core.sleep_procs_self {f : PCore cfg → PCore cfg} {frame : TrapFrame} {call : Kont cfg} :
    (s.sleep p f frame call).procs p =
      { f (s.procs p) with state := .sleeping, trap := frame, ctx := call } := by
  simp [Core.sleep]

theorem Core.sleep_procs_of_ne {f : PCore cfg → PCore cfg} {frame : TrapFrame} {call : Kont cfg}
    (h : q ≠ p) : (s.sleep p f frame call).procs q = s.procs q := by
  simp [Core.sleep, h]

/-- A call that comes back leaves its process running. -/
theorem CallEffect.own_back {c : Call} (h : CallEffect p k c .back t) (hs : OnCpu p k.core)
    (hl : Lineal k.core) : (t.procs p).state = .running := by
  have hrun := hs.running
  cases h with
  | quiet _ hw => rw [hw.procs_of_ne_sleeping (by simp [hrun]), hrun]
  | frame _ => simpa using hrun
  | waited hr _ => simpa [hr.procs_self (hl p)] using hrun
  | fork hq _ hf => simpa [hf.procs_of_ne hq.symm] using hrun
  | detached _ _ => simpa using hrun
  | @detachedWake r hr _ =>
    have hrp : p ≠ r := fun h => hl p (h ▸ hr)
    simpa [hrp] using hrun
  | @attached _ _ q _ _ =>
    by_cases hq : p = q
    · subst hq
      simpa using hrun
    · simpa [hq] using hrun

/-- A call that goes away leaves its process not running. -/
theorem CallEffect.own_away {c : Call} (h : CallEffect p k c .away t) (hl : Lineal k.core) :
    (t.procs p).state ≠ .running := by
  cases h with
  | quiet h _ => exact absurd rfl h
  | frame h => exact absurd rfl h
  | yield _ _ _ => simp
  | sleep => simp
  | wait _ _ => simp
  | waitCond => simp
  | fork _ _ hf =>
    cases hf with
    | pid h => exact absurd rfl h
  | @exited r _ hr hw =>
    have hrp : p ≠ r := fun h => hl p (h ▸ hr)
    have hz := hw.procs_of_ne_sleeping (q := p) (by simp [hrp])
    simp [hz, hrp]

theorem ResumeEffect.own_back (h : ResumeEffect p s .back t) (hs : OnCpu p s) (hl : Lineal s) :
    (t.procs p).state = .running := by
  have hrun := hs.running
  cases h with
  | same _ => exact hrun
  | waited _ _ hr => simpa [hr.procs_self (hl p)] using hrun
  | reaped _ _ hr hw =>
    have hp := hr.procs_self (hl p)
    rw [hw.procs_of_ne_sleeping (by rw [hp]; simp [hrun]), hp, hrun]

theorem ResumeEffect.own_away (h : ResumeEffect p s .away t) : (t.procs p).state ≠ .running := by
  cases h with
  | same h => exact absurd rfl h
  | waited h _ _ => exact absurd rfl h
  | reaped h _ _ _ => exact absurd rfl h
  | yield _ _ _ _ => simp

/-! ## Where the hart is -/

/-- What holds of the kernel in each mode: which process runs, and which locks
    are held. -/
def At (k : Kernel cfg) : Mode cfg → Prop
  | .user => ∃ p, OnCpu p k.core ∧ ∀ l ∈ others p, k.held l = false
  | .sched i _ newLoop => OffCpu k.core ∧ (∀ l, k.held l = false) ∧ (k.core.cpuProc = none ∨
      newLoop = false ∧ ∃ q, k.core.cpuProc = some q ∧ i ≤ q ∧ (k.core.procs q).state = .ready)
  | .switched p => OnCpu p k.core ∧ (∀ l ∈ others p, k.held l = false) ∧ k.held (.proc p) = true ∧
      k.trapFrame = (k.core.procs p).trap
  | .idle => OffCpu k.core ∧ (∀ l, k.held l = false) ∧ k.core.cpuProc = none
  | .halted _ => True

/-- What holds of the machine in every state reached. -/
structure Base (m : Machine cfg) : Prop where
  lineal : Lineal m.k.core
  at_ : At m.k m.mode

/-- The core after the code of a process has run: it goes back to user mode, or
    away to the scheduler. -/
def Core.after (t : Core cfg) : How → Core cfg
  | .away => { t with cpuProc := none }
  | _ => t

/-- What a step does to the core. -/
inductive CoreStep (m : Machine cfg) : Event cfg → Core cfg → Prop
  | same {e : Event cfg} : CoreStep m e m.k.core
  | time {ticks : ℕ} : CoreStep m (.time ticks) { m.k.core with now := m.k.core.now + ticks }
  | overlay {o : Chan cfg → ℕ × ℕ} : CoreStep m (.overlay o) { m.k.core with overlay := o }
  | plic {received : List UInt8} {t : Core cfg} : Wakes m.k.core t → CoreStep m (.plic received) t
  | preempt {p : Slot cfg} : OnCpu p m.k.core →
      CoreStep m .tick (((m.k.core.setState p .ready .sched).update p fun x =>
        { x with ctx := .timerTick }).after .away)
  | call {p : Slot cfg} {how : How} {t : Core cfg} : OnCpu p m.k.core →
      SyscallEffect p (trap m) how t → CoreStep m .ecall (t.after how)
  | run {p : Slot cfg} {t : Core cfg} : OffCpu m.k.core →
      ((m.k.core.awaken p).procs p).state = .ready → Wakes ((m.k.core.awaken p).run p) t →
      CoreStep m .kernel t
  | resume {p : Slot cfg} {how : How} {t : Core cfg} : OnCpu p m.k.core → m.mode = .switched p →
      ResumeEffect p m.k.core how t → CoreStep m .kernel (t.after how)

theorem OnCpu.of_back (h : Lawful p s t) (hs : OnCpu p s) (hp : (t.procs p).state = .running) :
    OnCpu p t where
  cpu := h.cpu.trans hs.cpu
  running := hp
  only q hq hr := hs.only q hq (h.only q hq hr)

theorem OffCpu.of_away (h : Lawful p s t) (hs : OnCpu p s) (hp : (t.procs p).state ≠ .running) :
    OffCpu t := by
  intro q hr
  by_cases hq : q = p
  · exact hp (hq ▸ hr)
  · exact hs.only q hq (h.only q hq hr)

/-- The machine after code of the process `p` has run that came back. -/
theorem base_back {k' : Kernel cfg} {hart : TrapFrame} (h : Lawful p s k'.core) (hs : OnCpu p s)
    (hl : Lineal s) (hp : (k'.core.procs p).state = .running) (hfree : ∀ l ∈ others p, k'.held l = false) :
    Base ⟨k', hart, .user⟩ :=
  ⟨h.lineal hl, p, .of_back h hs hp, hfree⟩

/-- The machine after code of the process `p` has run that went away. -/
theorem base_away {k' : Kernel cfg} (h : Lawful p s k'.core) (hs : OnCpu p s) (hl : Lineal s)
    (hp : (k'.core.procs p).state ≠ .running) (hfree : ∀ l ∈ others p, k'.held l = false) :
    Base (backToScheduler k' p) := by
  have hoff : OffCpu k'.core := .of_away h hs hp
  refine ⟨h.lineal hl, hoff, fun l => ?_, .inl rfl⟩
  by_cases hlp : l = .proc p
  · subst hlp
    exact Function.update_self _ _ _
  · exact (Function.update_of_ne hlp _ _).trans (hfree l hlp)

theorem SyscallEffect.lawful {how : How} (h : SyscallEffect p k how t) : Lawful p k.core t := by
  cases h with
  | none _ => exact .refl
  | call _ h => exact .of_call (k := k.entry p) h

theorem SyscallEffect.own_back (h : SyscallEffect p k .back t) (hs : OnCpu p k.core)
    (hl : Lineal k.core) : (t.procs p).state = .running := by
  cases h with
  | none _ => exact hs.running
  | call _ h => exact CallEffect.own_back (k := k.entry p) h hs hl

theorem SyscallEffect.own_away (h : SyscallEffect p k .away t) (hl : Lineal k.core) :
    (t.procs p).state ≠ .running := by
  cases h with
  | none h => exact absurd rfl h
  | call _ h => exact CallEffect.own_away (k := k.entry p) h hl

/-- A halt of the kernel is not a wait for a lock. -/
theorem Stop.isHalt.ne_halted {e : Stop cfg} (he : e.isHalt) (l : Lock cfg) :
    Mode.halted e ≠ .halted (.deadlock l) := by
  rintro ⟨⟩
  exact he

/-- A halt of the kernel is one of the machine. -/
theorem outcome_halt {e : Stop cfg} (he : e.isHalt) :
    outcome (.error e k : EStateM.Result _ _ α) = ⟨k, k.trapFrame, .halted e⟩ := by
  cases e with
  | switch => exact absurd he id
  | deadlock _ => exact absurd he id
  | panic => rfl
  | hang => rfl
  | nullProcess => rfl
  | fault => rfl
  | outOfBounds => rfl

/-- A switch to the scheduler is one of the machine. -/
theorem outcome_switch (hcpu : k.core.cpuProc = some p) :
    outcome (.error .switch k : EStateM.Result _ _ α) = backToScheduler k p := by
  simp only [outcome, show k.cpuProc = some p from hcpu]

/-- The effects of a step of the machine: its base stays, its core moves as it
    may, and it waits for a lock only if a system call takes its process's own. -/
structure Stepped (m : Machine cfg) (e : Event cfg) (m' : Machine cfg) : Prop where
  base : Base m'
  core : CoreStep m e m'.k.core
  stuck : ∀ l, m'.mode = .halted (.deadlock l) → m.mode = .halted (.deadlock l) ∨
    ∃ p, OnCpu p m.k.core ∧ e = .ecall ∧ l = .proc p ∧ Blocks p (trap m)

variable {m m' : Machine cfg}

theorem stepped_ecall (hb : Base m) (hmode : m.mode = .user) : Stepped m .ecall (ecallStep m) := by
  have hat := hb.at_
  rw [hmode] at hat
  obtain ⟨p, hp, hfree⟩ := hat
  have hcpu : m.k.cpuProc = some p := hp.cpu
  have hcalm : Calm p (trap m) :=
    ⟨hfree, by rw [show (trap m).core = m.k.core from rfl, hp.running]; decide⟩
  have hres := syscall_result hcalm hp.cpu (hb.lineal p)
  rw [ecallStep, hcpu]
  revert hres
  dsimp only
  generalize syscall p (trap m) = r
  intro hres
  cases hres with
  | back he hfree' _ =>
    exact ⟨base_back he.lawful hp hb.lineal (he.own_back hp hb.lineal) hfree', .call hp he, nofun⟩
  | away he hfree' _ =>
    rw [outcome_switch (he.lawful.cpu.trans hp.cpu)]
    exact ⟨base_away he.lawful hp hb.lineal (he.own_away hb.lineal) hfree', .call hp he, nofun⟩
  | @halt e how k' hhalt haway he _ =>
    rw [outcome_halt hhalt]
    refine ⟨⟨he.lawful.lineal hb.lineal, trivial⟩, ?_, fun l h => absurd h (hhalt.ne_halted l)⟩
    have := CoreStep.call hp he
    cases how with
    | back => exact this
    | halt => exact this
    | away => exact absurd rfl haway
  -- It waits for its own lock for ever: the machine halts.
  | @deadlock k' hc hblocks =>
    have hc : k'.core = m.k.core := hc
    refine ⟨⟨show Lineal k'.core from hc ▸ hb.lineal, trivial⟩,
      show CoreStep m _ k'.core from hc ▸ .same, fun l h => .inr ⟨p, hp, rfl, ?_, hblocks⟩⟩
    cases h
    rfl

theorem stepped_resume {p : Slot cfg} (hb : Base m) (hmode : m.mode = .switched p) :
    Stepped m .kernel (outcome (resume p m.k)) := by
  have hat := hb.at_
  rw [hmode] at hat
  obtain ⟨hp, hfree, -, -⟩ := hat
  have hres := resume_result (k := m.k) ⟨hfree, by rw [hp.running]; decide⟩ (hb.lineal p)
  revert hres
  generalize resume p m.k = r
  intro hres
  cases hres with
  | back he hfree' =>
    exact ⟨base_back (.of_resume he) hp hb.lineal (he.own_back hp hb.lineal) hfree',
      .resume hp hmode he, nofun⟩
  | away he hfree' =>
    rw [outcome_switch ((Lawful.of_resume he).cpu.trans hp.cpu)]
    exact ⟨base_away (.of_resume he) hp hb.lineal he.own_away hfree', .resume hp hmode he, nofun⟩
  | @halt e how k' hhalt haway he =>
    rw [outcome_halt hhalt]
    refine ⟨⟨(Lawful.of_resume he).lineal hb.lineal, trivial⟩, ?_, fun l h =>
      absurd h (hhalt.ne_halted l)⟩
    have := CoreStep.resume hp hmode he
    cases how with
    | back => exact this
    | halt => exact this
    | away => exact absurd rfl haway

theorem stepped_tick (hb : Base m) (hmode : m.mode = .user ∨ m.mode = .idle) :
    Stepped m .tick (tickStep m) := by
  have hat := hb.at_
  rcases hmode with hmode | hmode
  · rw [hmode] at hat
    obtain ⟨p, hp, hfree⟩ := hat
    have hcpu : m.k.cpuProc = some p := hp.cpu
    obtain ⟨k', h, hc, hh⟩ := preempt_apply p (trap m)
    replace hc : k'.core = (m.k.core.setState p .ready .sched).update p fun x =>
      { x with ctx := .timerTick } := hc
    replace hh : k'.held = m.k.held := hh
    have hlaw : Lawful p m.k.core k'.core := by
      rw [hc]
      exact (Lawful.setState (by decide)).trans (.update (fun _ => rfl) fun _ => rfl)
    simp only [tickStep, hcpu]
    rw [h, outcome_switch (hlaw.cpu.trans hp.cpu)]
    refine ⟨base_away hlaw hp hb.lineal (by simp [hc]) (by rw [hh]; exact hfree), ?_, nofun⟩
    have := CoreStep.preempt hp
    rw [← hc] at this
    exact this
  · rw [hmode] at hat
    obtain ⟨hoff, hfree, hcpu⟩ := hat
    have hcpu' : m.k.cpuProc = none := hcpu
    simp only [tickStep, hcpu']
    exact ⟨⟨hb.lineal, hoff, hfree, .inl hcpu⟩, .same, nofun⟩

theorem stepped_plic {received : List UInt8} (hb : Base m) (hmode : m.mode = .user ∨ m.mode = .idle) :
    Stepped m (.plic received) (plicStep m received) := by
  have hat := hb.at_
  -- An interrupt finds the table unlocked and no sleeper locked, in user mode and in
  -- the idle loop.
  have hlocks : (∀ l ∈ ({.procTable} : Set (Lock cfg)), (trap m).held l = false) ∧
      ∀ q, (trap m).held (.proc q) = true → ((trap m).core.procs q).state ≠ .sleeping := by
    rcases hmode with hmode | hmode
    · rw [hmode] at hat
      obtain ⟨p, hp, hfree⟩ := hat
      have hcalm : Calm p (trap m) :=
        ⟨hfree, by rw [show (trap m).core = m.k.core from rfl, hp.running]; decide⟩
      refine ⟨?_, hcalm.sleepers⟩
      rintro l rfl
      exact hfree _ (by simp)
    · rw [hmode] at hat
      obtain ⟨-, hfree, -⟩ := hat
      exact ⟨fun l _ => hfree l, fun q hq => by rw [show (trap m).held _ = _ from hfree _] at hq; cases hq⟩
  rw [plicStep]
  rcases (quiet_uartEnqueueChars (L := {.procTable}) rfl received).result
    hlocks.1 hlocks.2 with ⟨_, k', h, hw, hh⟩ | ⟨e, k', h, he, hw⟩
  · have hw : Wakes m.k.core k'.core := hw
    have hh : k'.held = m.k.held := hh
    rw [h]
    refine ⟨⟨hw.lineal hb.lineal, ?_⟩, .plic hw, fun l h => .inl h⟩
    rcases hmode with hmode | hmode
    · simp only [hmode] at hat ⊢
      obtain ⟨p, hp, hfree⟩ := hat
      exact ⟨p, hw.onCpu hp, by rw [hh]; exact hfree⟩
    · simp only [hmode] at hat ⊢
      obtain ⟨hoff, hfree, hcpu⟩ := hat
      exact ⟨hw.offCpu hoff, by rw [hh]; exact hfree, hw.rest.2.2.1.trans hcpu⟩
  · have hw : Wakes m.k.core k'.core := hw
    rw [h]
    exact ⟨⟨hw.lineal hb.lineal, trivial⟩, .plic hw, fun l h => absurd h (he.ne_halted l)⟩

theorem Core.awaken_procs_of_ne (h : q ≠ p) : (s.awaken p).procs q = s.procs q := by
  rw [Core.awaken]
  split
  · simp [h]
  · rfl

/-- The process that the scheduler runs is on the CPU. -/
theorem onCpu_run (hs : OffCpu s) : OnCpu p ((s.awaken p).run p) where
  cpu := rfl
  running := by simp [Core.run]
  only q hq := by simpa [Core.run, hq, Core.awaken_procs_of_ne hq] using hs q

theorem lineal_run (hs : Lineal s) : Lineal ((s.awaken p).run p) := by
  have hparent : ∀ q, (((s.awaken p).run p).procs q).parent = (s.procs q).parent := by
    intro q
    by_cases hq : q = p
    · subst hq
      rw [Core.awaken]
      split <;> simp [Core.run]
    · simp [Core.run, hq, Core.awaken_procs_of_ne hq]
  intro q
  rw [hparent]
  exact hs q

theorem stepped_sched {i : ℕ} {iAfterWakeup : ℤ} {newLoop : Bool} (hb : Base m)
    (hmode : m.mode = .sched i iAfterWakeup newLoop) :
    Stepped m .kernel (schedStep m i iAfterWakeup newLoop) := by
  have hat := hb.at_
  rw [hmode] at hat
  obtain ⟨hoff, hfree, hcpu⟩ := hat
  rw [schedStep]
  split
  case isTrue hi =>
    split
    case isTrue hidle =>
      -- It goes idle; in a new loop nobody is on the CPU.
      have hcpu : m.k.core.cpuProc = none := hcpu.resolve_right fun h => by simp [h.1] at hidle
      exact ⟨⟨hb.lineal, hoff, hfree, hcpu⟩, .same, nofun⟩
    case isFalse =>
      have hres := examine_result hfree ⟨i, hi⟩
      revert hres
      generalize examine ⟨i, hi⟩ m.k = r
      intro hres
      cases hres with
      | @pass k' hdue hready hc hh =>
        refine ⟨⟨show Lineal k'.core from hc ▸ hb.lineal, show OffCpu k'.core from hc ▸ hoff,
          fun l => (congrFun hh l).trans (hfree l), ?_⟩, show CoreStep m _ k'.core from hc ▸ .same, nofun⟩
        show k'.core.cpuProc = none ∨ newLoop = false ∧ ∃ q : Slot cfg, k'.core.cpuProc = some q ∧
          i + 1 ≤ q ∧ (k'.core.procs q).state = .ready
        rw [hc]
        refine hcpu.imp id fun ⟨hnew, q, hq, hiq, hqr⟩ => ⟨hnew, q, hq, ?_, hqr⟩
        -- The process on the CPU is still ahead: it is READY, and the one just passed
        -- was not.
        rcases Nat.lt_or_eq_of_le hiq with h | h
        · exact h
        · subst h
          exact absurd hqr hready
      | switch hready hw hh ht =>
        refine ⟨⟨hw.lineal (lineal_run hb.lineal), hw.onCpu (onCpu_run hoff), ?_, ?_, ht⟩,
          .run hoff hready hw, nofun⟩
        · intro l hl
          rw [hh, Function.update_of_ne hl]
          exact hfree l
        · rw [hh]
          exact Function.update_self _ _ _
      | halt he hready hw =>
        exact ⟨⟨hw.lineal (lineal_run hb.lineal), trivial⟩, .run hoff hready hw,
          fun l h => absurd h (he.ne_halted l)⟩
  case isFalse hi =>
    refine ⟨⟨hb.lineal, hoff, hfree, .inl (hcpu.resolve_right ?_)⟩, .same, nofun⟩
    rintro ⟨_, q, _, hiq, _⟩
    exact hi (Nat.lt_of_le_of_lt hiq q.isLt)

/-- The time and the memory of other objects are none of the base. -/
theorem At.of_eq {k k' : Kernel cfg} {mode : Mode cfg} (h : At k mode)
    (hprocs : k'.core.procs = k.core.procs) (hcpu : k'.core.cpuProc = k.core.cpuProc)
    (hheld : k'.held = k.held) (hframe : k'.trapFrame = k.trapFrame) : At k' mode := by
  cases mode with
  | user =>
    obtain ⟨p, hp, hfree⟩ := h
    exact ⟨p, ⟨hcpu.trans hp.cpu, hprocs ▸ hp.running, hprocs ▸ hp.only⟩, hheld ▸ hfree⟩
  | sched i iAfterWakeup newLoop =>
    obtain ⟨hoff, hfree, hq⟩ := h
    refine ⟨show OffCpu k'.core from fun q => hprocs ▸ hoff q, hheld ▸ hfree, ?_⟩
    rw [hcpu, hprocs]
    exact hq
  | switched p =>
    obtain ⟨hp, hfree, hown, ht⟩ := h
    refine ⟨⟨hcpu.trans hp.cpu, hprocs ▸ hp.running, hprocs ▸ hp.only⟩,
      hheld ▸ hfree, hheld ▸ hown, ?_⟩
    rw [hframe, hprocs]
    exact ht
  | idle =>
    obtain ⟨hoff, hfree, hq⟩ := h
    exact ⟨fun q => hprocs ▸ hoff q, hheld ▸ hfree, hcpu.trans hq⟩
  | halted _ => trivial

/-- Every step keeps the base, and moves the core as it may. -/
theorem step_stepped {e : Event cfg} (hb : Base m) (h : step e m = some m') : Stepped m e m' := by
  -- One case for each event; in a mode that does not take the event there is no step.
  cases e with
  | exec hart stores =>
    cases hmode : m.mode with
    | user =>
      simp only [step, hmode, Option.some.injEq] at h
      subst h
      have hat : At m.k .user := hmode ▸ hb.at_
      exact ⟨⟨hb.lineal, hat.of_eq rfl rfl rfl rfl⟩, .same, nofun⟩
    | idle =>
      simp only [step, hmode, Option.some.injEq] at h
      subst h
      have hat : At m.k .idle := hmode ▸ hb.at_
      exact ⟨⟨hb.lineal, hat⟩, .same, nofun⟩
    | sched | switched | halted => simp [step, hmode] at h
  | exception =>
    cases hmode : m.mode with
    | user =>
      simp only [step, hmode, Option.some.injEq] at h
      subst h
      exact ⟨⟨hb.lineal, trivial⟩, .same, nofun⟩
    | idle | sched | switched | halted => simp [step, hmode] at h
  | ecall =>
    cases hmode : m.mode with
    | user =>
      simp only [step, hmode, Option.some.injEq] at h
      exact h ▸ stepped_ecall hb hmode
    | idle | sched | switched | halted => simp [step, hmode] at h
  | tick =>
    cases hmode : m.mode with
    | user | idle =>
      simp only [step, hmode, Option.some.injEq] at h
      exact h ▸ stepped_tick hb (by simp [hmode])
    | sched | switched | halted => simp [step, hmode] at h
  | plic received =>
    cases hmode : m.mode with
    | user | idle =>
      simp only [step, hmode, Option.some.injEq] at h
      exact h ▸ stepped_plic hb (by simp [hmode])
    | sched | switched | halted => simp [step, hmode] at h
  | time ticks =>
    simp only [step, Option.some.injEq] at h
    subst h
    exact ⟨⟨hb.lineal, hb.at_.of_eq rfl rfl rfl rfl⟩, .time, fun l h => .inl h⟩
  | overlay o =>
    simp only [step, Option.some.injEq] at h
    subst h
    exact ⟨⟨hb.lineal, hb.at_.of_eq rfl rfl rfl rfl⟩, .overlay, fun l h => .inl h⟩
  | kernel =>
    cases hmode : m.mode with
    | sched i iAfterWakeup newLoop =>
      simp only [step, hmode, Option.some.injEq] at h
      exact h ▸ stepped_sched hb hmode
    | switched p =>
      simp only [step, hmode, Option.some.injEq] at h
      exact h ▸ stepped_resume hb hmode
    | user | idle | halted => simp [step, hmode] at h

/-- The base of the machine when it boots. -/
theorem base_boot (mem : ℕ → UInt8) : Base (boot cfg mem) := by
  rcases boot_result cfg mem with ⟨p, frame, frame', hc, hfree, hmode⟩ | ⟨e, hmode, -, hc⟩
  · have hprocs : ∀ q, ((boot cfg mem).k.core.procs q).parent = none ∧
        ((boot cfg mem).k.core.procs q).state = if q = p then .ready else .available := by
      intro q
      rw [hc]
      by_cases hq : q = p
      · subst hq
        simp [Core.booted, Core.newPid, Core.fresh, Core.counted, Core.init, zeroProc]
      · simp [Core.booted, Core.newPid, Core.fresh, Core.counted, Core.init, zeroProc, hq]
    refine ⟨fun q h => by simp [(hprocs q).1] at h, ?_⟩
    rw [hmode]
    refine ⟨fun q h => ?_, hfree, .inr ⟨rfl, p, by rw [hc]; rfl, Nat.zero_le _, by simp [hprocs]⟩⟩
    rw [(hprocs q).2] at h
    split at h <;> cases h
  · refine ⟨fun q h => ?_, by rw [hmode]; trivial⟩
    simp [hc.parent q] at h

theorem base_of_reach {C : Machine cfg → Event cfg → Prop} (h : Reach (machine cfg) C m) : Base m := by
  refine h.invariant ?_ fun hb _ hstep => (step_stepped hb hstep).base
  rintro _ ⟨mem, rfl⟩
  exact base_boot mem

/-- A process that traps is running, and no other process's lock is held. -/
theorem calm_of_reach {C : Machine cfg → Event cfg → Prop} {p : Slot cfg} (h : Reach (machine cfg) C m)
    (hmode : m.mode = .user) (hp : m.k.cpuProc = some p) :
    Calm p ((trap m).entry p) ∧ (m.k.procs p).state = .running := by
  have hat := (base_of_reach h).at_
  rw [hmode] at hat
  obtain ⟨p', hp', hfree⟩ := hat
  obtain rfl : p' = p := Option.some.inj (hp'.cpu.symm.trans hp)
  refine ⟨⟨hfree, ?_⟩, hp'.running⟩
  rw [show (((trap m).entry p').core.procs p').state = .running from hp'.running]
  decide

/-- A kernel that has halted stays so. -/
theorem halted_step {e : Event cfg} {why : Stop cfg} (hmode : m.mode = .halted why)
    (h : step e m = some m') : m'.mode = .halted why := by
  cases e with
  | time _ | overlay _ =>
    simp only [step, Option.some.injEq] at h
    rw [← h]
    exact hmode
  | exec | exception | ecall | tick | plic | kernel => simp [step, hmode] at h

/-- What holds of the core of a kernel that has booted or halted on the way, and
    is kept by every step, holds in every state reached. -/
theorem core_of_reach {C : Machine cfg → Event cfg → Prop} {I : Core cfg → Prop}
    (hboot : ∀ p frame frame', I ((Core.init cfg).booted p frame frame')) (hhalf : ∀ s, Halfway s → I s)
    (hstep : ∀ {m m' e}, Base m → I m.k.core → C m e → step e m = some m' → I m'.k.core)
    (h : Reach (machine cfg) C m) : I m.k.core := by
  have hinv : Base m ∧ I m.k.core := by
    refine h.invariant (I := fun m => Base m ∧ I m.k.core) ?_ fun hu hC hs =>
      ⟨(step_stepped hu.1 hs).base, hstep hu.1 hu.2 hC hs⟩
    rintro _ ⟨mem, rfl⟩
    refine ⟨base_boot mem, ?_⟩
    rcases boot_result cfg mem with ⟨p, frame, frame', hc, -, -⟩ | ⟨e, -, -, hc⟩
    · exact hc ▸ hboot p frame frame'
    · exact hhalf _ hc
  exact hinv.2

/-- What holds of the core of a kernel that has booted, and is kept by every
    step, holds in every state reached in which the kernel has not halted. -/
theorem core_of_reach_running {C : Machine cfg → Event cfg → Prop} {I : Core cfg → Prop}
    (hboot : ∀ p frame frame', I ((Core.init cfg).booted p frame frame'))
    (hstep : ∀ {m m' e}, Base m → I m.k.core → C m e → step e m = some m' → I m'.k.core)
    (h : Reach (machine cfg) C m) (hm : ∀ why, m.mode ≠ .halted why) : I m.k.core := by
  have hinv : Base m ∧ ((∃ why, m.mode = .halted why) ∨ I m.k.core) := by
    refine h.invariant (I := fun m => Base m ∧ ((∃ why, m.mode = .halted why) ∨ I m.k.core)) ?_ ?_
    · rintro _ ⟨mem, rfl⟩
      refine ⟨base_boot mem, ?_⟩
      rcases boot_result cfg mem with ⟨p, frame, frame', hc, -, -⟩ | ⟨e, hmode, -, -⟩
      · exact .inr (hc ▸ hboot p frame frame')
      · exact .inl ⟨e, hmode⟩
    · intro u u' e hu hC hs
      refine ⟨(step_stepped hu.1 hs).base, ?_⟩
      rcases hu.2 with ⟨why, hmode⟩ | hI
      · exact .inl ⟨why, halted_step hmode hs⟩
      · exact .inr (hstep hu.1 hI hC hs)
  exact hinv.2.resolve_left fun ⟨why, h⟩ => hm why h

/-! ## Conditions on steps -/

/-- Every system call that is made meets `P`: a condition on its process, the
    kernel it runs in, and the call. -/
def OnCall (P : Slot cfg → Kernel cfg → Call → Prop) (m : Machine cfg) : Event cfg → Prop
  | .ecall => ∀ p ∈ m.k.cpuProc, ∀ c ∈ callOf (trap m) p, P p ((trap m).entry p) c
  | _ => True

/-- Every process that is switched to meets `P` when it goes on. -/
def OnResume (P : Slot cfg → Kernel cfg → Prop) (m : Machine cfg) : Event cfg → Prop
  | .kernel => ∀ p, m.mode = .switched p → P p m.k
  | _ => True

instance (P : Slot cfg → Kernel cfg → Call → Prop) [∀ p k c, Decidable (P p k c)] (m : Machine cfg) :
    DecidablePred (OnCall P m)
  | .ecall => inferInstanceAs (Decidable (∀ p ∈ m.k.cpuProc, ∀ c ∈ callOf (trap m) p, _))
  | .exec .. | .exception | .tick | .plic _ | .time _ | .overlay _ | .kernel => .isTrue trivial

instance (P : Slot cfg → Kernel cfg → Prop) [∀ p k, Decidable (P p k)] (m : Machine cfg) :
    DecidablePred (OnResume P m)
  | .kernel => inferInstanceAs (Decidable (∀ p, m.mode = .switched p → P p m.k))
  | .exec .. | .exception | .tick | .plic _ | .time _ | .overlay _ | .ecall => .isTrue trivial

/-! ## Runs -/

/-- The registers of a process that makes a call with three arguments. -/
def callRegs (sp number arg0 arg1 arg2 : ℕ) : TrapFrame :=
  ((((TrapFrame.zero.set TrapFrame.sp sp).set TrapFrame.a7 number).set TrapFrame.a0 arg0).set TrapFrame.a1
    arg1).set TrapFrame.a2 arg2

/-- The events of a process that makes a call, with bytes stored before it. -/
def calls (number arg0 arg1 arg2 : ℕ) (stores : List (ℕ × List UInt8)) : List (Event .qemuE) :=
  [.exec (callRegs 0x80003ff0 number arg0 arg1 arg2) stores, .ecall]

/-- The machine after the events `es`, from a boot on zeroed memory. -/
def runFrom (cfg : Config) (es : List (Event cfg)) : Option (Machine cfg) :=
  run free (machine cfg) es (boot cfg fun _ => 0)

theorem reach_of_runFrom {es : List (Event cfg)} (h : runFrom cfg es = some m) :
    Reach (machine cfg) free m :=
  Reach.of_run free ⟨_, rfl⟩ h

/-- The change of a state that an event records. -/
def Ev.change? : Ev cfg → Option (Change cfg)
  | .change c => some c
  | _ => none

theorem Ev.eq_change {e : Ev cfg} {c : Change cfg} (h : c ∈ e.change?) : e = .change c := by
  cases e with
  | change c' => exact congrArg _ (Option.some.inj h)
  | created _ | waited _ _ => cases h

/-- The first process forks and waits, its child exits, and the first process goes
    on. -/
def forkAndWait : List (Event .qemuE) :=
  [Event.kernel, .kernel] ++ calls 2 0 0 0 [] ++ calls 7 0 0 0 [] ++ [Event.kernel, .kernel] ++
    calls 1 0 0 0 [] ++
    .replicate 5 .kernel

end HobbyOs
