import HobbyOs.Base

/-!
# Waiting for a lock

On one hart a lock that is held is never given back while its next owner spins
on it, so an `acquire` of a lock that is held halts the machine
(`Stop.deadlock`).

All locks are free when user code runs, but for that of the process on the CPU.
The scheduler takes it before it switches to the process, and only `forkret`
gives it back: a process that goes on after a `swtch` of its own runs with its
lock held, until it is switched out again. The calls that take the caller's
lock (`TakesOwn`) then wait for it forever, and nothing else ever waits.
-/

namespace HobbyOs

open Transition

variable {cfg : Config} {m m' : Machine cfg} {p : Slot cfg}

/-- The machine waits for a lock that is held. -/
def Deadlocked (m : Machine cfg) : Prop := ∃ l, m.mode = .halted (.deadlock l)

/-- A call does not take the caller's lock while it is held. -/
def OwnLockFree (p : Slot cfg) (k : Kernel cfg) (c : Call) : Prop :=
  ¬(TakesOwn p k c ∧ k.held (.proc p) = true)

instance (p : Slot cfg) (k : Kernel cfg) (c : Call) : Decidable (OwnLockFree p k c) :=
  inferInstanceAs (Decidable (¬_))

/-- A call deadlocks if and only if it takes its process's lock, which is held. -/
theorem deadlocked_iff (hb : Base m) (hmode : m.mode = .user) (hp : OnCpu p m.k.core)
    (h : step .ecall m = some m') : Deadlocked m' ↔ Blocks p (trap m) := by
  constructor
  · rintro ⟨l, hl⟩
    rcases (step_stepped hb h).stuck l hl with hhalt | ⟨q, hq, -, -, hblocks⟩
    · rw [hmode] at hhalt
      cases hhalt
    · have hqp : q = p := Option.some.inj (hq.cpu.symm.trans hp.cpu)
      exact hqp ▸ hblocks
  · intro hblocks
    have hat := hb.at_
    rw [hmode] at hat
    obtain ⟨q, hq, hfree⟩ := hat
    have hqp : q = p := Option.some.inj (hq.cpu.symm.trans hp.cpu)
    subst hqp
    have hcpu : m.k.cpuProc = some q := hp.cpu
    have hcalm : Calm q (trap m) :=
      ⟨hfree, by rw [show (trap m).core = m.k.core from rfl, hp.running]; decide⟩
    have hres := syscall_result hcalm hp.cpu (hb.lineal q)
    simp only [step, hmode, ecallStep, hcpu, Option.some.injEq] at h
    subst h
    revert hres
    generalize syscall q (trap m) = r
    intro hres
    -- every other end of a call says that it did not block
    cases hres with
    | back _ _ hno => exact absurd hblocks hno
    | away _ _ hno => exact absurd hblocks hno
    | halt _ _ _ hno => exact absurd hblocks hno
    | deadlock _ _ => exact ⟨_, rfl⟩

/-- The call of the process on the CPU blocks if and only if the condition fails
    for it. -/
theorem onCall_ownLockFree (hp : OnCpu p m.k.core) :
    OnCall OwnLockFree m .ecall ↔ ¬Blocks p (trap m) := by
  have hcpu : m.k.cpuProc = some p := hp.cpu
  simp [OnCall, OwnLockFree, Blocks, hcpu]

theorem not_deadlocked_boot (mem : ℕ → UInt8) : ¬Deadlocked (boot cfg mem) := by
  rintro ⟨l, hl⟩
  rcases boot_result cfg mem with ⟨_, _, _, -, -, hmode⟩ | ⟨e, hmode, he, -⟩
  · rw [hmode] at hl
    cases hl
  · exact he.ne_halted l (hmode.symm.trans hl)

/-- No call waits for a lock, in a run whose calls do not take their process's
    lock while it is held; and from any state reached, a call waits if and only
    if it does that. -/
theorem deadlock_free_iff_own_lock_free :
    (∀ m : Machine cfg, Reach (machine cfg) (OnCall OwnLockFree) m → ¬Deadlocked m) ∧
    ∀ m m' : Machine cfg, Reach (machine cfg) free m → m.mode = .user → step .ecall m = some m' →
      (¬Deadlocked m' ↔ OnCall OwnLockFree m .ecall) := by
  constructor
  · intro m hm
    have hinv : Base m ∧ ¬Deadlocked m := by
      refine hm.invariant (I := fun m => Base m ∧ ¬Deadlocked m) ?_ ?_
      · rintro _ ⟨mem, rfl⟩
        exact ⟨base_boot mem, not_deadlocked_boot mem⟩
      · intro u u' e hu hC hstep
        have hs := step_stepped hu.1 hstep
        refine ⟨hs.base, fun ⟨l, hl⟩ => ?_⟩
        rcases hs.stuck l hl with hl' | ⟨p, hp, rfl, -, hblocks⟩
        · exact hu.2 ⟨l, hl'⟩
        · exact (onCall_ownLockFree hp).1 hC hblocks
    exact hinv.2
  · intro m m' hm hmode hstep
    have hb := base_of_reach hm
    obtain ⟨p, hp, -⟩ : ∃ p, OnCpu p m.k.core ∧ _ := by
      have hat := hb.at_
      rw [hmode] at hat
      exact hat
    rw [onCall_ownLockFree hp, deadlocked_iff hb hmode hp hstep]

/-- A process is switched out by the timer and resumed, and then opens a file. -/
def openAfterTick : List (Event .qemuE) :=
  [.kernel, .kernel, .tick, .kernel, .kernel, .kernel, .kernel, .kernel, .kernel,
    .exec (callRegs 0x80003ff0 5 0x80002000 0 0) [], .ecall]

theorem openAfterTick_deadlocks :
    ¬∀ m : Machine .qemuE, Reach (machine .qemuE) free m → ¬Deadlocked m := by
  have h : (runFrom .qemuE openAfterTick).map (·.mode) =
      some (.halted (.deadlock (.proc ⟨0, by decide⟩))) := by
    decide +kernel
  obtain ⟨m, hm, hmode⟩ := Option.map_eq_some_iff.1 h
  exact fun hall => hall m (reach_of_runFrom hm) ⟨_, hmode⟩

/-- The same call, made before the process has been switched out. -/
def openAtStart : List (Event .qemuE) :=
  [.kernel, .kernel, .exec (callRegs 0x80003ff0 5 0x80002000 0 0) []]

theorem deadlock_free_at_start :
    ∃ m m' : Machine .qemuE, step .ecall m = some m' ∧ OnCall OwnLockFree m .ecall ∧ ¬Deadlocked m' := by
  have h : ((runFrom .qemuE openAtStart).map fun m =>
      decide (m.mode = .user ∧ OnCall OwnLockFree m .ecall)) = some true := by
    decide +kernel
  obtain ⟨m, hm, hok⟩ := Option.map_eq_some_iff.1 h
  obtain ⟨hmode, hfree⟩ := of_decide_eq_true hok
  have hstep : step .ecall m = some (ecallStep m) := by simp [step, hmode]
  exact ⟨m, _, hstep, hfree,
    (deadlock_free_iff_own_lock_free.2 m _ (reach_of_runFrom hm) hmode hstep).2 hfree⟩

end HobbyOs
