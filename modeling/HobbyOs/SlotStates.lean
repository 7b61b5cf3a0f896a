import HobbyOs.Lib.Hoare
import HobbyOs.Kinship

/-!
# The states of a slot

The changes of the `state` of a slot that the history of a run may hold
(`Change.Allowed`). They are the only ones as long as no process exits before
its children, no `fork` is left unfinished, and a child that has exited is left
to a wait (`states_allowed`).
-/

namespace HobbyOs

open Outcome Transition

variable {cfg : Config} {p q : Slot cfg} {k : Kernel cfg} {s t : Core cfg} {m : Machine cfg}
  {R : Core cfg → Deed cfg → Prop}

/-- The call is a `proc_wait`. -/
def Kont.isWait : Kont cfg → Bool
  | .waitChild | .waitCond .. => true
  | _ => false

/-- The changes of a state that are allowed, in a run with the history `log`. -/
inductive Change.Allowed (log : List (Ev cfg)) (c : Change cfg) : Prop
  | same : c.new = c.old.state → Allowed log c
  | created : c.old.state = .available → c.new = .ready → c.site = .initProc →
      .created c.old.uid ∈ log →
      Allowed log c
  | run : c.old.state = .ready → c.new = .running → c.site = .scheduler → Allowed log c
  /-- By the process itself. -/
  | own : c.old.state = .running → c.new = .ready ∨ c.new = .sleeping ∨ c.new = .zombie →
      c.by_ = some c.old.uid → Allowed log c
  | woken : c.old.state = .sleeping → c.new = .ready → Allowed log c
  | freed {call : Kont cfg} : c.old.state = .zombie → c.new = .available → c.site = .reap call →
      call.isWait = true → Allowed log c

theorem Change.Allowed.cons {log : List (Ev cfg)} {c : Change cfg} {e : Ev cfg} (h : c.Allowed log) :
    c.Allowed (e :: log) := by
  cases h with
  | same h => exact .same h
  | created hold hnew hsite hlog => exact .created hold hnew hsite (List.mem_cons_of_mem e hlog)
  | run hold hnew hsite => exact .run hold hnew hsite
  | own hold hnew hby => exact .own hold hnew hby
  | woken hold hnew => exact .woken hold hnew
  | freed hold hnew hsite hcall => exact .freed hold hnew hsite hcall

/-- All changes in the history are allowed. -/
def AllAllowed (log : List (Ev cfg)) : Prop := ∀ c, .change c ∈ log → c.Allowed log

namespace AllAllowed

variable {log : List (Ev cfg)}

theorem cons (h : AllAllowed log) {e : Ev cfg} (he : ∀ c, e = .change c → c.Allowed (e :: log)) :
    AllAllowed (e :: log) := by
  intro c hc
  rcases List.mem_cons.1 hc with rfl | hc
  · exact he c rfl
  · exact (h c hc).cons

theorem setState {new : PState} {site : Site cfg} (h : AllAllowed s.log)
    (hc : Change.Allowed s.log ⟨q, s.procs q, new, site, s.cpuProc.map fun c => (s.procs c).uid, s.now⟩) :
    AllAllowed (s.setState q new site).log := by
  rw [Core.setState_log]
  refine h.cons fun c he => ?_
  cases he
  exact hc.cons

end AllAllowed

/-- No process exits before its children, no process is left unfinished, and
    only a wait frees one. -/
def regularRule (s : Core cfg) : Deed cfg → Prop
  | .exit p => Childless false s p
  | .reap _ _ call => call.isWait = true
  | .half _ _ => False
  | .fork _ => True

/-- Parents are as they should be, and the history holds allowed changes only. -/
structure Governed (s : Core cfg) : Prop where
  family : Family false s
  log : AllAllowed s.log

namespace Governed

theorem created {frame frame' : TrapFrame} (h : AllAllowed s.log) (hq : (s.procs q).state = .available) :
    AllAllowed (((((s.newPid q).fresh q frame).counted.adopted p q).update q fun x =>
      { x with trap := frame' }).record (.created s.pidCounter)).log := by
  -- The creation is recorded last, so the change of the state is that of a creation.
  intro c hc
  simp only [Core.record_log, Core.update_log, Core.adopted, Core.counted, Core.fresh, Core.setState_log,
    Core.newPid, List.mem_cons, reduceCtorEq, false_or] at hc ⊢
  rcases hc with hc | hc
  · cases hc
    refine .created ?_ rfl rfl ?_
    · simpa using hq
    · simp
  · exact (h c hc).cons.cons

/-- The parent of a process that exits is ready or asleep. -/
theorem exit {r : Slot cfg} (h : Governed s) (hc : Childless false s p) (hcpu : s.cpuProc = some p)
    (hp : (s.procs p).state = .running) (hr : (s.procs p).parent = some r) (hrp : r ≠ p)
    (hrun : (s.procs r).state ≠ .running) {site : Site cfg} :
    AllAllowed ((s.setState p .zombie .exit).setState r .ready site).log := by
  have hlive := (h.family.parent_of (by simp [hp, PState.isGone]) hc.1 hr).2
  have hzombie : AllAllowed (s.setState p .zombie .exit).log :=
    h.log.setState (.own hp (.inr (.inr rfl)) (by simp [hcpu]))
  refine hzombie.setState ?_
  rw [Core.setState_procs_of_ne _ _ _ hrp]
  cases hs : (s.procs r).state with
  | ready => exact .same hs.symm
  | sleeping => exact .woken hs rfl
  | running => exact absurd hs hrun
  | zombie => exact absurd (.inl hs) hlive
  | available => exact absurd (.inr hs) hlive

theorem move (h : Governed s) (hm : Move regularRule s t) : Governed t := by
  refine ⟨h.family.move (fun h => h) hm, ?_⟩
  cases hm with
  | alike ha =>
    rw [ha.log]
    exact h.log
  | wake hq => exact h.log.setState (.woken hq rfl)
  | run hq => exact h.log.setState (.run hq rfl rfl)
  | leave hcpu hp hnew =>
    refine h.log.setState (.own hp ?_ (by simp [hcpu]))
    rcases hnew with rfl | rfl
    · exact .inl rfl
    · exact .inr (.inl rfl)
  | exit hd hcpu hp hr hrp hrun => exact h.exit hd hcpu hp hr hrp hrun
  | reap hd _ hz _ => exact h.log.setState (.freed hz rfl rfl hd)
  | @deliver p q hd _ _ hz =>
    have hfreed : AllAllowed (s.setState q .available (.reap .waitChild)).log :=
      h.log.setState (.freed hz rfl rfl hd)
    exact hfreed.cons (by simp)
  | waited => exact h.log.cons (by simp)
  | number ha _ _ =>
    rw [show (Core.newPid _ _).log = _ from ha.log]
    exact h.log
  | half _ _ hd _ => exact hd.elim
  | @created p q t _ _ ha _ _ _ hq =>
    refine Governed.created ?_ (by rw [ha.state, hq])
    rw [ha.log]
    exact h.log
  | detach => exact h.log

theorem booted (p : Slot cfg) (frame frame' : TrapFrame) :
    Governed ((Core.init cfg).booted p frame frame') := by
  refine ⟨.booted p frame frame', fun c hc => ?_⟩
  simp only [Core.booted, Core.record_log, Core.update_log, Core.counted, Core.fresh, Core.setState_log,
    Core.newPid, List.mem_cons, reduceCtorEq, false_or] at hc ⊢
  rcases hc with hc | hc
  · cases hc
    exact .created (by simp [Core.init, zeroProc]) rfl rfl (by simp)
  · simp [Core.init] at hc

end Governed

/-! ## Runs -/

theorem procfsRoom_iff {pid : ℕ} : ProcfsRoom k q pid ↔
    (∃ d, value (bifsOpendirpath (ascii "/proc") (ascii "/proc").length (k.named q pid)) = some (some d)) ∧
      (∃ i, (k.dirs i).flags = 0) ∧ ∃ j j', j ≠ j' ∧ (k.bfiles j).flags = 0 ∧
      (k.bfiles j').flags = 0 := by
  rw [ProcfsRoom]
  refine and_congr (exists_congr fun d => ⟨fun hd => ?_, fun hd => ?_⟩) Iff.rfl
  · rw [hd]
    rfl
  · rcases reads_bifsOpendirpath (ascii "/proc") (ascii "/proc").length (k.named q pid) _ rfl with
      ⟨a, ha, -⟩ | ⟨e, he, -⟩
    · rw [ha] at hd ⊢
      cases hd
      rfl
    · rw [he] at hd
      cases hd

instance (k : Kernel cfg) (q : Slot cfg) (pid : ℕ) : Decidable (ProcfsRoom k q pid) :=
  decidable_of_iff _ procfsRoom_iff.symm

/-- A process exits only if it was forked and none of its children is left, and
    forks only if there is room in `/proc`. -/
def Regular (p : Slot cfg) (k : Kernel cfg) : Call → Prop
  | .exit => Childless false k.core p
  | .fork => ∀ q, (k.procs q).state = .available → ProcfsRoom k q (k.pidCounter % 2 ^ 32)
  | _ => True

instance (p : Slot cfg) (k : Kernel cfg) : DecidablePred (Regular p k)
  | .exit => inferInstanceAs (Decidable (Childless false k.core p))
  | .fork => inferInstanceAs (Decidable (∀ _, _))
  | .read .. | .write .. | .open _ | .close _ | .wait _ | .execv .. | .getpid | .dup _ | .pipe _
  | .sysinfo _ | .sleep _ | .plist .. | .pinfo .. | .pgalloc | .pgfree _ | .gpio .. | .detach | .isopen _
  | .pipeattch .. | .lsdir .. => .isTrue trivial

/-- A process that goes on with a call that waits, but for a `proc_wait`, has no
    child that has exited. -/
def LeavesToWait (p : Slot cfg) (k : Kernel cfg) : Prop :=
  (k.procs p).ctx.isPlain = false → (k.procs p).ctx.isWait = false →
    ∀ q, (k.procs q).parent = some p → (k.procs q).state ≠ .zombie

instance (p : Slot cfg) (k : Kernel cfg) : Decidable (LeavesToWait p k) :=
  inferInstanceAs (Decidable (_ → _ → ∀ _, _))

/-- The conditions on calls, and on processes that go on with one. -/
def RegularStep (m : Machine cfg) (e : Event cfg) : Prop := OnCall Regular m e ∧ OnResume LeavesToWait m e

instance (m : Machine cfg) (e : Event cfg) : Decidable (RegularStep m e) :=
  inferInstanceAs (Decidable (_ ∧ _))

theorem regularRule_of_does {e : Event cfg} {d : Deed cfg} (hC : RegularStep m e) (hd : Does m e d) :
    regularRule m.k.core d := by
  cases hd with
  | exit hp hc => exact hC.1 _ hp _ hc
  | fork => trivial
  | half hp hc hav hroom => exact absurd (hC.1 _ hp _ hc _ hav) hroom
  | wait => rfl
  | resume hmode hplain hq hz =>
    by_contra hwait
    exact hC.2 _ hmode hplain (by simpa [regularRule] using hwait) _ hq hz

/-- Every change of a state in the history of a run is an allowed one, where each
    step meets the conditions. -/
theorem states_allowed (h : Reach (machine cfg) RegularStep m) (hm : ∀ why, m.mode ≠ .halted why)
    {c : Change cfg} (hc : .change c ∈ m.k.log) : c.Allowed m.k.log :=
  (moves_of_reach_running Governed.booted regularRule_of_does (fun hs hm => hs.move hm) h hm).log c hc

theorem forkAndWait_allowed :
    ∃ (m : Machine .qemuE) (c : Change .qemuE), Reach (machine .qemuE) RegularStep m ∧
    .change c ∈ m.k.log ∧ c.old.state = .zombie ∧ c.new = .available ∧ c.Allowed m.k.log := by
  have h : ∃ m ∈ run RegularStep (machine .qemuE) forkAndWait (boot .qemuE fun _ => 0),
      m.mode = .user ∧ ∃ e ∈ m.k.log, ∃ c ∈ e.change?, c.old.state = .zombie ∧
      c.new = .available := by
    decide +kernel
  obtain ⟨m, hm, hmode, e, he, c, hc, hold, hnew⟩ := h
  rw [Ev.eq_change hc] at he
  have hr : Reach (machine .qemuE) RegularStep m := Reach.of_run _ ⟨_, rfl⟩ hm
  exact ⟨m, c, hr, he, hold, hnew, states_allowed hr (by simp [hmode]) he⟩

/-- A process exits whose parent has exited before it. -/
theorem orphan_exit_not_allowed :
    ¬∀ (m : Machine .qemuE) (c : Change .qemuE), Reach (machine .qemuE) free m →
      (∀ why, m.mode ≠ .halted why) → .change c ∈ m.k.log → c.Allowed m.k.log := by
  have h : ∃ m ∈
      runFrom .qemuE (twoGenerations ++ calls 1 0 0 0 [] ++ [Event.kernel, .kernel] ++ calls 1 0 0 0 []),
      m.mode = .sched 3 2 false ∧ ∃ e ∈ m.k.log, ∃ c ∈ e.change?,
      c.old.state = .zombie ∧ c.new = .ready := by
    decide +kernel
  obtain ⟨m, hm, hmode, e, he, c, hc, hold, hnew⟩ := h
  rw [Ev.eq_change hc] at he
  intro hall
  cases hall m c (reach_of_runFrom hm) (by simp [hmode]) he with
  | same h => simp [hold, hnew] at h
  | created h _ _ _ | run h _ _ | own h _ _ | woken h _ => simp [hold] at h
  | freed _ h _ _ => simp [hnew] at h

end HobbyOs
