import HobbyOs.Base
import HobbyOs.Mark

/-!
# Lost wake-ups

A process that sleeps in `proc_yield` is to be woken by the next mark of its
channel. Whether it is depends on its `chan`, on the kind of its wake-up
condition, and on the count of processes, without which a mark looks at nobody.
All three are set elsewhere as well: the condition by `proc_wait_by_cond`, for
good; the channel by `proc_pipeattch` of another process; the count by every
exit, also of a process that was never counted.

* `WakesByMark`: what a step must not do for this;
* `mark_wakes_yielded`: then the mark wakes the process, in every state reached.
-/

namespace HobbyOs

open Outcome Transition

variable {cfg : Config} {p q : Slot cfg} {k : Kernel cfg} {s t : Core cfg} {m m' : Machine cfg}

/-! ## Processes that a mark can wake -/

/-- If the process sleeps in `proc_yield`, it is on its channel; and if it is
    within one, its condition is the channel alone. -/
def PCore.OnChan (x : PCore cfg) : Prop :=
  ∀ c, x.ctx.yieldChan = some c → x.cond.type = .chan ∧ (x.state = .sleeping → x.chan = c)

/-- A mark can wake whoever sleeps in `proc_yield`. -/
structure Markable (s : Core cfg) : Prop where
  counted : 1 ≤ s.numProcs
  onChan : ∀ q, (s.procs q).OnChan

theorem PCore.OnChan.of_none {x : PCore cfg} (h : x.ctx.yieldChan = none) : x.OnChan := by
  intro c hc
  rw [h] at hc
  cases hc

/-- A change that leaves the process awake, and where it is in the kernel. -/
theorem PCore.OnChan.awake {x y : PCore cfg} (h : x.OnChan) (hctx : y.ctx = x.ctx) (hcond : y.cond = x.cond)
    (hs : y.state ≠ .sleeping) : y.OnChan := by
  intro c hc
  rw [hctx] at hc
  exact ⟨hcond ▸ (h c hc).1, fun h => absurd h hs⟩

namespace Markable

theorem of_procs (h : Markable s) (hn : t.numProcs = s.numProcs)
    (hp : ∀ q, t.procs q = s.procs q ∨ (t.procs q).OnChan) : Markable t where
  counted := hn ▸ h.counted
  onChan q := by
    rcases hp q with hq | hq
    · exact hq ▸ h.onChan q
    · exact hq

theorem update {f : PCore cfg → PCore cfg} (h : Markable s) (hf : (f (s.procs p)).OnChan) :
    Markable (s.update p f) := by
  refine h.of_procs rfl fun q => ?_
  by_cases hq : q = p
  · subst hq
    exact .inr (by simpa using hf)
  · exact .inl (by simp [hq])

theorem setState {new : PState} {site : Site cfg} (h : Markable s) (hnew : new ≠ .sleeping) :
    Markable (s.setState p new site) :=
  (h.update (f := fun x => { x with state := new }) ((h.onChan p).awake rfl rfl hnew)).of_procs rfl
    fun _ => .inl rfl

theorem record {e : Ev cfg} (h : Markable s) : Markable (s.record e) := h.of_procs rfl fun _ => .inl rfl

theorem wakes (h : Markable s) (hw : Wakes s t) : Markable t := by
  refine h.of_procs hw.rest.1 fun q => ?_
  rcases hw.procs_eq q with hq | ⟨-, hq⟩
  · exact .inl hq
  · rw [hq]
    exact .inr ((h.onChan q).awake rfl rfl (by simp))

theorem reaps {call : Kont cfg} {pid : ℤ} (h : Markable s) (hr : Reaps p call s t pid) : Markable t := by
  cases hr with
  | none _ => exact h
  | one _ _ => exact h.setState (by decide)

theorem sleep {f : PCore cfg → PCore cfg} {frame : TrapFrame} {call : Kont cfg} (h : Markable s)
    (hf : PCore.OnChan { f (s.procs p) with state := .sleeping, trap := frame, ctx := call }) :
    Markable (s.sleep p f frame call) := by
  refine h.of_procs rfl fun q => ?_
  by_cases hq : q = p
  · subst hq
    exact .inr (by simpa using hf)
  · exact .inl (Core.sleep_procs_of_ne hq)

/-- A process falls asleep elsewhere than in `proc_yield`. -/
theorem sleep_of_none {f : PCore cfg → PCore cfg} {frame : TrapFrame} {call : Kont cfg} (h : Markable s)
    (hcall : call.yieldChan = none) : Markable (s.sleep p f frame call) :=
  h.sleep (.of_none hcall)

/-- A process falls asleep in `proc_yield`, with the condition that it should. -/
theorem sleep_yield {c : Chan cfg} {frame : TrapFrame} {call : Kont cfg} (h : Markable s)
    (hcond : (s.procs p).cond.type = .chan) (hcall : call.yieldChan = some c) :
    Markable (s.sleep p (fun x => { x with chan := c }) frame call) := by
  refine h.sleep fun c' hc' => ⟨hcond, fun _ => ?_⟩
  exact Option.some.inj (hcall.symm.trans hc')

theorem forks {how : How} (h : Markable s) (hf : Forks k p q s how t) : Markable t := by
  have hpid : Markable (s.newPid q) := (h.update (p := q)
    (f := fun x => { x with pid := s.pidCounter % 2 ^ 32, uid := s.pidCounter, forker := none })
    (h.onChan q)).of_procs rfl fun _ => .inl rfl
  have hfresh : ∀ frame, Markable ((s.newPid q).fresh q frame) := fun frame =>
    (hpid.update (.of_none rfl)).setState (by decide)
  have hadopted : ∀ frame, Markable (((s.newPid q).fresh q frame).counted.adopted p q) := by
    intro frame
    have hcounted : Markable ((s.newPid q).fresh q frame).counted :=
      ⟨by have := (hfresh frame).counted; simp only [Core.counted]; omega, (hfresh frame).onChan⟩
    exact hcounted.update (hcounted.onChan q)
  cases hf with
  | pid _ => exact hpid
  | full _ => exact hfresh _
  | fresh => exact hfresh _
  | adopted => exact hadopted _
  | created => exact ((hadopted _).update ((hadopted _).onChan q)).record

end Markable

/-! ## Steps -/

/-- A call that leaves the channels of sleepers alone, and the count of
    processes above zero. -/
def LeavesMarkable (p : Slot cfg) (k : Kernel cfg) : Call → Prop
  | .exit => k.numProcs ≠ 1
  | .pipeattch pid fd => ∀ x ∈ attachTarget p k pid fd, (k.procs x.1).state = .sleeping →
      (k.procs x.1).ctx.yieldChan = none ∨ (k.procs x.1).ctx.yieldChan = some (k.files x.2).fsFile.chan
  | _ => True

instance (p : Slot cfg) (k : Kernel cfg) : DecidablePred (LeavesMarkable p k)
  | .exit => inferInstanceAs (Decidable (_ ≠ _))
  | .pipeattch _ _ => inferInstanceAs (Decidable (∀ x ∈ _, _))
  | .fork | .read .. | .write .. | .open _ | .close _ | .wait _ | .execv .. | .getpid | .dup _ | .pipe _
  | .sysinfo _ | .sleep _ | .plist .. | .pinfo .. | .pgalloc | .pgfree _ | .gpio .. | .detach | .isopen _
  | .lsdir .. => .isTrue trivial

/-- A process that falls asleep in `proc_yield` has the condition to be woken by
    its channel. -/
def YieldsOnChan (m : Machine cfg) (e : Event cfg) : Prop :=
  ∀ p ∈ m.k.cpuProc, ∀ m' ∈ step e m, (m'.k.procs p).state = .sleeping →
    (m'.k.procs p).ctx.yieldChan ≠ none → (m.k.procs p).cond.type = .chan

instance (m : Machine cfg) (e : Event cfg) : Decidable (YieldsOnChan m e) :=
  inferInstanceAs (Decidable (∀ p ∈ m.k.cpuProc, _))

/-- A step after which marks still wake whoever sleeps in `proc_yield`. -/
def WakesByMark (m : Machine cfg) (e : Event cfg) : Prop := YieldsOnChan m e ∧ OnCall LeavesMarkable m e

instance (m : Machine cfg) (e : Event cfg) : Decidable (WakesByMark m e) :=
  inferInstanceAs (Decidable (_ ∧ _))

namespace Markable

theorem call {c : Call} {how : How} (h : Markable k.core) (hs : OnCpu p k.core)
    (he : CallEffect p k c how t) (hc : LeavesMarkable p k c)
    (hy : (t.procs p).state = .sleeping → (t.procs p).ctx.yieldChan ≠ none →
      (k.core.procs p).cond.type = .chan) : Markable t := by
  cases he with
  | quiet _ hw => exact h.wakes hw
  | frame _ => exact h.update (h.onChan p)
  | @yield _ t ch _ call _ hw hch =>
    -- The wake-ups of a yield are of others: the process itself is awake.
    have hsame : t.procs p = k.core.procs p := hw.procs_of_ne_sleeping (by simp [hs.running])
    refine (h.wakes hw).sleep_yield ?_ hch
    rw [hsame]
    exact hy (by simp) (by simp [hch])
  | sleep => exact h.sleep_of_none rfl
  | waited hr _ => exact (h.reaps hr).record
  | wait hr _ => exact (h.reaps hr).sleep_of_none rfl
  | waitCond => exact h.sleep_of_none rfl
  | fork _ _ hf => exact (h.update (h.onChan p)).forks hf
  | orphan _ => exact h.setState (by decide)
  | exiting _ hw => exact ((h.setState (by decide)).setState (by decide)).wakes hw
  | @exited r t _ hw =>
    have ht := ((h.setState (by decide)).setState (by decide)).wakes hw
    have hn : t.numProcs = k.numProcs := hw.rest.1
    -- The count stays above zero.
    have hone : k.numProcs ≠ 1 := hc
    have hexit := ht.update (p := p) (f := fun x => { x with ctx := .exited }) (.of_none rfl)
    refine ⟨?_, hexit.onChan⟩
    show 1 ≤ t.numProcs - 1
    have := ht.counted
    omega
  | detached _ _ => exact h.update (h.onChan p)
  | detachedWake _ _ =>
    exact (h.update (f := fun x => { x with parent := none }) (h.onChan p)).setState (by decide)
  | @attached pid fd q f hq =>
    refine h.update fun c' hc' => ⟨(h.onChan q c' hc').1, fun hsl => ?_⟩
    rcases hc _ hq hsl with hnone | hsome
    · rw [show (k.procs q).ctx.yieldChan = some c' from hc'] at hnone
      cases hnone
    · exact Option.some.inj (hsome.symm.trans hc')

theorem resume {how : How} (h : Markable s) (hs : OnCpu p s) (hl : Lineal s)
    (he : ResumeEffect p s how t) : Markable t := by
  cases he with
  | same _ => exact h
  | waited _ _ hr => exact (h.reaps hr).record
  | reaped _ _ hr hw => exact (h.reaps hr).wakes hw
  | @yield t u _ ch _ _ _ hch hr hw hcall =>
    have hp : t.procs p = s.procs p := hr.procs_self (hl p)
    have hp' : u.procs p = s.procs p := by
      rw [hw.procs_of_ne_sleeping (by simp [hp, hs.running]), hp]
    refine ((h.reaps hr).wakes hw).sleep_yield ?_ hcall
    rw [hp']
    exact (h.onChan p ch hch).1

theorem after {how : How} (h : Markable t) : Markable (t.after how) := by
  cases how <;> exact h.of_procs rfl fun _ => .inl rfl

theorem run (h : Markable s) (hw : Wakes ((s.awaken p).run p) t) : Markable t := by
  have hawake : Markable (s.awaken p) := by
    rw [Core.awaken]
    split
    · exact h.setState (by decide)
    · exact h
  have hrun : Markable ((s.awaken p).setState p .running .scheduler) := hawake.setState (by decide)
  refine Markable.wakes (s := (s.awaken p).run p) ?_ hw
  exact (hrun.update (f := fun x => { x with nscheds := (x.nscheds + 1) % 2 ^ 64 })
    ((hrun.onChan p).awake rfl rfl (by simp))).of_procs rfl fun _ => .inl rfl

/-- A step that leaves marks working. -/
theorem step {e : Event cfg} (h : Markable m.k.core) (hb : Base m) (hC : WakesByMark m e)
    (hstep : step e m = some m') : Markable m'.k.core := by
  have hcore := (step_stepped hb hstep).core
  have hyield : ∀ p, m.k.cpuProc = some p → (m'.k.core.procs p).state = .sleeping →
      (m'.k.core.procs p).ctx.yieldChan ≠ none → (m.k.core.procs p).cond.type = .chan :=
    fun p hp hs hy => hC.1 p hp m' hstep hs hy
  generalize m'.k.core = t at hcore hyield
  cases hcore with
  | same => exact h
  | time => exact h.of_procs rfl fun _ => .inl rfl
  | overlay => exact h.of_procs rfl fun _ => .inl rfl
  | plic hw => exact h.wakes hw
  | preempt _ => exact ((h.setState (by decide)).update (.of_none rfl)).after
  | @call p how t hp he =>
    refine Markable.after ?_
    cases he with
    | none _ => exact h
    | call hcall he =>
      refine Markable.call (k := (trap m).entry p) h hp he (hC.2 p hp.cpu _ hcall) fun hs hy => ?_
      refine hyield p hp.cpu ?_ ?_
      · cases how <;> exact hs
      · cases how <;> exact hy
  | run _ _ hw => exact h.run hw
  | resume hp _ he => exact (h.resume hp hb.lineal he).after

end Markable

theorem markable_booted (p : Slot cfg) (frame frame' : TrapFrame) :
    Markable ((Core.init cfg).booted p frame frame') := by
  refine ⟨by simp [Core.booted, Core.newPid, Core.fresh, Core.counted, Core.init], fun q => .of_none ?_⟩
  by_cases hq : q = p
  · subst hq
    simp [Core.booted, Core.newPid, Core.fresh, Core.counted, Kont.yieldChan]
  · simp [Core.booted, Core.newPid, Core.fresh, Core.counted, Core.init, zeroProc, hq, Kont.yieldChan]

/-- While the machine runs, a mark finds its locks free. -/
theorem Base.mark_free (hb : Base m) (hm : ∀ why, m.mode ≠ .halted why) :
    m.k.held .procTable = false ∧ SleepersFree m.k := by
  have hat := hb.at_
  have hcpu : ∀ p, OnCpu p m.k.core → (∀ l ∈ others p, m.k.held l = false) →
      m.k.held .procTable = false ∧ SleepersFree m.k := by
    intro p hp hfree
    refine ⟨hfree _ (by simp), fun q hq => hfree _ ?_⟩
    simp only [proc_mem_others]
    rintro rfl
    simp [hp.running] at hq
  cases hmode : m.mode with
  | user =>
    rw [hmode] at hat
    obtain ⟨p, hp, hfree⟩ := hat
    exact hcpu p hp hfree
  | switched p =>
    rw [hmode] at hat
    exact hcpu p hat.1 hat.2.1
  | sched | idle =>
    rw [hmode] at hat
    exact ⟨hat.2.1 _, fun q _ => hat.2.1 _⟩
  | halted why => exact absurd hmode (hm why)

/-- A mark of its channel wakes a process that sleeps in `proc_yield`, in every
    state of a run whose steps leave marks working. -/
theorem mark_wakes_yielded {c : Chan cfg} (h : Reach (machine cfg) WakesByMark m)
    (hm : ∀ why, m.mode ≠ .halted why) (hs : (m.k.procs p).state = .sleeping)
    (hc : (m.k.procs p).ctx.yieldChan = some c) :
    ∃ k', procMarkForWakeup c m.k = .ok () k' ∧ (k'.procs p).state = .ready := by
  have hmark : Markable m.k.core :=
    core_of_reach_running markable_booted (fun hb hI hC hstep => hI.step hb hC hstep) h hm
  obtain ⟨hfree, hsleepers⟩ := (base_of_reach h).mark_free hm
  obtain ⟨hcond, hchan⟩ := hmark.onChan p c hc
  obtain ⟨k', hk, -, hall⟩ := procMarkForWakeup_marks hfree hsleepers (Kont.yieldChan_ne_null hc)
  have hn : m.k.numProcs ≠ 0 := by
    have : 1 ≤ m.k.numProcs := hmark.counted
    omega
  exact ⟨k', hk, hall hn p ⟨hs, hchan hs, hcond⟩⟩

/-! ## Two runs -/

/-- The first process forks, waits until its child has been scheduled once, and
    then reads from the console. -/
def waitThenRead : List (Event .qemuE) :=
  [Event.kernel, .kernel] ++ calls 2 0 0 0 [] ++
    calls 7 0x80003e00 0 0 [(0x80003e00, bytesOfWord 1 4 ++ bytesOfWord 1 4 ++ bytesOfWord 1 8)] ++
    [Event.kernel, .kernel, .tick] ++ List.replicate 5 Event.kernel ++ calls 3 0 0x80003d00 10 []

theorem waitThenRead_not_woken :
    ¬∀ (m : Machine .qemuE) (p : Slot .qemuE) (c : Chan .qemuE), Reach (machine .qemuE) free m →
      (∀ why, m.mode ≠ .halted why) → (m.k.procs p).state = .sleeping →
      (m.k.procs p).ctx.yieldChan = some c →
      ∃ k', procMarkForWakeup c m.k = .ok () k' ∧ (k'.procs p).state = .ready := by
  have h : ∃ m ∈ runFrom .qemuE waitThenRead, m.mode = .sched 1 0 false ∧
      (m.k.procs ⟨0, by decide⟩).state = .sleeping ∧
      (m.k.procs ⟨0, by decide⟩).ctx.yieldChan = some .uart0 ∧
      ((final (procMarkForWakeup .uart0 m.k)).procs ⟨0, by decide⟩).state ≠ .ready := by
    decide +kernel
  obtain ⟨m, hm, hmode, hs, hc, hne⟩ := h
  intro hall
  obtain ⟨k', hk, hready⟩ := hall m _ _ (reach_of_runFrom hm) (by simp [hmode]) hs hc
  rw [hk] at hne
  exact hne hready

/-- The first process reads from the console at once. -/
def readAtOnce : List (Event .qemuE) := [Event.kernel, .kernel] ++ calls 3 0 0x80003d00 10 []

theorem readAtOnce_woken :
    ∃ (m : Machine .qemuE) (k' : Kernel .qemuE), (m.k.procs ⟨0, by decide⟩).state = .sleeping ∧
      procMarkForWakeup .uart0 m.k = .ok () k' ∧ (k'.procs ⟨0, by decide⟩).state = .ready := by
  have h : ∃ m ∈ run WakesByMark (machine .qemuE) readAtOnce (boot .qemuE fun _ => 0),
      m.mode = .sched 1 0 false ∧ (m.k.procs ⟨0, by decide⟩).state = .sleeping ∧
      (m.k.procs ⟨0, by decide⟩).ctx.yieldChan = some .uart0 := by
    decide +kernel
  obtain ⟨m, hm, hmode, hs, hc⟩ := h
  obtain ⟨k', hk, hready⟩ := mark_wakes_yielded (Reach.of_run _ ⟨_, rfl⟩ hm) (by simp [hmode]) hs hc
  exact ⟨m, k', hs, hk, hready⟩

end HobbyOs
