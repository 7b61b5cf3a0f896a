import HobbyOs.Base

/-!
# Early wake-ups

A process sleeps until its deadline, until a child of its own has exited or
detached, until another process has been scheduled often enough, or until its
channel is marked. The four share the fields `wakeup_time`, `chan` and `cond`.
Each sets those it needs, and none clears the others; and a process that exits
or detaches makes its parent ready whatever it sleeps in.

* `Change.Due`: a wake-up that has its reason;
* `BlocksClean` and `WakesClean`: what a step must not find left over;
* `wakeups_due`: then every wake-up in the history has its reason.
-/

namespace HobbyOs

open Transition

variable {cfg : Config} {p q : Slot cfg} {k : Kernel cfg} {s t : Core cfg} {m m' : Machine cfg}

/-! ## Reasons -/

/-- The place is a `proc_mark_for_wakeup` of the channel. -/
def Site.IsMark (c : Chan cfg) (site : Site cfg) : Prop :=
  site = .chan c ∨ ∃ pid n, site = .nscheds c pid n

/-- The place is the exit or the detachment of a process forked by `uid`. -/
def Site.IsChild (uid : ℕ) (site : Site cfg) : Prop :=
  ∃ child, site = .exitParent child (some uid) ∨ site = .detach child (some uid)

/-- A wake-up has the reason that the sleeper waits for. -/
structure Change.Due (c : Change cfg) : Prop where
  sleep : ∀ deadline, c.old.ctx = .sleep deadline → deadline ≤ c.now
  wait : c.old.ctx = .waitChild → c.site.IsChild c.old.uid
  cond : ∀ q since want, c.old.ctx = .waitCond q since want →
    ∃ pid n, c.site = .nscheds (.proc q) pid n ∧ since + want ≤ n
  yield : ∀ ch, c.old.ctx.yieldChan = some ch → c.site.IsMark ch

/-- The fields of a sleeper are those of the call it sleeps in. -/
structure PCore.Rests (x : PCore cfg) : Prop where
  sleep : ∀ deadline, x.ctx = .sleep deadline → x.wakeupTime = deadline ∧ x.chan = .null
  wait : x.ctx = .waitChild → x.wakeupTime = 0 ∧ x.chan = .null
  cond : ∀ q since want, x.ctx = .waitCond q since want →
    x.wakeupTime = 0 ∧ x.chan = .proc q ∧ x.cond.type = .nscheds ∧ x.cond.wantNscheds = since + want
  yield : ∀ c, x.ctx.yieldChan = some c → x.wakeupTime = 0 ∧ x.chan = c

namespace PCore.Rests

variable {x : PCore cfg}

theorem of_sleep {deadline : ℕ} (hx : x.ctx = .sleep deadline) (ht : x.wakeupTime = deadline)
    (hc : x.chan = .null) : x.Rests where
  sleep d hd := by
    rw [hx] at hd
    cases hd
    exact ⟨ht, hc⟩
  wait h := by simp [hx] at h
  cond q since want h := by simp [hx] at h
  yield c h := by simp [hx, Kont.yieldChan] at h

theorem of_wait (hx : x.ctx = .waitChild) (ht : x.wakeupTime = 0) (hc : x.chan = .null) : x.Rests where
  sleep d h := by simp [hx] at h
  wait _ := ⟨ht, hc⟩
  cond q since want h := by simp [hx] at h
  yield c h := by simp [hx, Kont.yieldChan] at h

theorem of_cond {since want : ℕ} (hx : x.ctx = .waitCond q since want) (ht : x.wakeupTime = 0)
    (hc : x.chan = .proc q) (htype : x.cond.type = .nscheds) (hw : x.cond.wantNscheds = since + want) :
    x.Rests where
  sleep d h := by simp [hx] at h
  wait h := by simp [hx] at h
  cond r since want hr := by
    rw [hx] at hr
    cases hr
    exact ⟨ht, hc, htype, hw⟩
  yield c h := by simp [hx, Kont.yieldChan] at h

theorem of_yield {c : Chan cfg} (hx : x.ctx.yieldChan = some c) (ht : x.wakeupTime = 0)
    (hc : x.chan = c) : x.Rests where
  sleep d h := by simp [h, Kont.yieldChan] at hx
  wait h := by simp [h, Kont.yieldChan] at hx
  cond q since want h := by simp [h, Kont.yieldChan] at hx
  yield c' hc' := ⟨ht, hc.trans (Option.some.inj (hx.symm.trans hc'))⟩

end PCore.Rests

/-- Sleepers rest, and so far every wake-up had its reason. -/
structure Timely (s : Core cfg) : Prop where
  rests : ∀ q, (s.procs q).state = .sleeping → (s.procs q).Rests
  log : ∀ c, .change c ∈ s.log → c.old.state = .sleeping → c.new = .ready → c.Due

namespace Timely

theorem of_procs (h : Timely s) (hlog : t.log = s.log)
    (hp : ∀ q, (t.procs q).state = .sleeping → t.procs q = s.procs q ∨ (t.procs q).Rests) : Timely t where
  rests q hq := by
    rcases hp q hq with hsame | hrests
    · rw [hsame] at hq ⊢
      exact h.rests q hq
    · exact hrests
  log := hlog ▸ h.log

theorem of_same (h : Timely s) (hlog : t.log = s.log) (hp : t.procs = s.procs) : Timely t :=
  h.of_procs hlog fun q _ => .inl (congrFun hp q)

theorem update {f : PCore cfg → PCore cfg} (h : Timely s)
    (hf : (f (s.procs p)).state = .sleeping → (f (s.procs p)).Rests) : Timely (s.update p f) := by
  refine h.of_procs rfl fun q hq => ?_
  by_cases hqp : q = p
  · subst hqp
    simp only [Core.update_procs_self] at hq ⊢
    exact .inr (hf hq)
  · exact .inl (by simp [hqp])

/-- An update of a process that is awake. -/
theorem update_awake {f : PCore cfg → PCore cfg} (h : Timely s) (hf : ∀ x, (f x).state = x.state)
    (hp : (s.procs p).state ≠ .sleeping) : Timely (s.update p f) :=
  h.update fun hs => absurd ((hf _).symm.trans hs) hp

theorem record {e : Ev cfg} (h : Timely s) (he : ∀ c, e ≠ .change c) : Timely (s.record e) where
  rests := h.rests
  log c hc hold hnew := by
    rcases List.mem_cons.1 hc with hc | hc
    · exact absurd hc.symm (he c)
    · exact h.log c hc hold hnew

/-- The state of a process is set to another one than asleep, for a reason if
    it slept and becomes ready. -/
theorem setState {new : PState} {site : Site cfg} (h : Timely s) (hnew : new ≠ .sleeping)
    (hdue : (s.procs p).state = .sleeping → new = .ready → Change.Due
      ⟨p, s.procs p, new, site, s.cpuProc.map fun c => (s.procs c).uid, s.now⟩) :
    Timely (s.setState p new site) where
  rests q hq := by
    by_cases hqp : q = p
    · subst hqp
      simp [hnew] at hq
    · rw [Core.setState_procs_of_ne _ _ _ hqp] at hq ⊢
      exact h.rests q hq
  log c hc hold hready := by
    rw [Core.setState_log] at hc
    rcases List.mem_cons.1 hc with hc | hc
    · cases hc
      exact hdue hold hready
    · exact h.log c hc hold hready

theorem setState_awake {new : PState} {site : Site cfg} (h : Timely s) (hnew : new ≠ .sleeping)
    (hp : (s.procs p).state ≠ .sleeping) : Timely (s.setState p new site) :=
  h.setState hnew fun hs => absurd hs hp

/-- A mark wakes sleepers for their reason. -/
theorem wakes (h : Timely s) (hw : Wakes s t) : Timely t := by
  refine hw.induct (I := Timely) h fun {u q site} hu hs h0 hsite => ?_
  have hr := hu.rests q hs
  have hset : Timely (u.setState q .ready site) := by
    refine hu.setState (by decide) fun _ _ => ⟨fun d hd => ?_, fun hd => ?_, fun r since want hd => ?_,
      fun ch hch => ?_⟩
    · exact absurd (hr.sleep d hd).2 h0
    · exact absurd (hr.wait hd).2 h0
    · obtain ⟨-, hchan, htype, hwant⟩ := hr.cond r since want hd
      rcases hsite with ⟨-, ht⟩ | ⟨o, ho, rfl, -, -, hle⟩
      · rw [htype] at ht
        cases ht
      · rw [hchan]
        exact ⟨_, _, rfl, hwant ▸ hle⟩
    · obtain ⟨-, hchan⟩ := hr.yield ch hch
      rcases hsite with ⟨rfl, -⟩ | ⟨o, -, rfl, -⟩
      · exact .inl (by rw [hchan])
      · exact .inr ⟨_, _, by rw [hchan]⟩
  exact hset.update_awake (fun _ => rfl) (by simp)

theorem reaps {call : Kont cfg} {pid : ℤ} (h : Timely s) (hr : Reaps p call s t pid) : Timely t := by
  cases hr with
  | none _ => exact h
  | one _ hz => exact h.setState_awake (by decide) (by simp [hz])

/-- A process that is awake falls asleep, with the fields it should have. -/
theorem sleep {f : PCore cfg → PCore cfg} {frame : TrapFrame} {call : Kont cfg} (h : Timely s)
    (hrests : PCore.Rests { f (s.procs p) with state := .sleeping, trap := frame, ctx := call }) :
    Timely (s.sleep p f frame call) where
  rests q hq := by
    by_cases hqp : q = p
    · subst hqp
      simpa using hrests
    · rw [Core.sleep_procs_of_ne hqp] at hq ⊢
      exact h.rests q hq
  log c hc hold hready := by
    replace hc : .change c ∈ ((s.update p f).setState p .sleeping .psleep).log := hc
    rw [Core.setState_log] at hc
    rcases List.mem_cons.1 hc with hc | hc
    · cases hc
      cases hready
    · exact h.log c hc hold hready

theorem newPid (h : Timely s) (hq : (s.procs q).state ≠ .sleeping) : Timely (s.newPid q) :=
  (h.update_awake (p := q)
    (f := fun x => { x with pid := s.pidCounter % 2 ^ 32, uid := s.pidCounter, forker := none })
    (fun _ => rfl) hq).of_same rfl rfl

theorem fresh {frame : TrapFrame} (h : Timely s) (hq : (s.procs q).state ≠ .sleeping) :
    Timely (s.fresh q frame) := by
  refine setState_awake ?_ (by decide) (by simpa using hq)
  exact h.update_awake (fun _ => rfl) hq

theorem forks {how : How} (h : Timely s) (ha : (s.procs q).state = .available)
    (hf : Forks k p q s how t) : Timely t := by
  have hpid : Timely (s.newPid q) := h.newPid (by simp [ha])
  have hfresh : ∀ frame, Timely ((s.newPid q).fresh q frame) := fun frame =>
    hpid.fresh (by simp [Core.newPid, ha])
  have hadopted : ∀ frame, Timely (((s.newPid q).fresh q frame).counted.adopted p q) := fun frame =>
    ((hfresh frame).of_same (t := ((s.newPid q).fresh q frame).counted) rfl rfl).update_awake
      (fun _ => rfl) (by simp [Core.counted, Core.fresh])
  cases hf with
  | pid _ => exact hpid
  | full _ => exact hfresh _
  | fresh => exact hfresh _
  | adopted => exact hadopted _
  | created =>
    refine record ?_ (by simp)
    exact (hadopted _).update_awake (fun _ => rfl) (by simp [Core.adopted, Core.counted, Core.fresh])

end Timely

/-! ## Steps -/

/-- The process finds nothing left over in its fields that would wake it from the
    call. -/
def PCore.CleanFor (x : PCore cfg) : Kont cfg → Prop
  | .sleep _ => x.chan = .null
  | .waitChild => x.wakeupTime = 0 ∧ x.chan = .null
  | .waitCond _ since want => x.wakeupTime = 0 ∧ since + want < 2 ^ 64
  | _ => x.wakeupTime = 0

theorem PCore.CleanFor.of_yield {x : PCore cfg} {call : Kont cfg} {c : Chan cfg} (h : x.CleanFor call)
    (hc : call.yieldChan = some c) : x.wakeupTime = 0 := by
  cases call with
  | pipeRead | pipeWrite | uartRead => exact h
  | forkret | timerTick | exited | waitChild | waitCond | sleep => simp [Kont.yieldChan] at hc

instance (x : PCore cfg) : DecidablePred x.CleanFor
  | .sleep _ => inferInstanceAs (Decidable (_ = _))
  | .waitChild => inferInstanceAs (Decidable (_ ∧ _))
  | .waitCond .. => inferInstanceAs (Decidable (_ ∧ _))
  | .forkret | .timerTick | .exited | .pipeRead .. | .pipeWrite .. | .uartRead .. =>
    inferInstanceAs (Decidable (_ = _))

/-- A process that falls asleep finds nothing left over. -/
def BlocksClean (m : Machine cfg) (e : Event cfg) : Prop :=
  ∀ p ∈ m.k.cpuProc, ∀ m' ∈ step e m, (m'.k.procs p).state = .sleeping →
    (m.k.procs p).CleanFor (m'.k.procs p).ctx

/-- The parent of the process, if it sleeps, sleeps in `proc_wait(NULL)` and has
    forked it. -/
def ParentWaits (p : Slot cfg) (k : Kernel cfg) : Prop :=
  ∀ r ∈ (k.procs p).parent, (k.procs r).state = .sleeping →
    (k.procs r).ctx = .waitChild ∧ (k.procs p).forker = some (k.procs r).uid

/-- A call that does not wake a process that waits for something else. -/
def WakesClean (p : Slot cfg) (k : Kernel cfg) : Call → Prop
  | .exit | .detach => ParentWaits p k
  | .pipeattch pid fd => ∀ x ∈ attachTarget p k pid fd, (k.procs x.1).state = .sleeping →
      (k.procs x.1).ctx.yieldChan = some (k.files x.2).fsFile.chan
  | _ => True

instance (p : Slot cfg) (k : Kernel cfg) : Decidable (ParentWaits p k) :=
  inferInstanceAs (Decidable (∀ r ∈ _, _))

instance (p : Slot cfg) (k : Kernel cfg) : DecidablePred (WakesClean p k)
  | .exit | .detach => inferInstanceAs (Decidable (ParentWaits p k))
  | .pipeattch _ _ => inferInstanceAs (Decidable (∀ x ∈ _, _))
  | .fork | .read .. | .write .. | .open _ | .close _ | .wait _ | .execv .. | .getpid | .dup _ | .pipe _
  | .sysinfo _ | .sleep _ | .plist .. | .pinfo .. | .pgalloc | .pgfree _ | .gpio .. | .isopen _
  | .lsdir .. => .isTrue trivial

/-- A step that neither leaves nor finds a wrong reason to wake up. -/
def KeepsReasons (m : Machine cfg) (e : Event cfg) : Prop := BlocksClean m e ∧ OnCall WakesClean m e

instance (m : Machine cfg) (e : Event cfg) : Decidable (KeepsReasons m e) :=
  inferInstanceAs (Decidable ((∀ p ∈ m.k.cpuProc, _) ∧ _))

namespace Timely

/-- The parent of a process that exits or detaches is made ready. -/
theorem setParent {r : Slot cfg} {site : Site cfg} (h : Timely s)
    (hr : (s.procs r).state = .sleeping →
      (s.procs r).ctx = .waitChild ∧ site.IsChild (s.procs r).uid) :
    Timely (s.setState r .ready site) := by
  refine h.setState (by decide) fun hs _ => ?_
  obtain ⟨hctx, hsite⟩ := hr hs
  refine ⟨fun d hd => ?_, fun _ => hsite, fun q since want hd => ?_, fun ch hd => ?_⟩
  · simp [hctx] at hd
  · simp [hctx] at hd
  · simp [hctx, Kont.yieldChan] at hd

theorem call {c : Call} {how : How} (h : Timely k.core) (hs : OnCpu p k.core) (hl : Lineal k.core)
    (he : CallEffect p k c how t) (hc : WakesClean p k c)
    (hb : (t.procs p).state = .sleeping → (k.core.procs p).CleanFor (t.procs p).ctx) : Timely t := by
  have hawake : (k.core.procs p).state ≠ .sleeping := by simp [hs.running]
  -- A parent that the exit makes ready waits for its children: the wake-up is its due.
  have hexit : ∀ r, (k.core.procs p).parent = some r → ParentWaits p k →
      Timely ((k.core.setState p .zombie .exit).setState r .ready
        (.exitParent (k.core.procs p).uid (k.core.procs p).forker)) := by
    intro r hr hwaits
    have hrp : r ≠ p := fun h => hl p (h ▸ hr)
    refine (h.setState_awake (by decide) hawake).setParent fun hsl => ?_
    rw [Core.setState_procs_of_ne _ _ _ hrp] at hsl ⊢
    obtain ⟨hctx, hfork⟩ := hwaits r hr hsl
    exact ⟨hctx, _, .inl (by rw [show (k.core.procs p).forker = _ from hfork]; rfl)⟩
  -- A process that falls asleep has just set its condition; all others are as they
  -- were.
  cases he with
  | quiet _ hw => exact h.wakes hw
  | frame _ => exact h.update_awake (fun _ => rfl) hawake
  | @yield _ t ch _ call _ hw hch =>
    have hsame : t.procs p = k.core.procs p := hw.procs_of_ne_sleeping hawake
    have hclean := (hb (by simp)).of_yield (by simpa using hch)
    exact (h.wakes hw).sleep (.of_yield hch (by rw [hsame]; exact hclean) rfl)
  | sleep =>
    have hclean := hb (by simp)
    rw [Core.sleep_procs_self] at hclean
    exact h.sleep (.of_sleep rfl rfl hclean)
  | waited hr _ => exact (h.reaps hr).record (by simp)
  | wait hr _ =>
    have hsame := hr.procs_self (hl p)
    have hclean := hb (by simp)
    rw [Core.sleep_procs_self] at hclean
    exact (h.reaps hr).sleep (.of_wait rfl (by simpa [hsame] using hclean.1) (by simpa [hsame] using hclean.2))
  | waitCond =>
    have hclean := hb (by simp)
    rw [Core.sleep_procs_self] at hclean
    refine h.sleep (.of_cond rfl hclean.1 rfl rfl ?_)
    exact (Nat.mod_eq_of_lt (by have := hclean.2; omega)).trans (Nat.add_comm _ _)
  | @fork q how frame t hq ha hf =>
    have hu := h.update_awake (p := p) (f := fun x => { x with trap := frame }) (fun _ => rfl) hawake
    exact hu.forks (by simpa [hq] using ha) hf
  | orphan _ => exact h.setState_awake (by decide) hawake
  | exiting hr hw => exact (hexit _ hr hc).wakes hw
  | @exited r t hr hw =>
    have hrp : r ≠ p := fun h => hl p (h ▸ hr)
    have ht := (hexit r hr hc).wakes hw
    have hz : (t.procs p).state ≠ .sleeping := by
      rw [hw.procs_of_ne_sleeping (by simp [hrp.symm])]
      simp [hrp.symm]
    exact (ht.update_awake (f := fun x => { x with ctx := .exited }) (fun _ => rfl) hz).of_same rfl rfl
  | detached _ _ => exact h.update_awake (fun _ => rfl) hawake
  | @detachedWake r hr _ =>
    have hrp : r ≠ p := fun h => hl p (h ▸ hr)
    refine (h.update_awake (f := fun x => { x with parent := none }) (fun _ => rfl) hawake).setParent
      fun hsl => ?_
    rw [Core.update_procs_of_ne _ _ hrp] at hsl ⊢
    obtain ⟨hctx, hfork⟩ := hc r hr hsl
    exact ⟨hctx, _, .inr (by rw [show (k.core.procs p).forker = _ from hfork]; rfl)⟩
  | @attached pid fd q f hq =>
    refine h.update fun hsl => ?_
    have hy := hc _ hq hsl
    exact .of_yield hy ((h.rests q hsl).yield _ hy).1 rfl

theorem resume {how : How} (h : Timely s) (hs : OnCpu p s) (hl : Lineal s)
    (he : ResumeEffect p s how t)
    (hb : (t.procs p).state = .sleeping → (s.procs p).CleanFor (t.procs p).ctx) : Timely t := by
  cases he with
  | same _ => exact h
  | waited _ _ hr => exact (h.reaps hr).record (by simp)
  | reaped _ _ hr hw => exact (h.reaps hr).wakes hw
  | @yield t u _ ch ch' _ _ hch hr hw hcall =>
    have hp : t.procs p = s.procs p := hr.procs_self (hl p)
    have hp' : u.procs p = s.procs p := by
      rw [hw.procs_of_ne_sleeping (by simp [hp, hs.running]), hp]
    have hclean := (hb (by simp)).of_yield (by simpa using hcall)
    exact ((h.reaps hr).wakes hw).sleep (.of_yield hcall (by rw [hp']; exact hclean) rfl)

theorem after {how : How} (h : Timely t) : Timely (t.after how) := by
  cases how <;> exact h.of_same rfl rfl

/-- The scheduler wakes only whose deadline has come. -/
theorem awaken (h : Timely s) : Timely (s.awaken p) := by
  rw [Core.awaken]
  split
  · rename_i hdue
    obtain ⟨hs, ht, hnow⟩ := hdue
    have hr := h.rests p hs
    refine h.setState (by decide) fun _ _ => ⟨fun d hd => ?_, fun hd => ?_, fun q since want hd => ?_,
      fun ch hd => ?_⟩
    · exact (hr.sleep d hd).1 ▸ hnow
    · exact absurd (hr.wait hd).1 ht
    · exact absurd (hr.cond q since want hd).1 ht
    · exact absurd (hr.yield ch hd).1 ht
  · exact h

theorem run (h : Timely s) (hready : ((s.awaken p).procs p).state = .ready)
    (hw : Wakes ((s.awaken p).run p) t) : Timely t := by
  refine Timely.wakes (s := (s.awaken p).run p) ?_ hw
  have hrun : Timely ((s.awaken p).setState p .running .scheduler) :=
    h.awaken.setState_awake (by decide) (by simp [hready])
  exact (hrun.update_awake (f := fun x => { x with nscheds := (x.nscheds + 1) % 2 ^ 64 }) (fun _ => rfl)
    (by simp)).of_same rfl rfl

/-- A step that keeps reasons to wake up. -/
theorem step {e : Event cfg} (h : Timely m.k.core) (hb : Base m) (hC : KeepsReasons m e)
    (hstep : step e m = some m') : Timely m'.k.core := by
  have hcore := (step_stepped hb hstep).core
  have hclean : ∀ p, m.k.cpuProc = some p → (m'.k.core.procs p).state = .sleeping →
      (m.k.core.procs p).CleanFor (m'.k.core.procs p).ctx :=
    fun p hp hs => hC.1 p hp m' hstep hs
  generalize m'.k.core = t at hcore hclean
  cases hcore with
  | same => exact h
  | time => exact h.of_same rfl rfl
  | overlay => exact h.of_same rfl rfl
  | plic hw => exact h.wakes hw
  | @preempt p hp =>
    have hset : Timely (m.k.core.setState p .ready .sched) :=
      h.setState_awake (by decide) (by simp [hp.running])
    refine Timely.after ?_
    exact hset.update_awake (fun _ => rfl) (by simp)
  | @call p how t hp he =>
    refine Timely.after ?_
    cases he with
    | none _ => exact h
    | call hcall he =>
      refine Timely.call (k := (trap m).entry p) h hp hb.lineal he (hC.2 p hp.cpu _ hcall) fun hs => ?_
      have hc := hclean p hp.cpu (by cases how <;> exact hs)
      cases how <;> exact hc
  | run _ hready hw => exact h.run hready hw
  | @resume p how t hp _ he =>
    refine (h.resume hp hb.lineal he fun hs => ?_).after
    have hc := hclean p hp.cpu (by cases how <;> exact hs)
    cases how <;> exact hc

end Timely

theorem timely_init : Timely (Core.init cfg) where
  rests q hq := by simp [Core.init, zeroProc] at hq
  log c hc := by simp [Core.init] at hc

theorem timely_fresh (p : Slot cfg) (frame : TrapFrame) :
    Timely (((Core.init cfg).newPid p).fresh p frame) :=
  (timely_init.newPid (by simp [Core.init, zeroProc])).fresh (by simp [Core.newPid, Core.init, zeroProc])

theorem timely_counted (p : Slot cfg) (frame frame' : TrapFrame) :
    Timely ((((Core.init cfg).newPid p).fresh p frame).counted.update p fun x =>
      { x with trap := frame' }) := by
  refine Timely.update_awake (s := (((Core.init cfg).newPid p).fresh p frame).counted) ?_ (fun _ => rfl)
    (by simp [Core.counted, Core.fresh])
  exact (timely_fresh p frame).of_same rfl rfl

/-- Every wake-up has its reason, in a run whose steps keep reasons. -/
theorem wakeups_due {m : Machine cfg} (h : Reach (machine cfg) KeepsReasons m) {c : Change cfg}
    (hc : .change c ∈ m.k.log) (hold : c.old.state = .sleeping) (hnew : c.new = .ready) : c.Due := by
  have htimely : Timely m.k.core := by
    refine core_of_reach (fun p frame frame' => ?_) (fun s hs => ?_)
      (fun hb hI hC hstep => hI.step hb hC hstep) h
    · exact ((timely_counted p frame frame').record (by simp)).of_same rfl rfl
    · cases hs with
      | init => exact timely_init
      | pid => exact timely_init.newPid (by simp [Core.init, zeroProc])
      | fresh => exact timely_fresh _ _
      | counted => exact timely_counted _ _ _
  exact htimely.log c hc hold hnew

/-! ## Two runs -/

/-- The first process forks and sleeps for a second, and its child exits at
    once. -/
def exitWhileAsleep : List (Event .qemuE) :=
  [Event.kernel, .kernel] ++ calls 2 0 0 0 [] ++ calls 31 1000 0 0 [] ++ [Event.kernel, .kernel] ++
    calls 1 0 0 0 []

theorem exitWhileAsleep_wakes_early :
    ¬∀ (m : Machine .qemuE) (c : Change .qemuE), Reach (machine .qemuE) free m → .change c ∈ m.k.log →
      c.old.state = .sleeping → c.new = .ready → c.Due := by
  have h : ∃ m ∈ runFrom .qemuE exitWhileAsleep, ∃ e ∈ m.k.log, ∃ c ∈ e.change?,
      c.old.state = .sleeping ∧ c.new = .ready ∧ c.old.ctx = .sleep 10000000 ∧ c.now = 0 := by
    decide +kernel
  obtain ⟨m, hm, e, he, c, hc, hold, hnew, hctx, hnow⟩ := h
  rw [Ev.eq_change hc] at he
  intro hall
  have := (hall m c (reach_of_runFrom hm) he hold hnew).sleep _ hctx
  omega

/-- The first process forks and waits, and its child exits. -/
def exitWhileWaiting : List (Event .qemuE) :=
  [Event.kernel, .kernel] ++ calls 2 0 0 0 [] ++ calls 7 0 0 0 [] ++ [Event.kernel, .kernel] ++ calls 1 0 0 0 []

theorem exitWhileWaiting_due :
    ∃ (m : Machine .qemuE) (c : Change .qemuE), .change c ∈ m.k.log ∧ c.old.ctx = .waitChild ∧
      c.new = .ready ∧ c.Due := by
  have h : ∃ m ∈ run KeepsReasons (machine .qemuE) exitWhileWaiting (boot .qemuE fun _ => 0),
      ∃ e ∈ m.k.log, ∃ c ∈ e.change?,
        c.old.state = .sleeping ∧ c.new = .ready ∧ c.old.ctx = .waitChild := by
    decide +kernel
  obtain ⟨m, hm, e, he, c, hc, hold, hnew, hctx⟩ := h
  rw [Ev.eq_change hc] at he
  exact ⟨m, c, he, hctx, hnew, wakeups_due (Reach.of_run _ ⟨_, rfl⟩ hm) he hold hnew⟩

end HobbyOs
