import HobbyOs.SlotStates

/-!
# Children and waits

A child that has exited is freed by the process that has forked it, in a
`proc_wait(NULL)` that returns its pid; and no pid is returned twice
(`Delivered`). It is so as long as no process exits before all its children have
been freed, none goes on with another call while it has an exited child, and
pids are not used up (`children_delivered`).
-/

namespace HobbyOs

open Outcome Transition

variable {cfg : Config} {p q r : Slot cfg} {k : Kernel cfg} {s t : Core cfg} {m : Machine cfg}

/-- The pid that a `proc_wait(NULL)` has returned. -/
def Ev.returned? : Ev cfg → Option ℤ
  | .waited _ ret => if 0 ≤ ret then some ret else none
  | _ => none

/-- The pids that waits have returned. -/
def returned (log : List (Ev cfg)) : List ℤ := log.filterMap Ev.returned?

@[simp] theorem returned_change {c : Change cfg} {log : List (Ev cfg)} :
    returned (.change c :: log) = returned log := List.filterMap_cons_none rfl

@[simp] theorem returned_created {uid : ℕ} {log : List (Ev cfg)} :
    returned (.created uid :: log) = returned log := List.filterMap_cons_none rfl

theorem returned_waited {uid n : ℕ} {log : List (Ev cfg)} :
    returned (.waited uid n :: log) = (n : ℤ) :: returned log :=
  List.filterMap_cons_some (by simp [Ev.returned?])

/-- The change frees a slot. -/
def Change.Frees (c : Change cfg) : Prop := c.old.state = .zombie ∧ c.new = .available

/-- The child freed by `c` was delivered: the wait of its forker returned its pid. -/
def Change.DeliveredIn (c : Change cfg) (log : List (Ev cfg)) : Prop :=
  ∃ (uid : ℕ) (l l' : List (Ev cfg)), log = l ++ .waited uid c.old.pid :: .change c :: l' ∧
    c.site = .reap .waitChild ∧ c.by_ = some uid ∧ c.old.forker = some uid

/-- Every child that was freed was delivered, and no pid was returned twice. -/
structure Delivered (log : List (Ev cfg)) : Prop where
  freed : ∀ c, .change c ∈ log → c.Frees → c.DeliveredIn log
  nodup : (returned log).Nodup

theorem Change.DeliveredIn.cons {c : Change cfg} {log : List (Ev cfg)} {e : Ev cfg} (h : c.DeliveredIn log) :
    c.DeliveredIn (e :: log) := by
  obtain ⟨uid, l, l', rfl, hsite, hby, hforker⟩ := h
  exact ⟨uid, e :: l, l', rfl, hsite, hby, hforker⟩

namespace Delivered

variable {log : List (Ev cfg)}

theorem nil : Delivered ([] : List (Ev cfg)) := ⟨by simp, by simp [returned]⟩

/-- An event that neither frees a slot nor returns a pid. -/
theorem cons {e : Ev cfg} (h : Delivered log) (he : ∀ c, e = .change c → ¬c.Frees)
    (hret : e.returned? = none) :
    Delivered (e :: log) where
  freed c hc hf := by
    rcases List.mem_cons.1 hc with rfl | hc
    · exact absurd hf (he c rfl)
    · exact (h.freed c hc hf).cons
  nodup := by
    rw [returned, List.filterMap_cons_none hret]
    exact h.nodup

/-- A child is freed, and its pid returned. -/
theorem deliver {c : Change cfg} {uid : ℕ} (h : Delivered log) (hsite : c.site = .reap .waitChild)
    (hby : c.by_ = some uid) (hforker : c.old.forker = some uid) (hnew : (c.old.pid : ℤ) ∉ returned log) :
    Delivered (.waited uid c.old.pid :: .change c :: log) where
  freed c' hc hf := by
    simp only [List.mem_cons, reduceCtorEq, false_or, Ev.change.injEq] at hc
    rcases hc with rfl | hc
    · exact ⟨uid, [], log, rfl, hsite, hby, hforker⟩
    · exact (h.freed c' hc hf).cons.cons
  nodup := by
    rw [returned_waited, returned_change]
    exact List.nodup_cons.2 ⟨hnew, h.nodup⟩

end Delivered

/-- Processes have different numbers, and those of the pids that were returned are
    gone. -/
structure Numbers (s : Core cfg) : Prop where
  pid : ∀ q, (s.procs q).pid = (s.procs q).uid % 2 ^ 32
  counter : s.pidCounter ≤ 2 ^ 31
  lt : ∀ q, (s.procs q).state.counts true → (s.procs q).uid < s.pidCounter
  distinct : ∀ q r, (s.procs q).state.counts true → (s.procs r).state.counts true →
    (s.procs q).uid = (s.procs r).uid → q = r
  /-- A process that has exited was forked. -/
  forked : ∀ q, (s.procs q).state = .zombie → (s.procs q).forker ≠ none
  returned_lt : ∀ ret ∈ returned s.log, ret < s.pidCounter
  returned_ne : ∀ ret ∈ returned s.log, ∀ q, (s.procs q).state.counts true →
    ((s.procs q).uid : ℤ) ≠ ret

namespace Numbers

/-- Only states change, and no process is added. -/
theorem of_state (h : Numbers s) (hpid : ∀ q, (t.procs q).pid = (s.procs q).pid)
    (huid : ∀ q, (t.procs q).uid = (s.procs q).uid) (hforker : ∀ q, (t.procs q).forker = (s.procs q).forker)
    (hcounts : ∀ q, (t.procs q).state.counts true → (s.procs q).state.counts true)
    (hzombie : ∀ q, (t.procs q).state = .zombie → (s.procs q).state = .zombie ∨
      (s.procs q).forker ≠ none)
    (hcounter : t.pidCounter = s.pidCounter) (hlog : returned t.log = returned s.log) : Numbers t where
  pid q := by rw [hpid, huid, h.pid]
  counter := hcounter ▸ h.counter
  lt q hq := by
    rw [huid, hcounter]
    exact h.lt q (hcounts q hq)
  distinct q r hq hr he := by
    rw [huid, huid] at he
    exact h.distinct q r (hcounts q hq) (hcounts r hr) he
  forked q hq := by
    rw [hforker]
    exact (hzombie q hq).elim (h.forked q) id
  returned_lt ret hret := by
    rw [hcounter]
    exact h.returned_lt ret (hlog ▸ hret)
  returned_ne ret hret q hq := by
    rw [huid]
    exact h.returned_ne ret (hlog ▸ hret) q (hcounts q hq)

theorem alike (h : Numbers s) (ha : Alike s t) : Numbers t :=
  h.of_state ha.pid ha.uid ha.forker (fun q hq => by rwa [← ha.state q])
    (fun q hq => .inl (by rwa [← ha.state q]))
    ha.pidCounter (by rw [ha.log])

theorem setState {new : PState} {site : Site cfg} (h : Numbers s)
    (hcounts : new.counts true → (s.procs q).state.counts true)
    (hzombie : new = .zombie → (s.procs q).forker ≠ none) : Numbers (s.setState q new site) := by
  have hproj : ∀ {β : Type} (g : PCore cfg → β), (∀ x : PCore cfg, g { x with state := new } = g x) →
      ∀ r,
      g ((s.setState q new site).procs r) = g (s.procs r) := by
    intro β g hg r
    by_cases hr : r = q
    · subst hr
      simp [hg]
    · simp [hr]
  refine h.of_state (hproj _ fun _ => rfl) (hproj _ fun _ => rfl) (hproj _ fun _ => rfl) (fun r hr => ?_)
    (fun r hr => ?_) rfl ?_
  · by_cases hrq : r = q
    · subst hrq
      exact hcounts (by simpa using hr)
    · simpa [hrq] using hr
  · by_cases hrq : r = q
    · subst hrq
      exact .inr (hzombie (by simpa using hr))
    · exact .inl (by simpa [hrq] using hr)
  · simp

/-- The process in a slot that is not in use gets the next number. -/
theorem number (h : Numbers s) (hn : s.pidCounter < 2 ^ 31) (hq : (s.procs q).state = .available)
    (hsame : ∀ r ≠ q, (t.procs r).kin = (s.procs r).kin) (huid : (t.procs q).uid = s.pidCounter)
    (hpid : (t.procs q).pid = s.pidCounter % 2 ^ 32) (hzombie : (t.procs q).state ≠ .zombie)
    (hcounter : t.pidCounter = s.pidCounter + 1) (hlog : returned t.log = returned s.log) : Numbers t := by
  simp only [PCore.kin, Prod.mk.injEq] at hsame
  have hold : ∀ r ≠ q, (t.procs r).state.counts true → (t.procs r).uid < s.pidCounter := by
    intro r hr hc
    obtain ⟨hst, -, -, hu, -⟩ := hsame r hr
    rw [hst] at hc
    rw [hu]
    exact h.lt r hc
  -- The number is larger than those in use, as the counter has not wrapped around.
  refine ⟨fun r => ?_, by omega, fun r hr => ?_, fun x y hx hy he => ?_, fun r hr => ?_, fun ret hret => ?_,
    fun ret hret r hr => ?_⟩
  · by_cases hrq : r = q
    · subst hrq
      rw [hpid, huid]
    · obtain ⟨-, hp, -, hu, -⟩ := hsame r hrq
      rw [hp, hu, h.pid]
  · by_cases hrq : r = q
    · subst hrq
      omega
    · have := hold r hrq hr
      omega
  · by_cases hxq : x = q
    · by_cases hyq : y = q
      · rw [hxq, hyq]
      · have := hold y hyq hy
        rw [hxq, huid] at he
        omega
    · by_cases hyq : y = q
      · have := hold x hxq hx
        rw [hyq, huid] at he
        omega
      · obtain ⟨hst, -, -, hu, -⟩ := hsame x hxq
        obtain ⟨hst', -, -, hu', -⟩ := hsame y hyq
        rw [hst] at hx
        rw [hst'] at hy
        rw [hu, hu'] at he
        exact h.distinct x y hx hy he
  · by_cases hrq : r = q
    · subst hrq
      exact absurd hr hzombie
    · obtain ⟨hst, -, -, -, hf⟩ := hsame r hrq
      rw [hst] at hr
      rw [hf]
      exact h.forked r hr
  · have := h.returned_lt ret (hlog ▸ hret)
    omega
  · by_cases hrq : r = q
    · subst hrq
      have := h.returned_lt ret (hlog ▸ hret)
      omega
    · obtain ⟨hst, -, -, hu, -⟩ := hsame r hrq
      rw [hst] at hr
      rw [hu]
      exact h.returned_ne ret (hlog ▸ hret) r hr

/-- The pid of a process, as `proc_wait` returns it. -/
theorem int32_pid (h : Numbers s) (hq : (s.procs q).state.counts true) :
    int32 (s.procs q).pid = (s.procs q).pid ∧ ((s.procs q).pid : ℤ) = (s.procs q).uid := by
  have hlt := h.lt q hq
  have hcounter := h.counter
  have hpid : (s.procs q).pid = (s.procs q).uid := by
    rw [h.pid q]
    exact Nat.mod_eq_of_lt (by omega)
  refine ⟨?_, by rw [hpid]⟩
  rw [int32]
  omega

/-- A child is freed and its pid returned. -/
theorem deliver {uid : ℕ} {site : Site cfg} (h : Numbers s) (hz : (s.procs q).state = .zombie) :
    Numbers ((s.setState q .available site).record (.waited uid (s.procs q).pid)) := by
  have hcq : (s.procs q).state.counts true := by
    rw [hz]
    rfl
  obtain ⟨-, hpid⟩ := h.int32_pid hcq
  have hfreed : Numbers (s.setState q .available site) := h.setState (fun hc => hc.elim) (by simp)
  have hreturned :
      ∀ ret ∈ returned ((s.setState q .available site).record (.waited uid (s.procs q).pid)).log,
      ret = (s.procs q).uid ∨ ret ∈ returned (s.setState q .available site).log := by
    intro ret hret
    rw [Core.record_log, returned_waited] at hret
    rcases List.mem_cons.1 hret with rfl | hret
    · exact .inl hpid
    · exact .inr hret
  refine ⟨hfreed.pid, hfreed.counter, hfreed.lt, hfreed.distinct, hfreed.forked, fun ret hret => ?_,
    fun ret hret r hr => ?_⟩
  · rcases hreturned ret hret with rfl | hret
    · have hlt := h.lt q hcq
      show ((s.procs q).uid : ℤ) < (s.pidCounter : ℤ)
      omega
    · exact hfreed.returned_lt ret hret
  · rcases hreturned ret hret with rfl | hret
    · have hr : ((s.setState q .available site).procs r).state.counts true := hr
      by_cases hrq : r = q
      · subst hrq
        simp [PState.counts] at hr
      · simp only [Core.record_procs, Core.setState_procs_of_ne _ _ _ hrq] at hr ⊢
        intro he
        exact hrq (h.distinct r q hr hcq (by omega))
    · exact hfreed.returned_ne ret hret r hr

end Numbers

/-! ## Moves -/

/-- No process exits before all its children have been freed, only a
    `proc_wait(NULL)` frees one, and pids are not used up. -/
def waitRule (s : Core cfg) : Deed cfg → Prop
  | .exit p => Childless true s p
  | .reap _ _ call => call = .waitChild
  | .fork _ => s.pidCounter < 2 ^ 31
  | .half _ _ => True

/-- What holds as long as this rule is obeyed. -/
structure Accounted (s : Core cfg) : Prop where
  family : Family true s
  numbers : Numbers s
  delivered : Delivered s.log

namespace Accounted

/-- The state of a process changes that is not freed. -/
theorem log_setState {new : PState} {site : Site cfg} (h : Delivered s.log) (hnew : new ≠ .available) :
    Delivered (s.setState q new site).log := by
  rw [Core.setState_log]
  refine h.cons (fun c hc hf => ?_) rfl
  cases hc
  exact hnew hf.2

/-- A child is delivered by the process that has forked it. -/
theorem deliver (h : Accounted s) (hcpu : s.cpuProc = some p) (hpar : (s.procs q).parent = some p)
    (hz : (s.procs q).state = .zombie) :
    Delivered ((s.setState q .available (.reap .waitChild)).record
      (.waited (s.procs p).uid (s.procs q).pid)).log := by
  have hcq : (s.procs q).state.counts true := by
    rw [hz]
    rfl
  have hforker : (s.procs q).forker = some (s.procs p).uid := by
    rcases h.family q hcq with hn | hn | ⟨r, hr, hf, -⟩
    · exact absurd hn (h.numbers.forked q hz)
    · rw [hpar] at hn
      cases hn
    · rw [hpar] at hr
      cases hr
      exact hf
  have hby : (s.cpuProc.map fun c => (s.procs c).uid) = some (s.procs p).uid := by
    rw [hcpu]
    rfl
  rw [Core.record_log, Core.setState_log]
  refine h.delivered.deliver (c := ⟨q, s.procs q, .available, .reap .waitChild, _, s.now⟩) rfl hby hforker
    fun hret => ?_
  exact h.numbers.returned_ne _ hret q hcq (h.numbers.int32_pid hcq).2.symm

theorem numbers_move (h : Accounted s) (hm : Move waitRule s t) : Numbers t := by
  have hn := h.numbers
  cases hm with
  | alike ha => exact hn.alike ha
  | wake hq | run hq => exact hn.setState (fun _ => by rw [hq]; trivial) (by simp)
  | leave _ hp hnew =>
    refine hn.setState (fun _ => by rw [hp]; trivial) fun hz => ?_
    rcases hnew with rfl | rfl <;> cases hz
  | @exit p r hd _ hp hr hrp _ =>
    have hlive := (h.family.parent_of (by simp [hp, PState.isGone]) hd.1 hr).2
    have hexit : Numbers (s.setState p .zombie .exit) :=
      hn.setState (fun _ => by rw [hp]; trivial) fun _ => hd.1
    refine hexit.setState (fun _ => ?_) (by simp)
    rw [Core.setState_procs_of_ne _ _ _ hrp]
    exact PState.counts_of_not_gone hlive
  | reap => exact hn.setState (fun hc => hc.elim) (by simp)
  | @deliver p q _ _ _ hz =>
    have hcq : (s.procs q).state.counts true := by
      rw [hz]
      rfl
    rw [(hn.int32_pid hcq).1]
    exact hn.deliver hz
  | waited => exact ⟨hn.pid, hn.counter, hn.lt, hn.distinct, hn.forked, hn.returned_lt, hn.returned_ne⟩
  -- The moves of a fork: the number, the slot, the child.
  | @number p q t ha hd hq =>
    have hq : (t.procs q).state = .available := (ha.state q).trans hq
    refine (hn.alike ha).number (q := q) (ha.pidCounter ▸ hd) hq (fun r hr => ?_) ?_ ?_ ?_ rfl rfl
    · simp [Core.newPid, hr]
    · simp [Core.newPid]
    · simp [Core.newPid]
    · simp [Core.newPid, hq]
  | @half p q t _ ha hd _ hq =>
    have hq : (t.procs q).state = .available := (ha.state q).trans hq
    refine (hn.alike ha).number (q := q) (ha.pidCounter ▸ hd) hq (fun r hr => ?_) ?_ ?_ ?_ rfl ?_
    · simp [Core.newPid, Core.fresh, hr]
    · simp [Core.newPid, Core.fresh]
    · simp [Core.newPid, Core.fresh]
    · simp [Core.newPid, Core.fresh]
    · simp [Core.newPid, Core.fresh]
  | @created p q t _ _ ha hd _ _ hq =>
    have hq : (t.procs q).state = .available := (ha.state q).trans hq
    refine (hn.alike ha).number (q := q) (ha.pidCounter ▸ hd) hq (fun r hr => ?_) ?_ ?_ ?_ rfl ?_
    · simp [Core.newPid, Core.fresh, Core.counted, Core.adopted, hr]
    · simp [Core.newPid, Core.fresh, Core.counted, Core.adopted]
    · simp [Core.newPid, Core.fresh, Core.counted, Core.adopted]
    · simp [Core.newPid, Core.fresh, Core.counted, Core.adopted]
    · simp [Core.newPid, Core.fresh, Core.counted, Core.adopted]
  | @detach p =>
    have hproj : ∀ {β : Type} (g : PCore cfg → β),
        (∀ x : PCore cfg, g { x with parent := none } = g x) → ∀ r,
        g ((s.update p fun x => { x with parent := none }).procs r) = g (s.procs r) := by
      intro β g hg r
      by_cases hr : r = p
      · subst hr
        simp [hg]
      · simp [hr]
    have hstate := hproj (fun x => x.state) fun _ => rfl
    refine hn.of_state (hproj _ fun _ => rfl) (hproj _ fun _ => rfl) (hproj _ fun _ => rfl) (fun r hr => ?_)
      (fun r hr => .inl ?_) rfl rfl
    · rwa [← hstate r]
    · rwa [← hstate r]

theorem delivered_move (h : Accounted s) (hm : Move waitRule s t) : Delivered t.log := by
  have hd := h.delivered
  cases hm with
  | alike ha =>
    rw [ha.log]
    exact hd
  | wake _ | run _ => exact log_setState hd (by simp)
  | leave _ _ hnew =>
    refine log_setState hd ?_
    rcases hnew with rfl | rfl <;> simp
  | exit => exact log_setState (log_setState hd (by simp)) (by simp)
  | @reap p q call hcall _ hz hneg =>
    -- The pid of a process is not negative: a wait that frees one returns it.
    have hcq : (s.procs q).state.counts true := by
      rw [hz]
      rfl
    have hlt := hneg hcall
    rw [(h.numbers.int32_pid hcq).1] at hlt
    omega
  | @deliver p q _ hcpu hpar hz =>
    have hcq : (s.procs q).state.counts true := by
      rw [hz]
      rfl
    rw [(h.numbers.int32_pid hcq).1]
    exact h.deliver hcpu hpar hz
  | waited => exact hd.cons (by simp) rfl
  | number ha _ _ =>
    rw [show (Core.newPid _ _).log = _ from ha.log]
    exact hd
  | @half p q t frame ha _ _ _ =>
    refine log_setState (s := (t.newPid q).update q _) ?_ (by simp)
    rw [show (Core.update (t.newPid q) q _).log = s.log from ha.log]
    exact hd
  | @created p q t frame _ ha _ _ _ _ =>
    have hfresh : Delivered ((t.newPid q).fresh q frame).log := by
      refine log_setState (s := (t.newPid q).update q _) ?_ (by simp)
      rw [show (Core.update (t.newPid q) q _).log = s.log from ha.log]
      exact hd
    exact hfresh.cons (by simp) rfl
  | detach => exact hd

theorem move (h : Accounted s) (hm : Move waitRule s t) : Accounted t :=
  ⟨h.family.move (fun h => h) hm, h.numbers_move hm, h.delivered_move hm⟩

theorem booted (p : Slot cfg) (frame frame' : TrapFrame) :
    Accounted ((Core.init cfg).booted p frame frame') := by
  have hinit : Numbers (Core.init cfg) := ⟨by simp [Core.init, zeroProc], by simp [Core.init],
    by simp [Core.init, zeroProc, PState.counts], by simp [Core.init, zeroProc, PState.counts],
    by simp [Core.init, zeroProc], by simp [Core.init, returned], by simp [Core.init, returned]⟩
  refine ⟨.booted p frame frame', ?_, ?_⟩
  · refine hinit.number (q := p) (by simp [Core.init]) (by simp [Core.init, zeroProc])
      (fun r hr => ?_) ?_ ?_ ?_ rfl ?_
    · simp [Core.booted, Core.newPid, Core.fresh, Core.counted, hr]
    · simp [Core.booted, Core.newPid, Core.fresh, Core.counted]
    · simp [Core.booted, Core.newPid, Core.fresh, Core.counted]
    · simp [Core.booted, Core.newPid, Core.fresh, Core.counted]
    · simp [Core.booted, Core.newPid, Core.fresh, Core.counted]
  · have hfresh : Delivered (((Core.init cfg).newPid p).fresh p frame).log :=
      log_setState (s := ((Core.init cfg).newPid p).update p _) .nil (by simp)
    exact hfresh.cons (by simp) rfl

end Accounted

/-! ## Runs -/

/-- A process exits only if it was forked and all its children have been freed,
    and forks only while there are pids left. -/
def WaitedFor (p : Slot cfg) (k : Kernel cfg) : Call → Prop
  | .exit => Childless true k.core p
  | .fork => k.pidCounter < 2 ^ 31
  | _ => True

instance (p : Slot cfg) (k : Kernel cfg) : DecidablePred (WaitedFor p k)
  | .exit => inferInstanceAs (Decidable (Childless true k.core p))
  | .fork => inferInstanceAs (Decidable (_ < _))
  | .read .. | .write .. | .open _ | .close _ | .wait _ | .execv .. | .getpid | .dup _ | .pipe _
  | .sysinfo _ | .sleep _ | .plist .. | .pinfo .. | .pgalloc | .pgfree _ | .gpio .. | .detach | .isopen _
  | .pipeattch .. | .lsdir .. => .isTrue trivial

/-- A process that goes on with a call that waits, but for `proc_wait(NULL)`, has
    no child that has exited. -/
def LeavesToWaitChild (p : Slot cfg) (k : Kernel cfg) : Prop :=
  (k.procs p).ctx.isPlain = false → (k.procs p).ctx ≠ .waitChild →
    ∀ q, (k.procs q).parent = some p → (k.procs q).state ≠ .zombie

instance (p : Slot cfg) (k : Kernel cfg) : Decidable (LeavesToWaitChild p k) :=
  inferInstanceAs (Decidable (_ → _ → ∀ _, _))

/-- The conditions on calls, and on processes that go on with one. -/
def WaitedForStep (m : Machine cfg) (e : Event cfg) : Prop :=
  OnCall WaitedFor m e ∧ OnResume LeavesToWaitChild m e

instance (m : Machine cfg) (e : Event cfg) : Decidable (WaitedForStep m e) :=
  inferInstanceAs (Decidable (_ ∧ _))

theorem waitRule_of_does {e : Event cfg} {d : Deed cfg} (hC : WaitedForStep m e) (hd : Does m e d) :
    waitRule m.k.core d := by
  cases hd with
  | exit hp hc => exact hC.1 _ hp _ hc
  | fork hp hc => exact hC.1 _ hp _ hc
  | half => trivial
  | wait => rfl
  | resume hmode hplain hq hz =>
    by_contra hwait
    exact hC.2 _ hmode hplain hwait _ hq hz

/-- In a run whose steps meet the conditions, every child that is freed has been
    delivered to the wait of the process that has forked it, and no pid twice. -/
theorem children_delivered (h : Reach (machine cfg) WaitedForStep m) (hm : ∀ why, m.mode ≠ .halted why) :
    Delivered m.k.log :=
  (moves_of_reach_running Accounted.booted waitRule_of_does (fun hs hm => hs.move hm) h hm).delivered

theorem forkAndWait_delivered : ∃ m : Machine .qemuE, Reach (machine .qemuE) WaitedForStep m ∧
    returned m.k.log = [1] ∧ Delivered m.k.log := by
  have h : ∃ m ∈ run WaitedForStep (machine .qemuE) forkAndWait (boot .qemuE fun _ => 0),
      m.mode = .user ∧ returned m.k.log = [1] := by
    decide +kernel
  obtain ⟨m, hm, hmode, hret⟩ := h
  have hr : Reach (machine .qemuE) WaitedForStep m := Reach.of_run _ ⟨_, rfl⟩ hm
  exact ⟨m, hr, hret, children_delivered hr (by simp [hmode])⟩

/-- The first process forks and sleeps, and its child exits: the sleep frees it. -/
theorem sleep_frees_child :
    ¬∀ m : Machine .qemuE, Reach (machine .qemuE) free m → (∀ why, m.mode ≠ .halted why) →
    Delivered m.k.log := by
  have h : ∃ m ∈ runFrom .qemuE ([Event.kernel, .kernel] ++ calls 2 0 0 0 [] ++ calls 31 1000 0 0 [] ++
        [Event.kernel, .kernel] ++ calls 1 0 0 0 [] ++ List.replicate 5 Event.kernel),
      m.mode = .user ∧ ∃ e ∈ m.k.log, ∃ c ∈ e.change?,
        c.old.state = .zombie ∧ c.new = .available ∧
        returned m.k.log = [] := by
    decide +kernel
  obtain ⟨m, hm, hmode, e, he, c, hc, hold, hnew, hret⟩ := h
  rw [Ev.eq_change hc] at he
  intro hall
  obtain ⟨uid, l, l', hlog, -⟩ :=
    (hall m (reach_of_runFrom hm) (by simp [hmode])).freed c he ⟨hold, hnew⟩
  have hmem : (c.old.pid : ℤ) ∈ returned m.k.log := by
    rw [hlog, returned, List.filterMap_append]
    exact List.mem_append_right _ (by simp [Ev.returned?])
  rw [hret] at hmem
  cases hmem

end HobbyOs
