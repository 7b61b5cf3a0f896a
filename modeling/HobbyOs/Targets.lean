import HobbyOs.UartWakeup

/-!
# Targets of waits

`proc_wait_by_cond` stores the slot of the process it waits for (`chan`) and the
pid (`cond.target_pid`). Nobody tells the waiter when that process is gone: an
exit only makes the parent ready. And once set, the condition stays: a process
that was woken goes to sleep with it in other calls.

* `KeepsTargets`: what a system call must not do for this;
* `target_present`: then whoever sleeps with a condition on schedules has for
  its channel a process that is there, with the pid of the condition.
-/

namespace HobbyOs

open Outcome Transition

variable {cfg : Config} {p q : Slot cfg} {k k' : Kernel cfg} {s t : Core cfg} {m m' : Machine cfg}

/-! ## Targets -/

/-- The process is there: it has not exited, and the slot is not free. -/
def Core.Present (s : Core cfg) (q : Slot cfg) : Prop :=
  (s.procs q).state ≠ .zombie ∧ (s.procs q).state ≠ .available

/-- The channel is a process that is there, with the pid of the condition. -/
def PCore.HasTarget (s : Core cfg) (x : PCore cfg) : Prop :=
  ∃ q, x.chan = .proc q ∧ (s.procs q).pid = x.cond.targetPid ∧ s.Present q

/-- The process sleeps with a condition on schedules. -/
def PCore.Awaits (x : PCore cfg) : Prop := x.state = .sleeping ∧ x.cond.type = .nscheds

instance (s : Core cfg) (q : Slot cfg) : Decidable (s.Present q) := inferInstanceAs (Decidable (_ ∧ _))

instance (s : Core cfg) (x : PCore cfg) : Decidable (x.HasTarget s) := inferInstanceAs (Decidable (∃ _, _))

instance (x : PCore cfg) : Decidable x.Awaits := inferInstanceAs (Decidable (_ ∧ _))

/-- A process has a target if it is to have one; and within `proc_yield`, it is
    to have none. -/
def PCore.Aims (s : Core cfg) (x : PCore cfg) : Prop :=
  (x.Awaits → x.HasTarget s) ∧ (x.ctx.yieldChan ≠ none → x.cond.type = .chan)

/-- Whoever sleeps with a condition on schedules has a target. -/
def Targeted (s : Core cfg) : Prop := ∀ q, (s.procs q).Aims s

/-- Whoever is there stays, with its pid. -/
def Stay (s t : Core cfg) : Prop := ∀ q, s.Present q → t.Present q ∧ (t.procs q).pid = (s.procs q).pid

theorem PCore.HasTarget.stay {x : PCore cfg} (h : x.HasTarget s) (hst : Stay s t) : x.HasTarget t := by
  obtain ⟨q, hchan, hpid, hq⟩ := h
  obtain ⟨hq', hpid'⟩ := hst q hq
  exact ⟨q, hchan, hpid'.trans hpid, hq'⟩

namespace PCore.Aims

variable {x y : PCore cfg}

theorem stay (h : x.Aims s) (hst : Stay s t) : x.Aims t := ⟨fun hx => (h.1 hx).stay hst, h.2⟩

/-- A process that is awake is to have no target. -/
theorem of_awake (hx : x.state ≠ .sleeping) (hy : x.ctx.yieldChan ≠ none → x.cond.type = .chan) :
    x.Aims s :=
  ⟨fun h => absurd h.1 hx, hy⟩

/-- Nor is one whose condition is its channel alone. -/
theorem of_chan (hx : x.cond.type = .chan) : x.Aims s := by
  refine ⟨fun h => ?_, fun _ => hx⟩
  rw [Awaits, hx] at h
  cases h.2

/-- A change that leaves the process awake, and where it is in the kernel. -/
theorem awake (h : x.Aims s) (hctx : y.ctx = x.ctx) (hcond : y.cond = x.cond) (hs : y.state ≠ .sleeping) :
    y.Aims t := by
  refine .of_awake hs fun hy => ?_
  rw [hcond]
  exact h.2 (hctx ▸ hy)

/-- A change of other fields than those of the wait. -/
theorem congr (h : x.Aims s) (hctx : y.ctx = x.ctx) (hcond : y.cond = x.cond) (hs : y.state = x.state)
    (hchan : y.chan = x.chan) : y.Aims s := by
  refine ⟨fun hy => ?_, fun hy => hcond ▸ h.2 (hctx ▸ hy)⟩
  rw [Awaits, hs, hcond] at hy
  obtain ⟨q, hq, hpid, hpresent⟩ := h.1 hy
  exact ⟨q, hchan.trans hq, hpid.trans (by rw [hcond]), hpresent⟩

end PCore.Aims

namespace Targeted

theorem of_procs (h : Targeted s) (hst : Stay s t) (hp : ∀ q, t.procs q = s.procs q ∨ (t.procs q).Aims t) :
    Targeted t := by
  intro q
  rcases hp q with hq | hq
  · exact hq ▸ (h q).stay hst
  · exact hq

/-- The processes are the same. -/
theorem of_eq (h : Targeted s) (hp : t.procs = s.procs) : Targeted t := by
  refine h.of_procs (fun q hq => ?_) fun q => .inl (congrFun hp q)
  rw [Core.Present, hp]
  exact ⟨hq, rfl⟩

theorem update {f : PCore cfg → PCore cfg} (h : Targeted s) (hst : Stay s (s.update p f))
    (hf : (f (s.procs p)).Aims (s.update p f)) : Targeted (s.update p f) := by
  refine h.of_procs hst fun q => ?_
  by_cases hq : q = p
  · subst hq
    exact .inr (by simpa using hf)
  · exact .inl (by simp [hq])

end Targeted

/-- A process changes, and stays. -/
theorem Stay.update {f : PCore cfg → PCore cfg} (hf : s.Present p → ((f (s.procs p)).state ≠ .zombie ∧
    (f (s.procs p)).state ≠ .available) ∧ (f (s.procs p)).pid = (s.procs p).pid) :
      Stay s (s.update p f) := by
  intro q hq
  by_cases hqp : q = p
  · subst hqp
    simpa [Core.Present] using hf hq
  · simpa [Core.Present, hqp] using hq

namespace Targeted

/-- Fields change that neither waits nor targets are about. -/
theorem update_rest {f : PCore cfg → PCore cfg} (h : Targeted s)
    (hctx : (f (s.procs p)).ctx = (s.procs p).ctx)
    (hcond : (f (s.procs p)).cond = (s.procs p).cond) (hs : (f (s.procs p)).state = (s.procs p).state)
    (hchan : (f (s.procs p)).chan = (s.procs p).chan) (hpid : (f (s.procs p)).pid = (s.procs p).pid) :
    Targeted (s.update p f) := by
  have hst : Stay s (s.update p f) := Stay.update fun hp => by
    rw [hs, hpid]
    exact ⟨hp, rfl⟩
  exact h.update hst (((h p).congr hctx hcond hs hchan).stay hst)

theorem setState {new : PState} {site : Site cfg} (h : Targeted s) (hnew : new ≠ .sleeping)
    (hst : s.Present p → new ≠ .zombie ∧ new ≠ .available) : Targeted (s.setState p new site) := by
  have hup :=
    h.update (p := p) (f := fun x => { x with state := new }) (Stay.update fun hp => ⟨hst hp, rfl⟩)
    ((h p).awake rfl rfl hnew)
  exact hup.of_eq rfl

theorem wakes (h : Targeted s) (hw : Wakes s t) : Targeted t := by
  refine h.of_procs (fun q hq => ?_) fun q => ?_
  · rcases hw.procs_eq q with heq | ⟨-, heq⟩
    · rw [Core.Present, heq]
      exact ⟨hq, rfl⟩
    · rw [Core.Present, heq]
      exact ⟨by simp, rfl⟩
  · rcases hw.procs_eq q with heq | ⟨-, heq⟩
    · exact .inl heq
    · rw [heq]
      exact .inr ((h q).awake rfl rfl (by simp))

theorem reaps {call : Kont cfg} {pid : ℤ} (h : Targeted s) (hr : Reaps p call s t pid) : Targeted t := by
  cases hr with
  | none _ => exact h
  | one _ hz => exact h.setState (by decide) fun hpresent => absurd hz hpresent.1

end Targeted

theorem Stay.reaps {call : Kont cfg} {pid : ℤ} (hr : Reaps p call s t pid) : Stay s t := by
  intro q hq
  rcases hr.procs_eq q with heq | ⟨-, hz, -⟩
  · rw [Core.Present, heq]
    exact ⟨hq, rfl⟩
  · exact absurd hz hq.1

namespace Targeted

/-- A process falls asleep: without a condition on schedules, or with a target. -/
theorem sleep {f : PCore cfg → PCore cfg} {frame : TrapFrame} {call : Kont cfg} (h : Targeted s)
    (hpid : (f (s.procs p)).pid = (s.procs p).pid)
    (hf : PCore.Aims s { f (s.procs p) with state := .sleeping, trap := frame, ctx := call }) :
    Targeted (s.sleep p f frame call) := by
  have hst : Stay s (s.sleep p f frame call) := by
    intro q hq
    by_cases hqp : q = p
    · subst hqp
      simp [Core.Present, hpid]
    · rw [Core.Present, Core.sleep_procs_of_ne hqp]
      exact ⟨hq, rfl⟩
  refine h.of_procs hst fun q => ?_
  by_cases hqp : q = p
  · subst hqp
    rw [Core.sleep_procs_self]
    exact .inr (hf.stay hst)
  · exact .inl (Core.sleep_procs_of_ne hqp)

theorem forks {how : How} (h : Targeted s) (hq : (s.procs q).state = .available) (hf : Forks k p q s how t) :
    Targeted t := by
  have habsent : ¬s.Present q := fun hpresent => hpresent.2 hq
  have hpid : Targeted (s.newPid q) := by
    have hup := h.update (p := q)
      (f := fun x => { x with pid := s.pidCounter % 2 ^ 32, uid := s.pidCounter, forker := none })
      (Stay.update fun hpresent => absurd hpresent habsent) (.of_awake (by simp [hq]) (h q).2)
    exact hup.of_eq rfl
  have hfresh : ∀ frame, Targeted ((s.newPid q).fresh q frame) := by
    intro frame
    have habsent : ¬(s.newPid q).Present q := fun hpresent => hpresent.2 (by simp [Core.newPid, hq])
    refine setState ?_ (by decide) fun _ => by decide
    exact hpid.update (Stay.update fun hpresent => absurd hpresent habsent) (.of_chan rfl)
  have hadopted : ∀ frame, Targeted (((s.newPid q).fresh q frame).counted.adopted p q) := fun frame =>
    update_rest (s := ((s.newPid q).fresh q frame).counted) ((hfresh frame).of_eq rfl) rfl rfl rfl rfl rfl
  cases hf with
  | pid _ => exact hpid
  | full _ => exact hfresh _
  | fresh => exact hfresh _
  | adopted => exact hadopted _
  | @created frame frame' =>
    have hframe :=
      (hadopted frame).update_rest (p := q) (f := fun x => { x with trap := frame' }) rfl rfl rfl rfl rfl
    exact hframe.of_eq rfl

/-- The process exits, and makes its parent ready: nobody else waits for it. -/
theorem exits {r : Slot cfg} {site : Site cfg} (h : Targeted s)
    (hp : ∀ q, (s.procs q).Awaits → (s.procs q).chan = .proc p → q = r) :
    Targeted ((s.setState p .zombie .exit).setState r .ready site) := by
  have hrest : ∀ q, (((s.setState p .zombie .exit).setState r .ready site).procs q).ctx = (s.procs q).ctx ∧
      (((s.setState p .zombie .exit).setState r .ready site).procs q).cond = (s.procs q).cond := by
    intro q
    by_cases hqr : q = r <;> by_cases hqp : q = p <;> simp_all
  intro q
  obtain ⟨hctx, hcond⟩ := hrest q
  by_cases hqr : q = r
  · exact (h q).awake hctx hcond (by simp [hqr])
  by_cases hqp : q = p
  · refine (h q).awake hctx hcond ?_
    subst hqp
    simp [hqr]
  have hsame : ((s.setState p .zombie .exit).setState r .ready site).procs q = s.procs q := by simp [hqr, hqp]
  rw [hsame]
  refine ⟨fun hq => ?_, (h q).2⟩
  obtain ⟨o, hchan, hpid, hpresent⟩ := (h q).1 hq
  have hop : o ≠ p := fun hop => hqr (hp q hq (hop ▸ hchan))
  refine ⟨o, hchan, ?_, ?_⟩
  · by_cases hor : o = r
    · subst hor
      simpa [hop] using hpid
    · simpa [hor, hop] using hpid
  · by_cases hor : o = r
    · subst hor
      simp [Core.Present]
    · simpa [Core.Present, hor, hop] using hpresent

end Targeted

/-! ## Steps -/

/-- The code goes to the scheduler. -/
def Switches {α : Type} : EStateM.Result (Stop cfg) (Kernel cfg) α → Prop
  | .error .switch _ => True
  | _ => False

instance {α : Type} : (r : EStateM.Result (Stop cfg) (Kernel cfg) α) → Decidable (Switches r)
  | .error .switch _ => .isTrue trivial
  | .error .panic _ | .error .hang _ | .error .nullProcess _ | .error .fault _ | .error .outOfBounds _
  | .error (.deadlock _) _ | .ok _ _ => .isFalse id

/-- The condition that the process has from before does not say to wait for
    schedules, or its target is still there. -/
def Reusable (p : Slot cfg) (k : Kernel cfg) : Prop :=
  (k.procs p).cond.type = .nscheds → (k.core.procs p).HasTarget k.core

instance (p : Slot cfg) (k : Kernel cfg) : Decidable (Reusable p k) := inferInstanceAs (Decidable (_ → _))

/-- The process that `proc_wait_by_cond` finds, if `proc_wait` is called with a
    condition on schedules. -/
def waitTarget (p : Slot cfg) (k : Kernel cfg) (cond : ℕ) : Option (Slot cfg) :=
  let cond := va2pa k (k.procs p).upagetable cond
  if cond ≠ 0 ∧ loadWord k.mem cond 4 = waitCondNscheds then
    findProcByPid k (loadWord k.mem (cond + 4) 4) else none

/-- A call after which whoever waits for schedules waits for a process that is
    there: an exit, if nobody but the parent waits for the process; a `wait` with a
    condition, if the process found is there; another call that blocks, if the
    condition from before says to wait for the channel, or can be used again; an
    attachment, if its process does not wait for schedules. -/
def KeepsTargets (p : Slot cfg) (k : Kernel cfg) : Call → Prop
  | .exit => ∀ q, (k.core.procs q).Awaits → (k.procs q).chan = .proc p → (k.procs p).parent = some q
  | .wait cond =>
    (∀ q ∈ waitTarget p k cond, k.core.Present q) ∧
      (va2pa k (k.procs p).upagetable cond = 0 → ¬WaitReturns p k → Reusable p k)
  | .read fd buf size => Switches (runCall p (.read fd buf size) k) → (k.procs p).cond.type = .chan
  | .write fd buf size => Switches (runCall p (.write fd buf size) k) → (k.procs p).cond.type = .chan
  | .sleep _ => Reusable p k
  | .pipeattch pid fd => ∀ x ∈ attachTarget p k pid fd, ¬(k.core.procs x.1).Awaits
  | _ => True

instance (p : Slot cfg) (k : Kernel cfg) : Decidable (WaitReturns p k) := inferInstanceAs (Decidable (_ ∧ _))

instance (p : Slot cfg) (k : Kernel cfg) : DecidablePred (KeepsTargets p k)
  | .exit => inferInstanceAs (Decidable (∀ _, _))
  | .wait _ => inferInstanceAs (Decidable ((∀ q ∈ _, _) ∧ _))
  | .read .. | .write .. => inferInstanceAs (Decidable (_ → _))
  | .sleep _ => inferInstanceAs (Decidable (Reusable p k))
  | .pipeattch _ _ => inferInstanceAs (Decidable (∀ x ∈ _, _))
  | .fork | .open _ | .close _ | .execv .. | .getpid | .dup _ | .pipe _ | .sysinfo _ | .plist
    .. | .pinfo .. | .pgalloc
  | .pgfree _ | .gpio .. | .detach | .isopen _ | .lsdir .. => .isTrue trivial

/-- The code of `proc_wait_by_cond`, when it goes to the scheduler: it has found the
    process. -/
theorem waitCond_target {cond want n : ℕ} {o : Slot cfg} (hk : Calm p k)
    (hpar : (k.core.procs p).parent ≠ some p) (h : procWait p cond k = .error .switch k')
    (hctx : (k'.procs p).ctx = .waitCond o n want) :
    waitTarget p k cond = some o := by
  rw [procWait, get_bind_apply] at h
  -- A wait without a condition cannot end in `waitCond`.
  by_cases hne : va2pa k (k.procs p).upagetable cond = 0
  · obtain ⟨pid, k₁, h₁, -, -⟩ := checkExitedChildren_result .waitChild hk.free hpar
    rw [if_neg (not_not.2 hne), procWaitChild, bind_ok h₁] at h
    split at h
    · cases h
    · obtain ⟨k₂, h₂, hc, -⟩ := psleep_apply (α := ℤ) p .waitChild k₁
      cases h₂.symm.trans h
      have hctx : (k'.core.procs p).ctx = .waitCond o n want := hctx
      rw [hc] at hctx
      simp at hctx
  rw [if_pos hne, procWaitByCond] at h
  split at h
  · cases h
  rename_i htype
  rw [waitTarget, if_pos ⟨hne, not_not.1 htype⟩]
  rw [get_bind_apply] at h
  cases hq : findProcByPid k (loadWord k.mem (va2pa k (k.procs p).upagetable cond + 4) 4) with
  | none =>
    rw [hq] at h
    cases h
  | some q =>
    rw [hq] at h
    cases h
    simp only [Kernel.setProc, Function.update_self, Kont.waitCond.injEq] at hctx
    rw [hctx.1]

namespace Targeted

/-- The process exits, whose parent is gone. -/
theorem orphan (h : Targeted s) (hp : ∀ q, (s.procs q).Awaits → (s.procs q).chan ≠ .proc p) :
    Targeted (s.setState p .zombie .exit) := by
  intro q
  by_cases hqp : q = p
  · subst hqp
    exact (h q).awake (by simp) (by simp) (by simp)
  rw [Core.setState_procs_of_ne _ _ _ hqp]
  refine ⟨fun hq => ?_, (h q).2⟩
  obtain ⟨o, hchan, hpid, hpresent⟩ := (h q).1 hq
  have hop : o ≠ p := fun hop => hp q hq (hop ▸ hchan)
  exact ⟨o, hchan, by simpa [hop] using hpid, by simpa [Core.Present, hop] using hpresent⟩

theorem call {c : Call} {how : How} (h : Targeted k.core) (hk : Calm p k)
    (hs : OnCpu p k.core) (hl : Lineal k.core)
    (he : CallEffect p k c how k'.core) (haway : how = .away → runCall p c k = .error .switch k')
    (hc : KeepsTargets p k c) : Targeted k'.core := by
  generalize ht : k'.core = t at he
  cases he with
  | quiet _ hw => exact h.wakes hw
  | frame _ => exact h.update_rest rfl rfl rfl rfl rfl
  | @yield _ t ch _ call htr hw hch =>
    have hsame : t.procs p = k.core.procs p := hw.procs_of_ne_sleeping (by simp [hs.running])
    -- A process that yields with the condition of a channel needs no target.
    have hcond : (k.procs p).cond.type = .chan := by
      cases c with
      | read => exact hc (by rw [haway rfl]; trivial)
      | write => exact hc (by rw [haway rfl]; trivial)
      | _ => cases htr
    refine (h.wakes hw).sleep rfl (.of_chan ?_)
    rw [hsame]
    exact hcond
  | sleep => exact h.sleep rfl ⟨fun hx => hc hx.2, fun hx => absurd rfl hx⟩
  | waited hr _ => exact (h.reaps hr).of_eq rfl
  | @wait cond t pid frame hr hpid =>
    have hctx : (k'.core.procs p).ctx = .waitChild := by
      rw [ht]
      simp
    -- It sleeps, so there was no child to return.
    have hblocks : ¬WaitReturns p k := by
      rintro ⟨⟨q, hq, hz⟩, hpids⟩
      cases hr with
      | none hno => exact hno q hq hz
      | one hr hz => exact absurd (hpids _ hr hz) (not_le.2 hpid)
    have hcond : Reusable p k := hc.2 (waitChild_cond (haway rfl) hctx) hblocks
    refine (h.reaps hr).sleep rfl ⟨fun hx => ?_, fun hx => absurd rfl hx⟩
    have hself : t.procs p = k.core.procs p := hr.procs_self (hl p)
    rw [id, hself] at hx ⊢
    exact PCore.HasTarget.stay (hcond hx.2) (.reaps hr)
  | @waitCond cond want q frame =>
    have hctx : (k'.core.procs p).ctx = .waitCond q (k.core.procs q).nscheds want := by
      rw [ht]
      simp
    have hpresent : k.core.Present q := hc.1 q (waitCond_target hk (hl p) (haway rfl) hctx)
    exact h.sleep rfl ⟨fun _ => ⟨q, rfl, rfl, hpresent⟩, fun hx => absurd rfl hx⟩
  | @fork q how frame t hqp hq hf =>
    have hframe := h.update_rest (p := p) (f := fun x => { x with trap := frame }) rfl rfl rfl rfl rfl
    exact hframe.forks (by simpa [hqp] using hq) hf
  | orphan hpar =>
    refine h.orphan fun q hq hchan => ?_
    have hparent : (k.core.procs p).parent = some q := hc q hq hchan
    rw [hpar] at hparent
    cases hparent
  | exiting hpar hw =>
    refine (h.exits fun q hq hchan => ?_).wakes hw
    exact Option.some.inj ((hc q hq hchan).symm.trans hpar)
  | @exited r t hpar hw =>
    have hexit := (h.exits fun q hq hchan => Option.some.inj ((hc q hq hchan).symm.trans hpar)).wakes hw
    -- The process that exits is a zombie, and waits for nobody.
    have hz : (t.procs p).state ≠ .sleeping := by
      have hrp : p ≠ r := fun h => hl p (h ▸ hpar)
      rw [hw.procs_of_ne_sleeping] <;> simp [hrp]
    have hctx := hexit.update (p := p) (f := fun x => { x with ctx := .exited })
      (Stay.update fun hpresent => ⟨hpresent, rfl⟩) (.of_awake hz fun hx => absurd rfl hx)
    exact hctx.of_eq rfl
  | detached _ _ => exact h.update_rest rfl rfl rfl rfl rfl
  | detachedWake _ _ =>
    exact (h.update_rest rfl rfl rfl rfl rfl).setState (by decide) fun _ => by decide
  | @attached pid fd q f hq =>
    have hsleeps : ¬(k.core.procs q).Awaits := hc _ hq
    refine h.update (Stay.update fun hpresent => ⟨hpresent, rfl⟩) ⟨fun hx => absurd hx hsleeps, (h q).2⟩

theorem resume {how : How} (h : Targeted s) (hs : OnCpu p s) (hl : Lineal s) (he : ResumeEffect p s how t) :
    Targeted t := by
  cases he with
  | same _ => exact h
  | waited _ _ hr => exact (h.reaps hr).of_eq rfl
  | reaped _ _ hr hw => exact (h.reaps hr).wakes hw
  | @yield t u _ ch _ _ _ hch hr hw hcall =>
    have hp : t.procs p = s.procs p := hr.procs_self (hl p)
    have hp' : u.procs p = s.procs p := by
      rw [hw.procs_of_ne_sleeping (by simp [hp, hs.running]), hp]
    refine ((h.reaps hr).wakes hw).sleep rfl (.of_chan ?_)
    rw [hp']
    exact (h p).2 (by simp [hch])

theorem after {how : How} (h : Targeted t) : Targeted (t.after how) := by
  cases how <;> exact h.of_eq rfl

theorem run (h : Targeted s) (hw : Wakes ((s.awaken p).run p) t) : Targeted t := by
  have hawake : Targeted (s.awaken p) := by
    rw [Core.awaken]
    split
    · exact h.setState (by decide) fun _ => by decide
    · exact h
  have hrun : Targeted ((s.awaken p).setState p .running .scheduler) :=
    hawake.setState (by decide) fun _ => by decide
  refine Targeted.wakes (s := (s.awaken p).run p) ?_ hw
  exact (hrun.update_rest (f := fun x => { x with nscheds := (x.nscheds + 1) % 2 ^ 64 }) rfl
    rfl rfl rfl rfl).of_eq rfl

/-- A step after which whoever waits for schedules waits for a process that is there. -/
theorem step {e : Event cfg} (h : Targeted m.k.core) (hb : Base m) (hC : OnCall KeepsTargets m e)
    (hstep : step e m = some m') : Targeted m'.k.core := by
  by_cases hecall : e = .ecall
  · subst hecall
    cases hmode : m.mode with
    | user =>
      simp only [HobbyOs.step, hmode, Option.some.injEq] at hstep
      have hcall := ecall_callStep hb hmode
      rw [hstep] at hcall
      generalize m'.k.core = t at hcall
      cases hcall with
      | none => exact h
      | @call p c how k₁ hp hcalm hc _ he haway =>
        exact (Targeted.call (k := (trap m).entry p) h hcalm hp hb.lineal he haway (hC p hp.cpu c hc)).after
    | idle | sched | switched | halted => simp [HobbyOs.step, hmode] at hstep
  have hcore := (step_stepped hb hstep).core
  generalize m'.k.core = t at hcore
  cases hcore with
  | same => exact h
  | time | overlay => exact h.of_eq rfl
  | plic hw => exact h.wakes hw
  | @preempt p hp =>
    have hready : Targeted (m.k.core.setState p .ready .sched) := h.setState (by decide) fun _ => by decide
    refine Targeted.after (hready.update (Stay.update fun hpresent => ⟨hpresent, rfl⟩) ?_)
    exact .of_awake (by simp) fun hy => absurd rfl hy
  | call => exact absurd rfl hecall
  | run _ _ hw => exact h.run hw
  | resume hp _ he => exact (h.resume hp hb.lineal he).after

end Targeted

theorem targeted_halfway (h : Halfway s) : Targeted s := by
  intro q
  refine .of_chan ?_
  cases h with
  | init => rfl
  | @pid p | @fresh p | @counted p =>
    by_cases hq : q = p
    · subst hq
      simp [Core.newPid, Core.fresh, Core.counted, Core.init, zeroProc]
    · simp [Core.newPid, Core.fresh, Core.counted, Core.init, zeroProc, hq]

theorem targeted_booted (p : Slot cfg) (frame frame' : TrapFrame) :
    Targeted ((Core.init cfg).booted p frame frame') :=
  (targeted_halfway (@Halfway.counted cfg p frame frame')).of_eq rfl

/-- In every state of a run whose calls keep targets, a process that sleeps with a
    condition on schedules has for its channel a process that is there, with the
    pid of the condition. -/
theorem target_present (h : Reach (machine cfg) (OnCall KeepsTargets) m) (hs : (m.k.procs p).state = .sleeping)
    (hc : (m.k.procs p).cond.type = .nscheds) :
    ∃ q, (m.k.procs p).chan = .proc q ∧ (m.k.procs q).pid = (m.k.procs p).cond.targetPid ∧
      (m.k.procs q).state ≠ .zombie ∧ (m.k.procs q).state ≠ .available :=
  (core_of_reach targeted_booted (fun _ => targeted_halfway) (fun hb hI hC hstep => hI.step hb hC hstep) h p).1
    ⟨hs, hc⟩

/-! ## Two runs -/

/-- The first process forks, and waits until its child is scheduled another time. -/
def waitForChild : List (Event .qemuE) :=
  calls 7 0x80003e00 0 0 [(0x80003e00, bytesOfWord 1 4 ++ bytesOfWord 1 4 ++ bytesOfWord 1 8)]

/-- It does so after the child has exited. -/
def waitForExited : List (Event .qemuE) :=
  [Event.kernel, .kernel] ++ calls 2 0 0 0 [] ++ [Event.tick, .kernel, .kernel] ++ calls 1 0 0 0 [] ++
    List.replicate 5 Event.kernel ++ waitForChild

theorem waitForExited_absent :
    ¬∀ (m : Machine .qemuE) (p : Slot .qemuE), Reach (machine .qemuE) free m →
      (m.k.procs p).state = .sleeping → (m.k.procs p).cond.type = .nscheds →
      ∃ q, (m.k.procs p).chan = .proc q ∧ (m.k.procs q).pid = (m.k.procs p).cond.targetPid ∧
        (m.k.procs q).state ≠ .zombie ∧ (m.k.procs q).state ≠ .available := by
  have h : ∃ m ∈ runFrom .qemuE waitForExited, (m.k.procs ⟨0, by decide⟩).state = .sleeping ∧
      (m.k.procs ⟨0, by decide⟩).cond.type = .nscheds ∧
      (m.k.procs ⟨0, by decide⟩).chan = .proc ⟨1, by decide⟩ ∧
      (m.k.procs ⟨1, by decide⟩).state = .zombie := by
    decide +kernel
  obtain ⟨m, hm, hs, hc, hchan, hz⟩ := h
  intro hall
  obtain ⟨q, hq, -, hne, -⟩ := hall m _ (reach_of_runFrom hm) hs hc
  cases hchan.symm.trans hq
  exact hne hz

theorem waitForChild_present :
    ∃ m : Machine .qemuE, (m.k.procs ⟨0, by decide⟩).chan = .proc ⟨1, by decide⟩ ∧
      ∃ q, (m.k.procs ⟨0, by decide⟩).chan = .proc q ∧
        (m.k.procs q).pid = (m.k.procs ⟨0, by decide⟩).cond.targetPid ∧
        (m.k.procs q).state ≠ .zombie ∧ (m.k.procs q).state ≠ .available := by
  have h : ∃ m ∈ run (OnCall KeepsTargets) (machine .qemuE)
      ([Event.kernel, .kernel] ++ calls 2 0 0 0 [] ++ waitForChild) (boot .qemuE fun _ => 0),
        (m.k.procs ⟨0, by decide⟩).state = .sleeping ∧
      (m.k.procs ⟨0, by decide⟩).cond.type = .nscheds ∧
      (m.k.procs ⟨0, by decide⟩).chan = .proc ⟨1, by decide⟩ := by
    decide +kernel
  obtain ⟨m, hm, hs, hc, hchan⟩ := h
  exact ⟨m, hchan, target_present (Reach.of_run _ ⟨_, rfl⟩ hm) hs hc⟩

end HobbyOs
