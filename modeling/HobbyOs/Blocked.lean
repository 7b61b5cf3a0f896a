import HobbyOs.KernelStep

/-!
# What processes are blocked in

A process that blocks leaves to the scheduler what it will go on with (`Kont`).

* `SwitchesTo`: what holds when code of a process switches to the scheduler;
* `Within`: a property of what processes go on with, all of them or those that are
  meant. What a step does keeps it, if the process that blocks in the step has it;
* `InRead`, `InWrite`: a process has blocked in a read of a file object, or in a
  write. It is the file object that the read was called with, also when the
  process has gone on and blocks again (`resume_blocks`).
-/

namespace HobbyOs

open Outcome Transition

variable {cfg : Config} {α β : Type} {p q : Slot cfg} {k k' : Kernel cfg}
  {s t : Core cfg} {m m' : Machine cfg}

/-! ## Switching -/

/-- When `c` switches to the scheduler, `P` holds of the kernel that it leaves. -/
def SwitchesTo (p : Slot cfg) (P : Kernel cfg → Prop) (c : KM cfg α) : Prop :=
  ∀ k, Calm p k → ∀ k', c k = .error .switch k' → P k'

namespace SwitchesTo

variable {P Q : Kernel cfg → Prop} {c : KM cfg α} {f : α → KM cfg β}

theorem mono (h : SwitchesTo p P c) (hPQ : ∀ k, P k → Q k) : SwitchesTo p Q c :=
  fun k hk k' hr => hPQ k' (h k hk k' hr)

/-- Of code that does not block. -/
theorem of_quiet (hc : Quiet (others p) c) : SwitchesTo p P c := by
  intro k hk k' h
  rcases hc.result hk.free hk.sleepers with ⟨a, k₁, h₁, -⟩ | ⟨e, k₁, h₁, he, -⟩
  · rw [h₁] at h
    cases h
  · rw [h₁] at h
    cases h
    exact he.elim

theorem of_still (hc : Still (others p) c) : SwitchesTo p P c := of_quiet hc.quiet

theorem bind (hc : SwitchesTo p P c) (hy : Yields p c) (hf : ∀ a, SwitchesTo p P (f a)) :
    SwitchesTo p P (c >>= f) := by
  intro k hk k' h
  rcases bind_eq_error.1 h with h | ⟨a, k₁, h₁, h⟩
  · exact hc k hk k' h
  · have hres := hy k hk
    rw [h₁] at hres
    cases hres with
    | ok hw hh => exact hf a k₁ (hk.wakes hw hh) k' h

theorem bind_quiet (hc : Quiet (others p) c) (hf : ∀ a, SwitchesTo p P (f a)) : SwitchesTo p P (c >>= f) :=
  (of_quiet hc).bind (.of_quiet hc) hf

theorem bind_still (hc : Still (others p) c) (hf : ∀ a, SwitchesTo p P (f a)) : SwitchesTo p P (c >>= f) :=
  bind_quiet hc.quiet hf

theorem procYield {ch : Chan cfg} {call : Kont cfg} (h : ∀ k', (k'.procs p).ctx = call → P k') :
    SwitchesTo p P (HobbyOs.procYield p ch call : KM cfg α) := by
  intro k _ k' hr
  obtain ⟨k₁, h₁, hs, -⟩ := procYield_apply (α := α) p ch call k
  rw [h₁] at hr
  cases hr
  refine h k' ?_
  show (k'.core.procs p).ctx = call
  rw [hs]
  simp

end SwitchesTo

/-! ## What processes go on with -/

/-- Which processes are meant, by their slots and states. As long as a process lives
    it does not depend on its state, and not on whether it has been freed after its
    exit. -/
structure Meant (A : Slot cfg → PState → Prop) : Prop where
  live : ∀ {q x} y, ¬x.isGone → A q x → A q y
  freed : ∀ {q}, A q .available → A q .zombie

theorem Meant.slots (B : Slot cfg → Prop) : Meant fun q _ => B q := ⟨fun _ _ h => h, id⟩

theorem Meant.and_ne {A : Slot cfg → PState → Prop} (h : Meant A) (p : Slot cfg) :
    Meant fun q x => q ≠ p ∧ A q x :=
  ⟨fun y hx hA => ⟨hA.1, h.live y hx hA.2⟩, fun hA => ⟨hA.1, h.freed hA.2⟩⟩

theorem Meant.gone : Meant fun (_ : Slot cfg) x => x.isGone :=
  ⟨fun _ hx hA => absurd hA hx, fun _ => .inl rfl⟩

/-- What the processes that are meant go on with has the property `P`. -/
def Within (A : Slot cfg → PState → Prop) (P : Kont cfg → Prop) (s : Core cfg) : Prop :=
  ∀ q, A q (s.procs q).state → P (s.procs q).ctx

namespace Within

variable {A : Slot cfg → PState → Prop} {P : Kont cfg → Prop}

theorem update {f : PCore cfg → PCore cfg} (h : Within A P s) (hstate : ∀ x, (f x).state = x.state)
    (hf : ∀ x, (f x).ctx = x.ctx ∨ P (f x).ctx) : Within A P (s.update q f) := by
  intro r hA
  by_cases hr : r = q
  · subst hr
    simp only [Core.update_procs_self, hstate] at hA ⊢
    rcases hf (s.procs r) with he | he
    · rw [he]
      exact h r hA
    · exact he
  · simp only [Core.update_procs_of_ne _ _ hr] at hA ⊢
    exact h r hA

theorem setState {new : PState} {site : Site cfg} (h : Within A P s) (hA : A q new → A q (s.procs q).state) :
    Within A P (s.setState q new site) := by
  intro r hr
  by_cases hrq : r = q
  · subst hrq
    simp only [Core.setState_procs_self] at hr ⊢
    exact h r (hA hr)
  · simp only [Core.setState_procs_of_ne _ _ _ hrq] at hr ⊢
    exact h r hr

theorem ready {site : Site cfg} (h : Within A P s) (hA : Meant A) : Within A P (s.setState q .ready site) :=
  h.setState (hA.live _ (by simp [PState.isGone]))

theorem wakes (h : Within A P s) (hA : Meant A) (hw : Wakes s t) : Within A P t := by
  refine hw.induct (I := Within A P) h fun hu _ _ _ => ?_
  exact (hu.ready hA).update (fun _ => rfl) fun _ => .inl rfl

theorem reaps {call : Kont cfg} {pid : ℤ} (h : Within A P s) (hA : Meant A) (hr : Reaps p call s t pid) :
    Within A P t := by
  cases hr with
  | none _ => exact h
  | one _ hz =>
    refine h.setState fun hq => ?_
    rw [hz]
    exact hA.freed hq

/-- A process blocks in `call`. -/
theorem sleep {f : PCore cfg → PCore cfg} {frame : TrapFrame} {call : Kont cfg} (h : Within A P s)
    (hcall : A p .sleeping → P ((s.sleep p f frame call).procs p).ctx) :
    Within A P (s.sleep p f frame call) := by
  intro r hA
  by_cases hr : r = p
  · subst hr
    rw [Core.sleep_procs_self] at hA
    exact hcall hA
  · rw [Core.sleep_procs_of_ne hr] at hA ⊢
    exact h r hA

theorem after {how : How} (h : Within A P s) : Within A P (s.after how) := by
  cases how <;> exact h

theorem newPid (h : Within A P s) : Within A P (s.newPid q) := by
  have hpid := h.update (q := q)
    (f := fun x => { x with pid := s.pidCounter % 2 ^ 32, uid := s.pidCounter, forker := none })
    (fun _ => rfl) fun _ => .inl rfl
  exact hpid

theorem fresh {frame : TrapFrame} (h : Within A P s) (hA : Meant A) (hplain : P .forkret) :
    Within A P ((s.newPid q).fresh q frame) := by
  have hset := (h.newPid (q := q)).update (q := q)
    (f := fun x => { x with trap := frame, ctx := .forkret, nscheds := 0, cond := ⟨.chan, noPid, 0⟩ })
    (fun _ => rfl) fun _ => .inr hplain
  exact hset.ready hA

theorem forks {how : How} (h : Within A P s) (hA : Meant A) (hplain : P .forkret) (hf : Forks k p q s how t) :
    Within A P t := by
  have hadopted : ∀ frame, Within A P (((s.newPid q).fresh q frame).counted.adopted p q) := by
    intro frame
    have hcounted : Within A P ((s.newPid q).fresh q frame).counted := h.fresh hA hplain
    exact hcounted.update (fun _ => rfl) fun _ => .inl rfl
  cases hf with
  | pid _ => exact h.newPid
  | full _ | fresh => exact h.fresh hA hplain
  | adopted => exact hadopted _
  | @created frame frame' =>
    have hframe := (hadopted frame).update (q := q) (f := fun x => { x with trap := frame' })
      (fun _ => rfl) fun _ => .inl rfl
    exact hframe

/-- It is enough to know of the others, and of `p`. -/
theorem of_ne (h : Within (fun q x => q ≠ p ∧ A q x) P s) (hp : P (s.procs p).ctx) : Within A P s := by
  intro q hA
  by_cases hq : q = p
  · exact hq ▸ hp
  · exact h q ⟨hq, hA⟩

theorem ne (h : Within A P s) (p : Slot cfg) : Within (fun q x => q ≠ p ∧ A q x) P s := fun q hA => h q hA.2

/-- A call keeps what holds of the process that blocks in it. -/
theorem call {c : Call} {how : How} (h : Within A P k.core) (hA : Meant A)
    (hplain : ∀ x : Kont cfg, x.isPlain = true → P x) (hhalt : how ≠ .halt)
    (haway : how = .away → A p .sleeping → P (t.procs p).ctx) (he : CallEffect p k c how t) :
    Within A P t := by
  cases he with
  | quiet _ hw => exact h.wakes hA hw
  | frame _ => exact h.update (fun _ => rfl) fun _ => .inl rfl
  | yield _ hw _ => exact (h.wakes hA hw).sleep (haway rfl)
  | sleep => exact h.sleep (haway rfl)
  | waited hr _ => exact fun q => h.reaps hA hr q
  | wait hr _ => exact (h.reaps hA hr).sleep (haway rfl)
  | waitCond => exact h.sleep (haway rfl)
  | @fork q _ frame _ _ _ hf =>
    have hframe := h.update (q := p) (f := fun x => { x with trap := frame }) (fun _ => rfl) fun _ => .inl rfl
    exact hframe.forks hA (hplain _ rfl) hf
  | orphan _ | exiting _ _ => exact absurd rfl hhalt
  | exited _ hw =>
    -- What the process goes on with is set last.
    have hzombie : Within (fun q x => q ≠ p ∧ A q x) P (k.core.setState p .zombie .exit) :=
      (h.ne p).setState fun hp => absurd rfl hp.1
    have hlast := ((hzombie.ready (hA.and_ne p)).wakes (hA.and_ne p) hw).update (q := p)
      (f := fun x => { x with ctx := .exited }) (fun _ => rfl) fun _ => .inr (hplain _ rfl)
    exact hlast.of_ne (by simpa using hplain _ rfl)
  | detached _ _ => exact h.update (fun _ => rfl) fun _ => .inl rfl
  | detachedWake _ _ =>
    have hparent := h.update (q := p) (f := fun x => { x with parent := none }) (fun _ => rfl) fun _ => .inl rfl
    exact hparent.ready hA
  | attached _ => exact h.update (fun _ => rfl) fun _ => .inl rfl

theorem resume {how : How} (h : Within A P s) (hA : Meant A)
    (haway : how = .away → A p .sleeping → P (t.procs p).ctx) (he : ResumeEffect p s how t) :
    Within A P t := by
  cases he with
  | same _ => exact h
  | waited _ _ hr => exact fun q => h.reaps hA hr q
  | reaped _ _ hr hw => exact (h.reaps hA hr).wakes hA hw
  | yield _ hr hw _ => exact ((h.reaps hA hr).wakes hA hw).sleep (haway rfl)

theorem preempt (h : Within (fun q x => q ≠ p ∧ A q x) P s) (hA : Meant A) (hplain : P .timerTick) :
    Within A P (((s.setState p .ready .sched).update p fun x => { x with ctx := .timerTick }).after .away) := by
  have hready : Within (fun q x => q ≠ p ∧ A q x) P (s.setState p .ready .sched) := h.ready (hA.and_ne p)
  have htick := hready.update (q := p)
    (f := fun x => { x with ctx := .timerTick }) (fun _ => rfl) fun _ => .inr hplain
  exact Within.after (htick.of_ne (by simpa using hplain))

theorem run (h : Within A P s) (hA : Meant A) (hw : Wakes ((s.awaken p).run p) t) : Within A P t := by
  have hawaken : Within A P (s.awaken p) := by
    rw [Core.awaken]
    split
    · exact h.ready hA
    · exact h
  have hset : Within A P ((s.awaken p).setState p .running .scheduler) :=
    hawaken.setState (hA.live _ (by simp [PState.isGone]))
  have hcount := hset.update (q := p) (f := fun x => { x with nscheds := (x.nscheds + 1) % 2 ^ 64 })
    (fun _ => rfl) fun _ => .inl rfl
  have hrun : Within A P ((s.awaken p).run p) := hcount
  exact hrun.wakes hA hw

theorem aside (h : Within A P m.k.core) (hA : Meant A) (hplain : ∀ x : Kont cfg, x.isPlain = true → P x)
    (ha : Aside m t) : Within A P t := by
  cases ha with
  | same | time | overlay => exact h
  | preempt _ => exact (h.ne _).preempt hA (hplain _ rfl)
  | run _ _ hw => exact h.run hA hw

end Within

/-! ## Reads and writes -/

/-- The file object of a read that has blocked. -/
def Kont.reads : Kont cfg → Option FileRef
  | .pipeRead f .. | .uartRead f .. => some f
  | _ => none

theorem Kont.reads_plain (x : Kont cfg) (h : x.isPlain = true) : x.reads = none := by
  cases x with
  | forkret | timerTick | exited => rfl
  | _ => cases h

/-- `p` has blocked in a read of `f`: of the console only when there is nothing to
    read. -/
def InRead (p : Slot cfg) (f : FileRef) (k : Kernel cfg) : Prop :=
  (∃ i buf size, (k.procs p).ctx = .pipeRead f i buf size) ∨
    (∃ buf size, (k.procs p).ctx = .uartRead f buf size) ∧ canReadFrom k.uart0 = false

/-- `p` has blocked in a write. -/
def InWrite (p : Slot cfg) (k : Kernel cfg) : Prop :=
  ∃ f i buf nbytes nwritten, (k.procs p).ctx = .pipeWrite f i buf nbytes nwritten

theorem InRead.reads {f : FileRef} (h : InRead p f k) : (k.procs p).ctx.reads = some f := by
  rcases h with ⟨i, buf, size, h⟩ | ⟨⟨buf, size, h⟩, -⟩
  · rw [h]
    rfl
  · rw [h]
    rfl

theorem InWrite.reads (h : InWrite p k) : (k.procs p).ctx.reads = none := by
  obtain ⟨f, i, buf, nbytes, nwritten, h⟩ := h
  rw [h]
  rfl

section

variable {f : FileRef} {i : Fin maxPipes} {fd buf size nbytes nwritten pos : ℕ}

theorem away_pipeReadLoopTop : SwitchesTo p (InRead p f) (pipeReadLoopTop p f i buf size) := by
  refine .bind_quiet (quiet_pipeReadTry (by simp) (by simp)) fun r => ?_
  cases r with
  | none => exact .procYield fun k h => .inl ⟨i, buf, size, h⟩
  | some n => exact .of_still (Still.pure _)

theorem away_uartReadline : SwitchesTo p (InRead p f) (uartReadline p f buf size) := by
  intro k _ k' h
  rw [uartReadline, get_bind_apply] at h
  cases hcan : canReadFrom k.uart0 with
  | true =>
    rw [hcan] at h
    cases h
  | false =>
    rw [hcan, if_neg Bool.false_ne_true] at h
    cases h
    exact .inr ⟨⟨buf, size, by simp [Kernel.setProc]⟩, hcan⟩

/-- A read that blocks is one of the file object it was called with. -/
theorem away_fsRead : SwitchesTo p (InRead p f) (fsRead p f pos buf size) := by
  refine .bind_still Still.get fun k => ?_
  split
  · exact .of_still (Still.pure _)
  · exact away_uartReadline
  · exact .of_still still_bifsRead
  · refine .bind_still Still.get fun k => ?_
    split
    · exact .of_still (Still.throw trivial)
    · exact .of_still (Still.throw trivial)
    · exact away_pipeReadLoopTop

theorem away_procRead : SwitchesTo p (fun k => ∃ f, InRead p f k) (procRead p fd buf size) := by
  refine .bind_still still_fileOf fun f => ?_
  split
  · exact .of_still (still_setErrno.bind fun _ => Still.pure _)
  rename_i f
  refine .bind_still Still.get fun k => ?_
  dsimp only
  split
  · exact .of_still (still_setErrno.bind fun _ => Still.pure _)
  · exact (away_fsRead.mono fun k h => ⟨f, h⟩).bind yields_fsRead fun n => .of_still still_readTail

theorem away_pipeWriteLoopTop : SwitchesTo p (InWrite p) (pipeWriteLoopTop p f i buf nbytes nwritten) := by
  refine .bind_quiet (quiet_pipeWriteTry (by simp) (by simp)) fun r => ?_
  cases r with
  | inl n => exact .of_still (Still.pure _)
  | inr n => exact .procYield fun k h => ⟨f, i, buf, nbytes, n, h⟩

theorem away_procWrite : SwitchesTo p (InWrite p) (procWrite p fd buf nbytes) := by
  refine .bind_still still_fileOf fun f => ?_
  split
  · exact .of_still (still_setErrno.bind fun _ => Still.pure _)
  refine .bind_still Still.get fun k => ?_
  dsimp only
  split
  · exact .of_still (still_setErrno.bind fun _ => Still.pure _)
  refine .bind_still still_writeSize fun n => ?_
  refine SwitchesTo.bind ?_ yields_fsWrite fun n => .of_still still_writeTail
  refine .bind_still Still.get fun k => ?_
  split
  · exact .of_still (Still.pure _)
  · exact .of_still still_uartWrite
  · exact .of_still (Still.pure _)
  · refine .bind_still Still.get fun k => ?_
    split
    · exact .of_still (Still.pure _)
    · exact .of_still (Still.throw trivial)
    · exact away_pipeWriteLoopTop

/-- A call that blocks but is neither a read nor a write. -/
theorem CallEffect.reads_none {c : Call} (he : CallEffect p k c .away t) (hc : c.isTransfer = false) :
    (t.procs p).ctx.reads = none := by
  cases he with
  | quiet h _ | frame h => exact absurd rfl h
  | yield h _ _ =>
    rw [hc] at h
    cases h
  | sleep | wait | waitCond =>
    rw [Core.sleep_procs_self]
    rfl
  | fork _ _ hf =>
    cases hf with
    | pid h => exact absurd rfl h
  | @exited _ u _ _ =>
    show ((u.update p fun x => { x with ctx := .exited }).procs p).ctx.reads = none
    simp [Kont.reads]

/-- A process that goes on and blocks again is in the read or the write that it was
    in. -/
theorem resume_blocks (hk : Calm p k) (hpar : (k.core.procs p).parent ≠ some p)
    (h : resume p k = .error .switch k') :
    (∃ f, (k.procs p).ctx.reads = some f ∧ InRead p f k') ∨
    (k.procs p).ctx.reads = none ∧ InWrite p k' := by
  have hres := resume_result hk hpar
  have hrun : resume p k = resumeFrom p (k.procs p).ctx k := rfl
  have htail : ∀ {f n}, Still (others p) (do syscallTail p (← readTail p f n) : KM cfg Unit) :=
    still_readTail.bind fun _ => still_syscallTail _
  rw [h] at hres
  cases hres with
  | away he _ =>
    generalize k'.core = t at he
    cases he with
    | same hne => exact absurd rfl hne
    | waited hne _ _ => exact absurd rfl hne
    | reaped hne _ _ _ => exact absurd rfl hne
    -- Only a call that yields can block again: the kind of call says on what.
    | yield hch _ _ _ =>
      rw [hrun] at h
      cases hcall : (k.procs p).ctx with
      | pipeRead f i buf size =>
        rw [hcall] at h
        obtain ⟨pid, k₁, h₁, -, hk₁⟩ := afterYield_result (.pipeRead f i buf size) hk hpar
        rw [resumeFrom, bind_ok h₁] at h
        exact .inl ⟨f, rfl,
          (away_pipeReadLoopTop.bind yields_pipeReadLoopTop fun n => .of_still htail) k₁ hk₁ k' h⟩
      | pipeWrite f i buf nbytes nwritten =>
        rw [hcall] at h
        obtain ⟨pid, k₁, h₁, -, hk₁⟩ := afterYield_result (.pipeWrite f i buf nbytes nwritten) hk hpar
        rw [resumeFrom, bind_ok h₁] at h
        have haway : SwitchesTo p (InWrite p) (pipeWriteResume p f i buf nbytes nwritten) := by
          refine .bind_still Still.get fun k => ?_
          split
          · exact .of_still (Still.pure _)
          · exact away_pipeWriteLoopTop
        refine .inr ⟨rfl, (haway.bind yields_pipeWriteResume fun n => .of_still ?_) k₁ hk₁ k' h⟩
        exact still_writeTail.bind fun _ => still_syscallTail _
      | uartRead f buf size =>
        rw [hcall] at h
        obtain ⟨pid, k₁, h₁, -, hk₁⟩ := afterYield_result (.uartRead f buf size) hk hpar
        rw [resumeFrom, bind_ok h₁] at h
        exact .inl ⟨f, rfl,
          (away_uartReadline.bind yields_uartReadline fun n => .of_still htail) k₁ hk₁ k' h⟩
      | _ =>
        have hch : (k.procs p).ctx.yieldChan = some _ := hch
        rw [hcall] at hch
        cases hch
  | halt hhalt _ _ => exact hhalt.elim

end

end HobbyOs
