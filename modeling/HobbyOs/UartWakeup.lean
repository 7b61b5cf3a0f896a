import HobbyOs.Blocked
import HobbyOs.UartQueue

/-!
# Readers of the console

A process that reads from the console sleeps on it while there is nothing to
read, and `uart_enqueue_chars` is to wake it when there is. It marks the console
when a newline arrives, and when a character finds the ring full; but not when a
character fills it.

* `YieldsUnread`: a reader falls asleep only when there is nothing to read;
* `Announced`: what a step must not do, for readers to be woken: fill the ring
  without a mark, or put a process to sleep in another call that still has the
  console as its channel;
* `no_reader_sleeps`: then nobody sleeps on the console after characters were
  received, when it can be read.
-/

namespace HobbyOs

open Outcome Transition

variable {cfg : Config} {α β : Type} {p q : Slot cfg} {k k' : Kernel cfg}
  {s t : Core cfg} {m m' : Machine cfg}

/-! ## Going to sleep -/

/-- When `c` switches to the scheduler in a read of the console, there is nothing
    to read. -/
def YieldsUnread (p : Slot cfg) (c : KM cfg α) : Prop :=
  ∀ k, Calm p k → ∀ k', c k = .error .switch k' → (k'.procs p).ctx.yieldChan = some .uart0 →
    canReadFrom k'.uart0 = false

section

variable {fd buf size nbytes : ℕ}

theorem InRead.unread {f : FileRef} (h : InRead p f k) (hctx : (k.procs p).ctx.yieldChan = some .uart0) :
    canReadFrom k.uart0 = false := by
  rcases h with ⟨i, buf, size, hread⟩ | ⟨-, hcan⟩
  · rw [hread] at hctx
    cases hctx
  · exact hcan

theorem InWrite.not_uart (h : InWrite p k) : (k.procs p).ctx.yieldChan ≠ some .uart0 := by
  obtain ⟨f, i, buf, nbytes, nwritten, h⟩ := h
  rw [h]
  nofun

theorem unread_procRead : YieldsUnread p (procRead p fd buf size) :=
  away_procRead.mono fun _ ⟨_, h⟩ => h.unread

theorem unread_procWrite : YieldsUnread p (procWrite p fd buf nbytes) :=
  away_procWrite.mono fun _ h hctx => absurd hctx h.not_uart

theorem unread_resume (hk : Calm p k) (hpar : (k.core.procs p).parent ≠ some p)
    (h : resume p k = .error .switch k') (hctx : (k'.procs p).ctx.yieldChan = some .uart0) :
    canReadFrom k'.uart0 = false := by
  rcases resume_blocks hk hpar h with ⟨f, -, hread⟩ | ⟨-, hwrite⟩
  · exact hread.unread hctx
  · exact absurd hctx hwrite.not_uart

end

/-- `proc_wait` waits for a child only without a condition. -/
theorem waitChild_cond {cond : ℕ} (h : procWait p cond k = .error .switch k')
    (hctx : (k'.procs p).ctx = .waitChild) :
    va2pa k (k.procs p).upagetable cond = 0 := by
  by_contra hne
  rw [procWait, get_bind_apply, if_pos hne, procWaitByCond] at h
  split at h
  · cases h
  rw [get_bind_apply] at h
  cases hq : findProcByPid k (loadWord k.mem (va2pa k (k.procs p).upagetable cond + 4) 4) with
  | none =>
    rw [hq] at h
    cases h
  | some q =>
    rw [hq] at h
    cases h
    simp [Kernel.setProc] at hctx

/-! ## Nobody sleeps on the console -/

/-- The process sleeps on the console, until it is marked. -/
def PCore.Reads (x : PCore cfg) : Prop := x.state = .sleeping ∧ x.chan = .uart0 ∧ x.cond.type = .chan

/-- Nobody sleeps on the console. -/
def NoReader (s : Core cfg) : Prop := ∀ q, ¬(s.procs q).Reads

theorem Sleeps.reads (h : Sleeps q .uart0 s) : (s.procs q).Reads := ⟨h.state, h.chan, h.cond⟩

theorem PCore.Reads.sleeps (h : (s.procs q).Reads) : Sleeps q .uart0 s := ⟨h.1, h.2.1, h.2.2⟩

theorem PCore.not_reads_of_awake {x : PCore cfg} (h : x.state ≠ .sleeping) : ¬x.Reads := fun hx => h hx.1

namespace NoReader

theorem of_procs (h : NoReader s) (hp : ∀ q, (t.procs q).Reads → (s.procs q).Reads) : NoReader t :=
  fun q hq => h q (hp q hq)

theorem update {f : PCore cfg → PCore cfg} (h : NoReader s) (hf : ¬(f (s.procs p)).Reads) :
    NoReader (s.update p f) := by
  intro q hq
  by_cases hqp : q = p
  · subst hqp
    exact hf (by simpa using hq)
  · exact h q (by simpa [hqp] using hq)

theorem setState {new : PState} {site : Site cfg} (h : NoReader s) (hnew : new ≠ .sleeping) :
    NoReader (s.setState p new site) :=
  (h.update (p := p) (f := fun x => { x with state := new }) (PCore.not_reads_of_awake hnew)).of_procs
    fun _ => id

theorem wakes (h : NoReader s) (hw : Wakes s t) : NoReader t := by
  intro q hq
  rcases hw.procs_eq q with heq | ⟨-, heq⟩
  · exact h q (heq ▸ hq)
  · rw [heq] at hq
    exact PCore.not_reads_of_awake (by simp) hq

theorem reaps {call : Kont cfg} {pid : ℤ} (h : NoReader s) (hr : Reaps p call s t pid) : NoReader t := by
  cases hr with
  | none _ => exact h
  | one _ _ => exact h.setState (by decide)

theorem sleep {f : PCore cfg → PCore cfg} {frame : TrapFrame} {call : Kont cfg} (h : NoReader s)
    (hf : (f (s.procs p)).chan = .uart0 → (f (s.procs p)).cond.type ≠ .chan) :
    NoReader (s.sleep p f frame call) := by
  intro q hq
  by_cases hqp : q = p
  · subst hqp
    obtain ⟨-, hchan, hcond⟩ := hq
    exact hf (by simpa using hchan) (by simpa using hcond)
  · rw [Core.sleep_procs_of_ne hqp] at hq
    exact h q hq

theorem after {how : How} (h : NoReader t) : NoReader (t.after how) := by
  cases how <;> exact h.of_procs fun _ => id

theorem forks {how : How} (h : NoReader s) (hf : Forks k p q s how t) : NoReader t := by
  have hpid : NoReader (s.newPid q) := (h.update (p := q)
    (f := fun x => { x with pid := s.pidCounter % 2 ^ 32, uid := s.pidCounter, forker := none })
    (h q)).of_procs fun _ => id
  have hfresh : ∀ frame, NoReader ((s.newPid q).fresh q frame) := by
    intro frame r hr
    by_cases hrq : r = q
    · subst hrq
      exact PCore.not_reads_of_awake (by simp [Core.fresh]) hr
    · exact hpid r (by simpa [Core.fresh, hrq] using hr)
  have hadopted : ∀ frame, NoReader (((s.newPid q).fresh q frame).counted.adopted p q) := fun frame =>
    NoReader.update (s := ((s.newPid q).fresh q frame).counted) (hfresh frame) (hfresh frame q)
  cases hf with
  | pid _ => exact hpid
  | full _ => exact hfresh _
  | fresh => exact hfresh _
  | adopted => exact hadopted _
  | @created frame frame' =>
    have hframe := (hadopted frame).update (p := q) (f := fun x => { x with trap := frame' }) (hadopted frame q)
    exact hframe.of_procs fun _ => id

end NoReader

/-! ## Steps -/

/-- The process still has the console as its channel, which can be read. -/
def StaleReader (p : Slot cfg) (k : Kernel cfg) : Prop :=
  canReadFrom k.uart0 = true ∧ (k.procs p).chan = .uart0 ∧ (k.procs p).cond.type = .chan

/-- The process has children that have exited; their pids are not negative, so
    that `proc_wait` returns. -/
def WaitReturns (p : Slot cfg) (k : Kernel cfg) : Prop :=
  (∃ q, (k.procs q).parent = some p ∧ (k.procs q).state = .zombie) ∧
    ∀ q, (k.procs q).parent = some p → (k.procs q).state = .zombie → 0 ≤ int32 (k.procs q).pid

/-- A call that does not put a process to sleep that still has the console as its
    channel: `sleep`, or a `wait` for a child that does not return at once. -/
def SleepsElsewhere (p : Slot cfg) (k : Kernel cfg) : Call → Prop
  | .sleep _ => ¬StaleReader p k
  | .wait cond => va2pa k (k.procs p).upagetable cond = 0 → ¬WaitReturns p k → ¬StaleReader p k
  | _ => True

/-- The characters fill the ring, and none of them makes `uart_enqueue_chars` mark
    the console. -/
def Uart.fillsUnmarked (u : Uart) (received : List UInt8) : Bool :=
  (received.foldl Uart.receive u).rxBuffFull && !u.marks received

/-- A step after which nobody sleeps on a console that can be read. -/
def Announced (m : Machine cfg) : Event cfg → Prop
  | .plic received => (∃ q, Sleeps q .uart0 m.k.core) →
      m.k.uart0.fillsUnmarked received = false ∧ m.k.numProcs ≠ 0
  | e => OnCall SleepsElsewhere m e

theorem NoReader.call {c : Call} {how : How} (h : NoReader k.core) (hk : Calm p k)
    (hpar : (k.core.procs p).parent ≠ some p) (he : CallEffect p k c how k'.core)
    (hend : Ended (runCall p c k) how k') (hc : SleepsElsewhere p k c)
    (hcan : canReadFrom k.uart0 = true) (hcan' : canReadFrom k'.uart0 = true) : NoReader k'.core := by
  have haway : how = .away → runCall p c k = .error .switch k' := by
    rintro rfl
    cases hend with
    | away hr => exact hr
  generalize ht : k'.core = t at he
  cases he with
  | quiet _ hw => exact h.wakes hw
  | frame _ => exact h.update (h p)
  | @yield _ t ch _ call htr hw hch =>
    refine (h.wakes hw).sleep fun hchan => ?_
    have hchan : ch = .uart0 := hchan
    have hctx : (k'.core.procs p).ctx.yieldChan = some .uart0 := by
      rw [ht, ← hchan, ← hch]
      simp
    -- A read only yields when there is nothing to read; here there is.
    have hunread : canReadFrom k'.uart0 = false := by
      cases c with
      | read => exact unread_procRead k hk k' (haway rfl) hctx
      | write => exact unread_procWrite k hk k' (haway rfl) hctx
      | _ => cases htr
    rw [hunread] at hcan'
    cases hcan'
  | sleep => exact h.sleep fun hchan hcond => hc ⟨hcan, hchan, hcond⟩
  | waited hr _ => exact (h.reaps hr).of_procs fun _ => id
  | @wait cond t pid frame hr hpid =>
    have hctx : (k'.core.procs p).ctx = .waitChild := by
      rw [ht]
      simp
    -- It sleeps, so there was no child to return.
    have hblocks : ¬WaitReturns p k := by
      rintro ⟨⟨q, hq, hz⟩, hpids⟩
      cases hr with
      | none hno => exact hno q hq hz
      | one hr hz => exact absurd (hpids _ hr hz) (not_le.2 hpid)
    have hself : t.procs p = k.core.procs p := hr.procs_self hpar
    refine (h.reaps hr).sleep fun hchan hcond => ?_
    rw [id, hself] at hchan hcond
    exact hc (waitChild_cond (haway rfl) hctx) hblocks ⟨hcan, hchan, hcond⟩
  | waitCond => exact h.sleep fun _ => by simp
  | fork _ _ hf => exact (h.update (h p)).forks hf
  | orphan _ => exact h.setState (by decide)
  | exiting _ hw => exact ((h.setState (by decide)).setState (by decide)).wakes hw
  | exited _ hw =>
    have hwoken := ((h.setState (by decide)).setState (by decide)).wakes hw
    exact (hwoken.update (p := p) (f := fun x => { x with ctx := .exited }) (hwoken p)).of_procs fun _ => id
  | detached _ _ => exact h.update (h p)
  | detachedWake _ _ =>
    exact (h.update (f := fun x => { x with parent := none }) (h p)).setState (by decide)
  | @attached pid fd q f hq =>
    refine h.update fun hreads => ?_
    have hchan : (k.files f).fsFile.chan = (.uart0 : Chan cfg) := hreads.2.1
    cases hf : (k.files f).fsFile <;> simp [hf, FsPtr.chan] at hchan

theorem NoReader.resume {how : How} (h : NoReader k.core) (hk : Calm p k)
    (hpar : (k.core.procs p).parent ≠ some p) (he : ResumeEffect p k.core how k'.core)
    (hend : Ended (HobbyOs.resume p k) how k') (hcan : canReadFrom k'.uart0 = true) : NoReader k'.core := by
  generalize ht : k'.core = t at he
  cases he with
  | same _ => exact h
  | waited _ _ hr => exact (h.reaps hr).of_procs fun _ => id
  | reaped _ _ hr hw => exact (h.reaps hr).wakes hw
  | @yield t u _ ch ch' _ call _ hr hw hcall =>
    refine ((h.reaps hr).wakes hw).sleep fun hchan => ?_
    have hchan : ch' = .uart0 := hchan
    have hctx : (k'.core.procs p).ctx.yieldChan = some .uart0 := by
      rw [ht, ← hchan, ← hcall]
      simp
    cases hend with
    | away hr =>
      rw [unread_resume hk hpar hr hctx] at hcan
      cases hcan

theorem NoReader.aside (h : NoReader m.k.core) (ha : Aside m t) : NoReader t := by
  cases ha with
  | same => exact h
  | time | overlay => exact h.of_procs fun _ => id
  | @preempt p hp =>
    have hready : NoReader (m.k.core.setState p .ready .sched) := h.setState (by decide)
    exact (hready.update (hready p)).after
  | @run p t _ _ hw =>
    have hawake : NoReader (m.k.core.awaken p) := by
      rw [Core.awaken]
      split
      · exact h.setState (by decide)
      · exact h
    have hrun : NoReader ((m.k.core.awaken p).setState p .running .scheduler) := hawake.setState (by decide)
    refine NoReader.wakes (s := (m.k.core.awaken p).run p) ?_ hw
    exact (hrun.update (p := p) (f := fun x => { x with nscheds := (x.nscheds + 1) % 2 ^ 64 })
      (hrun p)).of_procs
      fun _ => id

/-- Nobody sleeps on a console that can be read. -/
def Attended (k : Kernel cfg) : Prop := canReadFrom k.uart0 = true → NoReader k.core

/-- A newline is counted only with a mark. -/
theorem Uart.newlines_receives {u : Uart} {received : List UInt8} (h : u.marks received = false) :
    (received.foldl Uart.receive u).rxNumNewlines = u.rxNumNewlines := by
  induction received generalizing u with
  | nil => rfl
  | cons ch received ih =>
    rw [Uart.marks, Bool.or_eq_false_iff] at h
    rw [List.foldl_cons, ih h.2, Uart.receive]
    split
    · split <;> rfl
    · rename_i hdel
      split
      · rfl
      · rename_i hfull
        have hcr : ch ≠ asciiCr := by
          rintro rfl
          simp [Uart.marksFor, hdel] at h
        exact if_neg hcr

/-- Received characters that do not fill the ring without a mark. -/
theorem Attended.receives {received : List UInt8} (h : Attended m.k) (hb : Base m)
    (hmode : m.mode = .user ∨ m.mode = .idle) (hC : Announced m (.plic received))
    (hr : uartEnqueueChars received (trap m) = .ok () k') : Attended k' := by
  obtain ⟨ht, hk⟩ := hb.interruptible hmode
  obtain ⟨k₁, h₁, hm, hu, hall⟩ := uartEnqueueChars_apply ht hk received
  cases hr.symm.trans h₁
  have hu : k'.uart0 = received.foldl Uart.receive m.k.uart0 := hu
  intro hcan q hq
  have hsleeps : Sleeps q .uart0 m.k.core := by
    have hsame : k'.core.procs q = m.k.core.procs q := hm.sleeping hq.1
    rw [hsame] at hq
    exact hq.sleeps
  obtain ⟨hfill, hn⟩ := hC ⟨q, hsleeps⟩
  cases hmarks : m.k.uart0.marks received with
  | true =>
    have hready := hall hmarks hn q hsleeps
    exact absurd (hq.1.symm.trans hready) (by decide)
  | false =>
    -- The console could not be read before, and nothing has changed that.
    have hbefore : canReadFrom m.k.uart0 ≠ true := fun hc => h hc q hsleeps.reads
    rw [canReadFrom, Ne, Bool.or_eq_true, decide_eq_true_iff, not_or] at hbefore
    rw [Uart.fillsUnmarked, hmarks, Bool.not_false, Bool.and_true, ← hu] at hfill
    rw [canReadFrom, hfill, Bool.or_false, decide_eq_true_iff, hu, Uart.newlines_receives hmarks] at hcan
    exact hbefore.1 hcan

/-- Nothing but received characters makes the console readable. -/
theorem readable_of_keeps {c : KM cfg α} {how : How} {k₁ : Kernel cfg}
    (hc : KeepsUart (fun u => canReadFrom u = true → canReadFrom k.uart0 = true) c)
    (hend : Ended (c k) how k₁)
    (hsame : Part.uart.Same k₁ k') (hcan : canReadFrom k'.uart0 = true) :
    canReadFrom k.uart0 = true ∧ canReadFrom k₁.uart0 = true := by
  have hsame : k'.uart0 = k₁.uart0 := hsame
  rw [hsame] at hcan
  have hkeeps := hc k id
  cases hend with
  | back hr | away hr =>
    rw [hr] at hkeeps
    exact ⟨hkeeps hcan, hcan⟩

theorem Attended.step {e : Event cfg} (hb : Base m) (h : Attended m.k) (hC : Announced m e)
    (hs : KernelStep m e k') : Attended k' := by
  have hread : ∀ (u₀ u : Uart) (size : ℕ), (canReadFrom u = true → canReadFrom u₀ = true) →
      canReadFrom u = true →
      canReadFrom (u.readline size).2 = true → canReadFrom u₀ = true := fun _ _ _ h hcan _ => h hcan
  cases hs with
  | aside hsame ha =>
    intro hcan
    rw [show k'.uart0 = m.k.uart0 from hsame .uart] at hcan
    exact (h hcan).aside ha
  | plic hmode hr _ _ => exact h.receives hb hmode hC hr
  | @resume p how k₁ _ hp hmode hend he hsame hcore _ =>
    intro hcan
    have hat := hb.at_
    rw [hmode] at hat
    obtain ⟨-, hfree, -, -⟩ := hat
    obtain ⟨hcan₀, hcan₁⟩ := readable_of_keeps (keeps_resume (hread _)) hend (hsame .uart) hcan
    rw [hcore]
    exact ((h hcan₀).resume ⟨hfree, by rw [hp.running]; decide⟩ (hb.lineal p) he hend hcan₁).after
  | @call p c how k₁ _ hp hcalm hc hend he hsame hcore =>
    intro hcan
    obtain ⟨hcan₀, hcan₁⟩ := readable_of_keeps (k := (trap m).entry p) (keeps_runCall (hread _) c) hend
      (hsame .uart) hcan
    rw [hcore]
    exact (NoReader.call (k := (trap m).entry p) (h hcan₀) hcalm (hb.lineal p) he hend
      (hC p hp.cpu c hc) hcan₀ hcan₁).after

/-- In a run whose steps do not fill the ring without a mark, nor put a process to
    sleep in another call that still has the console as its channel: after
    characters were received, nobody sleeps on the console if it can be read. -/
theorem no_reader_sleeps {received : List UInt8} (h : Reach (machine cfg) Announced m)
    (hC : Announced m (.plic received)) (hs : step (.plic received) m = some m')
    (hcan : canReadFrom m'.k.uart0 = true) : ∀ q, ¬Sleeps q .uart0 m'.k.core := by
  have hb := base_of_reach h
  obtain ⟨hmode, rfl⟩ := plic_eq hs
  have hrunning : ∀ why, m.mode ≠ .halted why := by
    rcases hmode with hmode | hmode <;> simp [hmode]
  have hattended : Attended m.k := by
    refine kernel_of_reach_running (I := Attended) ?_ (fun hb hI hC hs => hI.step hb hC hs) h hrunning
    intro mem k hk hcan
    have huart := boot_uart cfg mem
    rw [boot, hk] at huart
    rw [show k.uart0 = _ from huart] at hcan
    cases hcan
  obtain ⟨ht, hk⟩ := hb.interruptible hmode
  obtain ⟨k₁, h₁, -⟩ := uartEnqueueChars_apply ht hk received
  rw [plicStep, h₁] at hcan ⊢
  exact fun q hq => hattended.receives hb hmode hC h₁ hcan q hq.reads

/-! ## Two runs -/

instance (p : Slot cfg) (c : Chan cfg) (s : Core cfg) : Decidable (Sleeps p c s) :=
  decidable_of_iff ((s.procs p).state = .sleeping ∧ (s.procs p).chan = c ∧ (s.procs p).cond.type = .chan)
    ⟨fun h => ⟨h.1, h.2.1, h.2.2⟩, fun h => ⟨h.state, h.chan, h.cond⟩⟩

instance (p : Slot cfg) (k : Kernel cfg) : Decidable (StaleReader p k) :=
  inferInstanceAs (Decidable (_ ∧ _ ∧ _))

instance (p : Slot cfg) (k : Kernel cfg) : Decidable (WaitReturns p k) :=
  inferInstanceAs (Decidable ((∃ _, _) ∧ ∀ _, _))

instance (p : Slot cfg) (k : Kernel cfg) : DecidablePred (SleepsElsewhere p k)
  | .sleep _ => inferInstanceAs (Decidable (¬_))
  | .wait _ => inferInstanceAs (Decidable (_ → ¬_ → ¬_))
  | .exit | .fork | .read .. | .write .. | .open _ | .close _ | .execv .. | .getpid | .dup _ | .pipe _
  | .sysinfo _ | .plist .. | .pinfo .. | .pgalloc | .pgfree _ | .gpio .. | .detach | .isopen _
  | .lsdir .. | .pipeattch .. => .isTrue trivial

instance (m : Machine cfg) : (e : Event cfg) → Decidable (Announced m e)
  | .plic _ => inferInstanceAs (Decidable ((∃ _, _) → _))
  | .ecall => inferInstanceAs (Decidable (OnCall SleepsElsewhere m .ecall))
  | .exec .. | .exception | .tick | .time _ | .overlay _ | .kernel => .isTrue trivial

/-- The first process reads from the console, and the scheduler finds nobody to run. -/
def blockedReader : List (Event .qemuE) :=
  [Event.kernel, .kernel] ++ calls 3 0 0x80003d00 10 [] ++ List.replicate 6 Event.kernel

/-- As many letters arrive as there is room for. -/
theorem full_ring_reader_sleeps :
    ¬∀ (m m' : Machine .qemuE) (received : List UInt8), Reach (machine .qemuE) free m →
      step (.plic received) m = some m' → canReadFrom m'.k.uart0 = true →
      ∀ q, ¬Sleeps q .uart0 m'.k.core := by
  obtain ⟨m, hm, hmode, hcan, hsleeps⟩ : ∃ m ∈ runFrom .qemuE blockedReader, m.mode = .idle ∧
      canReadFrom (plicStep m (.replicate 64 97)).k.uart0 = true ∧
      Sleeps ⟨0, by decide⟩ .uart0 (plicStep m (.replicate 64 97)).k.core := by
    decide +kernel
  intro hall
  refine hall m _ (.replicate 64 97) (reach_of_runFrom hm) ?_ hcan _ hsleeps
  simp [step, hmode]

/-- A letter more arrives. -/
theorem overfull_ring_reader_woken : ∃ m m' : Machine .qemuE, Reach (machine .qemuE) Announced m ∧
    step (.plic (.replicate 65 97)) m = some m' ∧ canReadFrom m'.k.uart0 = true ∧
    ∀ q, ¬Sleeps q .uart0 m'.k.core := by
  obtain ⟨m, hm, hmode, hC, hcan⟩ : ∃ m ∈ run Announced (machine .qemuE) blockedReader
      (boot .qemuE fun _ => 0),
      m.mode = .idle ∧ Announced m (.plic (.replicate 65 97)) ∧
      canReadFrom (plicStep m (.replicate 65 97)).k.uart0 = true := by
    decide +kernel
  have hr : Reach (machine .qemuE) Announced m := Reach.of_run _ ⟨_, rfl⟩ hm
  have hs : step (.plic (.replicate 65 97)) m = some (plicStep m (.replicate 65 97)) := by
    simp [step, hmode]
  exact ⟨m, _, hr, hs, hcan, no_reader_sleeps hr hC hs hcan⟩

end HobbyOs
