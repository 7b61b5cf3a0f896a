import HobbyOs.KernelStep
import HobbyOs.Mark
import HobbyOs.UartRing

/-!
# The console as a queue

What the code does to the console: `uart_enqueue_chars` receives characters one
after the other (`uartEnqueueChars_apply`), and `uart_readline` takes a line
(`uartReadline_ok`). Nothing else changes it.

* `uart_of_reach`: what characters that are received and lines that are read
  keep of the console holds in every state reached;
* `console_queue`: in every state reached, the console is a faithful queue;
* `backspace_never_frees`: a full console stays as it is, whatever is received;
* `newlines_counted`: the newlines in the queue are counted, unless a line feed
  is received, which is stored as a newline but not counted.
-/

namespace HobbyOs

open Outcome Transition

variable {cfg : Config} {α β : Type} {p : Slot cfg} {k k' : Kernel cfg} {m m' : Machine cfg}

/-! ## The code -/

/-- The character `ch` makes `uart_enqueue_chars` mark the console for wake-up. -/
def Uart.marksFor (u : Uart) (ch : UInt8) : Bool := ch ≠ asciiDel && (u.rxBuffFull || ch = asciiCr)

/-- One of the characters makes `uart_enqueue_chars` mark the console. -/
def Uart.marks (u : Uart) : List UInt8 → Bool
  | [] => false
  | ch :: chs => u.marksFor ch || (u.receive ch).marks chs

/-- A mark leaves the console alone. -/
theorem procMarkForWakeup_uart {c : Chan cfg} (h : procMarkForWakeup c k = .ok () k') : k'.uart0 = k.uart0 :=
  Frame.same (x := .uart) frame_procMarkForWakeup h

/-- One turn of the loop of `uart_enqueue_chars`. -/
theorem uartEnqueueLoop_cons (ht : k.held .procTable = false) (hk : SleepersFree k) (ch : UInt8)
    (chs : List UInt8) (wpos : ℕ) :
    ∃ wpos₁ k₁, uartEnqueueLoop (ch :: chs) wpos k = uartEnqueueLoop chs wpos₁ k₁ ∧ Marks k k₁ ∧
      { k₁.uart0 with rxWpos := wpos₁ } = Uart.receive { k.uart0 with rxWpos := wpos } ch ∧
      (k.uart0.marksFor ch = true → WakesAll .uart0 k k₁) := by
  rw [uartEnqueueLoop, get_bind_apply, Uart.receive]
  dsimp only
  -- The source reads `rx_wpos` into a local variable, and stores it only after the
  -- loop.
  by_cases hdel : ch = asciiDel
  · have hnot : k.uart0.marksFor ch = true → False := by simp [Uart.marksFor, hdel]
    rw [if_pos hdel, if_pos hdel, show decrementWpos { k.uart0 with rxWpos := wpos } wpos =
      decrementWpos k.uart0 wpos from rfl]
    by_cases hmoved : decrementWpos k.uart0 wpos ≠ wpos
    · rw [if_pos hmoved, if_pos hmoved]
      exact ⟨_, _, rfl, ⟨.refl, rfl, rfl⟩, rfl, fun h => (hnot h).elim⟩
    · rw [if_neg hmoved, if_neg hmoved, not_not.1 hmoved]
      exact ⟨_, _, rfl, .refl, rfl, fun h => (hnot h).elim⟩
  rw [if_neg hdel, if_neg hdel]
  cases hfull : k.uart0.rxBuffFull with
  | true =>
    rw [if_pos rfl, if_pos rfl]
    obtain ⟨k₁, h₁, hm, hall⟩ := procMarkForWakeup_marks (c := .uart0) ht hk (by simp)
    rw [bind_ok h₁]
    refine ⟨wpos, k₁, rfl, hm, ?_, fun _ => hall⟩
    rw [procMarkForWakeup_uart h₁, hfull]
  | false =>
    rw [if_neg Bool.false_ne_true, if_neg Bool.false_ne_true]
    by_cases hcr : ch = asciiCr
    · rw [if_pos hcr, if_pos hcr, if_pos hcr, modify_bind_apply]
      obtain ⟨k₁, h₁, hm, hall⟩ := procMarkForWakeup_marks (c := .uart0)
        (k := { k with uart0 := { k.uart0 with rxNumNewlines := k.uart0.rxNumNewlines + 1 } }) ht hk (by simp)
      rw [bind_ok h₁, modify_bind_apply]
      refine ⟨_, _, rfl, ⟨hm.wakes, hm.held, hm.data⟩, ?_, fun _ => hall⟩
      dsimp only
      rw [procMarkForWakeup_uart h₁]
      dsimp only
      rw [hfull, Bool.false_or]
      rfl
    · rw [if_neg hcr, if_neg hcr, if_neg hcr]
      refine ⟨_, _, rfl, ⟨.refl, rfl, rfl⟩, ?_, fun h => ?_⟩
      · dsimp only
        rw [hfull, Bool.false_or]
        rfl
      · simp [Uart.marksFor, hdel, hcr, hfull] at h

namespace Marks

variable {c : Chan cfg} {k₁ : Kernel cfg}

theorem numProcs (h : Marks k k') : k'.numProcs = k.numProcs := h.wakes.rest.1

/-- Sleepers that were woken stay so. -/
theorem wakesAll_left (h : Marks k₁ k') (h' : WakesAll c k k₁) : WakesAll c k k' := by
  intro hn q hq
  have hready := h' hn q hq
  rw [h.wakes.procs_of_ne_sleeping (by rw [hready]; decide)]
  exact hready

/-- Sleepers that were woken before count too. -/
theorem wakesAll_right (h : Marks k k₁) (h' : WakesAll c k₁ k') (hw : Marks k₁ k') : WakesAll c k k' := by
  intro hn q hq
  by_cases hawake : (k₁.core.procs q).state = .sleeping
  · have hsame := h.sleeping hawake
    refine h' (by rwa [h.numProcs]) q ⟨hawake, ?_, ?_⟩
    · rw [hsame]
      exact hq.chan
    · rw [hsame]
      exact hq.cond
  · rw [hw.wakes.procs_of_ne_sleeping hawake]
    rcases h.wakes.procs_eq q with hsame | ⟨-, hw⟩
    · rw [hsame] at hawake
      exact absurd hq.state hawake
    · rw [hw]

end Marks

/-- The characters that are received reach the console one after the other. -/
theorem uartEnqueueLoop_apply (ht : k.held .procTable = false) (hk : SleepersFree k) (chs : List UInt8)
    (wpos : ℕ) :
    ∃ wpos' k', uartEnqueueLoop chs wpos k = .ok wpos' k' ∧ Marks k k' ∧
      { k'.uart0 with rxWpos := wpos' } = chs.foldl Uart.receive { k.uart0 with rxWpos := wpos } ∧
      (Uart.marks { k.uart0 with rxWpos := wpos } chs = true → WakesAll .uart0 k k') := by
  induction chs generalizing k wpos with
  | nil => exact ⟨wpos, k, rfl, .refl, rfl, nofun⟩
  | cons ch chs ih =>
    obtain ⟨wpos₁, k₁, h₁, hm₁, hu₁, hall₁⟩ := uartEnqueueLoop_cons ht hk ch chs wpos
    obtain ⟨wpos₂, k₂, h₂, hm₂, hu₂, hall₂⟩ :=
      ih (by rw [hm₁.held]; exact ht) (hm₁.sleepersFree hk) wpos₁
    rw [hu₁] at hu₂ hall₂
    refine ⟨wpos₂, k₂, h₁.trans h₂, hm₁.trans hm₂, hu₂, fun hmarks => ?_⟩
    rw [Uart.marks, Bool.or_eq_true] at hmarks
    rcases hmarks with hmarks | hmarks
    · exact hm₂.wakesAll_left (hall₁ hmarks)
    · exact hm₁.wakesAll_right (hall₂ hmarks) hm₂

/-- `uart_enqueue_chars`, from a kernel in which it can take its locks. -/
theorem uartEnqueueChars_apply (ht : k.held .procTable = false) (hk : SleepersFree k) (received : List UInt8) :
    ∃ k', uartEnqueueChars received k = .ok () k' ∧ Marks k k' ∧
      k'.uart0 = received.foldl Uart.receive k.uart0 ∧
      (k.uart0.marks received = true → WakesAll .uart0 k k') := by
  obtain ⟨wpos, k₁, h, hm, hu, hall⟩ := uartEnqueueLoop_apply ht hk received k.uart0.rxWpos
  refine ⟨{ k₁ with uart0 := { k₁.uart0 with rxWpos := wpos } }, ?_,
    ⟨hm.wakes, hm.held, hm.data⟩, hu, hall⟩
  rw [uartEnqueueChars, get_bind_apply, bind_ok h]
  rfl

/-- `uart_readline`, when it does not block. -/
theorem uartReadline_ok {f : FileRef} {buf bufsize : ℕ} {n : ℤ}
    (h : uartReadline p f buf bufsize k = .ok n k') :
    canReadFrom k.uart0 = true ∧ n = (k.uart0.readline bufsize).1.length ∧
      k'.uart0 = (k.uart0.readline bufsize).2 ∧
      k'.mem = storeBytes k.mem buf (k.uart0.readline bufsize).1 := by
  rw [uartReadline, get_bind_apply] at h
  cases hread : canReadFrom k.uart0 with
  | true =>
    rw [hread, if_pos rfl] at h
    cases h
    exact ⟨rfl, rfl, rfl, rfl⟩
  | false =>
    rw [hread, if_neg Bool.false_ne_true] at h
    obtain ⟨k₁, h₁, -⟩ := procYield_apply (α := ℤ) p .uart0 (.uartRead f buf bufsize) k
    have h : (procYield p .uart0 (.uartRead f buf bufsize) : KM cfg ℤ) k = .ok n k' := h
    rw [h₁] at h
    cases h

/-! ## Runs -/

/-- However it ends, `m` keeps `I` of the console. -/
def KeepsUart (I : Uart → Prop) (m : KM cfg α) : Prop := ∀ k, I k.uart0 → I (final (m k)).uart0

section

variable {I : Uart → Prop}

namespace KeepsUart

theorem of_frame {m : KM cfg α} {S : Set Part} (h : Frame S m) (hS : .uart ∉ S) : KeepsUart I m := by
  intro k hk
  rw [show (final (m k)).uart0 = k.uart0 from h k .uart hS]
  exact hk

/-- Of code that the console is not a part of. -/
theorem of_frames {m : KM cfg α} (h : Frame {.uart}ᶜ m) : KeepsUart I m := of_frame h (by simp)

theorem bind {m : KM cfg α} {f : α → KM cfg β} (hm : KeepsUart I m) (hf : ∀ a, KeepsUart I (f a)) :
    KeepsUart I (m >>= f) := by
  intro k hk
  have h := hm k hk
  cases hr : m k with
  | ok a k' =>
    rw [hr] at h
    rw [bind_ok hr]
    exact hf a k' h
  | error e k' =>
    rw [hr] at h
    rw [bind_error hr]
    exact h

end KeepsUart

variable (hread : ∀ u size, I u → canReadFrom u = true → I (u.readline size).2)
include hread

theorem keeps_uartReadline {f : FileRef} {buf bufsize : ℕ} : KeepsUart I (uartReadline p f buf bufsize) := by
  intro k hk
  rw [uartReadline, get_bind_apply]
  cases hcan : canReadFrom k.uart0 with
  | true => exact hread k.uart0 bufsize hk hcan
  | false => exact KeepsUart.of_frames frame_procYield k hk

theorem keeps_procRead {fd buf size : ℕ} : KeepsUart I (procRead p fd buf size) := by
  refine KeepsUart.bind (.of_frames frame_fileOf) fun f => ?_
  split
  · exact KeepsUart.of_frames (frame_setErrno.bind fun _ => Frame.pure)
  refine KeepsUart.bind (.of_frames Frame.get) fun k => ?_
  dsimp only
  split
  · exact KeepsUart.of_frames (frame_setErrno.bind fun _ => Frame.pure)
  refine KeepsUart.bind ?_ fun n => .of_frames (frame_readTail (by simp))
  refine KeepsUart.bind (.of_frames Frame.get) fun k => ?_
  split
  · exact .of_frames Frame.pure
  · exact keeps_uartReadline hread
  · exact .of_frames frame_bifsRead
  · exact .of_frames (frame_pipeRead (by simp))

theorem keeps_resume : KeepsUart I (resume p) := by
  refine KeepsUart.bind (.of_frames Frame.get) fun k => ?_
  generalize (k.procs p).ctx = call
  cases call with
  | uartRead =>
    refine KeepsUart.bind (.of_frames ?_) fun _ => (keeps_uartReadline hread).bind fun n => .of_frames ?_
    · exact frame_afterYield (by simp)
    · exact (frame_readTail (by simp)).bind fun _ => frame_syscallTail
  | _ => exact .of_frames (frame_resumeFrom (by simp) (by simp) (by simp) (by simp) nofun)

theorem keeps_runCall (c : Call) : KeepsUart I (runCall p c) := by
  cases c with
  | read => exact keeps_procRead hread
  | fork =>
    exact .of_frames (frame_procFork (by simp) (by simp) (by simp) (by simp) (by simp) (by simp) (by simp)
      (by simp) (by simp) (by simp))
  | _ => exact .of_frame (frame_runCall p _) (by simp [Call.parts])

theorem keeps_syscall : KeepsUart I (syscall p) := by
  refine KeepsUart.bind (.of_frames frame_setErrno) fun _ => ?_
  refine KeepsUart.bind (.of_frames (Frame.of_rest fun _ => rfl)) fun _ => ?_
  refine KeepsUart.bind (.of_frames Frame.get) fun k => ?_
  have hdispatch : KeepsUart I (do syscallTail p (← dispatch p) : KM cfg Unit) := by
    refine KeepsUart.bind ?_ fun _ => .of_frames frame_syscallTail
    refine KeepsUart.bind (.of_frames Frame.get) fun k => ?_
    split
    · exact keeps_runCall hread _
    · exact .of_frames (frame_setErrno.bind fun _ => Frame.pure)
  split
  · exact .of_frames Frame.throw
  · exact hdispatch

end

/-- The locks that an interrupt needs are free. -/
theorem Base.interruptible (hb : Base m) (hmode : m.mode = .user ∨ m.mode = .idle) :
    (trap m).held .procTable = false ∧ SleepersFree (trap m) := by
  have hat := hb.at_
  rcases hmode with hmode | hmode
  · rw [hmode] at hat
    obtain ⟨p, hp, hfree⟩ := hat
    refine ⟨hfree _ (by simp), fun q hq => hfree _ fun hqp => ?_⟩
    cases hqp
    rw [show (trap m).core = m.k.core from rfl, hp.running] at hq
    cases hq
  · rw [hmode] at hat
    obtain ⟨-, hfree, -⟩ := hat
    exact ⟨hfree _, fun q _ => hfree _⟩

theorem plic_eq {received : List UInt8} (h : step (.plic received) m = some m') :
    (m.mode = .user ∨ m.mode = .idle) ∧ m' = plicStep m received := by
  cases hmode : m.mode <;> simp_all [step]

/-- A step in which characters are received. -/
theorem plic_receives {received : List UInt8} (hb : Base m) (h : step (.plic received) m = some m') :
    m'.k.uart0 = received.foldl Uart.receive m.k.uart0 ∧ Wakes m.k.core m'.k.core ∧
      (m.k.uart0.marks received = true → WakesAll .uart0 m.k m'.k) := by
  obtain ⟨hmode, rfl⟩ := plic_eq h
  obtain ⟨ht, hk⟩ := hb.interruptible hmode
  obtain ⟨k', h', hm, hu, hall⟩ := uartEnqueueChars_apply ht hk received
  rw [plicStep, h']
  exact ⟨hu, hm.wakes, hall⟩

theorem outcome_uart (r : EStateM.Result (Stop cfg) (Kernel cfg) α) : (outcome r).k.uart0 = (final r).uart0 :=
  same_outcome (x := .uart) (.refl (final r))

section

variable {I : Uart → Prop} (hread : ∀ u size, I u → canReadFrom u = true → I (u.readline size).2)
include hread

/-- Only received characters and reads change the console. -/
theorem step_keepsUart {e : Event cfg} (hb : Base m) (h : step e m = some m') (hu : I m.k.uart0)
    (hin : ∀ received, e = .plic received → I (received.foldl Uart.receive m.k.uart0)) : I m'.k.uart0 := by
  have hsame : m'.k.uart0 = m.k.uart0 → I m'.k.uart0 := fun h => h ▸ hu
  have hrun : ∀ {α : Type} {c : KM cfg α} {k : Kernel cfg}, KeepsUart I c → k.uart0 = m.k.uart0 →
      m' = outcome (c k) → I m'.k.uart0 := by
    rintro α c k hc hk rfl
    rw [outcome_uart]
    exact hc k (hk ▸ hu)
  -- The console is changed by received characters, and by code of a process that
  -- reads.
  cases e with
  | plic received =>
    rw [(plic_receives hb h).1]
    exact hin received rfl
  | exec | exception | time | overlay =>
    cases hmode : m.mode with
    | _ =>
      simp only [step, hmode, Option.some.injEq, reduceCtorEq] at h
      all_goals exact hsame (h ▸ rfl)
  | ecall =>
    cases hmode : m.mode with
    | user =>
      simp only [step, hmode, Option.some.injEq] at h
      rw [ecallStep] at h
      cases hcpu : m.k.cpuProc with
      | none =>
        rw [hcpu] at h
        exact hsame (h ▸ rfl)
      | some p =>
        rw [hcpu] at h
        exact hrun (c := syscall p) (k := trap m) (keeps_syscall hread) rfl h.symm
    | idle | sched | switched | halted => simp [step, hmode] at h
  | tick =>
    cases hmode : m.mode with
    | user | idle =>
      simp only [step, hmode, Option.some.injEq] at h
      rw [tickStep] at h
      cases hcpu : m.k.cpuProc with
      | none =>
        rw [hcpu] at h
        exact hsame (h ▸ rfl)
      | some p =>
        rw [hcpu] at h
        exact hrun (c := preempt p) (k := trap m) (.of_frames frame_preempt) rfl h.symm
    | sched | switched | halted => simp [step, hmode] at h
  | kernel =>
    cases hmode : m.mode with
    | sched i iAfterWakeup newLoop =>
      simp only [step, hmode, Option.some.injEq] at h
      rw [schedStep] at h
      split at h
      · rename_i hi
        split at h
        · exact hsame (h ▸ rfl)
        · have hex : (final (examine ⟨i, hi⟩ m.k)).uart0 = m.k.uart0 :=
            frame_examine (S := ∅) (p := ⟨i, hi⟩) m.k .uart (by simp)
          refine hsame (.trans ?_ hex)
          cases hr : examine ⟨i, hi⟩ m.k with
          | ok b k =>
            rw [hr] at h
            cases b with
            | true | false => exact h ▸ rfl
          | error e k =>
            rw [hr] at h
            exact h ▸ rfl
      · exact hsame (h ▸ rfl)
    | switched p =>
      simp only [step, hmode, Option.some.injEq] at h
      exact hrun (c := resume p) (k := m.k) (keeps_resume hread) rfl h.symm
    | user | idle | halted => simp [step, hmode] at h

end

/-- The console of the kernel that has booted, or halted while it did. -/
theorem boot_uart (cfg : Config) (mem : ℕ → UInt8) :
    (boot cfg mem).k.uart0 = (initKernel cfg mem).uart0 := by
  have hassign : Frame {.uart}ᶜ (assignInitProgram : KM cfg Unit) := by
    rw [assignInitProgram]
    split
    · exact Frame.throw
    refine frame_allocProcess.bind fun o => ?_
    split
    · exact Frame.throw
    refine Frame.bind (frame_initProc (by simp) (by simp) (by simp) (by simp) (by simp) (by simp) (by simp)
      (by simp)) fun status => ?_
    dsimp only
    split
    · exact Frame.throw
    · exact frame_startInit _
  have hkinit : Frame {.uart}ᶜ (kinit : KM cfg Unit) := by
    refine (frame_makeKernelPageTable (by simp) (by simp)).bind fun _ => hassign.bind fun _ => ?_
    refine Frame.modify fun k x hx => ?_
    obtain rfl : x = .uart := by simpa using hx
    rfl
  have hsame := hkinit (initKernel cfg mem) .uart (by simp)
  rw [boot]
  cases hr : kinit (initKernel cfg mem) with
  | ok a k | error e k =>
    rw [hr] at hsame
    exact hsame

/-- What characters that are received and lines that are read keep of the console
    holds in every state reached. -/
theorem uart_of_reach {C : Machine cfg → Event cfg → Prop} {I : Uart → Prop}
    (hboot : I ⟨fun _ => 0, 0, 0, 0, false⟩)
    (hin : ∀ {m received}, I m.k.uart0 → C m (.plic received) → I (received.foldl Uart.receive m.k.uart0))
    (hread : ∀ u size, I u → canReadFrom u = true → I (u.readline size).2)
    (h : Reach (machine cfg) C m) : I m.k.uart0 := by
  have hinv : Base m ∧ I m.k.uart0 := by
    refine h.invariant (I := fun m => Base m ∧ I m.k.uart0) ?_ ?_
    · rintro _ ⟨mem, rfl⟩
      refine ⟨base_boot mem, ?_⟩
      rw [boot_uart]
      exact hboot
    · intro u u' e hu hC hs
      refine ⟨(step_stepped hu.1 hs).base, step_keepsUart hread hu.1 hs hu.2 ?_⟩
      rintro received rfl
      exact hin hu.2 hC
  exact hinv.2

/-- What holds of the console whatever it receives. -/
def Uart.Sound (u : Uart) : Prop := u.Valid ∧ 0 ≤ u.uncounted

theorem sound_of_reach {C : Machine cfg → Event cfg → Prop} (h : Reach (machine cfg) C m) :
    m.k.uart0.Sound := by
  refine uart_of_reach (I := Uart.Sound) ?_ ?_ ?_ h
  · exact ⟨⟨by decide, by decide, nofun⟩, by decide⟩
  · rintro m received ⟨hv, hu⟩ -
    exact ⟨(hv.receives received).1, hu.trans (Uart.uncounted_le_receives hv received)⟩
  · rintro u size ⟨hv, hu⟩ hcan
    have hq := Uart.queue_ne_nil hv hu hcan
    refine ⟨(hv.readline hq size).2.1, ?_⟩
    rw [Uart.uncounted_readline hv hq]
    exact hu

/-- In every state reached, whatever is received and read: the positions are in
    the ring, and the same when it is full; characters that are received are
    appended to the queue, or take back its last one that is not a newline; and a
    `uart_readline` that does not block takes a line from its front, which it
    stores without the newline. -/
theorem console_queue (h : Reach (machine cfg) free m) :
    m.k.uart0.Valid ∧
    (∀ received m', step (.plic received) m = some m' →
      m'.k.uart0.queue = received.foldl enqueue m.k.uart0.queue) ∧
    ∀ (k : Kernel cfg) p f buf bufsize n k', k.uart0 = m.k.uart0 →
    uartReadline p f buf bufsize k = .ok n k' →
      ∃ line taken, k.uart0.queue = taken ++ k'.uart0.queue ∧ (bufsize ≠ 0 → taken ≠ []) ∧
        (taken = line ∨ taken = line ++ [asciiNl]) ∧ asciiNl ∉ line ∧ n = line.length ∧
        k'.mem = storeBytes k.mem buf line := by
  obtain ⟨hv, hu⟩ := sound_of_reach h
  refine ⟨hv, fun received m' hs => ?_, fun k p f buf bufsize n k' hk hr => ?_⟩
  · rw [(plic_receives (base_of_reach h) hs).1]
    exact (hv.receives received).2
  · rw [← hk] at hv hu
    obtain ⟨hcan, hn, hu', hmem⟩ := uartReadline_ok hr
    have hq := Uart.queue_ne_nil hv hu hcan
    obtain ⟨hline, -, hqueue, -⟩ := hv.readline hq bufsize
    rw [hline] at hn hmem
    -- What the read took is a line, with its newline where the buffer had room for it.
    have hsplit := takeLine_append bufsize k.uart0.queue
    rw [← hqueue, ← hu'] at hsplit
    refine ⟨_, _, hsplit, fun hsize hnil => ?_, ?_, notMem_takeLine _ _, hn, hmem⟩
    · rw [List.append_eq_nil_iff] at hnil
      rcases takeLine_ne hsize hq with h | h
      · rw [hnil.1] at h
        exact absurd h (lt_irrefl 0)
      · rw [h] at hnil
        exact absurd hnil.2 (by simp)
    · split
      · exact .inr rfl
      · exact .inl (List.append_nil _)

/-- Two letters, a backspace and the return key, at the first prompt. -/
theorem typed_letter_queue : ∃ m m' : Machine .qemuE, Reach (machine .qemuE) free m ∧
    step (.plic [97, 98, asciiDel, asciiCr]) m = some m' ∧ m'.k.uart0.queue = [97, asciiNl] := by
  obtain ⟨m, hm, hmode, hq⟩ : ∃ m ∈ runFrom .qemuE [.kernel, .kernel], m.mode = .user ∧
      m.k.uart0.queue = [] := by
    decide +kernel
  have hs : step (.plic [97, 98, asciiDel, asciiCr]) m = some (plicStep m [97, 98, asciiDel, asciiCr]) := by
    simp [step, hmode]
  refine ⟨m, _, reach_of_runFrom hm, hs, ?_⟩
  rw [(console_queue (reach_of_runFrom hm)).2.1 _ _ hs, hq]
  decide

/-- A backspace has taken back the last character, and made room for another one. -/
def Uart.Frees (u u' : Uart) : Prop := u'.queue = u.queue.dropLast ∧ u'.rxBuffFull = false

/-- In a full console, a backspace never frees room: neither it nor what is received after it is stored. -/
theorem backspace_never_frees {before after : List UInt8} {m₁ m₂ : Machine cfg}
    (h : Reach (machine cfg) free m)
    (hbefore : step (.plic before) m = some m₁) (hfull : m₁.k.uart0.rxBuffFull = true)
    (hdel : step (.plic (before ++ asciiDel :: after)) m = some m₂) :
    ¬m₁.k.uart0.Frees m₂.k.uart0 ∧ m₂.k.uart0 = m₁.k.uart0 := by
  have hv := (sound_of_reach h).1
  have hu₁ := (plic_receives (base_of_reach h) hbefore).1
  have hu₂ := (plic_receives (base_of_reach h) hdel).1
  have hv₁ : m₁.k.uart0.Valid := by
    rw [hu₁]
    exact (hv.receives before).1
  have hsame : m₂.k.uart0 = m₁.k.uart0 := by
    rw [hu₂, List.foldl_append, ← hu₁]
    exact hv₁.receives_full hfull _
  refine ⟨fun hfrees => ?_, hsame⟩
  rw [Uart.Frees, hsame, hfull] at hfrees
  exact absurd hfrees.2 (by decide)

/-- Sixty-four letters and a backspace, at the first prompt. -/
theorem full_line_kept : ∃ m m' : Machine .qemuE, Reach (machine .qemuE) free m ∧
    step (.plic (.replicate 64 97 ++ [asciiDel])) m = some m' ∧ m'.k.uart0.queue = .replicate 64 97 := by
  obtain ⟨m, hm, hmode, hq, hfull⟩ : ∃ m ∈ runFrom .qemuE [.kernel, .kernel], m.mode = .user ∧
      (plicStep m (.replicate 64 97)).k.uart0.queue = .replicate 64 97 ∧
      (plicStep m (.replicate 64 97)).k.uart0.rxBuffFull = true := by
    decide +kernel
  have hs (received : List UInt8) : step (.plic received) m = some (plicStep m received) := by
    simp [step, hmode]
  refine ⟨m, _, reach_of_runFrom hm, hs _, ?_⟩
  rw [(backspace_never_frees (reach_of_runFrom hm) (hs _) hfull (hs _)).2, hq]

/-- The backspace on its own, in the full console. -/
theorem full_line_not_freed :
    ¬∀ m m' : Machine .qemuE, Reach (machine .qemuE) free m → m.k.uart0.rxBuffFull = true →
      m.k.uart0.queue.getLast? ≠ some asciiNl → step (.plic [asciiDel]) m = some m' →
      m.k.uart0.Frees m'.k.uart0 := by
  obtain ⟨m, hm, hmode, hfull, hlast, hkept⟩ :
      ∃ m ∈ runFrom .qemuE [.kernel, .kernel, .plic (.replicate 64 97)],
      m.mode = .user ∧ m.k.uart0.rxBuffFull = true ∧ m.k.uart0.queue.getLast? ≠ some asciiNl ∧
      (plicStep m [asciiDel]).k.uart0.rxBuffFull = true := by
    decide +kernel
  intro hall
  have hfrees := hall m _ (reach_of_runFrom hm) hfull hlast (by simp [step, hmode]; rfl)
  rw [Uart.Frees, hkept] at hfrees
  exact absurd hfrees.2 (by decide)

/-- No line feed is received that is stored. -/
def NoLineFeed (m : Machine cfg) : Event cfg → Prop
  | .plic received => m.k.uart0.storesLf received = false
  | _ => True

/-- The newlines that wait to be read are counted, and a line that waits can be
    read. -/
def Uart.Counted (u : Uart) : Prop :=
  u.rxNumNewlines = u.queue.count asciiNl ∧ 0 ≤ u.rxNumNewlines ∧
    (asciiNl ∈ u.queue → canReadFrom u = true)

theorem Uart.Counted.of_uncounted {u : Uart} (h : u.uncounted = 0) : u.Counted := by
  have heq : u.rxNumNewlines = u.queue.count asciiNl := by
    rw [Uart.uncounted] at h
    omega
  refine ⟨heq, by rw [heq]; exact Int.natCast_nonneg _, fun hnl => ?_⟩
  rw [canReadFrom, Bool.or_eq_true, decide_eq_true_iff, heq]
  exact .inl (Int.natCast_pos.2 (List.count_pos_iff.2 hnl))

/-- As long as no line feed is stored, the newlines are counted. -/
theorem newlines_counted (h : Reach (machine cfg) NoLineFeed m) : m.k.uart0.Counted := by
  have hinv : m.k.uart0.Valid ∧ m.k.uart0.uncounted = 0 := by
    refine uart_of_reach (I := fun u => u.Valid ∧ u.uncounted = 0) ?_ ?_ ?_ h
    · exact ⟨⟨by decide, by decide, nofun⟩, by decide⟩
    · rintro m received ⟨hv, hu⟩ hC
      exact ⟨(hv.receives received).1, (Uart.uncounted_receives hv hC).trans hu⟩
    · rintro u size ⟨hv, hu⟩ hcan
      have hq := Uart.queue_ne_nil hv hu.ge hcan
      exact ⟨(hv.readline hq size).2.1, (Uart.uncounted_readline hv hq size).trans hu⟩
  exact .of_uncounted hinv.2

instance (m : Machine cfg) : (e : Event cfg) → Decidable (NoLineFeed m e)
  | .plic _ => inferInstanceAs (Decidable (_ = false))
  | .exec .. | .exception | .ecall | .tick | .time _ | .overlay _ | .kernel => .isTrue trivial

/-- A line feed is received at the first prompt. -/
theorem line_feed_uncounted : ¬∀ m :
    Machine .qemuE, Reach (machine .qemuE) free m → m.k.uart0.Counted := by
  obtain ⟨m, hm, hcount⟩ : ∃ m ∈ runFrom .qemuE [.kernel, .kernel, .plic [asciiNl]],
      m.k.uart0.rxNumNewlines ≠ m.k.uart0.queue.count asciiNl := by
    decide +kernel
  exact fun hall => hcount (hall m (reach_of_runFrom hm)).1

/-- Two lines are received. -/
theorem two_lines_counted : ∃ m : Machine .qemuE, Reach (machine .qemuE) NoLineFeed m ∧
    m.k.uart0.queue.count asciiNl = 2 ∧ m.k.uart0.Counted := by
  obtain ⟨m, hm, hcount⟩ :
      ∃ m ∈ run NoLineFeed (machine .qemuE) [.kernel, .kernel, .plic [97, asciiCr, asciiCr]]
      (boot .qemuE fun _ => 0), m.k.uart0.queue.count asciiNl = 2 := by
    decide +kernel
  have hr : Reach (machine .qemuE) NoLineFeed m := Reach.of_run _ ⟨_, rfl⟩ hm
  exact ⟨m, hr, hcount, newlines_counted hr⟩

end HobbyOs
