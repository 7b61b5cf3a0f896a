import HobbyOs.Step
import HobbyOs.PipeOps

/-!
# Processes on a pipe

The calls on one pipe, made by any processes in any order, as a transition
system. A process that runs may read or write; when it has to wait it sleeps,
and goes on when it is switched to after a wake-up, which may also come for
another reason. Ends of the pipe are closed, references to its files come and
go, the scheduler runs and interrupts processes, and user code does what it
likes to memory.

`PipeMove` is the inversion of a step, for a pipe that is in order (`PipeOrder`);
every step keeps it so (`PipeOrder.move`).

Only one pipe is looked at here, and only what happens on it: processes are not
created and do not exit, and a call goes on without `check_exited_children`. That
the accounts of a pipe are right in the machine, where all that happens, is
`machine_accounting`.
-/

namespace HobbyOs

open Outcome Transition

variable {cfg : Config} {α : Type} {p : Slot cfg} {i : Fin maxPipes} {f : FileRef} {k k' k₁ : Kernel cfg}

/-- What may happen around a pipe. -/
inductive PipeEvent (cfg : Config)
  /-- The process calls `pipe_read`. -/
  | read (p : Slot cfg) (f : FileRef) (buf size : ℕ)
  /-- The process calls `pipe_write`. -/
  | write (p : Slot cfg) (f : FileRef) (buf nbytes : ℕ)
  /-- `pipe_close_file`. -/
  | close (f : FileRef)
  /-- The process is switched to within a call, and goes on. -/
  | goOn (p : Slot cfg)
  /-- A sleeper wakes up for another reason. -/
  | wake (p : Slot cfg)
  /-- The scheduler runs a process that is not in a call. -/
  | run (p : Slot cfg)
  /-- The timer interrupts a process. -/
  | tick (p : Slot cfg)
  /-- User code changes the memory. -/
  | user (mem : ℕ → UInt8)
  /-- References to a file come and go. -/
  | refs (f : FileRef) (n : ℕ)

/-- The rest of a call of `p` on the pipe, from its `proc_yield` on. -/
def pipeCall (i : Fin maxPipes) (p : Slot cfg) : Kont cfg → Option (KM cfg ℤ)
  | .pipeRead f j buf size => if j = i then some (pipeReadLoopTop p f i buf size) else none
  | .pipeWrite f j buf nbytes nwritten =>
    if j = i then some (pipeWriteResume p f i buf nbytes nwritten) else none
  | _ => none

/-- The process is in a call on the pipe, asleep or woken. -/
def InCall (i : Fin maxPipes) (p : Slot cfg) (k : Kernel cfg) : Prop :=
  ((k.procs p).state = .sleeping ∨ (k.procs p).state = .ready) ∧
    (pipeCall i p (k.procs p).ctx).isSome

/-- The kernel after a call of `p`; the scheduler gives back its lock. -/
def settle (p : Slot cfg) : EStateM.Result (Stop cfg) (Kernel cfg) α → Kernel cfg
  | .ok _ k => k
  | .error .switch k => k.setHeld (.proc p) false
  | .error _ k => k

/-- The scheduler switches to `p`. -/
def Kernel.switchTo (k : Kernel cfg) (p : Slot cfg) : Kernel cfg :=
  (k.setState p .running .scheduler).setHeld (.proc p) true

/-- A step of the processes on the pipe `i`, where it is possible. -/
def pipeStep (i : Fin maxPipes) : PipeEvent cfg → Kernel cfg → Option (Kernel cfg)
  | .read p f buf size, k =>
    if (k.procs p).state = .running ∧ (k.files f).fsFile = .pipe i then
      some (settle p (pipeRead p f buf size k))
    else none
  | .write p f buf nbytes, k =>
    if (k.procs p).state = .running ∧ (k.files f).fsFile = .pipe i then
      some (settle p (pipeWrite p f buf nbytes k))
    else none
  | .close f, k =>
    if (k.files f).fsFile = .pipe i then some (final (pipeCloseFile f k)) else none
  | .goOn p, k =>
    if (k.procs p).state = .ready then
      (pipeCall i p (k.procs p).ctx).map fun m => settle p (m (k.switchTo p))
    else none
  | .wake p, k => if (k.procs p).state = .sleeping then some (k.setState p .ready .wakeup) else none
  | .run p, k =>
    if (k.procs p).state = .ready ∧ (pipeCall i p (k.procs p).ctx).isNone then some (k.switchTo p)
    else none
  | .tick p, k => if (k.procs p).state = .running then some (settle p (preempt p k)) else none
  | .user mem, k => some { k with mem := mem }
  | .refs f n, k => some (k.setFile f { k.files f with refcount := n })

/-- The pipe has just been opened: it is empty, and no process is in a call on
    it. -/
structure Opened (i : Fin maxPipes) (k : Kernel cfg) : Prop where
  ready : PipeReady i k
  rpos : (k.pipes i).rpos = 0
  wpos : (k.pipes i).wpos = 0
  bufFull : (k.pipes i).bufFull = false
  writeClosed : (k.pipes i).writeClosed = false
  idle : ∀ p, ¬InCall i p k

/-- The processes on a pipe, from when it is opened. -/
def pipeSystem (cfg : Config) (i : Fin maxPipes) : System (Kernel cfg) (PipeEvent cfg) where
  init := {k | Opened i k}
  step := pipeStep i

/-! ## Steps -/

/-- How much is to be read, if the event is a read or the rest of one. -/
def toRead (i : Fin maxPipes) (k : Kernel cfg) : PipeEvent cfg → Option ℕ
  | .read _ _ _ size => some size
  | .goOn p =>
    match (k.procs p).ctx with
    | .pipeRead _ j _ size => if j = i then some size else none
    | _ => none
  | _ => none

/-- How much is to be written, if the event is a write or the rest of one. -/
def toWrite (i : Fin maxPipes) (k : Kernel cfg) : PipeEvent cfg → Option ℕ
  | .write _ _ _ nbytes => some nbytes
  | .goOn p =>
    match (k.procs p).ctx with
    | .pipeWrite _ j _ nbytes nwritten => if j = i then some (nbytes - nwritten) else none
    | _ => none
  | _ => none

/-- No call on the pipe has written more than it should. -/
def Counts (i : Fin maxPipes) (s : Core cfg) : Prop :=
  ∀ p f buf nbytes nwritten, (s.procs p).state = .sleeping ∨ (s.procs p).state = .ready →
    (s.procs p).ctx = .pipeWrite f i buf nbytes nwritten → nwritten ≤ nbytes

/-- The pipe is in order, and so are the calls on it. -/
structure PipeOrder (i : Fin maxPipes) (k : Kernel cfg) : Prop where
  ready : PipeReady i k
  counts : Counts i k.core

/-- The process `p` runs: as it was, or since the scheduler has switched to it. -/
structure Begins (p : Slot cfg) (k k₁ : Kernel cfg) : Prop where
  data : k₁.data = k.data
  numProcs : k₁.numProcs = k.numProcs
  held : ∀ l ≠ .proc p, k₁.held l = k.held l
  awake : (k.core.procs p).state ≠ .sleeping
  own : k₁.core.procs p = { k.core.procs p with state := .running }
  procs : ∀ q ≠ p, k₁.core.procs q = k.core.procs q

/-- The event begins a call of `p` on the pipe, or goes on with one. -/
inductive Caller (i : Fin maxPipes) (k : Kernel cfg) (p : Slot cfg) : PipeEvent cfg → Prop
  | read {f : FileRef} {buf size : ℕ} : Caller i k p (.read p f buf size)
  | write {f : FileRef} {buf nbytes : ℕ} : Caller i k p (.write p f buf nbytes)
  | goOn : InCall i p k → Caller i k p (.goOn p)

/-- What a step does. -/
inductive PipeMove (i : Fin maxPipes) (k : Kernel cfg) (e : PipeEvent cfg) : Kernel cfg → Prop
  | read {p : Slot cfg} {f : FileRef} {buf size : ℕ} {k₁ : Kernel cfg}
      {r : EStateM.Result (Stop cfg) (Kernel cfg) ℤ} : Caller i k p e → toRead i k e = some size →
      Begins p k k₁ → ReadResult p f i buf size k₁ r → PipeMove i k e (settle p r)
  | write {p : Slot cfg} {f : FileRef} {buf nbytes nwritten : ℕ} {k₁ : Kernel cfg}
      {r : EStateM.Result (Stop cfg) (Kernel cfg) ℤ} : Caller i k p e →
      toWrite i k e = some (nbytes - nwritten) → nwritten ≤ nbytes → Begins p k k₁ →
      WriteResult p f i buf nbytes nwritten k₁ r →
      PipeMove i k e (settle p r)
  /-- A process goes on that is not in a call, or whose pipe is gone. -/
  | begins {p : Slot cfg} {k' : Kernel cfg} : Begins p k k' → PipeMove i k e k'
  | close {f : FileRef} {k' : Kernel cfg} : e = .close f → Closes i k k' → PipeMove i k e k'
  | wake {p : Slot cfg} : (k.core.procs p).state = .sleeping →
      PipeMove i k e (k.setState p .ready .wakeup)
  | tick {p : Slot cfg} {k' : Kernel cfg} : (k.core.procs p).state = .running →
      k'.core = (k.core.setState p .ready .sched).update p (fun x => { x with ctx := .timerTick }) →
      (∀ l ≠ .proc p, k'.held l = k.held l) → k'.data = k.data → PipeMove i k e k'
  /-- Nothing happens to the pipe and to processes. -/
  | aside {k' : Kernel cfg} : k'.core = k.core → k'.held = k.held → k'.pipes = k.pipes →
      k'.kmem = k.kmem → k'.io = k.io → PipeMove i k e k'

theorem Begins.refl (h : (k.core.procs p).state = .running) : Begins p k k where
  data := rfl
  numProcs := rfl
  held _ _ := rfl
  awake := by simp [h]
  own := by rw [← h]
  procs _ _ := rfl

theorem Begins.switchTo (h : (k.core.procs p).state = .ready) : Begins p k (k.switchTo p) where
  data := rfl
  numProcs := rfl
  held _ hl := Kernel.setHeld_held_of_ne hl
  awake := by simp [h]
  own := by
    show (k.setState p .running .scheduler).core.procs p = _
    rw [Kernel.setState_core, Core.setState_procs_self]
  procs q hq := by
    show (k.setState p .running .scheduler).core.procs q = _
    rw [Kernel.setState_core, Core.setState_procs_of_ne _ _ _ hq]

theorem Begins.ready (h : Begins p k k₁) (hk : PipeReady i k) : PipeReady i k₁ := by
  have hpipes : k₁.pipes = k.pipes := congrArg Prod.fst h.data
  refine ⟨(h.held _ (by simp)).trans hk.pipe, (h.held _ (by simp)).trans hk.procTable,
    (h.held _ (by simp)).trans hk.pagedMemory, fun q hq => ?_, hpipes ▸ hk.wf, hpipes ▸ hk.ok⟩
  by_cases hqp : q = p
  · subst hqp
    simp [h.own] at hq
  · rw [h.held _ (by simpa using hqp)]
    exact hk.sleepers q (h.procs q hqp ▸ hq)

/-- The inversion of a step. -/
theorem pipeStep_move {e : PipeEvent cfg} (hk : PipeOrder i k) (h : pipeStep i e k = some k') :
    PipeMove i k e k' := by
  -- A call that begins or goes on is told by the loop that it enters; the other events
  -- by what they change.
  cases e with
  | read p f buf size =>
    simp only [pipeStep, Option.ite_none_right_eq_some, Option.some.injEq] at h
    obtain ⟨⟨hrun, hf⟩, rfl⟩ := h
    have hcall : pipeRead p f buf size k = pipeReadLoopTop p f i buf size k := by
      rw [pipeRead, get_bind_apply, hf]
    rw [hcall]
    exact .read .read rfl (.refl hrun) (pipeReadLoopTop_result hk.ready p f buf size)
  | write p f buf nbytes =>
    simp only [pipeStep, Option.ite_none_right_eq_some, Option.some.injEq] at h
    obtain ⟨⟨hrun, hf⟩, rfl⟩ := h
    have hcall : pipeWrite p f buf nbytes k = pipeWriteLoopTop p f i buf nbytes 0 k := by
      rw [pipeWrite, get_bind_apply, hf]
    rw [hcall]
    exact .write .write rfl (Nat.zero_le _) (.refl hrun)
      (pipeWriteLoopTop_result hk.ready p f buf (Nat.zero_le _))
  | close f =>
    simp only [pipeStep, Option.ite_none_right_eq_some, Option.some.injEq] at h
    obtain ⟨hf, rfl⟩ := h
    obtain ⟨k₁, hclose, rfl | hc⟩ := pipeCloseFile_result hk.ready hf
    · rw [hclose]
      exact .aside rfl rfl rfl rfl rfl
    · rw [hclose]
      exact .close rfl hc
  | goOn p =>
    simp only [pipeStep, Option.ite_none_right_eq_some] at h
    obtain ⟨hready, h⟩ := h
    have hb := Begins.switchTo hready
    cases hctx : (k.procs p).ctx with
    | pipeRead f j buf size =>
      rw [hctx] at h
      simp only [pipeCall, Option.map_eq_some_iff, Option.ite_none_right_eq_some, Option.some.injEq] at h
      obtain ⟨_, ⟨rfl, rfl⟩, rfl⟩ := h
      refine .read (.goOn ⟨.inr hready, ?_⟩) ?_ hb (pipeReadLoopTop_result (hb.ready hk.ready) p f buf size)
      · simp [pipeCall, hctx]
      · simp [toRead, hctx]
    | pipeWrite f j buf nbytes nwritten =>
      rw [hctx] at h
      simp only [pipeCall, Option.map_eq_some_iff, Option.ite_none_right_eq_some, Option.some.injEq] at h
      obtain ⟨_, ⟨rfl, rfl⟩, rfl⟩ := h
      -- The count of a write that goes on is one with which it fell asleep.
      have hle := hk.counts p f buf nbytes nwritten (.inr hready) hctx
      rw [pipeWriteResume, get_bind_apply]
      split
      · exact .begins hb
      · refine .write (.goOn ⟨.inr hready, ?_⟩) ?_ hle hb
          (pipeWriteLoopTop_result (hb.ready hk.ready) p f buf hle)
        · simp [pipeCall, hctx]
        · simp [toWrite, hctx]
    | forkret | timerTick | exited | waitChild | waitCond | sleep | uartRead =>
      simp [hctx, pipeCall] at h
  | wake p =>
    simp only [pipeStep, Option.ite_none_right_eq_some, Option.some.injEq] at h
    obtain ⟨hs, rfl⟩ := h
    exact .wake hs
  | run p =>
    simp only [pipeStep, Option.ite_none_right_eq_some, Option.some.injEq] at h
    obtain ⟨⟨hs, -⟩, rfl⟩ := h
    exact .begins (.switchTo hs)
  | tick p =>
    simp only [pipeStep, Option.ite_none_right_eq_some, Option.some.injEq] at h
    obtain ⟨hs, rfl⟩ := h
    obtain ⟨k₁, h, hc, hh⟩ := preempt_apply p k
    have hd : k₁.data = k.data := by
      cases h
      rfl
    rw [h]
    refine .tick hs hc (fun l hl => ?_) hd
    exact (Kernel.setHeld_held_of_ne hl).trans (congrFun hh l)
  | user mem =>
    cases h
    exact .aside rfl rfl rfl rfl rfl
  | refs f n =>
    cases h
    exact .aside rfl rfl rfl rfl rfl

/-! ## Order -/

namespace Counts

variable {s t : Core cfg}

theorem wakes (h : Counts i s) (hw : Wakes s t) : Counts i t := by
  intro q f buf nbytes nwritten hq hctx
  rcases hw.procs_eq q with heq | ⟨hs, heq⟩
  · rw [heq] at hq hctx
    exact h q f buf nbytes nwritten hq hctx
  · rw [heq] at hctx
    exact h q f buf nbytes nwritten (.inl hs) hctx

theorem sleep {g : PCore cfg → PCore cfg} {frame : TrapFrame} {call : Kont cfg} (h : Counts i s)
    (hcall : ∀ f buf nbytes nwritten, call = .pipeWrite f i buf nbytes nwritten → nwritten ≤ nbytes) :
    Counts i (s.sleep p g frame call) := by
  intro q f buf nbytes nwritten hq hctx
  by_cases hqp : q = p
  · subst hqp
    exact hcall f buf nbytes nwritten (by simpa [Core.sleep] using hctx)
  · have heq : (s.sleep p g frame call).procs q = s.procs q := by simp [Core.sleep, hqp]
    rw [heq] at hq hctx
    exact h q f buf nbytes nwritten hq hctx

end Counts

/-- A process has fallen asleep; its lock is given back. -/
theorem SleepersFree.sleep {g : PCore cfg → PCore cfg} {frame : TrapFrame} {call : Kont cfg}
    (h : SleepersFree k) (hc : k'.core = k.core.sleep p g frame call) (hh : k'.held = k.held) :
    SleepersFree (k'.setHeld (.proc p) false) := by
  intro q hq
  by_cases hqp : q = p
  · subst hqp
    exact Function.update_self _ _ _
  · rw [Kernel.setHeld_held_of_ne (by simpa using hqp), hh]
    refine h q ?_
    have heq : k'.core.procs q = k.core.procs q := by simp [hc, Core.sleep, hqp]
    rw [← heq]
    exact hq

theorem Begins.order (h : Begins p k k₁) (hk : PipeOrder i k) : PipeOrder i k₁ := by
  refine ⟨h.ready hk.ready, fun q f buf nbytes nwritten hq hctx => ?_⟩
  by_cases hqp : q = p
  · subst hqp
    simp [h.own] at hq
  · rw [h.procs q hqp] at hq hctx
    exact hk.counts q f buf nbytes nwritten hq hctx

namespace PipeOrder

/-- The locks that are not those of processes are as they were. -/
theorem of_held (hk : PipeOrder i k) (hh : ∀ l, (∀ q, l ≠ .proc q) → k'.held l = k.held l)
    (hs : SleepersFree k') (hwf : (k'.pipes i).wf = (k.pipes i).wf) (hok : (k'.pipes i).Ok cfg)
    (hc : Counts i k'.core) : PipeOrder i k' where
  ready := {
    pipe := (hh _ (by simp)).trans hk.ready.pipe
    procTable := (hh _ (by simp)).trans hk.ready.procTable
    pagedMemory := (hh _ (by simp)).trans hk.ready.pagedMemory
    sleepers := hs
    wf := hwf ▸ hk.ready.wf
    ok := hok }
  counts := hc

theorem of_core (hk : PipeOrder i k) (hc : k'.core = k.core) (hh : k'.held = k.held)
    (hwf : (k'.pipes i).wf = (k.pipes i).wf) (hok : (k'.pipes i).Ok cfg) : PipeOrder i k' := by
  refine hk.of_held (fun l _ => congrFun hh l) (fun q hq => ?_) hwf hok (hc ▸ hk.counts)
  exact (congrFun hh _).trans (hk.ready.sleepers q (hc ▸ hq))

theorem of_wakes (hk : PipeOrder i k) (hw : Wakes k.core k'.core) (hh : k'.held = k.held)
    (hwf : (k'.pipes i).wf = (k.pipes i).wf) (hok : (k'.pipes i).Ok cfg) : PipeOrder i k' := by
  refine hk.of_held (fun l _ => congrFun hh l) (fun q hq => ?_) hwf hok (hk.counts.wakes hw)
  rcases hw.procs_eq q with h | ⟨-, h⟩
  · exact (congrFun hh _).trans (hk.ready.sleepers q (h ▸ hq))
  · simp [h] at hq

theorem marks (hk : PipeOrder i k) (h : Marks k k') : PipeOrder i k' := by
  have hpipes : k'.pipes = k.pipes := congrArg Prod.fst h.data
  exact hk.of_wakes h.wakes h.held (by rw [hpipes]) (hpipes ▸ hk.ready.ok)

theorem sleep {g : PCore cfg → PCore cfg} {frame : TrapFrame} {call : Kont cfg} (hk : PipeOrder i k)
    (hcall : ∀ f buf nbytes nwritten, call = .pipeWrite f i buf nbytes nwritten → nwritten ≤ nbytes)
    (hc : k'.core = k.core.sleep p g frame call) (hh : k'.held = k.held) (hd : k'.data = k.data) :
    PipeOrder i (k'.setHeld (.proc p) false) := by
  have hpipes : k'.pipes = k.pipes := congrArg Prod.fst hd
  refine hk.of_held (fun l hl => ?_) (hk.ready.sleepers.sleep hc hh) (congrArg Pipe.wf (congrFun hpipes i))
    (hpipes ▸ hk.ready.ok) ?_
  · exact (Kernel.setHeld_held_of_ne (hl p)).trans (congrFun hh l)
  · show Counts i k'.core
    rw [hc]
    exact hk.counts.sleep hcall

theorem takes {m : ℕ} (hk : PipeOrder i k) (h : Takes i m k k') : PipeOrder i k' :=
  hk.of_core h.core h.held (by rw [h.pipe]) (h.ok hk.ready.ok)

theorem puts {bytes : List UInt8} {n : ℕ} (hk : PipeOrder i k) (hf : (k.pipes i).bufFull = false)
    (hlen : bytes.length = min n ((k.pipes i).room cfg))
    (h : Puts i bytes (decide ((k.pipes i).room cfg ≤ n)) k k') : PipeOrder i k' := by
  refine hk.of_core h.core h.held (by rw [h.pipe]) (h.ok hk.ready.ok hf fun hfull => ?_)
  rw [hlen, min_eq_right (of_decide_eq_true hfull)]

theorem read {buf size : ℕ} {r : EStateM.Result (Stop cfg) (Kernel cfg) ℤ} (hk : PipeOrder i k)
    (h : ReadResult p f i buf size k r) : PipeOrder i (settle p r) := by
  cases h with
  | eof _ _ => exact hk
  | sleep _ _ hm _ hc hh hd => exact (hk.marks hm).sleep (by simp) hc hh hd
  | take _ ht => exact hk.takes ht

theorem write {buf nbytes nwritten : ℕ} {r : EStateM.Result (Stop cfg) (Kernel cfg) ℤ}
    (hk : PipeOrder i k) (hle : nwritten ≤ nbytes) (h : WriteResult p f i buf nbytes nwritten k r) :
    PipeOrder i (settle p r) := by
  cases h with
  | none _ _ => exact hk
  | wait _ hc hh hd =>
    refine hk.sleep ?_ hc hh hd
    rintro _ _ _ _ ⟨⟩
    exact hle
  | put hf hlen hp hm _ => exact (hk.puts hf hlen hp).marks hm
  | putWait hf hlen hroom hp hm _ hle' hc hh hd =>
    refine ((hk.puts hf hlen (by rwa [decide_eq_true hroom])).marks hm).sleep ?_ hc hh hd
    rintro _ _ _ _ ⟨⟩
    exact hle'

/-- A process is made ready. -/
theorem of_ready (hk : PipeOrder i k) (hs : (k'.core.procs p).state = .ready)
    (hcount : ∀ f buf nbytes nwritten, (k'.core.procs p).ctx = .pipeWrite f i buf nbytes nwritten →
      nwritten ≤ nbytes) (hprocs : ∀ q ≠ p, k'.core.procs q = k.core.procs q)
    (hh : ∀ l ≠ .proc p, k'.held l = k.held l) (hpipes : k'.pipes = k.pipes) : PipeOrder i k' := by
  refine hk.of_held (fun l hl => hh l (hl p)) (fun q hq => ?_) (by rw [hpipes])
    (hpipes ▸ hk.ready.ok) fun q f buf nbytes nwritten hq hctx => ?_
  · have hqp : q ≠ p := by
      rintro rfl
      simp [hs] at hq
    rw [hh _ (by simpa using hqp)]
    exact hk.ready.sleepers q (hprocs q hqp ▸ hq)
  · by_cases hqp : q = p
    · subst hqp
      exact hcount f buf nbytes nwritten hctx
    · rw [hprocs q hqp] at hq hctx
      exact hk.counts q f buf nbytes nwritten hq hctx

/-- Every step keeps the pipe in order. -/
theorem move {e : PipeEvent cfg} (hk : PipeOrder i k) (h : PipeMove i k e k') : PipeOrder i k' := by
  cases h with
  | read _ _ hb hr => exact (hb.order hk).read hr
  | write _ _ hle hb hr => exact (hb.order hk).write hle hr
  | begins hb => exact hb.order hk
  | close _ hc => exact hk.of_wakes hc.wakes hc.held hc.wf hc.ok
  | @wake p hs =>
    refine hk.of_ready (p := p) ?_ (fun f buf nbytes nwritten hctx => ?_) (fun q hq => ?_) (fun _ _ => rfl) rfl
    · rw [Kernel.setState_core, Core.setState_procs_self]
    · rw [Kernel.setState_core, Core.setState_procs_self] at hctx
      exact hk.counts p f buf nbytes nwritten (.inl hs) hctx
    · rw [Kernel.setState_core, Core.setState_procs_of_ne _ _ _ hq]
  | @tick p k' hs hc hh hd =>
    refine hk.of_ready (p := p) ?_ (fun f buf nbytes nwritten hctx => ?_) (fun q hq => ?_) hh
      (congrArg Prod.fst hd)
    · simp [hc]
    · simp [hc] at hctx
    · simp [hc, hq]
  | aside hc hh hp _ _ => exact hk.of_core hc hh (by rw [hp]) (hp ▸ hk.ready.ok)

end PipeOrder

theorem Opened.order (h : Opened i k) : PipeOrder i k := by
  refine ⟨h.ready, fun p f buf nbytes nwritten hs hctx => absurd ⟨hs, ?_⟩ (h.idle p)⟩
  rw [show (k.procs p).ctx = _ from hctx]
  simp [pipeCall]

theorem PipeOrder.path {C : Kernel cfg → PipeEvent cfg → Prop} (hk : PipeOrder i k)
    (h : Path (pipeSystem cfg i) C k k') : PipeOrder i k' :=
  h.induct hk fun hu _ hs => hu.move (pipeStep_move hu hs)

end HobbyOs
