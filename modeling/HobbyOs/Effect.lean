import HobbyOs.Steady
import HobbyOs.Syscall

/-!
# What a system call does to scheduling

The inversion of system calls: what the call `c` of the process `p` does to the
core of a kernel, by how it ends (`CallEffect`). It comes `back` to the process
that made it, goes `away` to the scheduler, or the kernel comes to a `halt` in
the middle of it. Most calls only wake sleepers; the others are those that
block, `fork`, `exit`, `wait`, `detach`, `pipeattch` and `execv`.

`CallResult` says how a call may end under the locks that are held when user
code runs: with one of these effects, and with the same locks but for the
caller's own; unless it takes that lock while it is held, when it waits for it
forever.
-/

namespace HobbyOs

open Outcome

variable {cfg : Config} {α β : Type}

/-! ## Locks in user mode -/

/-- The locks other than the one of `p`. -/
def others (p : Slot cfg) : Set (Lock cfg) := {l | l ≠ .proc p}

/-- No lock is held but maybe the one of `p`, which is awake. -/
structure Calm (p : Slot cfg) (k : Kernel cfg) : Prop where
  free : ∀ l ∈ others p, k.held l = false
  awake : (k.core.procs p).state ≠ .sleeping

namespace Calm

variable {p : Slot cfg} {k k' : Kernel cfg}

theorem sleepers (h : Calm p k) (q : Slot cfg) (hq : k.held (.proc q) = true) :
    (k.core.procs q).state ≠ .sleeping := by
  by_cases hqp : q = p
  · subst hqp
    exact h.awake
  · have := h.free (.proc q) (by simp [others, hqp])
    simp [hq] at this

theorem wakes (h : Calm p k) (hw : Wakes k.core k'.core) (hh : k'.held = k.held) : Calm p k' where
  free l hl := by rw [hh]; exact h.free l hl
  awake := by rw [hw.procs_of_ne_sleeping h.awake]; exact h.awake

theorem same (h : Calm p k) (hc : k'.core = k.core) (hh : k'.held = k.held) : Calm p k' where
  free l hl := by rw [hh]; exact h.free l hl
  awake := by rw [hc]; exact h.awake

end Calm

@[simp] theorem procTable_mem_others (p : Slot cfg) : Lock.procTable ∈ others p := by simp [others]
@[simp] theorem ftable_mem_others (p : Slot cfg) : Lock.ftable ∈ others p := by simp [others]
@[simp] theorem pagedMemory_mem_others (p : Slot cfg) : Lock.pagedMemory ∈ others p := by simp [others]
@[simp] theorem pipes_mem_others (p : Slot cfg) : Lock.pipes ∈ others p := by simp [others]
@[simp] theorem pipe_mem_others (p : Slot cfg) (i : Fin maxPipes) : Lock.pipe i ∈ others p := by
  simp [others]
@[simp] theorem proc_mem_others {p q : Slot cfg} : Lock.proc q ∈ others p ↔ q ≠ p := by simp [others]

/-! ## Effects -/

/-- How a call ends. -/
inductive How
  /-- It returns to user code. -/
  | back
  /-- It switches to the scheduler. -/
  | away
  /-- The kernel halts in it. -/
  | halt
  deriving DecidableEq

/-- `check_exited_children`, and what it returns. -/
inductive Reaps (p : Slot cfg) (call : Kont cfg) : Core cfg → Core cfg → ℤ → Prop
  | none {s : Core cfg} : (∀ q, (s.procs q).parent = some p → (s.procs q).state ≠ .zombie) →
      Reaps p call s s (-1)
  | one {s : Core cfg} {q : Slot cfg} : (s.procs q).parent = some p → (s.procs q).state = .zombie →
      Reaps p call s (s.setState q .available (.reap call)) (int32 (s.procs q).pid)

namespace Reaps

variable {p : Slot cfg} {call : Kont cfg} {s t : Core cfg} {pid : ℤ}

/-- A process is as it was, or an exited child that is freed. -/
theorem procs_eq (h : Reaps p call s t pid) (q : Slot cfg) :
    t.procs q = s.procs q ∨ ((s.procs q).parent = some p ∧ (s.procs q).state = .zombie ∧
      t.procs q = { s.procs q with state := .available }) := by
  cases h with
  | none _ => exact .inl rfl
  | @one r hp hz =>
    by_cases hqr : q = r
    · subst hqr
      exact .inr ⟨hp, hz, by simp⟩
    · exact .inl (by simp [hqr])

theorem uid_eq (h : Reaps p call s t pid) (q : Slot cfg) : (t.procs q).uid = (s.procs q).uid := by
  rcases h.procs_eq q with h | ⟨_, _, h⟩ <;> rw [h]

/-- The process that calls is not its own child, and left alone. -/
theorem procs_self (h : Reaps p call s t pid) (hp : (s.procs p).parent ≠ some p) :
    t.procs p = s.procs p :=
  (h.procs_eq p).resolve_right fun h => hp h.1

end Reaps

namespace Core

/-- The slot `q` gets a new pid. -/
def newPid (s : Core cfg) (q : Slot cfg) : Core cfg :=
  { s.update q fun x => { x with pid := s.pidCounter % 2 ^ 32, uid := s.pidCounter, forker := none } with
    pidCounter := s.pidCounter + 1 }

/-- The slot `q` is filled in and made ready. -/
def fresh (s : Core cfg) (q : Slot cfg) (frame : TrapFrame) : Core cfg :=
  (s.update q fun x => { x with
    trap := frame, ctx := .forkret, nscheds := 0, cond := ⟨.chan, noPid, 0⟩ }).setState q .ready .initProc

/-- The process in `q` is counted. -/
def counted (s : Core cfg) : Core cfg := { s with numProcs := s.numProcs + 1 }

/-- The process in `q` becomes a child of `p`. -/
def adopted (s : Core cfg) (p q : Slot cfg) : Core cfg :=
  s.update q fun x => { x with parent := some p, forker := some (s.procs p).uid }

end Core

/-- The kernel with the name of the directory in `/proc` set, for a process in
    the slot `q`. -/
def Kernel.named (k : Kernel cfg) (q : Slot cfg) (pid : ℕ) : Kernel cfg :=
  k.setProc q { k.procs q with piddir := digits pid }

/-- There is room in the baked-in file system for the next process, in the slot
    `q`: `/proc` is found, a directory is free, and two files are. -/
def ProcfsRoom (k : Kernel cfg) (q : Slot cfg) (pid : ℕ) : Prop :=
  (∃ d, bifsOpendirpath (ascii "/proc") (ascii "/proc").length (k.named q pid) =
      .ok (some d) (k.named q pid)) ∧
    (∃ i, (k.dirs i).flags = 0) ∧
    ∃ j j', j ≠ j' ∧ (k.bfiles j).flags = 0 ∧ (k.bfiles j').flags = 0

/-- The core after a creation in the slot `q` by `p`, however far it got. -/
inductive Forks (k : Kernel cfg) (p q : Slot cfg) (s : Core cfg) : How → Core cfg → Prop
  /-- There are not enough pages. -/
  | pid {how : How} : how ≠ .away → Forks k p q s how (s.newPid q)
  /-- There is no room for the files in `/proc`. -/
  | full {frame : TrapFrame} : ¬ProcfsRoom k q (k.pidCounter % 2 ^ 32) →
      Forks k p q s .back ((s.newPid q).fresh q frame)
  | fresh {frame : TrapFrame} : Forks k p q s .halt ((s.newPid q).fresh q frame)
  | adopted {frame : TrapFrame} : Forks k p q s .halt (((s.newPid q).fresh q frame).counted.adopted p q)
  | created {frame frame' : TrapFrame} : Forks k p q s .back
      (((((s.newPid q).fresh q frame).counted.adopted p q).update q fun x =>
        { x with trap := frame' }).record (.created s.pidCounter))

theorem fd_lt {fd : ℤ} (h : 0 ≤ fd ∧ fd.toNat < maxProcFds) : fd.toNat < maxProcFds := h.2

/-- The process and the file that `proc_pipeattch` is about. -/
def attachTarget (p : Slot cfg) (k : Kernel cfg) (pid : ℕ) (fd : ℤ) : Option (Slot cfg × FileRef) :=
  if h : 0 ≤ fd ∧ fd.toNat < maxProcFds then
    (findProcByPid k pid).bind fun q => ((k.procs p).files ⟨fd.toNat, fd_lt h⟩).map fun f => (q, f)
  else none

/-- The calls that may block in `proc_yield`. -/
def Call.isTransfer : Call → Bool
  | .read .. | .write .. => true
  | _ => false

/-- What the call `c` of `p` does to the core, by how it ends. -/
inductive CallEffect (p : Slot cfg) (k : Kernel cfg) : Call → How → Core cfg → Prop
  | quiet {c : Call} {how : How} {t : Core cfg} : how ≠ .away → Wakes k.core t →
      CallEffect p k c how t
  /-- The process leaves its saved registers changed. -/
  | frame {c : Call} {how : How} {frame : TrapFrame} : how ≠ .away →
      CallEffect p k c how (k.core.update p fun x => { x with trap := frame })
  | yield {c : Call} {t : Core cfg} {ch : Chan cfg} {frame : TrapFrame} {call : Kont cfg} :
      c.isTransfer = true → Wakes k.core t → call.yieldChan = some ch →
      CallEffect p k c .away (t.sleep p (fun x => { x with chan := ch }) frame call)
  | sleep {ms deadline : ℕ} {frame : TrapFrame} :
      CallEffect p k (.sleep ms) .away
        (k.core.sleep p (fun x => { x with wakeupTime := deadline }) frame (.sleep deadline))
  | waited {cond : ℕ} {t : Core cfg} {pid : ℤ} : Reaps p .waitChild k.core t pid → 0 ≤ pid →
      CallEffect p k (.wait cond) .back (t.record (.waited (k.core.procs p).uid pid))
  | wait {cond : ℕ} {t : Core cfg} {pid : ℤ} {frame : TrapFrame} :
      Reaps p .waitChild k.core t pid → pid < 0 →
      CallEffect p k (.wait cond) .away (t.sleep p id frame .waitChild)
  | waitCond {cond want : ℕ} {q : Slot cfg} {frame : TrapFrame} :
      CallEffect p k (.wait cond) .away
        (k.core.sleep p (fun x => { x with
          cond := ⟨.nscheds, (k.core.procs q).pid, (want + (k.core.procs q).nscheds) % 2 ^ 64⟩
          chan := .proc q }) frame (.waitCond q (k.core.procs q).nscheds want))
  | fork {q : Slot cfg} {how : How} {frame : TrapFrame} {t : Core cfg} : q ≠ p →
      (k.core.procs q).state = .available →
      Forks k p q (k.core.update p fun x => { x with trap := frame }) how t →
      CallEffect p k .fork how t
  /-- The parent is gone. -/
  | orphan : (k.core.procs p).parent = none →
      CallEffect p k .exit .halt (k.core.setState p .zombie .exit)
  /-- The kernel halts while the files are closed. -/
  | exiting {r : Slot cfg} {t : Core cfg} : (k.core.procs p).parent = some r →
      Wakes ((k.core.setState p .zombie .exit).setState r .ready
        (.exitParent (k.core.procs p).uid (k.core.procs p).forker)) t →
      CallEffect p k .exit .halt t
  | exited {r : Slot cfg} {t : Core cfg} : (k.core.procs p).parent = some r →
      Wakes ((k.core.setState p .zombie .exit).setState r .ready
        (.exitParent (k.core.procs p).uid (k.core.procs p).forker)) t →
      CallEffect p k .exit .away { t.update p fun x => { x with ctx := .exited } with
        numProcs := t.numProcs - 1 }
  | detached {r : Slot cfg} : (k.core.procs p).parent = some r →
      (k.core.procs r).state ≠ .sleeping →
      CallEffect p k .detach .back (k.core.update p fun x => { x with parent := none })
  | detachedWake {r : Slot cfg} : (k.core.procs p).parent = some r →
      (k.core.procs r).state = .sleeping →
      CallEffect p k .detach .back ((k.core.update p fun x => { x with parent := none }).setState r
        .ready (.detach (k.core.procs p).uid (k.core.procs p).forker))
  | attached {pid : ℕ} {fd : ℤ} {q : Slot cfg} {f : FileRef} : attachTarget p k pid fd = some (q, f) →
      CallEffect p k (.pipeattch pid fd) .back
        (k.core.update q fun x => { x with chan := (k.files f).fsFile.chan })

/-- The calls that take the lock of the process that makes them. -/
def TakesOwn (p : Slot cfg) (k : Kernel cfg) : Call → Prop
  | .execv _ _ | .pipeattch _ _ => True
  | .detach => (k.procs p).parent ≠ none
  | .open path => va2pa k (k.procs p).upagetable path ≠ 0 ∧ ∃ i, (k.files (.ftable i)).refcount = 0
  | _ => False

instance (p : Slot cfg) (k : Kernel cfg) : DecidablePred (TakesOwn p k)
  | .execv _ _ | .pipeattch _ _ => .isTrue trivial
  | .detach => inferInstanceAs (Decidable (_ ≠ _))
  | .open _ => inferInstanceAs (Decidable (_ ∧ _))
  | .exit | .fork | .read .. | .write .. | .close _ | .wait _ | .getpid | .dup _ | .pipe _ | .sysinfo _
  | .sleep _ | .plist .. | .pinfo .. | .pgalloc | .pgfree _ | .gpio .. | .isopen _ | .lsdir .. => .isFalse id

/-- How the call `c` of `p` may end. -/
inductive CallResult (p : Slot cfg) (k : Kernel cfg) (c : Call) :
    EStateM.Result (Stop cfg) (Kernel cfg) α → Prop
  | back {a : α} {k' : Kernel cfg} : CallEffect p k c .back k'.core →
      (∀ l ∈ others p, k'.held l = false) → ¬(TakesOwn p k c ∧ k.held (.proc p) = true) →
      CallResult p k c (.ok a k')
  | away {k' : Kernel cfg} : CallEffect p k c .away k'.core →
      (∀ l ∈ others p, k'.held l = false) → ¬(TakesOwn p k c ∧ k.held (.proc p) = true) →
      CallResult p k c (.error .switch k')
  | halt {e : Stop cfg} {k' : Kernel cfg} : e.isHalt → CallEffect p k c .halt k'.core →
      ¬(TakesOwn p k c ∧ k.held (.proc p) = true) → CallResult p k c (.error e k')
  | deadlock {k' : Kernel cfg} : k'.core = k.core → TakesOwn p k c → k.held (.proc p) = true →
      CallResult p k c (.error (.deadlock (.proc p)) k')

/-! ## Blocking -/

theorem psleep_apply (p : Slot cfg) (call : Kont cfg) (k : Kernel cfg) :
    ∃ k', (psleep p call : KM cfg α) k = .error .switch k' ∧
      k'.core = k.core.sleep p id k.trapFrame call ∧ k'.held = k.held := by
  refine ⟨_, rfl, ?_, rfl⟩
  rw [Kernel.setProc_core, Kernel.setState_core, Core.sleep, Core.update_id]
  simp [Core.update, Core.setState, Kernel.setState, Kernel.setProc, Kernel.core_procs]

theorem procYield_apply (p : Slot cfg) (c : Chan cfg) (call : Kont cfg) (k : Kernel cfg) :
    ∃ k', (procYield p c call : KM cfg α) k = .error .switch k' ∧
      k'.core = k.core.sleep p (fun x => { x with chan := c }) k.trapFrame call ∧
      k'.held = k.held := by
  obtain ⟨k', he, hc, hh⟩ := psleep_apply (α := α) p call
    (k.setProc p { k.procs p with chan := c })
  refine ⟨k', he, ?_, hh⟩
  rw [hc, Kernel.setProc_core, Core.sleep, Core.update_id]
  rfl

/-- How code may end that blocks in `proc_yield`. -/
inductive MayYield (p : Slot cfg) (k : Kernel cfg) : EStateM.Result (Stop cfg) (Kernel cfg) α → Prop
  | ok {a : α} {k' : Kernel cfg} : Wakes k.core k'.core → k'.held = k.held → MayYield p k (.ok a k')
  | halt {e : Stop cfg} {k' : Kernel cfg} : e.isHalt → Wakes k.core k'.core →
      MayYield p k (.error e k')
  | yield {k' : Kernel cfg} {t : Core cfg} {ch : Chan cfg} {frame : TrapFrame} {call : Kont cfg} :
      Wakes k.core t → call.yieldChan = some ch →
      k'.core = t.sleep p (fun x => { x with chan := ch }) frame call → k'.held = k.held →
      MayYield p k (.error .switch k')

/-- `m` may block in `proc_yield`; it wakes sleepers, and keeps no lock. -/
def Yields (p : Slot cfg) (m : KM cfg α) : Prop := ∀ k, Calm p k → MayYield p k (m k)

namespace Yields

variable {p : Slot cfg} {m : KM cfg α} {f : α → KM cfg β}

theorem of_quiet (hm : Quiet (others p) m) : Yields p m := by
  intro k hk
  rcases hm.result hk.free hk.sleepers with ⟨a, k', h, hw, hh⟩ | ⟨e, k', h, he, hw⟩
  · rw [h]
    exact .ok hw hh
  · rw [h]
    exact .halt he hw

theorem of_still (hm : Still (others p) m) : Yields p m := of_quiet hm.quiet

theorem bind (hm : Yields p m) (hf : ∀ a, Yields p (f a)) : Yields p (m >>= f) := by
  intro k hk
  have h := hm k hk
  cases hr : m k with
  | ok a k' =>
    rw [bind_ok hr]
    rw [hr] at h
    cases h with
    | ok hw hh =>
      have h' := hf a k' (hk.wakes hw hh)
      revert h'
      generalize f a k' = r
      intro h'
      cases h' with
      | ok hw' hh' => exact .ok (hw.trans hw') (hh'.trans hh)
      | halt he hw' => exact .halt he (hw.trans hw')
      | yield hw' hc hs hh' => exact .yield (hw.trans hw') hc hs (hh'.trans hh)
  | error e k' =>
    rw [bind_error hr]
    rw [hr] at h
    cases h with
    | halt he hw => exact .halt he hw
    | yield hw hc hs hh => exact .yield hw hc hs hh

theorem procYield {c : Chan cfg} {call : Kont cfg} (hc : call.yieldChan = some c) :
    Yields p (procYield p c call : KM cfg α) := by
  intro k hk
  obtain ⟨k', he, hs, hh⟩ := procYield_apply (α := α) p c call k
  rw [he]
  exact .yield .refl hc hs hh

end Yields

section

variable {p : Slot cfg} {f : FileRef} {i : Fin maxPipes} {buf size nbytes nwritten : ℕ}

theorem yields_pipeReadLoopTop : Yields p (pipeReadLoopTop p f i buf size) := by
  refine (Yields.of_quiet (quiet_pipeReadTry (by simp) (by simp))).bind fun r => ?_
  cases r with
  | none => exact Yields.procYield rfl
  | some n => exact Yields.of_still (Still.pure _)

theorem yields_pipeRead : Yields p (pipeRead p f buf size) := by
  refine (Yields.of_still Still.get).bind fun k => ?_
  split
  · exact Yields.of_still (Still.throw trivial)
  · exact Yields.of_still (Still.throw trivial)
  · exact yields_pipeReadLoopTop

theorem yields_pipeWriteLoopTop : Yields p (pipeWriteLoopTop p f i buf nbytes nwritten) := by
  refine (Yields.of_quiet (quiet_pipeWriteTry (by simp) (by simp))).bind fun r => ?_
  cases r with
  | inl n => exact Yields.of_still (Still.pure _)
  | inr n => exact Yields.procYield rfl

theorem yields_pipeWrite : Yields p (pipeWrite p f buf nbytes) := by
  refine (Yields.of_still Still.get).bind fun k => ?_
  split
  · exact Yields.of_still (Still.pure _)
  · exact Yields.of_still (Still.throw trivial)
  · exact yields_pipeWriteLoopTop

theorem yields_pipeWriteResume : Yields p (pipeWriteResume p f i buf nbytes nwritten) := by
  refine (Yields.of_still Still.get).bind fun k => ?_
  split
  · exact Yields.of_still (Still.pure _)
  · exact yields_pipeWriteLoopTop

theorem yields_uartReadline : Yields p (uartReadline p f buf size) := by
  refine (Yields.of_still Still.get).bind fun k => ?_
  split
  · exact Yields.of_still still_uartTake
  · exact Yields.procYield rfl

theorem yields_fsRead {pos : ℕ} : Yields p (fsRead p f pos buf size) := by
  refine (Yields.of_still Still.get).bind fun k => ?_
  split
  · exact Yields.of_still (Still.pure _)
  · exact yields_uartReadline
  · exact Yields.of_still still_bifsRead
  · exact yields_pipeRead

theorem yields_fsWrite : Yields p (fsWrite p f buf nbytes) := by
  refine (Yields.of_still Still.get).bind fun k => ?_
  split
  · exact Yields.of_still (Still.pure _)
  · exact Yields.of_still still_uartWrite
  · exact Yields.of_still (Still.pure _)
  · exact yields_pipeWrite

theorem yields_procRead {fd : ℕ} : Yields p (procRead p fd buf size) := by
  refine (Yields.of_still still_fileOf).bind fun f => ?_
  split
  · exact Yields.of_still (still_setErrno.bind fun _ => Still.pure _)
  refine (Yields.of_still Still.get).bind fun k => ?_
  dsimp only
  split
  · exact Yields.of_still (still_setErrno.bind fun _ => Still.pure _)
  · exact yields_fsRead.bind fun n => Yields.of_still still_readTail

theorem yields_procWrite {fd : ℕ} : Yields p (procWrite p fd buf nbytes) := by
  refine (Yields.of_still still_fileOf).bind fun f => ?_
  split
  · exact Yields.of_still (still_setErrno.bind fun _ => Still.pure _)
  refine (Yields.of_still Still.get).bind fun k => ?_
  dsimp only
  split
  · exact Yields.of_still (still_setErrno.bind fun _ => Still.pure _)
  · refine (Yields.of_still still_writeSize).bind fun n => ?_
    exact yields_fsWrite.bind fun status => Yields.of_still still_writeTail

end

end HobbyOs
