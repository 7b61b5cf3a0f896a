import HobbyOs.PageAlloc

/-!
# Blocking and waking up

The part of `proc.c` by which processes fall asleep and are woken.

* A process blocks in `psleep`, which switches to the scheduler; what it does
  when it is switched to again is its `Kont`.
* `proc_mark_for_wakeup` goes over the sleepers whose `chan` is the given
  object; `update_proc_by_chan` then decides by the `cond` of the sleeper.
* `check_exited_children` frees the slot of one exited child. It is called by
  `proc_wait`, and by `psleep` when it goes on.
-/

namespace HobbyOs

variable {cfg : Config}

/-! ## Waking up -/

/-- `should_wake_up`. -/
def shouldWakeUp (k : Kernel cfg) (p : Slot cfg) : Bool :=
  (k.procs p).wakeupTime ≠ 0 ∧ (k.procs p).wakeupTime ≤ k.now

/-- The `pid` and the `nscheds` that are read when a channel is taken for a
    process. -/
def asProcess (k : Kernel cfg) : Chan cfg → ℕ × ℕ
  | .proc q => ((k.procs q).pid, (k.procs q).nscheds)
  | c => k.overlay c

/-- The process is woken: it is ready, and waits on nothing. -/
def wake (p : Slot cfg) (site : Site cfg) : KM cfg Unit := do
  setState p .ready site
  modifyProc p fun x => { x with chan := .null }

/-- `update_proc_by_chan`. -/
def updateProcByChan (p : Slot cfg) (c : Chan cfg) : KM cfg Unit := do
  modify fun k => { k with unsleepScheduler := true }
  let k ← get
  let cond := (k.procs p).cond
  match cond.type with
  | .chan => wake p (.chan c)
  | .nscheds =>
    let other := asProcess k c
    if cond.targetPid = other.1 ∧ cond.wantNscheds ≤ other.2 then
      wake p (.nscheds c other.1 other.2)

/-- The loop of `proc_mark_for_wakeup`, at one slot. -/
def markSlot (c : Chan cfg) (p : Slot cfg) : KM cfg Unit := do
  let x := (← get).procs p
  if x.state = .sleeping ∧ x.chan = c then withLock (.proc p) (updateProcByChan p c)

/-- `proc_mark_for_wakeup`. -/
def procMarkForWakeup (c : Chan cfg) : KM cfg Unit :=
  withLock .procTable do
    if (← get).numProcs = 0 then return ()
    (List.finRange cfg.maxProcs).forM (markSlot c)

/-! ## Blocking -/

/-- The loop of `check_exited_children`, at one slot: the pid of a child of `p`
    that has exited and is now freed. -/
def reapSlot (p : Slot cfg) (call : Kont cfg) (q : Slot cfg) : KM cfg (Option ℤ) := do
  if ((← get).procs q).parent = some p then
    withLock (.proc q) do
      let x := (← get).procs q
      if x.state = .zombie then
        releasePage x.kstackPage
        setState q .available (.reap call)
        return some (int32 x.pid)
      else return none
  else return none

/-- `check_exited_children`, within the call `call` of the process `p`. -/
def checkExitedChildren (p : Slot cfg) (call : Kont cfg) : KM cfg ℤ := do
  let found ← (List.finRange cfg.maxProcs).findSomeM? (reapSlot p call)
  return found.getD (-1)

/-- `psleep`, up to its `swtch`: the process sleeps, its user registers are
    saved, and the scheduler goes on. -/
def psleep {α : Type} (p : Slot cfg) (call : Kont cfg) : KM cfg α := do
  setState p .sleeping .psleep
  let frame := (← get).trapFrame
  modifyProc p fun x => { x with trap := frame, ctx := call }
  throw .switch

/-- `proc_yield`, up to the `swtch`. -/
def procYield {α : Type} (p : Slot cfg) (c : Chan cfg) (call : Kont cfg) : KM cfg α := do
  modifyProc p fun x => { x with chan := c }
  psleep p call

end HobbyOs
