import HobbyOs.Lib.Transition
import HobbyOs.Syscall

/-!
# The machine

The kernel on one hart: user code, traps and the scheduler, as a transition
system.

* In user mode (`user`) the process on the CPU runs, with the registers `hart`.
  It may do anything to its registers and to memory (`exec`), make a system
  call, fault, or be interrupted by the timer or the console. A trap stores the
  registers in `trap_frame` (`trap_vector`), and going back to user mode loads
  them from there (`ret_to_user`).
* The scheduler goes through the slots (`sched`), one slot a step. It switches
  to a process that is ready (`switched`), which goes on where it left the CPU;
  a `Stop.switch` is the switch back.
* When there is nothing to run, the hart idles (`idle`) with interrupts
  enabled; a tick starts the scheduler anew.
* The kernel may also come to a halt (`halted`): a panic, a fault, or a lock
  that is never released.

Interrupts are disabled in the kernel, so nothing else happens between these
steps; the time goes on at any moment.
-/

namespace HobbyOs

variable {cfg : Config}

/-- Where the hart is. -/
inductive Mode (cfg : Config)
  | user
  /-- In `scheduler`, about to look at the slot `i`; with its local variables
      `i_after_wakeup` and `new_loop`. -/
  | sched (i : ℕ) (iAfterWakeup : ℤ) (newLoop : Bool)
  /-- `scheduler` has switched to the process. -/
  | switched (p : Slot cfg)
  /-- In `sleep_scheduler`. -/
  | idle
  | halted (why : Stop cfg)
  deriving DecidableEq

/-- The state of the machine. -/
structure Machine (cfg : Config) where
  k : Kernel cfg
  hart : TrapFrame
  mode : Mode cfg

/-- What may happen. -/
inductive Event (cfg : Config)
  /-- User code runs: it stores bytes to memory, and leaves these registers. -/
  | exec (hart : TrapFrame) (stores : List (ℕ × List UInt8))
  /-- User code faults. -/
  | exception
  /-- `ecall`. -/
  | ecall
  /-- The timer interrupt. -/
  | tick
  /-- The console has received characters. -/
  | plic (received : List UInt8)
  /-- The time goes on. -/
  | time (ticks : ℕ)
  /-- The memory of objects that are not processes changes. -/
  | overlay (o : Chan cfg → ℕ × ℕ)
  /-- The kernel takes a step: the scheduler, or a process it has switched to. -/
  | kernel

/-! ## The scheduler -/

/-- The part of `scheduler` that runs a process, with its lock taken. -/
def runSlot (p : Slot cfg) : KM cfg Bool := do
  setState p .running .scheduler
  modify fun k => { k with cpuProc := some p }
  modifyProc p fun x => { x with nscheds := (x.nscheds + 1) % 2 ^ 64 }
  procMarkForWakeup (.proc p)
  modify fun k => { k with trapFrame := (k.procs p).trap }
  return true

/-- `scheduler`, at one slot: whether it switches to it; then the lock of the
    slot stays held. -/
def examine (p : Slot cfg) : KM cfg Bool := do
  acquire (.proc p)
  let k ← get
  if (k.procs p).state = .sleeping ∧ shouldWakeUp k p then setState p .ready .wakeup
  if ((← get).procs p).state = .ready then runSlot p
  else
    release (.proc p)
    return false

/-- The scheduler goes on after `p` has switched back. -/
def backToScheduler (k : Kernel cfg) (p : Slot cfg) : Machine cfg where
  k := { k.setHeld (.proc p) false with cpuProc := none }
  hart := k.trapFrame
  mode := .sched (p + 1) p false

/-- The machine after code of the kernel has run for the process on the CPU. -/
def outcome {α : Type} : EStateM.Result (Stop cfg) (Kernel cfg) α → Machine cfg
  | .ok _ k => ⟨k, k.trapFrame, .user⟩
  | .error .switch k =>
    match k.cpuProc with
    | some p => backToScheduler k p
    | none => ⟨k, k.trapFrame, .halted .switch⟩
  | .error e k => ⟨k, k.trapFrame, .halted e⟩

/-- A step of the scheduler. -/
def schedStep (m : Machine cfg) (i : ℕ) (iAfterWakeup : ℤ) (newLoop : Bool) : Machine cfg :=
  if h : i < cfg.maxProcs then
    if newLoop ∧ iAfterWakeup < i then
      { m with k := { m.k with unsleepScheduler := false }, mode := .idle }
    else
      match examine ⟨i, h⟩ m.k with
      | .ok true k => { m with k := k, mode := .switched ⟨i, h⟩ }
      | .ok false k => { m with k := k, mode := .sched (i + 1) iAfterWakeup newLoop }
      | .error e k => { m with k := k, mode := .halted e }
  else { m with mode := .sched 0 iAfterWakeup true }

/-! ## Traps -/

/-- `sched`, called by the timer interrupt for the process `p`. -/
def preempt (p : Slot cfg) : KM cfg Unit := do
  setState p .ready .sched
  modifyProc p fun x => { x with ctx := .timerTick }
  throw .switch

/-- `trap_vector`: the registers are stored in `trap_frame`. -/
def trap (m : Machine cfg) : Kernel cfg := { m.k with trapFrame := m.hart }

/-- A system call. -/
def ecallStep (m : Machine cfg) : Machine cfg :=
  match m.k.cpuProc with
  | some p => outcome (syscall p (trap m))
  | none => { m with k := trap m, mode := .halted .panic }

/-- `kernel_timer_tick`. Without a process on the CPU it starts the scheduler. -/
def tickStep (m : Machine cfg) : Machine cfg :=
  match m.k.cpuProc with
  | some p => outcome (preempt p (trap m))
  | none => { m with k := trap m, mode := .sched 0 (-1) false }

/-- `kernel_plic_handler`; it goes back to where the interrupt came from. -/
def plicStep (m : Machine cfg) (received : List UInt8) : Machine cfg :=
  match uartEnqueueChars received (trap m) with
  | .ok _ k => ⟨k, k.trapFrame, m.mode⟩
  | .error e k => ⟨k, k.trapFrame, .halted e⟩

/-- A step of the machine, where it is possible. -/
def step (e : Event cfg) (m : Machine cfg) : Option (Machine cfg) :=
  match e, m.mode with
  | .exec hart stores, .user => some { m with
      hart := hart
      k := { m.k with mem := stores.foldl (fun mem s => storeBytes mem s.1 s.2) m.k.mem } }
  | .exec hart _, .idle => some { m with hart := hart }
  | .exception, .user => some { m with mode := .halted .hang }
  | .ecall, .user => some (ecallStep m)
  | .tick, .user | .tick, .idle => some (tickStep m)
  | .plic received, .user | .plic received, .idle => some (plicStep m received)
  | .time ticks, _ => some { m with k := { m.k with now := m.k.now + ticks } }
  | .overlay o, _ => some { m with k := { m.k with overlay := o } }
  | .kernel, .sched i iAfterWakeup newLoop => some (schedStep m i iAfterWakeup newLoop)
  | .kernel, .switched p => some (outcome (resume p m.k))
  | _, _ => none

/-! ## Boot -/

/-- A slot of zeroed memory. -/
def zeroProc (cfg : Config) : Proc cfg where
  state := .available
  pid := 0
  parent := none
  trap := .zero
  ctx := .forkret
  wakeupTime := 0
  chan := .null
  cond := ⟨.chan, 0, 0⟩
  nscheds := 0
  uid := 0
  forker := none
  usatp := 0
  upagetable := 0
  name := none
  stackPage := 0
  perrno := 0
  magic := 0
  kstackPage := 0
  files _ := none
  procfsDir := none
  piddir := []
  procfsNameFile := none

/-- The kernel with its tables initialised: no process, all pages free. -/
def initKernel (cfg : Config) (mem : ℕ → UInt8) : Kernel cfg where
  procs _ := zeroProc cfg
  numProcs := 0
  pidCounter := 0
  trapFrame := TrapFrame.zero.set TrapFrame.tp cfg.bootHartId
  cpuProc := none
  now := 0
  unsleepScheduler := false
  overlay _ := (0, 0)
  pages _ := ⟨pageFree, noPid⟩
  files := initFile
  pipes _ := ⟨false, false, false, 0, none, none, 0, 0⟩
  dirs := initDirs cfg
  bfiles := initFiles cfg
  uart0 := ⟨fun _ => 0, 0, 0, 0, false⟩
  held _ := false
  mem := mem
  kmem _ _ := 0
  pte _ := 0
  log := []
  io := []

/-- The loop of `inject_argv`, downwards from `bottom`; the pointers go to
    `newArgv` upwards. -/
def injectLoop : List (List UInt8) → (bottom newArgv : ℕ) → KM cfg ℕ
  | [], bottom, newArgv => do
    store newArgv (bytesOfWord 0 cfg.regSz)
    return bottom
  | s :: ss, bottom, newArgv => do
    let bottom := bottom - (s.length + 1)
    store bottom (strncpy s (s.length + 1))
    store newArgv (bytesOfWord (cfg.usrStkVirt bottom) cfg.regSz)
    injectLoop ss bottom (newArgv + cfg.regSz)

/-- `inject_argv`. -/
def injectArgv (p : Slot cfg) (argv : List (List UInt8)) : KM cfg Unit := do
  let newArgv := ((← get).procs p).perrno - cfg.regSz * (argv.length + 1)
  let bottom ← injectLoop argv newArgv newArgv
  modifyProc p fun x => { x with
    trap := ((x.trap.set TrapFrame.sp (stkRound (cfg.usrStkVirt bottom))).set TrapFrame.a0
      argv.length).set TrapFrame.a1 (cfg.usrStkVirt newArgv) }

/-- The arguments of the first process, if there is a test script. -/
def injectScript (p : Slot cfg) (name : List UInt8) : KM cfg Unit :=
  match cfg.testScript with
  | none => pure ()
  | some script => injectArgv p [name, ascii "-f", script]

/-- The end of `assign_init_program`, with the slot filled in. -/
def startInit (p : Slot cfg) (name : List UInt8) : KM cfg Unit := do
  injectScript p name
  release (.proc p)
  record (.created ((← get).procs p).uid)
  modify fun k => { k with cpuProc := some p }

/-- `assign_init_program("sh", test_script)`. -/
def assignInitProgram : KM cfg Unit := do
  match findUserProgram (ascii "sh") with
  | none => throw .panic
  | some (i, name) =>
    match ← allocProcess with
    | none => throw .panic
    | some p =>
      let status ← initProc p (cfg.usrVirt (cfg.entry i)) (some name)
      if status ≠ 0 then throw .panic
      startInit p name

/-- `kinit`, from the initialised tables on. -/
def kinit : KM cfg Unit := do
  makeKernelPageTable
  assignInitProgram
  initPipes

/-- The machine when the scheduler starts for the first time. -/
def boot (cfg : Config) (mem : ℕ → UInt8) : Machine cfg :=
  match kinit (initKernel cfg mem) with
  | .ok _ k => ⟨k, k.trapFrame, .sched 0 (-1) false⟩
  | .error e k => ⟨k, k.trapFrame, .halted e⟩

/-- The machine as a transition system: it starts with a boot, on any content
    of the memory. -/
def machine (cfg : Config) : Transition.System (Machine cfg) (Event cfg) where
  init := {m | ∃ mem, m = boot cfg mem}
  step := step

end HobbyOs
