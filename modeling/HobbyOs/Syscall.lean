import HobbyOs.Proc

/-!
# System calls

`syscall.c` and `syscalls.c`: a system call is decoded from the registers in
`trap_frame`, runs, and leaves its result there. A call that blocked is resumed
where its `Kont` says (`resume`), and then ends the same way.
-/

namespace HobbyOs

variable {cfg : Config}

/-- The system calls, with their arguments. -/
inductive Call
  | exit
  | fork
  | read (fd buf size : ℕ)
  | write (fd buf size : ℕ)
  | open (filepath : ℕ)
  | close (fd : ℕ)
  | wait (cond : ℕ)
  | execv (filename argv : ℕ)
  | getpid
  | dup (fd : ℕ)
  | pipe (fds : ℕ)
  | sysinfo (info : ℕ)
  | sleep (milliseconds : ℕ)
  | plist (pids size : ℕ)
  | pinfo (pid pinfo : ℕ)
  | pgalloc
  | pgfree (page : ℕ)
  | gpio (pin enable value : ℕ)
  | detach
  | isopen (fd : ℤ)
  | pipeattch (pid : ℕ) (srcFd : ℤ)
  | lsdir (dir dirents size : ℕ)

/-- `syscall_vector`, with the arguments that the `sys_*` functions take from
    the registers. -/
def decodeCall (cfg : Config) (t : TrapFrame) : Option Call :=
  let a0 := t.regs TrapFrame.a0
  let a1 := t.regs TrapFrame.a1
  let a2 := t.regs TrapFrame.a2
  match int32 (t.regs TrapFrame.a7) with
  | 1 => some .exit
  | 2 => some .fork
  | 3 => some (.read (u32 a0) a1 (u32 a2))
  | 4 => some (.write (u32 a0) a1 (u32 a2))
  | 5 => some (.open a0)
  | 6 => some (.close (u32 a0))
  | 7 => some (.wait a0)
  | 11 => some (.execv a0 a1)
  | 20 => some .getpid
  | 28 => some (.dup (u32 a0))
  | 29 => some (.pipe a0)
  | 30 => some (.sysinfo a0)
  | 31 => some (.sleep a0)
  | 32 => some (.plist a0 (u32 a1))
  | 33 => some (.pinfo (u32 a0) a1)
  | 34 => some .pgalloc
  | 35 => some (.pgfree a0)
  | 36 => some (.gpio (u32 a0) (u32 a1) (u32 a2))
  | 37 => some .detach
  | 38 => some (.isopen (int32 a0))
  | 39 => some (.pipeattch (u32 a0) (int32 a1))
  | 40 => some (.lsdir a0 a1 (cfg.reg (int32 a2)))
  | _ => none

/-- A system call of the process `p`. -/
def runCall (p : Slot cfg) : Call → KM cfg ℤ
  | .exit => procExit p
  | .fork => procFork p
  | .read fd buf size => procRead p fd buf size
  | .write fd buf size => procWrite p fd buf size
  | .open filepath => procOpen p filepath
  | .close fd => procClose p fd
  | .wait cond => procWait p cond
  | .execv filename argv => procExecv p filename argv
  | .getpid => do return ((← get).procs p).pid
  | .dup fd => procDup p fd
  | .pipe fds => pipeOpen p fds
  | .sysinfo info => procSysinfo p info
  | .sleep ms => procSleep p ms
  | .plist pids size => procPlist p pids size
  | .pinfo pid pinfo => procPinfo p pid pinfo
  | .pgalloc => procPgalloc p
  | .pgfree page => procPgfree p page
  | .gpio pin enable value => return gpioDoSyscall pin enable value
  | .detach => procDetach p
  | .isopen fd => procIsopen p fd
  | .pipeattch pid srcFd => procPipeattch p pid srcFd
  | .lsdir dir dirents size => procLsdir p dir dirents size

/-- The end of `syscall`: the result goes to `a0`, and the sentinel of the
    kernel stack is checked. -/
def syscallTail (p : Slot cfg) (ret : ℤ) : KM cfg Unit := do
  modify fun k => { k with trapFrame := k.trapFrame.set TrapFrame.a0 (cfg.reg ret) }
  let k ← get
  if loadWord k.mem (k.procs p).magic 4 ≠ procMagicStackSentinel then throw .panic

/-- The user stack has overflowed: `syscall` returns at once, and the kernel
    loops. -/
def stackOverflow (k : Kernel cfg) (p : Slot cfg) : Prop :=
  va2pa k (k.procs p).upagetable (k.trapFrame.regs TrapFrame.sp) < (k.procs p).stackPage

instance (k : Kernel cfg) (p : Slot cfg) : Decidable (stackOverflow k p) :=
  inferInstanceAs (Decidable (_ < _))

/-- The call of the process: unknown numbers fail. -/
def dispatch (p : Slot cfg) : KM cfg ℤ := do
  match decodeCall cfg (← get).trapFrame with
  | some c => runCall p c
  | none =>
    setErrno p ENOSYS
    return -1

/-- `syscall`. -/
def syscall (p : Slot cfg) : KM cfg Unit := do
  setErrno p 0
  modify fun k => { k with trapFrame := { k.trapFrame with pc := cfg.reg (k.trapFrame.pc + 4) } }
  if stackOverflow (← get) p then throw .hang
  syscallTail p (← dispatch p)

/-! ## Going on -/

/-- The process `p` goes on from `psleep`, within a `proc_yield`: a child that
    has exited is freed, and the saved registers are restored. -/
def afterYield (p : Slot cfg) (call : Kont cfg) : KM cfg Unit := do
  let _ ← checkExitedChildren p call
  modify fun k => { k with trapFrame := (k.procs p).trap }

/-- What `p` does when the scheduler switches to it. -/
def resumeFrom (p : Slot cfg) : Kont cfg → KM cfg Unit
  | .forkret => do
    modify fun k => { k with trapFrame := (k.procs p).trap }
    release (.proc p)
  | .timerTick => return ()
  | .exited => syscallTail p 0
  | .waitChild => do
    let ret ← checkExitedChildren p .waitChild
    record (.waited ((← get).procs p).uid ret)
    syscallTail p ret
  | .waitCond q since want => do syscallTail p (← checkExitedChildren p (.waitCond q since want))
  | .sleep deadline => do syscallTail p (← checkExitedChildren p (.sleep deadline))
  | .pipeRead f i buf size => do
    afterYield p (.pipeRead f i buf size)
    let n ← pipeReadLoopTop p f i buf size
    syscallTail p (← readTail p f n)
  | .pipeWrite f i buf nbytes nwritten => do
    afterYield p (.pipeWrite f i buf nbytes nwritten)
    let n ← pipeWriteResume p f i buf nbytes nwritten
    syscallTail p (← writeTail p n)
  | .uartRead f buf size => do
    afterYield p (.uartRead f buf size)
    let n ← uartReadline p f buf size
    syscallTail p (← readTail p f n)

/-- `swtch` to `p`. -/
def resume (p : Slot cfg) : KM cfg Unit := do resumeFrom p ((← get).procs p).ctx

end HobbyOs
