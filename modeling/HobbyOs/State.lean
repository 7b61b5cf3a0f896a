import Mathlib.Logic.Function.Basic
import HobbyOs.Config
import HobbyOs.Lib.Outcome

/-!
# The state of the kernel

The tables of the kernel as data: processes (`proc.h`), file objects (`fs.h`),
pipes (`pipe.h`), pages (`pagealloc.h`), the baked-in file system
(`bakedinfs.h`) and the console (`uart.h`), together with the global
`trap_frame`, the spinlocks and the memories. Pointers into a table are indices
of it; a null pointer is `none`, or the address `0`.

* The kernel's own objects are typed and are not part of the byte memory `mem`,
  which holds what user addresses reach. Page tables are words of `pte`, the
  pages the kernel allocates for its own data (pipe buffers, temporary files)
  are bytes of `kmem`.
* What a process does when it is switched to is on its kernel stack and in its
  `ctx`; a `Kont` says where in the kernel it is, with the local variables that
  are still needed.
* `log` and `io` are *history*: the writes of the `state` field with their
  place in the code, the outcomes of `fork` and `wait`, and the bytes that went
  through pipes and user buffers. So are `uid` and `forker` of a process. No
  code reads them.

Code of the kernel is a computation `KM` over this state: it returns, or it
stops (`Stop`), by switching back to the scheduler or for good.
-/

namespace HobbyOs

/-- A slot of the process table: a `process_t*`. -/
abbrev Slot (cfg : Config) := Fin cfg.maxProcs

/-- `trap_frame_t`: all registers but `x0`, and the program counter. -/
structure TrapFrame where
  regs : Fin 31 → ℕ
  pc : ℕ

namespace TrapFrame

/-- The registers that the kernel accesses by name (`REG_*`). -/
abbrev ra : Fin 31 := 0
abbrev sp : Fin 31 := 1
abbrev tp : Fin 31 := 3
abbrev fp : Fin 31 := 7
abbrev a0 : Fin 31 := 9
abbrev a1 : Fin 31 := 10
abbrev a2 : Fin 31 := 11
abbrev a7 : Fin 31 := 16

/-- The frame with the register `r` set. -/
def set (t : TrapFrame) (r : Fin 31) (v : ℕ) : TrapFrame :=
  { t with regs := Function.update t.regs r v }

/-- The frame of zeroed memory. -/
def zero : TrapFrame := ⟨fun _ => 0, 0⟩

theorem eq_iff {t t' : TrapFrame} : t = t' ↔ (∀ r, t.regs r = t'.regs r) ∧ t.pc = t'.pc := by
  cases t
  cases t'
  simp [funext_iff]

instance : DecidableEq TrapFrame := fun _ _ => decidable_of_iff _ eq_iff.symm

end TrapFrame

/-! ## Files and pipes -/

/-- A `file_t*`: one of the three standard streams, or an entry of `ftable`. -/
inductive FileRef
  | stdin
  | stdout
  | stderr
  | ftable (i : Fin maxFiles)
  deriving DecidableEq

/-- The objects `file_t.fs_file` points to. -/
inductive FsPtr
  | null
  | bifs (j : Fin bifsMaxFiles)
  | pipe (i : Fin maxPipes)
  deriving DecidableEq

/-- The functions `file_t.read` points to. -/
inductive ReadFn
  | null
  | uart
  | bifs
  | pipe
  deriving DecidableEq

/-- The functions `file_t.write` points to. -/
inductive WriteFn
  | null
  | uart
  | bifs
  | pipe
  deriving DecidableEq

/-- `file_t`. Of `flags`, the code reads these three bits. -/
structure File where
  refcount : ℕ
  readable : Bool
  writable : Bool
  isPipe : Bool
  position : ℕ
  fsFile : FsPtr
  read : ReadFn
  write : WriteFn
  tmpfileMem : ℕ

/-- `pipe_t`, its `flags` as three bits. -/
structure Pipe where
  /-- `PIPE_FLAG_ALLOCATED`. -/
  allocated : Bool
  /-- `PIPE_FLAG_WRITE_CLOSED`. -/
  writeClosed : Bool
  /-- `PIPE_BUF_FULL`. -/
  bufFull : Bool
  buf : ℕ
  rf : Option FileRef
  wf : Option FileRef
  wpos : ℕ
  rpos : ℕ

/-- `pp->flags != 0`. -/
def Pipe.anyFlag (p : Pipe) : Bool := p.allocated || p.writeClosed || p.bufFull

/-! ## Processes -/

/-- `PROC_STATE_*`. -/
inductive PState
  | available
  | ready
  | running
  | sleeping
  | zombie
  deriving DecidableEq

/-- `PWAKE_COND_*`. -/
inductive CondType
  | chan
  | nscheds
  deriving DecidableEq

/-- `pwake_cond_t`. -/
structure WakeCond where
  type : CondType
  targetPid : ℕ
  wantNscheds : ℕ
  deriving DecidableEq

/-- The objects a process may wait on (`process_t.chan`). -/
inductive Chan (cfg : Config)
  | null
  | proc (q : Slot cfg)
  | pipe (i : Fin maxPipes)
  | uart0
  | bifs (j : Fin bifsMaxFiles)
  deriving DecidableEq

/-- `f->fs_file` as a channel. -/
def FsPtr.chan {cfg : Config} : FsPtr → Chan cfg
  | .null => .null
  | .bifs j => .bifs j
  | .pipe i => .pipe i

/-- Where a process is in the kernel when it is not running: the point it
    continues from when it is switched to, with its local variables. -/
inductive Kont (cfg : Config)
  /-- A fresh process: `forkret`. -/
  | forkret
  /-- In `kernel_timer_tick`, after `sched()`. -/
  | timerTick
  /-- In `proc_exit`, after its `swtch`. -/
  | exited
  /-- In `psleep`, called by `proc_wait(NULL)`. -/
  | waitChild
  /-- In `psleep`, called by `proc_wait_by_cond` for the process in `target`,
      scheduled `since` times then, to be scheduled `want` more times. -/
  | waitCond (target : Slot cfg) (since want : ℕ)
  /-- In `psleep`, called by `proc_sleep` until `deadline`. -/
  | sleep (deadline : ℕ)
  /-- In `proc_yield`, called by `pipe_read`. -/
  | pipeRead (f : FileRef) (q : Fin maxPipes) (buf size : ℕ)
  /-- In `proc_yield`, called by `pipe_write`. -/
  | pipeWrite (f : FileRef) (q : Fin maxPipes) (buf nbytes nwritten : ℕ)
  /-- In `proc_yield`, called by `uart_readline`. -/
  | uartRead (f : FileRef) (buf size : ℕ)
  deriving DecidableEq

/-- The channel of the `proc_yield` a process is in. -/
def Kont.yieldChan {cfg : Config} : Kont cfg → Option (Chan cfg)
  | .pipeRead _ q _ _ | .pipeWrite _ q _ _ _ => some (.pipe q)
  | .uartRead _ _ _ => some .uart0
  | _ => none

/-- What scheduling works on of a `process_t`. -/
structure PCore (cfg : Config) where
  state : PState
  pid : ℕ
  parent : Option (Slot cfg)
  /-- The saved user registers. -/
  trap : TrapFrame
  ctx : Kont cfg
  wakeupTime : ℕ
  chan : Chan cfg
  cond : WakeCond
  nscheds : ℕ
  /-- History: the number of the creation that filled the slot; never reused. -/
  uid : ℕ
  /-- History: the `uid` of the process that forked this one. -/
  forker : Option ℕ

/-- `process_t`. -/
structure Proc (cfg : Config) extends PCore cfg where
  usatp : ℕ
  upagetable : ℕ
  name : Option (List UInt8)
  stackPage : ℕ
  perrno : ℕ
  magic : ℕ
  kstackPage : ℕ
  files : Fin maxProcFds → Option FileRef
  procfsDir : Option (Fin bifsMaxDirs)
  piddir : List UInt8
  procfsNameFile : Option (Fin bifsMaxFiles)

/-! ## Pages -/

abbrev pageFree : ℕ := 0
abbrev pageAllocated : ℕ := 1
abbrev pageUsermem : ℕ := 2

/-- `page_t`, less the allocation site and the address, which is fixed
    (`Config.pagePtr`). -/
structure Page where
  flags : ℕ
  pid : ℕ
  deriving DecidableEq

/-! ## The baked-in file system -/

abbrev bifsReadable : ℕ := 1
abbrev bifsRaw : ℕ := 4
abbrev bifsTmpfile : ℕ := 16

/-- A `char*` naming a directory or a file: a literal, or the `piddir` of a
    process slot. -/
inductive BifsName (cfg : Config)
  | lit (s : List UInt8)
  | piddir (q : Slot cfg)

/-- `bifs_directory_t.lsdir`. -/
inductive LsdirFn
  | bifs
  | bin
  deriving DecidableEq

/-- `bifs_directory_t`. -/
structure BifsDir (cfg : Config) where
  flags : ℕ
  name : Option (BifsName cfg)
  parent : Option (Fin bifsMaxDirs)
  lsdir : LsdirFn

/-- `bifs_file_t.data`: a literal, or a page of a temporary file. -/
inductive BifsData
  | null
  | lit (s : List UInt8)
  | page (a : ℕ)

/-- `bifs_file_t.dataquery`: `procfs_stats_data_func` of a process, or
    `procfs_sysmem_data_func`. -/
inductive DataQuery (cfg : Config)
  | null
  | stats (q : Slot cfg)
  | sysmem

/-- `bifs_file_t`. -/
structure BifsFile (cfg : Config) where
  flags : ℕ
  name : Option (List UInt8)
  parent : Option (Fin bifsMaxDirs)
  data : BifsData
  dataquery : DataQuery cfg

/-! ## The console -/

/-- `uart_state_t`: the receiving side. -/
structure Uart where
  rxbuf : ℕ → UInt8
  rxRpos : ℕ
  rxWpos : ℕ
  rxNumNewlines : ℤ
  rxBuffFull : Bool

/-! ## Locks -/

/-- The spinlocks. -/
inductive Lock (cfg : Config)
  | proc (q : Slot cfg)
  | procTable
  | ftable
  | pagedMemory
  | pipes
  | pipe (i : Fin maxPipes)
  deriving DecidableEq

/-! ## History -/

/-- The places of the code that write the `state` of a process. -/
inductive Site (cfg : Config)
  /-- `scheduler`: `should_wake_up` said so. -/
  | wakeup
  /-- `scheduler`: the process is run. -/
  | scheduler
  /-- `sched`: the running process is preempted. -/
  | sched
  /-- `init_proc`. -/
  | initProc
  /-- `proc_exit`: the exiting process itself. -/
  | exit
  /-- `proc_exit` of the process `child`, forked by `forker`: its parent. -/
  | exitParent (child : ℕ) (forker : Option ℕ)
  /-- `check_exited_children`, within the call that `call` is the wait of. -/
  | reap (call : Kont cfg)
  /-- `psleep`. -/
  | psleep
  /-- `update_proc_by_chan`, for a `PWAKE_COND_CHAN`. -/
  | chan (c : Chan cfg)
  /-- `update_proc_by_chan`, for a `PWAKE_COND_NSCHEDS`: the pid and the count
      it read. -/
  | nscheds (c : Chan cfg) (pid nscheds : ℕ)
  /-- `proc_detach` of the process `child`, forked by `forker`: its parent. -/
  | detach (child : ℕ) (forker : Option ℕ)

/-- A write of the `state` of a process. -/
structure Change (cfg : Config) where
  slot : Slot cfg
  /-- The process before the write. -/
  old : PCore cfg
  new : PState
  site : Site cfg
  /-- The `uid` of the process on the CPU. -/
  by_ : Option ℕ
  now : ℕ

/-- What `log` records. -/
inductive Ev (cfg : Config)
  | change (c : Change cfg)
  /-- A creation that succeeded. -/
  | created (uid : ℕ)
  /-- `proc_wait(NULL)`, called by the process `uid`, returned. -/
  | waited (uid : ℕ) (ret : ℤ)

/-- What `io` records. -/
inductive Io
  /-- `pipe_do_write` took these bytes. -/
  | accepted (q : Fin maxPipes) (bytes : List UInt8)
  /-- `pipe_read` handed out these bytes. -/
  | delivered (q : Fin maxPipes) (bytes : List UInt8)
  /-- Bytes stored to a user buffer, from the physical address `pa` on. -/
  | store (pa n : ℕ)
  /-- Bytes fetched from a user buffer. -/
  | load (pa n : ℕ)

/-! ## The kernel -/

/-- The part of the state that scheduling is about. -/
@[ext]
structure Core (cfg : Config) where
  procs : Slot cfg → PCore cfg
  numProcs : ℤ
  pidCounter : ℕ
  cpuProc : Option (Slot cfg)
  now : ℕ
  overlay : Chan cfg → ℕ × ℕ
  log : List (Ev cfg)

/-- The state of the kernel. -/
structure Kernel (cfg : Config) where
  /-- `proc_table`. The counter of pids is not reduced; a pid is (`alloc_pid`). -/
  procs : Slot cfg → Proc cfg
  numProcs : ℤ
  pidCounter : ℕ
  /-- The global `trap_frame`. -/
  trapFrame : TrapFrame
  /-- `thiscpu()->proc`. -/
  cpuProc : Option (Slot cfg)
  /-- The time, as `time_get_now` reads it. -/
  now : ℕ
  /-- `unsleep_scheduler`. -/
  unsleepScheduler : Bool
  /-- What is read as `pid` and `nscheds` through a channel that is taken for a
      process but is not one. -/
  overlay : Chan cfg → ℕ × ℕ
  /-- `paged_memory`. -/
  pages : Fin cfg.numPages → Page
  /-- The standard streams and `ftable`. -/
  files : FileRef → File
  pipes : Fin maxPipes → Pipe
  dirs : Fin bifsMaxDirs → BifsDir cfg
  bfiles : Fin bifsMaxFiles → BifsFile cfg
  uart0 : Uart
  /-- The locks that are held. -/
  held : Lock cfg → Bool
  /-- The physical memory that user addresses reach. -/
  mem : ℕ → UInt8
  /-- The pages of the kernel's own data: page, offset. -/
  kmem : ℕ → ℕ → UInt8
  /-- The words of page tables, by physical address. -/
  pte : ℕ → ℕ
  log : List (Ev cfg)
  io : List Io

/-- Why a computation of the kernel does not return. -/
inductive Stop (cfg : Config)
  /-- `swtch` to the scheduler. -/
  | switch
  /-- `acquire` of a lock that is held: it spins forever. -/
  | deadlock (l : Lock cfg)
  /-- `panic`. -/
  | panic
  /-- The kernel loops in `exception_epilogue`. -/
  | hang
  /-- An access to a process through a null pointer. -/
  | nullProcess
  /-- An access through another null pointer, or past the end of memory. -/
  | fault
  /-- An access outside of an array, or to an object of another type. -/
  | outOfBounds
  deriving DecidableEq

/-- The kernel halts: it neither switches to the scheduler nor spins on a lock. -/
def Stop.isHalt {cfg : Config} : Stop cfg → Prop
  | .panic | .hang | .nullProcess | .fault | .outOfBounds => True
  | .switch | .deadlock _ => False

/-- Code of the kernel. -/
abbrev KM (cfg : Config) := EStateM (Stop cfg) (Kernel cfg)

variable {cfg : Config}

namespace Kernel

/-- What scheduling works on. -/
def core (k : Kernel cfg) : Core cfg where
  procs q := (k.procs q).toPCore
  numProcs := k.numProcs
  pidCounter := k.pidCounter
  cpuProc := k.cpuProc
  now := k.now
  overlay := k.overlay
  log := k.log

/-- The table with the process of a slot replaced. -/
def setProc (k : Kernel cfg) (q : Slot cfg) (p : Proc cfg) : Kernel cfg :=
  { k with procs := Function.update k.procs q p }

/-- The kernel with a file object replaced. -/
def setFile (k : Kernel cfg) (f : FileRef) (x : File) : Kernel cfg :=
  { k with files := Function.update k.files f x }

/-- The kernel with a pipe replaced. -/
def setPipe (k : Kernel cfg) (i : Fin maxPipes) (x : Pipe) : Kernel cfg :=
  { k with pipes := Function.update k.pipes i x }

/-- The kernel with a lock taken or released. -/
def setHeld (k : Kernel cfg) (l : Lock cfg) (b : Bool) : Kernel cfg :=
  { k with held := Function.update k.held l b }

/-- `p->state = new`, at a place of the code. -/
def setState (k : Kernel cfg) (q : Slot cfg) (new : PState) (site : Site cfg) : Kernel cfg :=
  let p := k.procs q
  { k.setProc q { p with state := new } with
    log := .change ⟨q, p.toPCore, new, site, k.cpuProc.map fun c => (k.procs c).uid, k.now⟩ :: k.log }

end Kernel

/-! ## Primitive computations -/

/-- `acquire`: on a single hart, a lock that is held is never released while
    its next owner spins on it. -/
def acquire (l : Lock cfg) : KM cfg Unit := do
  let k ← get
  if k.held l then throw (.deadlock l) else modify (·.setHeld l true)

/-- `release`. -/
def release (l : Lock cfg) : KM cfg Unit := modify (·.setHeld l false)

/-- Code between an `acquire` and the `release` that every way out of it ends
    with. -/
def withLock {α : Type} (l : Lock cfg) (body : KM cfg α) : KM cfg α := do
  acquire l
  let a ← body
  release l
  return a

/-- An update of a process. -/
def modifyProc (q : Slot cfg) (f : Proc cfg → Proc cfg) : KM cfg Unit :=
  modify fun k => k.setProc q (f (k.procs q))

/-- `p->state = new`. -/
def setState (q : Slot cfg) (new : PState) (site : Site cfg) : KM cfg Unit :=
  modify (·.setState q new site)

/-- Recording an event. -/
def record (e : Ev cfg) : KM cfg Unit := modify fun k => { k with log := e :: k.log }

/-! ## Memory -/

/-- The memory with `bs` stored from `a` on. -/
def storeBytes (mem : ℕ → UInt8) (a : ℕ) (bs : List UInt8) : ℕ → UInt8 :=
  fun x => if a ≤ x ∧ x < a + bs.length then bs.getD (x - a) 0 else mem x

/-- The `n` bytes from `a` on. -/
def loadBytes (mem : ℕ → UInt8) (a n : ℕ) : List UInt8 := (List.range n).map fun i => mem (a + i)

/-- A little-endian word of `n` bytes. -/
def loadWord (mem : ℕ → UInt8) (a : ℕ) : ℕ → ℕ
  | 0 => 0
  | n + 1 => (mem a).toNat + 256 * loadWord mem (a + 1) n

/-- The `n` bytes of a word. -/
def bytesOfWord (v : ℕ) : ℕ → List UInt8
  | 0 => []
  | n + 1 => (v % 256).toUInt8 :: bytesOfWord (v / 256) n

/-- The bytes of the C string at `a`, if it ends within `n` bytes. -/
def cString (mem : ℕ → UInt8) : ℕ → ℕ → Option (List UInt8)
  | 0, _ => none
  | n + 1, a => if mem a = 0 then some [] else (cString mem n (a + 1)).map (mem a :: ·)

/-- Storing to memory. -/
def store (a : ℕ) (bs : List UInt8) : KM cfg Unit :=
  modify fun k => { k with mem := storeBytes k.mem a bs }

/-- `*proc->perrno = e`. -/
def setErrno (p : Slot cfg) (e : ℕ) : KM cfg Unit :=
  modify fun k => { k with mem := storeBytes k.mem (k.procs p).perrno (bytesOfWord e cfg.regSz) }

/-- The C string at an address; the access past the end of memory faults, as
    does the one through a null pointer. -/
def readString (a : ℕ) : KM cfg (List UInt8) := do
  let k ← get
  match if a = 0 then none else cString k.mem (cfg.memEnd - a) a with
  | some s => return s
  | none => throw .fault

end HobbyOs
