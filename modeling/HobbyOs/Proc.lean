import HobbyOs.Fs

/-!
# Processes

`proc.c`: creation, programs, exit, waiting, and the system calls on
descriptors and memory. `myproc()` is the parameter `p` of these functions.

* A function returns the value that the system call returns; `-1` with `errno`
  set tells an error.
* A call that blocks ends in `psleep`; its `Kont` keeps what it needs to go on.
* What is read through a null pointer faults; a descriptor outside of the array
  of open files is an access out of bounds.
-/

namespace HobbyOs

variable {cfg : Config}

/-! ## Creation -/

/-- `alloc_pid`. -/
def allocPid : KM cfg ℕ :=
  withLock .procTable do
    let n := (← get).pidCounter
    modify fun k => { k with pidCounter := n + 1 }
    return n

/-- The loop of `alloc_process`, at one slot: its lock stays held when it is
    available. -/
def trySlot (q : Slot cfg) : KM cfg (Option (Slot cfg)) := do
  if (← get).cpuProc = some q then return none
  acquire (.proc q)
  if ((← get).procs q).state = .available then return some q
  release (.proc q)
  return none

/-- `alloc_process`; the lock of the slot stays held. -/
def allocProcess : KM cfg (Option (Slot cfg)) :=
  withLock .procTable ((List.finRange cfg.maxProcs).findSomeM? trySlot)

/-- `_set_perrno`: the last word of the stack. -/
def setPerrno (cfg : Config) (sp : ℕ) : ℕ := sp + cfg.userStackSize - cfg.regSz

/-- The page right below the user stack. -/
def guardPage (cfg : Config) : ℕ := topmostVirtPage - cfg.pageSize

/-- The user stack, and the guard page below it, in a page table. -/
def mapStack (pt sp pid : ℕ) : KM cfg Unit := do
  mapPageSv39 pt sp topmostVirtPage permUdata pid
  mapPageSv39 pt 0 (guardPage cfg) permKdata pid

abbrev procMagicStackSentinel : ℕ := 0xdeadf00d

/-- The file `stats` of a process, the last part of `init_procfs_files`. -/
def procfsStatsFile (q : Slot cfg) (dir : Fin bifsMaxDirs) : KM cfg ℤ := do
  match ← bifsAllocateFile with
  | none => return -ENFILE
  | some j =>
    modify fun k => { k with bfiles := Function.update k.bfiles j { k.bfiles j with
      parent := some dir, flags := bifsReadable ||| bifsRaw ||| bifsTmpfile,
      name := some (ascii "stats"), dataquery := .stats q } }
    return 0

/-- The second half of `init_procfs_files`, with the directory made: the file
    `name`, and the other one. -/
def procfsFiles (q : Slot cfg) (name : Option (List UInt8)) (dir : Fin bifsMaxDirs) : KM cfg ℤ := do
  let nameFile ← bifsAllocateFile
  modifyProc q fun x => { x with procfsNameFile := nameFile }
  match nameFile with
  | none => return -ENFILE
  | some j =>
    modify fun k => { k with bfiles := Function.update k.bfiles j { k.bfiles j with
      parent := some dir, flags := bifsReadable ||| bifsRaw, name := some (ascii "name"),
      data := .lit (name.getD []) } }
    procfsStatsFile q dir

/-- `init_procfs_files`: `0`, or an error. -/
def initProcfsFiles (q : Slot cfg) (name : Option (List UInt8)) : KM cfg ℤ := do
  match itoa maxFilenameLen ((← get).procs q).pid with
  | none => return -ENOBUFS
  | some text =>
    modifyProc q fun x => { x with piddir := text }
    let dir ← bifsMkdir (ascii "/proc") (.piddir q)
    modifyProc q fun x => { x with procfsDir := dir }
    match dir with
    | none => return -ENFILE
    | some dir => procfsFiles q name dir

/-- The first half of `init_proc`: the pages of the process, all or none of
    them. Its page tables are filled in, with an MMU. -/
def initProcPages (q : Slot cfg) : KM cfg (Option (ℕ × ℕ)) := do
  let pid := ((← get).procs q).pid
  match ← kalloc pid with
  | none => return none
  | some sp =>
    match ← kalloc pid with
    | none =>
      releasePage sp
      return none
    | some ksp =>
      if cfg.mmu then
        match ← kalloc pid with
        | none =>
          releasePage sp
          releasePage ksp
          return none
        | some pt =>
          modifyProc q fun x => { x with upagetable := pt, usatp := makeSatp cfg pt }
          initUserPageTable pt pid
          mapStack pt sp pid
      return some (sp, ksp)

/-- The stack pointer of a fresh process. -/
def initialSp (cfg : Config) (sp : ℕ) : ℕ :=
  stkRound (cfg.reg (cfg.usrStkVirt sp + cfg.userStackSize - cfg.regSz))

/-- The fields that `init_proc` sets once the pages are there. -/
def freshProc (x : Proc cfg) (sp ksp pc tp : ℕ) (name : Option (List UInt8)) : Proc cfg :=
  { x with
    name := name
    trap := { (x.trap.set TrapFrame.sp (initialSp cfg sp)).set TrapFrame.tp tp with pc := pc }
    stackPage := sp
    perrno := setPerrno cfg sp
    kstackPage := ksp
    files := fun i =>
      if i = 0 then some .stdin else if i = 1 then some .stdout else if i = 2 then some .stderr else none
    ctx := .forkret
    nscheds := 0
    cond := ⟨.chan, noPid, 0⟩
    magic := ksp }

/-- The second half of `init_proc`: with the pages there, the process is ready,
    gets its files in `/proc`, and is counted. -/
def fillProc (q : Slot cfg) (pc : ℕ) (name : Option (List UInt8)) (sp ksp : ℕ) : KM cfg ℤ := do
  let tp := (← get).trapFrame.regs TrapFrame.tp
  modifyProc q fun x => freshProc x sp ksp pc tp name
  setState q .ready .initProc
  store ksp (bytesOfWord procMagicStackSentinel 4)
  let status ← initProcfsFiles q name
  if status ≠ 0 then return status
  withLock .procTable do modify fun k => { k with numProcs := k.numProcs + 1 }
  return 0

/-- `init_proc`: `0`, or an error. -/
def initProc (q : Slot cfg) (pc : ℕ) (name : Option (List UInt8)) : KM cfg ℤ := do
  let n ← allocPid
  modifyProc q fun x => { x with pid := n % 2 ^ 32, uid := n, forker := none }
  match ← initProcPages q with
  | none => return -ENOMEM
  | some (sp, ksp) => fillProc q pc name sp ksp

/-! ## Fork -/

/-- `copy_files`. -/
def copyFiles (dst src : Slot cfg) : KM cfg Unit :=
  (List.finRange maxProcFds).forM fun i => do
    let pf := ((← get).procs src).files i
    match pf with
    | none => pure ()
    | some f =>
      modify fun k => k.setFile f { k.files f with refcount := u32 ((k.files f).refcount + 1) }
    modifyProc dst fun x => { x with files := Function.update x.files i pf }

/-- `reoffset_user_stack`. -/
def reoffsetUserStack (dest src : Proc cfg) (r : Fin 31) : ℕ :=
  let offset := cfg.reg (src.trap.regs r - cfg.usrVirt src.stackPage)
  cfg.usrVirt (cfg.reg (dest.stackPage + offset))

/-- The user registers of a forked process: those of its parent, with the stack
    moved and `a0` zero. -/
def childTrap (child parent : Proc cfg) : TrapFrame :=
  let t := parent.trap
  let t := if cfg.mmu then t else
    (t.set TrapFrame.sp (reoffsetUserStack child parent TrapFrame.sp)).set TrapFrame.fp
      (reoffsetUserStack child parent TrapFrame.fp)
  t.set TrapFrame.a0 0

/-- What `proc_fork` copies to the child: the stacks, the files, and the page
    table, with an MMU. -/
def copyProcess (p q : Slot cfg) : KM cfg Unit := do
  let k ← get
  copyPage (k.procs q).stackPage (k.procs p).stackPage
  copyPage (k.procs q).kstackPage (k.procs p).kstackPage
  copyFiles q p
  copyPageTable (k.procs q).upagetable (k.procs p).upagetable (k.procs q).pid
  mapStack (k.procs q).upagetable (k.procs q).stackPage (k.procs q).pid

/-- The second half of `proc_fork`: the child becomes a copy of its parent. -/
def forkChild (p q : Slot cfg) : KM cfg ℤ := do
  modify fun k => k.setProc q { k.procs q with parent := some p, forker := some (k.procs p).uid }
  copyProcess p q
  modify fun k => k.setProc q { k.procs q with trap := childTrap (k.procs q) (k.procs p) }
  release (.proc q)
  let child := (← get).procs q
  modify fun k => { k with trapFrame := k.trapFrame.set TrapFrame.a0 child.pid }
  record (.created child.uid)
  return child.pid

/-- `proc_fork`. Without a slot, the lock of the null process is released. -/
def procFork (p : Slot cfg) : KM cfg ℤ := do
  modify fun k => k.setProc p { k.procs p with trap := k.trapFrame }
  match ← allocProcess with
  | none =>
    setErrno p ENOMEM
    throw .nullProcess
  | some q =>
    let status ← initProc q (← get).trapFrame.pc none
    if status ≠ 0 then
      setErrno p (-status).toNat
      release (.proc q)
      return -1
    else forkChild p q

/-! ## Programs -/

/-- `len_argv`: the number of words at `argv` before a null word. -/
def lenArgv (k : Kernel cfg) (argv : ℕ) : ℕ → Option ℕ
  | 0 => none
  | n + 1 =>
    if loadWord k.mem argv cfg.regSz = 0 then some 0
    else (lenArgv k (argv + cfg.regSz) n).map (· + 1)

/-- The loop of `copy_argv` over the arguments `i`, downwards from `spc`; the
    strings are not in the page they are copied to. -/
def copyArgvLoop (p : Slot cfg) (argv sp : ℕ) : List ℕ → ℕ → KM cfg ℕ
  | [], spc => return spc
  | i :: is, spc => do
    let k ← get
    let str := va2pa k (k.procs p).upagetable (loadWord k.mem (argv + cfg.regSz * i) cfg.regSz)
    let s ← readString str
    -- `*spc-- = 0`, and then the string with its own zero
    let dst := spc - 1 - s.length
    store dst (s ++ [0, 0])
    store (sp + cfg.regSz * i) (bytesOfWord (cfg.usrStkVirt dst) cfg.regSz)
    copyArgvLoop p argv sp is (dst - 1)

/-- `copy_argv`: the new stack pointer and the new `argv`. -/
def copyArgv (p : Slot cfg) (sp argc argv : ℕ) : KM cfg (ℕ × ℕ) := do
  if argc = 0 ∨ argv = 0 then return (sp, 0)
  store sp (bytesOfWord 0 cfg.regSz)
  let sp := sp - cfg.regSz - cfg.regSz * argc
  let spc ← copyArgvLoop p argv sp (List.range argc) (sp - 1)
  return (stkRound spc, sp)

/-- The registers of a program that starts with these arguments. -/
def execTrap (cfg : Config) (t : TrapFrame) (sp argc argv : ℕ) : TrapFrame :=
  ((((t.set TrapFrame.ra t.pc).set TrapFrame.sp (cfg.usrStkVirt sp)).set TrapFrame.fp
    (cfg.usrStkVirt sp)).set TrapFrame.a0 argc).set TrapFrame.a1 (cfg.usrStkVirt argv)

/-- `proc_execv` once the program and a page for its stack are there. -/
def execProgram (p : Slot cfg) (prog : ℕ × List UInt8) (sp argv : ℕ) : KM cfg ℤ := do
  modifyProc p fun x => { x with
    trap := { x.trap with pc := cfg.usrVirt (cfg.entry prog.1) }
    name := some prog.2
    perrno := setPerrno cfg sp }
  let k ← get
  let argv := va2pa k (k.procs p).upagetable argv
  match if argv = 0 then some 0 else lenArgv k argv (cfg.memEnd - argv) with
  | none => throw .fault
  | some argc =>
    let (newSp, newArgv) ← copyArgv p (sp + cfg.userStackSize - 2 * cfg.regSz) argc argv
    mapStack (k.procs p).upagetable sp (k.procs p).pid
    releasePage (k.procs p).stackPage
    modifyProc p fun x => { x with
      stackPage := sp, trap := execTrap cfg x.trap newSp argc newArgv }
    modify fun k => { k with trapFrame := (k.procs p).trap }
    match (k.procs p).procfsNameFile with
    | none => throw .fault
    | some j =>
      modify fun k => { k with
        bfiles := Function.update k.bfiles j { k.bfiles j with data := .lit prog.2 } }
      release (.proc p)
      return argc

/-- `proc_execv`. The error paths keep the lock. -/
def procExecv (p : Slot cfg) (filename argv : ℕ) : KM cfg ℤ := do
  acquire (.proc p)
  let k ← get
  let filename := va2pa k (k.procs p).upagetable filename
  if filename = 0 then
    setErrno p EINVAL
    return -1
  -- `find_user_program` looks at 16 characters of the name
  match findUserProgram ((loadBytes k.mem filename 17).takeWhile (· ≠ 0)) with
  | none =>
    setErrno p ENOENT
    return -1
  | some prog =>
    match ← kalloc (k.procs p).pid with
    | none =>
      setErrno p ENOMEM
      return -1
    | some sp => execProgram p prog sp argv

/-! ## Exit and waiting -/

/-- `proc_exit` makes the parent `r` ready, and takes its registers. -/
def wakeParent (x : Proc cfg) (r : Slot cfg) : KM cfg Unit :=
  withLock (.proc r) do
    setState r .ready (.exitParent x.uid x.forker)
    modify fun k => { k with trapFrame := (k.procs r).trap }

/-- `proc_exit` closes the files of the process. -/
def closeFiles (files : Fin maxProcFds → Option FileRef) : KM cfg Unit :=
  (List.finRange maxProcFds).forM fun i =>
    match files i with
    | none => pure ()
    | some f => fsFreeFile f

/-- The end of `proc_exit`: the files in `/proc` are gone, and the process is
    not counted any more. The other file in `/proc` is left behind. -/
def leaveTable (p : Slot cfg) (x : Proc cfg) : KM cfg ℤ := do
  match x.procfsDir, x.procfsNameFile with
  | some d, some j =>
    modify fun k => { k with dirs := Function.update k.dirs d { k.dirs d with flags := 0 } }
    modify fun k => { k with bfiles := Function.update k.bfiles j { k.bfiles j with flags := 0 } }
    withLock .procTable do modify fun k => { k with numProcs := k.numProcs - 1 }
    modifyProc p fun x => { x with ctx := .exited }
    throw .switch
  | _, _ => throw .fault

/-- `proc_exit`, up to its `swtch`. -/
def procExit (p : Slot cfg) : KM cfg ℤ := do
  releasePage ((← get).procs p).stackPage
  freePageTable ((← get).procs p).upagetable
  setState p .zombie .exit
  let x := (← get).procs p
  match x.parent with
  | none => throw .nullProcess
  | some r =>
    wakeParent x r
    closeFiles x.files
    leaveTable p x

/-- `find_proc_by_pid`: whatever the state of the slot is. -/
def findProcByPid (k : Kernel cfg) (pid : ℕ) : Option (Slot cfg) :=
  (List.finRange cfg.maxProcs).find? fun q => (k.procs q).pid = pid

/-- `WAIT_COND_NSCHEDS`. -/
abbrev waitCondNscheds : ℕ := 1

/-- `proc_wait_by_cond`. -/
def procWaitByCond (p : Slot cfg) (type targetPid wantNscheds : ℕ) : KM cfg ℤ := do
  if type ≠ waitCondNscheds then
    setErrno p ENOSYS
    return -1
  let k ← get
  match findProcByPid k targetPid with
  | none =>
    setErrno p ESRCH
    return -1
  | some q =>
    let since := (k.procs q).nscheds
    modifyProc p fun x => { x with
      cond := ⟨.nscheds, targetPid, (wantNscheds + since) % 2 ^ 64⟩, chan := .proc q }
    psleep p (.waitCond q since wantNscheds)

/-- `proc_wait`, without a condition. -/
def procWaitChild (p : Slot cfg) : KM cfg ℤ := do
  let pid ← checkExitedChildren p .waitChild
  if 0 ≤ pid then
    record (.waited ((← get).procs p).uid pid)
    return pid
  psleep p .waitChild

/-- `proc_wait`. -/
def procWait (p : Slot cfg) (cond : ℕ) : KM cfg ℤ := do
  let k ← get
  let cond := va2pa k (k.procs p).upagetable cond
  if cond ≠ 0 then
    procWaitByCond p (loadWord k.mem cond 4) (loadWord k.mem (cond + 4) 4)
      (loadWord k.mem (cond + 8) 8)
  else procWaitChild p

/-- `proc_sleep`. -/
def procSleep (p : Slot cfg) (milliseconds : ℕ) : KM cfg ℤ := do
  let deadline := ((← get).now + cfg.oneSecond / 1000 * milliseconds) % 2 ^ 64
  modifyProc p fun x => { x with wakeupTime := deadline }
  psleep p (.sleep deadline)

/-- `proc_detach`. -/
def procDetach (p : Slot cfg) : KM cfg ℤ := do
  let x := (← get).procs p
  match x.parent with
  | none => return 0
  | some r =>
    withLock (.proc p) do modifyProc p fun x => { x with parent := none }
    withLock (.proc r) do
      if ((← get).procs r).state = .sleeping then
        setState r .ready (.detach x.uid x.forker)
    return 0

/-! ## Information -/

/-- `PROC_STATE_*` as a number. -/
def PState.code : PState → ℕ
  | .available => 0
  | .ready => 1
  | .running => 2
  | .sleeping => 3
  | .zombie => 4

/-- `proc_plist`. -/
def procPlist (p : Slot cfg) (pids size : ℕ) : KM cfg ℤ := do
  let k ← get
  let pids := va2pa k (k.procs p).upagetable pids
  if pids = 0 ∨ size < cfg.maxProcs then
    setErrno p EINVAL
    return -1
  withLock .procTable do
    let k ← get
    let live := (List.finRange cfg.maxProcs).filter fun q => (k.procs q).state ≠ .available
    store pids (live.flatMap fun q => bytesOfWord (k.procs q).pid 4)
    return live.length

/-- What `proc_pinfo` stores, at the offsets of a `pinfo_t`. -/
def storePinfo (pinfo : ℕ) (q : Slot cfg) : KM cfg Unit := do
  let x := (← get).procs q
  match x.name with
  | none => throw .fault
  | some name =>
    store pinfo (bytesOfWord x.pid 4)
    store (pinfo + 4) (strncpy name 16)
    store (pinfo + 20) (bytesOfWord x.state.code 4)
    store (pinfo + 24) (bytesOfWord x.nscheds 8)

/-- `proc_pinfo`. -/
def procPinfo (p : Slot cfg) (pid pinfo : ℕ) : KM cfg ℤ := do
  let k ← get
  let pinfo := va2pa k (k.procs p).upagetable pinfo
  if pinfo = 0 then return -1
  withLock .procTable do
    let k ← get
    match findProcByPid k pid with
    | none => return 0
    | some q =>
      if pid ≠ (k.procs p).pid then withLock (.proc q) (storePinfo pinfo q)
      else storePinfo pinfo q
      return 0

/-- `proc_sysinfo`. -/
def procSysinfo (p : Slot cfg) (info : ℕ) : KM cfg ℤ := do
  let k ← get
  let info := va2pa k (k.procs p).upagetable info
  withLock .procTable do
    if info = 0 then throw .fault
    store (info + 8) (bytesOfWord (u32 (← get).numProcs) 4)
  withLock .pagedMemory do
    let k ← get
    store info (bytesOfWord cfg.numPages 4 ++ bytesOfWord (countFreePages k) 4)
    let tail := if cfg.xlen = 32 then info + 12 else info + 16
    store tail (bytesOfWord cfg.heapStart cfg.regSz ++
      bytesOfWord (cfg.pageRoundUp cfg.heapStart) cfg.regSz)
  return 0

/-- `gpio_do_syscall`, less the device. -/
def gpioDoSyscall (pin enable value : ℕ) : ℤ :=
  if pin = 16 ∨ pin = 17 then -1
  else if pin = 4 then -2
  else if pin = 10 then -3
  else if enable = 0 ∨ enable = 1 then 0
  else if enable = noPid then if value ≤ 2 then 0 else -4
  else -5

/-! ## Descriptors -/

/-- `proc->files[fd]`. -/
def fileOf (p : Slot cfg) (fd : ℤ) : KM cfg (Option FileRef) := do
  if h : 0 ≤ fd ∧ fd.toNat < maxProcFds then return ((← get).procs p).files ⟨fd.toNat, h.2⟩
  else throw .outOfBounds

/-- `proc->files[fd] = f`. -/
def setFd (p : Slot cfg) (fd : ℕ) (f : Option FileRef) : KM cfg Unit := do
  if h : fd < maxProcFds then
    modifyProc p fun x => { x with files := Function.update x.files ⟨fd, h⟩ f }
  else throw .outOfBounds

/-- `proc_open` once there is a file object. -/
def openFile (p : Slot cfg) (f : FileRef) (path : ℕ) : KM cfg ℤ :=
  withLock (.proc p) do
    match ← fdAlloc p f with
    | none =>
      setErrno p EMFILE
      return -1
    | some fd =>
      let status ← fsOpen p f (← readString path)
      if status < 0 then
        setFd p fd none
        setErrno p (-status).toNat
        return -1
      return (fd : ℕ)

/-- `proc_open`. -/
def procOpen (p : Slot cfg) (filepath : ℕ) : KM cfg ℤ := do
  let k ← get
  let path := va2pa k (k.procs p).upagetable filepath
  if path = 0 then
    setErrno p EINVAL
    return -1
  match ← fsAllocFile with
  | none =>
    setErrno p ENFILE
    return -1
  | some f => openFile p f path

/-- The end of `proc_read`, after `fs_read`. -/
def readTail (p : Slot cfg) (f : FileRef) (nread : ℤ) : KM cfg ℤ := do
  if nread < 0 then
    setErrno p (-nread).toNat
    return -1
  modify fun k => k.setFile f { k.files f with position := u32 ((k.files f).position + nread) }
  return nread

/-- `proc_read`. -/
def procRead (p : Slot cfg) (fd buf size : ℕ) : KM cfg ℤ := do
  match ← fileOf p fd with
  | none =>
    setErrno p EBADF
    return -1
  | some f =>
    let k ← get
    let buf := va2pa k (k.procs p).upagetable buf
    if buf = 0 then
      setErrno p EINVAL
      return -1
    readTail p f (← fsRead p f (k.files f).position buf size)

/-- The end of `proc_write`, after `fs_write`. -/
def writeTail (p : Slot cfg) (status : ℤ) : KM cfg ℤ := do
  if status < 0 then
    setErrno p (-status).toNat
    return -1
  return status

/-- The size of a write; when it is `-1`, the length of the string in the
    buffer, which is read for it. -/
def writeSize (buf nbytes : ℕ) : KM cfg ℕ := do
  if nbytes = noPid then
    let s ← readString buf
    modify fun k => { k with io := .load buf (s.length + 1) :: k.io }
    return s.length
  else return nbytes

/-- `proc_write`. -/
def procWrite (p : Slot cfg) (fd buf nbytes : ℕ) : KM cfg ℤ := do
  match ← fileOf p fd with
  | none =>
    setErrno p EBADF
    return -1
  | some f =>
    let k ← get
    let buf := va2pa k (k.procs p).upagetable buf
    if buf = 0 then
      setErrno p EINVAL
      return -1
    let n ← writeSize buf nbytes
    writeTail p (← fsWrite p f buf n)

/-- `proc_close`. -/
def procClose (p : Slot cfg) (fd : ℕ) : KM cfg ℤ := do
  match ← fileOf p fd with
  | none =>
    setErrno p EBADF
    return -1
  | some f =>
    fsFreeFile f
    setFd p fd none
    return 0

/-- `proc_dup`. -/
def procDup (p : Slot cfg) (fd : ℕ) : KM cfg ℤ := do
  match ← fileOf p fd with
  | none =>
    setErrno p EBADF
    return -1
  | some f =>
    match ← fdAlloc p f with
    | none =>
      setErrno p EMFILE
      return -1
    | some newfd =>
      modify fun k => k.setFile f { k.files f with refcount := u32 ((k.files f).refcount + 1) }
      return (newfd : ℕ)

/-- `f->refcount--`. -/
def dropRef (f : FileRef) : KM cfg Unit :=
  modify fun k => k.setFile f { k.files f with refcount := u32 ((k.files f).refcount - 1) }

/-- The second half of `proc_pipeattch`, with a reference to the file taken. -/
def attachPipe (p q : Slot cfg) (f : FileRef) : KM cfg ℤ := do
  acquire (.proc q)
  if (((← get).procs q).files 1).isSome then
    dropRef f
    release (.proc q)
    setErrno p EBUSY
    return -1
  modify fun k => k.setProc q { k.procs q with
    files := Function.update (k.procs q).files 1 (some f), chan := (k.files f).fsFile.chan }
  release (.proc q)
  return 0

/-- `proc_pipeattch`. The first error path keeps the lock. -/
def procPipeattch (p : Slot cfg) (pid : ℕ) (srcFd : ℤ) : KM cfg ℤ := do
  acquire (.proc p)
  match ← fileOf p srcFd with
  | none =>
    setErrno p EBADF
    return -1
  | some f =>
    modify fun k => k.setFile f { k.files f with refcount := u32 ((k.files f).refcount + 1) }
    release (.proc p)
    match findProcByPid (← get) pid with
    | none =>
      dropRef f
      setErrno p ESRCH
      return -1
    | some q => attachPipe p q f

/-- `proc_isopen`. -/
def procIsopen (p : Slot cfg) (fd : ℤ) : KM cfg ℤ := do
  return if (← fileOf p fd).isSome then 1 else 0

/-- `proc_lsdir`. -/
def procLsdir (p : Slot cfg) (dir dirents size : ℕ) : KM cfg ℤ := do
  let k ← get
  let path ← readString (va2pa k (k.procs p).upagetable dir)
  let dirents := va2pa k (k.procs p).upagetable dirents
  match ← bifsOpendirpath path path.length with
  | none =>
    setErrno p ENOENT
    return -1
  | some d =>
    let status ← match ((← get).dirs d).lsdir with
      | .bifs => bifsLsdir d dirents size
      | .bin => binLsdir dirents size
    if status < 0 then
      setErrno p (-status).toNat
      return -1
    return status

/-! ## Memory -/

/-- `proc_pgalloc`. -/
def procPgalloc (p : Slot cfg) : KM cfg ℤ := do
  let k ← get
  match ← allocatePage (k.procs p).pid pageUsermem with
  | none => return 0
  | some page =>
    mapPageSv39 (k.procs p).upagetable page (cfg.usrVirt page) permUdata (k.procs p).pid
    return (cfg.usrVirt page : ℕ)

/-- `proc_pgfree`. -/
def procPgfree (p : Slot cfg) (page : ℕ) : KM cfg ℤ := do
  let k ← get
  releasePage (va2pa k (k.procs p).upagetable page)
  return 0

end HobbyOs
