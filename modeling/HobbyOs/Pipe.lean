import HobbyOs.Vm
import HobbyOs.Sched

/-!
# Pipes

`pipe.c`, with the allocation of file objects (`fs_alloc_file`) and of
descriptors (`fd_alloc`) that it needs.

A pipe is a ring of `PIPE_BUF_SIZE` bytes at the start of a page, with the
position of the next byte to be read and of the next byte to be written; a flag
tells the full ring from the empty one. Both copy loops keep the position in
the ring *and* a running pointer into the page (`rbuf`, `wbuf`), which is set
once, at the start of the loop.

`pipe_read` and `pipe_write` block in `proc_yield`. What they do up to there,
and again from there on, is `pipeReadTry` and `pipeWriteTry`.
-/

namespace HobbyOs

variable {cfg : Config}

/-! ## File objects and descriptors -/

/-- The first entry of `ftable` that is not in use. -/
def freeFile (k : Kernel cfg) : Option (Fin maxFiles) :=
  (List.finRange maxFiles).find? fun i => (k.files (.ftable i)).refcount = 0

/-- The entry of `ftable` that was found, if any, is taken. -/
def takeFile : Option (Fin maxFiles) → KM cfg (Option FileRef)
  | none => return none
  | some i => do
    modify fun k => k.setFile (.ftable i) { k.files (.ftable i) with
      refcount := 1, position := 0, readable := false, writable := false, isPipe := false }
    return some (.ftable i)

/-- `fs_alloc_file`. -/
def fsAllocFile : KM cfg (Option FileRef) := withLock .ftable do takeFile (freeFile (← get))

/-- `fd_alloc`: the descriptor, or `-1`. -/
def fdAlloc (p : Slot cfg) (f : FileRef) : KM cfg (Option (Fin maxProcFds)) := do
  let k ← get
  match (List.finRange maxProcFds).find? fun i => ((k.procs p).files i).isNone with
  | none => return none
  | some i =>
    modifyProc p fun x => { x with files := Function.update x.files i (some f) }
    return some i

/-! ## Allocation -/

/-- `init_pipes`. -/
def initPipes : KM cfg Unit :=
  modify fun k => { k with
    pipes := fun i => { k.pipes i with
      allocated := false, writeClosed := false, bufFull := false, buf := 0 } }

/-- `alloc_pipe`; the lock of the pipe stays held. -/
def allocPipe (pid : ℕ) : KM cfg (Option (Fin maxPipes)) := do
  match ← kalloc pid with
  | none => return none
  | some buf =>
    withLock .pipes do
      let k ← get
      match (List.finRange maxPipes).find? fun i => !(k.pipes i).anyFlag with
      | none => return none
      | some i =>
        modify fun k => k.setPipe i { k.pipes i with allocated := true }
        acquire (.pipe i)
        modify fun k => k.setPipe i { k.pipes i with buf := buf }
        return some i

/-- `free_pipe`. -/
def freePipe (i : Fin maxPipes) : KM cfg Unit := do
  releasePage ((← get).pipes i).buf
  modify fun k => k.setPipe i
    { k.pipes i with allocated := false, writeClosed := false, bufFull := false }

/-- `pipe_open` once there is a pipe, whose lock is held: its two files, their
    descriptors, and the descriptors' numbers for the caller. -/
def pipeEnds (p : Slot cfg) (i : Fin maxPipes) (pipefd : ℕ) : KM cfg ℤ := do
  modify fun k => k.setPipe i { k.pipes i with wpos := 0, rpos := 0 }
  let f0 ← fsAllocFile
  let f1 ← fsAllocFile
  match f0, f1 with
  | some f0, some f1 =>
    modify fun k => k.setFile f0 { k.files f0 with
      isPipe := true, readable := true, writable := false, fsFile := .pipe i, read := .pipe }
    modify fun k => k.setFile f1 { k.files f1 with
      isPipe := true, readable := false, writable := true, fsFile := .pipe i, write := .pipe }
    modify fun k => k.setPipe i { k.pipes i with rf := some f0, wf := some f1 }
    let fd0 ← fdAlloc p f0
    let fd1 ← fdAlloc p f1
    match fd0, fd1 with
    | some fd0, some fd1 =>
      release (.pipe i)
      let k ← get
      let pa := va2pa k (k.procs p).upagetable pipefd
      if pa = 0 then throw .fault
      store pa (bytesOfWord fd0 4 ++ bytesOfWord fd1 4)
      return 0
    | _, _ =>
      setErrno p EMFILE
      release (.pipe i)
      return -1
  | _, _ =>
    setErrno p ENFILE
    release (.pipe i)
    return -1

/-- `pipe_open`. -/
def pipeOpen (p : Slot cfg) (pipefd : ℕ) : KM cfg ℤ := do
  match ← allocPipe ((← get).procs p).pid with
  | none =>
    setErrno p ENOMEM
    return -1
  | some i => pipeEnds p i pipefd

/-! ## Closing -/

/-- `pipe_close_file`. -/
def pipeCloseFile (f : FileRef) : KM cfg Unit := do
  match ((← get).files f).fsFile with
  | .null => return ()
  | .bifs _ => throw .outOfBounds
  | .pipe i =>
    withLock (.pipe i) do
      let file := (← get).files f
      if file.readable then
        procMarkForWakeup (.pipe i)
        if file.refcount = 0 then
          match ((← get).pipes i).wf with
          | none => throw .fault
          | some wf =>
            modify fun k => k.setFile wf { k.files wf with fsFile := .null }
            freePipe i
      else if file.writable then
        if file.refcount = 0 then
          modify fun k => k.setPipe i { k.pipes i with writeClosed := true }
        procMarkForWakeup (.pipe i)

/-! ## Reading -/

/-- The next position in the ring: `pos++`, back to `0` at the end. -/
def ringNext (cfg : Config) (pos : ℕ) : ℕ := if pos + 1 = cfg.pipeBufSize then 0 else pos + 1

/-- The copy loop of `pipe_read`: from the running pointer `rbuf` into the page
    on, until `size` bytes are read or the ring is empty. The bytes, and the
    position afterwards. -/
def pipeReadLoop (cfg : Config) (page : ℕ → UInt8) (wpos : ℕ) :
    (size rbuf rpos : ℕ) → List UInt8 × ℕ
  | 0, _, rpos => ([], rpos)
  | size + 1, rbuf, rpos =>
    let rpos := ringNext cfg rpos
    if rpos = wpos then ([page rbuf], rpos)
    else
      let r := pipeReadLoop cfg page wpos size (rbuf + 1) rpos
      (page rbuf :: r.1, r.2)

/-- The second half of `pipe_read`: it copies what there is. -/
def pipeTake (i : Fin maxPipes) (buf size : ℕ) : KM cfg ℤ := do
  let k ← get
  let q := k.pipes i
  let (bytes, rpos) := pipeReadLoop cfg (k.kmem q.buf) q.wpos size q.rpos q.rpos
  store buf bytes
  modify fun k => k.setPipe i { k.pipes i with rpos := rpos }
  if 0 < bytes.length then
    modify fun k => k.setPipe i { k.pipes i with bufFull := false }
  modify fun k => { k with io := .store buf bytes.length :: .delivered i bytes :: k.io }
  return bytes.length

/-- `pipe_read` up to `proc_yield`: the result, or `none` if it has to wait. -/
def pipeReadTry (i : Fin maxPipes) (buf size : ℕ) : KM cfg (Option ℤ) :=
  withLock (.pipe i) do
    let q := (← get).pipes i
    if q.rpos = q.wpos ∧ q.bufFull = false then
      if q.writeClosed then return some 0
      procMarkForWakeup (.pipe i)
      return none
    else return some (← pipeTake i buf size)

/-- `pipe_read`, at the loop it enters again after a wake-up. -/
def pipeReadLoopTop (p : Slot cfg) (f : FileRef) (i : Fin maxPipes) (buf size : ℕ) :
    KM cfg ℤ := do
  match ← pipeReadTry i buf size with
  | some n => return n
  | none => procYield p (.pipe i) (.pipeRead f i buf size)

/-- `pipe_read`. -/
def pipeRead (p : Slot cfg) (f : FileRef) (buf size : ℕ) : KM cfg ℤ := do
  match ((← get).files f).fsFile with
  | .null => throw .fault
  | .bifs _ => throw .outOfBounds
  | .pipe i => pipeReadLoopTop p f i buf size

/-! ## Writing -/

/-- The copy loop of `pipe_do_write`: the bytes go to the running pointer
    `wbuf` of the page on, until there are no more or the ring is full. The
    page, the position, whether the ring got full, and the number of bytes. -/
def pipeWriteLoop (cfg : Config) (rpos : ℕ) :
    List UInt8 → (page : ℕ → UInt8) → (wbuf wpos : ℕ) → (ℕ → UInt8) × ℕ × Bool × ℕ
  | [], page, _, wpos => (page, wpos, false, 0)
  | b :: bs, page, wbuf, wpos =>
    let page := Function.update page wbuf b
    let wpos := ringNext cfg wpos
    if wpos = rpos then (page, wpos, true, 1)
    else
      let r := pipeWriteLoop cfg rpos bs page (wbuf + 1) wpos
      (r.1, r.2.1, r.2.2.1, r.2.2.2 + 1)

/-- `pipe_do_write`. -/
def pipeDoWrite (i : Fin maxPipes) (buf nbytes : ℕ) : KM cfg ℕ := do
  let k ← get
  let q := k.pipes i
  let (page, wpos, full, n) :=
    pipeWriteLoop cfg q.rpos (loadBytes k.mem buf nbytes) (k.kmem q.buf) q.wpos q.wpos
  modify fun k => { k with kmem := Function.update k.kmem q.buf page }
  modify fun k => k.setPipe i
    { k.pipes i with wpos := wpos, bufFull := (k.pipes i).bufFull || full }
  modify fun k => { k with io := .load buf n :: .accepted i (loadBytes k.mem buf n) :: k.io }
  return n

/-- The room in the pipe, as `pipe_write` computes it in a `uint32_t` and stores
    it in an `int32_t`: of its value, only the sign matters. -/
def pipeAvailable (cfg : Config) (q : Pipe) : ℤ :=
  if q.bufFull then 0 else int32 (u32 (cfg.pipeBufSize - q.wpos + q.rpos))

/-- `pipe_write` up to `proc_yield`, with `nwritten` bytes written before: the
    result, or how much is written by now. -/
def pipeWriteTry (i : Fin maxPipes) (buf nbytes nwritten : ℕ) : KM cfg (ℤ ⊕ ℕ) :=
  withLock (.pipe i) do
    let q := (← get).pipes i
    if pipeAvailable cfg q < 0 then return .inl (-ENOBUFS)
    let wr ← if 0 < pipeAvailable cfg q then pipeDoWrite i (buf + nwritten) (nbytes - nwritten) else pure 0
    if 0 < wr then procMarkForWakeup (.pipe i)
    if nwritten + wr = nbytes then return .inl (nwritten + wr : ℕ)
    else return .inr (nwritten + wr)

/-- `pipe_write`, at the loop it enters again after a wake-up. -/
def pipeWriteLoopTop (p : Slot cfg) (f : FileRef) (i : Fin maxPipes) (buf nbytes nwritten : ℕ) :
    KM cfg ℤ := do
  match ← pipeWriteTry i buf nbytes nwritten with
  | .inl n => return n
  | .inr nwritten => procYield p (.pipe i) (.pipeWrite f i buf nbytes nwritten)

/-- `pipe_write`. -/
def pipeWrite (p : Slot cfg) (f : FileRef) (buf nbytes : ℕ) : KM cfg ℤ := do
  match ((← get).files f).fsFile with
  | .null => return -EPIPE
  | .bifs _ => throw .outOfBounds
  | .pipe i => pipeWriteLoopTop p f i buf nbytes 0

/-- `pipe_write`, when it goes on after `proc_yield`: the pipe may be gone. -/
def pipeWriteResume (p : Slot cfg) (f : FileRef) (i : Fin maxPipes) (buf nbytes nwritten : ℕ) :
    KM cfg ℤ := do
  if ((← get).files f).fsFile = .null then return -EPIPE
  else pipeWriteLoopTop p f i buf nbytes nwritten

end HobbyOs
