import HobbyOs.Bakedinfs
import HobbyOs.Pipe
import HobbyOs.Uart

/-!
# File objects

`fs.c`: what happens to a file object between the descriptor and the pipe, the
console or the baked-in file behind it. Which one it is, is told by the
functions the object points to.
-/

namespace HobbyOs

variable {cfg : Config}

/-- The standard streams and the file table, as `fs_init` leaves them. -/
def initFile : FileRef → File
  | .stdin => ⟨0, true, false, false, 0, .null, .uart, .null, 0⟩
  | .stdout => ⟨0, false, true, false, 0, .null, .null, .uart, 0⟩
  | .stderr => ⟨0, false, true, false, 0, .null, .null, .uart, 0⟩
  | .ftable _ => ⟨0, false, false, false, 0, .null, .null, .null, 0⟩

/-- The end of `fs_free_file`: the page that holds a generated file is released. -/
def freeTmpfile (f : FileRef) : KM cfg Unit := do
  let file := (← get).files f
  if file.tmpfileMem ≠ 0 then
    releasePage file.tmpfileMem
    modify fun k => k.setFile f { k.files f with tmpfileMem := 0 }
    match file.fsFile with
    | .null => throw .fault
    | .pipe _ => throw .outOfBounds
    | .bifs j =>
      modify fun k => { k with bfiles := Function.update k.bfiles j { k.bfiles j with data := .null } }

/-- `fs_free_file`. -/
def fsFreeFile (f : FileRef) : KM cfg Unit := do
  modify fun k => k.setFile f { k.files f with refcount := u32 ((k.files f).refcount - 1) }
  if ((← get).files f).isPipe then pipeCloseFile f
  freeTmpfile f

/-- `fs_open`, for the process `p`: `0`, or an error. -/
def fsOpen (p : Slot cfg) (f : FileRef) (path : List UInt8) : KM cfg ℤ := do
  match ← bifsOpen path with
  | .inl e => return e
  | .inr j =>
    modify fun k => k.setFile f { k.files f with fsFile := .bifs j }
    if ((← get).bfiles j).flags &&& bifsTmpfile ≠ 0 then
      match ← kalloc ((← get).procs p).pid with
      | none =>
        modify fun k => k.setFile f { k.files f with tmpfileMem := 0 }
        return -ENOMEM
      | some page =>
        modify fun k => k.setFile f { k.files f with tmpfileMem := page }
        let k ← get
        match queryText k (k.bfiles j).dataquery with
        | none => pure ()
        | some text =>
          modify fun k => { k with
            kmem := Function.update k.kmem page (storeBytes (k.kmem page) 0 (text ++ [0])) }
        modify fun k => { k with
          bfiles := Function.update k.bfiles j { k.bfiles j with data := .page page } }
    modify fun k => k.setFile f { k.files f with read := .bifs, write := .bifs }
    return 0

/-- `fs_read`. -/
def fsRead (p : Slot cfg) (f : FileRef) (pos buf size : ℕ) : KM cfg ℤ := do
  match ((← get).files f).read with
  | .null => return -EBADFD
  | .uart => uartReadline p f buf size
  | .bifs => bifsRead f pos buf size
  | .pipe => pipeRead p f buf size

/-- `fs_write`; `bifs_write` is not implemented. -/
def fsWrite (p : Slot cfg) (f : FileRef) (buf nbytes : ℕ) : KM cfg ℤ := do
  match ((← get).files f).write with
  | .null => return -EBADFD
  | .uart => uartWrite buf nbytes
  | .bifs => return -ENOSYS
  | .pipe => pipeWrite p f buf nbytes

end HobbyOs
