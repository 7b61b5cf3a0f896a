import HobbyOs.Vm

/-!
# The baked-in file system

`bakedinfs.c`, with the kernel's string functions that it uses (`string.c`) and
the table of user programs (`proc_test.c`) that `/bin` lists.

A path is the list of its characters, without the terminating zero; positions
in it are those of the C string, so the position after the last character reads
as zero. The tables hold what was stored last: an entry that is free (its
`flags` are zero) keeps its name and its parent.
-/

namespace HobbyOs

variable {cfg : Config}

/-! ## Strings -/

/-- The character of a C string at a position. -/
def charAt (s : List UInt8) (i : ℕ) : UInt8 := s.getD i 0

/-- `strncmp`. The count is unsigned and is decremented before it is tested. -/
def strncmp : List UInt8 → List UInt8 → ℕ → ℤ
  | [], [], _ => 0
  | [], _ :: _, _ => -1
  | _ :: _, [], _ => 1
  | x :: a, y :: b, num =>
    if x ≠ y then if num = 0 then 0 else (x.toNat : ℤ) - y.toNat
    else
      let num := u32 (num - 1)
      if num = 0 then 0 else strncmp a b num

/-- What `strncpy` stores: at most `num - 1` characters, and a zero. -/
def strncpy (src : List UInt8) (num : ℕ) : List UInt8 := src.take (num - 1) ++ [0]

/-- The decimal digits of a number. -/
def digits (n : ℕ) : List UInt8 := (Nat.toDigits 10 n).map fun c => c.toNat.toUInt8

/-- A number as `%d` prints it. -/
def decimal : ℤ → List UInt8
  | .ofNat n => digits n
  | .negSucc n => ascii "-" ++ digits (n + 1)

/-- `itoa`: the text, if it fits into `size` bytes with its terminating zero. -/
def itoa (size num : ℕ) : Option (List UInt8) :=
  if (digits num).length + 1 ≤ size then some (digits num) else none

/-! ## User programs -/

/-- The names of `userland_programs`, in order. -/
def userlandPrograms : List (List UInt8) :=
  ["sh", "hello", "sysinfo", "fmt", "hang", "ps", "cat", "coma", "wc", "gpio", "iter", "testprintf",
    "fibd", "fib", "wait", "ls", "clock", "echo"].map ascii

/-- `MAX_USERLAND_PROGS`. -/
abbrev maxUserlandProgs : ℕ := 32

/-- `find_user_program`: the number of the program and its name. -/
def findUserProgram (name : List UInt8) : Option (ℕ × List UInt8) :=
  (userlandPrograms.zipIdx.find? fun p => strncmp name p.1 16 = 0).map fun p => (p.2, p.1)

/-! ## Lookup -/

/-- The character `/`. -/
abbrev slash : UInt8 := 47

/-- `next_slash`. -/
def nextSlash (path : List UInt8) (pos : ℕ) : ℕ :=
  pos + ((path.drop pos).takeWhile (· ≠ slash)).length

/-- What a name points to. -/
def nameText (k : Kernel cfg) : BifsName cfg → List UInt8
  | .lit s => s
  | .piddir q => (k.procs q).piddir

/-- `bifs_root`. -/
abbrev bifsRoot : Fin bifsMaxDirs := 0

/-- `bifs_opendir`, for the part of `name` from `start` to `stop`. -/
def bifsOpendir (parent : Fin bifsMaxDirs) (name : List UInt8) (start stop : ℕ) :
    KM cfg (Option (Fin bifsMaxDirs)) :=
  ((List.finRange bifsMaxDirs).drop 1).findSomeM? fun i => do
    let k ← get
    let d := k.dirs i
    if d.parent ≠ some parent then return none
    match d.name with
    | none => throw .fault
    | some n =>
      if strncmp (nameText k n) (name.drop start) (stop - start) = 0 then return some i
      else return none

/-- The loop of `bifs_opendirpath`: the directory, the last slash and the next
    one, or nothing. Each turn moves to a later slash, so the length of the
    path bounds their number. -/
def opendirLoop (path : List UInt8) (stop : ℕ) :
    (turns : ℕ) → Fin bifsMaxDirs → (prev pos : ℕ) → KM cfg (Option (Fin bifsMaxDirs × ℕ × ℕ))
  | 0, dir, prev, pos => return some (dir, prev, pos)
  | turns + 1, dir, prev, pos => do
    if charAt path pos ≠ 0 ∧ pos < stop then
      match ← bifsOpendir dir path (prev + 1) pos with
      | none => return none
      | some d => opendirLoop path stop turns d pos (nextSlash path (pos + 1))
    else return some (dir, prev, pos)

/-- `bifs_opendirpath`: the directory, or `-ENOENT`. -/
def bifsOpendirpath (path : List UInt8) (stop : ℕ) : KM cfg (Option (Fin bifsMaxDirs)) := do
  match ← opendirLoop path stop path.length bifsRoot 0 (nextSlash path 1) with
  | none => return none
  | some (dir, prev, pos) =>
    if charAt path (pos - 1) ≠ slash ∧ pos ≤ stop then bifsOpendir dir path (prev + 1) pos
    else return some dir

/-- `bifs_openfile`, for the part of `name` from `start` to `stop`. -/
def bifsOpenfile (parent : Fin bifsMaxDirs) (name : List UInt8) (start stop : ℕ) :
    KM cfg (Option (Fin bifsMaxFiles)) :=
  (List.finRange bifsMaxFiles).findSomeM? fun j => do
    let f := (← get).bfiles j
    if f.parent ≠ some parent then return none
    match f.name with
    | none => throw .fault
    | some n => if strncmp n (name.drop start) (stop - start) = 0 then return some j else return none

/-- The loop of `bifs_open` for the last slash of a path and its end. -/
def lastSlash (path : List UInt8) : (turns : ℕ) → (last zeroPos : ℕ) → ℕ × ℕ
  | 0, last, zeroPos => (last, zeroPos)
  | turns + 1, last, zeroPos =>
    if charAt path zeroPos ≠ 0 then lastSlash path turns zeroPos (nextSlash path (zeroPos + 1))
    else (last, zeroPos)

/-- `bifs_open`: the file, or an error. -/
def bifsOpen (path : List UInt8) : KM cfg (ℤ ⊕ Fin bifsMaxFiles) := do
  if charAt path 0 ≠ slash then return .inl (-ENOSYS)
  let (last, zeroPos) := lastSlash path (path.length + 1) 0 0
  match ← bifsOpendirpath path last with
  | none => return .inl (-ENOENT)
  | some dir =>
    match ← bifsOpenfile dir path (last + 1) zeroPos with
    | none => return .inl (-ENOENT)
    | some j => return .inr j

/-! ## Allocation -/

/-- The first directory that is not in use. -/
def freeDir (k : Kernel cfg) : Option (Fin bifsMaxDirs) :=
  (List.finRange bifsMaxDirs).find? fun i => (k.dirs i).flags = 0

/-- The directory that was found, if any, is taken. -/
def takeDir : Option (Fin bifsMaxDirs) → KM cfg (Option (Fin bifsMaxDirs))
  | none => return none
  | some i => do
    modify fun k => { k with
      dirs := Function.update k.dirs i { k.dirs i with flags := bifsReadable, lsdir := .bifs } }
    return some i

/-- `bifs_allocate_dir`. -/
def bifsAllocateDir : KM cfg (Option (Fin bifsMaxDirs)) := do takeDir (freeDir (← get))

/-- The first file that is not in use. -/
def freeBifsFile (k : Kernel cfg) : Option (Fin bifsMaxFiles) :=
  (List.finRange bifsMaxFiles).find? fun j => (k.bfiles j).flags = 0

/-- The file that was found, if any, is taken. -/
def takeBifsFile : Option (Fin bifsMaxFiles) → KM cfg (Option (Fin bifsMaxFiles))
  | none => return none
  | some j => do
    modify fun k => { k with
      bfiles := Function.update k.bfiles j { k.bfiles j with flags := bifsReadable } }
    return some j

/-- `bifs_allocate_file`. -/
def bifsAllocateFile : KM cfg (Option (Fin bifsMaxFiles)) := do takeBifsFile (freeBifsFile (← get))

/-- `bifs_mkdir`. -/
def bifsMkdir (parentPath : List UInt8) (name : BifsName cfg) : KM cfg (Option (Fin bifsMaxDirs)) := do
  match ← bifsOpendirpath parentPath parentPath.length with
  | none => return none
  | some parent =>
    match ← bifsAllocateDir with
    | none => return none
    | some i =>
      modify fun k => { k with
        dirs := Function.update k.dirs i { k.dirs i with name := some name, parent := some parent } }
      return some i

/-! ## Listing -/

abbrev direntExecutable : ℕ := 4
abbrev direntDirectory : ℕ := 65536

/-- The loop that lists entries, each to be skipped or with its flags and name,
    into the `dirent_t`s at `dirents`. -/
def lsdirLoop (dirents size : ℕ) : List (Option (ℕ × Option (List UInt8))) → ℕ → KM cfg ℤ
  | [], n => return n
  | e :: es, n => do
    if size ≤ n then return -ENOBUFS
    match e with
    | none => lsdirLoop dirents size es n
    | some (_, none) => throw .fault
    | some (flags, some name) =>
      if dirents = 0 then throw .fault
      store (dirents + 20 * n) (bytesOfWord flags 4 ++ strncpy name maxFilenameLen)
      lsdirLoop dirents size es (n + 1)

/-- `bifs_lsdir`. -/
def bifsLsdir (dir : Fin bifsMaxDirs) (dirents size : ℕ) : KM cfg ℤ := do
  let k ← get
  let ds := (List.finRange bifsMaxDirs).map fun i =>
    if (k.dirs i).parent = some dir then some (direntDirectory, (k.dirs i).name.map (nameText k)) else none
  let fs := (List.finRange bifsMaxFiles).map fun j =>
    if (k.bfiles j).parent = some dir then some (0, (k.bfiles j).name) else none
  lsdirLoop dirents size (ds ++ fs) 0

/-- `bin_lsdir`. -/
def binLsdir (dirents size : ℕ) : KM cfg ℤ :=
  let ps := userlandPrograms.map fun name => some (direntExecutable, some name)
  lsdirLoop dirents size (ps ++ List.replicate (maxUserlandProgs - ps.length) none) 0

/-! ## Reading -/

/-- The loop of `bifs_read`. -/
def bifsReadLoop (data : ℕ → UInt8) : (size pos : ℕ) → List UInt8
  | 0, _ => []
  | size + 1, pos => if data pos = 0 then [] else data pos :: bifsReadLoop data size (pos + 1)

/-- `bifs_read`. -/
def bifsRead (f : FileRef) (pos buf size : ℕ) : KM cfg ℤ := do
  let k ← get
  match (k.files f).fsFile with
  | .null => throw .fault
  | .pipe _ => throw .outOfBounds
  | .bifs j =>
    match (k.bfiles j).data with
    | .null => throw .fault
    | .lit s =>
      if s.length < pos then throw .outOfBounds
      deliver (bifsReadLoop (charAt s) size pos)
    | .page a => deliver (bifsReadLoop (k.kmem a) size pos)
where
  /-- The characters go to the buffer. -/
  deliver (bytes : List UInt8) : KM cfg ℤ := do
    store buf bytes
    modify fun k => { k with io := .store buf bytes.length :: k.io }
    return bytes.length

/-! ## Temporary files -/

/-- `procfs_stats_data_func`. -/
def procfsStats (k : Kernel cfg) (q : Slot cfg) : List UInt8 :=
  let x := k.procs q
  let ppid : ℤ := match x.parent with
    | none => -1
    | some r => int32 (k.procs r).pid
  ascii "ppid: " ++ decimal ppid ++ ascii "\nnscheds: " ++ decimal x.nscheds ++
    ascii "\nnpages: " ++ decimal (countAllocedPages k x.pid) ++ ascii "\n"

/-- What a `dataquery` writes. -/
def queryText (k : Kernel cfg) : DataQuery cfg → Option (List UInt8)
  | .null => none
  | .stats q => some (procfsStats k q)
  | .sysmem => some cfg.sysmemText

/-! ## Initialisation -/

/-- The directories that `bifs_init` makes. -/
def initDirs (cfg : Config) : Fin bifsMaxDirs → BifsDir cfg
  | 0 => ⟨bifsReadable, some (.lit (ascii "/")), none, .bifs⟩
  | 1 => ⟨bifsReadable, some (.lit (ascii "proc")), some bifsRoot, .bifs⟩
  | 2 => ⟨bifsReadable, some (.lit (ascii "home")), some bifsRoot, .bifs⟩
  | 3 => ⟨bifsReadable, some (.lit (ascii "bin")), some bifsRoot, .bin⟩
  | _ => ⟨0, none, none, .bifs⟩

/-- A file of `bifs_init` with a given content. -/
def rawFile (cfg : Config) (dir : Fin bifsMaxDirs) (name data : String) : BifsFile cfg :=
  ⟨bifsReadable ||| bifsRaw, some (ascii name), some dir, .lit (ascii data), .null⟩

/-- The files that `bifs_init` makes. -/
def initFiles (cfg : Config) : Fin bifsMaxFiles → BifsFile cfg
  | 0 => rawFile cfg 0 "readme.txt" "Hello, I am File Zero.\n"
  | 1 => rawFile cfg 0 "file" "A very short text.\n"
  | 2 => rawFile cfg 2 "read.me" "This Is File One. File Zero is at root.\n"
  | 3 => rawFile cfg 2 "smoke-test.sh"
      "fmt\nsysinfo\nps\ncat /readme.txt | wc\niter 300 | wc\ntestprintf\necho QUIT_QEMU"
  | 4 => rawFile cfg 2 "daemon-test.sh"
      "fibd\nps\nwait 1 3\nfib 1\nwait 1 1\nfib 1\ncat /proc/1/stats\nsysinfo\necho QUIT_QEMU"
  | 5 => rawFile cfg 2 "ls-test.sh"
      "ls\nls /home\nls /home/\nls /bin\nls /proc\ncat -n /proc/0/name\necho QUIT_QEMU"
  | 6 => rawFile cfg 2 "leaky-test.sh" "sysinfo\nhang\nsysinfo\nps\necho QUIT_QEMU"
  | 7 => ⟨bifsReadable ||| bifsRaw ||| bifsTmpfile, some (ascii "sysmem"), some 1, .null, .sysmem⟩
  | _ => ⟨0, none, none, .null, .null⟩

end HobbyOs
