import HobbyOs.Frame
import HobbyOs.Proc

/-!
# The functions that leave scheduling alone

For each function of the kernel that neither blocks nor schedules, that it is
`Still` or `Quiet`: from the page allocator up to the calls on descriptors and
memory, after the source. A function that takes a lock has it among its `L`.
-/

namespace HobbyOs

open Outcome

variable {cfg : Config} {L : Set (Lock cfg)}

/-! ## Memory and pages -/

theorem still_store {a : ℕ} {bs : List UInt8} : Still L (store a bs : KM cfg Unit) :=
  Still.modify (fun _ => rfl) fun _ => rfl

theorem still_setErrno {p : Slot cfg} {e : ℕ} : Still L (setErrno p e) :=
  Still.modify (fun _ => rfl) fun _ => rfl

theorem still_readString {a : ℕ} : Still L (readString a : KM cfg _) := by
  refine Still.get.bind fun k => ?_
  split
  · exact Still.pure _
  · exact Still.throw trivial

theorem still_modifyProc {q : Slot cfg} {f : Proc cfg → Proc cfg}
    (h : ∀ x, (f x).toPCore = x.toPCore) : Still L (modifyProc q f) :=
  Still.modify (fun k => k.setProc_core_eq q _ (h _)) fun _ => rfl

theorem still_takePage {pid flags : ℕ} (i : Option (Fin cfg.numPages)) :
    Still L (takePage pid flags i) := by
  cases i with
  | none => exact Still.pure _
  | some i => exact Still.bind (Still.modify (fun _ => rfl) fun _ => rfl) fun _ => Still.pure _

theorem still_allocatePage (hp : .pagedMemory ∈ L) {pid flags : ℕ} :
    Still L (allocatePage pid flags : KM cfg _) :=
  Still.withLock hp (Still.get.bind fun k => still_takePage (freePage k))

theorem still_kalloc (hp : .pagedMemory ∈ L) {pid : ℕ} : Still L (kalloc pid : KM cfg _) :=
  still_allocatePage hp

theorem still_releasePage (hp : .pagedMemory ∈ L) {ptr : ℕ} : Still L (releasePage ptr : KM cfg _) :=
  Still.withLock hp (Still.modify (fun _ => rfl) fun _ => rfl)

/-- `release_page`, with its lock free. -/
theorem releasePage_apply {k : Kernel cfg} (hl : k.held .pagedMemory = false) (ptr : ℕ) :
    releasePage ptr k = .ok () { k with pages := dropPage ptr k.pages } := by
  refine (withLock_apply hl (modify_apply _ _)).trans ?_
  exact congrArg _ (Kernel.setHeld_setHeld (k := { k with pages := dropPage ptr k.pages }) hl)

theorem still_copyPage {dst src : ℕ} : Still L (copyPage dst src : KM cfg _) :=
  Still.modify (fun _ => rfl) fun _ => rfl

/-! ## Page tables -/

theorem still_clearTable {pt : ℕ} : Still L (clearTable pt : KM cfg _) :=
  Still.modify (fun _ => rfl) fun _ => rfl

theorem still_setPte {pt n e : ℕ} : Still L (setPte pt n e : KM cfg _) :=
  Still.modify (fun _ => rfl) fun _ => rfl

theorem still_mapPageLevel (hp : .pagedMemory ∈ L) {pa va perm pid : ℕ} (level pt : ℕ) :
    Still L (mapPageLevel pa va perm pid level pt : KM cfg _) := by
  induction level generalizing pt with
  | zero => exact still_setPte
  | succ level ih =>
    refine Still.get.bind fun k => ?_
    dsimp only
    split
    · refine (still_kalloc hp).bind fun a => ?_
      split
      · exact Still.throw trivial
      · exact still_clearTable.bind fun _ => still_setPte.bind fun _ => ih _
    · exact ih _

theorem still_mapPageSv39 (hp : .pagedMemory ∈ L) {pt pa va perm pid : ℕ} :
    Still L (mapPageSv39 pt pa va perm pid : KM cfg _) := by
  unfold mapPageSv39
  split
  · exact still_mapPageLevel hp _ _
  · exact Still.pure _

theorem still_mapRange (hp : .pagedMemory ∈ L) {pt pa va perm pid n : ℕ} :
    Still L (mapRange pt pa va perm pid n : KM cfg _) :=
  Still.forM fun _ => still_mapPageSv39 hp

theorem still_initUserPageTable (hp : .pagedMemory ∈ L) {pt pid : ℕ} :
    Still L (initUserPageTable pt pid : KM cfg _) := by
  unfold initUserPageTable
  split
  · refine still_clearTable.bind fun _ => ?_
    refine (still_mapPageSv39 hp).bind fun _ => ?_
    refine (still_mapPageSv39 hp).bind fun _ => ?_
    refine (still_mapPageSv39 hp).bind fun _ => ?_
    refine (still_mapPageSv39 hp).bind fun _ => ?_
    exact (still_mapRange hp).bind fun _ => still_mapRange hp
  · exact Still.pure _

theorem still_mapStack (hp : .pagedMemory ∈ L) {pt sp pid : ℕ} :
    Still L (mapStack pt sp pid : KM cfg _) :=
  (still_mapPageSv39 hp).bind fun _ => still_mapPageSv39 hp

theorem still_copyPageTable (hp : .pagedMemory ∈ L) {dst src pid : ℕ} :
    Still L (copyPageTable dst src pid : KM cfg _) := by
  unfold copyPageTable
  dsimp only
  split
  · refine Still.forM fun vpn2 => Still.get.bind fun k => ?_
    split
    · refine Still.forM fun vpn1 => Still.get.bind fun k => ?_
      split
      · refine Still.forM fun vpn0 => Still.get.bind fun k => ?_
        split
        · exact still_mapPageSv39 hp
        · exact Still.pure _
      · exact Still.pure _
    · exact Still.pure _
  · exact Still.pure _

theorem still_freePageTableR (hp : .pagedMemory ∈ L) (fuel level pt : ℕ) :
    Still L (freePageTableR fuel level pt : KM cfg _) := by
  induction fuel generalizing level pt with
  | zero => exact Still.throw trivial
  | succ fuel ih =>
    refine (Still.forM fun n => Still.get.bind fun k => ?_).bind fun _ => ?_
    · dsimp only
      split
      · refine (ih _ _).bind fun _ => ?_
        split
        · exact still_releasePage hp
        · exact Still.pure _
      · exact Still.pure _
    · split
      · exact Still.get.bind fun k => still_releasePage hp
      · exact Still.pure _

theorem still_freePageTable (hp : .pagedMemory ∈ L) {pt : ℕ} :
    Still L (freePageTable pt : KM cfg _) := by
  unfold freePageTable
  split
  · exact (still_freePageTableR hp _ _ _).bind fun _ => still_releasePage hp
  · exact Still.pure _

/-! ## Pipes and descriptors -/

theorem still_takeFile (i : Option (Fin maxFiles)) : Still L (takeFile i : KM cfg _) := by
  cases i with
  | none => exact Still.pure _
  | some i => exact Still.bind (Still.modify (fun _ => rfl) fun _ => rfl) fun _ => Still.pure _

theorem still_fsAllocFile (hf : .ftable ∈ L) : Still L (fsAllocFile : KM cfg _) :=
  Still.withLock hf (Still.get.bind fun k => still_takeFile (freeFile k))

theorem still_fdAlloc {p : Slot cfg} {f : FileRef} : Still L (fdAlloc p f) := by
  refine Still.get.bind fun k => ?_
  split
  · exact Still.pure _
  · exact Still.bind (still_modifyProc fun _ => rfl) fun _ => Still.pure _

theorem still_freePipe (hp : .pagedMemory ∈ L) {i : Fin maxPipes} :
    Still L (freePipe i : KM cfg _) :=
  Still.get.bind fun _ => (still_releasePage hp).bind fun _ => Still.modify (fun _ => rfl) fun _ => rfl

theorem still_pipeTake {i : Fin maxPipes} {buf size : ℕ} :
    Still L (pipeTake i buf size : KM cfg _) := by
  refine Still.get.bind fun k => still_store.bind fun _ => ?_
  refine Still.bind (Still.modify (fun _ => rfl) fun _ => rfl) fun _ => ?_
  dsimp only
  split
  · refine Still.bind (Still.modify (fun _ => rfl) fun _ => rfl) fun _ => ?_
    exact Still.bind (Still.modify (fun _ => rfl) fun _ => rfl) fun _ => Still.pure _
  · exact Still.bind (Still.modify (fun _ => rfl) fun _ => rfl) fun _ => Still.pure _

theorem still_pipeDoWrite {i : Fin maxPipes} {buf nbytes : ℕ} :
    Still L (pipeDoWrite i buf nbytes : KM cfg _) := by
  refine Still.get.bind fun k => ?_
  refine Still.bind (Still.modify (fun _ => rfl) fun _ => rfl) fun _ => ?_
  refine Still.bind (Still.modify (fun _ => rfl) fun _ => rfl) fun _ => ?_
  exact Still.bind (Still.modify (fun _ => rfl) fun _ => rfl) fun _ => Still.pure _

/-! ## The baked-in file system -/

theorem still_bifsOpendir {parent : Fin bifsMaxDirs} {name : List UInt8} {start stop : ℕ} :
    Still L (bifsOpendir parent name start stop : KM cfg _) := by
  refine Still.findSomeM fun i => Still.get.bind fun k => ?_
  dsimp only
  split
  · exact Still.pure _
  · split
    · exact Still.throw trivial
    · split
      · exact Still.pure _
      · exact Still.pure _

theorem still_opendirLoop {path : List UInt8} {stop : ℕ} (turns : ℕ) (dir : Fin bifsMaxDirs)
    (prev pos : ℕ) : Still L (opendirLoop path stop turns dir prev pos : KM cfg _) := by
  induction turns generalizing dir prev pos with
  | zero => exact Still.pure _
  | succ turns ih =>
    unfold opendirLoop
    split
    · refine still_bifsOpendir.bind fun d => ?_
      cases d with
      | none => exact Still.pure _
      | some d => exact ih _ _ _
    · exact Still.pure _

theorem still_bifsOpendirpath {path : List UInt8} {stop : ℕ} :
    Still L (bifsOpendirpath path stop : KM cfg _) := by
  refine (still_opendirLoop _ _ _ _).bind fun r => ?_
  split
  · exact Still.pure _
  · split
    · exact still_bifsOpendir
    · exact Still.pure _

theorem still_bifsOpenfile {parent : Fin bifsMaxDirs} {name : List UInt8} {start stop : ℕ} :
    Still L (bifsOpenfile parent name start stop : KM cfg _) := by
  refine Still.findSomeM fun j => Still.get.bind fun k => ?_
  dsimp only
  split
  · exact Still.pure _
  · split
    · exact Still.throw trivial
    · split
      · exact Still.pure _
      · exact Still.pure _

theorem still_bifsOpen {path : List UInt8} : Still L (bifsOpen path : KM cfg _) := by
  unfold bifsOpen
  dsimp only
  split
  · exact Still.pure _
  · refine still_bifsOpendirpath.bind fun d => ?_
    split
    · exact Still.pure _
    · refine still_bifsOpenfile.bind fun j => ?_
      split
      · exact Still.pure _
      · exact Still.pure _

theorem still_bifsAllocateDir : Still L (bifsAllocateDir : KM cfg _) := by
  refine Still.get.bind fun k => ?_
  cases freeDir k with
  | none => exact Still.pure _
  | some i => exact Still.bind (Still.modify (fun _ => rfl) fun _ => rfl) fun _ => Still.pure _

theorem still_bifsAllocateFile : Still L (bifsAllocateFile : KM cfg _) := by
  refine Still.get.bind fun k => ?_
  cases freeBifsFile k with
  | none => exact Still.pure _
  | some j => exact Still.bind (Still.modify (fun _ => rfl) fun _ => rfl) fun _ => Still.pure _

theorem still_bifsMkdir {parentPath : List UInt8} {name : BifsName cfg} :
    Still L (bifsMkdir parentPath name) := by
  refine still_bifsOpendirpath.bind fun d => ?_
  split
  · exact Still.pure _
  · refine still_bifsAllocateDir.bind fun i => ?_
    split
    · exact Still.pure _
    · exact Still.bind (Still.modify (fun _ => rfl) fun _ => rfl) fun _ => Still.pure _

theorem still_lsdirLoop {dirents size : ℕ} (es : List (Option (ℕ × Option (List UInt8)))) (n : ℕ) :
    Still L (lsdirLoop dirents size es n : KM cfg _) := by
  induction es generalizing n with
  | nil => exact Still.pure _
  | cons e es ih =>
    unfold lsdirLoop
    split
    · exact Still.pure _
    · split
      · exact ih _
      · exact Still.throw trivial
      · split
        · exact Still.throw trivial
        · exact still_store.bind fun _ => ih _

theorem still_bifsLsdir {dir : Fin bifsMaxDirs} {dirents size : ℕ} :
    Still L (bifsLsdir dir dirents size : KM cfg _) :=
  Still.get.bind fun _ => still_lsdirLoop _ _

theorem still_bifsRead {f : FileRef} {pos buf size : ℕ} :
    Still L (bifsRead f pos buf size : KM cfg _) := by
  have hdeliver : ∀ bytes, Still L (bifsRead.deliver buf bytes : KM cfg _) := fun bytes =>
    still_store.bind fun _ =>
      Still.bind (Still.modify (fun _ => rfl) fun _ => rfl) fun _ => Still.pure _
  refine Still.get.bind fun k => ?_
  split
  · exact Still.throw trivial
  · exact Still.throw trivial
  · split
    · exact Still.throw trivial
    · split
      · exact Still.throw trivial
      · exact hdeliver _
    · exact hdeliver _

/-! ## Creation -/

theorem still_procfsStatsFile {q : Slot cfg} {dir : Fin bifsMaxDirs} :
    Still L (procfsStatsFile q dir) := by
  refine still_bifsAllocateFile.bind fun j => ?_
  split
  · exact Still.pure _
  · exact Still.bind (Still.modify (fun _ => rfl) fun _ => rfl) fun _ => Still.pure _

theorem still_procfsFiles {q : Slot cfg} {name : Option (List UInt8)} {dir : Fin bifsMaxDirs} :
    Still L (procfsFiles q name dir) := by
  refine still_bifsAllocateFile.bind fun j => Still.bind (still_modifyProc fun _ => rfl) fun _ => ?_
  split
  · exact Still.pure _
  exact Still.bind (Still.modify (fun _ => rfl) fun _ => rfl) fun _ => still_procfsStatsFile

theorem still_initProcfsFiles (q : Slot cfg) (name : Option (List UInt8)) :
    Still L (initProcfsFiles q name) := by
  refine Still.get.bind fun k => ?_
  split
  · exact Still.pure _
  refine Still.bind (still_modifyProc fun _ => rfl) fun _ => still_bifsMkdir.bind fun d => ?_
  refine Still.bind (still_modifyProc fun _ => rfl) fun _ => ?_
  split
  · exact Still.pure _
  · exact still_procfsFiles

theorem still_initProcPages (hp : .pagedMemory ∈ L) {q : Slot cfg} :
    Still L (initProcPages q) := by
  refine Still.get.bind fun k => (still_kalloc hp).bind fun sp => ?_
  split
  · exact Still.pure _
  refine (still_kalloc hp).bind fun ksp => ?_
  split
  · exact (still_releasePage hp).bind fun _ => Still.pure _
  dsimp only
  split
  · refine (still_kalloc hp).bind fun pt => ?_
    split
    · exact (still_releasePage hp).bind fun _ => (still_releasePage hp).bind fun _ => Still.pure _
    · refine Still.bind (still_modifyProc fun _ => rfl) fun _ => ?_
      refine (still_initUserPageTable hp).bind fun _ => ?_
      exact (still_mapStack hp).bind fun _ => Still.pure _
  · exact Still.pure _

theorem still_copyFiles {dst src : Slot cfg} : Still L (copyFiles dst src) := by
  refine Still.forM fun i => Still.get.bind fun k => ?_
  dsimp only
  split
  · exact still_modifyProc fun _ => rfl
  · exact Still.bind (Still.modify (fun _ => rfl) fun _ => rfl) fun _ => still_modifyProc fun _ => rfl

theorem still_copyArgvLoop {p : Slot cfg} {argv sp : ℕ} (is : List ℕ) (spc : ℕ) :
    Still L (copyArgvLoop p argv sp is spc) := by
  induction is generalizing spc with
  | nil => exact Still.pure _
  | cons i is ih =>
    refine Still.get.bind fun k => still_readString.bind fun s => ?_
    exact still_store.bind fun _ => still_store.bind fun _ => ih _

theorem still_copyArgv {p : Slot cfg} {sp argc argv : ℕ} : Still L (copyArgv p sp argc argv) := by
  unfold copyArgv
  split
  · exact Still.pure _
  · exact still_store.bind fun _ => (still_copyArgvLoop _ _).bind fun _ => Still.pure _

/-! ## Information -/

theorem still_procPlist (ht : .procTable ∈ L) {p : Slot cfg} {pids size : ℕ} :
    Still L (procPlist p pids size) := by
  refine Still.get.bind fun k => ?_
  dsimp only
  split
  · exact still_setErrno.bind fun _ => Still.pure _
  · exact Still.withLock ht (Still.get.bind fun k => still_store.bind fun _ => Still.pure _)

theorem still_storePinfo {pinfo : ℕ} {q : Slot cfg} : Still L (storePinfo pinfo q) := by
  refine Still.get.bind fun k => ?_
  dsimp only
  split
  · exact Still.throw trivial
  · exact still_store.bind fun _ => still_store.bind fun _ => still_store.bind fun _ => still_store

/-- `proc_pinfo` takes the lock of another process, never the caller's own. -/
theorem still_procPinfo (ht : .procTable ∈ L) {p : Slot cfg} (hq : ∀ q ≠ p, .proc q ∈ L)
    {pid pinfo : ℕ} : Still L (procPinfo p pid pinfo) := by
  refine Still.get.bind fun k => ?_
  dsimp only
  split
  · exact Still.pure _
  refine Still.withLock ht (Still.get.bind fun k => ?_)
  split
  · exact Still.pure _
  rename_i q hfind
  split
  · rename_i hpid
    have hne : q ≠ p := by
      rintro rfl
      have := List.find?_some hfind
      exact hpid (by simpa [eq_comm] using this)
    exact Still.bind (Still.withLock ⟨hq q hne, by simp⟩ still_storePinfo) fun _ => Still.pure _
  · exact still_storePinfo.bind fun _ => Still.pure _

theorem still_procSysinfo (ht : .procTable ∈ L) (hp : .pagedMemory ∈ L) {p : Slot cfg} {info : ℕ} :
    Still L (procSysinfo p info) := by
  refine Still.get.bind fun k => ?_
  refine Still.bind (Still.withLock ht ?_) fun _ => ?_
  · split
    · exact Still.throw trivial
    · exact Still.get.bind fun k => still_store
  · refine Still.bind (Still.withLock hp ?_) fun _ => Still.pure _
    exact Still.get.bind fun k => still_store.bind fun _ => still_store

/-! ## Calls on descriptors and memory -/

theorem still_fileOf {p : Slot cfg} {fd : ℤ} : Still L (fileOf p fd) := by
  unfold fileOf
  split
  · exact Still.get.bind fun k => Still.pure _
  · exact Still.throw trivial

theorem still_setFd {p : Slot cfg} {fd : ℕ} {f : Option FileRef} : Still L (setFd p fd f) := by
  unfold setFd
  split
  · exact still_modifyProc fun _ => rfl
  · exact Still.throw trivial

theorem still_fsOpen (hp : .pagedMemory ∈ L) {p : Slot cfg} {f : FileRef} {path : List UInt8} :
    Still L (fsOpen p f path) := by
  refine still_bifsOpen.bind fun r => ?_
  split
  · exact Still.pure _
  refine Still.bind (Still.modify (fun _ => rfl) fun _ => rfl) fun _ => Still.get.bind fun k => ?_
  dsimp only
  split
  · refine Still.get.bind fun k => (still_kalloc hp).bind fun page => ?_
    split
    · exact Still.bind (Still.modify (fun _ => rfl) fun _ => rfl) fun _ => Still.pure _
    refine Still.bind (Still.modify (fun _ => rfl) fun _ => rfl) fun _ => Still.get.bind fun k => ?_
    split
    · refine Still.bind (Still.modify (fun _ => rfl) fun _ => rfl) fun _ => ?_
      exact Still.bind (Still.modify (fun _ => rfl) fun _ => rfl) fun _ => Still.pure _
    · refine Still.bind (Still.modify (fun _ => rfl) fun _ => rfl) fun _ => ?_
      refine Still.bind (Still.modify (fun _ => rfl) fun _ => rfl) fun _ => ?_
      exact Still.bind (Still.modify (fun _ => rfl) fun _ => rfl) fun _ => Still.pure _
  · exact Still.bind (Still.modify (fun _ => rfl) fun _ => rfl) fun _ => Still.pure _

theorem still_openFile (hp : .pagedMemory ∈ L) {p : Slot cfg} (ho : .proc p ∈ L) {f : FileRef}
    {path : ℕ} : Still L (openFile p f path) := by
  have hp' : Lock.pagedMemory ∈ L \ {Lock.proc p} := ⟨hp, by simp⟩
  refine Still.withLock ho (still_fdAlloc.bind fun fd => ?_)
  split
  · exact still_setErrno.bind fun _ => Still.pure _
  refine still_readString.bind fun s => (still_fsOpen hp').bind fun status => ?_
  split
  · exact still_setFd.bind fun _ => still_setErrno.bind fun _ => Still.pure _
  · exact Still.pure _

theorem still_procOpen (hp : .pagedMemory ∈ L) (hf : .ftable ∈ L) {p : Slot cfg} (ho : .proc p ∈ L)
    {filepath : ℕ} : Still L (procOpen p filepath) := by
  refine Still.get.bind fun k => ?_
  dsimp only
  split
  · exact still_setErrno.bind fun _ => Still.pure _
  refine (still_fsAllocFile hf).bind fun f => ?_
  split
  · exact still_setErrno.bind fun _ => Still.pure _
  · exact still_openFile hp ho

theorem still_readTail {p : Slot cfg} {f : FileRef} {nread : ℤ} : Still L (readTail p f nread) := by
  unfold readTail
  split
  · exact still_setErrno.bind fun _ => Still.pure _
  · exact Still.bind (Still.modify (fun _ => rfl) fun _ => rfl) fun _ => Still.pure _

theorem still_writeTail {p : Slot cfg} {status : ℤ} : Still L (writeTail p status) := by
  unfold writeTail
  split
  · exact still_setErrno.bind fun _ => Still.pure _
  · exact Still.pure _

theorem still_writeSize {buf nbytes : ℕ} : Still L (writeSize buf nbytes : KM cfg _) := by
  unfold writeSize
  split
  · refine still_readString.bind fun s => ?_
    exact Still.bind (Still.modify (fun _ => rfl) fun _ => rfl) fun _ => Still.pure _
  · exact Still.pure _

theorem still_uartTake {buf bufsize : ℕ} : Still L (uartTake buf bufsize : KM cfg _) := by
  refine Still.get.bind fun k => still_store.bind fun _ => ?_
  exact Still.bind (Still.modify (fun _ => rfl) fun _ => rfl) fun _ => Still.pure _

theorem still_uartWrite {buf nbytes : ℕ} : Still L (uartWrite buf nbytes : KM cfg _) :=
  Still.bind (Still.modify (fun _ => rfl) fun _ => rfl) fun _ => Still.pure _

theorem still_procDup {p : Slot cfg} {fd : ℕ} : Still L (procDup p fd) := by
  refine still_fileOf.bind fun f => ?_
  split
  · exact still_setErrno.bind fun _ => Still.pure _
  refine still_fdAlloc.bind fun newfd => ?_
  split
  · exact still_setErrno.bind fun _ => Still.pure _
  · exact Still.bind (Still.modify (fun _ => rfl) fun _ => rfl) fun _ => Still.pure _

theorem still_procIsopen {p : Slot cfg} {fd : ℤ} : Still L (procIsopen p fd) :=
  still_fileOf.bind fun _ => Still.pure _

theorem still_procLsdir {p : Slot cfg} {dir dirents size : ℕ} :
    Still L (procLsdir p dir dirents size) := by
  refine Still.get.bind fun k => still_readString.bind fun path => still_bifsOpendirpath.bind fun d => ?_
  split
  · exact still_setErrno.bind fun _ => Still.pure _
  have htail : ∀ status : ℤ, Still L (if status < 0 then do
      setErrno p (-status).toNat
      Pure.pure (-1)
    else Pure.pure status : KM cfg ℤ) := fun status => by
    split
    · exact still_setErrno.bind fun _ => Still.pure _
    · exact Still.pure _
  refine Still.get.bind fun k => ?_
  dsimp only
  split
  · exact still_bifsLsdir.bind htail
  · exact Still.bind (still_lsdirLoop _ _) htail

theorem still_procPgalloc (hp : .pagedMemory ∈ L) {p : Slot cfg} : Still L (procPgalloc p) := by
  refine Still.get.bind fun k => (still_allocatePage hp).bind fun page => ?_
  split
  · exact Still.pure _
  · exact (still_mapPageSv39 hp).bind fun _ => Still.pure _

theorem still_procPgfree (hp : .pagedMemory ∈ L) {p : Slot cfg} {page : ℕ} :
    Still L (procPgfree p page) :=
  Still.get.bind fun _ => (still_releasePage hp).bind fun _ => Still.pure _

/-! ## Marking for wake-up -/

/-- `update_proc_by_chan` of a sleeper on the channel wakes it or does nothing. -/
theorem updateProcByChan_ok {q : Slot cfg} {c : Chan cfg} {k : Kernel cfg} (h0 : c ≠ .null)
    (hs : (k.procs q).state = .sleeping) (hc : (k.procs q).chan = c) :
    ∃ k', updateProcByChan q c k = .ok () k' ∧ Woken k k' ∧ k'.held = k.held := by
  simp only [updateProcByChan, modify_bind_apply, get_bind_apply]
  cases ht : (k.procs q).cond.type with
  | chan =>
    refine ⟨_, rfl, ?_, rfl⟩
    rw [Woken, Kernel.wake_core]
    exact Wakes.chan (t := k.core) .refl h0 hs hc ht
  | nscheds =>
    have ho : asProcess { k with unsleepScheduler := true } c = k.core.asProcess c := by
      cases c <;> rfl
    dsimp only
    rw [ho]
    split
    · rename_i hn
      refine ⟨_, rfl, ?_, rfl⟩
      rw [Woken, Kernel.wake_core]
      exact Wakes.nscheds (t := k.core) .refl h0 hs hc ht hn.1 hn.2
    · exact ⟨_, rfl, SameCore.woken rfl, rfl⟩

/-- `proc_mark_for_wakeup`, at one slot. -/
theorem quiet_markSlot {c : Chan cfg} (h0 : c ≠ .null) (q : Slot cfg) : Quiet L (markSlot c q) := by
  intro H hH k
  simp only [markSlot, get_bind_apply]
  split
  · rename_i hk
    obtain ⟨k', he, hw, hh⟩ := updateProcByChan_ok (k := k.setHeld (.proc q) true) h0 hk.1 hk.2
    cases hl : k.held (.proc q) with
    | true =>
      rw [withLock, bind_error (acquire_deadlock hl)]
      exact ⟨(SameCore.refl k).woken, fun ha => absurd hk.1 (ha.2 q (by rw [← ha.1, hl]))⟩
    | false =>
      rw [withLock, bind_ok (acquire_ok hl), bind_ok he]
      refine ⟨hw, fun ha => ⟨?_, fun r hr => ?_⟩⟩
      · show Function.update k'.held _ false = H
        rw [hh]
        show Function.update (Function.update k.held _ true) _ false = H
        rw [update_held_self hl]
        exact ha.1
      · have hr' : (k.core.procs r).state ≠ .sleeping := ha.2 r hr
        show (k'.core.procs r).state ≠ _
        rw [show k'.core.procs r = k.core.procs r from hw.procs_of_ne_sleeping hr']
        exact hr'
  · exact ⟨(SameCore.refl k).woken, fun ha => ha⟩

theorem quiet_procMarkForWakeup (ht : .procTable ∈ L) {c : Chan cfg} (h0 : c ≠ .null) :
    Quiet L (procMarkForWakeup c) := by
  refine Quiet.withLock ht (by simp) ?_
  refine Quiet.get.bind fun k => ?_
  split
  · exact Quiet.pure _
  · exact Quiet.forM (quiet_markSlot h0)

theorem quiet_pipeCloseFile (ht : .procTable ∈ L) (hp : .pagedMemory ∈ L)
    (hi : ∀ i, .pipe i ∈ L) {f : FileRef} : Quiet L (pipeCloseFile f : KM cfg _) := by
  refine Quiet.get.bind fun k => ?_
  split
  · exact Quiet.pure _
  · exact Quiet.throw trivial
  rename_i i hf
  have ht' : Lock.procTable ∈ L \ {Lock.pipe i} := ⟨ht, by simp⟩
  have hp' : Lock.pagedMemory ∈ L \ {Lock.pipe i} := ⟨hp, by simp⟩
  refine Quiet.withLock (hi i) (by simp) (Quiet.get.bind fun k => ?_)
  dsimp only
  split
  · refine Quiet.bind (quiet_procMarkForWakeup ht' (by simp)) fun _ => ?_
    split
    · refine Still.quiet (Still.get.bind fun k => ?_)
      split
      · exact Still.throw trivial
      · exact Still.bind (Still.modify (fun _ => rfl) fun _ => rfl) fun _ =>
          still_freePipe hp'
    · exact Quiet.pure _
  · split
    · split
      · exact Quiet.bind (Quiet.modify (fun _ => rfl) fun _ => rfl) fun _ =>
          quiet_procMarkForWakeup ht' (by simp)
      · exact quiet_procMarkForWakeup ht' (by simp)
    · exact Quiet.pure _

theorem still_freeTmpfile (hp : .pagedMemory ∈ L) {f : FileRef} : Still L (freeTmpfile f : KM cfg _) := by
  refine Still.get.bind fun k => ?_
  dsimp only
  split
  · refine (still_releasePage hp).bind fun _ => ?_
    refine Still.bind (Still.modify (fun _ => rfl) fun _ => rfl) fun _ => ?_
    split
    · exact Still.throw trivial
    · exact Still.throw trivial
    · exact Still.modify (fun _ => rfl) fun _ => rfl
  · exact Still.pure _

theorem quiet_fsFreeFile (ht : .procTable ∈ L) (hp : .pagedMemory ∈ L)
    (hi : ∀ i, .pipe i ∈ L) {f : FileRef} : Quiet L (fsFreeFile f : KM cfg _) := by
  refine Quiet.bind (Quiet.modify (fun _ => rfl) fun _ => rfl) fun _ => ?_
  refine Quiet.get.bind fun k => ?_
  dsimp only
  split
  · exact (quiet_pipeCloseFile ht hp hi).bind fun _ => (still_freeTmpfile hp).quiet
  · exact (still_freeTmpfile hp).quiet

theorem quiet_procClose (ht : .procTable ∈ L) (hp : .pagedMemory ∈ L) (hi : ∀ i, .pipe i ∈ L)
    {p : Slot cfg} {fd : ℕ} : Quiet L (procClose p fd) := by
  refine still_fileOf.quiet.bind fun f => ?_
  split
  · exact (still_setErrno.bind fun _ => Still.pure _).quiet
  · exact (quiet_fsFreeFile ht hp hi).bind fun _ => (still_setFd.bind fun _ => Still.pure _).quiet

theorem quiet_pipeReadTry (ht : .procTable ∈ L) {i : Fin maxPipes} (hi : .pipe i ∈ L)
    {buf size : ℕ} : Quiet L (pipeReadTry i buf size : KM cfg _) := by
  have ht' : Lock.procTable ∈ L \ {Lock.pipe i} := ⟨ht, by simp⟩
  refine Quiet.withLock hi (by simp) (Quiet.get.bind fun k => ?_)
  dsimp only
  split
  · split
    · exact Quiet.pure _
    · exact Quiet.bind (quiet_procMarkForWakeup ht' (by simp)) fun _ => Quiet.pure _
  · exact (still_pipeTake.bind fun _ => Still.pure _).quiet

theorem quiet_pipeWriteTry (ht : .procTable ∈ L) {i : Fin maxPipes} (hi : .pipe i ∈ L)
    {buf nbytes nwritten : ℕ} : Quiet L (pipeWriteTry i buf nbytes nwritten : KM cfg _) := by
  have ht' : Lock.procTable ∈ L \ {Lock.pipe i} := ⟨ht, by simp⟩
  have htail : ∀ wr : ℕ, Still (L \ {.pipe i}) (if nwritten + wr = nbytes
      then Pure.pure (.inl (nwritten + wr : ℕ)) else Pure.pure (.inr (nwritten + wr)) :
        KM cfg (ℤ ⊕ ℕ)) := fun wr => by
    split
    · exact Still.pure _
    · exact Still.pure _
  have hmark : ∀ wr : ℕ, Quiet (L \ {.pipe i}) (do
      if 0 < wr then procMarkForWakeup (.pipe i)
      if nwritten + wr = nbytes then return .inl (nwritten + wr : ℕ) else return .inr (nwritten + wr) :
        KM cfg (ℤ ⊕ ℕ)) := fun wr => by
    dsimp only
    split
    · exact Quiet.bind (quiet_procMarkForWakeup ht' (by simp)) fun _ => (htail wr).quiet
    · exact (htail wr).quiet
  refine Quiet.withLock hi (by simp) (Quiet.get.bind fun k => ?_)
  dsimp only
  split
  · exact Quiet.pure _
  split
  · exact Quiet.bind still_pipeDoWrite.quiet hmark
  · exact Quiet.bind (Quiet.pure _) hmark

/-- The loop of `uart_enqueue_chars`. -/
theorem quiet_uartEnqueueLoop (ht : .procTable ∈ L) (chs : List UInt8) (wpos : ℕ) :
    Quiet L (uartEnqueueLoop chs wpos : KM cfg _) := by
  induction chs generalizing wpos with
  | nil => exact Quiet.pure _
  | cons ch chs ih =>
    refine Quiet.get.bind fun k => ?_
    dsimp only
    split
    · split
      · exact Quiet.bind (Quiet.modify (fun _ => rfl) fun _ => rfl) fun _ => ih _
      · exact ih _
    · split
      · exact (quiet_procMarkForWakeup ht (by simp)).bind fun _ => ih _
      · split
        · refine Quiet.bind (Quiet.modify (fun _ => rfl) fun _ => rfl) fun _ => ?_
          refine (quiet_procMarkForWakeup ht (by simp)).bind fun _ => ?_
          exact Quiet.bind (Quiet.modify (fun _ => rfl) fun _ => rfl) fun _ => ih _
        · exact Quiet.bind (Quiet.modify (fun _ => rfl) fun _ => rfl) fun _ => ih _

theorem quiet_uartEnqueueChars (ht : .procTable ∈ L) (received : List UInt8) :
    Quiet L (uartEnqueueChars received : KM cfg _) := by
  refine Quiet.get.bind fun k => (quiet_uartEnqueueLoop ht _ _).bind fun _ => ?_
  exact Quiet.modify (fun _ => rfl) fun _ => rfl

/-! ## Opening a pipe -/

/-- An update outside of the core and of the locks, and then `m`. -/
theorem along_modify_then {α : Type} {H : Lock cfg → Bool} {Q : α → Kernel cfg → Prop}
    {g : Kernel cfg → Kernel cfg} {m : PUnit → KM cfg α} (hc : ∀ k, (g k).core = k.core)
    (hh : ∀ k, (g k).held = k.held) (hm : Along SameCore (Holds H) Q Stop.isHalt (m ⟨⟩)) :
    Along SameCore (Holds H) Q Stop.isHalt (modify g >>= m) :=
  Along.bind (Still.modify (L := ∅) hc hh H (by simp)) SameCore.trans fun _ => hm

/-- The locks after `alloc_pipe`: that of the pipe it found is held. -/
def heldPipe (H : Lock cfg → Bool) : Option (Fin maxPipes) → Lock cfg → Bool
  | none => H
  | some i => Function.update H (.pipe i) true

theorem along_allocPipe {H : Lock cfg → Bool} (hp : H .pagedMemory = false) (hs : H .pipes = false)
    (hi : ∀ i, H (.pipe i) = false) {pid : ℕ} :
    Along SameCore (Holds H) (fun r => Holds (heldPipe H r)) Stop.isHalt
      (allocPipe pid : KM cfg _) := by
  have hk : Along SameCore (Holds H) (fun _ => Holds H) Stop.isHalt (kalloc pid : KM cfg _) :=
    still_kalloc (L := {.pagedMemory}) rfl H (by simpa using hp)
  refine hk.bind SameCore.trans fun buf => ?_
  cases buf with
  | none => exact Along.pure SameCore.refl fun _ h => h
  | some buf =>
    refine (along_acquire hs).bind SameCore.trans fun _ => ?_
    have hback : ∀ r : Option (Fin maxPipes), Function.update
        (heldPipe (Function.update H .pipes true) r) .pipes false = heldPipe H r := by
      intro r
      cases r with
      | none => exact update_held_self hs
      | some i => 
        rw [heldPipe, heldPipe, Function.update_comm (by simp), update_held_self hs]
    refine Along.bind (R := SameCore) (Q := fun r => Holds (heldPipe (Function.update H .pipes true) r)) ?_
      SameCore.trans fun r => ?_
    swap
    · exact (along_release (hback r)).bind SameCore.trans fun _ =>
        Along.pure SameCore.refl fun _ h => h
    refine (Still.get (L := ∅) _ (by simp)).bind SameCore.trans fun k => ?_
    split
    · exact Along.pure SameCore.refl fun _ h => h
    · rename_i i _
      refine along_modify_then (by intro _; rfl) (by intro _; rfl) ?_
      refine (along_acquire (by simp [hi])).bind SameCore.trans fun _ => ?_
      refine along_modify_then (by intro _; rfl) (by intro _; rfl) ?_
      exact Along.pure SameCore.refl fun _ h => h

/-- The end of a path that gives back the lock `l`. -/
theorem along_release_then {α : Type} {H : Lock cfg → Bool} {l : Lock cfg} {m : KM cfg α}
    (hl : H l = false) (hH : ∀ l ∈ L, H l = false) (hm : Still L m) :
    Along SameCore (Holds (Function.update H l true)) (fun _ => Holds H) Stop.isHalt
      (release l >>= fun _ => m) :=
  (along_release (update_held_self hl)).bind SameCore.trans fun _ => hm H hH

/-- `pipe_open` gives back the lock of the pipe. -/
theorem along_pipeEnds {H : Lock cfg → Bool} (hf : H .ftable = false) {i : Fin maxPipes}
    (hi : H (.pipe i) = false) {p : Slot cfg} {pipefd : ℕ} :
    Along SameCore (Holds (Function.update H (.pipe i) true)) (fun _ => Holds H) Stop.isHalt
      (pipeEnds p i pipefd) := by
  have hL : ∀ l ∈ ({.ftable} : Set (Lock cfg)), Function.update H (.pipe i) true l = false := by
    rintro l rfl
    simpa using hf
  have hfile := still_fsAllocFile (L := ({.ftable} : Set (Lock cfg))) rfl _ hL
  have herr : ∀ e, Along SameCore (Holds (Function.update H (.pipe i) true)) (fun _ => Holds H)
      Stop.isHalt (setErrno p e >>= fun _ => release (.pipe i) >>= fun _ => Pure.pure (-1 : ℤ)) :=
    fun e => (still_setErrno _ hL).bind SameCore.trans fun _ =>
      along_release_then (L := ∅) hi (by simp) (Still.pure _)
  refine along_modify_then (by intro _; rfl) (by intro _; rfl) ?_
  refine hfile.bind SameCore.trans fun f0 => hfile.bind SameCore.trans fun f1 => ?_
  split
  · refine along_modify_then (by intro _; rfl) (by intro _; rfl) ?_
    refine along_modify_then (by intro _; rfl) (by intro _; rfl) ?_
    refine along_modify_then (by intro _; rfl) (by intro _; rfl) ?_
    refine (still_fdAlloc _ hL).bind SameCore.trans fun fd0 => ?_
    refine (still_fdAlloc _ hL).bind SameCore.trans fun fd1 => ?_
    split
    · refine along_release_then (L := ∅) hi (by simp) (Still.get.bind fun k => ?_)
      dsimp only
      split
      · exact Still.throw trivial
      · exact still_store.bind fun _ => Still.pure _
    · exact herr _
  · exact herr _

theorem still_pipeOpen (hp : .pagedMemory ∈ L) (hs : .pipes ∈ L) (hf : .ftable ∈ L)
    (hi : ∀ i, .pipe i ∈ L) {p : Slot cfg} {pipefd : ℕ} : Still L (pipeOpen p pipefd) := by
  intro H hH
  refine (Still.get H hH).bind SameCore.trans fun k => ?_
  refine (along_allocPipe (hH _ hp) (hH _ hs) fun i => hH _ (hi i)).bind SameCore.trans fun r => ?_
  cases r with
  | none => exact Still.bind (L := L) still_setErrno (fun _ => Still.pure _) H hH
  | some i => exact along_pipeEnds (hH _ hf) (hH _ (hi i))

end HobbyOs
