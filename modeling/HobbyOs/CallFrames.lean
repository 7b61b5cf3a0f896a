import HobbyOs.Frames

/-!
# The frames of the system calls

Which parts a system call may change (`Call.parts`, `frame_runCall`), and which
parts the other code of the kernel may: a process that goes on (`frame_resume`),
the scheduler, and the interrupts.
-/

namespace HobbyOs

open Outcome

variable {cfg : Config} {α β : Type} {S : Set Part} {p q : Slot cfg}

/-! ## File objects -/

theorem frame_freeTmpfile (hf : .files ∈ S) (hh : .handles ∈ S) (hp : .pages ∈ S) (hb : .bdata ∈ S)
    {f : FileRef} : Frame S (freeTmpfile f : KM cfg Unit) := by
  refine Frame.get.bind fun k => ?_
  dsimp only
  split
  · refine (frame_releasePage hp).bind fun _ => Frame.bind (Frame.of_setFile hf hh) fun _ => ?_
    split
    · exact Frame.throw
    · exact Frame.throw
    · refine Frame.of_bfile (.inr fun k j' => ?_) (.inl hb)
      exact Function.apply_update (fun _ (x : BifsFile cfg) => x.listed) k.bfiles _ _ j' |>.trans
        (by simp [BifsFile.listed])
  · exact Frame.pure

theorem frame_fsFreeFile (hf : .files ∈ S) (hh : .handles ∈ S) (he : .ends ∈ S) (hp : .pages ∈ S)
    (hb : .bdata ∈ S) (hr : ∀ i, .ring i ∈ S) {f : FileRef} : Frame S (fsFreeFile f : KM cfg Unit) := by
  refine Frame.bind (Frame.of_setFile hf hh) fun _ => Frame.get.bind fun k => ?_
  dsimp only
  split
  · exact (frame_pipeCloseFile he hp hf hh hr).bind fun _ => frame_freeTmpfile hf hh hp hb
  · exact frame_freeTmpfile hf hh hp hb

theorem frame_fsOpen (hf : .files ∈ S) (hh : .handles ∈ S) (hp : .pages ∈ S) (hb : .bdata ∈ S)
    (hm : .kmem ∈ S) {f : FileRef} {path : List UInt8} : Frame S (fsOpen p f path) := by
  refine frame_bifsOpen.bind fun r => ?_
  split
  · exact Frame.pure
  have hread : Frame S (do
      modify fun k => k.setFile f { k.files f with read := .bifs, write := .bifs }
      return 0 : KM cfg ℤ) := Frame.bind (Frame.of_setFile hf hh) fun _ => Frame.pure
  have hdata : ∀ (j : Fin bifsMaxFiles) (page : ℕ), Frame S (do
      modify fun k => { k with
        bfiles := Function.update k.bfiles j { k.bfiles j with data := .page page } }
      modify fun k => k.setFile f { k.files f with read := .bifs, write := .bifs }
      return 0 : KM cfg ℤ) := by
    intro j page
    refine Frame.bind (Frame.of_bfile (.inr fun k j' => ?_) (.inl hb)) fun _ => hread
    by_cases hj : j' = j
    · subst hj
      simp [BifsFile.listed]
    · simp [hj]
  refine Frame.bind (Frame.of_setFile hf hh) fun _ => Frame.get.bind fun k => ?_
  dsimp only
  split
  · refine Frame.get.bind fun k => (frame_kalloc hp).bind fun page => ?_
    split
    · exact Frame.bind (Frame.of_setFile hf hh) fun _ => Frame.pure
    refine Frame.bind (Frame.of_setFile hf hh) fun _ => Frame.get.bind fun k => ?_
    split
    · exact hdata _ _
    · exact (frame_modifyKmem hm).bind fun _ => hdata _ _
  · exact hread

theorem frame_fsRead (hu : .uart ∈ S) (hr : ∀ i, .ring i ∈ S) {f : FileRef} {pos buf size : ℕ} :
    Frame S (fsRead p f pos buf size) := by
  refine Frame.get.bind fun k => ?_
  split
  · exact Frame.pure
  · exact frame_uartReadline hu
  · exact frame_bifsRead
  · exact frame_pipeRead hr

theorem frame_fsWrite (hm : .kmem ∈ S) (hr : ∀ i, .ring i ∈ S) {f : FileRef} {buf nbytes : ℕ} :
    Frame S (fsWrite p f buf nbytes) := by
  refine Frame.get.bind fun k => ?_
  split
  · exact Frame.pure
  · exact frame_uartWrite
  · exact Frame.pure
  · exact frame_pipeWrite hm hr

/-! ## Descriptors -/

theorem frame_fileOf {fd : ℤ} : Frame S (fileOf p fd) := by
  unfold fileOf
  split
  · exact Frame.get.bind fun k => Frame.pure
  · exact Frame.throw

theorem frame_setFd (hd : .fds ∈ S) {fd : ℕ} {f : Option FileRef} : Frame S (setFd p fd f) := by
  unfold setFd
  split
  · exact frame_modifyFiles hd
  · exact Frame.throw

theorem frame_procOpen (hf : .files ∈ S) (hh : .handles ∈ S) (hd : .fds ∈ S) (hp : .pages ∈ S)
    (hb : .bdata ∈ S) (hm : .kmem ∈ S) {filepath : ℕ} : Frame S (procOpen p filepath) := by
  refine Frame.get.bind fun k => ?_
  dsimp only
  split
  · exact frame_setErrno.bind fun _ => Frame.pure
  refine (frame_fsAllocFile hf hh).bind fun f => ?_
  split
  · exact frame_setErrno.bind fun _ => Frame.pure
  refine frame_withLock ((frame_fdAlloc hd).bind fun fd => ?_)
  split
  · exact frame_setErrno.bind fun _ => Frame.pure
  refine frame_readString.bind fun s => (frame_fsOpen hf hh hp hb hm).bind fun status => ?_
  split
  · exact (frame_setFd hd).bind fun _ => frame_setErrno.bind fun _ => Frame.pure
  · exact Frame.pure

theorem frame_readTail (hf : .files ∈ S) {f : FileRef} {nread : ℤ} : Frame S (readTail p f nread) := by
  unfold readTail
  split
  · exact frame_setErrno.bind fun _ => Frame.pure
  · exact Frame.bind (Frame.of_setFile_handle hf fun _ => rfl) fun _ => Frame.pure

theorem frame_procRead (hf : .files ∈ S) (hu : .uart ∈ S) (hr : ∀ i, .ring i ∈ S) {fd buf size : ℕ} :
    Frame S (procRead p fd buf size) := by
  refine frame_fileOf.bind fun f => ?_
  split
  · exact frame_setErrno.bind fun _ => Frame.pure
  refine Frame.get.bind fun k => ?_
  dsimp only
  split
  · exact frame_setErrno.bind fun _ => Frame.pure
  · exact (frame_fsRead hu hr).bind fun _ => frame_readTail hf

theorem frame_writeTail {status : ℤ} : Frame S (writeTail p status) := by
  unfold writeTail
  split
  · exact frame_setErrno.bind fun _ => Frame.pure
  · exact Frame.pure

theorem frame_writeSize {buf nbytes : ℕ} : Frame S (writeSize buf nbytes : KM cfg ℕ) := by
  unfold writeSize
  split
  · refine frame_readString.bind fun s => ?_
    refine Frame.bind (Frame.of_log (fun _ => rfl) fun _ => ⟨[_], rfl, ?_⟩) fun _ => Frame.pure
    simp [Io.pipe]
  · exact Frame.pure

theorem frame_procWrite (hm : .kmem ∈ S) (hr : ∀ i, .ring i ∈ S) {fd buf nbytes : ℕ} :
    Frame S (procWrite p fd buf nbytes) := by
  refine frame_fileOf.bind fun f => ?_
  split
  · exact frame_setErrno.bind fun _ => Frame.pure
  refine Frame.get.bind fun k => ?_
  dsimp only
  split
  · exact frame_setErrno.bind fun _ => Frame.pure
  exact frame_writeSize.bind fun _ => (frame_fsWrite hm hr).bind fun _ => frame_writeTail

theorem frame_procClose (hf : .files ∈ S) (hh : .handles ∈ S) (he : .ends ∈ S) (hp : .pages ∈ S)
    (hb : .bdata ∈ S) (hr : ∀ i, .ring i ∈ S) (hd : .fds ∈ S) {fd : ℕ} :
    Frame S (procClose p fd) := by
  refine frame_fileOf.bind fun f => ?_
  split
  · exact frame_setErrno.bind fun _ => Frame.pure
  · refine (frame_fsFreeFile hf hh he hp hb hr).bind fun _ => ?_
    exact (frame_setFd hd).bind fun _ => Frame.pure

theorem frame_procDup (hf : .files ∈ S) (hh : .handles ∈ S) (hd : .fds ∈ S) {fd : ℕ} :
    Frame S (procDup p fd) := by
  refine frame_fileOf.bind fun f => ?_
  split
  · exact frame_setErrno.bind fun _ => Frame.pure
  refine (frame_fdAlloc hd).bind fun newfd => ?_
  split
  · exact frame_setErrno.bind fun _ => Frame.pure
  · exact Frame.bind (Frame.of_setFile hf hh) fun _ => Frame.pure

theorem frame_procPipeattch (hf : .files ∈ S) (hh : .handles ∈ S) (hd : .fds ∈ S) {pid : ℕ} {fd : ℤ} :
    Frame S (procPipeattch p pid fd) := by
  refine frame_acquire.bind fun _ => frame_fileOf.bind fun f => ?_
  split
  · exact frame_setErrno.bind fun _ => Frame.pure
  refine Frame.bind (Frame.of_setFile hf hh) fun _ => frame_release.bind fun _ => Frame.get.bind fun k => ?_
  split
  · refine Frame.bind (Frame.of_setFile hf hh) fun _ => ?_
    exact frame_setErrno.bind fun _ => Frame.pure
  refine frame_acquire.bind fun _ => Frame.get.bind fun k => ?_
  split
  · refine Frame.bind (Frame.of_setFile hf hh) fun _ => frame_release.bind fun _ => ?_
    exact frame_setErrno.bind fun _ => Frame.pure
  · refine Frame.bind (Frame.of_setProc fun k x hx => ?_) fun _ => frame_release.bind fun _ => Frame.pure
    cases x with
    | fds => exact absurd hd hx
    | procfs => exact ⟨rfl, rfl, rfl⟩
    | stackPages => exact ⟨rfl, rfl, rfl⟩
    | _ => trivial

theorem frame_procLsdir {dir dirents size : ℕ} : Frame S (procLsdir p dir dirents size) := by
  refine Frame.get.bind fun k => frame_readString.bind fun path => ?_
  refine frame_bifsOpendirpath.bind fun d => ?_
  have hend : ∀ status : ℤ, Frame S (if status < 0 then do
      setErrno p (-status).toNat
      return -1
      else return status : KM cfg ℤ) := by
    intro status
    split
    · exact frame_setErrno.bind fun _ => Frame.pure
    · exact Frame.pure
  split
  · exact frame_setErrno.bind fun _ => Frame.pure
  refine Frame.get.bind fun k => ?_
  split
  · exact (Frame.get.bind fun _ => frame_lsdirLoop _ _).bind hend
  · exact (frame_lsdirLoop _ _).bind hend

/-! ## Information and memory -/

theorem frame_procPlist {pids size : ℕ} : Frame S (procPlist p pids size) := by
  refine Frame.get.bind fun k => ?_
  dsimp only
  split
  · exact frame_setErrno.bind fun _ => Frame.pure
  · exact frame_withLock (Frame.get.bind fun k => frame_store.bind fun _ => Frame.pure)

theorem frame_procPinfo {pid pinfo : ℕ} : Frame S (procPinfo p pid pinfo) := by
  have hstore : ∀ a q, Frame S (storePinfo a q : KM cfg Unit) := by
    intro a q
    refine Frame.get.bind fun k => ?_
    dsimp only
    split
    · exact Frame.throw
    · exact frame_store.bind fun _ => frame_store.bind fun _ => frame_store.bind fun _ => frame_store
  refine Frame.get.bind fun k => ?_
  dsimp only
  split
  · exact Frame.pure
  refine frame_withLock (Frame.get.bind fun k => ?_)
  split
  · exact Frame.pure
  split
  · exact (frame_withLock (hstore _ _)).bind fun _ => Frame.pure
  · exact (hstore _ _).bind fun _ => Frame.pure

theorem frame_procSysinfo {info : ℕ} : Frame S (procSysinfo p info) := by
  refine Frame.get.bind fun k => ?_
  refine (frame_withLock ?_).bind fun _ => ?_
  · split
    · exact Frame.throw
    · exact Frame.get.bind fun k => frame_store
  · refine (frame_withLock ?_).bind fun _ => Frame.pure
    exact Frame.get.bind fun k => frame_store.bind fun _ => frame_store

theorem frame_procPgalloc (hp : .pages ∈ S) (ht : .pte ∈ S) : Frame S (procPgalloc p) := by
  refine Frame.get.bind fun k => (frame_allocatePage hp).bind fun page => ?_
  split
  · exact Frame.pure
  · exact (frame_mapPageSv39 hp ht).bind fun _ => Frame.pure

theorem frame_procPgfree (hp : .pages ∈ S) {page : ℕ} : Frame S (procPgfree p page) :=
  Frame.get.bind fun _ => (frame_releasePage hp).bind fun _ => Frame.pure

/-! ## Waiting -/

theorem frame_procWait (hp : .pages ∈ S) {cond : ℕ} : Frame S (procWait p cond) := by
  refine Frame.get.bind fun k => ?_
  dsimp only
  split
  · unfold procWaitByCond
    split
    · exact frame_setErrno.bind fun _ => Frame.pure
    refine Frame.get.bind fun k => ?_
    split
    · exact frame_setErrno.bind fun _ => Frame.pure
    · exact Frame.bind (frame_modifyProc fun _ => rfl) fun _ => frame_psleep
  · refine (frame_checkExitedChildren hp).bind fun pid => ?_
    split
    · exact Frame.get.bind fun k => frame_record.bind fun _ => Frame.pure
    · exact frame_psleep

theorem frame_procSleep {ms : ℕ} : Frame S (procSleep p ms) :=
  Frame.get.bind fun _ => Frame.bind (frame_modifyProc fun _ => rfl) fun _ => frame_psleep

theorem frame_procDetach : Frame S (procDetach p) := by
  refine Frame.get.bind fun k => ?_
  dsimp only
  split
  · exact Frame.pure
  refine Frame.bind (frame_withLock ?_) fun _ => Frame.bind (frame_withLock ?_) fun _ => Frame.pure
  · exact frame_modifyProc fun _ => rfl
  · refine Frame.get.bind fun k => ?_
    split
    · exact frame_setState
    · exact Frame.pure

/-! ## Programs -/

/-- An update of the pages of a process. -/
theorem frame_modifyStack (hs : .stackPages ∈ S) {g : Proc cfg → Proc cfg}
    (h : ∀ x, (g x).files = x.files ∧ (g x).procfsDir = x.procfsDir ∧
      (g x).procfsNameFile = x.procfsNameFile ∧ (g x).piddir = x.piddir) : Frame S (modifyProc q g) := by
  refine Frame.of_setProc fun k x hx => ?_
  cases x with
  | fds => exact (h _).1
  | procfs => exact (h _).2
  | stackPages => exact absurd hs hx
  | _ => trivial

theorem frame_procExecv (hp : .pages ∈ S) (ht : .pte ∈ S) (hs : .stackPages ∈ S) (hb : .bdata ∈ S)
    {filename argv : ℕ} : Frame S (procExecv p filename argv) := by
  have hloop : ∀ (is : List ℕ) (argv sp spc : ℕ), Frame S (copyArgvLoop p argv sp is spc) := by
    intro is argv sp
    induction is with
    | nil => exact fun _ => Frame.pure
    | cons i is ih =>
      refine fun spc => Frame.get.bind fun k => frame_readString.bind fun s => ?_
      exact frame_store.bind fun _ => frame_store.bind fun _ => ih _
  have hcopy : ∀ {sp argc argv : ℕ}, Frame S (copyArgv p sp argc argv) := by
    intro sp argc argv
    unfold copyArgv
    split
    · exact Frame.pure
    · exact frame_store.bind fun _ => (hloop _ _ _ _).bind fun _ => Frame.pure
  refine frame_acquire.bind fun _ => Frame.get.bind fun k => ?_
  dsimp only
  split
  · exact frame_setErrno.bind fun _ => Frame.pure
  split
  · exact frame_setErrno.bind fun _ => Frame.pure
  refine (frame_kalloc hp).bind fun sp => ?_
  split
  · exact frame_setErrno.bind fun _ => Frame.pure
  refine Frame.bind (frame_modifyProc fun _ => rfl) fun _ => Frame.get.bind fun k => ?_
  dsimp only
  split
  · exact Frame.throw
  refine hcopy.bind fun r => (frame_mapStack hp ht).bind fun _ => (frame_releasePage hp).bind fun _ => ?_
  refine Frame.bind (frame_modifyStack hs fun _ => ⟨rfl, rfl, rfl, rfl⟩) fun _ => ?_
  refine Frame.bind (Frame.of_rest fun _ => rfl) fun _ => ?_
  split
  · exact Frame.throw
  · refine Frame.bind (Frame.of_bfile (.inr fun k j' => ?_) (.inl hb)) fun _ => ?_
    · exact Function.apply_update (fun _ (x : BifsFile cfg) => x.listed) k.bfiles _ _ j' |>.trans
        (by simp [BifsFile.listed])
    · exact frame_release.bind fun _ => Frame.pure

/-! ## Creation -/

theorem frame_allocPid : Frame S (allocPid : KM cfg ℕ) :=
  frame_withLock (Frame.get.bind fun _ => Frame.bind (Frame.of_rest fun _ => rfl) fun _ => Frame.pure)

theorem frame_allocProcess : Frame S (allocProcess : KM cfg _) := by
  refine frame_withLock (Frame.findSomeM fun q => Frame.get.bind fun k => ?_)
  split
  · exact Frame.pure
  refine frame_acquire.bind fun _ => Frame.get.bind fun k => ?_
  split
  · exact Frame.pure
  · exact frame_release.bind fun _ => Frame.pure

theorem frame_initProcPages (hp : .pages ∈ S) (ht : .pte ∈ S) (hs : .stackPages ∈ S) :
    Frame S (initProcPages q) := by
  refine Frame.get.bind fun k => (frame_kalloc hp).bind fun sp => ?_
  split
  · exact Frame.pure
  refine (frame_kalloc hp).bind fun ksp => ?_
  split
  · exact (frame_releasePage hp).bind fun _ => Frame.pure
  dsimp only
  split
  · refine (frame_kalloc hp).bind fun pt => ?_
    split
    · exact (frame_releasePage hp).bind fun _ => (frame_releasePage hp).bind fun _ => Frame.pure
    · refine Frame.bind (frame_modifyStack hs fun _ => ⟨rfl, rfl, rfl, rfl⟩) fun _ => ?_
      exact (frame_initUserPageTable hp ht).bind fun _ => (frame_mapStack hp ht).bind fun _ => Frame.pure
  · exact Frame.pure

/-- An update of the directory and the file of a process in `/proc`. -/
theorem frame_modifyProcfs (hf : .procfs ∈ S) {g : Proc cfg → Proc cfg}
    (h : ∀ x, (g x).files = x.files ∧ (g x).stackPage = x.stackPage ∧ (g x).kstackPage = x.kstackPage ∧
      (g x).upagetable = x.upagetable) : Frame S (modifyProc q g) := by
  refine Frame.of_setProc fun k x hx => ?_
  cases x with
  | fds => exact (h _).1
  | procfs => exact absurd hf hx
  | stackPages => exact (h _).2
  | _ => trivial

theorem frame_initProcfsFiles (hd : .dirs ∈ S) (hn : .bfiles ∈ S) (hb : .bdata ∈ S) (hf : .procfs ∈ S)
    {name : Option (List UInt8)} : Frame S (initProcfsFiles q name) := by
  refine Frame.get.bind fun k => ?_
  split
  · exact Frame.pure
  refine Frame.bind (frame_modifyProcfs hf fun _ => ⟨rfl, rfl, rfl, rfl⟩) fun _ => ?_
  refine (frame_bifsMkdir hd).bind fun d => ?_
  refine Frame.bind (frame_modifyProcfs hf fun _ => ⟨rfl, rfl, rfl, rfl⟩) fun _ => ?_
  split
  · exact Frame.pure
  refine (frame_bifsAllocateFile hn).bind fun j => ?_
  refine Frame.bind (frame_modifyProcfs hf fun _ => ⟨rfl, rfl, rfl, rfl⟩) fun _ => ?_
  split
  · exact Frame.pure
  refine Frame.bind (Frame.of_bfile (.inl hn) (.inl hb)) fun _ => (frame_bifsAllocateFile hn).bind fun j => ?_
  split
  · exact Frame.pure
  · exact Frame.bind (Frame.of_bfile (.inl hn) (.inl hb)) fun _ => Frame.pure

theorem frame_initProc (hd : .dirs ∈ S) (hn : .bfiles ∈ S) (hb : .bdata ∈ S) (hf : .procfs ∈ S)
    (hp : .pages ∈ S) (ht : .pte ∈ S) (hs : .stackPages ∈ S) (hfd : .fds ∈ S) {pc : ℕ}
    {name : Option (List UInt8)} : Frame S (initProc q pc name) := by
  refine frame_allocPid.bind fun n => Frame.bind (frame_modifyProc fun _ => rfl) fun _ => ?_
  refine (frame_initProcPages hp ht hs).bind fun o => ?_
  split
  · exact Frame.pure
  refine Frame.get.bind fun k => Frame.bind ?_ fun _ => frame_setState.bind fun _ =>
    frame_store.bind fun _ => ?_
  · refine Frame.of_setProc fun k x hx => ?_
    cases x with
    | fds => exact absurd hfd hx
    | procfs => exact ⟨rfl, rfl, rfl⟩
    | stackPages => exact absurd hs hx
    | _ => trivial
  refine (frame_initProcfsFiles hd hn hb hf).bind fun status => ?_
  split
  · exact Frame.pure
  · exact Frame.bind (frame_withLock (Frame.of_rest fun _ => rfl)) fun _ => Frame.pure

theorem frame_copyFiles (hf : .files ∈ S) (hh : .handles ∈ S) (hd : .fds ∈ S) :
    Frame S (copyFiles q p) := by
  refine Frame.forM fun i => Frame.get.bind fun k => ?_
  dsimp only
  split
  · exact frame_modifyFiles hd
  · exact Frame.bind (Frame.of_setFile hf hh) fun _ => frame_modifyFiles hd

theorem frame_copyProcess (hf : .files ∈ S) (hh : .handles ∈ S) (hfd : .fds ∈ S) (hp : .pages ∈ S)
    (ht : .pte ∈ S) : Frame S (copyProcess p q) := by
  refine Frame.get.bind fun k => frame_copyPage.bind fun _ => frame_copyPage.bind fun _ => ?_
  refine (frame_copyFiles hf hh hfd).bind fun _ => (frame_copyPageTable hp ht).bind fun _ => ?_
  exact frame_mapStack hp ht

theorem frame_forkChild (hf : .files ∈ S) (hh : .handles ∈ S) (hfd : .fds ∈ S) (hp : .pages ∈ S)
    (ht : .pte ∈ S) : Frame S (forkChild p q) := by
  refine Frame.bind (Frame.of_setProc_rest fun _ => rfl) fun _ => ?_
  refine (frame_copyProcess hf hh hfd hp ht).bind fun _ => ?_
  refine Frame.bind (Frame.of_setProc_rest fun _ => rfl) fun _ => frame_release.bind fun _ =>
    Frame.get.bind fun k => ?_
  exact Frame.bind (Frame.of_rest fun _ => rfl) fun _ => frame_record.bind fun _ => Frame.pure

/-- The parts that `proc_fork` may change. -/
theorem frame_procFork (hf : .files ∈ S) (hh : .handles ∈ S) (hfd : .fds ∈ S) (hd : .dirs ∈ S)
    (hn : .bfiles ∈ S) (hb : .bdata ∈ S) (hpr : .procfs ∈ S) (hp : .pages ∈ S) (ht : .pte ∈ S)
    (hs : .stackPages ∈ S) : Frame S (procFork p) := by
  refine Frame.bind (Frame.of_setProc_rest fun _ => rfl) fun _ => frame_allocProcess.bind fun o => ?_
  split
  · exact frame_setErrno.bind fun _ => Frame.throw
  refine Frame.get.bind fun k => (frame_initProc hd hn hb hpr hp ht hs hfd).bind fun status => ?_
  split
  · exact frame_setErrno.bind fun _ => frame_release.bind fun _ => Frame.pure
  exact frame_forkChild hf hh hfd hp ht

/-! ## Exit -/

theorem frame_wakeParent {x : Proc cfg} {r : Slot cfg} : Frame S (wakeParent x r) :=
  frame_withLock (frame_setState.bind fun _ => Frame.of_rest fun _ => rfl)

theorem frame_leaveTable (hs : .dirs ∈ S) (hn : .bfiles ∈ S) (x : Proc cfg) : Frame S (leaveTable p x) := by
  unfold leaveTable
  split
  · rename_i j _ _
    refine Frame.bind (frame_modifyDirs hs) fun _ => ?_
    refine Frame.bind (Frame.of_bfile (.inl hn) (.inr fun k j' => ?_)) fun _ => ?_
    · by_cases hj : j' = j
      · subst hj
        simp
      · simp [hj]
    refine Frame.bind (frame_withLock ?_) fun _ => ?_
    · exact Frame.of_rest fun _ => rfl
    · exact Frame.bind (frame_modifyProc fun _ => rfl) fun _ => Frame.throw
  · exact Frame.throw

theorem frame_closeFiles (hf : .files ∈ S) (hh : .handles ∈ S) (he : .ends ∈ S) (hp : .pages ∈ S)
    (hb : .bdata ∈ S) (hr : ∀ i, .ring i ∈ S) (files : Fin maxProcFds → Option FileRef) :
    Frame S (closeFiles files : KM cfg _) := by
  refine Frame.forM fun i => ?_
  split
  · exact Frame.pure
  · exact frame_fsFreeFile hf hh he hp hb hr

theorem frame_procExit (hf : .files ∈ S) (hh : .handles ∈ S) (he : .ends ∈ S) (hp : .pages ∈ S)
    (hb : .bdata ∈ S) (hr : ∀ i, .ring i ∈ S) (hs : .dirs ∈ S) (hn : .bfiles ∈ S) :
    Frame S (procExit p) := by
  refine Frame.get.bind fun k => (frame_releasePage hp).bind fun _ => Frame.get.bind fun k => ?_
  refine (frame_freePageTable hp).bind fun _ => frame_setState.bind fun _ => Frame.get.bind fun k => ?_
  dsimp only
  split
  · exact Frame.throw
  · refine frame_wakeParent.bind fun _ => (frame_closeFiles hf hh he hp hb hr _).bind fun _ => ?_
    exact frame_leaveTable hs hn _

/-! ## System calls -/

/-- The parts that a system call may change. -/
def Call.parts : Call → Set Part
  | .exit => {.files, .handles, .ends, .dirs, .bfiles, .bdata, .pages} ∪ Set.range .ring
  | .fork => Set.univ
  | .read .. => {.files, .uart} ∪ Set.range .ring
  | .write .. => {.kmem} ∪ Set.range .ring
  | .open _ => {.files, .handles, .fds, .bdata, .pages, .kmem}
  | .close _ => {.files, .handles, .ends, .fds, .bdata, .pages} ∪ Set.range .ring
  | .wait _ => {.pages}
  | .execv .. => {.pages, .pte, .stackPages, .bdata}
  | .dup _ => {.files, .handles, .fds}
  | .pipe _ => {.files, .handles, .fds, .ends, .pages} ∪ Set.range .ring
  | .pgalloc => {.pages, .pte}
  | .pgfree _ => {.pages}
  | .pipeattch .. => {.files, .handles, .fds}
  | .getpid | .sysinfo _ | .sleep _ | .plist .. | .pinfo .. | .gpio .. | .detach | .isopen _ | .lsdir .. => ∅

theorem frame_runCall (p : Slot cfg) (c : Call) : Frame c.parts (runCall p c) := by
  cases c with
  | exit =>
    exact frame_procExit (by simp [Call.parts]) (by simp [Call.parts]) (by simp [Call.parts])
      (by simp [Call.parts]) (by simp [Call.parts]) (by simp [Call.parts]) (by simp [Call.parts])
      (by simp [Call.parts])
  | fork => exact fun k x hx => absurd trivial hx
  | read => exact frame_procRead (by simp [Call.parts]) (by simp [Call.parts]) (by simp [Call.parts])
  | write => exact frame_procWrite (by simp [Call.parts]) (by simp [Call.parts])
  | «open» =>
    exact frame_procOpen (by simp [Call.parts]) (by simp [Call.parts]) (by simp [Call.parts])
      (by simp [Call.parts]) (by simp [Call.parts]) (by simp [Call.parts])
  | close =>
    exact frame_procClose (by simp [Call.parts]) (by simp [Call.parts]) (by simp [Call.parts])
      (by simp [Call.parts]) (by simp [Call.parts]) (by simp [Call.parts]) (by simp [Call.parts])
  | wait => exact frame_procWait (by simp [Call.parts])
  | execv =>
    exact frame_procExecv (by simp [Call.parts]) (by simp [Call.parts]) (by simp [Call.parts])
      (by simp [Call.parts])
  | getpid => exact Frame.get.bind fun _ => Frame.pure
  | dup => exact frame_procDup (by simp [Call.parts]) (by simp [Call.parts]) (by simp [Call.parts])
  | pipe =>
    exact frame_pipeOpen (by simp [Call.parts]) (by simp [Call.parts]) (by simp [Call.parts])
      (by simp [Call.parts]) (by simp [Call.parts]) (by simp [Call.parts])
  | sysinfo => exact frame_procSysinfo
  | sleep => exact frame_procSleep
  | plist => exact frame_procPlist
  | pinfo => exact frame_procPinfo
  | pgalloc => exact frame_procPgalloc (by simp [Call.parts]) (by simp [Call.parts])
  | pgfree => exact frame_procPgfree (by simp [Call.parts])
  | gpio => exact Frame.pure
  | detach => exact frame_procDetach
  | isopen => exact frame_fileOf.bind fun _ => Frame.pure
  | pipeattch =>
    exact frame_procPipeattch (by simp [Call.parts]) (by simp [Call.parts]) (by simp [Call.parts])
  | lsdir => exact frame_procLsdir

theorem frame_syscallTail {ret : ℤ} : Frame S (syscallTail p ret) := by
  refine Frame.bind (Frame.of_rest fun _ => rfl) fun _ => Frame.get.bind fun k => ?_
  split
  · exact Frame.throw
  · exact Frame.pure

/-! ## The rest of the kernel -/

theorem frame_afterYield (hp : .pages ∈ S) {call : Kont cfg} : Frame S (afterYield p call) :=
  (frame_checkExitedChildren hp).bind fun _ => Frame.of_rest fun _ => rfl

/-- The parts that a process may change when it goes on from `call`. -/
theorem frame_resumeFrom (hf : .files ∈ S) (hm : .kmem ∈ S) (hp : .pages ∈ S) {call : Kont cfg}
    (hr : ∀ i, call.yieldChan = some (.pipe i) → .ring i ∈ S)
    (hu : ∀ f buf size, call = .uartRead f buf size → .uart ∈ S) : Frame S (resumeFrom p call) := by
  have hread : ∀ f n, Frame S (do syscallTail p (← readTail p f n) : KM cfg Unit) := fun f n =>
    (frame_readTail hf).bind fun _ => frame_syscallTail
  cases call with
  | forkret => exact Frame.bind (Frame.of_rest fun _ => rfl) fun _ => frame_release
  | timerTick => exact Frame.pure
  | exited => exact frame_syscallTail
  | waitChild =>
    refine (frame_checkExitedChildren hp).bind fun _ => Frame.get.bind fun k => ?_
    exact frame_record.bind fun _ => frame_syscallTail
  | waitCond => exact (frame_checkExitedChildren hp).bind fun _ => frame_syscallTail
  | sleep => exact (frame_checkExitedChildren hp).bind fun _ => frame_syscallTail
  | pipeRead =>
    exact (frame_afterYield hp).bind fun _ =>
      (frame_pipeReadLoopTop (hr _ rfl)).bind fun n => hread _ n
  | pipeWrite =>
    refine (frame_afterYield hp).bind fun _ => (frame_pipeWriteResume hm (hr _ rfl)).bind fun n => ?_
    exact frame_writeTail.bind fun _ => frame_syscallTail
  | uartRead =>
    exact (frame_afterYield hp).bind fun _ => (frame_uartReadline (hu _ _ _ rfl)).bind fun n => hread _ n

theorem frame_resume (hf : .files ∈ S) (hm : .kmem ∈ S) (hp : .pages ∈ S) (hr : ∀ i, .ring i ∈ S)
    (hu : .uart ∈ S) : Frame S (resume p) :=
  Frame.get.bind fun _ => frame_resumeFrom hf hm hp (fun i _ => hr i) fun _ _ _ _ => hu

theorem frame_examine : Frame S (examine p) := by
  have hrun : Frame S (runSlot p) := by
    refine frame_setState.bind fun _ => Frame.bind (Frame.of_rest fun _ => rfl) fun _ => ?_
    refine Frame.bind (frame_modifyProc fun _ => rfl) fun _ => frame_procMarkForWakeup.bind fun _ => ?_
    exact Frame.bind (Frame.of_rest fun _ => rfl) fun _ => Frame.pure
  have hend : Frame S (do
      if ((← get).procs p).state = .ready then runSlot p
      else
        release (.proc p)
        return false : KM cfg Bool) := by
    refine Frame.get.bind fun k => ?_
    split
    · exact hrun
    · exact frame_release.bind fun _ => Frame.pure
  refine frame_acquire.bind fun _ => Frame.get.bind fun k => ?_
  dsimp only
  split
  · exact frame_setState.bind fun _ => hend
  · exact hend

theorem frame_preempt : Frame S (preempt p) :=
  frame_setState.bind fun _ => Frame.bind (frame_modifyProc fun _ => rfl) fun _ => Frame.throw

end HobbyOs
