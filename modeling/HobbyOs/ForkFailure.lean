import HobbyOs.Births
import HobbyOs.TablePages
import HobbyOs.Tree

/-!
# Forks that fail

`proc_fork` allocates in turn a slot, the pages of the process, a directory and
two files. When a page is missing, the pages that were taken are given back.
When there is no room in `/proc` nothing is: the slot stays ready. Without a slot
the lock of a null process is released.

* `forkChild_avoids`, `initProc_avoids`: the rest of `proc_fork` goes through no
  null process;
* `ProcStands`: `/proc` is found in every state reached;
* `fork_fails_clean_iff`: a fork that fails leaves the tables as they were if and
  only if there is a slot and, where there are as many free pages as a process takes,
  room in `/proc`.
-/

namespace HobbyOs

open Outcome Transition

variable {cfg : Config} {α : Type} {p q : Slot cfg} {k k' k₁ : Kernel cfg} {m : Machine cfg}

/-! ## No null process -/

theorem acquire_avoids {l : Lock cfg} : Avoids .nullProcess (acquire l) := by
  refine Avoids.get.bind fun k => ?_
  split
  · exact .throw (by simp)
  · exact .modify

theorem withLock_avoids {l : Lock cfg} {m : KM cfg α} (hm : Avoids .nullProcess m) :
    Avoids .nullProcess (withLock l m) :=
  acquire_avoids.bind fun _ => hm.bind fun _ => .bind .modify fun _ => .pure

theorem kalloc_avoids {pid : ℕ} : Avoids .nullProcess (kalloc pid : KM cfg (Option ℕ)) := by
  refine withLock_avoids (Avoids.get.bind fun k => ?_)
  cases freePage k with
  | none => exact .pure
  | some i => exact .bind .modify fun _ => .pure

theorem releasePage_avoids {ptr : ℕ} : Avoids .nullProcess (releasePage ptr : KM cfg Unit) :=
  withLock_avoids .modify

theorem mapPageLevel_avoids {pa va perm pid : ℕ} (level pt : ℕ) :
    Avoids .nullProcess (mapPageLevel pa va perm pid level pt : KM cfg Unit) := by
  induction level generalizing pt with
  | zero => exact .modify
  | succ level ih =>
    refine Avoids.get.bind fun k => ?_
    dsimp only
    split
    · refine kalloc_avoids.bind fun a => ?_
      cases a with
      | none => exact .throw (by simp)
      | some next => exact .bind .modify fun _ => .bind .modify fun _ => ih _
    · exact ih _

theorem mapPageSv39_avoids {pt pa va perm pid : ℕ} :
    Avoids .nullProcess (mapPageSv39 pt pa va perm pid : KM cfg Unit) := by
  unfold mapPageSv39
  split
  · exact mapPageLevel_avoids _ _
  · exact .pure

theorem mapStack_avoids {pt sp pid : ℕ} : Avoids .nullProcess (mapStack pt sp pid : KM cfg Unit) :=
  mapPageSv39_avoids.bind fun _ => mapPageSv39_avoids

theorem initUserPageTable_avoids {pt pid : ℕ} :
    Avoids .nullProcess (initUserPageTable pt pid : KM cfg Unit) := by
  have hrange : ∀ {pa va perm n : ℕ}, Avoids .nullProcess (mapRange pt pa va perm pid n : KM cfg Unit) :=
    .forM fun _ => mapPageSv39_avoids
  unfold initUserPageTable
  split
  · refine .bind .modify fun _ => mapPageSv39_avoids.bind fun _ => mapPageSv39_avoids.bind fun _ => ?_
    exact mapPageSv39_avoids.bind fun _ => mapPageSv39_avoids.bind fun _ => hrange.bind fun _ => hrange
  · exact .pure

theorem initProcPages_avoids : Avoids .nullProcess (initProcPages q) := by
  refine Avoids.get.bind fun k => kalloc_avoids.bind fun sp => ?_
  cases sp with
  | none => exact .pure
  | some sp =>
    refine kalloc_avoids.bind fun ksp => ?_
    cases ksp with
    | none => exact releasePage_avoids.bind fun _ => .pure
    | some ksp =>
      dsimp only
      split
      · refine kalloc_avoids.bind fun pt => ?_
        cases pt with
        | none => exact releasePage_avoids.bind fun _ => releasePage_avoids.bind fun _ => .pure
        | some pt =>
          exact .bind .modify fun _ => initUserPageTable_avoids.bind fun _ =>
            mapStack_avoids.bind fun _ => .pure
      · exact .pure

theorem bifsOpendir_avoids {parent : Fin bifsMaxDirs} {name : List UInt8} {start stop : ℕ} :
    Avoids .nullProcess (bifsOpendir parent name start stop : KM cfg _) := by
  refine .findSomeM fun i => Avoids.get.bind fun k => ?_
  dsimp only
  split
  · exact .pure
  · split
    · exact .throw (by simp)
    · split <;> exact .pure

theorem opendirLoop_avoids {path : List UInt8} {stop : ℕ} (turns : ℕ)
    (dir : Fin bifsMaxDirs) (prev pos : ℕ) :
    Avoids .nullProcess (opendirLoop path stop turns dir prev pos : KM cfg _) := by
  induction turns generalizing dir prev pos with
  | zero => exact .pure
  | succ turns ih =>
    unfold opendirLoop
    split
    · refine bifsOpendir_avoids.bind fun d => ?_
      cases d with
      | none => exact .pure
      | some d => exact ih _ _ _
    · exact .pure

theorem bifsMkdir_avoids {path : List UInt8} {name : BifsName cfg} :
    Avoids .nullProcess (bifsMkdir path name) := by
  have hpath : Avoids .nullProcess (bifsOpendirpath path path.length : KM cfg _) := by
    refine (opendirLoop_avoids _ _ _ _).bind fun r => ?_
    split
    · exact .pure
    · split
      · exact bifsOpendir_avoids
      · exact .pure
  refine hpath.bind fun parent => ?_
  cases parent with
  | none => exact .pure
  | some parent =>
    refine .bind (Avoids.get.bind fun k => ?_) fun i => ?_
    · cases freeDir k with
      | none => exact .pure
      | some i => exact .bind .modify fun _ => .pure
    · cases i with
      | none => exact .pure
      | some i => exact .bind .modify fun _ => .pure

theorem bifsAllocateFile_avoids : Avoids .nullProcess (bifsAllocateFile : KM cfg _) := by
  refine Avoids.get.bind fun k => ?_
  cases freeBifsFile k with
  | none => exact .pure
  | some j => exact .bind .modify fun _ => .pure

theorem initProcfsFiles_avoids {name : Option (List UInt8)} : Avoids .nullProcess (initProcfsFiles q name) := by
  refine Avoids.get.bind fun k => ?_
  cases itoa maxFilenameLen (k.procs q).pid with
  | none => exact .pure
  | some text =>
    refine .bind .modify fun _ => bifsMkdir_avoids.bind fun dir => .bind .modify fun _ => ?_
    cases dir with
    | none => exact .pure
    | some dir =>
      refine bifsAllocateFile_avoids.bind fun nameFile => .bind .modify fun _ => ?_
      cases nameFile with
      | none => exact .pure
      | some j =>
        refine .bind .modify fun _ => bifsAllocateFile_avoids.bind fun statsFile => ?_
        cases statsFile with
        | none => exact .pure
        | some i => exact .bind .modify fun _ => .pure

/-- `init_proc` goes through no null process, -/
theorem initProc_avoids {pc : ℕ} {name : Option (List UInt8)} : Avoids .nullProcess (initProc q pc name) := by
  have hpid : Avoids .nullProcess (allocPid : KM cfg ℕ) :=
    withLock_avoids (Avoids.get.bind fun _ => .bind .modify fun _ => .pure)
  refine hpid.bind fun n => .bind .modify fun _ => initProcPages_avoids.bind fun o => ?_
  cases o with
  | none => exact .pure
  | some o =>
    refine Avoids.get.bind fun k => .bind .modify fun _ => .bind .modify fun _ => .bind .modify fun _ => ?_
    refine initProcfsFiles_avoids.bind fun status => ?_
    split
    · exact .pure
    · exact (withLock_avoids .modify).bind fun _ => .pure

/-- and neither does what is left of `proc_fork`. -/
theorem forkChild_avoids : Avoids .nullProcess (forkChild p q) := by
  have hfiles : Avoids .nullProcess (copyFiles q p) := by
    refine .forM fun i => Avoids.get.bind fun k => ?_
    dsimp only
    split
    · exact .bind .pure fun _ => .modify
    · exact .bind .modify fun _ => .modify
  have htable : ∀ {dst src pid : ℕ}, Avoids .nullProcess (copyPageTable dst src pid : KM cfg Unit) := by
    intro dst src pid
    unfold copyPageTable
    dsimp only
    split
    · refine .forM fun vpn2 => Avoids.get.bind fun k => ?_
      split
      · refine .forM fun vpn1 => Avoids.get.bind fun k => ?_
        split
        · refine .forM fun vpn0 => Avoids.get.bind fun k => ?_
          split
          · exact mapPageSv39_avoids
          · exact .pure
        · exact .pure
      · exact .pure
    · exact .pure
  have hcopy : Avoids .nullProcess (copyProcess p q) :=
    Avoids.get.bind fun _ => .bind .modify fun _ => .bind .modify fun _ =>
        hfiles.bind fun _ => htable.bind fun _ =>
      mapStack_avoids
  exact .bind .modify fun _ => hcopy.bind fun _ => .bind .modify fun _ => .bind .modify fun _ =>
    Avoids.get.bind fun _ => .bind .modify fun _ => .bind .modify fun _ => .pure

/-! ## /proc -/

/-- `/proc` is there, and is the directory of no process. -/
structure ProcStands (k : Kernel cfg) : Prop where
  proc : (k.dirs procDir).name = some (.lit (ascii "proc")) ∧ (k.dirs procDir).parent = some bifsRoot
  used : (k.dirs procDir).flags ≠ 0
  named : ∀ d, (k.dirs d).parent = some bifsRoot → (k.dirs d).name ≠ none
  apart : ∀ q, (k.procs q).procfsDir ≠ some procDir

/-- However it ends, `m` leaves `/proc` there. -/
def Stands (m : KM cfg α) : Prop := Triple ProcStands m (fun _ => ProcStands) fun _ => ProcStands

namespace ProcStands

theorem same (h : ProcStands k) (hdirs : ∀ d, k'.dirs d = k.dirs d)
    (hprocs : ∀ q, (k'.procs q).procfsDir = (k.procs q).procfsDir) : ProcStands k' := by
  refine ⟨?_, ?_, fun d => ?_, fun q => ?_⟩
  · rw [hdirs]
    exact h.proc
  · rw [hdirs]
    exact h.used
  · rw [hdirs]
    exact h.named d
  · rw [hprocs]
    exact h.apart q

/-- Another directory is written. -/
theorem setDir {d : Fin bifsMaxDirs} {x : BifsDir cfg} (h : ProcStands k) (hd : d ≠ procDir)
    (hx : x.parent = some bifsRoot → x.name ≠ none) :
    ProcStands { k with dirs := Function.update k.dirs d x } := by
  refine ⟨?_, ?_, fun e => ?_, h.apart⟩
  · simpa [hd.symm] using h.proc
  · simpa [hd.symm] using h.used
  · by_cases he : e = d
    · subst he
      simpa using hx
    · simpa [he] using h.named e

theorem setProc {x : Proc cfg} (h : ProcStands k) (hx : x.procfsDir ≠ some procDir) :
    ProcStands (k.setProc q x) := by
  refine ⟨h.proc, h.used, h.named, fun r => ?_⟩
  by_cases hr : r = q
  · subst hr
    simpa [Kernel.setProc] using hx
  · simpa [Kernel.setProc, hr] using h.apart r

/-- Room for the entries is room for a process. -/
theorem room (h : ProcStands k) {n : ℕ} : ProcfsRoom k q n ↔ Roomy k := by
  have hnamed : ProcStands (k.named q n) := h.setProc (h.apart q)
  exact ⟨fun hroom => hroom.2, fun hroom =>
    ⟨⟨procDir, bifsOpendirpath_proc (bifsOpendir_proc hnamed.proc hnamed.named)⟩, hroom⟩⟩

end ProcStands

namespace Stands

variable {β : Type} {c : KM cfg α}

theorem of_frame {S : Set Part} (hc : Frame S c) (hd : .dirs ∉ S) (hp : .procfs ∉ S) : Stands c := by
  intro k hk
  have hdirs : Part.dirs.Same k (final (c k)) := hc k _ hd
  have hprocs : Part.procfs.Same k (final (c k)) := hc k _ hp
  have hfinal := hk.same hdirs fun q => (hprocs q).1
  cases hr : c k with
  | ok a k' | error e k' =>
    rw [hr] at hfinal
    exact hfinal

theorem bind {f : α → KM cfg β} (hc : Stands c) (hf : ∀ a, Stands (f a)) :
    Stands (c >>= f) := Triple.bind hc hf

theorem throw {e : Stop cfg} : Stands (MonadExcept.throw e : KM cfg α) := Triple.throw fun _ h => h

theorem bifsAllocateDir {W : Stop cfg → Kernel cfg → Prop} :
    Triple ProcStands (HobbyOs.bifsAllocateDir : KM cfg _)
    (fun d k => ProcStands k ∧ d ≠ some procDir) W := by
  intro k hk
  rw [HobbyOs.bifsAllocateDir, get_bind_apply]
  cases hfree : freeDir k with
  | none => exact ⟨hk, by simp⟩
  | some d =>
    have hd : d ≠ procDir := by
      rintro rfl
      exact hk.used (freeDir_some hfree)
    exact ⟨hk.setDir hd (hk.named d), fun h => hd (Option.some.inj h)⟩

/-- `bifs_mkdir` finds `/proc`, and takes a directory that was free. -/
theorem bifsMkdir {name : BifsName cfg} {W : Stop cfg → Kernel cfg → Prop} :
    Triple ProcStands (HobbyOs.bifsMkdir (ascii "/proc") name)
    (fun d k => ProcStands k ∧ d ≠ some procDir) W := by
  have hpath : Triple ProcStands (bifsOpendirpath (ascii "/proc") (ascii "/proc").length : KM cfg _)
      (fun _ => ProcStands) W := by
    intro k hk
    rw [bifsOpendirpath_proc (bifsOpendir_proc hk.proc hk.named)]
    exact hk
  refine hpath.bind fun parent => ?_
  cases parent with
  | none => exact Triple.pure fun _ h => ⟨h, nofun⟩
  | some parent =>
    refine bifsAllocateDir.bind fun d => ?_
    cases d with
    | none => exact Triple.pure fun _ h => h
    | some d =>
      intro k hk
      have hd : d ≠ procDir := fun h => hk.2 (h ▸ rfl)
      exact ⟨hk.1.setDir hd fun _ => Option.some_ne_none _, hk.2⟩

theorem bifsAllocateFile {W : Stop cfg → Kernel cfg → Prop} :
    Triple ProcStands (HobbyOs.bifsAllocateFile : KM cfg _) (fun _ => ProcStands) W := by
  intro k hk
  rw [HobbyOs.bifsAllocateFile, get_bind_apply]
  cases freeBifsFile k with
  | none => exact hk
  | some j => exact hk.same (fun _ => rfl) fun _ => rfl

/-- `init_procfs_files` always returns. -/
theorem initProcfsFiles {name : Option (List UInt8)} {W : Stop cfg → Kernel cfg → Prop} :
    Triple ProcStands (HobbyOs.initProcfsFiles q name) (fun _ => ProcStands) W := by
  refine Triple.get_bind fun k => ?_
  cases itoa maxFilenameLen (k.procs q).pid with
  | none => exact Triple.pure fun _ h => h
  | some text =>
    refine Triple.bind (Q := fun _ => ProcStands)
      (Triple.modify fun k hk => hk.setProc (hk.apart q)) fun _ => ?_
    refine bifsMkdir.bind fun dir => ?_
    refine Triple.bind (Q := fun _ => ProcStands) (Triple.modify fun k hk => hk.1.setProc hk.2) fun _ => ?_
    cases dir with
    | none => exact Triple.pure fun _ h => h
    | some dir =>
      refine bifsAllocateFile.bind fun nameFile => ?_
      refine Triple.bind (Q := fun _ => ProcStands)
        (Triple.modify fun k hk => hk.setProc (hk.apart q)) fun _ => ?_
      cases nameFile with
      | none => exact Triple.pure fun _ h => h
      | some j =>
        refine Triple.bind (Q := fun _ => ProcStands)
          (Triple.modify fun _ h => h.same (fun _ => rfl) fun _ => rfl) fun _ => ?_
        refine bifsAllocateFile.bind fun statsFile => ?_
        cases statsFile with
        | none => exact Triple.pure fun _ h => h
        | some i =>
          exact Triple.bind (Q := fun _ => ProcStands)
            (Triple.modify fun _ h => h.same (fun _ => rfl) fun _ => rfl) fun _ => Triple.pure fun _ h => h

/-- `proc_exit` gives back the directory of its process. -/
theorem leaveTable {x : Proc cfg} (hx : x.procfsDir ≠ some procDir) : Stands (HobbyOs.leaveTable p x) := by
  unfold HobbyOs.leaveTable
  split
  · rename_i d j hd _
    have hne : d ≠ procDir := fun h => hx (h ▸ hd)
    refine bind (Triple.modify fun k hk => hk.setDir hne (hk.named d)) fun _ => ?_
    refine bind (Triple.modify fun k hk => hk.same (fun _ => rfl) fun _ => rfl) fun _ => ?_
    refine bind (.of_frame (S := ∅) (frame_withLock ?_) (by simp) (by simp)) fun _ => ?_
    · exact Frame.of_rest fun _ => rfl
    · exact bind (Triple.modify fun k hk => hk.setProc (hk.apart p)) fun _ => throw
  · exact throw

end Stands

namespace ProcStands

theorem tree : TreeInvariant (ProcStands : Kernel cfg → Prop) where
  same h hdirs _ hprocs := h.same hdirs hprocs
  files _ _ := Stands.initProcfsFiles
  leave p _ h := Stands.leaveTable (h.apart p)

theorem init (mem : ℕ → UInt8) : ProcStands (initKernel cfg mem) := by
  refine ⟨⟨rfl, rfl⟩, (by decide : bifsReadable ≠ 0), fun d => ?_, nofun⟩
  show (initDirs cfg d).parent = some bifsRoot → (initDirs cfg d).name ≠ none
  unfold initDirs
  split <;> simp

theorem of_reach (h : Reach (machine cfg) free m) (hm : ∀ why, m.mode ≠ .halted why) : ProcStands m.k :=
  tree.of_reach init h hm

end ProcStands

/-! ## What is given back -/

/-- Nothing that `proc_fork` takes is taken. -/
structure ForkUndone (k k' : Kernel cfg) : Prop where
  state : ∀ q, (k'.procs q).state = (k.procs q).state
  pages : freePages k' = freePages k
  pte : k'.pte = k.pte
  dirs : k'.dirs = k.dirs
  bfiles : k'.bfiles = k.bfiles
  files : k'.files = k.files
  pipes : k'.pipes = k.pipes
  numProcs : k'.numProcs = k.numProcs
  held : k'.held = k.held

/-- `proc_fork` of `p` fails only with everything given back, and goes through no
    null process. -/
def FailsClean (p : Slot cfg) (k : Kernel cfg) : Prop :=
  (∀ k', procFork p k = .ok (-1) k' → ForkUndone k k') ∧ ∀ k', procFork p k ≠ .error .nullProcess k'

/-- A page that is released is free. -/
theorem freePages_drop {i : Fin cfg.numPages} :
    freePages { k with pages := dropPage (cfg.pagePtr i) k.pages } = insert i (freePages k) := by
  ext j
  rw [mem_freePages, Finset.mem_insert, mem_freePages]
  by_cases hj : j = i
  · subst hj
    simp [dropPage_flags]
  · have hne : cfg.pagePtr j ≠ cfg.pagePtr i := fun h => hj (pagePtr_inj h)
    simp [dropPage_of_ne hne, hj]

/-- `init_proc`, when a page is missing, gives back the pages that it has. -/
theorem initProcPages_none (hl : k.held .pagedMemory = false) (h : initProcPages q k = .ok none k') :
    ∃ pages, k' = { k with pages := pages } ∧ freePages k' = freePages k := by
  rw [initProcPages, get_bind_apply] at h
  obtain ⟨sp, k₁, h₁, h⟩ := bind_eq_ok.1 h
  rcases kalloc_ok h₁ with ⟨rfl, -, rfl⟩ | ⟨i, rfl, hi, rfl⟩
  · cases h
    exact ⟨_, rfl, rfl⟩
  -- The stack page was had; whatever fails from here on gives back what was taken.
  have hfree₁ := freePage_mem hi
  obtain ⟨ksp, k₂, h₂, h⟩ := bind_eq_ok.1 h
  rcases kalloc_ok h₂ with ⟨rfl, -, rfl⟩ | ⟨j, rfl, hj, rfl⟩
  · dsimp only at h
    rw [bind_ok (releasePage_apply (k := k.takePage i (k.procs q).pid) hl _)] at h
    cases h
    refine ⟨_, rfl, ?_⟩
    rw [freePages_drop (k := k.takePage i _), freePages_takePage, Finset.insert_erase hfree₁]
  have hfree₂ := freePage_mem hj
  rw [freePages_takePage] at hfree₂
  dsimp only at h
  split at h
  · obtain ⟨pt, k₃, h₃, h⟩ := bind_eq_ok.1 h
    rcases kalloc_ok h₃ with ⟨rfl, -, rfl⟩ | ⟨l, rfl, -, rfl⟩
    · dsimp only at h
      rw [bind_ok
        (releasePage_apply (k := (k.takePage i (k.procs q).pid).takePage j (k.procs q).pid) hl _)] at h
      rw [bind_ok (releasePage_apply (k := { (k.takePage i (k.procs q).pid).takePage j (k.procs q).pid with
        pages := dropPage (cfg.pagePtr i) ((k.takePage i (k.procs q).pid).takePage j (k.procs q).pid).pages })
          hl _)] at h
      cases h
      refine ⟨_, rfl, ?_⟩
      rw [freePages_drop (k := { (k.takePage i _).takePage j _ with pages := _ }),
        freePages_drop (k := (k.takePage i _).takePage j _),
        freePages_takePage, freePages_takePage, Finset.insert_comm, Finset.insert_erase hfree₂,
        Finset.insert_erase hfree₁]
    · obtain ⟨_, _, -, h⟩ := bind_eq_ok.1 h
      obtain ⟨_, _, -, h⟩ := bind_eq_ok.1 h
      obtain ⟨_, _, -, h⟩ := bind_eq_ok.1 h
      cases h
  · cases h

/-! ## proc_fork -/

theorem ProcStands.filled (h : ProcStands k) (pc : ℕ) (name : Option (List UInt8)) (sp ksp : ℕ) :
    ProcStands (k.filled q pc name sp ksp) := by
  refine h.same (fun _ => rfl) fun r => ?_
  by_cases hr : r = q
  · subst hr
    simp [Kernel.filled, Kernel.setState, Kernel.setProc, freshProc]
  · simp [Kernel.filled, Kernel.setState, Kernel.setProc, hr]

/-- Without room in `/proc` the slot is ready, but `init_proc` fails. -/
theorem fillProc_full {n : ℕ} (hk : ProcStands k) (ht : k.held .procTable = false)
    (hpid : (k.procs q).pid = n)
    (hn : n < 2 ^ 32) (hroom : ¬ProcfsRoom k q n) (pc : ℕ) (name : Option (List UInt8)) (sp ksp : ℕ) :
    ∃ s k', fillProc q pc name sp ksp k = .ok s k' ∧ s ≠ 0 ∧ (k'.core.procs q).state = .ready := by
  obtain ⟨frame, ⟨s, k', h, -, ⟨hs, hc, -⟩ | ⟨-, -, hr⟩⟩ | ⟨e, k', h, -⟩⟩ :=
    fillProc_result ht hpid hn pc name sp ksp
  · exact ⟨s, k', h, hs, by simp [hc, Core.fresh]⟩
  · exact absurd hr hroom
  · exfalso
    have hrun : fillProc q pc name sp ksp k = (do
        let status ← initProcfsFiles q name
        if status ≠ 0 then return status
        withLock .procTable do modify fun k => { k with numProcs := k.numProcs + 1 }
        return 0 : KM cfg ℤ) (k.filled q pc name sp ksp) := rfl
    have hpid' : ((k.filled q pc name sp ksp).procs q).pid = n := by
      simpa [Kernel.filled, Kernel.setState, Kernel.setProc, freshProc] using hpid
    have hroom' : ¬ProcfsRoom (k.filled q pc name sp ksp) q n :=
      mt (ProcfsRoom.congr (Kernel.filled_view pc name sp ksp) rfl).1 hroom
    have hreturns : Triple ProcStands (initProcfsFiles q name) (fun _ => ProcStands) fun _ _ => False :=
      Stands.initProcfsFiles
    have hfiles := hreturns _ (hk.filled (q := q) pc name sp ksp)
    rw [hrun] at h
    rcases initProcfsFiles_result hpid' hn name with ⟨t, ht, hr⟩ | ⟨s, t, ht, hs, -⟩ | ⟨e', t, ht⟩
    · exact hroom' hr
    · rw [bind_ok ht, if_pos hs] at h
      cases h
    · rw [ht] at hfiles
      exact hfiles

theorem roomy_congr (hdirs : ∀ d, k'.dirs d = k.dirs d)
    (hfiles : ∀ j, (k'.bfiles j).listed = (k.bfiles j).listed) :
    Roomy k' ↔ Roomy k := by
  have hsame : SameEntries (fun _ => False) k k' := ⟨hdirs, hfiles, nofun, nofun⟩
  have hback : SameEntries (fun _ => False) k' k :=
    ⟨fun d => (hdirs d).symm, fun j => (hfiles j).symm, nofun, nofun⟩
  exact ⟨hback.roomy, hsame.roomy⟩

/-- Where the pages of a process are allocated, `/proc` is as it was. -/
theorem initProcPages_stands {o : Option (ℕ × ℕ)} (hk : ProcStands k) (hp : k.held .pagedMemory = false)
    (h : initProcPages q (k.newPid q) = .ok o k₁) :
    ProcStands k₁ ∧ (Roomy k₁ ↔ Roomy k) ∧ k₁.held = k.held ∧
    (k₁.procs q).pid = k.pidCounter % 2 ^ 32 := by
  have hframe : Frame {.pages, .pte, .stackPages} (initProcPages q) :=
    frame_initProcPages (by simp) (by simp) (by simp)
  have hdirs : Part.dirs.Same (k.newPid q) k₁ := Ended.same (.back h) hframe (by simp)
  have hfiles : Part.bfiles.Same (k.newPid q) k₁ := Ended.same (.back h) hframe (by simp)
  have hnew : ProcStands (k.newPid q) := (hk.setProc (q := q)
    (x := { k.procs q with pid := k.pidCounter % 2 ^ 32, uid := k.pidCounter, forker := none })
      (hk.apart q)).same
    (fun _ => rfl) fun _ => rfl
  have hend := (still_initProcPages (L := {.pagedMemory}) rfl (q := q)).result (k := k.newPid q)
    (by simpa [Kernel.newPid] using hp)
  rw [h] at hend
  obtain ⟨_, t, heq, hc, hh⟩ | ⟨e, t, heq, -⟩ := hend
  · cases heq
    refine ⟨Triple.of_ok (Stands.of_frame hframe (by simp) (by simp)) hnew h,
      roomy_congr hdirs hfiles, hh, ?_⟩
    rw [← Kernel.core_procs, hc, Kernel.newPid_core]
    simp [Core.newPid, Kernel.core]
  · cases heq

theorem initProc_run (ht : k.held .procTable = false) {pc : ℕ} {name : Option (List UInt8)} :
    initProc q pc name k = (do
      match ← initProcPages q with
      | none => return -ENOMEM
      | some (sp, ksp) => fillProc q pc name sp ksp : KM cfg ℤ) (k.newPid q) := by
  rw [initProc, bind_ok (allocPid_apply ht)]
  rfl

/-- `proc_fork`, where the process gets its pages but there is no room in `/proc`. -/
theorem forkTail_full (hk : ProcStands k) (ht : k.held .procTable = false) (hp : k.held .pagedMemory = false)
    (hpages : (value (initProcPages q (k.newPid q))).join.isSome = true) (hroom : ¬Roomy k) (pc : ℕ) :
    ∃ k', forkTail p q pc k = .ok (-1) k' ∧ (k'.procs q).state = .ready := by
  cases h : initProcPages q (k.newPid q) with
  | error e t =>
    rw [h] at hpages
    cases hpages
  | ok o k₁ =>
    rw [h] at hpages
    cases o with
    | none => cases hpages
    | some o =>
      obtain ⟨hstands, hiff, hh, hpid⟩ := initProcPages_stands hk hp h
      obtain ⟨s, k₂, h₂, hs, hready⟩ := fillProc_full hstands (by rw [hh]; exact ht) hpid
        (Nat.mod_lt _ (by decide)) (mt (hstands.room.trans hiff).1 hroom) pc none o.1 o.2
      have hinit : initProc q pc none k = .ok s k₂ := by
        rw [initProc_run ht, bind_ok h]
        exact h₂
      rw [forkTail, bind_ok hinit, if_pos hs]
      exact ⟨_, rfl, hready⟩

/-- `init_proc` fails with everything given back, where there is room in `/proc` for
    a process that gets its pages. -/
theorem initProc_fails {pc : ℕ} {s : ℤ} (hk : ProcStands k) (ht : k.held .procTable = false)
    (hp : k.held .pagedMemory = false)
    (hroom : (value (initProcPages q (k.newPid q))).join.isSome = true → Roomy k)
    (h : initProc q pc none k = .ok s k') (hs : s ≠ 0) :
    ∃ pages, k' = { k.newPid q with pages := pages } ∧ freePages k' = freePages k := by
  rw [initProc_run ht] at h
  obtain ⟨o, k₁, h₁, h⟩ := bind_eq_ok.1 h
  cases o with
  | none =>
    obtain ⟨pages, rfl, hfree⟩ := initProcPages_none (k := k.newPid q) hp h₁
    cases h
    exact ⟨pages, rfl, hfree⟩
  | some o =>
    exfalso
    obtain ⟨hstands, hiff, hh, hpid⟩ := initProcPages_stands hk hp h₁
    have hfull := fillProc_result (by rw [hh]; exact ht) hpid (Nat.mod_lt _ (by decide)) pc none o.1 o.2
    have hfill : fillProc q pc none o.1 o.2 k₁ = .ok s k' := h
    rw [hfill] at hfull
    obtain ⟨frame, ⟨s', t, heq, -, hres⟩ | ⟨e, t, heq, -⟩⟩ := hfull
    · cases heq
      rcases hres with ⟨-, -, hno⟩ | ⟨h0, -⟩
      · exact hno ((hstands.room.trans hiff).2 (hroom (by rw [h₁]; rfl)))
      · exact hs h0
    · cases heq

theorem forkTail_avoids {pc : ℕ} : Avoids .nullProcess (forkTail p q pc) := by
  refine initProc_avoids.bind fun status => ?_
  split
  · exact .bind .modify fun _ => .bind .modify fun _ => .pure
  · exact forkChild_avoids

/-- A fork that fails leaves the tables as they were, if and only if there is a
    slot, and room in `/proc` where there are pages for a process. -/
theorem failsClean_iff (hplaced : cfg.mmu = true → Placed cfg) (hk : Calm p k)
    (hcpu : k.core.cpuProc = some p)
    (hstands : ProcStands k) :
    FailsClean p k ↔ freeSlot k ≠ none ∧ (forkPages cfg ≤ countFreePages k → Roomy k) := by
  have hfree : ∀ q, k.cpuProc ≠ some q → k.held (.proc q) = false := fun q hq =>
    hk.free _ (by rintro ⟨⟩; exact hq hcpu)
  have happly := procFork_apply (p := p) (hk.free .procTable (by simp)) hfree
  cases hslot : freeSlot k with
  | none =>
    refine iff_of_false (fun h => ?_) (by simp)
    rw [hslot] at happly
    exact h.2 _ happly
  | some q =>
    rw [hslot] at happly
    have hlock : ∀ l ∈ ({.procTable, .pagedMemory} : Set (Lock cfg)), (k.forking p q).held l = false := by
      rintro l (rfl | rfl)
      · simpa [Kernel.forking, Kernel.setHeld] using hk.free _ (by simp)
      · simpa [Kernel.forking, Kernel.setHeld] using hk.free _ (by simp)
    have hforking : ProcStands (k.forking p q) :=
      (hstands.setProc (q := p) (x := { k.procs p with trap := k.trapFrame }) (hstands.apart p)).same
        (fun _ => rfl) fun _ => rfl
    have hroom : Roomy (k.forking p q) ↔ Roomy k := roomy_congr (fun _ => rfl) fun _ => rfl
    -- The pages are counted before the fork; the number of the child takes none.
    have hgets : (value (initProcPages q ((k.forking p q).newPid q))).join.isSome = true ↔
        forkPages cfg ≤ countFreePages k := by
      have hcount : countFreePages ((k.forking p q).newPid q) = countFreePages k := countFreePages_congr rfl
      rw [initProcPages_iff hplaced (show ((k.forking p q).newPid q).held .pagedMemory = false from
        hlock .pagedMemory (by simp)), hcount]
    rw [← hgets]
    constructor
    · rintro ⟨hundo, -⟩
      refine ⟨Option.some_ne_none q, fun hpages => by_contra fun hno => ?_⟩
      -- With pages but without room in `/proc` the slot is left READY.
      obtain ⟨k', hk', hready⟩ := forkTail_full (p := p) hforking (hlock _ (by simp)) (hlock _ (by simp))
        hpages (mt hroom.1 hno) k.trapFrame.pc
      have hstate := (hundo k' (happly.trans hk')).state q
      rw [hready, ← Kernel.core_procs, (freeSlot_some hslot).2] at hstate
      cases hstate
    · rintro ⟨-, hcond⟩
      refine ⟨fun k' h => ?_, fun k' h => ?_⟩
      · obtain ⟨r, s, k₁, hr', hinit, hend⟩ := procFork_halves hk hcpu h
        obtain rfl : q = r := Option.some.inj (hslot.symm.trans hr')
        rcases hend with ⟨hs, -, mem, rfl⟩ | ⟨-, hchild⟩
        · obtain ⟨pages, rfl, hpages⟩ := initProc_fails hforking (hlock _ (by simp)) (hlock _ (by simp))
            (fun hp => hroom.2 (hcond hp)) hinit hs
          have hheld : k.held (.proc q) = false := hfree q (freeSlot_some hslot).1
          have hcore : (k.forking p q).core = k.core.update p fun x => { x with trap := k.trapFrame } :=
            Kernel.setProc_core_of rfl
          have hstate : ∀ r, (((k.forking p q).newPid q).procs r).state = (k.procs r).state := by
            intro r
            rw [← Kernel.core_procs, Kernel.newPid_core, hcore]
            exact Core.numbered_state r
          -- The pages that `init_proc` took are given back, and the lock of the slot
          -- released.
          refine ⟨hstate, hpages, rfl, rfl, rfl, rfl, rfl, rfl, ?_⟩
          exact update_held_self hheld
        · -- A fork whose `init_proc` succeeds does not return -1.
          have hp₁ : k₁.held .pagedMemory = false := by
            have hinits := initProc_result (q := q) (hlock .procTable (by simp)) (hlock .pagedMemory (by simp))
              k.trapFrame.pc none
            rw [hinit] at hinits
            cases hinits with
            | short _ _ hh | full _ _ hh | done _ hh =>
              rw [hh]
              exact hlock _ (by simp)
          rcases forkChild_result (p := p) (q := q) hp₁ with ⟨_, _, hok, -⟩ | ⟨_, _, herror, -⟩
          · rw [hok] at hchild
            cases hchild
          · rw [herror] at hchild
            cases hchild
      · rw [happly] at h
        exact forkTail_avoids _ _ h

/-- In every state reached, a fork of the process on the CPU that fails leaves the
    tables as they were, if and only if there is a slot, and room in `/proc` where
    there are as many free pages as a process takes. -/
theorem fork_fails_clean_iff (hplaced : cfg.mmu = true → Placed cfg) (h : Reach (machine cfg) free m)
    (hmode : m.mode = .user) (hcpu : m.k.cpuProc = some p) :
    FailsClean p ((trap m).entry p) ↔ freeSlot ((trap m).entry p) ≠ none ∧
      (forkPages cfg ≤ countFreePages ((trap m).entry p) → Roomy ((trap m).entry p)) := by
  have hstands : ProcStands m.k := .of_reach h (by simp [hmode])
  exact failsClean_iff hplaced (calm_of_reach h hmode hcpu).1 hcpu (hstands.same (fun _ => rfl) fun _ => rfl)

/-- One page is left: the fork takes it for the stack of the child, fails, and gives
    it back. -/
theorem last_page_given_back : ∃ (m : Machine .qemuE) (k' : Kernel .qemuE), Reach (machine .qemuE) free m ∧
    countFreePages m.k = 1 ∧ procFork ⟨0, by decide⟩ ((trap m).entry ⟨0, by decide⟩) = .ok (-1) k' ∧
    ForkUndone ((trap m).entry ⟨0, by decide⟩) k' := by
  have h :
      ∃ m ∈ runFrom .qemuE ([Event.kernel, .kernel] ++ (List.replicate 15 (calls 34 0 0 0 [])).flatten),
      m.mode = .user ∧ m.k.cpuProc = some ⟨0, by decide⟩ ∧ countFreePages m.k = 1 ∧
      freeSlot ((trap m).entry ⟨0, by decide⟩) = some ⟨1, by decide⟩ ∧
        Roomy ((trap m).entry ⟨0, by decide⟩) ∧
      value (procFork ⟨0, by decide⟩ ((trap m).entry ⟨0, by decide⟩)) = some (-1) := by
    decide +kernel
  obtain ⟨m, hm, hmode, hcpu, hpage, hslot, hroom, hfails⟩ := h
  obtain ⟨k', hfork⟩ := value_eq_some hfails
  have hr := reach_of_runFrom hm
  have hclean := (fork_fails_clean_iff (fun h => absurd h Bool.false_ne_true) hr hmode hcpu).2
    ⟨by rw [hslot]; exact Option.some_ne_none _, fun _ => hroom⟩
  exact ⟨m, k', hr, hpage, hfork, hclean.1 k' hfork⟩

/-- The lock of a null process is released. -/
def Derefs : EStateM.Result (Stop cfg) (Kernel cfg) α → Bool
  | .error .nullProcess _ => true
  | _ => false

/-- The first process forks until there is no slot. -/
theorem fork_without_slot :
    ¬∀ (m : Machine .qemuE) (p : Slot .qemuE), Reach (machine .qemuE) free m → m.mode = .user →
      m.k.cpuProc = some p → FailsClean p ((trap m).entry p) := by
  have h : ∃ m ∈
      runFrom .qemuE ([Event.kernel, .kernel] ++ calls 2 0 0 0 [] ++ calls 2 0 0 0 [] ++ calls 2 0 0 0 []),
      m.mode = .user ∧ m.k.cpuProc = some ⟨0, by decide⟩ ∧
      Derefs (procFork ⟨0, by decide⟩ ((trap m).entry ⟨0, by decide⟩)) = true := by
    decide +kernel
  obtain ⟨m, hm, hmode, hcpu, hnull⟩ := h
  intro hall
  have hclean := hall m _ (reach_of_runFrom hm) hmode hcpu
  generalize hr : procFork _ _ = r at hnull
  cases r with
  | ok a k' => cases hnull
  | error e k' =>
    cases e with
    | nullProcess => exact hclean.2 k' hr
    | _ => cases hnull

end HobbyOs
