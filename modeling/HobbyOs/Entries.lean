import HobbyOs.Recycled
import HobbyOs.SlotStates

/-!
# The entries of a process in `/proc`

What `proc_fork` does to the tables of the baked-in file system
(`procFork_entries`): for a process that it makes, `init_procfs_files` takes a
directory and two files (`Adds`). The process remembers the directory and the
first of the files, and these are what its exit frees.
-/

namespace HobbyOs

open Outcome

variable {cfg : Config} {p q r : Slot cfg} {k k' k₁ : Kernel cfg}
  {A : Slot cfg → Prop} {d e : Fin bifsMaxDirs}
  {i j : Fin bifsMaxFiles} {n : ℕ}

/-! ## Entries that stay -/

/-- The tables are the same, with what the processes in `A` know of them. -/
structure SameEntries (A : Slot cfg → Prop) (k k' : Kernel cfg) : Prop where
  dirs : ∀ d, k'.dirs d = k.dirs d
  files : ∀ j, (k'.bfiles j).listed = (k.bfiles j).listed
  procs : ∀ q, A q → Part.procfs.SameProc (k.procs q) (k'.procs q)
  pid : ∀ q, A q → (k'.procs q).pid = (k.procs q).pid

namespace SameEntries

theorem trans (h : SameEntries A k k₁) (h' : SameEntries A k₁ k') : SameEntries A k k' where
  dirs d := (h'.dirs d).trans (h.dirs d)
  files j := (h'.files j).trans (h.files j)
  procs q hq := (h.procs q hq).trans (h'.procs q hq)
  pid q hq := (h'.pid q hq).trans (h.pid q hq)

theorem mono {B : Slot cfg → Prop} (h : SameEntries A k k') (hAB : ∀ q, B q → A q) : SameEntries B k k' :=
  ⟨h.dirs, h.files, fun q hq => h.procs q (hAB q hq), fun q hq => h.pid q (hAB q hq)⟩

theorem of_parts (h : ∀ x ∈ ({.dirs, .bfiles, .procfs} : Set Part), x.Same k k')
    (hpid : ∀ q, A q → (k'.procs q).pid = (k.procs q).pid) : SameEntries A k k' :=
  ⟨h .dirs (by simp), h .bfiles (by simp), fun q _ => h .procfs (by simp) q, hpid⟩

end SameEntries

/-! ## Entries that are added -/

theorem freeDir_some (h : freeDir k = some d) : (k.dirs d).flags = 0 := by
  simpa using List.find?_some h

theorem freeDir_congr (h : ∀ d, k'.dirs d = k.dirs d) : freeDir k' = freeDir k := by
  simp only [freeDir, h]

/-- What `init_procfs_files` adds for the process in `q`: the directory `d` in the
    directory `e`, and the files `i` and `j`. -/
structure Adds (q : Slot cfg) (d e : Fin bifsMaxDirs) (i j : Fin bifsMaxFiles) (k k' : Kernel cfg) : Prop where
  free : freeDir k = some d
  dirs : ∀ d', k'.dirs d' = if d' = d then ⟨bifsReadable, some (.piddir q), some e, .bifs⟩ else k.dirs d'
  ne : i ≠ j
  free_name : (k.bfiles i).flags = 0
  free_stats : (k.bfiles j).flags = 0
  name : (k'.bfiles i).listed =
    ⟨bifsReadable ||| bifsRaw, some (ascii "name"), some d, (k.bfiles i).dataquery⟩
  stats : (k'.bfiles j).listed =
    ⟨bifsReadable ||| bifsRaw ||| bifsTmpfile, some (ascii "stats"), some d, .stats q⟩
  files : ∀ l, l ≠ i → l ≠ j → (k'.bfiles l).listed = (k.bfiles l).listed
  own : (k'.procs q).procfsDir = some d ∧ (k'.procs q).procfsNameFile = some i ∧
    (k'.procs q).piddir = digits (k'.procs q).pid
  others : ∀ r ≠ q, Part.procfs.SameProc (k.procs r) (k'.procs r) ∧ (k'.procs r).pid = (k.procs r).pid

namespace Adds

/-- What came before left the entries alone. -/
theorem of_same (h : SameEntries (· ≠ q) k k₁) (h' : Adds q d e i j k₁ k') : Adds q d e i j k k' where
  free := (freeDir_congr h.dirs).symm.trans h'.free
  dirs d' := by rw [h'.dirs, h.dirs]
  ne := h'.ne
  free_name := (congrArg Listed.flags (h.files i)).symm.trans h'.free_name
  free_stats := (congrArg Listed.flags (h.files j)).symm.trans h'.free_stats
  name :=
    h'.name.trans (by rw [show (k₁.bfiles i).dataquery = _ from congrArg Listed.dataquery (h.files i)]; rfl)
  stats := h'.stats
  files l hli hlj := (h'.files l hli hlj).trans (h.files l)
  own := h'.own
  others r hr := ⟨(h.procs r hr).trans (h'.others r hr).1, (h'.others r hr).2.trans (h.pid r hr)⟩

/-- What came after leaves the entries alone. -/
theorem same (h : Adds q d e i j k k₁) (h' : SameEntries (fun _ => True) k₁ k') : Adds q d e i j k k' where
  free := h.free
  dirs d' := by rw [h'.dirs, h.dirs]
  ne := h.ne
  free_name := h.free_name
  free_stats := h.free_stats
  name := (h'.files i).trans h.name
  stats := (h'.files j).trans h.stats
  files l hli hlj := (h'.files l).trans (h.files l hli hlj)
  own := by
    rw [(h'.procs q trivial).1, (h'.procs q trivial).2.1, (h'.procs q trivial).2.2, h'.pid q trivial]
    exact h.own
  others r hr := ⟨(h.others r hr).1.trans (h'.procs r trivial), (h'.pid r trivial).trans (h.others r hr).2⟩

end Adds

/-! ## init_procfs_files -/

/-- `bifs_mkdir`, when it makes a directory. -/
theorem bifsMkdir_ok {path : List UInt8} {name : BifsName cfg} (h : bifsMkdir path name k = .ok (some d) k') :
    ∃ e, bifsOpendirpath path path.length k = .ok (some e) k ∧ freeDir k = some d ∧
      k' = { k with dirs := Function.update k.dirs d ⟨bifsReadable, some name, some e, .bifs⟩ } := by
  rw [bifsMkdir] at h
  rcases reads_bifsOpendirpath path path.length k k rfl with ⟨o, ho, -⟩ | ⟨s, hs, -⟩
  · rw [bind_ok ho] at h
    cases o with
    | none => cases h
    | some e =>
      dsimp only at h
      cases hd : freeDir k with
      | none =>
        have hall : bifsAllocateDir k = .ok none k := by
          rw [bifsAllocateDir, get_bind_apply, hd]
          rfl
        rw [bind_ok hall] at h
        cases h
      | some d' =>
        have hall : bifsAllocateDir k = .ok (some d') { k with
            dirs := Function.update k.dirs d' { k.dirs d' with flags := bifsReadable, lsdir := .bifs } } := by
          rw [bifsAllocateDir, get_bind_apply, hd]
          rfl
        rw [bind_ok hall] at h
        dsimp only at h
        rw [modify_bind_apply] at h
        simp only [Function.update_self, Function.update_idem, pure_apply, EStateM.Result.ok.injEq,
          Option.some.injEq] at h
        obtain ⟨rfl, rfl⟩ := h
        exact ⟨e, ho, rfl, rfl⟩
  · rw [bind_error hs] at h
    cases h

/-- The kernel with the other file of a process made, too. -/
def withStatsFile (k : Kernel cfg) (q : Slot cfg) (dir : Fin bifsMaxDirs) (j : Fin bifsMaxFiles) : Kernel cfg :=
  { k with
    bfiles := Function.update k.bfiles j { k.bfiles j with
      parent := some dir, flags := bifsReadable ||| bifsRaw ||| bifsTmpfile,
      name := some (ascii "stats"), dataquery := .stats q } }

theorem procfsStatsFile_ok (h : procfsStatsFile q d k = .ok 0 k') :
    ∃ j, freeBifsFile k = some j ∧ k' = withStatsFile k q d j := by
  rw [procfsStatsFile] at h
  cases hj : freeBifsFile k with
  | none =>
    rw [bind_ok (bifsAllocateFile_none hj)] at h
    cases h
  | some j =>
    rw [bind_ok (bifsAllocateFile_some hj)] at h
    simp only [modify_bind_apply, Function.update_self, Function.update_idem, pure_apply,
      EStateM.Result.ok.injEq,
      true_and] at h
    exact ⟨j, rfl, h.symm⟩

theorem procfsFiles_ok {name : Option (List UInt8)} (h : procfsFiles q name d k = .ok 0 k') :
    ∃ i j, freeBifsFile k = some i ∧ freeBifsFile (withNameFile k q name d i) = some j ∧
      k' = withStatsFile (withNameFile k q name d i) q d j := by
  rw [procfsFiles] at h
  cases hi : freeBifsFile k with
  | none =>
    rw [bind_ok (bifsAllocateFile_none hi)] at h
    cases h
  | some i =>
    rw [bind_ok (bifsAllocateFile_some hi)] at h
    simp only [modifyProc, modify_bind_apply] at h
    have hname : procfsStatsFile q d (withNameFile k q name d i) = .ok 0 k' := by
      refine Eq.trans (congrArg (procfsStatsFile q d) ?_) h
      simp [withNameFile, Kernel.setProc]
    obtain ⟨j, hj, hk⟩ := procfsStatsFile_ok hname
    exact ⟨i, j, rfl, hj, hk⟩

/-- `init_procfs_files`, when it succeeds. -/
theorem initProcfsFiles_ok {name : Option (List UInt8)} (hpid : (k.procs q).pid = n) (hlt : n < 2 ^ 32)
    (h : initProcfsFiles q name k = .ok 0 k') :
    ∃ d e i j, Adds q d e i j k k' ∧
      bifsOpendirpath (ascii "/proc") (ascii "/proc").length (k.named q n) = .ok (some e) (k.named q n) := by
  rw [initProcfsFiles, get_bind_apply, hpid, itoa_eq hlt] at h
  simp only [modifyProc, modify_bind_apply] at h
  obtain ⟨o, k₂, hmkdir, h⟩ := bind_eq_ok.1 h
  rw [modify_bind_apply] at h
  cases o with
  | none => cases h
  | some d =>
    obtain ⟨e, hopen, hd, rfl⟩ := bifsMkdir_ok hmkdir
    obtain ⟨i, j, hi, hj, rfl⟩ := procfsFiles_ok h
    -- The second file is looked for when the first is in use.
    have hij : i ≠ j := by
      rintro rfl
      have h0 := freeBifsFile_some hj
      simp [withNameFile] at h0
    have hi₀ : (k.bfiles i).flags = 0 := by simpa [Kernel.setProc] using freeBifsFile_some hi
    have hj₀ : (k.bfiles j).flags = 0 := by
      simpa [withNameFile, hij.symm, Kernel.setProc] using freeBifsFile_some hj
    refine ⟨d, e, i, j,
      ⟨hd, fun d' => ?_, hij, hi₀, hj₀, ?_, ?_, fun l hli hlj => ?_, ?_, fun r hr => ?_⟩, hopen⟩
    · by_cases hd' : d' = d
      · subst hd'
        simp [withStatsFile, withNameFile, Kernel.setProc]
      · simp [withStatsFile, withNameFile, Kernel.setProc, hd']
    · simp [withStatsFile, withNameFile, hij, BifsFile.listed, Kernel.setProc]
    · simp [withStatsFile, BifsFile.listed]
    · simp [withStatsFile, withNameFile, hli, hlj, BifsFile.listed, Kernel.setProc]
    · simp [withStatsFile, withNameFile, Kernel.setProc, hpid]
    · simp [withStatsFile, withNameFile, hr, Part.SameProc, Kernel.setProc]

/-! ## init_proc -/

/-- The pages that `init_proc` takes for a process, but for its page table's. -/
def pagesNeeded (cfg : Config) : ℕ := if cfg.mmu then 3 else 2

/-- The pages of a process were free before. -/
theorem initProcPages_needs {o : ℕ × ℕ} (h : initProcPages q k = .ok (some o) k') :
    pagesNeeded cfg ≤ countFreePages k := by
  cases initProcPages_ok h with
  | noMmu hmmu hi hj =>
    have hsp := countFreePages_takePage (k.procs q).pid hi
    have hksp := countFreePages_takePage (k.procs q).pid hj
    rw [pagesNeeded, hmmu, if_neg Bool.false_ne_true]
    omega
  | mmu hmmu hi hj hl _ _ =>
    have hsp := countFreePages_takePage (k.procs q).pid hi
    have hksp := countFreePages_takePage (k.procs q).pid hj
    have hpt := countFreePages_takePage (k.procs q).pid hl
    rw [pagesNeeded, if_pos hmmu]
    omega

/-- The second half of `init_proc`, when it returns: the entries are made, or there
    is no room for them. -/
theorem fillProc_entries {pc sp ksp : ℕ} {name : Option (List UInt8)} {status : ℤ}
    (hpid : (k.procs q).pid = n)
    (hlt : n < 2 ^ 32) (h : fillProc q pc name sp ksp k = .ok status k') :
    (status ≠ 0 ∧ ¬ProcfsRoom k q n) ∨ status = 0 ∧ ∃ d e i j, Adds q d e i j k k' ∧
      bifsOpendirpath (ascii "/proc") (ascii "/proc").length (k.named q n) = .ok (some e) (k.named q n) := by
  have hpid' : ((k.filled q pc name sp ksp).procs q).pid = n := by
    simpa [Kernel.filled, Kernel.setState, Kernel.setProc, freshProc] using hpid
  -- The writes to the process change no entry.
  have hsame : SameEntries (· ≠ q) k (k.filled q pc name sp ksp) := by
    refine ⟨fun _ => rfl, fun _ => rfl, fun r hr => ?_, fun r hr => ?_⟩
    · simp [Kernel.filled, Kernel.setState, Kernel.setProc, hr, Part.SameProc]
    · simp [Kernel.filled, Kernel.setState, Kernel.setProc, hr]
  have hview := Kernel.filled_view (k := k) (q := q) pc name sp ksp
  have hrun : fillProc q pc name sp ksp k = (do
      let status ← initProcfsFiles q name
      if status ≠ 0 then return status
      withLock .procTable do modify fun k => { k with numProcs := k.numProcs + 1 }
      return 0 : KM cfg ℤ) (k.filled q pc name sp ksp) := rfl
  rw [hrun] at h
  rcases initProcfsFiles_result hpid' hlt
    name with ⟨k₁, hinit, -⟩ | ⟨s, k₁, hinit, hs, hroom⟩ | ⟨e, k₁, hinit⟩
  · rw [bind_ok hinit, if_neg (by simp)] at h
    obtain ⟨_, k₂, h₂, h⟩ := bind_eq_ok.1 h
    cases h
    obtain ⟨-, t, ht, rfl⟩ := withLock_eq_ok.1 h₂
    cases ht
    obtain ⟨d, e, i, j, hadds, hopen⟩ := initProcfsFiles_ok hpid' hlt hinit
    refine .inr ⟨rfl, d, e, i, j, (hadds.of_same hsame).same ?_,
      bifsOpendirpath_congr (dirView_named hview) hopen⟩
    exact ⟨fun _ => rfl, fun _ => rfl, fun _ _ => .refl _, fun _ _ => rfl⟩
  · rw [bind_ok hinit, if_pos hs] at h
    cases h
    exact .inl ⟨hs, fun hroom' => hroom ((ProcfsRoom.congr hview rfl).2 hroom')⟩
  · rw [bind_error hinit] at h
    cases h

/-- How `init_proc` has returned. -/
inductive InitEntries (q : Slot cfg) (k : Kernel cfg) (status : ℤ) (k' : Kernel cfg) : Prop
  /-- There were not enough pages. -/
  | short : status ≠ 0 → SameEntries (· ≠ q) k k' → k'.core = k.core.newPid q →
      InitEntries q k status k'
  /-- There was no room for the entries. -/
  | full : status ≠ 0 → pagesNeeded cfg ≤ countFreePages k →
      ¬ProcfsRoom k q (k.pidCounter % 2 ^ 32) →
      InitEntries q k status k'
  | done {d e : Fin bifsMaxDirs} {i j : Fin bifsMaxFiles} :
      status = 0 → pagesNeeded cfg ≤ countFreePages k →
      Adds q d e i j k k' →
      bifsOpendirpath (ascii "/proc") (ascii "/proc").length (k.named q (k.pidCounter % 2 ^ 32)) =
        .ok (some e) (k.named q (k.pidCounter % 2 ^ 32)) → InitEntries q k status k'

theorem initProc_entries {pc : ℕ} {name : Option (List UInt8)} {status : ℤ} (ht : k.held .procTable = false)
    (h : initProc q pc name k = .ok status k') : InitEntries q k status k' := by
  rw [initProc, bind_ok (allocPid_apply ht)] at h
  have hrun : ∀ f : Unit → KM cfg ℤ, (modifyProc q (fun x => { x with
      pid := k.pidCounter % 2 ^ 32, uid := k.pidCounter, forker := none }) >>= f)
        { k with pidCounter := k.pidCounter + 1 } = f () (k.newPid q) := fun f => rfl
  rw [hrun] at h
  obtain ⟨o, k₁, h₁, h⟩ := bind_eq_ok.1 h
  have hcore : k₁.core = k.core.newPid q :=
    ((still_initProcPages (L := {.pagedMemory}) rfl).core_eq h₁).trans Kernel.newPid_core
  have hpid : ∀ r, (k₁.procs r).pid = if r = q then k.pidCounter % 2 ^ 32 else (k.procs r).pid := by
    intro r
    rw [← Kernel.core_procs, hcore]
    by_cases hr : r = q
    · subst hr
      simp [Core.newPid, Kernel.core]
    · simp [Core.newPid, hr, Kernel.core_procs]
  have hframe : ∀ x ∈ ({.dirs, .bfiles, .procfs} : Set Part), x.Same (k.newPid q) k₁ := by
    rintro x (rfl | rfl | rfl) <;>
      exact Frame.same (frame_initProcPages (by simp) (by simp) (by simp)) h₁
  -- A number and pages are no entries: until `init_procfs_files` nothing in `/proc`
  -- changes.
  have hprocs : ∀ r, Part.procfs.SameProc (k.procs r) ((k.newPid q).procs r) := by
    intro r
    by_cases hr : r = q
    · subst hr
      simp [Kernel.newPid, Kernel.setProc, Part.SameProc]
    · simp [Kernel.newPid, Kernel.setProc, hr, Part.SameProc]
  have hprocs₁ : ∀ r, Part.procfs.SameProc (k.procs r) (k₁.procs r) := fun r =>
    (hprocs r).trans (hframe .procfs (by simp) r)
  have hsame : SameEntries (· ≠ q) k k₁ :=
    ⟨hframe .dirs (by simp), hframe .bfiles (by simp), fun r _ => hprocs₁ r,
      fun r hr => by rw [hpid, if_neg hr]⟩
  cases o with
  | none =>
    cases h
    exact .short (by decide) hsame hcore
  | some o =>
    have hcount : countFreePages (k.newPid q) = countFreePages k := countFreePages_congr rfl
    have hq₁ : (k₁.procs q).pid = k.pidCounter % 2 ^ 32 := by rw [hpid, if_pos rfl]
    have hlt : k.pidCounter % 2 ^ 32 < 2 ^ 32 := Nat.mod_lt _ (by decide)
    have htables := (Paging.initProcPages (q := q) (k.newPid q)).1
    rw [h₁] at htables
    have hview : dirView k₁ = dirView k := htables.view.trans Kernel.newPid_view
    rcases fillProc_entries hq₁ hlt h with ⟨hs, hroom⟩ | ⟨hs, d, e, i, j, hadds, hopen⟩
    · exact .full hs (hcount ▸ initProcPages_needs h₁) fun hroom' =>
        hroom ((ProcfsRoom.congr hview htables.bfiles).2 hroom')
    · exact .done hs (hcount ▸ initProcPages_needs h₁) (hadds.of_same hsame)
        (bifsOpendirpath_congr (dirView_named hview) hopen)

/-! ## proc_fork -/

theorem forkChild_same {r : ℤ} (hp : k.held .pagedMemory = false) (h : forkChild p q k = .ok r k') :
    SameEntries (fun _ => True) k k' := by
  have hpid : ∀ l, (k'.procs l).pid = (k.procs l).pid := by
    rcases forkChild_result (p := p) (q := q) hp with ⟨frame, t, h', hcore, -⟩ | ⟨e, t, h', -, -⟩
    · rw [h] at h'
      cases h'
      intro l
      rw [← Kernel.core_procs, hcore, ← Kernel.core_procs k]
      by_cases hl : l = q
      · subst hl
        simp [Core.adopted]
      · simp [Core.adopted, hl]
    · rw [h] at h'
      cases h'
  refine SameEntries.of_parts ?_ fun l _ => hpid l
  rintro x (rfl | rfl | rfl) <;>
    exact Frame.same (frame_forkChild (by simp) (by simp) (by simp) (by simp) (by simp)) h

/-- The core after `p` has forked the process in `q`. -/
def Core.forked (s : Core cfg) (p q : Slot cfg) (frame frame' frame'' : TrapFrame) : Core cfg :=
  let t := s.update p fun x => { x with trap := frame }
  ((((t.newPid q).fresh q frame').counted.adopted p q).update q fun x => { x with trap := frame'' }).record
    (.created t.pidCounter)

theorem Core.forked_state {s : Core cfg} {frame frame' frame'' : TrapFrame} (l : Slot cfg) :
    ((s.forked p q frame frame' frame'').procs l).state = if l = q then .ready else (s.procs l).state := by
  by_cases hl : l = q
  · subst hl
    simp [Core.forked, Core.newPid, Core.fresh, Core.counted, Core.adopted]
  · by_cases hlp : l = p
    · subst hlp
      simp [Core.forked, Core.newPid, Core.fresh, Core.counted, Core.adopted, hl]
    · simp [Core.forked, Core.newPid, Core.fresh, Core.counted, Core.adopted, hl, hlp]

theorem Core.forked_pid {s : Core cfg} {frame frame' frame'' : TrapFrame} :
    ((s.forked p q frame frame' frame'').procs q).pid = s.pidCounter % 2 ^ 32 := by
  simp [Core.forked, Core.newPid, Core.fresh, Core.counted, Core.adopted]

theorem Core.numbered_state {s : Core cfg} {frame : TrapFrame} (l : Slot cfg) :
    (((s.update p fun x => { x with trap := frame }).newPid q).procs l).state = (s.procs l).state := by
  by_cases hl : l = q
  · subst hl
    by_cases hlp : l = p
    · subst hlp
      simp [Core.newPid]
    · simp [Core.newPid, hlp]
  · by_cases hlp : l = p
    · subst hlp
      simp [Core.newPid, hl]
    · simp [Core.newPid, hl, hlp]

/-- How `proc_fork` of the process `p` has returned. -/
inductive ForkEntries (p : Slot cfg) (k k' : Kernel cfg) : Prop
  | short {q : Slot cfg} {frame : TrapFrame} : freeSlot k = some q → SameEntries (· ≠ q) k k' →
      k'.core = (k.core.update p fun x => { x with trap := frame }).newPid q → ForkEntries p k k'
  | full {q : Slot cfg} : freeSlot k = some q → pagesNeeded cfg ≤ countFreePages k →
      ¬ProcfsRoom k q (k.pidCounter % 2 ^ 32) → ForkEntries p k k'
  | done {q : Slot cfg} {d e : Fin bifsMaxDirs} {i j : Fin bifsMaxFiles} {frame frame' frame'' : TrapFrame} :
      freeSlot k = some q → pagesNeeded cfg ≤ countFreePages k → Adds q d e i j k k' →
      bifsOpendirpath (ascii "/proc") (ascii "/proc").length (k.named q (k.pidCounter % 2 ^ 32)) =
        .ok (some e) (k.named q (k.pidCounter % 2 ^ 32)) →
      k'.core = k.core.forked p q frame frame' frame'' → ForkEntries p k k'

theorem procFork_entries {r : ℤ} (hk : Calm p k)
    (hcpu : k.core.cpuProc = some p) (h : procFork p k = .ok r k') :
    ForkEntries p k k' := by
  obtain ⟨q, status, k₁, hslot, hinit, hend⟩ := procFork_halves hk hcpu h
  have hlock : ∀ l ∈ ({.procTable, .pagedMemory} : Set (Lock cfg)), (k.forking p q).held l = false := by
    rintro l (rfl | rfl)
    · simpa [Kernel.forking, Kernel.setHeld] using hk.free _ (by simp)
    · simpa [Kernel.forking, Kernel.setHeld] using hk.free _ (by simp)
  have hforking : (k.forking p q).core = k.core.update p fun x => { x with trap := k.trapFrame } :=
    Kernel.setProc_core_of rfl
  have hprocs : ∀ l, Part.procfs.SameProc (k.procs l) ((k.forking p q).procs l) ∧
      ((k.forking p q).procs l).pid = (k.procs l).pid := by
    intro l
    by_cases hl : l = p
    · subst hl
      simp [Kernel.forking, Kernel.setHeld, Kernel.setProc, Part.SameProc]
    · simp [Kernel.forking, Kernel.setHeld, Kernel.setProc, hl, Part.SameProc]
  -- What comes before `init_proc` saves the frame of the parent and takes locks.
  have hsame : SameEntries (· ≠ q) k (k.forking p q) :=
    ⟨fun _ => rfl, fun _ => rfl, fun l _ => (hprocs l).1, fun l _ => (hprocs l).2⟩
  have hview : dirView (k.forking p q) = dirView k := Prod.ext rfl (funext fun l => (hprocs l).1.2.2)
  have hcount : countFreePages (k.forking p q) = countFreePages k := countFreePages_congr rfl
  have hres := initProc_entries (hlock _ (by simp)) hinit
  -- The fork fails with `init_proc`, or goes on with the second half, which leaves the
  -- entries.
  rcases hend with ⟨hs, -, mem, rfl⟩ | ⟨rfl, hchild⟩
  · cases hres with
    | short _ hentries hcore =>
      rw [hforking] at hcore
      refine .short hslot ((hsame.trans hentries).trans ?_) hcore
      exact ⟨fun _ => rfl, fun _ => rfl, fun _ _ => .refl _, fun _ _ => rfl⟩
    | full _ hpages hroom =>
      exact .full hslot (hcount ▸ hpages) fun h => hroom ((ProcfsRoom.congr hview rfl).2 h)
    | done hs' => exact absurd hs' hs
  · cases hres with
    | short hs | full hs => exact absurd rfl hs
    | done _ hpages hadds hopen =>
      have hcore := initProc_result (k := k.forking p q) (q := q) (hlock _ (by simp)) (hlock _ (by simp))
        k.trapFrame.pc none
      rw [hinit] at hcore
      obtain ⟨frame', hc, hh⟩ : ∃ frame,
          k₁.core = (((k.forking p q).core.newPid q).fresh q frame).counted ∧
          k₁.held = (k.forking p q).held := by
        cases hcore with
        | short hs | full hs => exact absurd rfl hs
        | done hc hh _ => exact ⟨_, hc, hh⟩
      have hp₁ : k₁.held .pagedMemory = false := by
        rw [hh]
        exact hlock _ (by simp)
      have hchild' := forkChild_same hp₁ hchild
      have hopen' := bifsOpendirpath_congr (dirView_named hview) hopen
      have huid : (k₁.core.procs q).uid = k.pidCounter := by
        rw [hc]
        simp only [Core.newPid, Core.fresh, Core.counted, Core.setState_procs_self, Core.update_procs_self]
        rfl
      rcases forkChild_result (p := p) (q := q) hp₁ with ⟨frame'', t, h', hc', -⟩ | ⟨e, t, h', -, -⟩
      · rw [hchild] at h'
        cases h'
        rw [huid, hc, hforking] at hc'
        have hforked : k'.core = k.core.forked p q k.trapFrame frame' frame'' := hc'
        exact .done hslot (hcount ▸ hpages) ((hadds.of_same hsame).same hchild') hopen' hforked
      · rw [hchild] at h'
        cases h'

/-! ## kinit -/

/-- The first process, when the kernel has booted. -/
theorem kinit_entries {mem : ℕ → UInt8} (h : kinit (initKernel cfg mem) = .ok () k) :
    ∃ p d e i j, Adds p d e i j (initKernel cfg mem) k ∧
      bifsOpendirpath (ascii "/proc") (ascii "/proc").length ((initKernel cfg mem).named p 0) =
        .ok (some e) ((initKernel cfg mem).named p 0) ∧
      (∀ q, (k.procs q).state = if q = p then .ready else .available) ∧ (k.procs p).pid = 0 := by
  obtain ⟨k₁, p, pc, name, k₂, h₁, h₂, hsame, -, hprocs⟩ := kinit_ok (fun _ => rfl) h
  have hcore₁ : k₁.core = Core.init cfg :=
    ((still_makeKernelPageTable (L := {.pagedMemory}) rfl).core_eq h₁).trans rfl
  have hheld₁ : ∀ l, k₁.held l = false := by
    intro l
    have hend :=
      (still_makeKernelPageTable (L := {.pagedMemory}) rfl _ (fun _ _ => rfl) (initKernel cfg mem)).2 rfl
    rw [h₁] at hend
    exact (congrFun hend l).trans rfl
  have hlock : ∀ l ∈ ({.procTable, .pagedMemory} : Set (Lock cfg)),
      (k₁.setHeld (.proc p) true).held l = false := by
    rintro l (rfl | rfl)
    · simpa [Kernel.setHeld] using hheld₁ _
    · simpa [Kernel.setHeld] using hheld₁ _
  have hpid₁ : ∀ q, (k₁.procs q).pid = 0 := by
    intro q
    rw [← Kernel.core_procs, hcore₁]
    rfl
  -- The page table of the kernel is built before; the name and the frame of the first
  -- process are set after `init_proc`.
  have hsame₁ : SameEntries (· ≠ p) (initKernel cfg mem) (k₁.setHeld (.proc p) true) := by
    refine SameEntries.of_parts ?_ fun q _ => hpid₁ q
    rintro x (rfl | rfl | rfl) <;>
      exact Part.Same.trans (Frame.same (frame_makeKernelPageTable (by simp) (by simp)) h₁)
      (Part.same_of_parts rfl)
  have hview : dirView (initKernel cfg mem) = dirView (k₁.setHeld (.proc p) true) := by
    have hnames : Part.procfs.Same _ k₁ := Frame.same (frame_makeKernelPageTable (by simp) (by simp)) h₁
    exact Prod.ext (funext fun d => (hsame₁.dirs d).symm) (funext fun q => (hnames q).2.2.symm)
  have hres :=
    initProc_result (k := k₁.setHeld (.proc p) true) (q := p) (hlock _ (by simp)) (hlock _ (by simp)) pc
    (some name)
  rw [h₂] at hres
  obtain ⟨frame, hcore₂⟩ : ∃ frame, k₂.core = (((Core.init cfg).newPid p).fresh p frame).counted := by
    cases hres with
    | short hs | full hs => exact absurd rfl hs
    | done hc _ _ =>
      exact ⟨_, by rw [hc, show (k₁.setHeld (.proc p) true).core = Core.init cfg from hcore₁]⟩
  have hsame₂ : SameEntries (fun _ => True) k₂ k :=
    .of_parts (by rintro x (rfl | rfl | rfl) <;> exact hsame _ rfl) fun q _ => (hprocs q).2
  cases initProc_entries (hlock _ (by simp)) h₂ with
  | short hs | full hs => exact absurd rfl hs
  | @done d e i j _ _ hadds hopen =>
    refine ⟨p, d, e, i, j, (hadds.of_same hsame₁).same hsame₂, ?_, fun q => ?_, ?_⟩
    · have hcounter : (k₁.setHeld (.proc p) true).pidCounter = 0 := congrArg Core.pidCounter hcore₁
      rw [hcounter] at hopen
      exact bifsOpendirpath_congr (dirView_named hview.symm) hopen
    · rw [(hprocs q).1, ← Kernel.core_procs, hcore₂]
      by_cases hq : q = p
      · subst hq
        simp [Core.newPid, Core.fresh, Core.counted]
      · simp [Core.newPid, Core.fresh, Core.counted, hq, Core.init, zeroProc]
    · rw [(hprocs p).2, ← Kernel.core_procs, hcore₂]
      simp [Core.newPid, Core.fresh, Core.counted, Core.init]

end HobbyOs
