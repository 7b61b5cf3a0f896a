import HobbyOs.Calls

/-!
# Creating a process

`proc_fork` by its stages: a slot is found and its lock taken, the slot gets a
pid and pages, it is filled in and made ready, its files are made in `/proc`,
it is counted, and only then it becomes a copy of its parent. What is undone
when a stage fails is little: the pages.

* `freeSlot`, `freePage` and `ProcfsRoom` tell from the kernel before the call
  how far it gets;
* `procFork_result` is the effect of the call on scheduling.
-/

namespace HobbyOs

open Outcome

variable {cfg : Config} {α : Type} {p q : Slot cfg} {k : Kernel cfg}

/-! ## The slot -/

/-- The slot that `alloc_process` finds. -/
def freeSlot (k : Kernel cfg) : Option (Slot cfg) :=
  (List.finRange cfg.maxProcs).find? fun q => k.cpuProc ≠ some q ∧ (k.procs q).state = .available

theorem trySlot_apply (hk : ∀ q, k.cpuProc ≠ some q → k.held (.proc q) = false) (q : Slot cfg) :
    trySlot q k = if k.cpuProc ≠ some q ∧ (k.procs q).state = .available then
      .ok (some q) (k.setHeld (.proc q) true) else .ok none k := by
  simp only [trySlot, get_bind_apply]
  by_cases hcpu : k.cpuProc = some q
  · rw [if_pos hcpu, if_neg fun h => h.1 hcpu]
    rfl
  rw [if_neg hcpu, bind_ok (acquire_ok (hk q hcpu))]
  simp only [get_bind_apply]
  by_cases ha : (k.procs q).state = .available
  · rw [if_pos (by exact ha), if_pos ⟨hcpu, ha⟩]
    rfl
  · rw [if_neg (by exact ha), if_neg fun h => ha h.2]
    show EStateM.Result.ok none ((k.setHeld (.proc q) true).setHeld (.proc q) false) = _
    rw [Kernel.setHeld_setHeld (hk q hcpu)]

/-- The loop of `alloc_process` over some slots. -/
theorem findSomeM_trySlot (hk : ∀ q, k.cpuProc ≠ some q → k.held (.proc q) = false)
    (l : List (Slot cfg)) :
    l.findSomeM? trySlot k =
      match l.find? fun q => k.cpuProc ≠ some q ∧ (k.procs q).state = .available with
      | none => .ok none k
      | some q => .ok (some q) (k.setHeld (.proc q) true) := by
  induction l with
  | nil => rfl
  | cons q l ih =>
    have hq := trySlot_apply hk q
    by_cases h : k.cpuProc ≠ some q ∧ (k.procs q).state = .available
    · rw [if_pos h] at hq
      rw [List.findSomeM?_cons, bind_ok hq, List.find?_cons_of_pos (by simpa using h)]
      rfl
    · rw [if_neg h] at hq
      rw [List.findSomeM?_cons, bind_ok hq, List.find?_cons_of_neg (by simpa using h)]
      exact ih

theorem allocProcess_apply (ht : k.held .procTable = false)
    (hk : ∀ q, k.cpuProc ≠ some q → k.held (.proc q) = false) :
    allocProcess k = .ok (freeSlot k) (match freeSlot k with
      | none => k
      | some q => k.setHeld (.proc q) true) := by
  have hloop := findSomeM_trySlot (k := k.setHeld .procTable true)
    (fun q hq => by simpa [Kernel.setHeld] using hk q hq) (List.finRange cfg.maxProcs)
  have hfind : ((List.finRange cfg.maxProcs).find? fun q =>
      (k.setHeld .procTable true).cpuProc ≠ some q ∧
        ((k.setHeld .procTable true).procs q).state = .available) = freeSlot k := rfl
  rw [hfind] at hloop
  cases hs : freeSlot k with
  | none =>
    rw [hs] at hloop
    have := withLock_apply ht hloop
    rwa [Kernel.setHeld_setHeld ht] at this
  | some q =>
    rw [hs] at hloop
    have := withLock_apply ht hloop
    rw [Kernel.setHeld_comm (by simp), Kernel.setHeld_setHeld ht] at this
    exact this

/-! ## The files in `/proc` -/

/-- What a lookup of a directory reads. -/
def dirView (k : Kernel cfg) : (Fin bifsMaxDirs → BifsDir cfg) × (Slot cfg → List UInt8) :=
  (k.dirs, fun q => (k.procs q).piddir)

theorem dirView_setProc {x : Proc cfg} (hn : x.piddir = (k.procs q).piddir) :
    dirView (k.setProc q x) = dirView k := by
  refine Prod.ext rfl (funext fun r => ?_)
  by_cases hr : r = q
  · subst hr
    simpa [dirView, Kernel.setProc] using hn
  · simp [dirView, Kernel.setProc, hr]

theorem nameText_eq {k k' : Kernel cfg} (h : dirView k = dirView k') (n : BifsName cfg) :
    nameText k n = nameText k' n := by
  cases n with
  | lit s => rfl
  | piddir q => exact congrFun (Prod.mk.inj h).2 q

theorem reads_bifsOpendir {parent : Fin bifsMaxDirs} {name : List UInt8} {start stop : ℕ} :
    Reads dirView (bifsOpendir parent name start stop : KM cfg _) := by
  refine Reads.findSomeM fun i => Reads.get_bind ?_ fun k => ?_
  · intro s t h
    simp only [(Prod.mk.inj h).1, nameText_eq h]
  · dsimp only
    split
    · exact Reads.pure _
    · split
      · exact Reads.throw _
      · split
        · exact Reads.pure _
        · exact Reads.pure _

theorem reads_opendirLoop {path : List UInt8} {stop : ℕ} (turns : ℕ) (dir : Fin bifsMaxDirs)
    (prev pos : ℕ) : Reads dirView (opendirLoop path stop turns dir prev pos : KM cfg _) := by
  induction turns generalizing dir prev pos with
  | zero => exact Reads.pure _
  | succ turns ih =>
    rw [opendirLoop]
    split
    · refine reads_bifsOpendir.bind fun d => ?_
      cases d with
      | none => exact Reads.pure _
      | some d => exact ih d _ _
    · exact Reads.pure _

theorem reads_bifsOpendirpath (path : List UInt8) (stop : ℕ) :
    Reads dirView (bifsOpendirpath path stop : KM cfg _) := by
  refine (reads_opendirLoop _ _ _ _).bind fun r => ?_
  cases r with
  | none => exact Reads.pure _
  | some r =>
    dsimp only
    split
    · exact reads_bifsOpendir
    · exact Reads.pure _

theorem itoa_eq {n : ℕ} (h : n < 2 ^ 32) : itoa maxFilenameLen n = some (digits n) := by
  have hlen : (Nat.toDigits 10 n).length ≤ 15 :=
    (Nat.length_toDigits_le_iff (by decide) (by decide)).2 (by omega)
  have hfit : (digits n).length + 1 ≤ maxFilenameLen := by
    rw [digits, List.length_map]
    exact Nat.succ_le_succ hlen
  rw [itoa, if_pos hfit]

/-- Two files are free. -/
def TwoFiles (k : Kernel cfg) : Prop :=
  ∃ j j', j ≠ j' ∧ (k.bfiles j).flags = 0 ∧ (k.bfiles j').flags = 0

theorem freeBifsFile_none : freeBifsFile k = none ↔ ∀ j, (k.bfiles j).flags ≠ 0 := by
  simp [freeBifsFile]

theorem freeBifsFile_some {j : Fin bifsMaxFiles} (h : freeBifsFile k = some j) :
    (k.bfiles j).flags = 0 := by
  simpa using List.find?_some h

/-- The kernel with the first of the two files of a process made. -/
def withNameFile (k : Kernel cfg) (q : Slot cfg) (name : Option (List UInt8))
    (dir : Fin bifsMaxDirs) (j : Fin bifsMaxFiles) : Kernel cfg :=
  { k.setProc q { k.procs q with procfsNameFile := some j } with
    bfiles := Function.update k.bfiles j { k.bfiles j with
      parent := some dir, flags := bifsReadable ||| bifsRaw, name := some (ascii "name"),
      data := .lit (name.getD []) } }

/-- The other file is free if and only if two files were. -/
theorem freeBifsFile_withNameFile (name : Option (List UInt8)) (dir : Fin bifsMaxDirs)
    {j : Fin bifsMaxFiles} (hj : (k.bfiles j).flags = 0) :
    (freeBifsFile (withNameFile k q name dir j)).isSome ↔ TwoFiles k := by
  have hflags : ∀ i, ((withNameFile k q name dir j).bfiles i).flags = 0 ↔
      i ≠ j ∧ (k.bfiles i).flags = 0 := by
    intro i
    by_cases hij : i = j
    · subst hij
      simp [withNameFile]
    · simp [withNameFile, hij]
  rw [Option.isSome_iff_ne_none, Ne, freeBifsFile_none]
  simp only [not_forall, not_not, hflags]
  constructor
  · rintro ⟨i, hij, hi⟩
    exact ⟨i, j, hij, hi, hj⟩
  · rintro ⟨i, i', hne, hi, hi'⟩
    by_cases h : i = j
    · exact ⟨i', fun h' => hne (h.trans h'.symm), hi'⟩
    · exact ⟨i, h, hi⟩

theorem bifsAllocateFile_none (h : freeBifsFile k = none) : bifsAllocateFile k = .ok none k := by
  rw [bifsAllocateFile, get_bind_apply, h]
  rfl

theorem bifsAllocateFile_some {j : Fin bifsMaxFiles} (h : freeBifsFile k = some j) :
    bifsAllocateFile k = .ok (some j) { k with
      bfiles := Function.update k.bfiles j { k.bfiles j with flags := bifsReadable } } := by
  rw [bifsAllocateFile, get_bind_apply, h]
  rfl

/-- The last part of `init_procfs_files` finds a file if two were free. -/
theorem procfsStatsFile_result (name : Option (List UInt8)) (dir : Fin bifsMaxDirs)
    {j : Fin bifsMaxFiles} (hj : (k.bfiles j).flags = 0) :
    (∃ k', procfsStatsFile q dir (withNameFile k q name dir j) = .ok 0 k' ∧ TwoFiles k) ∨
      ∃ k', procfsStatsFile q dir (withNameFile k q name dir j) = .ok (-ENFILE) k' ∧ ¬TwoFiles k := by
  have htwo := freeBifsFile_withNameFile (q := q) name dir hj
  rw [procfsStatsFile]
  cases hj' : freeBifsFile (withNameFile k q name dir j) with
  | none =>
    rw [bind_ok (bifsAllocateFile_none hj')]
    exact .inr ⟨_, rfl, fun h => by simpa [hj'] using htwo.2 h⟩
  | some j' =>
    rw [bind_ok (bifsAllocateFile_some hj')]
    exact .inl ⟨_, rfl, htwo.1 (by simp [hj'])⟩

/-- The second half of `init_procfs_files` takes two files, or fails. -/
theorem procfsFiles_result (name : Option (List UInt8)) (dir : Fin bifsMaxDirs) (k : Kernel cfg) :
    (∃ k', procfsFiles q name dir k = .ok 0 k' ∧ TwoFiles k) ∨
      ∃ k', procfsFiles q name dir k = .ok (-ENFILE) k' ∧ ¬TwoFiles k := by
  rw [procfsFiles]
  cases hj : freeBifsFile k with
  | none =>
    rw [bind_ok (bifsAllocateFile_none hj)]
    refine .inr ⟨_, rfl, ?_⟩
    rintro ⟨j, _, _, h0, _⟩
    exact freeBifsFile_none.1 hj j h0
  | some j =>
    rw [bind_ok (bifsAllocateFile_some hj)]
    simp only [modifyProc, modify_bind_apply]
    have hk₁ := procfsStatsFile_result (q := q) name dir (freeBifsFile_some hj)
    rw [withNameFile] at hk₁
    simpa [Kernel.setProc] using hk₁

/-- `bifs_mkdir` makes a directory if the path is found and one is free. -/
theorem bifsMkdir_result (path : List UInt8) (name : BifsName cfg) (k : Kernel cfg) :
    (∃ i k', bifsMkdir path name k = .ok (some i) k' ∧ k'.bfiles = k.bfiles ∧
      (∃ d, bifsOpendirpath path path.length k = .ok (some d) k) ∧ ∃ i, (k.dirs i).flags = 0) ∨
    (∃ k', bifsMkdir path name k = .ok none k' ∧
      ¬((∃ d, bifsOpendirpath path path.length k = .ok (some d) k) ∧ ∃ i, (k.dirs i).flags = 0)) ∨
    ∃ e k', bifsMkdir path name k = .error e k' := by
  rw [bifsMkdir]
  rcases reads_bifsOpendirpath path path.length k k rfl with
    ⟨d, h, _⟩ | ⟨e, h, _⟩
  · rw [bind_ok h]
    cases d with
    | none => exact .inr (.inl ⟨k, rfl, fun ⟨⟨d, hd⟩, _⟩ => by simp [h] at hd⟩)
    | some d =>
      cases hi : freeDir k with
      | none =>
        have hall : bifsAllocateDir k = .ok none k := by
          rw [bifsAllocateDir, get_bind_apply, hi]
          rfl
        simp only [bind_ok hall]
        refine .inr (.inl ⟨k, rfl, fun ⟨_, i, hfree⟩ => ?_⟩)
        simp only [freeDir, List.find?_eq_none, decide_eq_true_eq] at hi
        exact hi i (List.mem_finRange i) hfree
      | some i =>
        have hall : bifsAllocateDir k = .ok (some i) { k with
            dirs := Function.update k.dirs i { k.dirs i with flags := bifsReadable, lsdir := .bifs } } := by
          rw [bifsAllocateDir, get_bind_apply, hi]
          rfl
        simp only [bind_ok hall]
        exact .inl ⟨i, _, rfl, rfl, ⟨d, h⟩, i, by simpa using List.find?_some hi⟩
  · exact .inr (.inr ⟨e, k, bind_error h⟩)

/-- `init_procfs_files` succeeds if and only if there is room. -/
theorem initProcfsFiles_result {pid : ℕ} (hpid : (k.procs q).pid = pid) (hlt : pid < 2 ^ 32)
    (name : Option (List UInt8)) :
    (∃ k', initProcfsFiles q name k = .ok 0 k' ∧ ProcfsRoom k q pid) ∨
      (∃ s k', initProcfsFiles q name k = .ok s k' ∧ s ≠ 0 ∧ ¬ProcfsRoom k q pid) ∨
      ∃ e k', initProcfsFiles q name k = .error e k' := by
  simp only [initProcfsFiles, get_bind_apply, hpid]
  rw [itoa_eq hlt]
  simp only [modifyProc, modify_bind_apply]
  rcases bifsMkdir_result (ascii "/proc") (.piddir q) (k.named q pid) with
    ⟨i, k₁, h, hb, hd, hi⟩ | ⟨k₁, h, hno⟩ | ⟨e, k₁, h⟩
  · simp only [Kernel.named] at h
    rw [bind_ok h]
    have hb : k₁.bfiles = k.bfiles := hb
    rcases procfsFiles_result (q := q) name i
      (k₁.setProc q { k₁.procs q with procfsDir := some i }) with ⟨k', h', htwo⟩ | ⟨k', h', htwo⟩
    · refine .inl ⟨k', h', hd, hi, ?_⟩
      rw [TwoFiles] at htwo
      simpa [Kernel.setProc, hb] using htwo
    · refine .inr (.inl ⟨_, k', h', by decide, fun hroom => htwo ?_⟩)
      rw [TwoFiles]
      simpa [Kernel.setProc, hb] using hroom.2.2
  · simp only [Kernel.named] at h
    rw [bind_ok h]
    exact .inr (.inl ⟨_, _, rfl, by decide, fun hroom => hno ⟨hroom.1, hroom.2.1⟩⟩)
  · simp only [Kernel.named] at h
    exact .inr (.inr ⟨e, k₁, bind_error h⟩)

theorem dirView_named {k k' : Kernel cfg} {pid : ℕ} (hv : dirView k = dirView k') :
    dirView (k.named q pid) = dirView (k'.named q pid) := by
  have hnames := congrFun (Prod.mk.inj hv).2
  refine Prod.ext (Prod.mk.inj hv).1 (funext fun r => ?_)
  by_cases hr : r = q
  · subst hr
    simp [dirView, Kernel.named, Kernel.setProc]
  · simpa [dirView, Kernel.named, Kernel.setProc, hr] using hnames r

/-- What is found depends on the tables of the file system only. -/
theorem bifsOpendirpath_congr {k k' : Kernel cfg} {path : List UInt8} {stop : ℕ}
    {o : Option (Fin bifsMaxDirs)}
    (hv : dirView k = dirView k') (h : bifsOpendirpath path stop k = .ok o k) :
    bifsOpendirpath path stop k' = .ok o k' := by
  rcases reads_bifsOpendirpath path stop _ _ hv with ⟨a, ha, ha'⟩ | ⟨e, he, -⟩
  · rw [h] at ha
    cases ha
    exact ha'
  · rw [h] at he
    cases he

/-- The room depends on the tables of the file system only. -/
theorem ProcfsRoom.congr {k k' : Kernel cfg} {pid : ℕ} (hv : dirView k = dirView k')
    (hb : k.bfiles = k'.bfiles) : ProcfsRoom k q pid ↔ ProcfsRoom k' q pid := by
  have hdirs : k.dirs = k'.dirs := (Prod.mk.inj hv).1
  have hview : dirView (k.named q pid) = dirView (k'.named q pid) := dirView_named hv
  have hopen : (∃ d, bifsOpendirpath (ascii "/proc") (ascii "/proc").length (k.named q pid) =
        .ok (some d) (k.named q pid)) ↔
      ∃ d, bifsOpendirpath (ascii "/proc") (ascii "/proc").length (k'.named q pid) =
        .ok (some d) (k'.named q pid) :=
    ⟨fun ⟨d, hd⟩ => ⟨d, bifsOpendirpath_congr hview hd⟩, fun ⟨d, hd⟩ =>
      ⟨d, bifsOpendirpath_congr hview.symm hd⟩⟩
  rw [ProcfsRoom, ProcfsRoom, hopen, hdirs, hb]

/-! ## Pages and page tables -/

/-- What code that works on pages and page tables leaves alone. -/
structure SameTables (k k' : Kernel cfg) : Prop where
  core : k'.core = k.core
  trapFrame : k'.trapFrame = k.trapFrame
  files : k'.files = k.files
  bfiles : k'.bfiles = k.bfiles
  view : dirView k' = dirView k

namespace SameTables

theorem refl (k : Kernel cfg) : SameTables k k := ⟨rfl, rfl, rfl, rfl, rfl⟩

theorem trans {a b c : Kernel cfg} (h : SameTables a b) (h' : SameTables b c) : SameTables a c :=
  ⟨h'.core.trans h.core, h'.trapFrame.trans h.trapFrame, h'.files.trans h.files,
    h'.bfiles.trans h.bfiles, h'.view.trans h.view⟩

/-- Fields of a process that are neither scheduled by nor a name. -/
theorem setProc {x : Proc cfg} (hx : x.toPCore = (k.procs q).toPCore)
    (hn : x.piddir = (k.procs q).piddir) : SameTables k (k.setProc q x) where
  core := k.setProc_core_eq q x hx
  trapFrame := rfl
  files := rfl
  bfiles := rfl
  view := dirView_setProc hn

end SameTables

/-- `m` works on pages and page tables only. -/
def Paging (m : KM cfg α) : Prop :=
  Along SameTables (fun _ => True) (fun _ _ => True) (fun _ => True) m

namespace Paging

variable {β : Type} {m : KM cfg α}

theorem pure (a : α) : Paging (Pure.pure a : KM cfg α) := Along.pure SameTables.refl fun _ h => h

theorem get : Paging (MonadState.get : KM cfg (Kernel cfg)) :=
  (Along.get SameTables.refl).conseq (fun _ h => h) fun _ _ h => h.1

theorem throw (e : Stop cfg) : Paging (MonadExcept.throw e : KM cfg α) :=
  Along.throw SameTables.refl trivial

theorem modify {g : Kernel cfg → Kernel cfg} (h : ∀ k, SameTables k (g k)) :
    Paging (modifyGet fun k => (PUnit.unit, g k) : KM cfg PUnit) :=
  Along.modify h fun _ h => h

theorem bind {f : α → KM cfg β} (hm : Paging m) (hf : ∀ a, Paging (f a)) : Paging (m >>= f) :=
  Along.bind hm SameTables.trans hf

theorem forM {l : List β} {g : β → KM cfg PUnit} (h : ∀ b, Paging (g b)) : Paging (l.forM g) := by
  induction l with
  | nil => exact pure _
  | cons b l ih => exact (h b).bind fun _ => ih

theorem withLock {l : Lock cfg} (hm : Paging m) : Paging (withLock l m) := by
  refine Paging.bind ?_ fun _ => hm.bind fun a => ?_
  · refine Paging.get.bind fun k => ?_
    split
    · exact throw _
    · exact modify fun _ => ⟨rfl, rfl, rfl, rfl, rfl⟩
  · exact Paging.bind (modify fun _ => ⟨rfl, rfl, rfl, rfl, rfl⟩) fun _ => pure a

theorem kalloc {pid : ℕ} : Paging (kalloc pid : KM cfg _) := by
  refine Paging.withLock (Paging.get.bind fun k => ?_)
  cases freePage k with
  | none => exact pure _
  | some i => exact Paging.bind (modify fun _ => ⟨rfl, rfl, rfl, rfl, rfl⟩) fun _ => pure _

theorem releasePage {ptr : ℕ} : Paging (releasePage ptr : KM cfg _) :=
  Paging.withLock (modify fun _ => ⟨rfl, rfl, rfl, rfl, rfl⟩)

theorem mapPageLevel {pa va perm pid : ℕ} (level pt : ℕ) :
    Paging (mapPageLevel pa va perm pid level pt : KM cfg _) := by
  induction level generalizing pt with
  | zero => exact modify fun _ => ⟨rfl, rfl, rfl, rfl, rfl⟩
  | succ level ih =>
    refine Paging.get.bind fun k => ?_
    dsimp only
    split
    · refine kalloc.bind fun next => ?_
      cases next with
      | none => exact throw _
      | some next =>
        refine Paging.bind (modify fun _ => ⟨rfl, rfl, rfl, rfl, rfl⟩) fun _ => ?_
        exact Paging.bind (modify fun _ => ⟨rfl, rfl, rfl, rfl, rfl⟩) fun _ => ih next
    · exact ih _

theorem mapPageSv39 {pt pa va perm pid : ℕ} : Paging (mapPageSv39 pt pa va perm pid : KM cfg _) := by
  rw [HobbyOs.mapPageSv39]
  split
  · exact mapPageLevel _ _
  · exact pure _

theorem mapRange {pt pa va perm pid n : ℕ} : Paging (mapRange pt pa va perm pid n : KM cfg _) :=
  Paging.forM fun _ => mapPageSv39

theorem mapStack {pt sp pid : ℕ} : Paging (mapStack pt sp pid : KM cfg _) :=
  mapPageSv39.bind fun _ => mapPageSv39

theorem initUserPageTable {pt pid : ℕ} : Paging (initUserPageTable pt pid : KM cfg _) := by
  rw [HobbyOs.initUserPageTable]
  split
  · refine Paging.bind (modify fun _ => ⟨rfl, rfl, rfl, rfl, rfl⟩) fun _ => ?_
    refine mapPageSv39.bind fun _ => mapPageSv39.bind fun _ => mapPageSv39.bind fun _ => ?_
    exact mapPageSv39.bind fun _ => mapRange.bind fun _ => mapRange
  · exact pure _

theorem initProcPages {q : Slot cfg} : Paging (initProcPages q) := by
  refine Paging.get.bind fun k => kalloc.bind fun sp => ?_
  cases sp with
  | none => exact pure _
  | some sp =>
    refine kalloc.bind fun ksp => ?_
    cases ksp with
    | none => exact releasePage.bind fun _ => pure _
    | some ksp =>
      dsimp only
      split
      · refine kalloc.bind fun pt => ?_
        cases pt with
        | none => exact releasePage.bind fun _ => releasePage.bind fun _ => pure _
        | some pt =>
          refine Paging.bind (modify fun k => SameTables.setProc rfl rfl) fun _ => ?_
          exact initUserPageTable.bind fun _ => mapStack.bind fun _ => pure _
      · exact pure _

end Paging

/-! ## The process -/

theorem allocPid_apply (hl : k.held .procTable = false) :
    allocPid k = .ok k.pidCounter { k with pidCounter := k.pidCounter + 1 } := by
  have h := withLock_apply (m := (do
      let n := (← get).pidCounter
      modify fun k => { k with pidCounter := n + 1 }
      return n : KM cfg ℕ)) hl rfl
  rw [allocPid, h]
  have := Kernel.setHeld_setHeld (k := { k with pidCounter := k.pidCounter + 1 }) hl
  exact congrArg _ this

/-- The kernel with the slot `q` given a new pid. -/
def Kernel.newPid (k : Kernel cfg) (q : Slot cfg) : Kernel cfg :=
  { k.setProc q { k.procs q with pid := k.pidCounter % 2 ^ 32, uid := k.pidCounter, forker := none } with
    pidCounter := k.pidCounter + 1 }

theorem Kernel.newPid_core : (k.newPid q).core = k.core.newPid q := by
  have h := Kernel.setProc_core_of (k := k) (q := q)
    (x := { k.procs q with pid := k.pidCounter % 2 ^ 32, uid := k.pidCounter, forker := none })
    (f := fun x => { x with pid := k.pidCounter % 2 ^ 32, uid := k.pidCounter, forker := none }) rfl
  rw [Core.ext_iff] at h ⊢
  exact ⟨h.1, h.2.1, rfl, h.2.2.2⟩

theorem Kernel.newPid_view : dirView (k.newPid q) = dirView k :=
  dirView_setProc (k := k) (x := { k.procs q with
    pid := k.pidCounter % 2 ^ 32, uid := k.pidCounter, forker := none }) rfl

/-- How `init_proc` may end, from the kernel `k`. -/
inductive Inits (k : Kernel cfg) (q : Slot cfg) : EStateM.Result (Stop cfg) (Kernel cfg) ℤ → Prop
  /-- There are not enough pages. -/
  | short {status : ℤ} {k' : Kernel cfg} : status ≠ 0 → k'.core = k.core.newPid q → k'.held = k.held →
      Inits k q (.ok status k')
  /-- There is no room for the files in `/proc`. -/
  | full {status : ℤ} {k' : Kernel cfg} {frame : TrapFrame} : status ≠ 0 →
      k'.core = (k.core.newPid q).fresh q frame → k'.held = k.held →
      ¬ProcfsRoom k q (k.pidCounter % 2 ^ 32) → Inits k q (.ok status k')
  | done {k' : Kernel cfg} {frame : TrapFrame} :
      k'.core = ((k.core.newPid q).fresh q frame).counted → k'.held = k.held →
      ProcfsRoom k q (k.pidCounter % 2 ^ 32) → Inits k q (.ok 0 k')
  | halt {e : Stop cfg} {k' : Kernel cfg} : e.isHalt →
      (k'.core = k.core.newPid q ∨ ∃ frame, k'.core = (k.core.newPid q).fresh q frame) →
      Inits k q (.error e k')

/-- The kernel with the slot `q` filled in and made ready. -/
def Kernel.filled (k : Kernel cfg) (q : Slot cfg) (pc : ℕ) (name : Option (List UInt8))
    (sp ksp : ℕ) : Kernel cfg :=
  let k₁ := (k.setProc q (freshProc (k.procs q) sp ksp pc (k.trapFrame.regs TrapFrame.tp) name)).setState q
    .ready .initProc
  { k₁ with mem := storeBytes k₁.mem ksp (bytesOfWord procMagicStackSentinel 4) }

theorem Kernel.filled_core (pc : ℕ) (name : Option (List UInt8)) (sp ksp : ℕ) :
    ∃ frame, (k.filled q pc name sp ksp).core = k.core.fresh q frame := by
  refine ⟨(freshProc (k.procs q) sp ksp pc (k.trapFrame.regs TrapFrame.tp) name).trap, ?_⟩
  refine Eq.trans (Kernel.setState_core _ q .ready .initProc) ?_
  rw [Core.fresh, Kernel.setProc_core_of]
  rfl

theorem Kernel.filled_view (pc : ℕ) (name : Option (List UInt8)) (sp ksp : ℕ) :
    dirView (k.filled q pc name sp ksp) = dirView k := by
  refine Prod.ext rfl (funext fun r => ?_)
  by_cases hr : r = q
  · subst hr
    simp [dirView, Kernel.filled, Kernel.setState, Kernel.setProc, freshProc]
  · simp [dirView, Kernel.filled, Kernel.setState, Kernel.setProc, hr]

/-- How the second half of `init_proc` may end. -/
theorem fillProc_result {pid : ℕ} (ht : k.held .procTable = false) (hpid : (k.procs q).pid = pid)
    (hlt : pid < 2 ^ 32) (pc : ℕ) (name : Option (List UInt8)) (sp ksp : ℕ) :
    ∃ frame, (∃ status k', fillProc q pc name sp ksp k = .ok status k' ∧ k'.held = k.held ∧
        (status ≠ 0 ∧ k'.core = k.core.fresh q frame ∧ ¬ProcfsRoom k q pid ∨
          status = 0 ∧ k'.core = (k.core.fresh q frame).counted ∧ ProcfsRoom k q pid)) ∨
      ∃ e k', fillProc q pc name sp ksp k = .error e k' ∧ e.isHalt ∧ k'.core = k.core.fresh q frame := by
  obtain ⟨frame, hc⟩ := Kernel.filled_core (k := k) (q := q) pc name sp ksp
  refine ⟨frame, ?_⟩
  -- The writes to the process come first; then `init_procfs_files`, which decides.
  have hrun : fillProc q pc name sp ksp k = (do
      let status ← initProcfsFiles q name
      if status ≠ 0 then return status
      withLock .procTable do modify fun k => { k with numProcs := k.numProcs + 1 }
      return 0 : KM cfg ℤ) (k.filled q pc name sp ksp) := rfl
  rw [hrun]
  have hroom : ProcfsRoom (k.filled q pc name sp ksp) q pid ↔ ProcfsRoom k q pid :=
    ProcfsRoom.congr (Kernel.filled_view pc name sp ksp) rfl
  have hpid' : ((k.filled q pc name sp ksp).procs q).pid = pid := by
    simpa [Kernel.filled, Kernel.setState, Kernel.setProc, freshProc] using hpid
  have hstill := (still_initProcfsFiles (L := ∅) q name).result
    (k := k.filled q pc name sp ksp) (by simp)
  rw [← hroom]
  rcases initProcfsFiles_result hpid' hlt
    name with ⟨k₁, h, hr⟩ | ⟨s, k₁, h, hs, hr⟩ | ⟨e, k₁, h⟩
  · simp only [h, EStateM.Result.ok.injEq, reduceCtorEq, false_and, exists_false, or_false] at hstill
    obtain ⟨_, _, ⟨rfl, rfl⟩, hc₁, hh₁⟩ := hstill
    obtain ⟨k₂, h₂, hc₂, hh₂⟩ := withLock_ok
      (m := (modify fun k => { k with numProcs := k.numProcs + 1 } : KM cfg Unit)) (k := k₁)
      (by rw [hh₁]; exact ht) (modify_apply _ _) rfl
    refine .inl ⟨0, k₂, ?_, hh₂.trans hh₁, .inr ⟨rfl, ?_, hr⟩⟩
    · rw [bind_ok h, if_neg (by simp), bind_ok h₂]
      rfl
    · rw [hc₂, ← hc, ← hc₁]
      rfl
  · simp only [h, EStateM.Result.ok.injEq, reduceCtorEq, false_and, exists_false, or_false] at hstill
    obtain ⟨_, _, ⟨rfl, rfl⟩, hc₁, hh₁⟩ := hstill
    refine .inl ⟨s, k₁, ?_, hh₁, .inl ⟨hs, hc₁.trans hc, hr⟩⟩
    rw [bind_ok h, if_pos hs]
    rfl
  · simp only [h, EStateM.Result.error.injEq, reduceCtorEq, false_and, exists_false, false_or] at hstill
    obtain ⟨_, _, ⟨rfl, rfl⟩, he, hc₁⟩ := hstill
    exact .inr ⟨e, k₁, bind_error h, he, hc₁.trans hc⟩

theorem initProc_result (ht : k.held .procTable = false) (hp : k.held .pagedMemory = false) (pc : ℕ)
    (name : Option (List UInt8)) : Inits k q (initProc q pc name k) := by
  rw [initProc, bind_ok (allocPid_apply ht)]
  have hrun : ∀ f : Unit → KM cfg ℤ, (modifyProc q (fun x => { x with
      pid := k.pidCounter % 2 ^ 32, uid := k.pidCounter, forker := none }) >>= f)
        { k with pidCounter := k.pidCounter + 1 } = f () (k.newPid q) := fun f => rfl
  rw [hrun]
  have hc := Kernel.newPid_core (k := k) (q := q)
  have hpages := (Paging.initProcPages (q := q) (k.newPid q)).1
  rcases (still_initProcPages (L := {.pagedMemory}) rfl (q := q)).result (k := k.newPid q)
    (by simpa [Kernel.newPid] using hp) with ⟨r, k₁, h, hc₁, hh₁⟩ | ⟨e, k₁, h, he, hc₁⟩
  · rw [h] at hpages
    rw [bind_ok h]
    cases r with
    | none => exact .short (by decide) (hc₁.trans hc) hh₁
    | some r =>
      have hpid : (k₁.procs q).pid = k.pidCounter % 2 ^ 32 := by
        rw [← Kernel.core_procs, hc₁, hc]
        simp [Core.newPid, Kernel.core]
      have hroom : ProcfsRoom k₁ q (k.pidCounter % 2 ^ 32) ↔ ProcfsRoom k q (k.pidCounter % 2 ^ 32) := by
        refine ProcfsRoom.congr (hpages.view.trans (Kernel.newPid_view (k := k) (q := q))) ?_
        exact hpages.bfiles
      obtain ⟨frame, hres⟩ := fillProc_result (k := k₁) (by rw [hh₁]; exact ht) hpid
        (Nat.mod_lt _ (by decide)) pc name r.1 r.2
      rw [hc₁, hc, hroom] at hres
      rcases hres with ⟨status, k', h', hh', hres⟩ | ⟨e, k', h', he, hc'⟩
      · dsimp only
        rw [h']
        rcases hres with ⟨hs, hc', hr⟩ | ⟨rfl, hc', hr⟩
        · exact .full hs hc' (hh'.trans hh₁) hr
        · exact .done hc' (hh'.trans hh₁) hr
      · dsimp only
        rw [h']
        exact .halt he (.inr ⟨frame, hc'⟩)
  · rw [bind_error h]
    exact .halt he (.inl (hc₁.trans hc))

/-! ## The child -/

theorem still_copyProcess {L : Set (Lock cfg)} (hp : .pagedMemory ∈ L) : Still L (copyProcess p q) :=
  Still.get.bind fun _ => still_copyPage.bind fun _ => still_copyPage.bind fun _ =>
    still_copyFiles.bind fun _ => (still_copyPageTable hp).bind fun _ => still_mapStack hp

theorem forkChild_result (hp : k.held .pagedMemory = false) :
    (∃ frame k', forkChild p q k = .ok (k.core.procs q).pid k' ∧
      k'.core = ((k.core.adopted p q).update q fun x => { x with trap := frame }).record
        (.created (k.core.procs q).uid) ∧ k'.held = Function.update k.held (.proc q) false) ∨
    ∃ e k', forkChild p q k = .error e k' ∧ e.isHalt ∧ k'.core = k.core.adopted p q := by
  simp only [forkChild, modify_bind_apply]
  have hc : (k.setProc q { k.procs q with
      parent := some p, forker := some (k.procs p).uid }).core = k.core.adopted p q :=
    Kernel.setProc_core_of rfl
  rcases (still_copyProcess (L := {.pagedMemory}) rfl (p := p) (q := q)).result
    (k := k.setProc q { k.procs q with parent := some p, forker := some (k.procs p).uid })
    (by simpa using hp) with ⟨_, k₁, h, hc₁, hh₁⟩ | ⟨e, k₁, h, he, hc₁⟩
  · rw [bind_ok h]
    have hchild : (k₁.core.procs q).pid = (k.core.procs q).pid ∧
        (k₁.core.procs q).uid = (k.core.procs q).uid := by
      rw [hc₁, hc]
      simp [Core.adopted]
    refine .inl ⟨childTrap (k₁.procs q) (k₁.procs p), { (k₁.setProc q { k₁.procs q with
      trap := childTrap (k₁.procs q) (k₁.procs p) }).setHeld (.proc q) false with
        trapFrame := k₁.trapFrame.set TrapFrame.a0 (k₁.procs q).pid
        log := .created (k₁.procs q).uid :: k₁.log }, ?_, ?_, ?_⟩
    · rw [← hchild.1]
      simp only [release, record, Kernel.setProc, Kernel.setHeld, modify_bind_apply, get_bind_apply,
        Function.update_self]
      rfl
    · have hc₂ := Kernel.setProc_core_of (k := k₁) (q := q)
        (x := { k₁.procs q with trap := childTrap (k₁.procs q) (k₁.procs p) })
        (f := fun x => { x with trap := childTrap (k₁.procs q) (k₁.procs p) }) rfl
      rw [← hchild.2, ← hc, ← hc₁, ← hc₂]
      rfl
    · exact congrArg (Function.update · _ _) hh₁
  · exact .inr ⟨e, k₁, bind_error h, he, hc₁.trans hc⟩

/-! ## fork -/

theorem freeSlot_congr {k k' : Kernel cfg} (hcpu : k'.cpuProc = k.cpuProc)
    (h : ∀ q, (k'.procs q).state = (k.procs q).state) : freeSlot k' = freeSlot k := by
  simp only [freeSlot, h, hcpu]

/-- The slot found is free, and not that of the process on the CPU. -/
theorem freeSlot_some (h : freeSlot k = some q) :
    k.core.cpuProc ≠ some q ∧ (k.core.procs q).state = .available := by
  simpa [Kernel.core] using List.find?_some h

/-- The kernel from which `proc_fork` fills in the slot `q`. -/
def Kernel.forking (k : Kernel cfg) (p q : Slot cfg) : Kernel cfg :=
  (k.setProc p { k.procs p with trap := k.trapFrame }).setHeld (.proc q) true

/-- `proc_fork` from where the slot is found and its lock taken. -/
def forkTail (p q : Slot cfg) (pc : ℕ) : KM cfg ℤ := do
  let status ← initProc q pc none
  if status ≠ 0 then
    setErrno p (-status).toNat
    release (.proc q)
    return -1
  else forkChild p q

/-- `proc_fork` without a slot. -/
def noSlot (p : Slot cfg) : KM cfg ℤ := do
  setErrno p ENOMEM
  throw .nullProcess

theorem freeSlot_setTrap {frame : TrapFrame} :
    freeSlot (k.setProc p { k.procs p with trap := frame }) = freeSlot k := by
  refine freeSlot_congr rfl fun q => ?_
  by_cases hq : q = p
  · subst hq
    simp [Kernel.setProc]
  · simp [Kernel.setProc, hq]

/-- `proc_fork`, with the locks free that it takes to find a slot. -/
theorem procFork_apply (ht : k.held .procTable = false)
    (hk : ∀ q, k.cpuProc ≠ some q → k.held (.proc q) = false) :
    procFork p k = match freeSlot k with
      | none => noSlot p (k.setProc p { k.procs p with trap := k.trapFrame })
      | some q => forkTail p q k.trapFrame.pc (k.forking p q) := by
  rw [procFork, modify_bind_apply, bind_ok (allocProcess_apply (k := k.setProc p _) ht hk), freeSlot_setTrap]
  cases freeSlot k with
  | none => rfl
  | some q => rfl

theorem forkTail_result {t : Kernel cfg} {frame : TrapFrame} (hk : ∀ l ∈ others p, k.held l = false)
    (hq : q ≠ p) (ha : (k.core.procs q).state = .available)
    (hc : t.core = k.core.update p fun x => { x with trap := frame })
    (hh : t.held = Function.update k.held (.proc q) true)
    (hroom : ∀ pid, ProcfsRoom t q pid ↔ ProcfsRoom k q pid) (pc : ℕ) :
    CallResult p k .fork (forkTail p q pc t) := by
  unfold forkTail
  have hnot : ¬(TakesOwn p k .fork ∧ k.held (.proc p) = true) := fun h => h.1
  have hlq : k.held (.proc q) = false := hk _ (by simpa using hq)
  have hback : ∀ H : Lock cfg → Bool, H = Function.update k.held (.proc q) true →
      ∀ l ∈ others p, Function.update H (.proc q) false l = false := by
    rintro _ rfl l hl
    rw [update_held_self hlq]
    exact hk l hl
  have hinit := initProc_result (k := t) (q := q) (by rw [hh]; simpa using hk _ (by simp))
    (by rw [hh]; simpa using hk _ (by simp)) pc none
  have hpid : t.pidCounter = k.pidCounter := congrArg Core.pidCounter hc
  have hfork : ∀ {how : How} {c : Core cfg}, Forks k p q t.core how c → CallEffect p k .fork how c :=
    fun h => .fork hq ha (hc ▸ h)
  have hno : ¬ProcfsRoom t q (t.pidCounter % 2 ^ 32) → ¬ProcfsRoom k q (k.pidCounter % 2 ^ 32) := by
    rw [hroom, hpid]
    exact id
  revert hinit
  generalize hr : initProc q pc none t = r
  intro hinit
  -- `init_proc` fails before or after the slot is filled, or the child is copied.
  cases hinit with
  | @short status k' hs hc' hh' =>
    rw [bind_ok hr, if_pos hs]
    have heffect : CallEffect p k .fork .back k'.core := hc' ▸ hfork (.pid (by decide))
    exact .back heffect (hback _ (hh'.trans hh)) hnot
  | @full status k' _ hs hc' hh' hfull =>
    rw [bind_ok hr, if_pos hs]
    have heffect : CallEffect p k .fork .back k'.core := hc' ▸ hfork (.full (hno hfull))
    exact .back heffect (hback _ (hh'.trans hh)) hnot
  | @done k' frame hc' hh' _ =>
    rw [bind_ok hr, if_neg (by simp)]
    have huid : (k'.core.procs q).uid = t.core.pidCounter := by
      rw [hc']
      simp [Core.counted, Core.fresh, Core.newPid]
    rcases forkChild_result (p := p) (q := q) (k := k')
      (by rw [hh', hh]; simpa using hk _ (by simp)) with ⟨frame', k'', h, hc'',
        hh''⟩ | ⟨e, k'', h, he, hc''⟩
    · rw [h]
      rw [huid, hc'] at hc''
      exact .back (hc'' ▸ hfork .created) (hh'' ▸ hback _ (hh'.trans hh)) hnot
    · rw [h]
      rw [hc'] at hc''
      exact .halt he (hc'' ▸ hfork .adopted) hnot
  | halt he hc' =>
    rw [bind_error hr]
    rcases hc' with hc' | ⟨frame, hc'⟩
    · exact .halt he (hc' ▸ hfork (.pid (by decide))) hnot
    · exact .halt he (hc' ▸ hfork .fresh) hnot

theorem procFork_result (hk : Calm p k) (hcpu : k.core.cpuProc = some p) :
    CallResult p k .fork (procFork p k) := by
  have hc : (k.setProc p { k.procs p with trap := k.trapFrame }).core =
      k.core.update p fun x => { x with trap := k.trapFrame } := Kernel.setProc_core_of rfl
  have hfree : ∀ q, k.cpuProc ≠ some q → k.held (.proc q) = false := fun q hq =>
    hk.free _ (by rintro ⟨⟩; exact hq hcpu)
  rw [procFork_apply (hk.free .procTable (by simp)) hfree]
  cases hq : freeSlot k with
  | none =>
    exact .halt (e := .nullProcess) trivial (hc ▸ .frame (by decide)) fun h => h.1
  | some q =>
    obtain ⟨hqp, ha⟩ := freeSlot_some hq
    have hqp : q ≠ p := fun h => hqp (h ▸ hcpu)
    refine forkTail_result (t := k.forking p q) hk.free hqp ha hc rfl (fun pid => ProcfsRoom.congr ?_ rfl) _
    exact dirView_setProc (k := k) (q := p) (x := { k.procs p with trap := k.trapFrame }) rfl

end HobbyOs
