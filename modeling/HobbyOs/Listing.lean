import HobbyOs.Procfs
import HobbyOs.Tree

/-!
# Listing a directory

`bifs_lsdir` lists the entries whose parent pointer is the directory, and an
entry keeps that pointer when it is given back. At each slot of both tables it
asks for room for one more entry, before it looks at the slot.

* `Named`: what has a parent has a name, in every state reached;
* `lsdir_lists_iff`: it lists what is in use in a directory, and fails for lack
  of room only, if and only if there is not the room, or everything that points to
  the directory is in use and all but what is in the last slot leaves a `dirent_t`
  over.
-/

namespace HobbyOs

open Outcome Transition

variable {cfg : Config} {α : Type} {q : Slot cfg} {k k' : Kernel cfg} {m : Machine cfg} {dir : Fin bifsMaxDirs}
  {dirents size : ℕ}

/-! ## Names -/

/-- What has a parent has a name. -/
structure Named (k : Kernel cfg) : Prop where
  dirs : ∀ d, (k.dirs d).parent ≠ none → (k.dirs d).name ≠ none
  files : ∀ j, (k.bfiles j).parent ≠ none → (k.bfiles j).name ≠ none

namespace Named

theorem same (h : Named k) (hdirs : ∀ d, k'.dirs d = k.dirs d)
    (hfiles : ∀ j, (k'.bfiles j).listed = (k.bfiles j).listed) : Named k' := by
  refine ⟨fun d => ?_, fun j => ?_⟩
  · rw [hdirs]
    exact h.dirs d
  · rw [show (k'.bfiles j).parent = _ from congrArg Listed.parent (hfiles j),
      show (k'.bfiles j).name = _ from congrArg Listed.name (hfiles j)]
    exact h.files j

theorem setDir {d : Fin bifsMaxDirs} {x : BifsDir cfg} (h : Named k)
    (hx : x.parent ≠ none → x.name ≠ none) :
    Named { k with dirs := Function.update k.dirs d x } := by
  refine ⟨fun e => ?_, h.files⟩
  by_cases he : e = d
  · subst he
    simpa using hx
  · simpa [he] using h.dirs e

theorem setFile {j : Fin bifsMaxFiles} {x : BifsFile cfg} (h : Named k)
    (hx : x.parent ≠ none → x.name ≠ none) :
    Named { k with bfiles := Function.update k.bfiles j x } := by
  refine ⟨h.dirs, fun i => ?_⟩
  by_cases hi : i = j
  · subst hi
    simpa using hx
  · simpa [hi] using h.files i

/-- However it ends, `c` leaves everything named. -/
def Kept (c : KM cfg α) : Prop := Triple Named c (fun _ => Named) fun _ => Named

theorem bifsMkdir {path : List UInt8} {name : BifsName cfg} : Kept (HobbyOs.bifsMkdir path name) := by
  have hpath : Kept (bifsOpendirpath path path.length : KM cfg _) := by
    intro k hk
    rcases reads_bifsOpendirpath path path.length k k rfl with ⟨o, ho, -⟩ | ⟨s, hs, -⟩
    · rw [ho]
      exact hk
    · rw [hs]
      exact hk
  refine hpath.bind fun parent => ?_
  cases parent with
  | none => exact Triple.pure fun _ h => h
  | some parent =>
    have hdir : Kept (bifsAllocateDir : KM cfg _) := by
      intro k hk
      rw [bifsAllocateDir, get_bind_apply]
      cases freeDir k with
      | none => exact hk
      | some d => exact hk.setDir (hk.dirs d)
    refine hdir.bind fun d => ?_
    cases d with
    | none => exact Triple.pure fun _ h => h
    | some d => exact fun k hk => hk.setDir fun _ => Option.some_ne_none _

theorem bifsAllocateFile : Kept (HobbyOs.bifsAllocateFile : KM cfg _) := by
  intro k hk
  rw [HobbyOs.bifsAllocateFile, get_bind_apply]
  cases freeBifsFile k with
  | none => exact hk
  | some j => exact hk.setFile (hk.files j)

theorem initProcfsFiles {name : Option (List UInt8)} : Kept (HobbyOs.initProcfsFiles q name) := by
  have hproc : ∀ {f : Proc cfg → Proc cfg}, Kept (modifyProc q f) :=
    fun k hk => hk.same (fun _ => rfl) fun _ => rfl
  refine Triple.get_bind fun k => ?_
  cases itoa maxFilenameLen (k.procs q).pid with
  | none => exact Triple.pure fun _ h => h
  | some text =>
    refine Triple.bind hproc fun _ => bifsMkdir.bind fun dir => Triple.bind hproc fun _ => ?_
    cases dir with
    | none => exact Triple.pure fun _ h => h
    | some dir =>
      refine Triple.bind bifsAllocateFile fun nameFile => Triple.bind hproc fun _ => ?_
      cases nameFile with
      | none => exact Triple.pure fun _ h => h
      | some j =>
        refine Triple.bind (Q := fun _ => Named) ?_ fun _ => bifsAllocateFile.bind fun statsFile => ?_
        · exact Triple.modify fun k hk => hk.setFile fun _ => Option.some_ne_none _
        cases statsFile with
        | none => exact Triple.pure fun _ h => h
        | some i =>
          refine Triple.bind (Q := fun _ => Named) ?_ fun _ => Triple.pure fun _ h => h
          exact Triple.modify fun k hk => hk.setFile fun _ => Option.some_ne_none _

theorem leaveTable {p : Slot cfg} {x : Proc cfg} : Kept (HobbyOs.leaveTable p x) := by
  unfold HobbyOs.leaveTable
  split
  · refine Triple.bind (Q := fun _ => Named) (Triple.modify fun k hk => hk.setDir (hk.dirs _)) fun _ => ?_
    refine Triple.bind (Q := fun _ => Named) (Triple.modify fun k hk => hk.setFile (hk.files _)) fun _ => ?_
    have hcount : Frame ∅
        (withLock .procTable do modify fun k => { k with numProcs := k.numProcs - 1 } : KM cfg Unit) :=
      frame_withLock (Frame.of_rest fun _ => rfl)
    refine Triple.bind
      (triple_of_frame (fun h hd hf _ => h.same hd hf) hcount (by simp) (by simp) (by simp)) fun _ => ?_
    refine Triple.bind (Q := fun _ => Named) ?_ fun _ => Triple.throw fun _ h => h
    exact Triple.modify fun k hk => hk.same (fun _ => rfl) fun _ => rfl
  · exact Triple.throw fun _ h => h

theorem tree : TreeInvariant (Named : Kernel cfg → Prop) where
  same h hdirs hfiles _ := h.same hdirs hfiles
  files _ _ := initProcfsFiles
  leave _ _ _ := leaveTable

theorem init (mem : ℕ → UInt8) : Named (initKernel cfg mem) := by
  refine ⟨fun d => ?_, fun j => ?_⟩
  · show (initDirs cfg d).parent ≠ none → (initDirs cfg d).name ≠ none
    unfold initDirs
    split <;> simp
  · show (initFiles cfg j).parent ≠ none → (initFiles cfg j).name ≠ none
    unfold initFiles
    split <;> simp [rawFile]

theorem of_reach (h : Reach (machine cfg) free m) (hm : ∀ why, m.mode ≠ .halted why) : Named m.k :=
  tree.of_reach init h hm

end Named

/-! ## The listing -/

/-- The directories that point to `dir`, in use or not. -/
def pointingDirs (k : Kernel cfg) (dir : Fin bifsMaxDirs) : List (Fin bifsMaxDirs) :=
  (List.finRange bifsMaxDirs).filter fun d => (k.dirs d).parent = some dir

/-- The files that do. -/
def pointingFiles (k : Kernel cfg) (dir : Fin bifsMaxDirs) : List (Fin bifsMaxFiles) :=
  (List.finRange bifsMaxFiles).filter fun j => (k.bfiles j).parent = some dir

/-- The directories in `dir`. -/
def childDirs (k : Kernel cfg) (dir : Fin bifsMaxDirs) : List (Fin bifsMaxDirs) :=
  (pointingDirs k dir).filter fun d => (k.dirs d).flags ≠ 0

/-- The files in `dir`. -/
def childFiles (k : Kernel cfg) (dir : Fin bifsMaxDirs) : List (Fin bifsMaxFiles) :=
  (pointingFiles k dir).filter fun j => (k.bfiles j).flags ≠ 0

/-- The number of children of `dir`. -/
def numChildren (k : Kernel cfg) (dir : Fin bifsMaxDirs) :
    ℕ := (childDirs k dir).length + (childFiles k dir).length

/-- The flags and the name of a directory in a listing. -/
def dirDirent (k : Kernel cfg) (d : Fin bifsMaxDirs) : ℕ × List UInt8 :=
  (direntDirectory, ((k.dirs d).name.map (nameText k)).getD [])

/-- Those of a file. -/
def fileDirent (k : Kernel cfg) (j : Fin bifsMaxFiles) : ℕ × List UInt8 := (0, (k.bfiles j).name.getD [])

/-- `bifs_lsdir` stores every child once, directories before files, and returns
    their number, if they fit; otherwise, and only then, it fails. -/
structure ListsChildren (k : Kernel cfg) (dir : Fin bifsMaxDirs) (dirents size : ℕ) : Prop where
  fits : numChildren k dir ≤ size → ∃ ds fs, List.Perm ds (childDirs k dir) ∧
    List.Perm fs (childFiles k dir) ∧
    bifsLsdir dir dirents size k = .ok (numChildren k dir) { k with
      mem := storeDirents dirents 0 (ds.map (dirDirent k) ++ fs.map (fileDirent k)) k.mem }
  full : (∃ k', bifsLsdir dir dirents size k = .ok (-ENOBUFS) k') ↔ size < numChildren k dir

/-- What `bifs_lsdir` goes through. -/
def direntSlots (k : Kernel cfg) (dir : Fin bifsMaxDirs) : List (Option (ℕ × Option (List UInt8))) :=
  ((List.finRange bifsMaxDirs).map fun i =>
    if (k.dirs i).parent = some dir then some (direntDirectory, (k.dirs i).name.map (nameText k)) else none) ++
  (List.finRange bifsMaxFiles).map fun j =>
    if (k.bfiles j).parent = some dir then some (0, (k.bfiles j).name) else none

theorem bifsLsdir_eq : bifsLsdir dir dirents size k = lsdirLoop dirents size (direntSlots k dir) 0 k := rfl

/-- The files that point to `dir`, but for one in the last slot. -/
def earlyFiles (k : Kernel cfg) (dir : Fin bifsMaxDirs) : List (Fin bifsMaxFiles) :=
  (pointingFiles k dir).filter fun j => j ≠ Fin.last _

theorem earlyFiles_eq :
    earlyFiles k dir = (List.finRange bifsMaxFiles).dropLast.filter fun j =>
      (k.bfiles j).parent = some dir := by
  have hlast : (List.finRange bifsMaxFiles).dropLast = (List.finRange bifsMaxFiles).filter fun j =>
      j ≠ Fin.last _ := by
    decide
  rw [earlyFiles, pointingFiles, List.filter_comm, hlast]

theorem length_pointingFiles_le (k : Kernel cfg) (dir : Fin bifsMaxDirs) :
    (pointingFiles k dir).length ≤ (earlyFiles k dir).length + 1 := by
  have hsplit : List.finRange bifsMaxFiles = (List.finRange bifsMaxFiles).dropLast ++ [Fin.last _] := by decide
  rw [earlyFiles_eq, pointingFiles]
  nth_rewrite 1 [hsplit]
  rw [List.filter_append, List.length_append]
  exact Nat.add_le_add_left (List.length_filter_le _ _) _

theorem present_map_ite {ι : Type} (l : List ι) {P : ι → Prop} [DecidablePred P] (flags : ℕ)
    {name : ι → Option (List UInt8)} (hname : ∀ i, P i → name i ≠ none) :
    present (l.map fun i => if P i then some (flags, name i) else none) =
      (l.filter fun i => P i).map fun i => (flags, (name i).getD []) := by
  induction l with
  | nil => rfl
  | cons i l ih =>
    rw [List.map_cons, present_cons, ih]
    by_cases hi : P i
    · obtain ⟨text, htext⟩ := Option.ne_none_iff_exists'.1 (hname i hi)
      simp [present, hi, htext]
    · simp [present, hi]

namespace Named

theorem dirs_map (h : Named k) (dir d : Fin bifsMaxDirs) (hd : (k.dirs d).parent = some dir) :
    (k.dirs d).name.map (nameText k) ≠ none := by
  rw [ne_eq, Option.map_eq_none_iff]
  exact h.dirs d (by simp [hd])

theorem files_ne (h : Named k) (dir : Fin bifsMaxDirs) (j : Fin bifsMaxFiles)
    (hj : (k.bfiles j).parent = some dir) :
    (k.bfiles j).name ≠ none :=
  h.files j (by simp [hj])

theorem notMem_direntSlots (h : Named k) (flags : ℕ) : some (flags, none) ∉ direntSlots k dir := by
  intro hmem
  rcases List.mem_append.1 hmem with hmem | hmem
  · obtain ⟨d, -, hd⟩ := List.mem_map.1 hmem
    split_ifs at hd with hparent
    exact h.dirs_map dir d hparent (congrArg Prod.snd (Option.some.inj hd))
  · obtain ⟨j, -, hj⟩ := List.mem_map.1 hmem
    split_ifs at hj with hparent
    exact h.files_ne dir j hparent (congrArg Prod.snd (Option.some.inj hj))

theorem present_direntSlots (h : Named k) (dir : Fin bifsMaxDirs) : present (direntSlots k dir) =
    (pointingDirs k dir).map (dirDirent k) ++ (pointingFiles k dir).map (fileDirent k) := by
  rw [direntSlots, present, List.filterMap_append]
  exact congrArg₂ _ (present_map_ite _ _ (h.dirs_map dir)) (present_map_ite _ _ (h.files_ne dir))

/-- There is room for all that points to `dir`. -/
theorem fits_iff (h : Named k) : Fits size 0 (direntSlots k dir) ↔
    (pointingDirs k dir).length + (earlyFiles k dir).length < size := by
  have hne : (List.finRange bifsMaxFiles).map (fun j =>
      if (k.bfiles j).parent = some dir then some (0, (k.bfiles j).name) else none) ≠ [] := by
    rw [ne_eq, List.map_eq_nil_iff]
    decide
  have hslots : direntSlots k dir ≠ [] := fun h => hne (List.append_eq_nil_iff.1 h).2
  rw [HobbyOs.fits_iff hslots, direntSlots, List.dropLast_append_of_ne_nil hne, ← List.map_dropLast, present,
    List.filterMap_append, List.length_append, Nat.zero_add]
  have hd := congrArg List.length (present_map_ite (List.finRange bifsMaxDirs) direntDirectory (h.dirs_map dir))
  have hf := congrArg List.length (present_map_ite (List.finRange bifsMaxFiles).dropLast 0
    (h.files_ne dir))
  rw [List.length_map] at hd hf
  rw [earlyFiles_eq, ← hf, pointingDirs, ← hd]
  rfl

end Named

theorem numChildren_le (k : Kernel cfg) (dir : Fin bifsMaxDirs) :
    numChildren k dir ≤ (pointingDirs k dir).length + (pointingFiles k dir).length :=
  Nat.add_le_add (List.length_filter_le _ _) (List.length_filter_le _ _)

/-- What points to `dir` is in use, if as much is in use as points to it. -/
theorem inUse_of_length (h : (pointingDirs k dir).length + (pointingFiles k dir).length ≤ numChildren k dir) :
    childDirs k dir = pointingDirs k dir ∧ childFiles k dir = pointingFiles k dir := by
  have hd : (childDirs k dir).length ≤ (pointingDirs k dir).length := List.length_filter_le _ _
  have hf : (childFiles k dir).length ≤ (pointingFiles k dir).length := List.length_filter_le _ _
  unfold numChildren at h
  exact ⟨List.Sublist.eq_of_length List.filter_sublist (by omega),
    List.Sublist.eq_of_length List.filter_sublist (by omega)⟩

theorem lsdir_of_fits (h : Named k)
    (hd : dirents ≠ 0 ∨ pointingDirs k dir = [] ∧ pointingFiles k dir = [])
    (hfits : (pointingDirs k dir).length + (earlyFiles k dir).length < size) :
    bifsLsdir dir dirents size k =
      .ok ((pointingDirs k dir).length + (pointingFiles k dir).length : ℕ) { k with
      mem := storeDirents dirents 0
        ((pointingDirs k dir).map (dirDirent k) ++ (pointingFiles k dir).map (fileDirent k)) k.mem } := by
  have hpresent := h.present_direntSlots dir
  have hd' : dirents ≠ 0 ∨ present (direntSlots k dir) = [] := by
    refine hd.imp id fun hnil => ?_
    rw [hpresent, hnil.1, hnil.2]
    rfl
  rw [bifsLsdir_eq, lsdirLoop_apply hd' h.notMem_direntSlots (h.fits_iff.2 hfits), hpresent]
  simp

/-- Nothing is stored at a null pointer. -/
theorem lsdir_null (h : Named k) (hsize : size ≠ 0)
    (hsome : ¬(pointingDirs k dir = [] ∧ pointingFiles k dir = [])) :
    ∃ k', bifsLsdir dir 0 size k = .error .fault k' := by
  refine lsdirLoop_null h.notMem_direntSlots (Nat.pos_of_ne_zero hsize) fun hnil => hsome ?_
  change present (direntSlots k dir) = [] at hnil
  rw [h.present_direntSlots, List.append_eq_nil_iff, List.map_eq_nil_iff, List.map_eq_nil_iff] at hnil
  exact hnil

/-- `bifs_lsdir` lists the children of a directory, and fails only if they do not
    fit, if and only if they do not fit, or nothing that is not in use points to the
    directory and there is a `dirent_t` more than what points to it, a file in the
    last slot apart; and the pointer is not null, if anything is stored. -/
theorem listsChildren_iff (h : Named k) : ListsChildren k dir dirents size ↔
    (dirents ≠ 0 ∨ size = 0 ∨ pointingDirs k dir = [] ∧ pointingFiles k dir = []) ∧
    (size < numChildren k dir ∨
      (childDirs k dir = pointingDirs k dir ∧ childFiles k dir = pointingFiles k dir) ∧
      (pointingDirs k dir).length + (earlyFiles k dir).length < size) := by
  have hle := numChildren_le k dir
  have hlast := length_pointingFiles_le k dir
  by_cases hnull : dirents ≠ 0 ∨ size = 0 ∨ pointingDirs k dir = [] ∧ pointingFiles k dir = []
  swap
  · -- It faults.
    obtain ⟨hd, hsize, hsome⟩ := not_or.1 hnull |>.imp_right not_or.1
    obtain rfl := not_not.1 hd
    obtain ⟨k', hfault⟩ := lsdir_null h hsize hsome
    refine iff_of_false (fun hlists => ?_) fun hcond => hnull hcond.1
    by_cases hfits : numChildren k dir ≤ size
    · obtain ⟨_, _, -, -, hok⟩ := hlists.fits hfits
      rw [hfault] at hok
      cases hok
    · obtain ⟨_, hok⟩ := hlists.full.2 (by omega)
      rw [hfault] at hok
      cases hok
  rw [and_iff_right hnull]
  by_cases hfits : (pointingDirs k dir).length + (earlyFiles k dir).length < size
  · -- It lists all that points to the directory.
    have hok := lsdir_of_fits h (hnull.imp id fun hnull => hnull.resolve_left (by omega)) hfits
    constructor
    · intro hlists
      by_cases hsize : numChildren k dir ≤ size
      · obtain ⟨_, _, -, -, hok'⟩ := hlists.fits hsize
        rw [hok] at hok'
        have hcount : (pointingDirs k dir).length + (pointingFiles k dir).length = numChildren k dir := by
          injection hok' with hcount
          exact_mod_cast hcount
        exact .inr ⟨inUse_of_length hcount.le, hfits⟩
      · exact .inl (by omega)
    · intro hcond
      obtain ⟨⟨hdirs, hfiles⟩, -⟩ := hcond.resolve_left (by omega)
      have hcount : numChildren k dir = (pointingDirs k dir).length + (pointingFiles k dir).length := by
        rw [numChildren, hdirs, hfiles]
      refine ⟨fun _ => ⟨_, _, .of_eq hdirs.symm, .of_eq hfiles.symm, ?_⟩,
        ⟨?_, fun hsize => by omega⟩⟩
      · rw [hcount]
        exact hok
      · rintro ⟨k', hfull⟩
        rw [hok] at hfull
        injection hfull with hneg
        have : (0 : ℤ) ≤ -ENOBUFS := hneg ▸ Int.natCast_nonneg _
        exact absurd this (by decide)
  · -- It fails.
    have hd : dirents ≠ 0 ∨ size = 0 := by
      refine hnull.imp id fun hnull => ?_
      rcases hnull with hsize | ⟨hdirs, hfiles⟩
      · exact hsize
      · rw [earlyFiles, hdirs, hfiles] at hfits
        simpa using hfits
    obtain ⟨k', hfull⟩ : ∃ k', bifsLsdir dir dirents size k = .ok (-ENOBUFS) k' :=
      lsdirLoop_full hd h.notMem_direntSlots fun hroom => hfits (h.fits_iff.1 hroom)
    constructor
    · intro hlists
      exact .inl (hlists.full.1 ⟨k', hfull⟩)
    · intro hcond
      have hsize := hcond.resolve_right fun hroom => hfits hroom.2
      exact ⟨fun hle => absurd hsize (by omega), ⟨fun _ => hsize, fun _ => ⟨k', hfull⟩⟩⟩

/-- The same in every state reached. -/
theorem lsdir_lists_iff (h : Reach (machine cfg) free m) (hm : ∀ why, m.mode ≠ .halted why) :
    ListsChildren m.k dir dirents size ↔
      (dirents ≠ 0 ∨ size = 0 ∨ pointingDirs m.k dir = [] ∧ pointingFiles m.k dir = []) ∧
      (size < numChildren m.k dir ∨
        (childDirs m.k dir = pointingDirs m.k dir ∧ childFiles m.k dir = pointingFiles m.k dir) ∧
        (pointingDirs m.k dir).length + (earlyFiles m.k dir).length < size) :=
  listsChildren_iff (.of_reach h hm)

/-- After a boot, `/home` is listed with room for ten. -/
theorem home_listed : ∃ m :
    Machine .qemuE, Reach (machine .qemuE) free m ∧ ListsChildren m.k 2 0x80003000 10 := by
  have h : ∃ m ∈ runFrom .qemuE [], (m.mode = .sched 0 (-1) false) ∧
      (childDirs m.k 2 = pointingDirs m.k 2 ∧ childFiles m.k 2 = pointingFiles m.k 2) ∧
      (pointingDirs m.k 2).length + (earlyFiles m.k 2).length < 10 := by
    decide +kernel
  obtain ⟨m, hm, hmode, hroom⟩ := h
  have hr := reach_of_runFrom hm
  exact ⟨m, hr, (lsdir_lists_iff hr (by simp [hmode])).2 ⟨.inl (by decide), .inr hroom⟩⟩

/-- The root directory has five entries then, and they are not listed with room
    for five. -/
theorem root_not_listed :
    ¬∀ (m : Machine .qemuE) (dir : Fin bifsMaxDirs) (dirents size : ℕ), Reach (machine .qemuE) free m →
      (∀ why, m.mode ≠ .halted why) → dirents ≠ 0 → ListsChildren m.k dir dirents size := by
  have h : ∃ m ∈ runFrom .qemuE [], (m.mode = .sched 0 (-1) false) ∧ numChildren m.k bifsRoot = 5 ∧
      value (bifsLsdir bifsRoot 0x80003000 5 m.k) = some (-(ENOBUFS : ℤ)) := by
    decide +kernel
  obtain ⟨m, hm, hmode, hcount, hvalue⟩ := h
  obtain ⟨k', hfull⟩ := value_eq_some hvalue
  intro hclaim
  have hlists := hclaim m bifsRoot 0x80003000 5 (reach_of_runFrom hm) (by simp [hmode]) (by decide)
  have hlt := hlists.full.1 ⟨k', hfull⟩
  omega

end HobbyOs
