import HobbyOs.Entries
import HobbyOs.SlotStates

/-!
# What a process leaves behind

`init_procfs_files` takes a directory and two files of the baked-in file system
for a process. `proc_exit` gives the directory back and one of the files, the one
that it has a pointer to (`procfs_name_file`); `stats` stays in use.

* `Registered`: the processes that live have each their own directory and their
  own file, which are in use;
* `Ledger`: so the directories in use are as many more as there are processes
  more, and the files as many more again as processes were created;
* `churn_kept_iff`: between two states without children as many files are in use
  if and only if no process was created.
-/

namespace HobbyOs

open Outcome Transition

variable {cfg : Config} {p q r : Slot cfg} {k k' k₁ : Kernel cfg} {s t u : Core cfg} {m m' : Machine cfg}

/-! ## Counts -/

/-- The directories of the baked-in file system that are in use. -/
def usedDirs (k : Kernel cfg) : Finset (Fin bifsMaxDirs) := Finset.univ.filter fun d => (k.dirs d).flags ≠ 0

/-- The files of the baked-in file system that are in use. -/
def usedFiles (k : Kernel cfg) : Finset (Fin bifsMaxFiles) :=
  Finset.univ.filter fun j => (k.bfiles j).flags ≠ 0

/-- The slots of the processes that live. -/
def aliveSlots (s : Core cfg) : Finset (Slot cfg) := Finset.univ.filter (Alive s)

/-- A process was created. -/
def Ev.isCreated : Ev cfg → Bool
  | .created _ => true
  | _ => false

/-- The number of processes created so far. -/
def creations (s : Core cfg) : ℕ := s.log.countP Ev.isCreated

@[simp] theorem mem_usedDirs {d : Fin bifsMaxDirs} :
    d ∈ usedDirs k ↔ (k.dirs d).flags ≠ 0 := by simp [usedDirs]

@[simp] theorem mem_usedFiles {j : Fin bifsMaxFiles} :
    j ∈ usedFiles k ↔ (k.bfiles j).flags ≠ 0 := by simp [usedFiles]

@[simp] theorem mem_aliveSlots : q ∈ aliveSlots s ↔ Alive s q := by simp [aliveSlots]

theorem usedDirs_congr (h : ∀ d, (k'.dirs d).flags = (k.dirs d).flags) : usedDirs k' = usedDirs k := by
  ext d
  rw [mem_usedDirs, mem_usedDirs, h]

theorem usedFiles_congr (h : ∀ j, (k'.bfiles j).flags = (k.bfiles j).flags) : usedFiles k' = usedFiles k := by
  ext j
  rw [mem_usedFiles, mem_usedFiles, h]

theorem aliveSlots_congr (h : ∀ q, Alive t q ↔ Alive s q) : aliveSlots t = aliveSlots s := by
  ext q
  rw [mem_aliveSlots, mem_aliveSlots, h]

/-- At most one slot is in use. -/
def Core.Alone (s : Core cfg) : Prop :=
  ∀ q r, (s.procs q).state ≠ .available → (s.procs r).state ≠ .available → q = r

instance (s : Core cfg) : Decidable s.Alone := inferInstanceAs (Decidable (∀ _ _, _))

/-! ## Processes and their entries -/

/-- The processes that live have each their own directory and their own file; one
    of them has no parent. -/
structure Registered (k : Kernel cfg) : Prop where
  living : Living k.core
  root : ∃ q, Alive k.core q ∧ (k.procs q).parent = none
  dir : ∀ q, Alive k.core q → ∃ d, (k.procs q).procfsDir = some d ∧ d ∈ usedDirs k
  file : ∀ q, Alive k.core q → ∃ j, (k.procs q).procfsNameFile = some j ∧ j ∈ usedFiles k
  dir_inj : ∀ q r, Alive k.core q → Alive k.core r →
    (k.procs q).procfsDir = (k.procs r).procfsDir → q = r
  file_inj : ∀ q r, Alive k.core q → Alive k.core r →
    (k.procs q).procfsNameFile = (k.procs r).procfsNameFile → q = r

/-- From `k` to `k'`, as many directories more are in use as there are processes
    more, and as many files again as processes were created. -/
structure Ledger (k k' : Kernel cfg) : Prop where
  dirs : (usedDirs k').card + (aliveSlots k.core).card = (usedDirs k).card + (aliveSlots k'.core).card
  files : (usedFiles k').card + (aliveSlots k.core).card + creations k.core =
    (usedFiles k).card + (aliveSlots k'.core).card + creations k'.core

namespace Ledger

theorem refl : Ledger k k := ⟨rfl, rfl⟩

theorem trans (h : Ledger k k₁) (h' : Ledger k₁ k') : Ledger k k' := by
  obtain ⟨hd, hf⟩ := h
  obtain ⟨hd', hf'⟩ := h'
  exact ⟨by omega, by omega⟩

end Ledger

/-- A change after which the kernel is still in order, and the ledger balanced. -/
def Settles (k k' : Kernel cfg) : Prop := Registered k → Registered k' ∧ Ledger k k'

theorem Settles.trans (h : Settles k k₁) (h' : Settles k₁ k') : Settles k k' := fun hk =>
  ⟨(h' (h hk).1).1, (h hk).2.trans (h' (h hk).1).2⟩

theorem Adds.name_used {d e : Fin bifsMaxDirs} {i j : Fin bifsMaxFiles} (h : Adds q d e i j k k') :
    i ∈ usedFiles k' := by
  have hflags : (k'.bfiles i).flags = bifsReadable ||| bifsRaw := congrArg Listed.flags h.name
  simp [hflags, bifsReadable, bifsRaw]

theorem Adds.stats_used {d e : Fin bifsMaxDirs} {i j : Fin bifsMaxFiles} (h : Adds q d e i j k k') :
    j ∈ usedFiles k' := by
  have hflags : (k'.bfiles j).flags = bifsReadable ||| bifsRaw ||| bifsTmpfile := congrArg Listed.flags h.stats
  simp [hflags, bifsReadable, bifsRaw, bifsTmpfile]

/-- The same processes live, with the same entries. -/
theorem settles_same (hl : Living k'.core) (ha : ∀ q, Alive k'.core q ↔ Alive k.core q)
    (hpar : ∀ q, Alive k.core q → (k.procs q).parent = none → (k'.procs q).parent = none)
    (hc : creations k'.core = creations k.core) (hd : ∀ d, (k'.dirs d).flags = (k.dirs d).flags)
    (hf : ∀ j, (k'.bfiles j).flags = (k.bfiles j).flags)
    (hp : ∀ q, Alive k.core q → Part.procfs.SameProc (k.procs q) (k'.procs q)) : Settles k k' := by
  intro h
  have hdirs := usedDirs_congr hd
  have hfiles := usedFiles_congr hf
  refine ⟨⟨hl, ?_, fun q hq => ?_, fun q hq => ?_, fun q r hq hr => ?_, fun q r hq hr => ?_⟩, ?_⟩
  · obtain ⟨q, hq, hroot⟩ := h.root
    exact ⟨q, (ha q).2 hq, hpar q hq hroot⟩
  · rw [(hp q ((ha q).1 hq)).1, hdirs]
    exact h.dir q ((ha q).1 hq)
  · rw [(hp q ((ha q).1 hq)).2.1, hfiles]
    exact h.file q ((ha q).1 hq)
  · rw [(hp q ((ha q).1 hq)).1, (hp r ((ha r).1 hr)).1]
    exact h.dir_inj q r ((ha q).1 hq) ((ha r).1 hr)
  · rw [(hp q ((ha q).1 hq)).2.1, (hp r ((ha r).1 hr)).2.1]
    exact h.file_inj q r ((ha q).1 hq) ((ha r).1 hr)
  · exact ⟨by rw [hdirs, aliveSlots_congr ha], by rw [hfiles, aliveSlots_congr ha, hc]⟩

/-- A process is created, with its entries. -/
theorem settles_born {d e : Fin bifsMaxDirs} {i j : Fin bifsMaxFiles} (hadds : Adds q d e i j k k')
    (hl : Living k'.core) (hq : ¬Alive k.core q) (ha : ∀ r, Alive k'.core r ↔ Alive k.core r ∨ r = q)
    (hpar : ∀ r, Alive k.core r → (k.procs r).parent = none → (k'.procs r).parent = none)
    (hc : creations k'.core = creations k.core + 1) : Settles k k' := by
  intro h
  have hdfree : d ∉ usedDirs k := by simpa using freeDir_some hadds.free
  have hifree : i ∉ usedFiles k := by simpa using hadds.free_name
  have hjfree : j ∉ insert i (usedFiles k) := by simpa [hadds.ne.symm] using hadds.free_stats
  -- What is in use is what was, with the directory and the two files of the new
  -- process.
  have hdirs : usedDirs k' = insert d (usedDirs k) := by
    ext d'
    rw [mem_usedDirs, hadds.dirs, Finset.mem_insert, mem_usedDirs]
    by_cases hd : d' = d
    · simp [hd, bifsReadable]
    · simp [hd]
  have hfiles : usedFiles k' = insert j (insert i (usedFiles k)) := by
    have hflags : ∀ l, (k'.bfiles l).flags = (k'.bfiles l).listed.flags := fun _ => rfl
    ext l
    rw [mem_usedFiles, Finset.mem_insert, Finset.mem_insert, mem_usedFiles]
    by_cases hlj : l = j
    · subst hlj
      exact iff_of_true (mem_usedFiles.1 hadds.stats_used) (.inl rfl)
    by_cases hli : l = i
    · subst hli
      exact iff_of_true (mem_usedFiles.1 hadds.name_used) (.inr (.inl rfl))
    · rw [hflags, hadds.files l hli hlj]
      simp [hli, hlj, BifsFile.listed]
  have halive : aliveSlots k'.core = insert q (aliveSlots k.core) := by
    ext r
    rw [mem_aliveSlots, ha, Finset.mem_insert, mem_aliveSlots, or_comm]
  have hne : ∀ r, Alive k.core r → r ≠ q := fun r hr hrq => hq (hrq ▸ hr)
  have hsame : ∀ r, Alive k.core r → (k'.procs r).procfsDir = (k.procs r).procfsDir ∧
      (k'.procs r).procfsNameFile = (k.procs r).procfsNameFile := fun r hr =>
    ⟨(hadds.others r (hne r hr)).1.1, (hadds.others r (hne r hr)).1.2.1⟩
  -- The entries of the others were in use, and those of the new process were free.
  have hnew : ∀ r, Alive k.core r → (k'.procs r).procfsDir ≠ (k'.procs q).procfsDir ∧
      (k'.procs r).procfsNameFile ≠ (k'.procs q).procfsNameFile := by
    intro r hr
    obtain ⟨d', hd', hd'used⟩ := h.dir r hr
    obtain ⟨j', hj', hj'used⟩ := h.file r hr
    rw [(hsame r hr).1, (hsame r hr).2, hadds.own.1, hadds.own.2.1, hd', hj']
    refine ⟨fun heq => ?_, fun heq => ?_⟩
    · cases heq
      exact hdfree hd'used
    · cases heq
      exact hifree hj'used
  -- Each clause for an old process is that of before, and for the new one that of its
  -- entries.
  refine ⟨⟨hl, ?_, fun r hr => ?_, fun r hr => ?_, fun r r' hr hr' heq => ?_,
    fun r r' hr hr' heq => ?_⟩, ?_, ?_⟩
  · obtain ⟨r, hr, hroot⟩ := h.root
    exact ⟨r, (ha r).2 (.inl hr), hpar r hr hroot⟩
  · rw [hdirs]
    rcases (ha r).1 hr with hr | rfl
    · obtain ⟨d', hd', hd'used⟩ := h.dir r hr
      exact ⟨d', (hsame r hr).1.trans hd', Finset.mem_insert_of_mem hd'used⟩
    · exact ⟨d, hadds.own.1, Finset.mem_insert_self _ _⟩
  · rw [hfiles]
    rcases (ha r).1 hr with hr | rfl
    · obtain ⟨j', hj', hj'used⟩ := h.file r hr
      exact ⟨j', (hsame r hr).2.trans hj', Finset.mem_insert_of_mem (Finset.mem_insert_of_mem hj'used)⟩
    · exact ⟨i, hadds.own.2.1, Finset.mem_insert_of_mem (Finset.mem_insert_self _ _)⟩
  · rcases (ha r).1 hr with hr | rfl <;> rcases (ha r').1 hr' with hr' | rfl
    · rw [(hsame r hr).1, (hsame r' hr').1] at heq
      exact h.dir_inj r r' hr hr' heq
    · exact absurd heq (hnew r hr).1
    · exact absurd heq.symm (hnew r' hr').1
    · rfl
  · rcases (ha r).1 hr with hr | rfl <;> rcases (ha r').1 hr' with hr' | rfl
    · rw [(hsame r hr).2, (hsame r' hr').2] at heq
      exact h.file_inj r r' hr hr' heq
    · exact absurd heq (hnew r hr).2
    · exact absurd heq.symm (hnew r' hr').2
    · rfl
  · rw [hdirs, halive, Finset.card_insert_of_notMem hdfree, Finset.card_insert_of_notMem (by simpa using hq)]
    omega
  · rw [hfiles, halive, hc, Finset.card_insert_of_notMem hjfree, Finset.card_insert_of_notMem hifree,
      Finset.card_insert_of_notMem (by simpa using hq)]
    omega

/-- A process exits, and gives its directory and its file back. -/
theorem settles_dead {d : Fin bifsMaxDirs} {j : Fin bifsMaxFiles} (hp : Alive k.core p)
    (hd : (k.procs p).procfsDir = some d) (hj : (k.procs p).procfsNameFile = some j) (hl : Living k'.core)
    (ha : ∀ r, Alive k'.core r ↔ Alive k.core r ∧ r ≠ p) (hnone : (k.procs p).parent ≠ none)
    (hpar : ∀ r, Alive k.core r → (k.procs r).parent = none → (k'.procs r).parent = none)
    (hc : creations k'.core = creations k.core)
    (hdirs : ∀ e, (k'.dirs e).flags = if e = d then 0 else (k.dirs e).flags)
    (hfiles : ∀ i, (k'.bfiles i).flags = if i = j then 0 else (k.bfiles i).flags)
    (hprocs : ∀ r, Part.procfs.SameProc (k.procs r) (k'.procs r)) : Settles k k' := by
  intro h
  have hdused : d ∈ usedDirs k := by
    obtain ⟨d', hd', hused⟩ := h.dir p hp
    exact Option.some.inj (hd.symm.trans hd') ▸ hused
  have hjused : j ∈ usedFiles k := by
    obtain ⟨j', hj', hused⟩ := h.file p hp
    exact Option.some.inj (hj.symm.trans hj') ▸ hused
  -- The directory and the name file go out of use, and the stats file does not.
  have hdirs' : usedDirs k' = (usedDirs k).erase d := by
    ext e
    rw [mem_usedDirs, hdirs, Finset.mem_erase, mem_usedDirs]
    by_cases he : e = d <;> simp [he]
  have hfiles' : usedFiles k' = (usedFiles k).erase j := by
    ext i
    rw [mem_usedFiles, hfiles, Finset.mem_erase, mem_usedFiles]
    by_cases hi : i = j <;> simp [hi]
  have halive : aliveSlots k'.core = (aliveSlots k.core).erase p := by
    ext r
    rw [mem_aliveSlots, ha, Finset.mem_erase, mem_aliveSlots, and_comm]
  -- The three sets are not empty, so that what is taken from their sizes counts.
  have hpos := Finset.card_pos.2 ⟨p, mem_aliveSlots.2 hp⟩
  have hdpos := Finset.card_pos.2 ⟨d, hdused⟩
  have hjpos := Finset.card_pos.2 ⟨j, hjused⟩
  refine ⟨⟨hl, ?_, fun r hr => ?_, fun r hr => ?_, fun r r' hr hr' heq => ?_,
    fun r r' hr hr' heq => ?_⟩, ?_, ?_⟩
  · obtain ⟨r, hr, hroot⟩ := h.root
    have hrp : r ≠ p := fun hrp => hnone (hrp ▸ hroot)
    exact ⟨r, (ha r).2 ⟨hr, hrp⟩, hpar r hr hroot⟩
  · obtain ⟨hr, hrp⟩ := (ha r).1 hr
    obtain ⟨d', hd', hused⟩ := h.dir r hr
    refine ⟨d', (hprocs r).1.trans hd', ?_⟩
    rw [hdirs', Finset.mem_erase]
    exact ⟨fun hdd => hrp (h.dir_inj r p hr hp (by rw [hd', hd, hdd])), hused⟩
  · obtain ⟨hr, hrp⟩ := (ha r).1 hr
    obtain ⟨j', hj', hused⟩ := h.file r hr
    refine ⟨j', (hprocs r).2.1.trans hj', ?_⟩
    rw [hfiles', Finset.mem_erase]
    exact ⟨fun hjj => hrp (h.file_inj r p hr hp (by rw [hj', hj, hjj])), hused⟩
  · rw [(hprocs r).1, (hprocs r').1] at heq
    exact h.dir_inj r r' ((ha r).1 hr).1 ((ha r').1 hr').1 heq
  · rw [(hprocs r).2.1, (hprocs r').2.1] at heq
    exact h.file_inj r r' ((ha r).1 hr).1 ((ha r').1 hr').1 heq
  · rw [hdirs', halive, Finset.card_erase_of_mem hdused, Finset.card_erase_of_mem (mem_aliveSlots.2 hp)]
    omega
  · rw [hfiles', halive, hc, Finset.card_erase_of_mem hjused, Finset.card_erase_of_mem (mem_aliveSlots.2 hp)]
    omega

/-! ## Steps -/

/-- No process forks. -/
def noForkRule (_ : Core cfg) : Deed cfg → Prop
  | .fork _ | .half .. => False
  | .exit _ | .reap .. => True

/-- Nobody is created, and nobody without a parent gets one. -/
structure NoneCreated (s t : Core cfg) : Prop where
  creations : creations t = creations s
  orphans : ∀ q, (s.procs q).parent = none → (t.procs q).parent = none

namespace NoneCreated

theorem refl : NoneCreated s s := ⟨rfl, fun _ => id⟩

theorem trans (h : NoneCreated s t) (h' : NoneCreated t u) : NoneCreated s u :=
  ⟨h'.creations.trans h.creations, fun q hq => h'.orphans q (h.orphans q hq)⟩

theorem update {f : PCore cfg → PCore cfg} (hf : ∀ x, x.parent = none → (f x).parent = none) :
    NoneCreated s (s.update q f) := by
  refine ⟨rfl, fun r hr => ?_⟩
  by_cases hrq : r = q
  · subst hrq
    rw [Core.update_procs_self]
    exact hf _ hr
  · rwa [Core.update_procs_of_ne _ _ hrq]

theorem setState {new : PState} {site : Site cfg} : NoneCreated s (s.setState q new site) := by
  refine ⟨by simp [HobbyOs.creations, Ev.isCreated], fun r hr => ?_⟩
  by_cases hrq : r = q
  · subst hrq
    simpa using hr
  · simpa [hrq] using hr

theorem newPid : NoneCreated s (s.newPid q) := by
  have hupdate : NoneCreated s (s.update q fun x =>
      { x with pid := s.pidCounter % 2 ^ 32, uid := s.pidCounter, forker := none }) := update fun _ h => h
  exact ⟨rfl, hupdate.orphans⟩

theorem waited {uid : ℕ} {ret : ℤ} : NoneCreated s (s.record (.waited uid ret)) :=
  ⟨by simp [HobbyOs.creations, Ev.isCreated], fun _ => id⟩

theorem after {how : How} : NoneCreated s (s.after how) := by
  cases how with
  | away => exact ⟨rfl, fun _ => id⟩
  | back | halt => exact refl

theorem of_after {how : How} (h : NoneCreated s (t.after how)) : NoneCreated s t := by
  cases how with
  | away => exact ⟨h.creations, h.orphans⟩
  | back | halt => exact h

theorem move (h : Move noForkRule s t) : NoneCreated s t := by
  cases h with
  | alike ha =>
    exact ⟨by rw [HobbyOs.creations, ha.log, HobbyOs.creations], fun q hq => by rw [ha.parent, hq]⟩
  | wake _ | run _ | leave _ _ _ | reap _ _ _ _ => exact setState
  | exit _ _ _ _ _ _ => exact setState.trans setState
  | deliver _ _ _ _ => exact setState.trans waited
  | waited => exact waited
  | number _ hd _ | half _ hd _ _ | created _ hd _ _ _ => exact hd.elim
  | detach => exact update fun _ _ => rfl

theorem moves (h : Moves noForkRule s t) : NoneCreated s t :=
  h.invariant refl fun hu hm => hu.trans (.move hm)

end NoneCreated

/-- A step that begins no life and ends none. -/
theorem settles_quiet (hsame : ∀ x ∈ ({.dirs, .bfiles, .procfs} : Set Part), x.Same k k')
    (hlives : SameLives k.core k'.core) (hages : Ages none k.core k'.core) (hm : NoneCreated k.core k'.core) :
    Settles k k' := fun h =>
  settles_same (h.living.same hlives hages) (fun _ => hlives.alive) (fun q _ => hm.orphans q) hm.creations
    (fun d => congrArg BifsDir.flags (hsame .dirs (by simp) d))
    (fun j => congrArg Listed.flags (hsame .bfiles (by simp) j)) (fun q _ => hsame .procfs (by simp) q) h

/-! ## proc_exit -/

/-- The end of `proc_exit` gives a directory and a file back. -/
theorem leaveTable_switch {x : Proc cfg} (h : leaveTable p x k = .error .switch k') :
    ∃ d j, x.procfsDir = some d ∧ x.procfsNameFile = some j ∧
      (∀ e, (k'.dirs e).flags = if e = d then 0 else (k.dirs e).flags) ∧
      ∀ i, (k'.bfiles i).flags = if i = j then 0 else (k.bfiles i).flags := by
  rw [leaveTable] at h
  cases hd : x.procfsDir with
  | none =>
    rw [hd] at h
    cases h
  | some d =>
    cases hj : x.procfsNameFile with
    | none =>
      rw [hd, hj] at h
      cases h
    | some j =>
      rw [hd, hj] at h
      simp only [modify_bind_apply] at h
      -- What follows the two assignments is not about the file system.
      have hsame := fun x : Part => Ended.same (S := ∅) (x := x) (.away h) ?_ (Set.notMem_empty x)
      · refine ⟨d, j, rfl, rfl, fun e => ?_, fun i => ?_⟩
        · rw [show k'.dirs e = Function.update k.dirs d { k.dirs d with flags := 0 } e from hsame .dirs e,
            Function.update_apply]
          split_ifs <;> rfl
        · have hflags : (k'.bfiles i).flags =
              (Function.update k.bfiles j { k.bfiles j with flags := 0 } i).flags :=
            congrArg Listed.flags (hsame .bfiles i)
          rw [hflags, Function.update_apply]
          split_ifs <;> rfl
      · refine Frame.bind (frame_withLock ?_) fun _ => ?_
        · exact Frame.of_rest fun _ => rfl
        · exact Frame.bind (frame_modifyProc fun _ => rfl) fun _ => Frame.throw

theorem exit_parent (h : CallEffect p k .exit .away t) : (k.core.procs p).parent ≠ none := by
  cases h with
  | quiet hc _ | frame hc => exact absurd rfl hc
  | yield ht _ _ => cases ht
  | exited hr _ => exact hr ▸ Option.some_ne_none _

/-- A process that lives exits, and goes away. -/
theorem settles_exit (hk : Calm p k) (hp : Alive k.core p) (hpar : (k.core.procs p).parent ≠ some p)
    (he : CallEffect p k .exit .away k'.core) (hm : NoneCreated k.core k'.core)
    (h : procExit p k = .error .switch k') : Settles k k' := by
  obtain ⟨k₁, k₂, hclose, hsame, -, x, hx, hleave⟩ := procExit_closes hk hpar h
  obtain ⟨d, j, hd, hj, hdirs, hfiles⟩ := leaveTable_switch hleave
  have hframe : Frame ({.dirs, .bfiles}ᶜ : Set Part) (closeFiles (k.procs p).files : KM cfg Unit) :=
    frame_closeFiles (by simp) (by simp) (by simp) (by simp) (by simp) (by simp) _
  have hsame₂ : ∀ y ∈ ({.dirs, .bfiles} : Set Part), y.Same k k₂ := by
    rintro y (rfl | rfl)
    · exact (hsame .dirs (by simp)).trans (Ended.same (.back hclose) hframe (by simp))
    · exact (hsame .bfiles (by simp)).trans (Ended.same (.back hclose) hframe (by simp))
  have hprocs : Part.procfs.Same k k' := Ended.same (.away h) (frame_runCall p .exit) (by simp [Call.parts])
  have hdeath := Death.call he
  refine fun hreg =>
    settles_dead hp (hx.1 ▸ hd) (hx.2.1 ▸ hj) (hreg.living.call (fun _ => hp) he) (fun r => ?_) ?_
    (fun r _ => hm.orphans r) hm.creations (fun e => ?_) (fun i => ?_) (fun r => ?_) hreg
  · by_cases hr : r = p
    · subst hr
      exact iff_of_false hdeath.not_alive_self fun h => h.2 rfl
    · rw [hdeath.alive_of_ne hr]
      exact (and_iff_left hr).symm
  · exact exit_parent he
  · rw [hdirs, show k₂.dirs e = k.dirs e from hsame₂ .dirs (by simp) e]
  · rw [hfiles, show (k₂.bfiles i).flags = (k.bfiles i).flags from
      congrArg Listed.flags (hsame₂ .bfiles (by simp) i)]
  · exact hprocs r

/-! ## proc_fork -/

/-- There is room in `/proc` for a process that gets its pages. -/
def FindsRoom (k : Kernel cfg) : Prop :=
  pagesNeeded cfg ≤ countFreePages k → ∀ q, (k.procs q).state = .available →
    ProcfsRoom k q (k.pidCounter % 2 ^ 32)

instance (k : Kernel cfg) : Decidable (FindsRoom k) := inferInstanceAs (Decidable (_ → _))

theorem forked_birth {frame frame' frame'' : TrapFrame} :
    Birth q true s (s.forked p q frame frame' frame'') := by
  have hframe : SameLives s (s.update p fun x => { x with trap := frame }) := .update fun _ => rfl
  exact .of_same hframe Birth.created

theorem forked_parent {frame frame' frame'' : TrapFrame} (hrq : r ≠ q) :
    ((s.forked p q frame frame' frame'').procs r).parent = (s.procs r).parent := by
  by_cases hrp : r = p
  · subst hrp
    simp [Core.forked, Core.newPid, Core.fresh, Core.counted, Core.adopted, hrq]
  · simp [Core.forked, Core.newPid, Core.fresh, Core.counted, Core.adopted, hrq, hrp]

theorem creations_forked {frame frame' frame'' : TrapFrame} :
    creations (s.forked p q frame frame' frame'') = creations s + 1 := by
  have hlog : ∃ e, (s.forked p q frame frame' frame'').log = .created s.pidCounter :: .change e :: s.log :=
    ⟨_, rfl⟩
  obtain ⟨e, he⟩ := hlog
  rw [creations, he, List.countP_cons_of_pos (by rfl),
    List.countP_cons_of_neg (by simp [Ev.isCreated]), creations]

/-- `proc_fork`, when it returns. -/
theorem settles_fork {r : ℤ} (hk : Calm p k) (hcpu : k.core.cpuProc = some p) (hroom : FindsRoom k)
    (hl : Living k.core → Living k'.core) (h : procFork p k = .ok r k') : Settles k k' := by
  intro hreg
  -- The slot is of no process that lives.
  have hgone : ∀ {q}, freeSlot k = some q → ¬Alive k.core q := fun hslot hq =>
    hreg.living.standing _ hq (.inr (freeSlot_ne hcpu hslot).2)
  cases procFork_entries hk hcpu h with
  | @short q frame hslot hsame hcore =>
    have hq := hgone hslot
    have hne : ∀ l, Alive k.core l → l ≠ q := fun l hl hlq => hq (hlq ▸ hl)
    have hlives : SameLives k.core (k.core.update p fun x => { x with trap := frame }) := .update fun _ => rfl
    have horphans : NoneCreated k.core (k.core.update p fun x => { x with trap := frame }) :=
      .update fun _ h => h
    have hbirth : Birth q false k.core k'.core := by
      rw [hcore]
      exact .of_same hlives .newPid
    have hnone : NoneCreated k.core k'.core := by
      rw [hcore]
      exact horphans.trans .newPid
    refine settles_same (hl hreg.living) (fun l => ?_) (fun l _ => hnone.orphans l) hnone.creations
      (fun d => by rw [hsame.dirs]) (fun j => congrArg Listed.flags (hsame.files j))
      (fun l hl => hsame.procs l (hne l hl)) hreg
    by_cases hlq : l = q
    · subst hlq
      exact iff_of_false (fun h => Bool.false_ne_true ((hbirth.alive_self hreg.living.numbered).1 h)) hq
    · exact hbirth.alive_of_ne hlq
  | full hslot hpages hfull => exact absurd (hroom hpages _ (freeSlot_ne hcpu hslot).2) hfull
  | @done q d e i j frame frame' frame'' hslot _ hadds _ hcore =>
    have hq := hgone hslot
    have hne : ∀ l, Alive k.core l → l ≠ q := fun l hl hlq => hq (hlq ▸ hl)
    have hbirth : Birth q true k.core k'.core := hcore ▸ forked_birth
    refine settles_born hadds (hl hreg.living) hq (fun l => ?_) (fun l hl hnone => ?_) ?_ hreg
    · by_cases hlq : l = q
      · subst hlq
        exact iff_of_true ((hbirth.alive_self hreg.living.numbered).2 rfl) (.inr rfl)
      · rw [hbirth.alive_of_ne hlq]
        simp [hlq]
    · rw [← Kernel.core_procs, hcore, forked_parent (hne l hl)]
      exact hnone
    · rw [hcore, creations_forked]

/-! ## Runs -/

/-- A process exits only once, and forks only if there is room in `/proc`. -/
def LivesInRoom (p : Slot cfg) (k : Kernel cfg) : Call → Prop
  | .exit => Alive k.core p
  | .fork => FindsRoom k
  | _ => True

instance (p : Slot cfg) (k : Kernel cfg) : DecidablePred (LivesInRoom p k)
  | .exit => inferInstanceAs (Decidable (Alive k.core p))
  | .fork => inferInstanceAs (Decidable (FindsRoom k))
  | .read .. | .write .. | .open _ | .close _ | .wait _ | .execv .. | .getpid | .dup _ | .pipe _
  | .sysinfo _ | .sleep _ | .plist .. | .pinfo .. | .pgalloc | .pgfree _ | .gpio .. | .detach | .isopen _
  | .pipeattch .. | .lsdir .. => .isTrue trivial

theorem settles_step {e : Event cfg} (hb : Base m) (hC : OnCall LivesInRoom m e) (hs : KernelStep m e k') :
    Settles m.k k' := by
  -- A step that is no fork.
  have hnone : (∀ p, Does m e (.fork p) → False) → NoneCreated m.k.core k'.core := by
    refine fun hfork => .moves (hs.moves hb fun d hd => ?_)
    cases d with
    | exit | reap => trivial
    | fork p => exact (hfork p hd).elim
    | half p q =>
      cases hd with
      | half hp hc _ _ => exact (hfork p (.fork hp hc)).elim
  cases hs with
  | aside hsame ha => exact settles_quiet (fun x _ => hsame x) ha.sameLives ha.ages (.moves ha.moves)
  | plic _ _ hsame hw =>
    refine settles_quiet ?_ (.wakes hw) (.wakes hw) (.moves (.wakes hw))
    rintro x (rfl | rfl | rfl) <;> exact hsame _ (by simp)
  | resume _ _ hend he hsame hcore _ =>
    refine settles_quiet ?_ ?_ ?_ (hnone fun _ hd => by cases hd)
    · rintro x (rfl | rfl | rfl) <;>
        exact (same_resumed hend (by simp [resumeParts])).trans (hsame _)
    · rw [hcore]
      exact (SameLives.resume he).after
    · rw [hcore]
      exact (Ages.resume he).after
  | @call p c how k₁ _ hp hcalm hc hend he hsame hcore =>
    have hguard := hC p hp.cpu c hc
    have hentry : Settles m.k ((trap m).entry p) :=
      settles_quiet (fun _ _ => Part.same_of_parts rfl) .refl .refl .refl
    have hafter : Settles k₁ k' := by
      refine settles_quiet (fun x _ => hsame x) ?_ ?_ ?_
      all_goals rw [hcore]
      · exact SameLives.refl.after
      · exact Ages.refl.after
      · exact .after
    have hcalm : Calm p ((trap m).entry p) := hcalm
    have hother : c ≠ .fork → NoneCreated ((trap m).entry p).core k₁.core := by
      intro hfork
      have h : NoneCreated m.k.core (k₁.core.after how) := by
        rw [← hcore]
        refine hnone fun q hd => ?_
        cases hd with
        | fork hq hcq =>
          obtain rfl : p = q := Option.some.inj (hp.cpu.symm.trans hq)
          exact hfork (Option.some.inj (hc.symm.trans hcq))
      exact h.of_after
    refine (hentry.trans ?_).trans hafter
    cases c with
    | exit =>
      cases hend with
      | back hr => exact absurd hr procExit_ne_ok
      | away hr => exact settles_exit hcalm hguard (hb.lineal p) he (hother (by simp)) hr
    | fork =>
      cases hend with
      | back hr => exact settles_fork hcalm hp.cpu hguard (fun hl => hl.call (c := .fork) (by simp) he) hr
      | away _ => exact (he.not_away rfl (by simp) (by simp) (by simp)).elim
    | _ =>
      refine settles_quiet ?_ (.call he (by simp) (by simp)) (.call he (by simp)) (hother (by simp))
      rintro x (rfl | rfl | rfl) <;> exact hend.same (frame_runCall p _) (by simp [Call.parts])

/-- The first process lives, has no parent, and was created. -/
theorem booted_first (p : Slot cfg) (frame frame' : TrapFrame) :
    Alive ((Core.init cfg).booted p frame frame') p ∧
      (((Core.init cfg).booted p frame frame').procs p).parent = none ∧
      creations ((Core.init cfg).booted p frame frame') = 1 := by
  refine ⟨?_, ?_, rfl⟩
  · simp [Alive, Core.booted, Core.init, Core.newPid, Core.fresh, Core.counted, Ev.isInit, Ev.isExit]
  · simp [Core.booted, Core.init, Core.newPid, Core.fresh, Core.counted, zeroProc]

/-- When the kernel has booted, one process lives; it has its entries. -/
theorem kinit_first {mem : ℕ → UInt8} (h : kinit (initKernel cfg mem) = .ok () k) :
    ∃ p d e i j, Adds p d e i j (initKernel cfg mem) k ∧ Living k.core ∧
    (∀ r, Alive k.core r ↔ r = p) ∧
      (k.procs p).parent = none ∧ creations k.core = 1 := by
  obtain ⟨p, d, e, i, j, hadds, -, hstate, -⟩ := kinit_entries h
  obtain ⟨q, hliving, hq, hroot, hone⟩ : ∃ q, Living k.core ∧ Alive k.core q ∧
      (k.core.procs q).parent = none ∧
      creations k.core = 1 := by
    have hresult := boot_result cfg mem
    rw [boot, h] at hresult
    rcases hresult with ⟨q, frame, frame', hc, -, -⟩ | ⟨e, he, -, -⟩
    · rw [show k.core = _ from hc]
      exact ⟨q, living_booted q frame frame', booted_first q frame frame'⟩
    · cases he
  have hfirst : ∀ r, Alive k.core r → r = p := by
    intro r hr
    by_contra hrp
    refine hliving.standing r hr (.inr ?_)
    rw [Kernel.core_procs, hstate, if_neg hrp]
  obtain rfl := hfirst q hq
  exact ⟨q, d, e, i, j, hadds, hliving, fun r => ⟨hfirst r, fun hr => hr ▸ hq⟩, hroot, hone⟩

theorem registered_boot {mem : ℕ → UInt8} (h : kinit (initKernel cfg mem) = .ok () k) : Registered k := by
  obtain ⟨p, d, e, i, j, hadds, hliving, halive, hroot, -⟩ := kinit_first h
  have hdused : d ∈ usedDirs k := by simp [hadds.dirs, bifsReadable]
  refine ⟨hliving, ⟨p, (halive p).2 rfl, hroot⟩, fun r hr => ?_, fun r hr => ?_, fun r r' hr hr' _ => ?_,
    fun r r' hr hr' _ => ?_⟩
  · exact (halive r).1 hr ▸ ⟨d, hadds.own.1, hdused⟩
  · exact (halive r).1 hr ▸ ⟨i, hadds.own.2.1, hadds.name_used⟩
  · rw [(halive r).1 hr, (halive r').1 hr']
  · rw [(halive r).1 hr, (halive r').1 hr']

/-- The first process has two files in use. -/
theorem creations_boot {mem : ℕ → UInt8} (h : kinit (initKernel cfg mem) = .ok () k) :
    creations k.core + (aliveSlots k.core).card ≤ (usedFiles k).card := by
  obtain ⟨p, d, e, i, j, hadds, -, halive, -, hone⟩ := kinit_first h
  have hslots : aliveSlots k.core = {p} := by
    ext r
    rw [mem_aliveSlots, halive, Finset.mem_singleton]
  have hpair : ({i, j} : Finset (Fin bifsMaxFiles)) ⊆ usedFiles k := by
    intro l hl
    rcases Finset.mem_insert.1 hl with rfl | hl
    · exact hadds.name_used
    · rw [Finset.mem_singleton.1 hl]
      exact hadds.stats_used
  rw [hone, hslots, Finset.card_singleton]
  exact (Finset.card_pair hadds.ne).symm.trans_le (Finset.card_le_card hpair)

theorem registered_of_reach (h : Reach (machine cfg) (OnCall LivesInRoom) m)
    (hm : ∀ why, m.mode ≠ .halted why) :
    Registered m.k :=
  kernel_of_reach_running (I := Registered) registered_boot
    (fun hb hI hC hs => (settles_step hb hC hs hI).1) h hm

/-- The processes that have exited keep one file each: there are never more
    processes created than files in the table. -/
theorem creations_le (h : Reach (machine cfg) (OnCall LivesInRoom) m) (hm : ∀ why, m.mode ≠ .halted why) :
    creations m.k.core + (aliveSlots m.k.core).card ≤ bifsMaxFiles := by
  have hfiles : creations m.k.core + (aliveSlots m.k.core).card ≤ (usedFiles m.k).card := by
    refine (kernel_of_reach_running
      (I := fun k => Registered k ∧ creations k.core + (aliveSlots k.core).card ≤ (usedFiles k).card)
      (fun hk => ⟨registered_boot hk, creations_boot hk⟩) (fun hb hI hC hs => ?_) h hm).2
    obtain ⟨hreg, hledger⟩ := settles_step hb hC hs hI.1
    have hle := hI.2
    have hbalance := hledger.files
    exact ⟨hreg, by omega⟩
  exact hfiles.trans ((Finset.card_le_univ _).trans (Fintype.card_fin _).le)

/-- Where there is one process, one process lives. -/
theorem Core.Alone.card (h : m.k.core.Alone) (hreg : Registered m.k) : (aliveSlots m.k.core).card = 1 := by
  obtain ⟨q, hq, -⟩ := hreg.root
  have hslot : ∀ r, Alive m.k.core r → (m.k.core.procs r).state ≠ .available := fun r hr hav =>
    hreg.living.standing r hr (.inr hav)
  refine Finset.card_eq_one.2 ⟨q, Finset.ext fun r => ?_⟩
  rw [mem_aliveSlots, Finset.mem_singleton]
  exact ⟨fun hr => h r q (hslot r hr) (hslot q hq), fun hr => hr ▸ hq⟩

/-- Between two states in which the first process is alone, as many directories
    and files are in use if and only if no process was created. -/
theorem churn_kept_iff {m₀ : Machine cfg} (h₀ : Reach (machine cfg) (OnCall LivesInRoom) m₀)
    (h : Path (machine cfg) (OnCall LivesInRoom) m₀ m) (hm : ∀ why, m.mode ≠ .halted why)
    (halone₀ : m₀.k.core.Alone) (halone : m.k.core.Alone) :
    (usedDirs m.k).card = (usedDirs m₀.k).card ∧ (usedFiles m.k).card = (usedFiles m₀.k).card ↔
      creations m.k.core = creations m₀.k.core := by
  have hreg := registered_of_reach h₀ (running_of_path h hm)
  obtain ⟨hreg', hledger⟩ :=
    kernel_of_path_running (I := fun k => Registered k ∧ Ledger m₀.k k) (base_of_reach h₀)
    (.inr ⟨hreg, .refl⟩) (fun hb hI hC hs =>
      let ⟨hreg, hledger⟩ := settles_step hb hC hs hI.1
      ⟨hreg, hI.2.trans hledger⟩) h hm
  obtain ⟨hdirs, hfiles⟩ := hledger
  have hone₀ := halone₀.card hreg
  have hone := halone.card hreg'
  omega

/-! ## One child -/

/-- The first process runs. -/
def beforeChild : Machine .qemuE :=
  (run (OnCall LivesInRoom) (machine .qemuE) [.kernel, .kernel] (boot .qemuE fun _ => 0)).get
    (by decide +kernel)

/-- It forks and waits; the child exits, and is reaped. -/
def childLives : List (Event .qemuE) :=
  calls 2 0 0 0 [] ++ calls 7 0 0 0 [] ++ [Event.kernel, .kernel] ++ calls 1 0 0 0 [] ++
    List.replicate 5 Event.kernel

def afterChild : Machine .qemuE :=
  (run (OnCall LivesInRoom) (machine .qemuE) childLives beforeChild).get (by decide +kernel)

theorem reach_beforeChild : Reach (machine .qemuE) (OnCall LivesInRoom) beforeChild :=
  Reach.of_run _ ⟨_, rfl⟩ (Option.some_get _).symm

theorem path_afterChild : Path (machine .qemuE) (OnCall LivesInRoom) beforeChild afterChild :=
  .of_run _ (Option.some_get _).symm

/-- The file `stats` of the child stays in use. -/
theorem child_leaves_file :
    ¬∀ m₀ m : Machine .qemuE, Reach (machine .qemuE) free m₀ → Path (machine .qemuE) free m₀ m →
      m₀.k.core.Alone → m.k.core.Alone →
      (usedDirs m.k).card = (usedDirs m₀.k).card ∧ (usedFiles m.k).card = (usedFiles m₀.k).card := by
  intro h
  have hcards := h beforeChild afterChild (reach_beforeChild.mono fun _ => trivial)
    (path_afterChild.mono fun _ => trivial) (by decide +kernel) (by decide +kernel)
  exact absurd hcards.2 (by decide +kernel)

/-- A process opens a pipe and closes both its ends. -/
def opensPipe : List (Event .qemuE) :=
  calls 29 0x80003d00 0 0 [] ++ calls 6 3 0 0 [] ++ calls 6 4 0 0 []

/-- The child has come and gone, and its file is taken; from there on, with no
    process created, both tables stay as they are. -/
theorem opensPipe_kept :
    ∃ m ∈ run (OnCall LivesInRoom) (machine .qemuE) opensPipe afterChild, m.mode = .user ∧
      (usedDirs m.k).card = (usedDirs afterChild.k).card ∧ (usedFiles m.k).card =
        (usedFiles afterChild.k).card := by
  have h : ∃ m ∈ run (OnCall LivesInRoom) (machine .qemuE) opensPipe afterChild, m.mode = .user ∧
      m.k.core.Alone ∧ creations m.k.core = creations afterChild.k.core := by
    decide +kernel
  obtain ⟨m, hm, hmode, halone, hcreated⟩ := h
  have hreach := reach_beforeChild.path path_afterChild
  exact ⟨m, hm, hmode,
    (churn_kept_iff hreach (.of_run _ hm) (by simp [hmode]) (by decide +kernel) halone).2 hcreated⟩

end HobbyOs
