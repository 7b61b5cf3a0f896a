import HobbyOs.Entries
import HobbyOs.Procfs

/-!
# The directory of a new process

When the directory that `proc_fork` makes leaves `/proc` in order
(`ProcTree.add`): the new pid must not be taken for another one. A lookup compares
as many characters as it is given, so a pid is found in the directory of every
process whose pid begins with it.

* `procfs_agrees`: in runs without an exit, with room for the directories and
  with pids that are not taken for one another, `/proc` lists the processes, and
  `/proc/<pid>/stats` is found for these only;
* `exited_process_listed`: a process that has exited is still listed.
-/

namespace HobbyOs

open Outcome Transition

variable {cfg : Config} {p q r : Slot cfg} {k k' k₁ : Kernel cfg} {m : Machine cfg} {A : Slot cfg → Prop}
  {d : Fin bifsMaxDirs} {n : ℕ}

/-! ## What the tree depends on -/

theorem SameEntries.dirOf_iff (h : SameEntries A k k') (hq : A q) : DirOf k' q d ↔ DirOf k q d := by
  rw [DirOf, DirOf, h.dirs, (h.procs q hq).1]

theorem ProcTree.congr (h : ProcTree A k) (hs : SameEntries A k k') : ProcTree A k' := by
  have hflags := fun j => congrArg Listed.flags (hs.files j)
  have hname := fun j => congrArg Listed.name (hs.files j)
  have hparent := fun j => congrArg Listed.parent (hs.files j)
  have hdata := fun j => congrArg Listed.dataquery (hs.files j)
  -- Of a file the tree reads four fields; what it reads of a process is in
  -- `SameEntries`.
  simp only [BifsFile.listed] at hflags hname hparent hdata
  refine ⟨?_, ?_, fun d => ?_, fun j => ?_, fun q hq => ?_, fun d hd => ?_, fun q hq => ?_, fun d => ?_,
    fun d e => ?_, fun j => ?_, fun j d => ?_, fun q d j hq hd => ?_, fun q d hq hd => ?_,
    fun q r d e hq hr hd he => ?_,
    fun q l hq => ?_⟩
  · rw [hs.dirs]
    exact h.proc
  · rw [hs.dirs]
    exact h.root
  · rw [hs.dirs]
    exact h.named d
  · rw [hparent, hname]
    exact h.named_file j
  · obtain ⟨d, hd⟩ := h.dir q hq
    exact ⟨d, (hs.dirOf_iff hq).2 hd⟩
  · rw [hs.dirs] at hd
    obtain ⟨q, hq, hdir⟩ := h.only d hd
    exact ⟨q, hq, (hs.dirOf_iff hq).2 hdir⟩
  · rw [(hs.procs q hq).2.2, hs.pid q hq]
    exact h.piddir q hq
  · rw [hs.dirs]
    exact h.taken d
  · rw [hs.dirs, hs.dirs]
    exact h.segment d e
  · rw [hflags, hparent]
    exact h.taken_file j
  · rw [hparent, hs.dirs]
    exact h.parent j d
  · rw [hparent, hname, hdata]
    exact h.files q d j hq ((hs.dirOf_iff hq).1 hd)
  · obtain ⟨j, hj⟩ := h.stats q d hq ((hs.dirOf_iff hq).1 hd)
    exact ⟨j, by rwa [hparent, hname]⟩
  · rw [hs.pid q hq, hs.pid r hr]
    exact h.early q r d e hq hr ((hs.dirOf_iff hq).1 hd) ((hs.dirOf_iff hr).1 he)
  · rw [hs.pid q hq]
    intro hl hpre
    obtain ⟨r, hr, hdigits⟩ := h.closed q l hq hl hpre
    exact ⟨r, hr, by rw [hs.pid r hr, hdigits]⟩

theorem ProcTree.mono {B : Slot cfg → Prop} (h : ProcTree A k) (hAB : ∀ q, A q ↔ B q) : ProcTree B k := by
  obtain rfl : A = B := funext fun q => propext (hAB q)
  exact h

/-! ## A new directory -/

/-- A pid is not taken for that of a process in `A`, and no other pid for it. -/
def PidFits (A : Slot cfg → Prop) (k : Kernel cfg) (n : ℕ) : Prop :=
  (∀ r, A r → ¬digits n <+: digits (k.procs r).pid) ∧
    ∀ l ∈ (digits n).inits, l ≠ [] → l ≠ digits n → ∃ r, A r ∧ digits (k.procs r).pid = l

/-- The directories before the first free one are in use. -/
theorem freeDir_first (h : freeDir k = some d) {e : Fin bifsMaxDirs} (he : e < d) :
    (k.dirs e).flags ≠ 0 := fun h0 =>
  absurd (le_of_find? (List.pairwise_lt_finRange _) h (List.mem_finRange e) (by simpa using h0)) (not_le.2 he)

namespace Adds

variable {a b : Fin bifsMaxFiles} (h : Adds q d procDir a b k k')

include h

theorem dir_self : k'.dirs d = ⟨bifsReadable, some (.piddir q), some procDir, .bifs⟩ := by
  rw [h.dirs, if_pos rfl]

theorem dir_of_ne {e : Fin bifsMaxDirs} (he : e ≠ d) : k'.dirs e = k.dirs e := by
  rw [h.dirs, if_neg he]

theorem dir_flags {e : Fin bifsMaxDirs} (he : (k.dirs e).flags ≠ 0) : (k'.dirs e).flags ≠ 0 := by
  by_cases hed : e = d
  · subst hed
    rw [h.dir_self]
    exact (by decide : bifsReadable ≠ 0)
  · rwa [h.dir_of_ne hed]

theorem dirOf_self : DirOf k' q d := ⟨h.own.1, h.dir_self⟩

theorem dirOf_new_iff {e : Fin bifsMaxDirs} : DirOf k' q e ↔ e = d :=
  ⟨fun he => Option.some.inj (he.1.symm.trans h.own.1), fun he => he ▸ h.dirOf_self⟩

theorem pid_of (hq : ¬A q) (hr : A r) : (k'.procs r).pid = (k.procs r).pid :=
  (h.others r fun hrq => hq (hrq ▸ hr)).2

section

variable (htree : ProcTree A k)

include htree

theorem procDir_ne : procDir ≠ d := by
  rintro rfl
  have hparent := htree.taken _ (freeDir_some h.free)
  rw [htree.proc.2] at hparent
  cases hparent

theorem bifsRoot_ne : bifsRoot ≠ d := by
  rintro rfl
  refine htree.segment bifsRoot procDir (by decide) (fun h0 => ?_) (freeDir_some h.free)
  have hparent := htree.taken _ h0
  rw [htree.proc.2] at hparent
  cases hparent

/-- A file of the new tables is one of the two that are new, or was there. -/
theorem file_cases {i : Fin bifsMaxFiles} {e : Fin bifsMaxDirs} (hi : (k'.bfiles i).parent = some e) :
    (e = d ∧ ((k'.bfiles i).name = some (ascii "name") ∨
      (k'.bfiles i).name = some (ascii "stats") ∧ (k'.bfiles i).dataquery = .stats q)) ∨
    e ≠ d ∧ (k.bfiles i).parent = some e ∧ (k'.bfiles i).listed = (k.bfiles i).listed := by
  have hparent : (k'.bfiles i).listed.parent = some e := hi
  by_cases hia : i = a
  · subst hia
    rw [h.name] at hparent
    have hname := congrArg Listed.name h.name
    exact .inl ⟨(Option.some.inj hparent).symm, .inl hname⟩
  by_cases hib : i = b
  · subst hib
    rw [h.stats] at hparent
    have hname := congrArg Listed.name h.stats
    have hdata := congrArg Listed.dataquery h.stats
    exact .inl ⟨(Option.some.inj hparent).symm, .inr ⟨hname, hdata⟩⟩
  · have hsame := h.files i hia hib
    rw [hsame] at hparent
    have hparent : (k.bfiles i).parent = some e := hparent
    refine .inr ⟨?_, hparent, hsame⟩
    rintro rfl
    exact htree.parent i e hparent (freeDir_some h.free)

theorem named {e : Fin bifsMaxDirs} (he : (k'.dirs e).parent = some bifsRoot) : (k'.dirs e).name ≠ none := by
  by_cases hed : e = d
  · subst hed
    rw [h.dir_self]
    exact Option.some_ne_none _
  · rw [h.dir_of_ne hed] at he ⊢
    exact htree.named e he

theorem named_file {i : Fin bifsMaxFiles} (hi : (k'.bfiles i).parent = some procDir) :
    (k'.bfiles i).name ≠ none := by
  rcases h.file_cases htree hi with ⟨hed, -⟩ | ⟨-, hparent, hsame⟩
  · exact absurd hed (h.procDir_ne htree)
  · have hname : (k'.bfiles i).name = (k.bfiles i).name := congrArg Listed.name hsame
    rw [hname]
    exact htree.named_file i hparent

theorem taken {e : Fin bifsMaxDirs} (he : (k'.dirs e).flags = 0) : (k'.dirs e).parent = none := by
  by_cases hed : e = d
  · subst hed
    rw [h.dir_self] at he
    cases he
  · rw [h.dir_of_ne hed] at he ⊢
    exact htree.taken e he

/-- The directories before the new one are in use, as it was the first free one. -/
theorem segment {e e' : Fin bifsMaxDirs} (hle : e ≤ e') (he : (k'.dirs e').flags ≠ 0) :
    (k'.dirs e).flags ≠ 0 := by
  by_cases hed : e' = d
  · subst hed
    rcases hle.lt_or_eq with hlt | rfl
    · exact h.dir_flags (freeDir_first h.free hlt)
    · exact he
  · rw [h.dir_of_ne hed] at he
    exact h.dir_flags (htree.segment e e' hle he)

theorem taken_file {i : Fin bifsMaxFiles} (hi : (k'.bfiles i).flags = 0) : (k'.bfiles i).parent = none := by
  have hflags : (k'.bfiles i).listed.flags = 0 := hi
  have hia : i ≠ a := by
    rintro rfl
    rw [h.name] at hflags
    exact absurd hflags (by decide : bifsReadable ||| bifsRaw ≠ 0)
  have hib : i ≠ b := by
    rintro rfl
    rw [h.stats] at hflags
    exact absurd hflags (by decide : bifsReadable ||| bifsRaw ||| bifsTmpfile ≠ 0)
  rw [h.files i hia hib] at hflags
  have hsame : (k'.bfiles i).parent = (k.bfiles i).parent := congrArg Listed.parent (h.files i hia hib)
  rw [hsame]
  exact htree.taken_file i hflags

theorem parent {i : Fin bifsMaxFiles} {e : Fin bifsMaxDirs} (hi : (k'.bfiles i).parent = some e) :
    (k'.dirs e).flags ≠ 0 := by
  rcases h.file_cases htree hi with ⟨rfl, -⟩ | ⟨-, hparent, -⟩
  · rw [h.dir_self]
    exact (by decide : bifsReadable ≠ 0)
  · exact h.dir_flags (htree.parent i e hparent)

variable (hq : ¬A q)

include hq

/-- The directories of the processes in `A` are the same. -/
theorem dirOf_iff (hr : A r) {e : Fin bifsMaxDirs} : DirOf k' r e ↔ DirOf k r e := by
  have hrq : r ≠ q := fun hrq => hq (hrq ▸ hr)
  obtain ⟨e', he'⟩ := htree.dir r hr
  have hne : e' ≠ d := by
    rintro rfl
    have hparent := htree.taken _ (freeDir_some h.free)
    rw [he'.2] at hparent
    cases hparent
  rw [DirOf, DirOf, (h.others r hrq).1.1]
  refine and_congr_right fun hdir => ?_
  obtain rfl : e = e' := Option.some.inj (hdir.symm.trans he'.1)
  rw [h.dir_of_ne hne]

theorem only {e : Fin bifsMaxDirs} (he : (k'.dirs e).parent = some procDir) :
    ∃ r, (A r ∨ r = q) ∧ DirOf k' r e := by
  by_cases hed : e = d
  · subst hed
    exact ⟨q, .inr rfl, h.dirOf_self⟩
  · rw [h.dir_of_ne hed] at he
    obtain ⟨r, hr, hdir⟩ := htree.only e he
    exact ⟨r, .inl hr, (h.dirOf_iff htree hq hr).2 hdir⟩

/-- The directory of a process in `A` has the same files. -/
theorem files_of {e : Fin bifsMaxDirs} {i : Fin bifsMaxFiles} (hr : A r) (he : DirOf k' r e)
    (hi : (k'.bfiles i).parent = some e) :
    (k'.bfiles i).name = some (ascii "name") ∨
      (k'.bfiles i).name = some (ascii "stats") ∧ (k'.bfiles i).dataquery = .stats r := by
  rcases h.file_cases htree hi with ⟨rfl, -⟩ | ⟨-, hparent, hsame⟩
  · exact absurd (ProcTree.dirOf_inj he h.dirOf_self) fun hrq => hq (hrq ▸ hr)
  · have hname : (k'.bfiles i).name = (k.bfiles i).name := congrArg Listed.name hsame
    have hdata : (k'.bfiles i).dataquery = (k.bfiles i).dataquery := congrArg Listed.dataquery hsame
    rw [hname, hdata]
    exact htree.files r e i hr ((h.dirOf_iff htree hq hr).1 he) hparent

/-- And its `stats`, which is none of the files that were free. -/
theorem stats_of {e : Fin bifsMaxDirs} (hr : A r) (he : DirOf k' r e) :
    ∃ i, (k'.bfiles i).parent = some e ∧ (k'.bfiles i).name = some (ascii "stats") := by
  obtain ⟨i, hparent, hname⟩ := htree.stats r e hr ((h.dirOf_iff htree hq hr).1 he)
  have hne : ∀ l, (k.bfiles l).flags = 0 → i ≠ l := by
    rintro l h0 rfl
    have hnone := htree.taken_file i h0
    rw [hparent] at hnone
    cases hnone
  have hsame := h.files i (hne a h.free_name) (hne b h.free_stats)
  exact ⟨i, (congrArg Listed.parent hsame).trans hparent, (congrArg Listed.name hsame).trans hname⟩

/-- The new directory comes before no other. -/
theorem not_before {e : Fin bifsMaxDirs} (hr : A r) (he : DirOf k' r e) : ¬d < e := by
  intro hlt
  have hdir := (h.dirOf_iff htree hq hr).1 he
  have hflags : (k.dirs e).flags ≠ 0 := by
    rw [hdir.2]
    exact (by decide : bifsReadable ≠ 0)
  exact htree.segment d e hlt.le hflags (freeDir_some h.free)

variable (hfits : PidFits A k n) (hn : (k'.procs q).pid = n)

include hfits hn

/-- No pid is found in the directory of another process that comes first. -/
theorem early {r' : Slot cfg} {e e' : Fin bifsMaxDirs} (hr : A r ∨ r = q)
    (hr' : A r' ∨ r' = q) (he : DirOf k' r e)
    (he' : DirOf k' r' e') (hlt : e < e') : ¬digits (k'.procs r').pid <+: digits (k'.procs r).pid := by
  rcases hr with hr | rfl
  · rcases hr' with hr' | rfl
    · rw [h.pid_of hq hr, h.pid_of hq hr']
      exact htree.early r r' e e' hr hr' ((h.dirOf_iff htree hq hr).1 he) ((h.dirOf_iff htree hq hr').1 he') hlt
    · rw [hn, h.pid_of hq hr]
      exact hfits.1 r hr
  · obtain rfl := h.dirOf_new_iff.1 he
    rcases hr' with hr' | rfl
    · exact absurd hlt (h.not_before htree hq hr' he')
    · exact absurd (h.dirOf_new_iff.1 he').symm hlt.ne

/-- What begins a pid is a pid. -/
theorem closed {l : List UInt8} (hr : A r ∨ r = q) (hl : l ≠ []) (hpre : l <+: digits (k'.procs r).pid) :
    ∃ r', (A r' ∨ r' = q) ∧ digits (k'.procs r').pid = l := by
  rcases hr with hr | rfl
  · rw [h.pid_of hq hr] at hpre
    obtain ⟨r', hr', hdigits⟩ := htree.closed r l hr hl hpre
    exact ⟨r', .inl hr', by rw [h.pid_of hq hr', hdigits]⟩
  · rw [hn] at hpre
    by_cases heq : l = digits n
    · exact ⟨r, .inr rfl, by rw [hn, heq]⟩
    · obtain ⟨r', hr', hdigits⟩ := hfits.2 l ((List.mem_inits _ _).2 hpre) hl heq
      exact ⟨r', .inl hr', by rw [h.pid_of hq hr', hdigits]⟩

end

end Adds

/-- With a pid that fits, `/proc` is in order with the new process too. -/
theorem ProcTree.add {a b : Fin bifsMaxFiles} (htree : ProcTree A k) (hq : ¬A q)
    (h : Adds q d procDir a b k k')
    (hfits : PidFits A k n) (hn : (k'.procs q).pid = n) : ProcTree (fun r => A r ∨ r = q) k' where
  proc := by
    rw [h.dir_of_ne (h.procDir_ne htree)]
    exact htree.proc
  root := by
    rw [h.dir_of_ne (h.bifsRoot_ne htree)]
    exact htree.root
  named _ := h.named htree
  named_file _ := h.named_file htree
  dir r hr := by
    rcases hr with hr | rfl
    · obtain ⟨e, he⟩ := htree.dir r hr
      exact ⟨e, (h.dirOf_iff htree hq hr).2 he⟩
    · exact ⟨d, h.dirOf_self⟩
  only _ := h.only htree hq
  piddir r hr := by
    rcases hr with hr | rfl
    · rw [(h.others r fun hrq => hq (hrq ▸ hr)).1.2.2, h.pid_of hq hr]
      exact htree.piddir r hr
    · exact h.own.2.2
  taken _ := h.taken htree
  segment _ _ := h.segment htree
  taken_file _ := h.taken_file htree
  parent _ _ := h.parent htree
  files r e i hr he hi := by
    rcases hr with hr | rfl
    · exact h.files_of htree hq hr he hi
    · rcases h.file_cases htree hi with ⟨-, hnew⟩ | ⟨hed, -, -⟩
      · exact hnew
      · exact absurd (h.dirOf_new_iff.1 he) hed
  stats r e hr he := by
    rcases hr with hr | rfl
    · exact h.stats_of htree hq hr he
    · obtain rfl := h.dirOf_new_iff.1 he
      exact ⟨b, congrArg Listed.parent h.stats, congrArg Listed.name h.stats⟩
  early _ _ _ _ hr hr' he he' := h.early htree hq hfits hn hr hr' he he'
  closed _ _ hr hl hpre := h.closed htree hq hfits hn hr hl hpre

instance [DecidablePred A] : Decidable (PidFits A k n) := inferInstanceAs (Decidable (_ ∧ _))

/-! ## init_procfs_files -/

/-- A directory and two files are free. -/
def Roomy (k : Kernel cfg) : Prop := (∃ d, (k.dirs d).flags = 0) ∧ TwoFiles k

instance : Decidable (Roomy k) := inferInstanceAs (Decidable (_ ∧ ∃ i j, i ≠ j ∧ _ ∧ _))

theorem sameEntries_named (hq : ¬A q) : SameEntries A k (k.named q n) := by
  have hne : ∀ r, A r → r ≠ q := fun r hr hrq => hq (hrq ▸ hr)
  refine ⟨fun _ => rfl, fun _ => rfl, fun r hr => ?_, fun r hr => ?_⟩
  · simp [Kernel.named, Kernel.setProc, hne r hr, Part.SameProc]
  · simp [Kernel.named, Kernel.setProc, hne r hr]

/-- `/proc` is found as a path. -/
theorem bifsOpendirpath_proc
    (h : bifsOpendir bifsRoot (ascii "proc") 0 (ascii "proc").length k = .ok (some procDir) k) :
    bifsOpendirpath (ascii "/proc") (ascii "/proc").length k = .ok (some procDir) k := by
  have hpath : ascii "/proc" = pathOf [ascii "proc"] ++ [] := by decide
  have hlen : (ascii "/proc").length = (pathOf [ascii "proc"]).length := by decide
  rw [hlen, hpath, bifsOpendirpath_pathOf (.inl rfl) (by simp) (by simpa using isComponent_proc),
    descend, bind_ok h]
  rfl

theorem ProcTree.opendirpath_proc (h : ProcTree A k) :
    bifsOpendirpath (ascii "/proc") (ascii "/proc").length k = .ok (some procDir) k :=
  bifsOpendirpath_proc h.opendir_proc

namespace SameEntries

theorem roomy (h : SameEntries A k k') (hroom : Roomy k) : Roomy k' := by
  have hflags : ∀ j, (k'.bfiles j).flags = (k.bfiles j).flags := fun j => congrArg Listed.flags (h.files j)
  obtain ⟨⟨d, hd⟩, i, j, hij, hi, hj⟩ := hroom
  exact ⟨⟨d, by rw [h.dirs, hd]⟩, i, j, hij, by rw [hflags, hi], by rw [hflags, hj]⟩

end SameEntries

/-! ## Forks -/

/-- A call of `proc_fork` finds room in the tables, if the process gets its pages,
    and its pid fits. -/
def ForksInOrder (k : Kernel cfg) : Prop :=
  pagesNeeded cfg ≤ countFreePages k → Roomy k ∧ PidFits (Unexited k) k (k.pidCounter % 2 ^ 32)

instance : Decidable (ForksInOrder k) := inferInstanceAs (Decidable (_ → _ ∧ _))

/-- Room for the entries is room for a process. -/
theorem ProcTree.procfsRoom (h : ProcTree A k) (hq : ¬A q) (hroom : Roomy k) : ProcfsRoom k q n :=
  ⟨⟨procDir, (h.congr (sameEntries_named hq)).opendirpath_proc⟩, hroom⟩

/-- `proc_fork`, when it returns, where forks are in order. -/
theorem procFork_tree {r : ℤ} (hk : Calm p k) (hcpu : k.core.cpuProc = some p)
    (htree : ProcTree (Unexited k) k)
    (hfork : ForksInOrder k) (h : procFork p k = .ok r k') : ProcTree (Unexited k') k' := by
  have hgone : ∀ {q}, freeSlot k = some q → ¬Unexited k q := fun hslot hq =>
    hq (.inr (freeSlot_ne hcpu hslot).2)
  cases procFork_entries hk hcpu h with
  | @short q frame hslot hsame hcore =>
    have hq := hgone hslot
    have hne : ∀ l, Unexited k l → l ≠ q := fun l hl hlq => hq (hlq ▸ hl)
    have hstate : ∀ l, (k'.procs l).state = (k.procs l).state := by
      intro l
      rw [← Kernel.core_procs, hcore, Core.numbered_state, Kernel.core_procs]
    refine (htree.congr (hsame.mono hne)).mono fun l => ?_
    rw [Unexited, Unexited, hstate]
  -- There is room for the entries of one process more, so that it does not fail so
  -- late.
  | full hslot hpages hroom => exact absurd (htree.procfsRoom (hgone hslot) (hfork hpages).1) hroom
  | @done q d e i j frame frame' frame'' hslot hpages hadds hopen hcore =>
    have hq := hgone hslot
    obtain rfl : procDir = e := by
      rw [(htree.congr (sameEntries_named hq)).opendirpath_proc] at hopen
      simpa using hopen
    have hpid : (k'.procs q).pid = k.pidCounter % 2 ^ 32 := by
      rw [← Kernel.core_procs, hcore, Core.forked_pid]
      rfl
    refine (htree.add hq hadds (hfork hpages).2 hpid).mono fun l => ?_
    have hstate : (k'.procs l).state = if l = q then .ready else (k.procs l).state := by
      rw [← Kernel.core_procs, hcore, Core.forked_state, Kernel.core_procs]
    by_cases hl : l = q
    · rw [if_pos hl] at hstate
      have hlive : Unexited k' l := by simp [Unexited, hstate, PState.isGone]
      exact ⟨fun _ => hlive, fun _ => .inr hl⟩
    · simp [Unexited, hstate, hl]

/-! ## Steps -/

/-- No process exits; where `forks` is false, none forks either. -/
def noExitRule (forks : Bool) (_ : Core cfg) : Deed cfg → Prop
  | .exit _ => False
  | .reap .. => True
  | .fork _ | .half .. => forks = true

/-- No process has exited and is still there. -/
def NoZombie (s : Core cfg) : Prop := ∀ q, (s.procs q).state ≠ .zombie

namespace NoZombie

variable {s t : Core cfg} {b : Bool}

theorem setState {new : PState} {site : Site cfg} (h : NoZombie s) (hnew : new ≠ .zombie) :
    NoZombie (s.setState q new site) := by
  intro r
  by_cases hr : r = q
  · subst hr
    rwa [Core.setState_procs_self]
  · rw [Core.setState_procs_of_ne _ _ _ hr]
    exact h r

theorem alike (h : NoZombie s) (ha : Alike s t) : NoZombie t := fun q => by
  rw [ha.state]
  exact h q

theorem newPid (h : NoZombie s) : NoZombie (s.newPid q) := by
  intro r
  by_cases hr : r = q
  · subst hr
    simpa [Core.newPid] using h r
  · simpa [Core.newPid, hr] using h r

theorem fresh {frame : TrapFrame} (h : NoZombie s) : NoZombie (s.fresh q frame) := by
  intro r
  by_cases hr : r = q
  · subst hr
    simp [Core.fresh]
  · simpa [Core.fresh, hr] using h r

theorem move (h : NoZombie s) (hm : Move (noExitRule b) s t) : NoZombie t := by
  cases hm with
  | alike ha => exact h.alike ha
  | wake _ | run _ => exact h.setState (by simp)
  | leave _ _ hnew => exact h.setState (by rcases hnew with rfl | rfl <;> simp)
  | exit hd => exact hd.elim
  | reap _ _ hz _ => exact absurd hz (h _)
  | deliver _ _ _ hz => exact absurd hz (h _)
  | waited => exact h
  | number ha _ _ => exact (h.alike ha).newPid
  | half ha _ _ _ => exact (h.alike ha).newPid.fresh
  | @created p q t frame frame' ha _ _ _ _ =>
    have hfresh : NoZombie ((t.newPid q).fresh q frame) := (h.alike ha).newPid.fresh
    intro r
    by_cases hr : r = q
    · subst hr
      simpa [Core.counted, Core.adopted] using hfresh r
    · simpa [Core.counted, Core.adopted, hr] using hfresh r
  | @detach p =>
    intro r
    by_cases hr : r = p
    · subst hr
      simpa using h r
    · simpa [hr] using h r

end NoZombie

/-- The same processes are there, with their pids. -/
structure SamePids (s t : Core cfg) : Prop where
  gone : ∀ q, (t.procs q).state.isGone ↔ (s.procs q).state.isGone
  pid : ∀ q, (t.procs q).pid = (s.procs q).pid

namespace SamePids

variable {s t u : Core cfg}

theorem setState {new : PState} {site : Site cfg} (hold : ¬(s.procs q).state.isGone) (hnew : ¬new.isGone) :
    SamePids s (s.setState q new site) := by
  refine ⟨fun r => ?_, fun r => ?_⟩
  · by_cases hr : r = q
    · subst hr
      rw [Core.setState_procs_self]
      exact iff_of_false hnew hold
    · rw [Core.setState_procs_of_ne _ _ _ hr]
  · by_cases hr : r = q
    · subst hr
      rw [Core.setState_procs_self]
    · rw [Core.setState_procs_of_ne _ _ _ hr]

theorem trans (h : SamePids s t) (h' : SamePids t u) : SamePids s u :=
  ⟨fun q => (h'.gone q).trans (h.gone q), fun q => (h'.pid q).trans (h.pid q)⟩

theorem move (hz : NoZombie s) (hm : Move (noExitRule false) s t) : SamePids s t := by
  cases hm with
  | alike ha => exact ⟨fun q => by rw [ha.state], ha.pid⟩
  | wake hq | run hq => exact setState (by rw [hq]; simp [PState.isGone]) (by simp [PState.isGone])
  | leave _ hp hnew =>
    refine setState (by rw [hp]; simp [PState.isGone]) ?_
    rcases hnew with rfl | rfl <;> simp [PState.isGone]
  | exit hd => exact hd.elim
  | reap _ _ hq _ => exact absurd hq (hz _)
  | deliver _ _ _ hq => exact absurd hq (hz _)
  | waited => exact ⟨fun _ => Iff.rfl, fun _ => rfl⟩
  | number _ hd _ | half _ hd _ _ | created _ hd _ _ _ => exact absurd hd Bool.false_ne_true
  | @detach p =>
    refine ⟨fun r => ?_, fun r => ?_⟩
    · by_cases hr : r = p
      · subst hr
        simp
      · simp [hr]
    · by_cases hr : r = p
      · subst hr
        simp
      · simp [hr]

/-- A sequence of moves without a fork or an exit. -/
theorem moves (hz : NoZombie s) (hm : Moves (noExitRule false) s t) : SamePids s t :=
  (hm.invariant (I := fun u => NoZombie u ∧ SamePids s u) ⟨hz, fun _ => Iff.rfl, fun _ => rfl⟩
    fun hu hmove => ⟨hu.1.move hmove, hu.2.trans (.move hu.1 hmove)⟩).2

end SamePids

/-! ## Runs -/

/-- `/proc` shows the processes, and none has exited. -/
structure Populated (k : Kernel cfg) : Prop where
  tree : ProcTree (Unexited k) k
  living : NoZombie k.core

/-- No process exits, and forks are in order. -/
def KeepsProcfs (_ : Slot cfg) (k : Kernel cfg) : Call → Prop
  | .exit => False
  | .fork => ForksInOrder k
  | _ => True

instance (p : Slot cfg) (k : Kernel cfg) : DecidablePred (KeepsProcfs p k)
  | .exit => .isFalse id
  | .fork => inferInstanceAs (Decidable (ForksInOrder k))
  | .read .. | .write .. | .open _ | .close _ | .wait _ | .execv .. | .getpid | .dup _ | .pipe _
  | .sysinfo _ | .sleep _ | .plist .. | .pinfo .. | .pgalloc | .pgfree _ | .gpio .. | .detach | .isopen _
  | .pipeattch .. | .lsdir .. => .isTrue trivial

namespace Populated

theorem quiet (h : Populated k) (hsame : ∀ x ∈ ({.dirs, .bfiles, .procfs} : Set Part), x.Same k k')
    (hm : Moves (noExitRule false) k.core k'.core) : ProcTree (Unexited k') k' := by
  have hpids := SamePids.moves h.living hm
  refine (h.tree.mono fun q => ?_).congr (.of_parts hsame fun q _ => hpids.pid q)
  exact not_congr (hpids.gone q).symm

theorem step {e : Event cfg} (hb : Base m) (h : Populated m.k) (hC : OnCall KeepsProcfs m e)
    (hs : KernelStep m e k') : Populated k' := by
  have hexit : ∀ p, Does m e (.exit p) → False := by
    intro p hd
    cases hd with
    | exit hp hc => exact hC p hp _ hc
  have hliving : NoZombie k'.core := by
    refine (hs.moves (R := noExitRule true) hb fun d hd => ?_).invariant h.living fun hu hm => hu.move hm
    cases d with
    | exit p => exact hexit p hd
    | reap => trivial
    | fork | half => rfl
  refine ⟨?_, hliving⟩
  -- A step that is no fork.
  have hmoves : (∀ p, Does m e (.fork p) → False) → Moves (noExitRule false) m.k.core k'.core := by
    refine fun hfork => hs.moves hb fun d hd => ?_
    cases d with
    | exit p => exact hexit p hd
    | reap => trivial
    | fork p => exact (hfork p hd).elim
    | half p q =>
      cases hd with
      | half hp hc _ _ => exact (hfork p (.fork hp hc)).elim
  cases hs with
  | aside hsame ha => exact h.quiet (fun x _ => hsame x) ha.moves
  | plic _ _ hsame hw => exact h.quiet (by rintro x (rfl | rfl | rfl) <;> exact hsame _ (by simp)) (.wakes hw)
  | resume _ _ hend _ hsame _ _ =>
    refine h.quiet ?_ (hmoves fun _ hd => by cases hd)
    rintro x (rfl | rfl | rfl) <;>
      exact (same_resumed hend (by simp [resumeParts])).trans (hsame _)
  | @call p c how k₁ _ hp hcalm hc hend he hsame hcore =>
    have hguard := hC p hp.cpu c hc
    have htrap : ∀ x : Part, x.Same m.k ((trap m).entry p) := fun _ => Part.same_of_parts rfl
    have hother : c ≠ .fork → (∀ x ∈ ({.dirs, .bfiles, .procfs} : Set Part), x ∉ c.parts) →
        ProcTree (Unexited k') k' := by
      intro hfork hparts
      refine h.quiet (fun x hx => ?_) (hmoves fun q hd => ?_)
      · exact ((htrap x).trans (hend.same (frame_runCall p c) (hparts x hx))).trans (hsame x)
      · cases hd with
        | fork hq hcq =>
          obtain rfl : p = q := Option.some.inj (hp.cpu.symm.trans hq)
          exact hfork (Option.some.inj (hc.symm.trans hcq))
    cases c with
    | exit => exact hguard.elim
    | fork =>
      have hentry : ProcTree (Unexited ((trap m).entry p)) ((trap m).entry p) :=
        (h.tree.mono fun _ => Iff.rfl).congr
          ⟨fun _ => rfl, fun _ => rfl, fun _ _ => .refl _, fun _ _ => rfl⟩
      cases hend with
      | back hr =>
        have htree := procFork_tree hcalm hp.cpu hentry hguard hr
        have hprocs : k'.core.procs = k₁.core.procs := by
          rw [hcore]
          rfl
        have hproc : ∀ q, (k'.procs q).toPCore = (k₁.procs q).toPCore := fun q => congrFun hprocs q
        refine (htree.mono fun q => ?_).congr (.of_parts (fun x _ => hsame x) fun q _ =>
          congrArg PCore.pid (hproc q))
        rw [Unexited, Unexited, congrArg PCore.state (hproc q)]
      | away _ => exact (he.not_away rfl (by simp) (by simp) (by simp)).elim
    | _ => exact hother (by simp) (by rintro x (rfl | rfl | rfl) <;> simp [Call.parts])

/-- The tables that `bifs_init` makes have no process in `/proc`. -/
theorem empty (cfg : Config) (mem : ℕ → UInt8) : ProcTree (fun _ => False) (initKernel cfg mem) := by
  have hdirs : ∀ d : Fin bifsMaxDirs,
      ((initDirs cfg d).parent ≠ none → (initDirs cfg d).name ≠ none) ∧
      (initDirs cfg d).parent ≠ some procDir ∧
      ((initDirs cfg d).flags = 0 → (initDirs cfg d).parent = none) ∧
      ((initDirs cfg d).flags ≠ 0 ↔ d < 4) := by
    intro d
    unfold initDirs
    split
    · simp
    · simp [bifsMaxDirs]
    · simp [bifsMaxDirs]
    · simp [bifsMaxDirs]
    · rename_i h0 h1 h2 h3
      have hlt := (by decide : ∀ d : Fin bifsMaxDirs, d ≠ 0 → d ≠ 1 → d ≠ 2 → d ≠ 3 → ¬d < 4)
        d h0 h1 h2 h3
      simp [hlt]
  have hfiles : ∀ j : Fin bifsMaxFiles,
      ((initFiles cfg j).parent ≠ none → (initFiles cfg j).name ≠ none) ∧
      ((initFiles cfg j).flags = 0 → (initFiles cfg j).parent = none) ∧
      ∀ d, (initFiles cfg j).parent = some d → d < 4 := by
    intro j
    unfold initFiles rawFile
    split <;> simp [bifsMaxDirs, bifsRaw, bifsReadable]
  refine ⟨⟨rfl, rfl⟩, rfl, fun d hd => (hdirs d).1 ?_, fun j hj => (hfiles j).1 ?_,
    nofun, fun d hd => ?_, nofun,
    fun d => (hdirs d).2.2.1, fun d e hle he => ?_, fun j => (hfiles j).2.1,
    fun j d hj => ?_, nofun, nofun, nofun,
    nofun⟩
  · rw [show (initDirs cfg d).parent = some bifsRoot from hd]
    exact Option.some_ne_none _
  · rw [show (initFiles cfg j).parent = some procDir from hj]
    exact Option.some_ne_none _
  · exact absurd hd (hdirs d).2.1
  · exact (hdirs d).2.2.2.2 (lt_of_le_of_lt hle ((hdirs e).2.2.2.1 he))
  · exact (hdirs d).2.2.2.2 ((hfiles j).2.2 d hj)

theorem boot {mem : ℕ → UInt8} (h : kinit (initKernel cfg mem) = .ok () k) : Populated k := by
  obtain ⟨p, d, e, i, j, hadds, hopen, hstate, hpid⟩ := kinit_entries h
  have hempty := empty cfg mem
  obtain rfl : procDir = e := by
    rw [(hempty.congr (sameEntries_named not_false)).opendirpath_proc] at hopen
    simpa using hopen
  have hfits : PidFits (fun _ => False) (initKernel cfg mem) 0 := by
    refine ⟨nofun, ?_⟩
    have hzero : ∀ l ∈ (digits 0).inits, l ≠ [] → l ≠ digits 0 → False := by decide
    exact fun l hl hne hneq => (hzero l hl hne hneq).elim
  refine ⟨(hempty.add not_false hadds hfits hpid).mono fun q => ?_, fun q => ?_⟩
  · rw [Unexited, hstate]
    split_ifs with hq
    · simp [hq, PState.isGone]
    · simp [hq, PState.isGone]
  · rw [Kernel.core_procs, hstate]
    split_ifs <;> simp

end Populated

/-- In runs without an exit, where forks find room in the tables and give pids
    that are not taken for one another, `/proc` agrees with the processes. -/
theorem procfs_agrees (h : Reach (machine cfg) (OnCall KeepsProcfs) m) (hm : ∀ why, m.mode ≠ .halted why) :
    ProcfsAgrees m.k :=
  (kernel_of_reach_running (I := Populated) (fun hk => .boot hk) (fun hb hI hC hs => hI.step hb hC hs)
    h hm).tree.agrees

/-- The first process forks. -/
theorem fork_procfs_agrees : ∃ m : Machine .qemuE, Reach (machine .qemuE) (OnCall KeepsProcfs) m ∧
    (decimalPids m.k).length = 2 ∧ ProcfsAgrees m.k := by
  have h : ∃ m ∈ run (OnCall KeepsProcfs) (machine .qemuE) ([Event.kernel, .kernel] ++ calls 2 0 0 0 [])
      (boot .qemuE fun _ => 0), m.mode = .user ∧ (decimalPids m.k).length = 2 := by
    decide +kernel
  obtain ⟨m, hm, hmode, hpids⟩ := h
  have hr : Reach (machine .qemuE) (OnCall KeepsProcfs) m := Reach.of_run _ ⟨_, rfl⟩ hm
  exact ⟨m, hr, hpids, procfs_agrees hr (by simp [hmode])⟩

/-- A process that has exited, and that its parent has not waited for, is found. -/
theorem exited_process_listed :
    ¬∀ m : Machine .qemuE, Reach (machine .qemuE) free m → (∀ why, m.mode ≠ .halted why) →
    ProcfsAgrees m.k := by
  have h : ∃ m ∈ runFrom .qemuE ([Event.kernel, .kernel] ++ calls 2 0 0 0 [] ++ calls 7 0 0 0 [] ++
      [Event.kernel, .kernel] ++ calls 1 0 0 0 []), m.mode = .sched 2 1 false ∧
        (∃ j, value (bifsOpen (statsPath 1) m.k) = some (.inr j)) ∧ ∀ q, Unexited m.k q →
        (m.k.procs q).pid ≠ 1 := by
    decide +kernel
  obtain ⟨m, hm, hmode, ⟨j, hj⟩, hno⟩ := h
  intro hall
  obtain ⟨k', hopen⟩ := value_eq_some hj
  obtain ⟨q, hq, hpid⟩ :=
    ((hall m (reach_of_runFrom hm) (by simp [hmode])).opens 1 (by decide)).1 ⟨j, k', hopen⟩
  exact hno q hq hpid

end HobbyOs
