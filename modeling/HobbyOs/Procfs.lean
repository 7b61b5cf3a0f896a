import HobbyOs.KernelStep
import HobbyOs.Moves
import HobbyOs.Paths

/-!
# The directories of processes

Every process has a directory in `/proc`, named by its pid, with two files. What
`proc_fork` adds to the tables of the baked-in file system stays there: an exit
marks the directory and one file as free, and neither the lookups nor the
listing ask for that mark.

* `ProcTree`: the part of the tables under `/proc`, where no process has exited;
* `ProcTree.agrees`: then `/proc` lists the processes, and `/proc/<pid>/stats` is
  found for these only.
-/

namespace HobbyOs

open Outcome Transition

variable {cfg : Config} {p q r : Slot cfg} {k k' : Kernel cfg} {m m' : Machine cfg} {pid : ℕ}

/-! ## Decimal numbers -/

theorem digits_ne_nil (n : ℕ) : digits n ≠ [] := by
  simp [digits, Nat.toDigits_ne_nil]

theorem toNat_of_mem_toDigits {n : ℕ} {c : Char} (hc : c ∈ Nat.toDigits 10 n) :
    48 ≤ c.toNat ∧ c.toNat ≤ 57 := by
  have h := Nat.isDigit_of_mem_toDigits (by decide) (by decide) hc
  simp only [Char.isDigit, Bool.and_eq_true, decide_eq_true_eq, ge_iff_le, UInt32.le_iff_toNat_le] at h
  exact h

theorem digits_inj {m n : ℕ} (h : digits m = digits n) : m = n := by
  have hinj : ∀ c ∈ Nat.toDigits 10 m, ∀ d ∈ Nat.toDigits 10 n, c.toNat.toUInt8 = d.toNat.toUInt8 →
      c = d := by
    intro c hc d hd hcd
    have hc := toNat_of_mem_toDigits hc
    have hd := toNat_of_mem_toDigits hd
    have hcd := congrArg UInt8.toNat hcd
    simp only [Nat.toUInt8, UInt8.toNat_ofNat'] at hcd
    exact Char.toNat_inj.1 (by omega)
  have hlist : ∀ l l' : List Char,
      (∀ c ∈ l, ∀ d ∈ l', c.toNat.toUInt8 = d.toNat.toUInt8 → c = d) →
      l.map (fun c => c.toNat.toUInt8) = l'.map (fun c => c.toNat.toUInt8) → l = l' := by
    intro l
    induction l with
    | nil =>
      intro l' _ h
      cases l' with
      | nil => rfl
      | cons d l' => cases h
    | cons c l ih =>
      intro l' hinj h
      cases l' with
      | nil => cases h
      | cons d l' =>
        obtain ⟨hcd, hrest⟩ := List.cons.inj h
        rw [hinj c (by simp) d (by simp) hcd,
          ih l' (fun x hx y hy => hinj x (by simp [hx]) y (by simp [hy])) hrest]
  have heq := hlist _ _ hinj h
  rw [← Nat.ofDigitChars_ten_toDigits (n := m), heq, Nat.ofDigitChars_ten_toDigits]

theorem isComponent_digits {n : ℕ} (h : n < 2 ^ 32) : IsComponent (digits n) where
  ne_nil := digits_ne_nil n
  slash hmem := by
    obtain ⟨c, hc, hslash⟩ := List.mem_map.1 hmem
    have hc := toNat_of_mem_toDigits hc
    have hslash := congrArg UInt8.toNat hslash
    simp only [Nat.toUInt8, UInt8.toNat_ofNat', slash] at hslash
    have h47 : UInt8.toNat 47 = 47 := rfl
    omega
  length_lt := by
    have hlen : (Nat.toDigits 10 n).length ≤ 15 :=
      (Nat.length_toDigits_le_iff (by decide) (by decide)).2 (by omega)
    rw [digits, List.length_map]
    omega

/-! ## Listings -/

/-- The entries among those that `lsdirLoop` goes through. -/
def present (es : List (Option (ℕ × Option (List UInt8)))) : List (ℕ × List UInt8) :=
  es.filterMap fun e => e.bind fun x => x.2.map fun name => (x.1, name)

/-- The memory after entries were stored, from the `n`-th `dirent_t` on. -/
def storeDirents (dirents : ℕ) : ℕ → List (ℕ × List UInt8) → (ℕ → UInt8) → ℕ → UInt8
  | _, [], mem => mem
  | n, e :: es, mem => storeDirents dirents (n + 1) es
      (storeBytes mem (dirents + 20 * n) (bytesOfWord e.1 4 ++ strncpy e.2 maxFilenameLen))

/-- At each of the entries, present or not, there is room for one more. -/
def Fits (size : ℕ) : ℕ → List (Option (ℕ × Option (List UInt8))) → Prop
  | _, [] => True
  | n, e :: es => n < size ∧ Fits size (n + (present [e]).length) es

theorem present_cons (e : Option (ℕ × Option (List UInt8)))
    (es : List (Option (ℕ × Option (List UInt8)))) :
    present (e :: es) = present [e] ++ present es :=
  List.filterMap_append (l := [e])

/-- There is room for all of them, but for the last one if need be. -/
theorem fits_iff {size : ℕ} {es : List (Option (ℕ × Option (List UInt8)))} (hes : es ≠ []) (n : ℕ) :
    Fits size n es ↔ n + (present es.dropLast).length < size := by
  induction es generalizing n with
  | nil => exact absurd rfl hes
  | cons e es ih =>
    cases es with
    | nil => exact and_iff_left trivial
    | cons e' es =>
      rw [Fits, ih (List.cons_ne_nil e' es), List.dropLast_cons_cons, present_cons e (e' :: es).dropLast,
        List.length_append]
      omega

theorem fits_of_lt {size : ℕ} {es : List (Option (ℕ × Option (List UInt8)))} {n : ℕ}
    (h : n + (present es).length < size) : Fits size n es := by
  induction es generalizing n with
  | nil => trivial
  | cons e es ih =>
    rw [present_cons, List.length_append] at h
    exact ⟨by omega, ih (by omega)⟩

/-- With room for them, the loop stores the entries one after the other. -/
theorem lsdirLoop_apply {dirents size : ℕ} {es : List (Option (ℕ × Option (List UInt8)))}
    (hd : dirents ≠ 0 ∨ present es = []) (hnames : ∀ flags, some (flags, none) ∉ es) {n : ℕ}
    (hfits : Fits size n es) :
    lsdirLoop dirents size es n k = .ok ((n + (present es).length : ℕ) : ℤ)
      { k with mem := storeDirents dirents n (present es) k.mem } := by
  induction es generalizing n k with
  | nil => rfl
  | cons e es ih =>
    have hnames' : ∀ flags, some (flags, none) ∉ es :=
      fun flags h => hnames flags (List.mem_cons_of_mem e h)
    match e with
    | none =>
      rw [lsdirLoop, if_neg (Nat.not_le.2 hfits.1)]
      exact ih hd hnames' hfits.2
    | some (flags, none) => exact absurd List.mem_cons_self (hnames flags)
    | some (flags, some name) =>
      have hlen : (present (some (flags, some name) :: es)).length = (present es).length + 1 := rfl
      have hd' : dirents ≠ 0 := hd.resolve_right (List.cons_ne_nil _ _)
      rw [lsdirLoop, if_neg (Nat.not_le.2 hfits.1), if_neg hd', hlen,
        show n + ((present es).length + 1) = n + 1 + (present es).length by omega]
      exact ih (.inl hd') hnames' hfits.2

/-- Without, it fails. -/
theorem lsdirLoop_full {dirents size : ℕ} {es : List (Option (ℕ × Option (List UInt8)))}
    (hd : dirents ≠ 0 ∨ size = 0) (hnames : ∀ flags, some (flags, none) ∉ es) {n : ℕ}
    (hfits : ¬Fits size n es) :
    ∃ k', lsdirLoop dirents size es n k = .ok (-ENOBUFS) k' := by
  induction es generalizing n k with
  | nil => exact absurd trivial hfits
  | cons e es ih =>
    have hnames' : ∀ flags, some (flags, none) ∉ es :=
      fun flags h => hnames flags (List.mem_cons_of_mem e h)
    by_cases hsize : size ≤ n
    · refine ⟨k, ?_⟩
      rw [lsdirLoop.eq_def]
      dsimp only
      rw [if_pos hsize]
      rfl
    · have hrest : ¬Fits size (n + (present [e]).length) es := fun h => hfits ⟨by omega, h⟩
      rcases e with _ | ⟨flags, _ | name⟩
      · rw [lsdirLoop, if_neg hsize]
        exact ih hnames' hrest
      · exact absurd List.mem_cons_self (hnames flags)
      · rw [lsdirLoop, if_neg hsize, if_neg (hd.resolve_right (by omega))]
        exact ih hnames' hrest

/-- At a null pointer, the first entry faults. -/
theorem lsdirLoop_null {size : ℕ} {es : List (Option (ℕ × Option (List UInt8)))} {n : ℕ}
    (hnames : ∀ flags, some (flags, none) ∉ es) (hsize : n < size) (hes : present es ≠ []) :
    ∃ k', lsdirLoop 0 size es n k = .error .fault k' := by
  induction es with
  | nil => exact absurd rfl hes
  | cons e es ih =>
    match e with
    | none =>
      rw [lsdirLoop, if_neg (Nat.not_le.2 hsize)]
      exact ih (fun flags h => hnames flags (List.mem_cons_of_mem none h)) hes
    | some (flags, none) => exact absurd List.mem_cons_self (hnames flags)
    | some (flags, some name) =>
      rw [lsdirLoop, if_neg (Nat.not_le.2 hsize)]
      exact ⟨k, rfl⟩

/-! ## The tree of `/proc` -/

/-- The directory `/proc`. -/
abbrev procDir : Fin bifsMaxDirs := 1

/-- The path of the file `stats` of a process. -/
def statsPath (pid : ℕ) : List UInt8 := pathOf [ascii "proc", digits pid, ascii "stats"]

/-- The directory `d` is that of the process in `q`. -/
def DirOf (k : Kernel cfg) (q : Slot cfg) (d : Fin bifsMaxDirs) : Prop :=
  (k.procs q).procfsDir = some d ∧ k.dirs d = ⟨bifsReadable, some (.piddir q), some procDir, .bifs⟩

/-- The tables of the baked-in file system, where the processes in `A` have their
    directories in `/proc`, and none has exited. -/
structure ProcTree (A : Slot cfg → Prop) (k : Kernel cfg) : Prop where
  proc : (k.dirs procDir).name = some (.lit (ascii "proc")) ∧ (k.dirs procDir).parent = some bifsRoot
  root : (k.dirs bifsRoot).parent = none
  named : ∀ d, (k.dirs d).parent = some bifsRoot → (k.dirs d).name ≠ none
  named_file : ∀ j, (k.bfiles j).parent = some procDir → (k.bfiles j).name ≠ none
  dir : ∀ q, A q → ∃ d, DirOf k q d
  only : ∀ d, (k.dirs d).parent = some procDir → ∃ q, A q ∧ DirOf k q d
  piddir : ∀ q, A q → (k.procs q).piddir = digits (k.procs q).pid
  /-- Directories and files are in use if they are in a directory that is. -/
  taken : ∀ d, (k.dirs d).flags = 0 → (k.dirs d).parent = none
  segment : ∀ d e, d ≤ e → (k.dirs e).flags ≠ 0 → (k.dirs d).flags ≠ 0
  taken_file : ∀ j, (k.bfiles j).flags = 0 → (k.bfiles j).parent = none
  parent : ∀ j d, (k.bfiles j).parent = some d → (k.dirs d).flags ≠ 0
  files : ∀ q d j, A q → DirOf k q d → (k.bfiles j).parent = some d →
    (k.bfiles j).name = some (ascii "name") ∨
      (k.bfiles j).name = some (ascii "stats") ∧ (k.bfiles j).dataquery = .stats q
  stats : ∀ q d, A q → DirOf k q d → ∃ j, (k.bfiles j).parent = some d ∧
    (k.bfiles j).name = some (ascii "stats")
  /-- A pid is not found in the directory of another process that comes first. -/
  early : ∀ q r d e, A q → A r → DirOf k q d → DirOf k r e → d < e →
    ¬digits (k.procs r).pid <+: digits (k.procs q).pid
  /-- What is found for a text is the directory of a process with this pid. -/
  closed : ∀ q l, A q → l ≠ [] → l <+: digits (k.procs q).pid →
    ∃ r, A r ∧ digits (k.procs r).pid = l

/-- What is found first in a sorted list is the least. -/
theorem le_of_find? {n : ℕ} {l : List (Fin n)} {P : Fin n → Bool} {i j : Fin n} (hl : l.Pairwise (· < ·))
    (h : l.find? P = some i) (hj : j ∈ l) (hP : P j = true) : i ≤ j := by
  induction hl with
  | nil => cases hj
  | @cons x l hx _ ih =>
    rcases List.mem_cons.1 hj with rfl | hj
    · rw [List.find?_cons_of_pos hP] at h
      exact (Option.some.inj h).ge
    · cases hPx : P x with
      | true =>
        rw [List.find?_cons_of_pos hPx] at h
        obtain rfl := Option.some.inj h
        exact (hx j hj).le
      | false =>
        rw [List.find?_cons_of_neg (by simp [hPx])] at h
        exact ih h hj

theorem isComponent_proc : IsComponent (ascii "proc") := ⟨by decide, by decide, by decide⟩

theorem isComponent_stats : IsComponent (ascii "stats") := ⟨by decide, by decide, by decide⟩

/-- `/proc` is found, where it is the first directory of its name in `/`. -/
theorem bifsOpendir_proc
    (hproc : (k.dirs procDir).name = some (.lit (ascii "proc")) ∧ (k.dirs procDir).parent = some bifsRoot)
    (hnamed : ∀ d, (k.dirs d).parent = some bifsRoot → (k.dirs d).name ≠ none) :
    bifsOpendir bifsRoot (ascii "proc") 0 (ascii "proc").length k = .ok (some procDir) k := by
  rw [bifsOpendir_apply isComponent_proc hnamed]
  have hfirst : (List.finRange bifsMaxDirs).drop 1 = procDir :: (List.finRange bifsMaxDirs).drop 2 := by decide
  have htext : dirText k procDir = ascii "proc" := by
    rw [dirText, hproc.1]
    rfl
  rw [hfirst, List.find?_cons_of_pos]
  simp [hproc.2, htext]

namespace ProcTree

variable {A : Slot cfg → Prop}

theorem opendir_proc (h : ProcTree A k) :
    bifsOpendir bifsRoot (ascii "proc") 0 (ascii "proc").length k = .ok (some procDir) k :=
  bifsOpendir_proc h.proc h.named

/-- A directory in `/proc`. -/
theorem descend_proc (h : ProcTree A k) {c : List UInt8} {o : Option (Fin bifsMaxDirs)}
    (ho : bifsOpendir procDir c 0 c.length k = .ok o k) : descend bifsRoot [ascii "proc", c] k = .ok o k := by
  rw [descend, bind_ok h.opendir_proc]
  dsimp only
  rw [descend, bind_ok ho]
  cases o <;> rfl

theorem dirText_of_dirOf (h : ProcTree A k) (hq : A q) {d : Fin bifsMaxDirs} (hd : DirOf k q d) :
    dirText k d = digits (k.procs q).pid := by
  rw [dirText, hd.2, ← h.piddir q hq]
  rfl

theorem named_proc (h : ProcTree A k) (d : Fin bifsMaxDirs) (hd : (k.dirs d).parent = some procDir) :
    (k.dirs d).name ≠ none := by
  obtain ⟨q, -, hq⟩ := h.only d hd
  rw [hq.2]
  exact Option.some_ne_none _

/-- The directory of a process is found by its pid. -/
theorem opendir_pid (h : ProcTree A k) (hq : A q) (hpid : (k.procs q).pid < 2 ^ 32) {d : Fin bifsMaxDirs}
    (hd : DirOf k q d) :
    bifsOpendir procDir (digits (k.procs q).pid) 0 (digits (k.procs q).pid).length k = .ok (some d) k := by
  rw [bifsOpendir_apply (isComponent_digits hpid) h.named_proc]
  have hroot : d ≠ bifsRoot := by
    rintro rfl
    have hparent := h.root
    rw [hd.2] at hparent
    cases hparent
  have hmem : d ∈ (List.finRange bifsMaxDirs).drop 1 :=
    (by decide : ∀ d : Fin bifsMaxDirs, d ≠ bifsRoot → d ∈ (List.finRange bifsMaxDirs).drop 1) d hroot
  have hsorted : ((List.finRange bifsMaxDirs).drop 1).Pairwise (· < ·) := (List.pairwise_lt_finRange _).drop
  have hfits : decide ((k.dirs d).parent = some procDir ∧ digits (k.procs q).pid <+: dirText k d) = true := by
    rw [decide_eq_true_eq, h.dirText_of_dirOf hq hd, hd.2]
    exact ⟨rfl, List.prefix_rfl⟩
  cases hfind : ((List.finRange bifsMaxDirs).drop 1).find? fun i =>
      decide ((k.dirs i).parent = some procDir ∧ digits (k.procs q).pid <+: dirText k i) with
  | none => exact absurd hfits (by simpa using List.find?_eq_none.1 hfind d hmem)
  | some e =>
    -- It is not another one, as that would come before it.
    have he := List.find?_some hfind
    rw [decide_eq_true_eq] at he
    obtain ⟨r, hr, hdir⟩ := h.only e he.1
    have hle : e ≤ d := le_of_find? hsorted hfind hmem hfits
    rcases hle.lt_or_eq with hlt | rfl
    · rw [h.dirText_of_dirOf hr hdir] at he
      exact absurd he.2 (h.early r q e d hr hq hdir hd hlt)
    · rfl

/-- No directory is found for a pid that no process has. -/
theorem opendir_no_pid (h : ProcTree A k) (hpid : pid < 2 ^ 32) (hno : ∀ q, A q → (k.procs q).pid ≠ pid) :
    bifsOpendir procDir (digits pid) 0 (digits pid).length k = .ok none k := by
  rw [bifsOpendir_apply (isComponent_digits hpid) h.named_proc]
  cases hfind : ((List.finRange bifsMaxDirs).drop 1).find? fun i =>
      decide ((k.dirs i).parent = some procDir ∧ digits pid <+: dirText k i) with
  | none => rfl
  | some e =>
    have he := List.find?_some hfind
    rw [decide_eq_true_eq] at he
    obtain ⟨r, hr, hdir⟩ := h.only e he.1
    rw [h.dirText_of_dirOf hr hdir] at he
    obtain ⟨q, hq, hdigits⟩ := h.closed r _ hr (digits_ne_nil pid) he.2
    exact absurd (digits_inj hdigits) (hno q hq)

/-- In the directory of a process, `stats` is its file. -/
theorem openfile_stats (h : ProcTree A k) (hq : A q) {d : Fin bifsMaxDirs} (hd : DirOf k q d) :
    ∃ j, bifsOpenfile d (ascii "stats") 0 (ascii "stats").length k = .ok (some j) k ∧
      (k.bfiles j).dataquery = .stats q := by
  rw [bifsOpenfile_apply isComponent_stats fun j hj => ?_]
  · obtain ⟨j, hparent, hname⟩ := h.stats q d hq hd
    cases hfind : (List.finRange bifsMaxFiles).find? fun j =>
        decide ((k.bfiles j).parent = some d ∧ ascii "stats" <+: fileText k j) with
    | none =>
      have hno := List.find?_eq_none.1 hfind j (List.mem_finRange j)
      rw [decide_eq_true_eq, fileText, hname] at hno
      exact absurd ⟨hparent, List.prefix_rfl⟩ hno
    | some i =>
      have hi := List.find?_some hfind
      rw [decide_eq_true_eq, fileText] at hi
      refine ⟨i, rfl, ?_⟩
      rcases h.files q d i hq hd hi.1 with hname' | ⟨-, hdata⟩
      · rw [hname'] at hi
        exact absurd hi.2 (by decide)
      · exact hdata
  · rcases h.files q d j hq hd hj with hname | ⟨hname, -⟩
    · simp [hname]
    · simp [hname]

/-- The file `stats` of a pid is found if a process has the pid, and it is the
    file of this process. -/
theorem open_stats (h : ProcTree A k) (hpid : pid < 2 ^ 32) :
    (∃ q j, A q ∧ (k.procs q).pid = pid ∧ bifsOpen (statsPath pid) k = .ok (.inr j) k ∧
      (k.bfiles j).dataquery = .stats q) ∨
    (∀ q, A q → (k.procs q).pid ≠ pid) ∧ bifsOpen (statsPath pid) k = .ok (.inl (-ENOENT)) k := by
  have hcs : ∀ c ∈ [ascii "proc", digits pid], IsComponent c := by
    intro c hc
    rcases List.mem_cons.1 hc with rfl | hc
    · exact isComponent_proc
    · obtain rfl := List.mem_singleton.1 hc
      exact isComponent_digits hpid
  rw [show statsPath pid = pathOf ([ascii "proc", digits pid] ++ [ascii "stats"]) from rfl,
    bifsOpen_pathOf hcs isComponent_stats]
  by_cases hq : ∃ q, A q ∧ (k.procs q).pid = pid
  · obtain ⟨q, hq, rfl⟩ := hq
    obtain ⟨d, hd⟩ := h.dir q hq
    obtain ⟨j, hj, hdata⟩ := h.openfile_stats hq hd
    refine .inl ⟨q, j, hq, rfl, ?_, hdata⟩
    rw [bind_ok (h.descend_proc (h.opendir_pid hq hpid hd))]
    dsimp only
    rw [bind_ok hj]
    rfl
  · have hno : ∀ q, A q → (k.procs q).pid ≠ pid := fun q hA hpid => hq ⟨q, hA, hpid⟩
    refine .inr ⟨hno, ?_⟩
    rw [bind_ok (h.descend_proc (h.opendir_no_pid hpid hno))]
    rfl

end ProcTree

/-! ## Agreement -/

/-- The process in the slot has not exited. -/
def Unexited (k : Kernel cfg) (q : Slot cfg) : Prop := ¬(k.procs q).state.isGone

instance (k : Kernel cfg) : DecidablePred (Unexited k) := fun _ => inferInstanceAs (Decidable (¬(_ ∨ _)))

/-- The pids of the processes that have not exited, in decimal. -/
def decimalPids (k : Kernel cfg) : List (List UInt8) :=
  ((List.finRange cfg.maxProcs).filter fun q => Unexited k q).map fun q => digits (k.procs q).pid

/-- The names of the directories among some entries. -/
def dirNames (es : List (ℕ × List UInt8)) : List (List UInt8) :=
  (es.filter fun e => e.1 = direntDirectory).map Prod.snd

/-- `/proc` shows the processes that have not exited. -/
structure ProcfsAgrees (k : Kernel cfg) : Prop where
  /-- The listing of `/proc`, with room for it, and the directories in it. -/
  lists : ∃ es, (∀ dirents size, dirents ≠ 0 → es.length < size → bifsLsdir procDir dirents size k =
      .ok es.length { k with mem := storeDirents dirents 0 es k.mem }) ∧
    (dirNames es).Perm (decimalPids k) ∧ (dirNames es).Nodup
  opens : ∀ pid < 2 ^ 32, (∃ j k', bifsOpen (statsPath pid) k = .ok (.inr j) k') ↔
    ∃ q, Unexited k q ∧ (k.procs q).pid = pid
  data : ∀ pid < 2 ^ 32, ∀ j k', bifsOpen (statsPath pid) k = .ok (.inr j) k' →
    ∃ q, Unexited k q ∧ (k.procs q).pid = pid ∧ (k.bfiles j).dataquery = .stats q

namespace ProcTree

variable {A : Slot cfg → Prop}

theorem dirOf_inj {d : Fin bifsMaxDirs} (hq : DirOf k q d) (hr : DirOf k r d) : q = r := by
  have h := hq.2.symm.trans hr.2
  simp only [BifsDir.mk.injEq, Option.some.injEq, BifsName.piddir.injEq] at h
  exact h.2.1

/-- Different processes have different pids. -/
theorem digits_ne (h : ProcTree A k) (hq : A q) (hr : A r) (hne : q ≠ r) :
    digits (k.procs q).pid ≠ digits (k.procs r).pid := by
  intro heq
  obtain ⟨d, hd⟩ := h.dir q hq
  obtain ⟨e, he⟩ := h.dir r hr
  rcases lt_trichotomy d e with hlt | rfl | hlt
  · exact h.early q r d e hq hr hd he hlt (heq ▸ List.prefix_rfl)
  · exact hne (dirOf_inj hd he)
  · exact h.early r q e d hr hq he hd hlt (heq ▸ List.prefix_rfl)

/-- The directories in `/proc` are those of the processes. -/
theorem perm_dirs (h : ProcTree (Unexited k) k) :
    ((List.finRange bifsMaxDirs).filter fun d => (k.dirs d).parent = some procDir).Perm
      ((List.finRange cfg.maxProcs).filterMap fun q => if Unexited k q then (k.procs q).procfsDir
        else none) := by
  have hmem : ∀ q d, d ∈ (if Unexited k q then (k.procs q).procfsDir else none) ↔
      Unexited k q ∧ DirOf k q d := by
    intro q d
    split_ifs with hq
    · obtain ⟨e, he⟩ := h.dir q hq
      rw [Option.mem_def, he.1]
      constructor
      · intro hd
        obtain rfl := Option.some.inj hd
        exact ⟨hq, he⟩
      · intro hd
        exact he.1.symm.trans hd.2.1
    · simp [hq]
  refine (List.perm_ext_iff_of_nodup ?_ ?_).2 fun d => ?_
  · exact (List.nodup_finRange _).filter _
  · refine (List.nodup_finRange _).filterMap fun q r d hq hr => ?_
    exact dirOf_inj ((hmem q d).1 hq).2 ((hmem r d).1 hr).2
  · rw [List.mem_filter, List.mem_filterMap, decide_eq_true_eq]
    constructor
    · intro hd
      obtain ⟨q, hq, hdir⟩ := h.only d hd.2
      exact ⟨q, List.mem_finRange q, (hmem q d).2 ⟨hq, hdir⟩⟩
    · rintro ⟨q, -, hq⟩
      exact ⟨List.mem_finRange d, by rw [((hmem q d).1 hq).2.2]⟩

theorem filterMap_ite {α β : Type} (l : List α) (P : α → Prop) [DecidablePred P] (f : α → β) :
    (l.filterMap fun x => if P x then some (f x) else none) = (l.filter fun x => P x).map f := by
  induction l with
  | nil => rfl
  | cons x l ih =>
    by_cases hx : P x
    · simp [hx, ih]
    · simp [hx, ih]

/-- The names in `/proc`. -/
theorem perm_names (h : ProcTree (Unexited k) k) :
    (((List.finRange bifsMaxDirs).filter fun d => (k.dirs d).parent = some procDir).map (dirText k)).Perm
      (decimalPids k) := by
  have hperm := h.perm_dirs.map (dirText k)
  have hnames : (((List.finRange cfg.maxProcs).filterMap fun q =>
      if Unexited k q then (k.procs q).procfsDir else none).map (dirText k)) = decimalPids k := by
    rw [decimalPids, ← filterMap_ite, List.map_filterMap]
    refine List.filterMap_congr fun q _ => ?_
    split_ifs with hq
    · obtain ⟨d, hd⟩ := h.dir q hq
      rw [hd.1, Option.map_some, h.dirText_of_dirOf hq hd]
    · rfl
  rwa [hnames] at hperm

/-- The listing of `/proc`. -/
theorem lists (h : ProcTree (Unexited k) k) : ∃ es :
    List (ℕ × List UInt8), (∀ dirents size, dirents ≠ 0 →
      es.length < size → bifsLsdir procDir dirents size k =
        .ok es.length { k with mem := storeDirents dirents 0 es k.mem }) ∧
    (dirNames es).Perm (decimalPids k) ∧ (dirNames es).Nodup := by
  set ds := (List.finRange bifsMaxDirs).map fun i => if (k.dirs i).parent = some procDir then
    some (direntDirectory, (k.dirs i).name.map (nameText k)) else none with hds
  set fs := (List.finRange bifsMaxFiles).map fun j => if (k.bfiles j).parent = some procDir then
    some (0, (k.bfiles j).name) else none with hfs
  have hnamed : ∀ flags, some (flags, none) ∉ ds ++ fs := by
    intro flags hmem
    rcases List.mem_append.1 hmem with hmem | hmem
    · obtain ⟨i, -, hi⟩ := List.mem_map.1 hmem
      split_ifs at hi with hparent
      simp only [Option.some.injEq, Prod.mk.injEq, Option.map_eq_none_iff] at hi
      exact h.named_proc i hparent hi.2
    · obtain ⟨j, -, hj⟩ := List.mem_map.1 hmem
      split_ifs at hj with hparent
      simp only [Option.some.injEq, Prod.mk.injEq] at hj
      exact h.named_file j hparent hj.2
  have hdirs : present ds = ((List.finRange bifsMaxDirs).filter fun d => (k.dirs d).parent = some procDir).map
      fun d => (direntDirectory, dirText k d) := by
    rw [present, hds, List.filterMap_map, ← filterMap_ite]
    refine List.filterMap_congr fun d _ => ?_
    rw [Function.comp_apply]
    split_ifs with hparent
    · obtain ⟨n, hn⟩ := Option.ne_none_iff_exists'.1 (h.named_proc d hparent)
      simp [dirText, hn]
    · rfl
  -- Files in `/proc` are not listed as directories, so that the names of directories
  -- are the pids.
  have hnodirs : (present fs).filter (fun e => e.1 = direntDirectory) = [] := by
    refine List.filter_eq_nil_iff.2 fun e he => ?_
    obtain ⟨o, ho, he⟩ := List.mem_filterMap.1 he
    obtain ⟨j, -, rfl⟩ := List.mem_map.1 ho
    split_ifs at he with hparent
    · simp only [Option.bind_some, Option.map_eq_some_iff] at he
      obtain ⟨name, -, rfl⟩ := he
      exact (by decide : ¬decide ((0 : ℕ) = direntDirectory) = true)
    · cases he
  have hnames : dirNames (present (ds ++ fs)) =
      ((List.finRange bifsMaxDirs).filter fun d => (k.dirs d).parent = some procDir).map (dirText k) := by
    rw [dirNames, present, List.filterMap_append, List.filter_append]
    change (List.filter _ (present ds) ++ List.filter _ (present fs)).map _ = _
    rw [hnodirs, List.append_nil, hdirs, List.filter_eq_self.2 (by simp), List.map_map]
    rfl
  refine ⟨present (ds ++ fs), fun dirents size hd hsize => ?_, ?_, ?_⟩
  · have hloop := lsdirLoop_apply (k := k) (.inl hd) hnamed (fits_of_lt (n := 0) (by rwa [Nat.zero_add]))
    rw [Nat.zero_add] at hloop
    exact hloop
  · rw [hnames]
    exact h.perm_names
  · rw [hnames]
    refine h.perm_names.nodup_iff.2 ?_
    refine List.Nodup.map_on (fun q hq r hr heq => ?_) ((List.nodup_finRange _).filter _)
    by_contra hne
    rw [List.mem_filter, decide_eq_true_eq] at hq hr
    exact h.digits_ne hq.2 hr.2 hne heq

theorem agrees (h : ProcTree (Unexited k) k) : ProcfsAgrees k where
  lists := h.lists
  opens pid hpid := by
    rcases h.open_stats hpid with ⟨q, j, hq, heq, hopen, -⟩ | ⟨hno, hopen⟩
    · exact ⟨fun _ => ⟨q, hq, heq⟩, fun _ => ⟨j, k, hopen⟩⟩
    · rw [hopen]
      constructor
      · rintro ⟨_, _, h⟩
        cases h
      · rintro ⟨q, hq, heq⟩
        exact absurd heq (hno q hq)
  data pid hpid j k' hj := by
    rcases h.open_stats hpid with ⟨q, i, hq, heq, hopen, hdata⟩ | ⟨-, hopen⟩
    · rw [hj] at hopen
      cases hopen
      exact ⟨q, hq, heq, hdata⟩
    · rw [hj] at hopen
      cases hopen

end ProcTree

end HobbyOs
