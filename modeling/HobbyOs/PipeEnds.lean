import HobbyOs.Base
import HobbyOs.FileObjects

/-!
# The ends of a pipe

Two questions about the file objects behind the ends of a pipe.

* What can be done with an end right after `pipe_open`? `fs_alloc_file` leaves
  the functions of the last user of a file object in place, and `pipe_open` sets
  only one of the two. An end is limited to its direction if and only if the
  function for the other direction was null before (`pipe_ends_limited_iff`).
* Which other file objects does a close change? The last reading end of a pipe
  takes the file from what the pipe holds for its writing end; that entry of the
  table may have another user by then (`close_spares_others_iff`).
-/

namespace HobbyOs

open Outcome Transition

variable {cfg : Config} {p q : Slot cfg} {k k' : Kernel cfg} {f f0 f1 g : FileRef}

/-! ## What an end can do -/

/-- The reading end `f0` cannot be written to, and the writing end `f1` cannot
    be read from: the call fails and changes nothing. -/
def EndsLimited (k : Kernel cfg) (f0 f1 : FileRef) : Prop :=
  (∀ p buf nbytes, fsWrite p f0 buf nbytes k = .ok (-EBADFD) k) ∧
    ∀ p pos buf size, fsRead p f1 pos buf size k = .ok (-EBADFD) k

/-- The process `p` has two descriptors more: one for the reading end `f0`, and
    one for the writing end `f1`. -/
structure NewEnds (p : Slot cfg) (k k' : Kernel cfg) (f0 f1 : FileRef) : Prop where
  reading : ∃ fd, (k.procs p).files fd = none ∧ (k'.procs p).files fd = some f0
  readable : (k'.files f0).readable = true ∧ (k'.files f0).writable = false
  writing : ∃ fd, (k.procs p).files fd = none ∧ (k'.procs p).files fd = some f1
  writable : (k'.files f1).readable = false ∧ (k'.files f1).writable = true

/-- The file objects after a `pipe_open` that succeeded. -/
theorem pipeOpen_newEnds {pipefd : ℕ} (h : pipeOpen p pipefd k = .ok 0 k') :
    ∃ (i : Fin maxPipes) (f0 f1 : Fin maxFiles), freeFile k = some f0 ∧ nextFreeFile k f0 = some f1 ∧
      NewEnds p k k' (.ftable f0) (.ftable f1) ∧
      k'.files (.ftable f0) = (k.files (.ftable f0)).readingEnd i ∧
      k'.files (.ftable f1) = (k.files (.ftable f1)).writingEnd i := by
  have hopens := pipeOpen_ok h
  generalize hr : (0 : ℤ) = r at hopens
  cases hopens with
  | noPipe | noFile | oneFile => exact absurd hr (by decide)
  | @ends i f0 f1 o0 o1 fds r hpipe hf0 hf1 hrf hwf hfiles ht0 ht1 hq hret =>
    obtain ⟨-, ho0, ho1⟩ := hret.resolve_right (by simp [← hr])
    have hne : FileRef.ftable f0 ≠ .ftable f1 := by
      rintro ⟨⟩
      exact (nextFreeFile_some hf1).1 rfl
    have h0 : k'.files (.ftable f0) = (k.files (.ftable f0)).readingEnd i := by rw [hfiles]; simp [hne]
    have h1 : k'.files (.ftable f1) = (k.files (.ftable f1)).writingEnd i := by rw [hfiles]; simp
    refine ⟨i, f0, f1, hf0, hf1, ⟨?_, ?_, ?_, ?_⟩, h0, h1⟩
    · -- The second descriptor is found after the first is set, so that it is another
      -- one.
      cases ht0 with
      | none _ => cases ho0
      | @some fd hfd =>
        refine ⟨fd, hfd, ?_⟩
        generalize (k'.procs p).files = fds at ht1
        cases ht1 with
        | none _ => simp
        | @some fd' hfd' =>
          have : fd ≠ fd' := by
            rintro rfl
            simp at hfd'
          simp [this]
    · simp [h0, File.readingEnd, File.taken]
    · generalize (k'.procs p).files = fds' at ht1
      cases ht1 with
      | none _ => cases ho1
      | @some fd hfd =>
        refine ⟨fd, ?_, by simp⟩
        cases ht0 with
        | none _ => exact hfd
        | @some fd' hfd' =>
          by_cases hfd'' : fd = fd'
          · exact hfd'' ▸ hfd'
          · simpa [hfd''] using hfd
    · simp [h1, File.writingEnd, File.taken]

/-- What `pipe_write` returns is not `-EBADFD`. -/
theorem pipeWriteLoopTop_ne {i : Fin maxPipes} {buf nbytes nwritten : ℕ} {r : ℤ}
    (h : pipeWriteLoopTop p f i buf nbytes nwritten k = .ok r k') : r ≠ -EBADFD := by
  obtain ⟨a, k₁, h₁, h⟩ := bind_eq_ok.1 h
  cases a with
  | inr n => cases h
  | inl n =>
    cases h
    obtain ⟨-, t, ht, -⟩ := withLock_eq_ok.1 h₁
    rw [get_bind_apply] at ht
    -- After the copy the loop returns a count, which is not negative.
    have hend : ∀ {wr : ℕ} {u : Kernel cfg}, (do
        if 0 < wr then procMarkForWakeup (.pipe i)
        if nwritten + wr = nbytes then return .inl (nwritten + wr : ℕ)
        else return .inr (nwritten + wr) : KM cfg (ℤ ⊕ ℕ)) u = .ok (.inl r) t → r ≠ -EBADFD := by
      intro wr u hu
      have hret : ∀ {u : Kernel cfg}, (if nwritten + wr = nbytes then Pure.pure (.inl (nwritten + wr : ℕ))
          else Pure.pure (.inr (nwritten + wr)) : KM cfg (ℤ ⊕ ℕ)) u = .ok (.inl r) t →
            r ≠ -EBADFD := by
        intro u hu
        split at hu
        · cases hu
          show ((nwritten + wr : ℕ) : ℤ) ≠ -77
          omega
        · cases hu
      by_cases hwr : 0 < wr
      · simp only [hwr, if_true] at hu
        obtain ⟨_, u', -, hu⟩ := bind_eq_ok.1 hu
        exact hret hu
      · simp only [hwr, if_false] at hu
        exact hret hu
    dsimp only at ht
    split at ht
    · cases ht
      decide
    · split at ht
      · obtain ⟨wr, u, -, ht⟩ := bind_eq_ok.1 ht
        exact hend ht
      · rw [pure_bind_apply] at ht
        exact hend ht

/-- What `pipe_read` returns is not negative. -/
theorem pipeReadLoopTop_nonneg {i : Fin maxPipes} {buf size : ℕ} {r : ℤ}
    (h : pipeReadLoopTop p f i buf size k = .ok r k') : 0 ≤ r := by
  obtain ⟨a, k₁, h₁, h⟩ := bind_eq_ok.1 h
  cases a with
  | none => cases h
  | some n =>
    cases h
    obtain ⟨-, t, ht, -⟩ := withLock_eq_ok.1 h₁
    rw [get_bind_apply] at ht
    split at ht
    · split at ht
      · cases ht
        decide
      · obtain ⟨_, u, -, ht⟩ := bind_eq_ok.1 ht
        cases ht
    · obtain ⟨n, u, hu, ht⟩ := bind_eq_ok.1 ht
      cases ht
      rw [pipeTake, get_bind_apply] at hu
      dsimp only at hu
      obtain ⟨_, u₁, -, hu⟩ := bind_eq_ok.1 hu
      obtain ⟨_, u₂, -, hu⟩ := bind_eq_ok.1 hu
      split at hu
      · obtain ⟨_, u₃, -, hu⟩ := bind_eq_ok.1 hu
        obtain ⟨_, u₄, -, hu⟩ := bind_eq_ok.1 hu
        cases hu
        exact Int.natCast_nonneg _
      · obtain ⟨_, u₄, -, hu⟩ := bind_eq_ok.1 hu
        cases hu
        exact Int.natCast_nonneg _

/-- A file object whose `write` is not null does not refuse every write. -/
theorem write_null_of_refused (h : fsWrite p f 0 0 k = .ok (-EBADFD) k) : (k.files f).write = .null := by
  rw [fsWrite, get_bind_apply] at h
  cases hw : (k.files f).write with
  | null => rfl
  | uart =>
    rw [hw] at h
    have hval : some (int32 0) = some (-EBADFD : ℤ) := congrArg value h
    exact absurd hval (by decide)
  | bifs =>
    rw [hw] at h
    have hval : some (-ENOSYS : ℤ) = some (-EBADFD : ℤ) := congrArg value h
    exact absurd hval (by decide)
  | pipe =>
    rw [hw] at h
    simp only [pipeWrite, get_bind_apply] at h
    cases hfs : (k.files f).fsFile with
    | null =>
      rw [hfs] at h
      have hval : some (-EPIPE : ℤ) = some (-EBADFD : ℤ) := congrArg value h
      exact absurd hval (by decide)
    | bifs j =>
      rw [hfs] at h
      cases h
    | pipe i =>
      rw [hfs] at h
      exact absurd rfl (pipeWriteLoopTop_ne h)

/-- A writing end of a pipe whose `read` is not null does not refuse every read. -/
theorem read_null_of_refused {i : Fin maxPipes} (hfs : (k.files f).fsFile = .pipe i)
    (h : fsRead p f 0 0 0 k = .ok (-EBADFD) k) : (k.files f).read = .null := by
  rw [fsRead, get_bind_apply] at h
  cases hr : (k.files f).read with
  | null => rfl
  | uart =>
    rw [hr] at h
    simp only [uartReadline, get_bind_apply] at h
    split at h
    · have hval : some (0 : ℤ) = some (-EBADFD : ℤ) := congrArg value h
      exact absurd hval (by decide)
    · cases h
  | bifs =>
    rw [hr] at h
    simp only [bifsRead, get_bind_apply, hfs] at h
    cases h
  | pipe =>
    rw [hr] at h
    simp only [pipeRead, get_bind_apply, hfs] at h
    exact absurd (pipeReadLoopTop_nonneg h) (by decide)

/-- After a `pipe_open` that succeeded, the ends are limited to their directions
    if and only if the first two free file objects had no function for the other one. -/
theorem pipe_ends_limited_iff {pipefd : ℕ} (h : pipeOpen p pipefd k = .ok 0 k') :
    ∃ f0 f1 : Fin maxFiles, freeFile k = some f0 ∧ nextFreeFile k f0 = some f1 ∧
      NewEnds p k k' (.ftable f0) (.ftable f1) ∧
      (EndsLimited k' (.ftable f0) (.ftable f1) ↔
        (k.files (.ftable f0)).write = .null ∧ (k.files (.ftable f1)).read = .null) := by
  obtain ⟨i, f0, f1, hf0, hf1, hnew, h0, h1⟩ := pipeOpen_newEnds h
  have hw : (k'.files (.ftable f0)).write = (k.files (.ftable f0)).write := by rw [h0]; rfl
  have hr : (k'.files (.ftable f1)).read = (k.files (.ftable f1)).read := by rw [h1]; rfl
  refine ⟨f0, f1, hf0, hf1, hnew, ?_⟩
  rw [← hw, ← hr]
  constructor
  · rintro ⟨hwrite, hread⟩
    exact ⟨write_null_of_refused (hwrite p 0 0), read_null_of_refused (by rw [h1]; rfl) (hread p 0 0 0)⟩
  · rintro ⟨hnull, hnull'⟩
    refine ⟨fun p buf nbytes => ?_, fun p pos buf size => ?_⟩
    · rw [fsWrite, get_bind_apply, hnull]
      rfl
    · rw [fsRead, get_bind_apply, hnull']
      rfl

/-- The first process opens a file and closes it again. -/
def openClose : List (Event .qemuE) :=
  [Event.kernel, .kernel] ++ calls 5 0x80003d00 0 0 [(0x80003d00, ascii "/file" ++ [0])] ++ calls 6 3 0 0 []

/-- A pipe gets the entry of the file that was closed: its reading end takes
    writes for what they are to the other file. -/
theorem closedFile_unlimited :
    ¬∀ (m : Machine .qemuE) (p : Slot .qemuE) (pipefd : ℕ) (k' : Kernel .qemuE) (f0 f1 : FileRef),
      Reach (machine .qemuE) free m → pipeOpen p pipefd m.k = .ok 0 k' → NewEnds p m.k k' f0 f1 →
      EndsLimited k' f0 f1 := by
  have h : ∃ m ∈ runFrom .qemuE openClose, freeFile m.k = some 0 ∧
      (m.k.files (.ftable 0)).write = .bifs ∧
      value (pipeOpen ⟨0, by decide⟩ 0x80003d00 m.k) = some 0 := by
    decide +kernel
  obtain ⟨m, hm, hfree, hbifs, hopen⟩ := h
  obtain ⟨k', hk'⟩ := value_eq_some hopen
  obtain ⟨i, f0, f1, hf0, -, hnew, h0, -⟩ := pipeOpen_newEnds hk'
  intro hall
  have hrefused := (hall m _ _ k' _ _ (reach_of_runFrom hm) hk' hnew).1 ⟨0, by decide⟩ 0 0
  have hnull := write_null_of_refused hrefused
  rw [Option.some.inj (hfree.symm.trans hf0)] at hbifs
  rw [h0] at hnull
  exact absurd (hbifs.symm.trans hnull) (by decide)

/-- A pipe on entries of the table that were never used. -/
theorem freshFiles_limited :
    ∃ (p : Slot .qemuE) (k' : Kernel .qemuE) (f0 f1 : FileRef),
      pipeOpen p 0x80003d00 (boot .qemuE fun _ => 0).k = .ok 0 k' ∧
      NewEnds p (boot .qemuE fun _ => 0).k k' f0 f1 ∧ EndsLimited k' f0 f1 := by
  have hopen : value (pipeOpen ⟨0, by decide⟩ 0x80003d00 (boot .qemuE fun _ => 0).k) = some 0 := by
    decide +kernel
  have hnull : ∀ i : Fin maxFiles, ((boot .qemuE fun _ => 0).k.files (.ftable i)).write = .null ∧
      ((boot .qemuE fun _ => 0).k.files (.ftable i)).read = .null := by
    decide +kernel
  obtain ⟨k', hk'⟩ := value_eq_some hopen
  obtain ⟨f0, f1, -, -, hnew, hiff⟩ := pipe_ends_limited_iff hk'
  exact ⟨_, k', _, _, hk', hnew, hiff.2 ⟨(hnull f0).1, (hnull f1).2⟩⟩

/-! ## What a close changes -/

/-- `g` is an end that the pipe `i` is still written through. -/
structure WritingEnd (g : FileRef) (i : Fin maxPipes) (k : Kernel cfg) : Prop where
  isPipe : (k.files g).isPipe = true
  writable : (k.files g).writable = true
  fsFile : (k.files g).fsFile = .pipe i

/-- Closing `f` left all open file objects alone, but for `f` itself and, if `f`
    was the last reading end of a pipe, the writing end of that pipe. -/
def SparesOthers (f : FileRef) (k k' : Kernel cfg) : Prop :=
  ∀ g ≠ f, 0 < (k.files g).refcount → (∀ i, LastReader f i k → ¬WritingEnd g i k) →
    k'.files g = k.files g

/-- If `f` is the last reading end of a pipe, then what the pipe holds for its
    writing end is `f` itself, is not in use, has no file, or is still the
    writing end of this pipe. -/
def WriterCurrent (f : FileRef) (k : Kernel cfg) : Prop :=
  ∀ i, LastReader f i k → ∀ w, (k.pipes i).wf = some w →
    w = f ∨ (k.files w).refcount = 0 ∨ (k.files w).fsFile = .null ∨ WritingEnd w i k

theorem sparesOthers_iff (h : Frees f k k') : SparesOthers f k k' ↔ WriterCurrent f k := by
  cases h with
  | plain hno hfiles _ =>
    refine ⟨fun _ i hi => absurd hi (hno i), fun _ g hg _ _ => ?_⟩
    rw [hfiles, Function.update_of_ne hg]
  | @last i w files hlast hwf hw hfiles _ =>
    -- Besides `f` the close writes to one file object, the writer on record.
    have hother : ∀ g ≠ f, k'.files g = if g = w then { k.files w with fsFile := .null }
        else k.files g := by
      intro g hg
      rw [hfiles, Function.update_of_ne hg, hw]
      by_cases hgw : g = w
      · subst hgw
        simp [hg]
      · simp [hgw, hg]
    constructor
    · intro hspares j hj w' hw'
      have hij : j = i := by simpa using hj.fsFile.symm.trans hlast.fsFile
      subst hij
      have hww : w' = w := Option.some.inj (hw'.symm.trans hwf)
      subst hww
      by_contra hnot
      simp only [not_or] at hnot
      obtain ⟨hne, href, hfs, hend⟩ := hnot
      have hsame := hspares w' hne (Nat.pos_of_ne_zero href) fun j' hj' => by
        have : j' = j := by simpa using hj'.fsFile.symm.trans hlast.fsFile
        exact this ▸ hend
      rw [hother w' hne, if_pos rfl] at hsame
      exact hfs (congrArg File.fsFile hsame).symm
    · intro hcurrent g hg href hno
      rw [hother g hg]
      split
      · rename_i hgw
        subst hgw
        rcases hcurrent i hlast g hwf with h | h | h | h
        · exact absurd h hg
        · omega
        · rw [← h]
        · exact absurd h (hno i hlast)
      · rfl

/-- `proc_exit` up to its descriptor `n`. -/
def exitUpTo (p : Slot cfg) (n : ℕ) : KM cfg (Proc cfg) := do
  releasePage ((← get).procs p).stackPage
  freePageTable ((← get).procs p).upagetable
  setState p .zombie .exit
  let x := (← get).procs p
  match x.parent with
  | none => throw .nullProcess
  | some r =>
    wakeParent x r
    ((List.finRange maxProcFds).take n).forM fun i =>
      match x.files i with
      | none => pure ()
      | some f => fsFreeFile f
    return x

/-- `proc_exit` closes all descriptors, and then leaves the process table. -/
theorem procExit_eq (p : Slot cfg) : procExit p = exitUpTo p maxProcFds >>= leaveTable p := by
  simp only [procExit, exitUpTo, bind_assoc]
  refine bind_congr fun _ => bind_congr fun _ => bind_congr fun _ => bind_congr fun _ =>
    bind_congr fun _ => bind_congr fun k => ?_
  cases (k.procs p).parent with
  | none => rfl
  | some r =>
    simp only [bind_assoc, pure_bind]
    rfl

/-- The call `c` of the process `p` closes `f`: `fs_free_file` is called for one
    of its descriptors, and leads from `k₁` to `k₂`. -/
inductive ClosesFile (p : Slot cfg) (k : Kernel cfg) : Call → FileRef → Kernel cfg → Kernel cfg → Prop
  | close {fd : ℕ} {f : FileRef} {k₂ : Kernel cfg} : fileOf p fd k = .ok (some f) k →
      fsFreeFile f k = .ok () k₂ → ClosesFile p k (.close fd) f k k₂
  | exit {i : Fin maxProcFds} {x : Proc cfg} {f : FileRef} {k₁ k₂ : Kernel cfg} :
      exitUpTo p i k = .ok x k₁ → x.files i = some f → fsFreeFile f k₁ = .ok () k₂ →
      ClosesFile p k .exit f k₁ k₂

/-- A close leaves all unrelated open file objects alone if and only if the pipe
    that goes with it, if there is one, does not point to one of them. -/
theorem close_spares_others_iff {c : Call} {k₁ k₂ : Kernel cfg} (h : ClosesFile p k c f k₁ k₂) :
    SparesOthers f k₁ k₂ ↔ WriterCurrent f k₁ := by
  cases h with
  | close _ hfree => exact sparesOthers_iff (fsFreeFile_ok hfree)
  | exit _ _ hfree => exact sparesOthers_iff (fsFreeFile_ok hfree)

/-- A process opens a pipe, closes its writing end, and opens a file: it gets
    the entry of the writing end. -/
def fileForWriter : List (Event .qemuE) :=
  [Event.kernel, .kernel] ++ calls 29 0x80003d00 0 0 [] ++ calls 6 4 0 0 [] ++
    calls 5 0x80003d00 0 0 [(0x80003d00, ascii "/file" ++ [0])]

/-- Now the reading end is closed: the open file loses its `fs_file`. -/
theorem closeReader_hits_file :
    ¬∀ (m : Machine .qemuE) (p : Slot .qemuE) (c : Call) (f : FileRef) (k₁ k₂ : Kernel .qemuE),
      Reach (machine .qemuE) free m → ClosesFile p m.k c f k₁ k₂ → SparesOthers f k₁ k₂ := by
  have h : ∃ m ∈ runFrom .qemuE fileForWriter,
      value (fileOf ⟨0, by decide⟩ 3 m.k) = some (some (.ftable 0)) ∧
      value (fsFreeFile (.ftable 0) m.k) = some () ∧ 0 < (m.k.files (.ftable 1)).refcount ∧
      (m.k.files (.ftable 1)).isPipe = false ∧
      ((final (fsFreeFile (.ftable 0) m.k)).files (.ftable 1)).fsFile ≠
        (m.k.files (.ftable 1)).fsFile := by
    decide +kernel
  obtain ⟨m, hm, hfd, hfree, href, hpipe, hne⟩ := h
  obtain ⟨t, hfd⟩ := value_eq_some hfd
  obtain ⟨rfl, -⟩ := fileOf_ok hfd
  obtain ⟨k₂, hfree⟩ := value_eq_some hfree
  rw [hfree] at hne
  intro hall
  have hcloses : ClosesFile _ m.k (.close 3) (.ftable 0) m.k k₂ := .close hfd hfree
  have hspares := hall m _ _ _ _ k₂ (reach_of_runFrom hm) hcloses
  refine hne (congrArg File.fsFile (hspares (.ftable 1) (by decide) href fun i _ hend => ?_))
  rw [hend.isPipe] at hpipe
  cases hpipe

/-- A process opens a pipe. -/
def pipeOnly : List (Event .qemuE) := [Event.kernel, .kernel] ++ calls 29 0x80003d00 0 0 []

/-- The reading end is closed before the writing end. -/
theorem closeReader_first_spares :
    ∃ (m : Machine .qemuE) (p : Slot .qemuE) (k₂ : Kernel .qemuE),
      ClosesFile p m.k (.close 3) (.ftable 0) m.k k₂ ∧ SparesOthers (.ftable 0) m.k k₂ := by
  have h : ∃ m ∈ runFrom .qemuE pipeOnly,
      value (fileOf ⟨0, by decide⟩ 3 m.k) = some (some (.ftable 0)) ∧
      value (fsFreeFile (.ftable 0) m.k) = some () ∧
      (m.k.files (.ftable 0)).fsFile = .pipe 0 ∧ (m.k.pipes 0).wf = some (.ftable 1) ∧
      (m.k.files (.ftable 1)).isPipe = true ∧ (m.k.files (.ftable 1)).writable = true ∧
      (m.k.files (.ftable 1)).fsFile = .pipe 0 := by
    decide +kernel
  obtain ⟨m, hm, hfd, hfree, hfs, hwf, hpipe, hwrite, hfs'⟩ := h
  obtain ⟨t, hfd⟩ := value_eq_some hfd
  obtain ⟨rfl, -⟩ := fileOf_ok hfd
  obtain ⟨k₂, hfree⟩ := value_eq_some hfree
  have hcloses : ClosesFile _ m.k (.close 3) (.ftable 0) m.k k₂ := .close hfd hfree
  refine ⟨m, _, k₂, hcloses, (close_spares_others_iff hcloses).2 fun i hi w hw => ?_⟩
  obtain rfl : i = 0 := by simpa using hi.fsFile.symm.trans hfs
  obtain rfl : w = .ftable 1 := Option.some.inj (hw.symm.trans hwf)
  exact .inr (.inr (.inr ⟨hpipe, hwrite, hfs'⟩))

end HobbyOs
