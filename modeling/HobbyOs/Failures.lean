import HobbyOs.Lookup
import HobbyOs.FileCalls

/-!
# Calls that fail

What a call on descriptors leaves behind when it fails.

* `proc_open` takes a file object before anything that can go wrong, and does
  not give it back (`open_undone_iff`): each such failure costs one object, until
  there are none (`freeFiles_failedOpens`).
* `pipe_open` takes a page first, and does not give it back
  (`pipe_undone_iff`).
* The descriptor that a call is given is an index of `proc->files`, and is not
  compared with the length of the array (`fd_validated_iff`).
-/

namespace HobbyOs

open Outcome Transition

variable {cfg : Config} {p : Slot cfg} {k k' : Kernel cfg}

/-! ## Everything as before -/

/-- The tables of files and pipes, the descriptors, the pages and the baked-in
    file system are as they were. -/
structure Undone (k k' : Kernel cfg) : Prop where
  files : k'.files = k.files
  fds : ∀ q, (k'.procs q).files = (k.procs q).files
  pipes : k'.pipes = k.pipes
  pages : k'.pages = k.pages
  bfiles : k'.bfiles = k.bfiles
  dirs : k'.dirs = k.dirs

theorem undone_setErrno (k : Kernel cfg) (p : Slot cfg) (e : ℕ) : Undone k (final (setErrno p e k)) :=
  ⟨rfl, fun _ => rfl, rfl, rfl, rfl, rfl⟩

/-! ## Opening a file -/

/-- The entries of `ftable` that are not in use. -/
def freeFiles (k : Kernel cfg) : Finset (Fin maxFiles) :=
  Finset.univ.filter fun i => (k.files (.ftable i)).refcount = 0

theorem freeFile_eq_none : freeFile k = none ↔ freeFiles k = ∅ := by
  simp [freeFile, freeFiles, Finset.eq_empty_iff_forall_notMem]

theorem freeFile_mem {i : Fin maxFiles} (h : freeFile k = some i) : i ∈ freeFiles k := by
  simpa [freeFiles] using freeFile_some h

theorem freeFiles_congr (h : k'.files = k.files) : freeFiles k' = freeFiles k := by
  rw [freeFiles, freeFiles, h]

/-- A call that has the entry `i`, and no descriptor for it. -/
theorem freeFiles_taken {i : Fin maxFiles}
    (h : OnlyFile (.ftable i) (Function.update k.files (.ftable i) (k.files (.ftable i)).taken) k'.files) :
    freeFiles k' = (freeFiles k).erase i := by
  ext j
  by_cases hj : j = i
  · subst hj
    have hcount : (k'.files (.ftable j)).refcount = 1 := by
      rw [h.refcount, Function.update_self]
      rfl
    simp [freeFiles, hcount]
  · have hne : FileRef.ftable j ≠ .ftable i := by
      rintro ⟨⟩
      exact hj rfl
    simp [freeFiles, h.others _ hne, hj]

/-- `proc_open` on a string, when it returns: without an entry of `ftable` it
    does nothing, and otherwise it takes the first one. -/
theorem procOpen_takes {path : ℕ} {r : ℤ} (hpath : va2pa k (k.procs p).upagetable path ≠ 0)
    (h : procOpen p path k = .ok r k') :
    (freeFile k = none ∧ Undone k k') ∨ ∃ i, freeFile k = some i ∧
    freeFiles k' = (freeFiles k).erase i := by
  rw [procOpen, get_bind_apply] at h
  rw [if_neg hpath] at h
  obtain ⟨o, k₁, h₁, h⟩ := bind_eq_ok.1 h
  rcases fsAllocFile_ok h₁ with ⟨hnone, rfl, rfl⟩ | ⟨i, hi, rfl, rfl⟩
  · cases h
    exact .inl ⟨hnone, undone_setErrno ..⟩
  · exact .inr ⟨i, hi, freeFiles_taken (openFile_ok h).1⟩

theorem undone_procOpen_iff {path : ℕ} (h : procOpen p path k = .ok (-1) k') :
    Undone k k' ↔ va2pa k (k.procs p).upagetable path = 0 ∨ freeFile k = none := by
  by_cases hpath : va2pa k (k.procs p).upagetable path = 0
  · rw [procOpen, get_bind_apply] at h
    rw [if_pos hpath] at h
    cases h
    exact iff_of_true (undone_setErrno ..) (.inl hpath)
  · rcases procOpen_takes hpath h with ⟨hnone, hundone⟩ | ⟨i, hi, htaken⟩
    · exact iff_of_true hundone (.inr hnone)
    · refine iff_of_false (fun hundone => ?_) (not_or.2 ⟨hpath, by simp [hi]⟩)
      rw [freeFiles_congr hundone.files] at htaken
      exact Finset.notMem_erase i _ (htaken ▸ freeFile_mem hi)

/-- Calls of `proc_open` on strings that fail, `n` of them; in between, no file
    object changes. -/
inductive FailedOpens (p : Slot cfg) (k : Kernel cfg) : ℕ → Kernel cfg → Prop
  | zero : FailedOpens p k 0 k
  | succ {n path : ℕ} {k₁ k₂ k₃ : Kernel cfg} : FailedOpens p k n k₁ → k₂.files = k₁.files →
      va2pa k₂ (k₂.procs p).upagetable path ≠ 0 → procOpen p path k₂ = .ok (-1) k₃ →
      FailedOpens p k (n + 1) k₃

/-- Each of them takes a file object, as long as there is one. -/
theorem freeFiles_failedOpens {n : ℕ} (h : FailedOpens p k n k') :
    (freeFiles k').card = (freeFiles k).card - n := by
  induction h with
  | zero => rfl
  | @succ n path k₁ k₂ k₃ _ hsame hpath hopen ih =>
    rw [← freeFiles_congr hsame] at ih
    rcases procOpen_takes hpath hopen with ⟨hnone, hundone⟩ | ⟨i, hi, htaken⟩
    · have hempty : (freeFiles k₂).card = 0 := by rw [freeFile_eq_none.1 hnone, Finset.card_empty]
      rw [freeFiles_congr hundone.files]
      omega
    · rw [htaken, Finset.card_erase_of_mem (freeFile_mem hi)]
      omega

/-- A `proc_open` that fails leaves everything as it was if and only if its path
    is not mapped, or no file object is free; any other failure takes a file object,
    until there are none. -/
theorem open_undone_iff (p : Slot cfg) (k : Kernel cfg) :
    (∀ path k', procOpen p path k = .ok (-1) k' →
      (Undone k k' ↔ va2pa k (k.procs p).upagetable path = 0 ∨ freeFile k = none)) ∧
    ∀ n k', FailedOpens p k n k' → (freeFiles k').card = (freeFiles k).card - n :=
  ⟨fun _ _ h => undone_procOpen_iff h, fun _ _ h => freeFiles_failedOpens h⟩

/-- A null pointer for a path is not mapped. -/
theorem open_null_undone :
    ∃ k', procOpen ⟨0, by decide⟩ 0 (initKernel .qemuE fun _ => 0) = .ok (-1) k' ∧
      Undone (initKernel .qemuE fun _ => 0) k' := by
  have h : value (procOpen ⟨0, by decide⟩ 0 (initKernel .qemuE fun _ => 0)) = some (-1) := by
    decide +kernel
  obtain ⟨k', h⟩ := value_eq_some h
  exact ⟨k', h, ((open_undone_iff _ _).1 0 k' h).2 (.inl rfl)⟩

/-- A process has the name of a file that does not exist in its memory. -/
def missingName : List (Event .qemuE) :=
  [Event.kernel, .kernel, .exec (callRegs 0x80003ff0 5 0x80003d00 0 0) [(0x80003d00, ascii "/x" ++ [0])]]

theorem failed_open_takes_file :
    ¬∀ (m : Machine .qemuE) (p : Slot .qemuE) (path : ℕ) (k' : Kernel .qemuE),
      Reach (machine .qemuE) free m →
      m.mode = .user → m.k.cpuProc = some p → procOpen p path ((trap m).entry p) = .ok (-1) k' →
      Undone ((trap m).entry p) k' := by
  have h : ∃ m ∈ runFrom .qemuE missingName, m.mode = .user ∧ m.k.cpuProc = some ⟨0, by decide⟩ ∧
      value (procOpen ⟨0, by decide⟩ 0x80003d00 ((trap m).entry ⟨0, by decide⟩)) = some (-1) ∧
      (m.k.files (.ftable 0)).refcount = 0 ∧
      ((final (procOpen ⟨0, by decide⟩ 0x80003d00 ((trap m).entry ⟨0, by decide⟩))).files
        (.ftable 0)).refcount = 1 := by
    decide +kernel
  obtain ⟨m, hm, hmode, hcpu, hopen, hfree, htaken⟩ := h
  obtain ⟨k', hopen⟩ := value_eq_some hopen
  rw [hopen] at htaken
  intro hall
  have hundone := hall m _ _ k' (reach_of_runFrom hm) hmode hcpu hopen
  have hsame : (k'.files (.ftable 0)).refcount = (m.k.files (.ftable 0)).refcount := by
    rw [hundone.files]
    rfl
  rw [final_ok] at htaken
  omega

/-! ## Opening a pipe -/

/-- A `pipe_open` that fails leaves everything as it was if and only if no page
    is free. -/
theorem pipe_undone_iff {pipefd : ℕ} (h : pipeOpen p pipefd k = .ok (-1) k') :
    Undone k k' ↔ freePage k = none := by
  rw [pipeOpen, get_bind_apply] at h
  obtain ⟨o, k₁, h₁, h⟩ := bind_eq_ok.1 h
  -- A page that was taken stays taken.
  have hkept : ∀ {j : Fin cfg.numPages} {pid : ℕ}, freePage k = some j →
      k₁.pages = (k.takePage j pid).pages →
      k'.pages = k₁.pages → (Undone k k' ↔ freePage k = none) := by
    intro j pid hj hpages hsame
    refine iff_of_false (fun hundone => ?_) (by simp [hj])
    have hflags : (k.pages j).flags = pageFree := mem_freePages.1 (freePage_mem hj)
    rw [← hundone.pages, hsame, hpages,
      show (k.takePage j pid).pages j = _ from Function.update_self ..] at hflags
    cases hflags
  cases allocPipe_result h₁ with
  | noPage hnone =>
    cases h
    exact iff_of_true (undone_setErrno ..) hnone
  | noPipe hj =>
    cases h
    exact hkept hj rfl rfl
  | pipe hj _ =>
    have hsame : Part.pages.Same _ k' :=
      Frame.same (frame_pipeEnds (by simp) (by simp) (by simp) (by simp) (by simp)) h
    exact hkept hj rfl hsame

/-- A process opens two pipes: one descriptor is left. -/
def twoPipes : List (Event .qemuE) :=
  [Event.kernel, .kernel] ++ calls 29 0x80003d00 0 0 [] ++ calls 29 0x80003d00 0 0 []

theorem failed_pipe_takes_page :
    ¬∀ (m : Machine .qemuE) (p : Slot .qemuE) (pipefd : ℕ) (k' : Kernel .qemuE),
      Reach (machine .qemuE) free m →
      m.mode = .user → m.k.cpuProc = some p → pipeOpen p pipefd ((trap m).entry p) = .ok (-1) k' →
      Undone ((trap m).entry p) k' := by
  have h : ∃ m ∈ runFrom .qemuE twoPipes, m.mode = .user ∧ m.k.cpuProc = some ⟨0, by decide⟩ ∧
      value (pipeOpen ⟨0, by decide⟩ 0x80003d00 ((trap m).entry ⟨0, by decide⟩)) = some (-1) ∧
      (m.k.files (.ftable 4)).refcount = 0 ∧
      ((final (pipeOpen ⟨0, by decide⟩ 0x80003d00 ((trap m).entry ⟨0, by decide⟩))).files
        (.ftable 4)).refcount = 1 := by
    decide +kernel
  obtain ⟨m, hm, hmode, hcpu, hopen, hfree, htaken⟩ := h
  obtain ⟨k', hopen⟩ := value_eq_some hopen
  rw [hopen] at htaken
  intro hall
  have hundone := hall m _ _ k' (reach_of_runFrom hm) hmode hcpu hopen
  have hsame : (k'.files (.ftable 4)).refcount = (m.k.files (.ftable 4)).refcount := by
    rw [hundone.files]
    rfl
  rw [final_ok] at htaken
  omega

/-- A kernel without a free page. -/
def noPages : Kernel .qemuE := { initKernel .qemuE fun _ => 0 with pages := fun _ => ⟨pageAllocated, 0⟩ }

theorem pipe_without_pages_undone :
    ∃ k', pipeOpen ⟨0, by decide⟩ 0x80003d00 noPages = .ok (-1) k' ∧ Undone noPages k' := by
  have h : value (pipeOpen ⟨0, by decide⟩ 0x80003d00 noPages) = some (-1) := by
    decide +kernel
  obtain ⟨k', h⟩ := value_eq_some h
  exact ⟨k', h, (pipe_undone_iff h).2 (by decide +kernel)⟩

/-! ## Descriptors -/

/-- A descriptor is a position in `proc->files`. -/
def InFiles (fd : ℤ) : Prop := 0 ≤ fd ∧ fd.toNat < maxProcFds

instance (fd : ℤ) : Decidable (InFiles fd) := inferInstanceAs (Decidable (_ ∧ _))

/-- The descriptor that a call is given. -/
def Call.fdArg : Call → Option ℤ
  | .read fd _ _ | .write fd _ _ | .close fd | .dup fd => some fd
  | .isopen fd | .pipeattch _ fd => some fd
  | _ => none

/-- The call with the descriptor `fd` stays within `proc->files`; another
    descriptor is refused, and nothing else happens. -/
structure ValidatesFd (p : Slot cfg) (k : Kernel cfg) (c : Call) (fd : ℤ) : Prop where
  within : InFiles fd ∨ ∀ k', runCall p c k ≠ .error .outOfBounds k'
  refuses : ¬InFiles fd → c ≠ .isopen fd → runCall p c k = (do setErrno p EBADF; return -1) k

/-- A call reads the file at its descriptor, before anything else. -/
theorem runCall_stops {c : Call} {fd : ℤ} (hfd : c.fdArg = some fd) (h : ¬InFiles fd) :
    ∃ k', runCall p c k = .error .outOfBounds k' ∨
      (∃ pid, c = .pipeattch pid fd) ∧ runCall p c k = .error (.deadlock (.proc p)) k' := by
  cases c with
  | pipeattch pid srcFd =>
    cases hfd
    cases hheld : k.held (.proc p) with
    | true => exact ⟨k, .inr ⟨⟨pid, rfl⟩, bind_error (acquire_deadlock hheld)⟩⟩
    | false => exact ⟨_, .inl ((bind_ok (acquire_ok hheld)).trans (bind_error (fileOf_outOfBounds h)))⟩
  | read _ _ _ | write _ _ _ | close _ | dup _ | isopen _ =>
    cases hfd
    exact ⟨k, .inl (bind_error (fileOf_outOfBounds h))⟩
  | _ => cases hfd

/-- The descriptor that a call is given is validated if and only if it needs no
    validation. -/
theorem fd_validated_iff {c : Call} {fd : ℤ} (hfd : c.fdArg = some fd) :
    ValidatesFd p k c fd ↔ InFiles fd := by
  constructor
  · intro hval
    by_contra hno
    obtain ⟨k', hstop⟩ := runCall_stops (p := p) (k := k) hfd hno
    by_cases hc : c = .isopen fd
    · rcases hstop with hstop | ⟨⟨pid, hpipe⟩, -⟩
      · exact hval.within.resolve_left hno k' hstop
      · rw [hc] at hpipe
        cases hpipe
    · have hrefused := hval.refuses hno hc
      rcases hstop with hstop | ⟨-, hstop⟩ <;>
      · rw [hstop] at hrefused
        cases hrefused
  · exact fun h => ⟨.inl h, fun hno => absurd h hno⟩

/-- The first process closes the descriptor after the last one. -/
theorem close_past_end :
    ¬∀ (m : Machine .qemuE) (p : Slot .qemuE) (c : Call) (fd : ℤ), Reach (machine .qemuE) free m →
      m.mode = .user → m.k.cpuProc = some p → c.fdArg = some fd →
      ValidatesFd p ((trap m).entry p) c fd := by
  have h : ∃ m ∈ runFrom .qemuE [.kernel, .kernel], m.mode = .user ∧
      m.k.cpuProc = some ⟨0, by decide⟩ ∧
      value (runCall ⟨0, by decide⟩ (.close 8) ((trap m).entry ⟨0, by decide⟩)) = none := by
    decide +kernel
  obtain ⟨m, hm, hmode, hcpu, hstop⟩ := h
  intro hall
  have hval := hall m _ (.close 8) 8 (reach_of_runFrom hm) hmode hcpu rfl
  rw [hval.refuses (by decide) (by simp)] at hstop
  cases hstop

theorem last_fd_validated : ValidatesFd ⟨0, by decide⟩ (initKernel .qemuE fun _ => 0) (.close 7) 7 :=
  (fd_validated_iff rfl).2 (by decide)

end HobbyOs
