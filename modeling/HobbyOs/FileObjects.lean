import HobbyOs.Lib.Hoare
import HobbyOs.Pages
import HobbyOs.CallFrames

/-!
# Opening and closing

What the functions on file objects, descriptors and pipes do when they return.

* `fs_alloc_file` takes the first entry of the table that is not in use, and
  `fd_alloc` the first descriptor;
* `pipe_open` (`pipeOpen_ok`) takes a pipe that is not allocated and the first
  two entries; it may fail with only some of them taken (`PipeOpens`);
* `fs_free_file` (`fsFreeFile_ok`) drops a reference. With the last reference to
  the reading end of a pipe, the pipe goes, and what the pipe holds for its
  writing end loses its file (`Frees`).
-/

namespace HobbyOs

open Outcome

variable {cfg : Config} {α : Type} {p q : Slot cfg} {k k' : Kernel cfg} {f g : FileRef}

/-- A function under a lock that returned. -/
theorem withLock_eq_ok {l : Lock cfg} {m : KM cfg α} {a : α} :
    withLock l m k = .ok a k' ↔
      k.held l = false ∧ ∃ t, m (k.setHeld l true) = .ok a t ∧ k' = t.setHeld l false := by
  cases hl : k.held l with
  | true =>
    rw [withLock, bind_error (acquire_deadlock hl)]
    simp
  | false =>
    rw [withLock, bind_ok (acquire_ok hl), bind_eq_ok]
    constructor
    · rintro ⟨a', t, hm, ht⟩
      cases ht
      exact ⟨rfl, t, hm, rfl⟩
    · rintro ⟨-, t, hm, rfl⟩
      exact ⟨a, t, hm, rfl⟩

/-! ## File objects and descriptors -/

/-- The entry of `ftable` in the hands of its next user. -/
def File.taken (x : File) : File :=
  { x with refcount := 1, position := 0, readable := false, writable := false, isPipe := false }

theorem freeFile_some {i : Fin maxFiles} (h : freeFile k = some i) : (k.files (.ftable i)).refcount = 0 := by
  simpa using List.find?_some h

/-- `fs_alloc_file`, when it returns. -/
theorem fsAllocFile_ok {r : Option FileRef} (h : fsAllocFile k = .ok r k') :
    (freeFile k = none ∧ r = none ∧ k' = k) ∨ ∃ i, freeFile k = some i ∧ r = some (.ftable i) ∧
      k' = k.setFile (.ftable i) (k.files (.ftable i)).taken := by
  obtain ⟨hl, t, ht, rfl⟩ := withLock_eq_ok.1 h
  rw [get_bind_apply] at ht
  cases hi : freeFile k with
  | none =>
    rw [show freeFile (k.setHeld .ftable true) = none from hi] at ht
    cases ht
    exact .inl ⟨rfl, rfl, Kernel.setHeld_setHeld hl⟩
  | some i =>
    rw [show freeFile (k.setHeld .ftable true) = some i from hi] at ht
    cases ht
    refine .inr ⟨i, rfl, rfl, ?_⟩
    exact Kernel.setHeld_setHeld (k := k.setFile (.ftable i) (k.files (.ftable i)).taken) hl

/-- `fd_alloc`, when it returns. -/
theorem fdAlloc_ok {r : Option (Fin maxProcFds)} (h : fdAlloc p f k = .ok r k') :
    (r = none ∧ k' = k ∧ ∀ i, (k.procs p).files i ≠ none) ∨ ∃ i, r = some i ∧
      (k.procs p).files i = none ∧ k' = k.setProc p { k.procs p with
        files := Function.update (k.procs p).files i (some f) } := by
  rw [fdAlloc, get_bind_apply] at h
  cases hi : (List.finRange maxProcFds).find? fun i => ((k.procs p).files i).isNone with
  | none =>
    rw [hi] at h
    cases h
    refine .inl ⟨rfl, rfl, fun i hn => ?_⟩
    simpa [hn] using List.find?_eq_none.1 hi i (List.mem_finRange i)
  | some i =>
    rw [hi] at h
    cases h
    exact .inr ⟨i, rfl, by simpa using List.find?_some hi, rfl⟩

/-- `proc->files[fd]`, when it is returned. -/
theorem fileOf_ok {fd : ℤ} {r : Option FileRef} (h : fileOf p fd k = .ok r k') :
    k' = k ∧ ∃ i : Fin maxProcFds, fd = i ∧ (k.procs p).files i = r := by
  rw [fileOf] at h
  split at h
  · rename_i hfd
    cases h
    exact ⟨rfl, ⟨fd.toNat, hfd.2⟩, by simp [hfd.1], rfl⟩
  · cases h

/-! ## Opening a pipe -/

/-- The first entry of `ftable` that is not in use, but for `i`. -/
def nextFreeFile (k : Kernel cfg) (i : Fin maxFiles) : Option (Fin maxFiles) :=
  (List.finRange maxFiles).find? fun j => j ≠ i ∧ (k.files (.ftable j)).refcount = 0

theorem nextFreeFile_some {i j : Fin maxFiles} (h : nextFreeFile k i = some j) :
    j ≠ i ∧ (k.files (.ftable j)).refcount = 0 := by
  simpa using List.find?_some h

theorem freeFile_taken (i : Fin maxFiles) :
    freeFile (k.setFile (.ftable i) (k.files (.ftable i)).taken) = nextFreeFile k i := by
  refine congrArg (List.find? · _) (funext fun j => ?_)
  by_cases hj : j = i
  · subst hj
    simp [Kernel.setFile, File.taken]
  · simp [Kernel.setFile, hj]

/-- The file object of the reading end of the pipe `i`. -/
def File.readingEnd (x : File) (i : Fin maxPipes) : File :=
  { x.taken with isPipe := true, readable := true, fsFile := .pipe i, read := .pipe }

/-- The file object of the writing end of the pipe `i`. -/
def File.writingEnd (x : File) (i : Fin maxPipes) : File :=
  { x.taken with isPipe := true, writable := true, fsFile := .pipe i, write := .pipe }

/-- The pipe `i` was not allocated, and now is; the other pipes are as they were. -/
structure TakesPipe (i : Fin maxPipes) (k k' : Kernel cfg) : Prop where
  free : (k.pipes i).allocated = false
  taken : (k'.pipes i).allocated = true
  others : ∀ j ≠ i, (k'.pipes j).ends = (k.pipes j).ends

/-- `fd_alloc` on a table of descriptors: it takes a descriptor that is not in
    use, or none. -/
inductive TakesFd (f : FileRef) (fds : Fin maxProcFds → Option FileRef) :
    Option (Fin maxProcFds) → (Fin maxProcFds → Option FileRef) → Prop
  | none : (∀ i, fds i ≠ none) → TakesFd f fds none fds
  | some {i : Fin maxProcFds} : fds i = none → TakesFd f fds (some i) (Function.update fds i (some f))

/-- Where there is no descriptor for a file, there is none for another one. -/
theorem TakesFd.none_of_none {fds fds' fds'' : Fin maxProcFds → Option FileRef}
    {o : Option (Fin maxProcFds)} (h : TakesFd f fds .none fds') (h' : TakesFd g fds' o fds'') :
    o = .none := by
  cases h with
  | none hall =>
    cases h' with
    | none _ => rfl
    | some hi => exact absurd hi (hall _)

/-- What `pipe_open` of the process `p` may have done. -/
inductive PipeOpens (p : Slot cfg) (k k' : Kernel cfg) : ℤ → Prop
  | noPipe : Part.files.Same k k' → Part.fds.Same k k' → Part.ends.Same k k' → PipeOpens p k k' (-1)
  | noFile {i : Fin maxPipes} : TakesPipe i k k' → freeFile k = none → Part.files.Same k k' →
      Part.fds.Same k k' → PipeOpens p k k' (-1)
  | oneFile {i : Fin maxPipes} {f0 : Fin maxFiles} : TakesPipe i k k' → freeFile k = some f0 →
      nextFreeFile k f0 = none →
      k'.files = Function.update k.files (.ftable f0) (k.files (.ftable f0)).taken →
      Part.fds.Same k k' → PipeOpens p k k' (-1)
  | ends {i : Fin maxPipes} {f0 f1 : Fin maxFiles} {o0 o1 : Option (Fin maxProcFds)}
      {fds : Fin maxProcFds → Option FileRef} {r : ℤ} : TakesPipe i k k' → freeFile k = some f0 →
      nextFreeFile k f0 = some f1 → (k'.pipes i).rf = some (.ftable f0) →
      (k'.pipes i).wf = some (.ftable f1) →
      k'.files = Function.update (Function.update k.files (.ftable f0)
        ((k.files (.ftable f0)).readingEnd i)) (.ftable f1) ((k.files (.ftable f1)).writingEnd i) →
      TakesFd (.ftable f0) (k.procs p).files o0 fds → TakesFd (.ftable f1) fds o1 (k'.procs p).files →
      (∀ q ≠ p, (k'.procs q).files = (k.procs q).files) →
      (r = 0 ∧ o0.isSome ∧ o1.isSome ∨ r = -1 ∧ o1 = none) → PipeOpens p k k' r

/-- `kalloc`, when it returns. -/
theorem kalloc_ok {pid : ℕ} {r : Option ℕ} (h : kalloc pid k = .ok r k') :
    (r = none ∧ freePage k = none ∧ k' = k) ∨
      ∃ j, r = some (cfg.pagePtr j) ∧ freePage k = some j ∧ k' = k.takePage j pid := by
  have hl : k.held .pagedMemory = false := (withLock_eq_ok.1 h).1
  rw [kalloc_apply hl] at h
  cases hf : freePage k with
  | none =>
    rw [hf] at h
    cases h
    exact .inl ⟨rfl, rfl, rfl⟩
  | some j =>
    rw [hf] at h
    cases h
    exact .inr ⟨j, rfl, rfl, rfl⟩

/-- The kernel with the page `i` taken for the page table of `q`. -/
def Kernel.takeTable (k : Kernel cfg) (q : Slot cfg) (i : Fin cfg.numPages) (pid : ℕ) : Kernel cfg :=
  (k.takePage i pid).setProc q { k.procs q with
    upagetable := cfg.pagePtr i, usatp := makeSatp cfg (cfg.pagePtr i) }

/-- What the first half of `init_proc` does when there are enough pages: the first
    free ones become the stacks of the process, and its page table. -/
inductive TakesPages (q : Slot cfg) (k : Kernel cfg) : ℕ × ℕ → Kernel cfg → Prop
  | noMmu {i j : Fin cfg.numPages} : cfg.mmu = false → freePage k = some i →
      freePage (k.takePage i (k.procs q).pid) = some j →
      TakesPages q k (cfg.pagePtr i, cfg.pagePtr j)
        ((k.takePage i (k.procs q).pid).takePage j (k.procs q).pid)
  | mmu {i j l : Fin cfg.numPages} {k₁ k' : Kernel cfg} : cfg.mmu = true → freePage k = some i →
      freePage (k.takePage i (k.procs q).pid) = some j →
      freePage ((k.takePage i (k.procs q).pid).takePage j (k.procs q).pid) = some l →
      initUserPageTable (cfg.pagePtr l) (k.procs q).pid
        (((k.takePage i (k.procs q).pid).takePage j (k.procs q).pid).takeTable q l (k.procs q).pid) =
          .ok () k₁ →
      mapStack (cfg.pagePtr l) (cfg.pagePtr i) (k.procs q).pid k₁ = .ok () k' →
      TakesPages q k (cfg.pagePtr i, cfg.pagePtr j) k'

theorem initProcPages_ok {q : Slot cfg} {o : ℕ × ℕ} (h : initProcPages q k = .ok (some o) k') :
    TakesPages q k o k' := by
  rw [initProcPages, get_bind_apply] at h
  obtain ⟨sp, k₁, h₁, h⟩ := bind_eq_ok.1 h
  rcases kalloc_ok h₁ with ⟨rfl, -, rfl⟩ | ⟨i, rfl, hi, rfl⟩
  · cases h
  dsimp only at h
  obtain ⟨ksp, k₂, h₂, h⟩ := bind_eq_ok.1 h
  rcases kalloc_ok h₂ with ⟨rfl, -, rfl⟩ | ⟨j, rfl, hj, rfl⟩
  · obtain ⟨_, _, -, h⟩ := bind_eq_ok.1 h
    cases h
  dsimp only at h
  by_cases hmmu : cfg.mmu = true
  · rw [if_pos hmmu] at h
    obtain ⟨pt, k₃, h₃, h⟩ := bind_eq_ok.1 h
    rcases kalloc_ok h₃ with ⟨rfl, -, rfl⟩ | ⟨l, rfl, hl, rfl⟩
    · obtain ⟨_, _, -, h⟩ := bind_eq_ok.1 h
      obtain ⟨_, _, -, h⟩ := bind_eq_ok.1 h
      cases h
    dsimp only [modifyProc] at h
    rw [modify_bind_apply] at h
    obtain ⟨_, k₄, htable, h⟩ := bind_eq_ok.1 h
    obtain ⟨_, k₅, hstack, h⟩ := bind_eq_ok.1 h
    cases h
    exact .mmu hmmu hi hj hl htable hstack
  · rw [if_neg hmmu] at h
    cases h
    exact .noMmu (Bool.eq_false_of_not_eq_true hmmu) hi hj

/-- What `alloc_pipe` does. Where there is a page but no pipe, the page stays
    allocated. -/
inductive AllocsPipe (pid : ℕ) (k : Kernel cfg) : Option (Fin maxPipes) → Kernel cfg → Prop
  | noPage : freePage k = none → AllocsPipe pid k none k
  | noPipe {j : Fin cfg.numPages} : freePage k = some j → AllocsPipe pid k none (k.takePage j pid)
  | pipe {i : Fin maxPipes} {j : Fin cfg.numPages} : freePage k = some j → (k.pipes i).anyFlag = false →
      AllocsPipe pid k (some i) (((k.takePage j pid).setPipe i
        { k.pipes i with allocated := true, buf := cfg.pagePtr j }).setHeld (.pipe i) true)

/-- `alloc_pipe`, when it returns. -/
theorem allocPipe_result {pid : ℕ} {r : Option (Fin maxPipes)} (h : allocPipe pid k = .ok r k') :
    AllocsPipe pid k r k' := by
  obtain ⟨b, k₁, h₁, h₂⟩ := bind_eq_ok.1 h
  clear h
  rcases kalloc_ok h₁ with ⟨rfl, hfree, rfl⟩ | ⟨j, rfl, hfree, rfl⟩
  · cases h₂
    exact .noPage hfree
  · obtain ⟨hl, t, ht, rfl⟩ := withLock_eq_ok.1 h₂
    clear h₂
    rw [get_bind_apply] at ht
    cases hi : (List.finRange maxPipes).find? fun i =>
        !(((k.takePage j pid).setHeld .pipes true).pipes i).anyFlag with
    | none =>
      rw [hi] at ht
      cases ht
      rw [Kernel.setHeld_setHeld hl]
      exact .noPipe hfree
    | some i =>
      rw [hi] at ht
      have hflag : (k.pipes i).anyFlag = false := by
        have := List.find?_some hi
        simpa only [Kernel.setHeld, Kernel.takePage, Bool.not_eq_true'] using this
      simp only [modify_bind_apply] at ht
      obtain ⟨_, k₂, ha, ht⟩ := bind_eq_ok.1 ht
      rw [acquire, get_bind_apply] at ha
      split at ha
      · cases ha
      · cases ha
        simp only [modify_bind_apply, pure_apply, EStateM.Result.ok.injEq] at ht
        obtain ⟨rfl, rfl⟩ := ht
        have hheld : Function.update (Function.update (Function.update k.held .pipes true) (.pipe i) true)
            .pipes false = Function.update k.held (.pipe i) true := by
          rw [Function.update_comm (by simp), update_held_self (show k.held .pipes = false from hl)]
        have hpipe : AllocsPipe pid k (some i) _ := .pipe hfree hflag
        simp only [Kernel.setPipe, Kernel.setHeld, Kernel.takePage] at hpipe
        simp only [Kernel.setPipe, Kernel.setHeld, Kernel.takePage, Function.update_self,
          Function.update_idem, hheld]
        exact hpipe

/-- What `alloc_pipe` does to files, processes and pipes. -/
theorem allocPipe_ok {pid : ℕ} {r : Option (Fin maxPipes)} (h : allocPipe pid k = .ok r k') :
    k'.files = k.files ∧ k'.procs = k.procs ∧ ((r = none ∧ Part.ends.Same k k') ∨
      ∃ i, r = some i ∧ TakesPipe i k k') := by
  cases allocPipe_result h with
  | noPage _ => exact ⟨rfl, rfl, .inl ⟨rfl, fun _ => rfl⟩⟩
  | noPipe _ => exact ⟨rfl, rfl, .inl ⟨rfl, fun _ => rfl⟩⟩
  | @pipe i j _ hflag =>
    refine ⟨rfl, rfl, .inr ⟨i, rfl, ?_, ?_, fun m hm => ?_⟩⟩
    · simp only [Pipe.anyFlag, Bool.or_eq_false_iff] at hflag
      exact hflag.1.1
    · simp [Kernel.setPipe, Kernel.setHeld]
    · simp [Kernel.setPipe, Kernel.setHeld, Kernel.takePage, hm]

/-- `fd_alloc`, in terms of the descriptors. -/
theorem fdAlloc_takes {r : Option (Fin maxProcFds)} (h : fdAlloc p f k = .ok r k') :
    TakesFd f (k.procs p).files r (k'.procs p).files ∧
      (∀ q ≠ p, (k'.procs q).files = (k.procs q).files) ∧ k'.files = k.files ∧ k'.pipes = k.pipes := by
  rcases fdAlloc_ok h with ⟨rfl, rfl, hall⟩ | ⟨i, rfl, hi, rfl⟩
  · exact ⟨.none hall, fun _ _ => rfl, rfl, rfl⟩
  · refine ⟨?_, fun q hq => ?_, rfl, rfl⟩
    · simpa [Kernel.setProc] using TakesFd.some hi
    · simp [Kernel.setProc, hq]

/-- The two files that `pipe_open` allocates. -/
theorem fsAllocFile_twice {r₀ r₁ : Option FileRef} {k₁ : Kernel cfg}
    (h₀ : fsAllocFile k = .ok r₀ k₁)
    (h₁ : fsAllocFile k₁ = .ok r₁ k') :
    (freeFile k = none ∧ r₀ = none ∧ r₁ = none ∧ k' = k) ∨
    (∃ f0, freeFile k = some f0 ∧ nextFreeFile k f0 = none ∧ r₀ = some (.ftable f0) ∧ r₁ = none ∧
      k' = k.setFile (.ftable f0) (k.files (.ftable f0)).taken) ∨
    ∃ f0 f1, freeFile k = some f0 ∧ nextFreeFile k f0 = some f1 ∧ r₀ = some (.ftable f0) ∧
      r₁ = some (.ftable f1) ∧
      k' = (k.setFile (.ftable f0) (k.files (.ftable f0)).taken).setFile (.ftable f1)
        (k.files (.ftable f1)).taken := by
  rcases fsAllocFile_ok h₀ with ⟨hn, rfl, rfl⟩ | ⟨f0, hf0, rfl, rfl⟩
  · rcases fsAllocFile_ok h₁ with ⟨-, rfl, rfl⟩ | ⟨f1, hf1, -, -⟩
    · exact .inl ⟨hn, rfl, rfl, rfl⟩
    · rw [hn] at hf1
      cases hf1
  · rcases fsAllocFile_ok h₁ with ⟨hn, rfl, rfl⟩ | ⟨f1, hf1, rfl, rfl⟩
    · rw [freeFile_taken] at hn
      exact .inr (.inl ⟨f0, hf0, hn, rfl, rfl, rfl⟩)
    · rw [freeFile_taken] at hf1
      have hne : FileRef.ftable f1 ≠ .ftable f0 := by
        rintro ⟨⟩
        exact (nextFreeFile_some hf1).1 rfl
      refine .inr (.inr ⟨f0, f1, hf0, hf1, rfl, rfl, ?_⟩)
      simp only [Kernel.setFile, Function.update_of_ne hne]

/-- The files of `pipe_open` become the ends of the pipe. -/
theorem setFile_ends {i : Fin maxPipes} {f0 f1 : Fin maxFiles} (hne : f1 ≠ f0)
    (files : FileRef → File) :
    let t := Function.update (Function.update files (.ftable f0) (files (.ftable f0)).taken) (.ftable f1)
      (files (.ftable f1)).taken
    let u := Function.update t (.ftable f0) { t (.ftable f0) with
      isPipe := true, readable := true, writable := false, fsFile := .pipe i, read := .pipe }
    Function.update u (.ftable f1) { u (.ftable f1) with
        isPipe := true, readable := false, writable := true, fsFile := .pipe i, write := .pipe } =
      Function.update (Function.update files (.ftable f0) ((files (.ftable f0)).readingEnd i)) (.ftable f1)
        ((files (.ftable f1)).writingEnd i) := by
  have hne' : FileRef.ftable f1 ≠ .ftable f0 := by
    rintro ⟨⟩
    exact hne rfl
  funext f
  by_cases h1 : f = .ftable f1
  · subst h1
    simp [hne', File.writingEnd, File.taken]
  · by_cases h0 : f = .ftable f0
    · subst h0
      simp [hne'.symm, File.readingEnd, File.taken]
    · simp [h0, h1]

/-- `pipe_open` from where there is a pipe. -/
theorem pipeEnds_ok {i : Fin maxPipes} {pipefd : ℕ} {r : ℤ} {k₀ : Kernel cfg}
    (h : pipeEnds p i pipefd k = .ok r k') (hfiles : k.files = k₀.files) (hprocs : k.procs = k₀.procs)
    (hpipe : TakesPipe i k₀ k) : PipeOpens p k₀ k' r := by
  have hfree : freeFile k = freeFile k₀ := by simp only [freeFile, hfiles]
  have hnext : ∀ f, nextFreeFile k f = nextFreeFile k₀ f := by
    simp only [nextFreeFile, hfiles, implies_true]
  rw [pipeEnds, modify_bind_apply] at h
  obtain ⟨r₀, k₁, h₀, h⟩ := bind_eq_ok.1 h
  obtain ⟨r₁, k₂, h₁, h⟩ := bind_eq_ok.1 h
  have htaken : ∀ {k' : Kernel cfg},
      k'.pipes = (k.setPipe i { k.pipes i with wpos := 0, rpos := 0 }).pipes →
      TakesPipe i k₀ k' := by
    intro k' hk'
    refine ⟨hpipe.free, ?_, fun j hj => ?_⟩
    · rw [hk']
      simpa [Kernel.setPipe] using hpipe.taken
    · rw [hk']
      simpa [Kernel.setPipe, hj] using hpipe.others j hj
  rcases fsAllocFile_twice h₀ h₁ with ⟨hn, rfl, rfl, rfl⟩ | ⟨f0, hf0, hn, rfl, rfl, rfl⟩ |
    ⟨f0, f1, hf0, hf1, rfl, rfl, rfl⟩
  · cases h
    refine .noFile (htaken rfl) (hfree ▸ hn) hfiles fun q => ?_
    show (k.procs q).files = (k₀.procs q).files
    rw [hprocs]
  · cases h
    refine .oneFile (htaken rfl) (hfree ▸ hf0) (hnext f0 ▸ hn) ?_ fun q => ?_
    · simp only [Kernel.setFile, Kernel.setPipe, hfiles, Kernel.setHeld]
    · show (k.procs q).files = (k₀.procs q).files
      rw [hprocs]
  · simp only [modify_bind_apply] at h
    obtain ⟨o0, k₄, hd0, h⟩ := bind_eq_ok.1 h
    obtain ⟨o1, k₅, hd1, h⟩ := bind_eq_ok.1 h
    obtain ⟨ht0, hq0, hf4, hp4⟩ := fdAlloc_takes hd0
    obtain ⟨ht1, hq1, hf5, hp5⟩ := fdAlloc_takes hd1
    simp only [Kernel.setFile, Kernel.setPipe, hprocs] at ht0 hq0
    -- What comes after the descriptors changes neither files, pipes nor descriptors.
    have hend : k'.files = k₅.files ∧ k'.pipes = k₅.pipes ∧ k'.procs = k₅.procs ∧
        (r = 0 ∧ o0.isSome ∧ o1.isSome ∨ r = -1 ∧ o1 = none) := by
      cases o0 with
      | none =>
        have ho1 := ht0.none_of_none ht1
        subst ho1
        cases h
        exact ⟨rfl, rfl, rfl, .inr ⟨rfl, rfl⟩⟩
      | some fd0 =>
        cases o1 with
        | none =>
          cases h
          exact ⟨rfl, rfl, rfl, .inr ⟨rfl, rfl⟩⟩
        | some fd1 =>
          simp only [release, modify_bind_apply, get_bind_apply] at h
          split at h
          · cases h
          · cases h
            exact ⟨rfl, rfl, rfl, .inl ⟨rfl, rfl, rfl⟩⟩
    obtain ⟨hfk, hpk, hqk, hr⟩ := hend
    have hpipes := hpk.trans (hp5.trans hp4)
    have hf1' := hnext f0 ▸ hf1
    refine .ends (i := i) ⟨hpipe.free, ?_, fun j hj => ?_⟩ (hfree ▸ hf0) hf1' ?_ ?_ ?_ ht0
      (hqk ▸ ht1) (fun q hq => ?_) hr
    · rw [hpipes]
      simpa [Kernel.setPipe, Kernel.setFile] using hpipe.taken
    · rw [hpipes]
      simpa [Kernel.setPipe, Kernel.setFile, hj] using hpipe.others j hj
    · rw [hpipes]
      simp [Kernel.setPipe, Kernel.setFile]
    · rw [hpipes]
      simp [Kernel.setPipe, Kernel.setFile]
    · rw [hfk, hf5, hf4, ← hfiles]
      exact setFile_ends (nextFreeFile_some hf1').1 k.files
    · rw [hqk, hq1 q hq, hq0 q hq]

/-- `pipe_open`, when it returns. -/
theorem pipeOpen_ok {pipefd : ℕ} {r : ℤ} (h : pipeOpen p pipefd k = .ok r k') : PipeOpens p k k' r := by
  rw [pipeOpen, get_bind_apply] at h
  obtain ⟨a, k₁, h₁, h⟩ := bind_eq_ok.1 h
  obtain ⟨hfiles, hprocs, ⟨rfl, hends⟩ | ⟨i, rfl, hpipe⟩⟩ := allocPipe_ok h₁
  · cases h
    refine .noPipe hfiles (fun q => ?_) hends
    show (k₁.procs q).files = (k.procs q).files
    rw [hprocs]
  · exact pipeEnds_ok h hfiles hprocs hpipe

/-! ## Closing -/

/-- The part `x` is as it was, after a function that does not change it. -/
theorem Frame.same {m : KM cfg α} {x : Part} {a : α} (hm : Frame {x}ᶜ m) (h : m k = .ok a k') :
    x.Same k k' := by
  have := hm k x (by simp)
  rwa [h] at this

/-- The pipe `i` is not allocated any more; the other pipes are as they were. -/
structure FreesPipe (i : Fin maxPipes) (k k' : Kernel cfg) : Prop where
  freed : (k'.pipes i).allocated = false
  others : ∀ j ≠ i, (k'.pipes j).ends = (k.pipes j).ends

/-- The file object `f` is the reading end of the pipe `i`, and has no
    reference left. -/
structure Unread (f : FileRef) (i : Fin maxPipes) (k : Kernel cfg) : Prop where
  readable : (k.files f).readable = true
  fsFile : (k.files f).fsFile = .pipe i
  refcount : (k.files f).refcount = 0

/-- `free_pipe`, when it returns. -/
theorem freePipe_ok {i : Fin maxPipes} (h : freePipe i k = .ok () k') :
    k'.files = k.files ∧ FreesPipe i k k' := by
  rw [freePipe, get_bind_apply] at h
  obtain ⟨_, k₁, h₁, h⟩ := bind_eq_ok.1 h
  have hfiles : k₁.files = k.files := Frame.same (x := .files) (frame_releasePage (by simp)) h₁
  have hends : Part.ends.Same k k₁ := Frame.same (frame_releasePage (by simp)) h₁
  simp only [modify_apply, EStateM.Result.ok.injEq, true_and] at h
  subst h
  refine ⟨hfiles, by simp [Kernel.setPipe], fun j hj => ?_⟩
  simpa [Kernel.setPipe, hj] using hends j

/-- The part of `pipe_close_file` for the reading end, when it returns. -/
theorem closeReader_ok {i : Fin maxPipes} {refcount : ℕ} (h : (do
      procMarkForWakeup (.pipe i)
      if refcount = 0 then
        match ((← get).pipes i).wf with
        | none => throw .fault
        | some wf =>
          modify fun k => k.setFile wf { k.files wf with fsFile := .null }
          freePipe i : KM cfg Unit) k = .ok () k') :
    (refcount ≠ 0 ∧ k'.files = k.files ∧ Part.ends.Same k k') ∨
      ∃ w, refcount = 0 ∧ (k.pipes i).wf = some w ∧
        k'.files = Function.update k.files w { k.files w with fsFile := .null } ∧ FreesPipe i k k' := by
  obtain ⟨_, k₁, h₁, h⟩ := bind_eq_ok.1 h
  have hfiles : k₁.files = k.files := Frame.same (x := .files) frame_procMarkForWakeup h₁
  have hends : Part.ends.Same k k₁ := Frame.same frame_procMarkForWakeup h₁
  by_cases hr : refcount = 0
  · have hwf : (k₁.pipes i).wf = (k.pipes i).wf := congrArg Ends.wf (hends i)
    rw [if_pos hr, get_bind_apply, hwf] at h
    cases hw : (k.pipes i).wf with
    | none =>
      rw [hw] at h
      cases h
    | some w =>
      rw [hw] at h
      simp only [modify_bind_apply] at h
      obtain ⟨hf, hfree⟩ := freePipe_ok h
      refine .inr ⟨w, hr, rfl, ?_, hfree.freed, fun j hj => ?_⟩
      · rw [hf, ← hfiles]
        rfl
      · exact (hfree.others j hj).trans (hends j)
  · rw [if_neg hr] at h
    cases h
    exact .inl ⟨hr, hfiles, hends⟩

/-- The part of `pipe_close_file` for the writing end changes no file object. -/
theorem frame_closeWriter {S : Set Part} {i : Fin maxPipes} {refcount : ℕ} {writable : Bool} :
    Frame S (if writable then do
      if refcount = 0 then modify fun k => k.setPipe i { k.pipes i with writeClosed := true }
      procMarkForWakeup (.pipe i)
      else return () : KM cfg Unit) := by
  split
  · dsimp only
    split
    · exact Frame.bind (Frame.of_setPipe (.inr fun _ => rfl) (.inr fun _ => rfl))
        fun _ => frame_procMarkForWakeup
    · exact frame_procMarkForWakeup
  · exact Frame.pure

/-- `pipe_close_file`, when it returns. -/
theorem pipeCloseFile_ok (h : pipeCloseFile f k = .ok () k') :
    ((∀ i, ¬Unread f i k) ∧ k'.files = k.files ∧ Part.ends.Same k k') ∨
      ∃ i w, Unread f i k ∧ (k.pipes i).wf = some w ∧
        k'.files = Function.update k.files w { k.files w with fsFile := .null } ∧ FreesPipe i k k' := by
  rw [pipeCloseFile, get_bind_apply] at h
  cases hfs : (k.files f).fsFile with
  | null =>
    rw [hfs] at h
    cases h
    refine .inl ⟨fun i hi => ?_, rfl, fun _ => rfl⟩
    exact absurd hi.fsFile (by simp [hfs])
  | bifs j =>
    rw [hfs] at h
    cases h
  | pipe i =>
    rw [hfs] at h
    obtain ⟨hl, t, ht, rfl⟩ := withLock_eq_ok.1 h
    rw [get_bind_apply] at ht
    cases hread : (k.files f).readable with
    | true =>
      rw [show ((k.setHeld (.pipe i) true).files f).readable = true from hread] at ht
      rcases closeReader_ok ht with ⟨hr, hf, he⟩ | ⟨w, hr, hw, hf, hfree⟩
      · exact .inl ⟨fun j hj => hr hj.refcount, hf, he⟩
      · exact .inr ⟨i, w, ⟨hread, hfs, hr⟩, hw, hf, hfree.freed, hfree.others⟩
    | false =>
      rw [show ((k.setHeld (.pipe i) true).files f).readable = false from hread, if_neg (by simp)] at ht
      have hfiles : t.files = (k.setHeld (.pipe i) true).files :=
        Frame.same (x := .files) frame_closeWriter ht
      have hends : Part.ends.Same (k.setHeld (.pipe i) true) t := Frame.same frame_closeWriter ht
      refine .inl ⟨fun j hj => ?_, hfiles, hends⟩
      exact absurd hj.readable (by simp [hread])

/-- A reference to the file object `f` is dropped. -/
def File.dropped (x : File) : File := { x with refcount := u32 (x.refcount - 1) }

/-- `f` is the reading end of the pipe `i`, and this is its last reference. -/
structure LastReader (f : FileRef) (i : Fin maxPipes) (k : Kernel cfg) : Prop where
  isPipe : (k.files f).isPipe = true
  readable : (k.files f).readable = true
  fsFile : (k.files f).fsFile = .pipe i
  refcount : (k.files f).dropped.refcount = 0

/-- What `fs_free_file` does to the file objects and the pipes. -/
inductive Frees (f : FileRef) (k k' : Kernel cfg) : Prop
  | plain : (∀ i, ¬LastReader f i k) →
      k'.files = Function.update k.files f { (k.files f).dropped with tmpfileMem := 0 } →
      Part.ends.Same k k' → Frees f k k'
  | last {i : Fin maxPipes} {w : FileRef} {files : FileRef → File} : LastReader f i k →
      (k.pipes i).wf = some w →
      files = Function.update (Function.update k.files f (k.files f).dropped) w
        { Function.update k.files f (k.files f).dropped w with fsFile := .null } →
      k'.files = Function.update files f { files f with tmpfileMem := 0 } →
      FreesPipe i k k' → Frees f k k'

/-- When the page of a generated file is released, the file object only loses the page. -/
theorem freeTmpfile_ok (h : freeTmpfile f k = .ok () k') :
    k'.files = Function.update k.files f { k.files f with tmpfileMem := 0 } ∧ k'.pipes = k.pipes := by
  rw [freeTmpfile, get_bind_apply] at h
  by_cases ht : (k.files f).tmpfileMem = 0
  · rw [if_neg (by simpa using ht)] at h
    cases h
    refine ⟨?_, rfl⟩
    rw [← ht, Function.update_eq_self]
  · rw [if_pos (by simpa using ht)] at h
    obtain ⟨_, k₁, h₁, h⟩ := bind_eq_ok.1 h
    obtain ⟨hl, t, ht', rfl⟩ := withLock_eq_ok.1 h₁
    cases ht'
    cases hfs : (k.files f).fsFile with
    | null =>
      rw [hfs] at h
      cases h
    | pipe _ =>
      rw [hfs] at h
      cases h
    | bifs j =>
      rw [hfs] at h
      cases h
      exact ⟨rfl, rfl⟩

/-- `fs_free_file`, when it returns. -/
theorem fsFreeFile_ok (h : fsFreeFile f k = .ok () k') : Frees f k k' := by
  rw [fsFreeFile, modify_bind_apply, get_bind_apply] at h
  have hfile : (k.setFile f (k.files f).dropped).files f = (k.files f).dropped := by simp [Kernel.setFile]
  by_cases hp : (k.files f).isPipe
  · rw [if_pos (by simpa [Kernel.setFile] using hp)] at h
    obtain ⟨_, k₁, h₁, h⟩ := bind_eq_ok.1 h
    obtain ⟨hfiles, hpipes⟩ := freeTmpfile_ok h
    have hunread : ∀ {i}, Unread f i (k.setFile f (k.files f).dropped) ↔ LastReader f i k := by
      intro i
      constructor
      · rintro ⟨hr, hfs, h0⟩
        rw [hfile] at hr hfs h0
        exact ⟨hp, hr, hfs, h0⟩
      · rintro ⟨-, hr, hfs, h0⟩
        exact ⟨by rw [hfile]; exact hr, by rw [hfile]; exact hfs, by rw [hfile]; exact h0⟩
    rcases pipeCloseFile_ok h₁ with ⟨hno, hf, he⟩ | ⟨i, w, hu, hw, hf, hfree⟩
    · refine .plain (fun i hi => hno i (hunread.2 hi)) ?_ fun i => ?_
      · rw [hfiles, hf]
        simp only [Kernel.setFile, Function.update_self, Function.update_idem, File.dropped]
      · rw [hpipes]
        exact he i
    · refine .last (hunread.1 hu) hw rfl ?_ ⟨?_, fun j hj => ?_⟩
      · rw [hfiles, hf]
        rfl
      · rw [hpipes]
        exact hfree.freed
      · rw [hpipes]
        exact hfree.others j hj
  · rw [if_neg (by simpa [Kernel.setFile] using hp)] at h
    obtain ⟨hfiles, hpipes⟩ := freeTmpfile_ok h
    refine .plain (fun i hi => hp hi.isPipe) ?_ fun i => by rw [hpipes]; rfl
    rw [hfiles]
    simp only [Kernel.setFile, Function.update_self, Function.update_idem, File.dropped]

end HobbyOs
