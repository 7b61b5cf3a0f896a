import HobbyOs.FileObjects
import HobbyOs.Lib.References
import HobbyOs.Lives

/-!
# System calls on descriptors

What the system calls that open, close, copy and hand over descriptors do to the
table of file objects and to the descriptors, when they return; and what a
`fork` and an `exit` do to them.

* A call opens a descriptor, or closes one: `SetsFd`.
* What the call takes from the table and does not give a descriptor to stays in
  use: `Opens` and `Attaches` say when.
* `fork` copies the descriptors, and counts them (`copyFiles_ok`).
* `proc_exit` does not return; it closes the files in turn (`procExit_closes`).
-/

namespace HobbyOs

open Outcome

variable {cfg : Config} {α β : Type} {p q : Slot cfg} {k k' : Kernel cfg} {f g : FileRef}

theorem Frame.same_fds {m : KM cfg α} {a : α} (hm : Frame {.fds}ᶜ m) (h : m k = .ok a k') (r : Slot cfg) :
    (k'.procs r).files = (k.procs r).files :=
  Frame.same hm h r

theorem Frame.same_files {m : KM cfg α} {a : α} (hm : Frame {.files}ᶜ m) (h : m k = .ok a k') :
    k'.files = k.files :=
  Frame.same hm h

/-- Code that leaves the core alone does so whatever locks are held. -/
theorem Still.core_eq {L : Set (Lock cfg)} {m : KM cfg α} {a : α} (hm : Still L m) (h : m k = .ok a k') :
    k'.core = k.core := by
  have hcore := (hm (fun _ => false) (fun _ _ => rfl) k).1
  rwa [h] at hcore

/-- The descriptor `i` of `p` is set to `v`, and no other one is set. -/
structure SetsFd (p : Slot cfg) (i : Fin maxProcFds) (v : Option FileRef) (k k' : Kernel cfg) : Prop where
  own : (k'.procs p).files = Function.update (k.procs p).files i v
  others : ∀ q ≠ p, (k'.procs q).files = (k.procs q).files

theorem SetsFd.setProc {i : Fin maxProcFds} {v : Option FileRef} {x : Proc cfg}
    (h : x.files = Function.update (k.procs p).files i v) : SetsFd p i v k (k.setProc p x) where
  own := by simp [Kernel.setProc, h]
  others q hq := by simp [Kernel.setProc, hq]

theorem SetsFd.of_same {i : Fin maxProcFds} {v : Option FileRef} {k₁ k₂ : Kernel cfg}
    (h : Part.fds.Same k k₁) (hs : SetsFd p i v k₁ k₂) (h' : Part.fds.Same k₂ k') :
    SetsFd p i v k k' where
  own := by rw [show (k'.procs p).files = (k₂.procs p).files from h' p, hs.own,
    show (k₁.procs p).files = (k.procs p).files from h p]
  others q hq := by rw [show (k'.procs q).files = (k₂.procs q).files from h' q, hs.others q hq,
    show (k₁.procs q).files = (k.procs q).files from h q]

/-- `proc->files[fd] = f`, when it returns. -/
theorem setFd_ok {fd : ℕ} {v : Option FileRef} (h : setFd p fd v k = .ok () k') :
    k'.files = k.files ∧ ∃ i : Fin maxProcFds, fd = i ∧ SetsFd p i v k k' := by
  rw [setFd] at h
  split at h
  · rename_i hfd
    cases h
    exact ⟨rfl, ⟨fd, hfd⟩, rfl, .setProc rfl⟩
  · cases h

/-! ## Opening -/

/-- Of the file objects, at most `f` is changed, and it is in use as it was. -/
structure OnlyFile (f : FileRef) (files files' : FileRef → File) : Prop where
  others : ∀ g ≠ f, files' g = files g
  refcount : (files' f).refcount = (files f).refcount
  readable : (files' f).readable = (files f).readable
  writable : (files' f).writable = (files f).writable
  isPipe : (files' f).isPipe = (files f).isPipe

namespace OnlyFile

variable {files files' : FileRef → File}

theorem refl : OnlyFile f files files := ⟨fun _ _ => rfl, rfl, rfl, rfl, rfl⟩

theorem update (h : OnlyFile f files files') {x : File} (hc : x.refcount = (files' f).refcount)
    (hr : x.readable = (files' f).readable) (hw : x.writable = (files' f).writable)
    (hp : x.isPipe = (files' f).isPipe) : OnlyFile f files (Function.update files' f x) where
  others g hg := by rw [Function.update_of_ne hg, h.others g hg]
  refcount := by rw [Function.update_self, hc, h.refcount]
  readable := by rw [Function.update_self, hr, h.readable]
  writable := by rw [Function.update_self, hw, h.writable]
  isPipe := by rw [Function.update_self, hp, h.isPipe]

end OnlyFile

/-- A function that changes no file object keeps what is known of them. -/
theorem Frame.keeps {I : (FileRef → File) → Prop} {m : KM cfg α} (hm : Frame {.files}ᶜ m) :
    Triple (fun k => I k.files) m (fun _ k => I k.files) fun _ _ => True := by
  intro k hk
  have h := hm k .files (by simp)
  cases hr : m k with
  | ok a k' =>
    rw [hr] at h
    show I k'.files
    rw [show k'.files = k.files from h]
    exact hk
  | error e k' => trivial

theorem fsOpen_onlyFile {files : FileRef → File} {path : List UInt8} :
    Triple (fun k => OnlyFile f files k.files) (fsOpen p f path) (fun _ k => OnlyFile f files k.files)
      fun _ _ => True := by
  -- Each write of `fs_open` sets fields of `f` other than those that `OnlyFile` is
  -- about.
  have hset : ∀ g : File → File, (∀ x, (g x).refcount = x.refcount ∧ (g x).readable = x.readable ∧
      (g x).writable = x.writable ∧ (g x).isPipe = x.isPipe) → Triple (fun k => OnlyFile f files k.files)
      (modify fun k => k.setFile f (g (k.files f)) : KM cfg PUnit) (fun _ k => OnlyFile f files k.files)
      fun _ _ => True := fun g hg => Triple.modify fun k hk =>
    hk.update (hg _).1 (hg _).2.1 (hg _).2.2.1 (hg _).2.2.2
  have hend : ∀ r : ℤ, Triple (fun k => OnlyFile f files k.files) (do
      modify fun k => k.setFile f { k.files f with read := .bifs, write := .bifs }
      return r : KM cfg ℤ) (fun _ k => OnlyFile f files k.files) fun _ _ => True := fun r =>
    Triple.bind (hset (fun x => { x with read := .bifs, write := .bifs }) fun _ => ⟨rfl, rfl, rfl, rfl⟩)
      fun _ => Triple.pure fun _ h => h
  refine Triple.bind (Frame.keeps frame_bifsOpen) fun a => ?_
  cases a with
  | inl e => exact Triple.pure fun _ h => h
  | inr j =>
    refine Triple.bind (hset (fun x => { x with fsFile := .bifs j }) fun _ => ⟨rfl, rfl, rfl, rfl⟩)
      fun _ => ?_
    refine Triple.get_bind fun a => ?_
    dsimp only
    split
    · refine Triple.get_bind fun a => Triple.bind (Frame.keeps (frame_kalloc (by simp))) fun b => ?_
      cases b with
      | none =>
        refine Triple.bind (hset (fun x => { x with tmpfileMem := 0 }) fun _ => ⟨rfl, rfl, rfl, rfl⟩)
          fun _ => ?_
        exact Triple.pure fun _ h => h
      | some page =>
        refine Triple.bind (hset (fun x => { x with tmpfileMem := page }) fun _ => ⟨rfl, rfl, rfl, rfl⟩)
          fun _ => Triple.get_bind fun a => ?_
        have hdata : Triple (fun k => OnlyFile f files k.files) (do
            modify fun k => { k with
              bfiles := Function.update k.bfiles j { k.bfiles j with data := .page page } }
            modify fun k => k.setFile f { k.files f with read := .bifs, write := .bifs }
            return 0 : KM cfg ℤ) (fun _ k => OnlyFile f files k.files) fun _ _ => True :=
          Triple.bind (Triple.modify fun _ h => h) fun _ => hend 0
        split
        · exact hdata
        · exact Triple.bind (Triple.modify fun _ h => h) fun _ => hdata
    · exact hend 0

/-- `fs_open`, when it returns, has changed no other file object. -/
theorem fsOpen_ok {path : List UInt8} {r : ℤ} (h : fsOpen p f path k = .ok r k') :
    Part.fds.Same k k' ∧ OnlyFile f k.files k'.files :=
  ⟨Frame.same (frame_fsOpen (by simp) (by simp) (by simp) (by simp) (by simp)) h,
    fsOpen_onlyFile.of_ok OnlyFile.refl h⟩

/-- What `proc_open` of the process `p` may have done. -/
inductive Opens (p : Slot cfg) (k k' : Kernel cfg) : Prop
  | none : Part.files.Same k k' → Part.fds.Same k k' → Opens p k k'
  /-- The file object stays in use, and has no descriptor. -/
  | lost {i : Fin maxFiles} : freeFile k = some i →
      OnlyFile (.ftable i) (Function.update k.files (.ftable i) (k.files (.ftable i)).taken) k'.files →
      Part.fds.Same k k' → Opens p k k'
  | opened {i : Fin maxFiles} {fd : Fin maxProcFds} : freeFile k = some i →
      OnlyFile (.ftable i) (Function.update k.files (.ftable i) (k.files (.ftable i)).taken) k'.files →
      (k.procs p).files fd = .none → SetsFd p fd (some (.ftable i)) k k' → Opens p k k'

/-- `proc_open` from where there is a file object, when it returns. -/
theorem openFile_ok {path : ℕ} {r : ℤ} (h : openFile p f path k = .ok r k') :
    OnlyFile f k.files k'.files ∧ (Part.fds.Same k k' ∨
      ∃ fd, (k.procs p).files fd = none ∧ SetsFd p fd (some f) k k') := by
  obtain ⟨hl, t, ht, rfl⟩ := withLock_eq_ok.1 h
  obtain ⟨o, k₁, h₁, ht⟩ := bind_eq_ok.1 ht
  rcases fdAlloc_ok h₁ with ⟨rfl, rfl, -⟩ | ⟨fd, rfl, hfd, rfl⟩
  · cases ht
    exact ⟨.refl, .inl fun _ => rfl⟩
  · obtain ⟨s, k₂, h₂, ht⟩ := bind_eq_ok.1 ht
    obtain ⟨status, k₃, h₃, ht⟩ := bind_eq_ok.1 ht
    have hfiles₂ := Frame.same (x := .files) frame_readString h₂
    have hfds₂ := Frame.same (x := .fds) frame_readString h₂
    obtain ⟨hfds₃, honly⟩ := fsOpen_ok h₃
    rw [show k₂.files = k.files from hfiles₂] at honly
    have hset : SetsFd p fd (some f) k k₃ :=
      .of_same (show Part.fds.Same k (k.setHeld (.proc p) true) from fun _ => rfl) (.setProc rfl)
        (hfds₂.trans hfds₃)
    split at ht
    · obtain ⟨_, k₄, h₄, ht⟩ := bind_eq_ok.1 ht
      obtain ⟨hfiles₄, i, hi, hset'⟩ := setFd_ok h₄
      obtain rfl : fd = i := Fin.ext hi
      cases ht
      -- The open failed: the descriptor that was taken is free again.
      refine ⟨hfiles₄ ▸ honly, .inl fun q => ?_⟩
      show (k₄.procs q).files = (k.procs q).files
      by_cases hq : q = p
      · subst hq
        rw [hset'.own, hset.own, Function.update_idem]
        exact hfd ▸ Function.update_eq_self fd _
      · rw [hset'.others q hq, hset.others q hq]
    · cases ht
      exact ⟨honly, .inr ⟨fd, hfd, hset.own, hset.others⟩⟩

/-- `proc_open`, when it returns. -/
theorem procOpen_ok {path : ℕ} {r : ℤ} (h : procOpen p path k = .ok r k') : Opens p k k' := by
  rw [procOpen, get_bind_apply] at h
  split at h
  · cases h
    exact .none rfl fun _ => rfl
  · obtain ⟨o, k₁, h₁, h⟩ := bind_eq_ok.1 h
    rcases fsAllocFile_ok h₁ with ⟨-, rfl, rfl⟩ | ⟨i, hi, rfl, rfl⟩
    · cases h
      exact .none rfl fun _ => rfl
    · obtain ⟨honly, hfds | ⟨fd, hfd, hset⟩⟩ := openFile_ok h
      · exact .lost hi honly hfds
      · exact .opened hi honly hfd ⟨hset.own, hset.others⟩

/-! ## Closing -/

/-- What `proc_close` of the process `p` may have done. -/
inductive ClosesFd (p : Slot cfg) (k k' : Kernel cfg) : Prop
  | none : Part.files.Same k k' → Part.fds.Same k k' → Part.ends.Same k k' → ClosesFd p k k'
  | closed {fd : Fin maxProcFds} {f : FileRef} : (k.procs p).files fd = some f → Frees f k k' →
      SetsFd p fd .none k k' → ClosesFd p k k'

theorem Frees.of_eq {k₁ : Kernel cfg} (h : Frees f k k₁) (hfiles : k'.files = k₁.files)
    (hends : Part.ends.Same k₁ k') : Frees f k k' := by
  cases h with
  | plain hno hf he => exact .plain hno (hfiles.trans hf) (he.trans hends)
  | @last i w files hlast hwf hw hf hfree =>
    refine .last hlast hwf hw (hfiles.trans hf) ⟨?_, fun j hj => ?_⟩
    · exact (congrArg Ends.allocated (hends i)).trans hfree.freed
    · exact (hends j).trans (hfree.others j hj)

/-- `proc_close`, when it returns. -/
theorem procClose_ok {fd : ℕ} {r : ℤ} (h : procClose p fd k = .ok r k') : ClosesFd p k k' := by
  obtain ⟨o, k₁, h₁, h⟩ := bind_eq_ok.1 h
  obtain ⟨rfl, i, hi, ho⟩ := fileOf_ok h₁
  cases o with
  | none =>
    cases h
    exact .none rfl (fun _ => rfl) fun _ => rfl
  | some f =>
    obtain ⟨_, k₂, h₂, h⟩ := bind_eq_ok.1 h
    obtain ⟨_, k₃, h₃, h⟩ := bind_eq_ok.1 h
    cases h
    have hfds : Part.fds.Same k₁ k₂ :=
      Frame.same (frame_fsFreeFile (by simp) (by simp) (by simp) (by simp) (by simp) (by simp)) h₂
    have hends : Part.ends.Same k₂ k' := Frame.same (frame_setFd (by simp)) h₃
    obtain ⟨hfiles, j, hj, hset⟩ := setFd_ok h₃
    obtain rfl : i = j := Fin.ext (by omega)
    exact .closed ho ((fsFreeFile_ok h₂).of_eq hfiles hends) (.of_same hfds hset fun _ => rfl)

/-! ## Copying -/

/-- A reference to the file object is taken. -/
def File.retained (x : File) : File := { x with refcount := u32 (x.refcount + 1) }

/-- What `proc_dup` of the process `p` may have done. -/
inductive Dups (p : Slot cfg) (k k' : Kernel cfg) : Prop
  | none : Part.files.Same k k' → Part.fds.Same k k' → Dups p k k'
  | copied {i fd : Fin maxProcFds} {f : FileRef} : (k.procs p).files i = some f →
      k'.files = Function.update k.files f (k.files f).retained → (k.procs p).files fd = .none →
      SetsFd p fd (some f) k k' → Dups p k k'

/-- `proc_dup`, when it returns. -/
theorem procDup_ok {fd : ℕ} {r : ℤ} (h : procDup p fd k = .ok r k') : Dups p k k' := by
  obtain ⟨o, k₁, h₁, h⟩ := bind_eq_ok.1 h
  obtain ⟨rfl, i, hi, ho⟩ := fileOf_ok h₁
  cases o with
  | none =>
    cases h
    exact .none rfl fun _ => rfl
  | some f =>
    obtain ⟨o', k₂, h₂, h₃⟩ := bind_eq_ok.1 h
    clear h
    rcases fdAlloc_ok h₂ with ⟨rfl, rfl, -⟩ | ⟨j, rfl, hj, rfl⟩
    · cases h₃
      exact .none rfl fun _ => rfl
    · cases h₃
      exact .copied ho rfl hj (.of_same (fun _ => rfl) (.setProc rfl) fun _ => rfl)

/-! ## Handing over -/

/-- What `proc_pipeattch` of the process `p` may have done. -/
inductive Attaches (p : Slot cfg) (pid : ℕ) (fd : ℤ) (k k' : Kernel cfg) : Prop
  | none : Part.files.Same k k' → Part.fds.Same k k' → Attaches p pid fd k k'
  /-- A reference was taken and given back. -/
  | back {i : Fin maxProcFds} {f : FileRef} : (k.procs p).files i = some f →
      k'.files = Function.update k.files f (k.files f).retained.dropped → Part.fds.Same k k' →
      Attaches p pid fd k k'
  | attached {q : Slot cfg} {i : Fin maxProcFds} {f : FileRef} : attachTarget p k pid fd = some (q, f) →
      (k.procs p).files i = some f → k'.files = Function.update k.files f (k.files f).retained →
      (k.procs q).files 1 = .none → SetsFd q 1 (some f) k k' → Attaches p pid fd k k'

/-- The second half of `proc_pipeattch`, when it returns. -/
theorem attachPipe_ok {r : ℤ} (h : attachPipe p q f k = .ok r k') :
    (k'.files = Function.update k.files f (k.files f).dropped ∧ Part.fds.Same k k') ∨
      k'.files = k.files ∧ (k.procs q).files 1 = none ∧ SetsFd q 1 (some f) k k' := by
  obtain ⟨_, k₁, h₁, h⟩ := bind_eq_ok.1 h
  rw [acquire, get_bind_apply] at h₁
  split at h₁
  · cases h₁
  · cases h₁
    rw [get_bind_apply] at h
    split at h
    · cases h
      exact .inl ⟨rfl, fun _ => rfl⟩
    · rename_i hnone
      cases h
      refine .inr ⟨rfl, by simpa [Kernel.setHeld] using hnone, ?_⟩
      exact .of_same (show Part.fds.Same k (k.setHeld (.proc q) true) from fun _ => rfl)
        (.setProc rfl) fun _ => rfl

/-- `proc_pipeattch`, when it returns. -/
theorem procPipeattch_ok {pid : ℕ} {fd : ℤ} {r : ℤ} (h : procPipeattch p pid fd k = .ok r k') :
    Attaches p pid fd k k' := by
  obtain ⟨_, k₁, h₁, h⟩ := bind_eq_ok.1 h
  rw [acquire, get_bind_apply] at h₁
  split at h₁
  · cases h₁
  cases h₁
  obtain ⟨o, k₂, h₂, h⟩ := bind_eq_ok.1 h
  obtain ⟨rfl, i, hi, ho⟩ := fileOf_ok h₂
  cases o with
  | none =>
    cases h
    exact .none rfl fun _ => rfl
  | some f =>
    have ho : (k.procs p).files i = some f := ho
    -- The search runs after the refcount is raised, which no process has to do with.
    have hfind : ∀ {k₁ : Kernel cfg}, k₁.procs = k.procs →
        findProcByPid k₁ pid = findProcByPid k pid := by
      intro k₁ hk₁
      simp only [findProcByPid, hk₁]
    simp only [modify_bind_apply, release, get_bind_apply] at h
    rw [hfind (by rfl)] at h
    cases hq : findProcByPid k pid with
    | none =>
      rw [hq] at h
      cases h
      refine .back ho ?_ fun _ => rfl
      simp only [Kernel.setFile, Kernel.setHeld, Function.update_self, Function.update_idem]
      rfl
    | some q =>
      rw [hq] at h
      rcases attachPipe_ok h with ⟨hfiles, hfds⟩ | ⟨hfiles, hfree, hset⟩
      · refine .back ho ?_ hfds
        rw [hfiles]
        simp only [Kernel.setFile, Kernel.setHeld, Function.update_self, Function.update_idem]
        rfl
      · refine .attached ?_ ho hfiles hfree ⟨hset.own, hset.others⟩
        have hfd : 0 ≤ fd ∧ fd.toNat < maxProcFds := by
          rw [hi]
          exact ⟨Int.natCast_nonneg _, by simp⟩
        have hi' : (⟨fd.toNat, hfd.2⟩ : Fin maxProcFds) = i := Fin.ext (by simp [hi])
        rw [attachTarget, dif_pos hfd, hq, hi', ho]
        rfl

/-! ## Fork -/

/-- The descriptors of a fresh process: the standard streams. -/
def stdFds : Fin maxProcFds → Option FileRef := fun i =>
  if i = 0 then some .stdin else if i = 1 then some .stdout else if i = 2 then some .stderr else none

/-- The descriptors after `init_proc` in the slot `q`: only those of `q` are new,
    and only once the log says that the process is ready. -/
structure InitsFds (q : Slot cfg) (k k' : Kernel cfg) : Prop where
  others : ∀ r ≠ q, (k'.procs r).files = (k.procs r).files
  own : k'.log = k.log ∧ (k'.procs q).files = (k.procs q).files ∨ (k'.procs q).files = stdFds

/-- `init_proc` once the pages are there, when it returns. -/
theorem fillProc_fds {pc sp ksp : ℕ} {name : Option (List UInt8)} {r : ℤ}
    (h : fillProc q pc name sp ksp k = .ok r k') :
    (k'.procs q).files = stdFds ∧ ∀ r ≠ q, (k'.procs r).files = (k.procs r).files := by
  rw [fillProc, get_bind_apply] at h
  simp only [modifyProc, setState, store, modify_bind_apply] at h
  obtain ⟨status, k₁, h₁, h⟩ := bind_eq_ok.1 h
  have hfds₁ := Frame.same_fds (frame_initProcfsFiles (by simp) (by simp) (by simp) (by simp)) h₁
  have hfds : ∀ r, (k'.procs r).files = (k₁.procs r).files := by
    split at h
    · cases h
      exact fun _ => rfl
    · obtain ⟨_, k₂, h₂, h⟩ := bind_eq_ok.1 h
      obtain ⟨-, t, ht, rfl⟩ := withLock_eq_ok.1 h₂
      cases ht
      cases h
      exact fun _ => rfl
  refine ⟨(hfds q).trans ((hfds₁ q).trans ?_), fun r hr => (hfds r).trans ((hfds₁ r).trans ?_)⟩
  · simp only [Kernel.setState, Kernel.setProc, Function.update_self]
    rfl
  · simp only [Kernel.setState, Kernel.setProc, Function.update_of_ne hr]

/-- `init_proc`, when it returns. -/
theorem initProc_fds {pc : ℕ} {name : Option (List UInt8)} {r : ℤ} (h : initProc q pc name k = .ok r k') :
    InitsFds q k k' ∧ (r = 0 → (k'.procs q).files = stdFds) := by
  obtain ⟨n, k₁, h₁, h⟩ := bind_eq_ok.1 h
  have hfds₁ := Frame.same_fds frame_allocPid h₁
  have hlog₁ : k₁.log = k.log := by
    obtain ⟨-, t, ht, rfl⟩ := withLock_eq_ok.1 h₁
    cases ht
    rfl
  simp only [modifyProc, modify_bind_apply] at h
  obtain ⟨o, k₂, h₂, h⟩ := bind_eq_ok.1 h
  have hfds₂ := Frame.same_fds (frame_initProcPages (by simp) (by simp) (by simp)) h₂
  have hlog₂ : k₂.log = k₁.log :=
    congrArg Core.log ((still_initProcPages (L := {.pagedMemory}) rfl).core_eq h₂)
  have hfds : ∀ r, (k₂.procs r).files = (k.procs r).files := by
    intro r
    refine (hfds₂ r).trans (Eq.trans ?_ (hfds₁ r))
    by_cases hr : r = q
    · subst hr
      simp [Kernel.setProc]
    · simp [Kernel.setProc, hr]
  cases o with
  | none =>
    cases h
    exact ⟨⟨fun r _ => hfds r, .inl ⟨hlog₂.trans hlog₁, hfds q⟩⟩, fun h => absurd h (by decide)⟩
  | some pages =>
    obtain ⟨hown, hothers⟩ := fillProc_fds h
    exact ⟨⟨fun r hr => (hothers r hr).trans (hfds r), .inr hown⟩, fun _ => hown⟩

/-- The file object with `n` references more. -/
def File.refs (x : File) (n : ℕ) : File := if n = 0 then x else { x with refcount := u32 (x.refcount + n) }

theorem File.refs_retained (x : File) (n : ℕ) : (x.refs n).retained = x.refs (n + 1) := by
  have hsum : u32 (u32 (x.refcount + n) + 1) = u32 (x.refcount + (n + 1 : ℕ)) := by
    simp only [u32]
    omega
  by_cases hn : n = 0
  · subst hn
    simp [File.refs, File.retained]
  · simp only [File.refs, if_neg hn, File.retained, hsum, Nat.succ_ne_zero, if_false]

/-- `copy_files` up to the descriptors `l`, from the kernel `k`. -/
structure Copies (p q : Slot cfg) (k : Kernel cfg) (l : List (Fin maxProcFds)) (k' : Kernel cfg) : Prop where
  nodup : l.Nodup
  pipes : k'.pipes = k.pipes
  others : ∀ r ≠ q, (k'.procs r).files = (k.procs r).files
  own : ∀ i ∉ l, (k'.procs q).files i = (k.procs p).files i
  files : ∀ f, k'.files f = (k.files f).refs (References.count (References.without (k.procs p).files l) f)

/-- One turn of `copy_files`. -/
theorem Copies.step {i : Fin maxProcFds} {l : List (Fin maxProcFds)} (hqp : q ≠ p) :
    Triple (Copies p q k (i :: l)) (do
      let pf := ((← get).procs p).files i
      match pf with
      | none => pure ()
      | some f =>
        modify fun k => k.setFile f { k.files f with refcount := u32 ((k.files f).refcount + 1) }
      modifyProc q fun x => { x with files := Function.update x.files i pf } : KM cfg Unit)
      (fun _ => Copies p q k l) fun _ _ => True := by
  intro t ht
  have hi : i ∉ l := (List.nodup_cons.1 ht.nodup).1
  have hpf : (t.procs p).files i = (k.procs p).files i := by rw [ht.others p hqp.symm]
  have hcount := fun f => References.count_without (E := (k.procs p).files) hi f
  -- The descriptor is set, with the reference counted or not.
  have hset : ∀ files : FileRef → File, (∀ f, files f = (k.files f).refs
      (References.count (References.without (k.procs p).files l) f)) →
      Copies p q k l ({ t with files := files }.setProc q
        { t.procs q with files := Function.update (t.procs q).files i ((k.procs p).files i) }) := by
    intro files hfiles
    refine ⟨(List.nodup_cons.1 ht.nodup).2, ht.pipes, fun r hr => ?_, fun j hj => ?_, hfiles⟩
    · simpa [Kernel.setProc, hr] using ht.others r hr
    · by_cases hji : j = i
      · subst hji
        simp [Kernel.setProc]
      · simpa [Kernel.setProc, hji] using ht.own j (by simp [hji, hj])
  rw [get_bind_apply, hpf]
  cases hE : (k.procs p).files i with
  | none =>
    rw [hE] at hset hcount
    refine hset t.files fun f => ?_
    rw [ht.files, ← hcount f]
    simp
  | some f =>
    rw [hE] at hset hcount
    refine hset (Function.update t.files f (t.files f).retained) fun g => ?_
    rw [← hcount g]
    by_cases hg : g = f
    · subst hg
      rw [Function.update_self, ht.files, File.refs_retained]
      simp
    · rw [Function.update_of_ne hg, ht.files, if_neg (by simpa using Ne.symm hg), Nat.add_zero]

/-- `copy_files`, when it returns. -/
theorem copyFiles_ok (hqp : q ≠ p) (h : copyFiles q p k = .ok () k') : Copies p q k [] k' := by
  refine (Triple.forM (fun i l => Copies.step hqp) (List.finRange maxProcFds)).of_ok ?_ h
  refine ⟨List.nodup_finRange _, rfl, fun _ _ => rfl, fun i hi =>
    absurd (List.mem_finRange i) hi, fun f => ?_⟩
  rw [References.without_all (fun i => List.mem_finRange i), References.count_none]
  rfl

/-- The two halves of `proc_fork`, when it returns. -/
theorem procFork_halves {r : ℤ} (hk : Calm p k) (hcpu : k.core.cpuProc = some p)
    (h : procFork p k = .ok r k') : ∃ q status k₁, freeSlot k = some q ∧
      initProc q k.trapFrame.pc none (k.forking p q) = .ok status k₁ ∧
      ((status ≠ 0 ∧ r = -1 ∧ ∃ mem, k' = { k₁ with mem := mem }.setHeld (.proc q) false) ∨
        (status = 0 ∧ forkChild p q k₁ = .ok r k')) := by
  have hfree : ∀ q, k.cpuProc ≠ some q → k.held (.proc q) = false := fun q hq =>
    hk.free _ (by rintro ⟨⟩; exact hq hcpu)
  rw [procFork_apply (hk.free .procTable (by simp)) hfree] at h
  cases hq : freeSlot k with
  | none =>
    rw [hq] at h
    cases h
  | some q =>
    rw [hq] at h
    obtain ⟨status, k₁, h₁, h⟩ := bind_eq_ok.1 h
    refine ⟨q, status, k₁, rfl, h₁, ?_⟩
    split at h
    · rename_i hs
      cases h
      exact .inl ⟨hs, rfl, _, rfl⟩
    · rename_i hs
      exact .inr ⟨by simpa using hs, h⟩

/-- The slot that `proc_fork` fills in is not that of its caller, and available. -/
theorem freeSlot_ne (hcpu : k.core.cpuProc = some p) (h : freeSlot k = some q) :
    q ≠ p ∧ (k.core.procs q).state = .available :=
  ⟨fun hqp => (freeSlot_some h).1 (hqp ▸ hcpu), (freeSlot_some h).2⟩

/-- What `proc_fork` of the process `p` may have done, to lives and to files. -/
inductive ForksFiles (p : Slot cfg) (k k' : Kernel cfg) : Prop
  | failed {q : Slot cfg} {born : Bool} : freeSlot k = some q → Birth q born k.core k'.core →
      (born = true → (k'.procs q).files = stdFds) →
      ((k'.procs q).files 1 = .none → (k.procs q).files 1 = .none) →
      (∀ r ≠ q, (k'.procs r).files = (k.procs r).files) →
      k'.files = k.files → Part.ends.Same k k' → ForksFiles p k k'
  | done {q : Slot cfg} : freeSlot k = some q → Birth q true k.core k'.core →
      (k'.procs q).files = (k.procs p).files → (∀ r ≠ q, (k'.procs r).files = (k.procs r).files) →
      (∀ f, k'.files f = (k.files f).refs (References.count (k.procs p).files f)) →
      Part.ends.Same k k' → ForksFiles p k k'

/-- The descriptors of `q` are those of `p`, and counted. -/
structure CopiesFiles (p q : Slot cfg) (k k' : Kernel cfg) : Prop where
  own : (k'.procs q).files = (k.procs p).files
  others : ∀ r ≠ q, (k'.procs r).files = (k.procs r).files
  files : ∀ f, k'.files f = (k.files f).refs (References.count (k.procs p).files f)
  ends : Part.ends.Same k k'

theorem CopiesFiles.of_same {k₁ k₂ : Kernel cfg} (h : CopiesFiles p q k₁ k₂)
    (hfds : ∀ r, (k₁.procs r).files = (k.procs r).files) (hfiles : k₁.files = k.files)
    (hends : Part.ends.Same k k₁) (hfds' : ∀ r, (k'.procs r).files = (k₂.procs r).files)
    (hfiles' : k'.files = k₂.files) (hends' : Part.ends.Same k₂ k') : CopiesFiles p q k k' where
  own := by rw [hfds' q, h.own, hfds p]
  others r hr := by rw [hfds' r, h.others r hr, hfds r]
  files f := by rw [hfiles', h.files, hfds p, hfiles]
  ends := (hends.trans h.ends).trans hends'

/-- What `proc_fork` copies: of it, only `copy_files` is about files. -/
theorem copyProcess_files (hqp : q ≠ p) (h : copyProcess p q k = .ok () k') : CopiesFiles p q k k' := by
  rw [copyProcess, get_bind_apply] at h
  obtain ⟨_, k₁, h₁, h⟩ := bind_eq_ok.1 h
  obtain ⟨_, k₂, h₂, h⟩ := bind_eq_ok.1 h
  obtain ⟨_, k₃, h₃, h⟩ := bind_eq_ok.1 h
  obtain ⟨_, k₄, h₄, h⟩ := bind_eq_ok.1 h
  have hc := copyFiles_ok hqp h₃
  have hcopied : CopiesFiles p q k₂ k₃ :=
    ⟨funext fun i => hc.own i (by simp), hc.others, by simpa using hc.files, fun i => by rw [hc.pipes]⟩
  refine hcopied.of_same (fun r => ?_) ?_ ?_ (fun r => ?_) ?_ ?_
  · exact (Frame.same_fds frame_copyPage h₂ r).trans (Frame.same_fds frame_copyPage h₁ r)
  · exact (Frame.same_files frame_copyPage h₂).trans (Frame.same_files frame_copyPage h₁)
  · exact (Frame.same (x := .ends) frame_copyPage h₁).trans (Frame.same frame_copyPage h₂)
  · exact (Frame.same_fds (frame_mapStack (by simp) (by simp)) h r).trans
      (Frame.same_fds (frame_copyPageTable (by simp) (by simp)) h₄ r)
  · exact (Frame.same_files (frame_mapStack (by simp) (by simp)) h).trans
      (Frame.same_files (frame_copyPageTable (by simp) (by simp)) h₄)
  · exact (Frame.same (x := .ends) (frame_copyPageTable (by simp) (by simp)) h₄).trans
      (Frame.same (frame_mapStack (by simp) (by simp)) h)

/-- An update of a process leaves the descriptors, if it leaves those of the process. -/
theorem setProc_fds {x : Proc cfg} (h : x.files = (k.procs q).files) (r : Slot cfg) :
    ((k.setProc q x).procs r).files = (k.procs r).files := by
  by_cases hr : r = q
  · subst hr
    simpa [Kernel.setProc] using h
  · simp [Kernel.setProc, hr]

/-- The second half of `proc_fork`, when it returns. -/
theorem forkChild_files {r : ℤ} (hqp : q ≠ p) (h : forkChild p q k = .ok r k') : CopiesFiles p q k k' := by
  rw [forkChild, modify_bind_apply] at h
  obtain ⟨_, k₁, h₁, h⟩ := bind_eq_ok.1 h
  simp only [release, record, modify_bind_apply, get_bind_apply, pure_apply, EStateM.Result.ok.injEq] at h
  obtain ⟨-, rfl⟩ := h
  refine (copyProcess_files hqp h₁).of_same (setProc_fds ?_) rfl (fun _ => rfl) (fun r => ?_) rfl fun _ => rfl
  · rfl
  · exact setProc_fds (k := k₁) (x := { k₁.procs q with trap := childTrap (k₁.procs q) (k₁.procs p) })
      rfl r

/-- In the child, `fork` returns `0`. -/
theorem forkChild_a0 {r : ℤ} (h : forkChild p q k = .ok r k') : (k'.procs q).trap.regs TrapFrame.a0 = 0 := by
  rw [forkChild, modify_bind_apply] at h
  obtain ⟨_, k₁, -, h⟩ := bind_eq_ok.1 h
  simp only [release, record, modify_bind_apply, get_bind_apply, pure_apply, EStateM.Result.ok.injEq] at h
  obtain ⟨-, rfl⟩ := h
  simp [Kernel.setProc, Kernel.setHeld, childTrap, TrapFrame.set]

/-- What is left of files and descriptors when `init_proc` of the slot `q` has returned in
    `proc_fork` of `p`. -/
structure Prepared (p q : Slot cfg) (k k₁ : Kernel cfg) : Prop where
  files : k₁.files = k.files
  ends : Part.ends.Same k k₁
  others : ∀ r ≠ q, (k₁.procs r).files = (k.procs r).files

/-- The kernel that `init_proc` is called in has the files and descriptors of the kernel before. -/
theorem forking_fds (r : Slot cfg) : ((k.forking p q).procs r).files = (k.procs r).files :=
  setProc_fds (by rfl) r

theorem initProc_prepared {status : ℤ} {k₁ : Kernel cfg}
    (h : initProc q k.trapFrame.pc none (k.forking p q) = .ok status k₁) : Prepared p q k k₁ where
  files := show k₁.files = (k.forking p q).files from Frame.same_files (frame_initProc (by simp) (by simp)
    (by simp) (by simp) (by simp) (by simp) (by simp) (by simp)) h
  ends := show Part.ends.Same (k.forking p q) k₁ from Frame.same (frame_initProc (by simp) (by simp) (by simp)
    (by simp) (by simp) (by simp) (by simp) (by simp)) h
  others r hr := ((initProc_fds h).1.others r hr).trans (forking_fds r)

theorem forking_lives : SameLives k.core (k.forking p q).core := by
  rw [show (k.forking p q).core = k.core.update p fun x => { x with trap := k.trapFrame } from
    Kernel.setProc_core_of rfl]
  exact .update fun _ => rfl

/-- `init_proc` in `proc_fork`: no lock is in its way. -/
theorem initProc_forking {status : ℤ} {k₁ : Kernel cfg} (hk : Calm p k)
    (h : initProc q k.trapFrame.pc none (k.forking p q) = .ok status k₁) :
    Inits (k.forking p q) q (.ok status k₁) := by
  rw [← h]
  exact initProc_result (by simpa [Kernel.forking, Kernel.setHeld] using hk.free _ (by simp))
    (by simpa [Kernel.forking, Kernel.setHeld] using hk.free _ (by simp)) _ _

/-- The second half of `proc_fork`, when it returns: a process is born, with the descriptors of its parent. -/
theorem forkChild_ok {r : ℤ} {k₁ : Kernel cfg} (hk : Calm p k) (hqp : q ≠ p)
    (hinit : initProc q k.trapFrame.pc none (k.forking p q) = .ok 0 k₁)
    (hchild : forkChild p q k₁ = .ok r k') :
    Birth q true k.core k'.core ∧ CopiesFiles p q k k' := by
  have hprep := initProc_prepared hinit
  have hres := initProc_forking hk hinit
  cases hres with
  | short hs | full hs => exact absurd rfl hs
  | done hc hh _ =>
    have hlocks : k₁.held .pagedMemory = false := by
      rw [hh]
      simpa [Kernel.forking, Kernel.setHeld] using hk.free _ (by simp)
    have hcopies := forkChild_files hqp hchild
    rcases forkChild_result (p := p) (q := q)
      hlocks with ⟨frame', k₂, h₂, hc₂, -⟩ | ⟨e, k₂, h₂, -, -⟩
    · rw [hchild] at h₂
      cases h₂
      refine ⟨.of_same (forking_lives (p := p) (q := q)) ?_, ?_, fun r hr => ?_, fun f => ?_,
        hprep.ends.trans hcopies.ends⟩
      · rw [hc₂, hc]
        exact .created
      · rw [hcopies.own, hprep.others p hqp.symm]
      · rw [hcopies.others r hr, hprep.others r hr]
      · rw [hcopies.files, hprep.others p hqp.symm, hprep.files]
    · rw [hchild] at h₂
      cases h₂

/-- `proc_fork`, when it returns. -/
theorem procFork_ok {r : ℤ} (hk : Calm p k) (hcpu : k.core.cpuProc = some p)
    (h : procFork p k = .ok r k') : ForksFiles p k k' := by
  obtain ⟨q, status, k₁, hslot, hinit, hend⟩ := procFork_halves hk hcpu h
  obtain ⟨hqp, -⟩ := freeSlot_ne hcpu hslot
  rcases hend with ⟨hs, -, mem, rfl⟩ | ⟨rfl, hchild⟩
  · have hprep := initProc_prepared hinit
    obtain ⟨hfds₁, hstd₁⟩ := initProc_fds hinit
    -- A slot that was filled in has the standard descriptors.
    have hone : (k₁.procs q).files 1 = none → (k.procs q).files 1 = none := by
      rcases hfds₁.own with ⟨-, hown⟩ | hown
      · rw [hown, forking_fds]
        exact id
      · rw [hown]
        intro h
        exact absurd h (by decide)
    cases initProc_forking hk hinit with
    | short _ hc _ =>
      refine .failed hslot (show Birth q false k.core _ from .of_same (forking_lives (p := p) (q := q)) ?_)
        (by simp) hone hprep.others
        hprep.files hprep.ends
      show Birth q false _ k₁.core
      rw [hc]
      exact .newPid
    | full _ hc _ _ =>
      refine .failed hslot (show Birth q true k.core _ from .of_same (forking_lives (p := p) (q := q)) ?_)
        (fun _ => ?_) hone hprep.others
        hprep.files hprep.ends
      · show Birth q true _ k₁.core
        rw [hc]
        exact .fresh
      · refine hfds₁.own.resolve_left fun hown => ?_
        have hlen := congrArg (List.length ∘ Core.log) hc
        have : k₁.log.length = (k.forking p q).log.length + 1 := hlen
        rw [hown.1] at this
        omega
    | done => exact absurd rfl hs
  · obtain ⟨hbirth, hcopies⟩ := forkChild_ok hk hqp hinit hchild
    exact .done hslot hbirth hcopies.own hcopies.others hcopies.files hcopies.ends

/-- `proc_fork`, when it returns the number of a child. -/
theorem procFork_done {r : ℤ} (hk : Calm p k) (hcpu : k.core.cpuProc = some p) (h : procFork p k = .ok r k')
    (hr : r ≠ -1) : ∃ q, freeSlot k = some q ∧ Birth q true k.core k'.core ∧ CopiesFiles p q k k' ∧
      (k'.procs q).trap.regs TrapFrame.a0 = 0 := by
  obtain ⟨q, status, k₁, hslot, hinit, ⟨-, hfail, -⟩ | ⟨rfl, hchild⟩⟩ := procFork_halves hk hcpu h
  · exact absurd hfail hr
  · obtain ⟨hbirth, hcopies⟩ := forkChild_ok hk (freeSlot_ne hcpu hslot).1 hinit hchild
    exact ⟨q, hslot, hbirth, hcopies, forkChild_a0 hchild⟩

/-! ## Exit -/

theorem leaveTable_ne_ok {x : Proc cfg} {r : ℤ} : leaveTable p x k ≠ .ok r k' := by
  intro h
  rw [leaveTable] at h
  cases hd : x.procfsDir with
  | none =>
    rw [hd] at h
    cases h
  | some d =>
    cases hj : x.procfsNameFile with
    | none =>
      rw [hd, hj] at h
      cases h
    | some j =>
      rw [hd, hj] at h
      obtain ⟨_, k₁, -, h⟩ := bind_eq_ok.1 h
      obtain ⟨_, k₂, -, h⟩ := bind_eq_ok.1 h
      obtain ⟨_, k₃, -, h⟩ := bind_eq_ok.1 h
      obtain ⟨_, k₄, -, h⟩ := bind_eq_ok.1 h
      cases h

/-- `proc_exit` does not return. -/
theorem procExit_ne_ok {r : ℤ} : procExit p k ≠ .ok r k' := by
  intro h
  rw [procExit, get_bind_apply] at h
  obtain ⟨_, k₁, -, h⟩ := bind_eq_ok.1 h
  rw [get_bind_apply] at h
  obtain ⟨_, k₂, -, h⟩ := bind_eq_ok.1 h
  obtain ⟨_, k₃, -, h⟩ := bind_eq_ok.1 h
  rw [get_bind_apply] at h
  cases hr : (k₃.procs p).parent with
  | none =>
    rw [hr] at h
    cases h
  | some q =>
    rw [hr] at h
    obtain ⟨_, k₄, -, h⟩ := bind_eq_ok.1 h
    obtain ⟨_, k₅, -, h⟩ := bind_eq_ok.1 h
    exact leaveTable_ne_ok h

/-- `proc_exit`, when it goes away, has closed the files of the process. What it
    does before that and after it is not about files; it ends with the entries of
    the process in `/proc`. -/
theorem procExit_closes (hk : Calm p k) (hpar : (k.core.procs p).parent ≠ some p)
    (h : procExit p k = .error .switch k') : ∃ k₁ k₂, closeFiles (k.procs p).files k₁ = .ok () k₂ ∧
      (∀ x ≠ Part.pages, x.Same k k₁) ∧ (∀ x ∉ ({.dirs, .bfiles} : Set Part), x.Same k₂ k') ∧
      ∃ x, Part.procfs.SameProc (k.procs p) x ∧ leaveTable p x k₂ = .error .switch k' := by
  simp only [procExit, get_bind_apply] at h
  obtain ⟨k₁, h₁, hc₁, hh₁⟩ := releasePage_ok (hk.free _ (by simp)) (k.procs p).stackPage
  rw [bind_ok h₁, get_bind_apply] at h
  -- Up to the loop over the files, only pages are given back and the core changes.
  have hsame₁ : ∀ x ≠ Part.pages, x.Same k k₁ :=
    fun x hx => Frame.same (frame_releasePage (by simpa using hx.symm)) h₁
  have hk₁ : Calm p k₁ := hk.same hc₁ hh₁
  rcases (still_freePageTable (L := others p) (by simp)).result (k := k₁) hk₁.free with
    ⟨_, k₂, h₂, hc₂, hh₂⟩ | ⟨e, k₂, h₂, he, hc₂⟩
  · rw [bind_ok h₂] at h
    have hsame₂ : ∀ x ≠ Part.pages, x.Same k k₂ := fun x hx =>
      (hsame₁ x hx).trans (Frame.same (frame_freePageTable (by simpa using hx.symm)) h₂)
    simp only [setState, modify_bind_apply, get_bind_apply] at h
    have hsame₃ : ∀ x ≠ Part.pages, x.Same k (k₂.setState p .zombie .exit) := fun x hx =>
      (hsame₂ x hx).trans (frame_setState (S := ∅) k₂ x (by simp))
    have hcore : (k₂.setState p .zombie .exit).core = k.core.setState p .zombie .exit := by
      rw [Kernel.setState_core, hc₂, hc₁]
    have hheld : (k₂.setState p .zombie .exit).held = k.held := hh₂.trans hh₁
    generalize k₂.setState p .zombie .exit = t at h hsame₃ hcore hheld
    have hparent : (t.procs p).parent = (k.core.procs p).parent := by
      rw [← Kernel.core_procs, hcore]
      simp
    -- Without a parent the exit ends in a null pointer, and does not go away.
    cases hr : (t.procs p).parent with
    | none =>
      rw [hr] at h
      cases h
    | some r =>
      have hrp : r ≠ p := fun hrp => hpar (by rw [← hparent, hr, hrp])
      obtain ⟨k₄, h₄, hc₄, hh₄⟩ := wakeParent_ok (k := t) (r := r)
        (by rw [hheld]; exact hk.free _ (by simpa using hrp)) (t.procs p)
      have hk₄ : Calm p k₄ := ⟨by rw [hh₄, hheld]; exact hk.free, by simp [hc₄, hcore, hrp.symm]⟩
      have hsame₄ : ∀ x ≠ Part.pages, x.Same k k₄ := fun x hx =>
        (hsame₃ x hx).trans (Frame.same frame_wakeParent h₄)
      rw [hr] at h
      simp only [bind_ok h₄] at h
      rw [show (t.procs p).files = (k.procs p).files from hsame₃ .fds (by simp) p] at h
      rcases (quiet_closeFiles (L := others p) (by simp) (by simp) (by simp)
        (k.procs p).files).result hk₄.free
          hk₄.sleepers with ⟨_, k₅, h₅, -, -⟩ | ⟨e, k₅, h₅, he, -⟩
      · rw [bind_ok h₅] at h
        refine ⟨k₄, k₅, h₅, hsame₄, fun x hx => ?_, t.procs p, hsame₃ .procfs (by simp) p, h⟩
        have hlast :=
          frame_leaveTable (p := p) (S := {.dirs, .bfiles}) (by simp) (by simp) (t.procs p) k₅ x hx
        rwa [h] at hlast
      · rw [bind_error h₅] at h
        cases h
        exact absurd he id
  · rw [bind_error h₂] at h
    cases h
    exact absurd he id

end HobbyOs
