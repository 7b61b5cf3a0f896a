import HobbyOs.KernelStep

/-!
# Invariants of the baked-in file system

The directories and files change in `init_procfs_files`, which `init_proc` calls,
and at the end of `proc_exit`. What these two keep holds in every state reached
(`TreeInvariant.of_reach`).
-/

namespace HobbyOs

open Outcome Transition

variable {cfg : Config} {α : Type} {p q : Slot cfg} {k k' : Kernel cfg} {m : Machine cfg}
  {I : Kernel cfg → Prop}

/-- Code that leaves the directories and files alone keeps what is about them. -/
theorem triple_of_frame (hsame : ∀ {k k'}, I k → (∀ d, k'.dirs d = k.dirs d) →
      (∀ j, (k'.bfiles j).listed = (k.bfiles j).listed) →
      (∀ q, (k'.procs q).procfsDir = (k.procs q).procfsDir) → I k')
    {S : Set Part} {c : KM cfg α} (hc : Frame S c) (hd : .dirs ∉ S)
    (hf : .bfiles ∉ S) (hp : .procfs ∉ S) :
    Triple I c (fun _ => I) fun _ => I := by
  intro k hk
  have hdirs : Part.dirs.Same k (final (c k)) := hc k _ hd
  have hfiles : Part.bfiles.Same k (final (c k)) := hc k _ hf
  have hprocs : Part.procfs.Same k (final (c k)) := hc k _ hp
  have hfinal := hsame hk hdirs hfiles fun q => (hprocs q).1
  cases hr : c k with
  | ok a k' | error e k' =>
    rw [hr] at hfinal
    exact hfinal

/-- What is about the directories, the files as they are listed, and the
    directories of processes, and is kept where these change. -/
structure TreeInvariant (I : Kernel cfg → Prop) : Prop where
  same : ∀ {k k'}, I k → (∀ d, k'.dirs d = k.dirs d) →
    (∀ j, (k'.bfiles j).listed = (k.bfiles j).listed) →
    (∀ q, (k'.procs q).procfsDir = (k.procs q).procfsDir) → I k'
  files : ∀ q name, Triple I (initProcfsFiles q name) (fun _ => I) fun _ => I
  leave : ∀ p {k}, I k → Triple I (leaveTable p (k.procs p)) (fun _ => I) fun _ => I

namespace TreeInvariant

variable (hI : TreeInvariant I)

include hI

theorem of_frame {S : Set Part} {c : KM cfg α} (hc : Frame S c) (hd : .dirs ∉ S) (hf : .bfiles ∉ S)
    (hp : .procfs ∉ S) : Triple I c (fun _ => I) fun _ => I :=
  triple_of_frame hI.same hc hd hf hp

theorem setProc {x : Proc cfg} (h : I k) (hx : x.procfsDir = (k.procs q).procfsDir) : I (k.setProc q x) := by
  refine hI.same h (fun _ => rfl) (fun _ => rfl) fun r => ?_
  by_cases hr : r = q
  · subst hr
    simpa [Kernel.setProc] using hx
  · simp [Kernel.setProc, hr]

theorem modifyProc {f : Proc cfg → Proc cfg} (hf : ∀ x, (f x).procfsDir = x.procfsDir) :
    Triple I (HobbyOs.modifyProc q f) (fun _ => I) fun _ => I := fun _ hk => hI.setProc hk (hf _)

theorem initProc {pc : ℕ} {name : Option (List UInt8)} :
    Triple I (HobbyOs.initProc q pc name) (fun _ => I) fun _ => I := by
  have hpid := hI.of_frame (S := ∅) (c := allocPid) frame_allocPid (by simp) (by simp) (by simp)
  have hpages := hI.of_frame (S := {.pages, .pte, .stackPages}) (c := initProcPages q)
    (frame_initProcPages (by simp) (by simp) (by simp)) (by simp) (by simp) (by simp)
  unfold HobbyOs.initProc
  refine hpid.bind fun n => Triple.bind (Q := fun _ => I) ?_ fun _ => hpages.bind fun o => ?_
  · exact hI.modifyProc fun _ => rfl
  cases o with
  | none => exact Triple.pure fun _ h => h
  | some o =>
    unfold fillProc
    refine Triple.get_bind fun k => Triple.bind (Q := fun _ => I) ?_ fun _ => ?_
    · exact hI.modifyProc fun _ => rfl
    refine Triple.bind (hI.of_frame (S := ∅) frame_setState (by simp) (by simp) (by simp)) fun _ => ?_
    refine Triple.bind (hI.of_frame (S := ∅) frame_store (by simp) (by simp) (by simp)) fun _ => ?_
    refine Triple.bind (hI.files q name) fun status => ?_
    split
    · exact Triple.pure fun _ h => h
    · refine Triple.bind (hI.of_frame (S := ∅) (frame_withLock ?_) (by simp) (by simp) (by simp)) fun _ =>
        Triple.pure fun _ h => h
      exact Frame.of_rest fun _ => rfl

theorem procFork : Triple I (HobbyOs.procFork p) (fun _ => I) fun _ => I := by
  have hslot := hI.of_frame (S := ∅) (c := allocProcess) frame_allocProcess (by simp) (by simp) (by simp)
  have herrno :=
    fun {e : ℕ} => hI.of_frame (S := ∅) (c := setErrno p e) frame_setErrno (by simp) (by simp) (by simp)
  have hchild := fun {q : Slot cfg} =>
    hI.of_frame (S := {.files, .handles, .fds, .pages, .pte}) (c := forkChild p q)
    (frame_forkChild (by simp) (by simp) (by simp) (by simp) (by simp)) (by simp) (by simp) (by simp)
  unfold HobbyOs.procFork
  refine Triple.bind (Q := fun _ => I) ?_ fun _ => hslot.bind fun o => ?_
  · exact Triple.modify fun k hk => hI.setProc hk rfl
  cases o with
  | none => exact herrno.bind fun _ => Triple.throw fun _ h => h
  | some q =>
    refine Triple.get_bind fun k => hI.initProc.bind fun status => ?_
    split
    · refine herrno.bind fun _ => Triple.bind ?_ fun _ => Triple.pure fun _ h => h
      exact hI.of_frame (S := ∅) frame_release (by simp) (by simp) (by simp)
    · exact hchild

theorem procExit : Triple I (HobbyOs.procExit p) (fun _ => I) fun _ => I := by
  have hpage := fun {ptr : ℕ} => hI.of_frame (S := {.pages}) (c := releasePage ptr)
    (frame_releasePage (by simp)) (by simp) (by simp) (by simp)
  have htable := fun {pt : ℕ} => hI.of_frame (S := {.pages}) (c := freePageTable pt)
    (frame_freePageTable (by simp)) (by simp) (by simp) (by simp)
  refine Triple.get_bind fun k => hpage.bind fun _ => Triple.get_bind fun k => htable.bind fun _ => ?_
  refine Triple.bind (hI.of_frame (S := ∅) frame_setState (by simp) (by simp) (by simp)) fun _ k hk => ?_
  rw [get_bind_apply]
  cases (k.procs p).parent with
  | none => exact hk
  | some r =>
    refine Triple.bind (hI.of_frame (S := ∅) frame_wakeParent (by simp) (by simp) (by simp))
      (fun _ => ?_) k hk
    refine Triple.bind (hI.of_frame (S := {.dirs, .bfiles, .procfs}ᶜ)
      (frame_closeFiles (by simp) (by simp) (by simp) (by simp) (by simp) (by simp) _) (by simp) (by simp)
        (by simp)) fun _ => ?_
    exact hI.leave p hk

/-- A step keeps the invariant. -/
theorem step {e : Event cfg} (h : I m.k) (hs : KernelStep m e k') : I k' := by
  have hquiet : (∀ x ∈ ({.dirs, .bfiles, .procfs} : Set Part), x.Same m.k k') → I k' := fun hsame =>
    hI.same h (hsame .dirs (by simp)) (hsame .bfiles (by simp)) fun q => (hsame .procfs (by simp) q).1
  cases hs with
  | aside hsame _ => exact hquiet fun x _ => hsame x
  | plic _ _ hsame _ => exact hquiet (by rintro x (rfl | rfl | rfl) <;> exact hsame _ nofun)
  | resume _ _ hend _ hsame _ _ =>
    refine hquiet ?_
    rintro x (rfl | rfl | rfl) <;> exact (same_resumed hend (by simp [resumeParts])).trans (hsame _)
  | @call p c how k₁ _ _ _ _ hend _ hsame _ =>
    have hentry : I ((trap m).entry p) := hI.same h (fun _ => rfl) (fun _ => rfl) fun _ => rfl
    have hkeeps : Triple I (runCall p c) (fun _ => I) (fun _ => I) → I k' := by
      intro hc
      have h₁ := hc _ hentry
      cases hend with
      | back hr | away hr =>
        rw [hr] at h₁
        exact hI.same h₁ (hsame .dirs) (hsame .bfiles) fun q => (hsame .procfs q).1
    cases c with
    | exit => exact hkeeps hI.procExit
    | fork => exact hkeeps hI.procFork
    | _ => exact hkeeps (hI.of_frame (frame_runCall p _) (by simp [Call.parts]) (by simp [Call.parts])
        (by simp [Call.parts]))

theorem boot {mem : ℕ → UInt8} (hinit : I (initKernel cfg mem))
    (h : kinit (initKernel cfg mem) = .ok () k) : I k := by
  obtain ⟨k₁, p, pc, name, k₂, h₁, h₂, hsame, -, -⟩ := kinit_ok (fun _ => rfl) h
  have htable := hI.of_frame (S := {.pages, .pte}) (c := makeKernelPageTable)
    (frame_makeKernelPageTable (by simp) (by simp)) (by simp) (by simp) (by simp)
  have hlocked : I (k₁.setHeld (.proc p) true) :=
    hI.same (Triple.of_ok htable hinit h₁) (fun _ => rfl) (fun _ => rfl) fun _ => rfl
  exact hI.same (Triple.of_ok hI.initProc hlocked h₂) (hsame .dirs rfl) (hsame .bfiles rfl)
    fun q => (hsame .procfs rfl q).1

/-- The invariant holds in every state reached, while the kernel has not halted. -/
theorem of_reach (hinit : ∀ mem, I (initKernel cfg mem)) (h : Reach (machine cfg) free m)
    (hm : ∀ why, m.mode ≠ .halted why) : I m.k :=
  kernel_of_reach_running (I := I) (fun hk => hI.boot (hinit _) hk) (fun _ hk _ hs => hI.step hk hs) h hm

end TreeInvariant

end HobbyOs
