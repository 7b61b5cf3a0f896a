import Mathlib.Order.Fin.Basic
import HobbyOs.Base
import HobbyOs.FileObjects

/-!
# Lookups by pid

`find_proc_by_pid` goes through all slots, also those that are free: these keep
the pid of the process they had last, and have the pid 0 before. A free slot
with the pid may come before the process that has it, or be there without one.
Of the three calls that look up a pid, `proc_pinfo` does not fail when there is
none.

* `SeesLiving`: the lookups see the living, and no one else;
* `lookups_see_living_iff`: exactly when they do.
-/

namespace HobbyOs

open Outcome Transition

variable {cfg : Config} {α β : Type} {p q r : Slot cfg} {k k' : Kernel cfg} {m : Machine cfg} {pid : ℕ}

/-- The slot holds a process with the pid. -/
def LivesAs (k : Kernel cfg) (pid : ℕ) (q : Slot cfg) : Prop :=
  (k.procs q).pid = pid ∧ (k.procs q).state ≠ .available

/-- A call has returned with an error. -/
def Fails (r : EStateM.Result (Stop cfg) (Kernel cfg) ℤ) : Prop := ∃ k', r = .ok (-1) k'

/-- However the call has ended, the free slots are as they were. -/
def SparesFree (k : Kernel cfg) (r : EStateM.Result (Stop cfg) (Kernel cfg) ℤ) : Prop :=
  ∀ q, (k.procs q).state = .available → (final r).procs q = k.procs q

/-- The calls of `p` that look up a pid do something to the result of the three. -/
def OfLookups (p : Slot cfg) (k : Kernel cfg) (pid pinfo : ℕ) (fd : ℤ) (type want : ℕ)
    (P : EStateM.Result (Stop cfg) (Kernel cfg) ℤ → Prop) : Prop :=
  P (procPinfo p pid pinfo k) ∧ P (procPipeattch p pid fd k) ∧ P (procWaitByCond p type pid want k)

/-- A lookup finds the process that has the pid, and nobody else; without one, the
    calls that look up the pid fail; and they leave free slots alone. -/
structure SeesLiving (p : Slot cfg) (k : Kernel cfg) (pid pinfo : ℕ) (fd : ℤ) (type want : ℕ) : Prop where
  finds : ∀ q, findProcByPid k pid = some q ↔ LivesAs k pid q
  fails : (∀ q, ¬LivesAs k pid q) → OfLookups p k pid pinfo fd type want Fails
  spares : OfLookups p k pid pinfo fd type want (SparesFree k)

/-! ## The lookup -/

/-- The first slot with the pid is found. -/
theorem findProcByPid_eq_some :
    findProcByPid k pid = some q ↔ (k.procs q).pid = pid ∧ ∀ r < q, (k.procs r).pid ≠ pid := by
  rw [findProcByPid, find_finRange_eq_some]
  simp only [decide_eq_true_eq, decide_eq_false_iff_not]

theorem findProcByPid_eq_none : findProcByPid k pid = none ↔ ∀ r, (k.procs r).pid ≠ pid := by
  simp [findProcByPid]

/-- Slots that are not the first with the pid are free, and come later. -/
def FirstLiving (k : Kernel cfg) (pid : ℕ) (q : Slot cfg) : Prop :=
  LivesAs k pid q ∧ ∀ r ≠ q, (k.procs r).pid = pid → (k.procs r).state = .available ∧ q < r

theorem FirstLiving.find (h : FirstLiving k pid q) : findProcByPid k pid = some q := by
  refine findProcByPid_eq_some.2 ⟨h.1.1, fun r hr hpid => ?_⟩
  exact absurd (h.2 r hr.ne hpid).2 (not_lt.2 hr.le)

theorem FirstLiving.unique (h : FirstLiving k pid q) (hr : LivesAs k pid r) : r = q := by
  by_contra hne
  exact hr.2 (h.2 r hne hr.1).1

/-- A lookup finds the living when the only one with the pid comes first, or no
    slot has the pid. -/
theorem finds_iff : (∀ q, findProcByPid k pid = some q ↔ LivesAs k pid q) ↔
    (∃ q, FirstLiving k pid q) ∨ ∀ r, (k.procs r).pid ≠ pid := by
  constructor
  · intro h
    cases hfind : findProcByPid k pid with
    | none => exact .inr (findProcByPid_eq_none.1 hfind)
    | some q =>
      refine .inl ⟨q, (h q).1 hfind, fun r hr hpid => ?_⟩
      have hstate : (k.procs r).state = .available := by
        by_contra hlive
        have hfind' := (h r).2 ⟨hpid, hlive⟩
        rw [hfind] at hfind'
        cases hfind'
        exact hr rfl
      refine ⟨hstate, lt_of_le_of_ne (not_lt.1 fun hlt => ?_) hr.symm⟩
      exact (findProcByPid_eq_some.1 hfind).2 r hlt hpid
  · rintro (⟨q, hq⟩ | hnone) r
    · rw [hq.find, Option.some.injEq]
      exact ⟨fun h => h ▸ hq.1, fun h => (hq.unique h).symm⟩
    · rw [findProcByPid_eq_none.2 hnone]
      exact ⟨nofun, fun h => absurd h.1 (hnone r)⟩

/-! ## The calls -/

/-- However it ends, `c` leaves the slot `q` alone. -/
def KeepsSlot (q : Slot cfg) (c : KM cfg α) : Prop := ∀ k, (final (c k)).procs q = k.procs q

namespace KeepsSlot

variable {c : KM cfg α} {f : α → KM cfg β}

theorem bind (hc : KeepsSlot q c) (hf : ∀ a, KeepsSlot q (f a)) : KeepsSlot q (c >>= f) :=
  Keeps.bind (f := fun k : Kernel cfg => k.procs q) hc hf

theorem pure {a : α} : KeepsSlot q (Pure.pure a : KM cfg α) := fun _ => rfl

theorem get : KeepsSlot q (MonadState.get : KM cfg (Kernel cfg)) := fun _ => rfl

theorem throw {e : Stop cfg} : KeepsSlot q (MonadExcept.throw e : KM cfg α) := fun _ => rfl

/-- An update of anything but processes. -/
theorem of_procs {g : Kernel cfg → Kernel cfg} (h : ∀ k, (g k).procs = k.procs) :
    KeepsSlot q (modifyGet fun k => (PUnit.unit, g k) : KM cfg PUnit) := fun k => congrFun (h k) q

theorem of_setProc {g : Kernel cfg → Proc cfg} (hq : q ≠ r) :
    KeepsSlot q (modifyGet fun k => (PUnit.unit, k.setProc r (g k)) : KM cfg PUnit) := fun _ =>
  Function.update_of_ne hq _ _

theorem acquire {l : Lock cfg} : KeepsSlot q (HobbyOs.acquire l) := by
  refine KeepsSlot.get.bind fun k => ?_
  split
  · exact .throw
  · exact .of_procs fun _ => rfl

theorem withLock {l : Lock cfg} (hc : KeepsSlot q c) : KeepsSlot q (HobbyOs.withLock l c) :=
  KeepsSlot.acquire.bind fun _ => hc.bind fun _ => KeepsSlot.bind (.of_procs fun _ => rfl) fun _ => .pure

theorem setErrno {e : ℕ} : KeepsSlot q (HobbyOs.setErrno p e) := .of_procs fun _ => rfl

theorem store {a : ℕ} {bs : List UInt8} : KeepsSlot q (HobbyOs.store a bs : KM cfg Unit) :=
  .of_procs fun _ => rfl

end KeepsSlot

theorem keepsSlot_procPinfo {pinfo : ℕ} : KeepsSlot q (procPinfo p pid pinfo) := by
  have hstore : ∀ (a : ℕ) (r : Slot cfg), KeepsSlot q (storePinfo a r) := by
    intro a r
    refine KeepsSlot.get.bind fun k => ?_
    dsimp only
    split
    · exact .throw
    · exact KeepsSlot.store.bind fun _ => KeepsSlot.store.bind fun _ => KeepsSlot.store.bind fun _ => .store
  refine KeepsSlot.get.bind fun k => ?_
  dsimp only
  split
  · exact .pure
  refine KeepsSlot.withLock (KeepsSlot.get.bind fun k => ?_)
  split
  · exact .pure
  split
  · exact (KeepsSlot.withLock (hstore _ _)).bind fun _ => .pure
  · exact (hstore _ _).bind fun _ => .pure

theorem keepsSlot_procWaitByCond {type want : ℕ} (hq : q ≠ p) :
    KeepsSlot q (procWaitByCond p type pid want) := by
  rw [procWaitByCond]
  split
  · exact KeepsSlot.setErrno.bind fun _ => .pure
  refine KeepsSlot.get.bind fun k => ?_
  split
  · exact KeepsSlot.setErrno.bind fun _ => .pure
  refine KeepsSlot.bind (.of_setProc hq) fun _ => KeepsSlot.bind (.of_setProc hq) fun _ => ?_
  exact KeepsSlot.get.bind fun k => KeepsSlot.bind (.of_setProc hq) fun _ => .throw

theorem keepsSlot_attachPipe {f : FileRef} (hq : q ≠ r) : KeepsSlot q (attachPipe p r f) := by
  refine KeepsSlot.acquire.bind fun _ => KeepsSlot.get.bind fun k => ?_
  split
  · refine KeepsSlot.bind (.of_procs fun _ => rfl) fun _ => KeepsSlot.bind (.of_procs fun _ => rfl) fun _ => ?_
    exact KeepsSlot.setErrno.bind fun _ => .pure
  · exact KeepsSlot.bind (.of_setProc hq) fun _ => KeepsSlot.bind (.of_procs fun _ => rfl) fun _ => .pure

/-- What `proc_pipeattch` does once it has the file. -/
def attachFile (p : Slot cfg) (pid : ℕ) (f : FileRef) : KM cfg ℤ := do
  modify fun k => k.setFile f { k.files f with refcount := u32 ((k.files f).refcount + 1) }
  release (.proc p)
  match findProcByPid (← get) pid with
  | none =>
    dropRef f
    setErrno p ESRCH
    return -1
  | some q => attachPipe p q f

theorem procPipeattch_eq {fd : ℤ} : procPipeattch p pid fd = (do
    acquire (.proc p)
    match ← fileOf p fd with
    | none =>
      setErrno p EBADF
      return -1
    | some f => attachFile p pid f : KM cfg ℤ) := rfl

theorem findProcByPid_congr (h : k'.procs = k.procs) : findProcByPid k' pid = findProcByPid k pid := by
  rw [findProcByPid, h]
  rfl

theorem procs_attachFile {f : FileRef} (hq : findProcByPid k pid ≠ some q) :
    (final (attachFile p pid f k)).procs q = k.procs q := by
  rw [attachFile, modify_bind_apply, release, modify_bind_apply, get_bind_apply,
    findProcByPid_congr (k := k) (by rfl)]
  cases hfind : findProcByPid k pid with
  | none => rfl
  | some r =>
    have hqr : q ≠ r := fun h => hq (hfind.trans (congrArg some h.symm))
    exact keepsSlot_attachPipe hqr _

theorem fileOf_apply {fd : ℤ} (h : 0 ≤ fd ∧ fd.toNat < maxProcFds) :
    fileOf p fd k = .ok ((k.procs p).files ⟨fd.toNat, h.2⟩) k := by
  rw [fileOf, dif_pos h]
  rfl

theorem fileOf_outOfBounds {fd : ℤ} (h : ¬(0 ≤ fd ∧ fd.toNat < maxProcFds)) :
    fileOf p fd k = .error .outOfBounds k := by
  rw [fileOf, dif_neg h]
  rfl

theorem procs_procPipeattch {fd : ℤ} (hq : findProcByPid k pid ≠ some q) :
    (final (procPipeattch p pid fd k)).procs q = k.procs q := by
  rw [procPipeattch_eq]
  cases hheld : k.held (.proc p) with
  | true =>
    rw [bind_error (acquire_deadlock hheld)]
    rfl
  | false =>
    rw [bind_ok (acquire_ok hheld)]
    have hq : findProcByPid (k.setHeld (.proc p) true) pid ≠ some q := by
      rwa [findProcByPid_congr (k := k) (by rfl)]
    by_cases hfd : 0 ≤ fd ∧ fd.toNat < maxProcFds
    · rw [bind_ok (fileOf_apply hfd)]
      cases ((k.setHeld (.proc p) true).procs p).files ⟨fd.toNat, hfd.2⟩ with
      | none => rfl
      | some f => exact procs_attachFile hq
    · rw [bind_error (fileOf_outOfBounds hfd)]
      rfl

/-- `proc_pinfo` does not fail for a pid that nobody has. -/
theorem fails_procPinfo_iff {pinfo : ℕ} (hfind : findProcByPid k pid = none) :
    Fails (procPinfo p pid pinfo k) ↔ va2pa k (k.procs p).upagetable pinfo = 0 := by
  rw [procPinfo, get_bind_apply]
  dsimp only
  constructor
  · rintro ⟨k', h⟩
    by_contra hne
    rw [if_neg hne] at h
    obtain ⟨-, k₁, h, -⟩ := withLock_eq_ok.1 h
    rw [get_bind_apply, findProcByPid_congr (k := k) (by rfl), hfind] at h
    cases h
  · intro h
    rw [if_pos h]
    exact ⟨k, rfl⟩

theorem fails_procPipeattch_iff {fd : ℤ} (hfind : findProcByPid k pid = none) :
    Fails (procPipeattch p pid fd k) ↔ k.held (.proc p) = false ∧ 0 ≤ fd ∧ fd.toNat < maxProcFds := by
  rw [procPipeattch_eq]
  constructor
  · rintro ⟨k', h⟩
    obtain ⟨_, k₁, h₁, h⟩ := bind_eq_ok.1 h
    obtain ⟨o, k₂, h₂, -⟩ := bind_eq_ok.1 h
    refine ⟨?_, ?_⟩
    · by_contra hheld
      rw [acquire_deadlock (by simpa using hheld)] at h₁
      cases h₁
    · by_contra hfd
      rw [fileOf_outOfBounds hfd] at h₂
      cases h₂
  · rintro ⟨hheld, hfd⟩
    rw [bind_ok (acquire_ok hheld), bind_ok (fileOf_apply hfd)]
    cases ((k.setHeld (.proc p) true).procs p).files ⟨fd.toNat, hfd.2⟩ with
    | none => exact ⟨_, rfl⟩
    | some f =>
      dsimp only
      rw [attachFile, modify_bind_apply, release, modify_bind_apply, get_bind_apply,
        findProcByPid_congr (k := k) (by rfl), hfind]
      exact ⟨_, rfl⟩

theorem fails_procWaitByCond {type want : ℕ} (hfind : findProcByPid k pid = none) :
    Fails (procWaitByCond p type pid want k) := by
  rw [procWaitByCond]
  split
  · exact ⟨_, rfl⟩
  · rw [get_bind_apply, hfind]
    exact ⟨_, rfl⟩

/-! ## In every state reached -/

/-- The calls leave free slots alone, if the process they look up is not free. -/
theorem spares_lookups {pinfo type want : ℕ} {fd : ℤ} (hp : (k.procs p).state ≠ .available)
    (hfind : ∀ q, findProcByPid k pid = some q → (k.procs q).state ≠ .available) :
    OfLookups p k pid pinfo fd type want (SparesFree k) := by
  refine ⟨fun q _ => keepsSlot_procPinfo k, fun q hq => ?_, fun q hq => ?_⟩
  · exact procs_procPipeattch fun h => hfind q h hq
  · refine keepsSlot_procWaitByCond (fun h => hp ?_) k
    rw [← h]
    exact hq

/-- Lookups by a pid see exactly the living when one process has the pid, and any
    other slot that has it is free and comes later; or when no slot has it, and the
    calls fail for other reasons as well. -/
theorem lookups_see_living_iff {pinfo type want : ℕ} {fd : ℤ} (h : Reach (machine cfg) free m)
    (hmode : m.mode = .user) (hp : m.k.cpuProc = some p) :
    SeesLiving p ((trap m).entry p) pid pinfo fd type want ↔
      (∃ q, FirstLiving ((trap m).entry p) pid q) ∨
      (∀ q, (((trap m).entry p).procs q).pid ≠ pid) ∧
        va2pa ((trap m).entry p) (((trap m).entry p).procs p).upagetable pinfo = 0 ∧
        m.k.held (.proc p) = false ∧ 0 ≤ fd ∧ fd.toNat < maxProcFds := by
  have hat := (base_of_reach h).at_
  rw [hmode] at hat
  obtain ⟨p', hp', -⟩ := hat
  obtain rfl : p' = p := Option.some.inj (hp'.cpu.symm.trans hp)
  have hlive : (((trap m).entry p').procs p').state ≠ .available := by
    rw [show (((trap m).entry p').procs p').state = .running from hp'.running]
    decide
  -- Whether nobody has the pid decides which of the two sides it is.
  constructor
  · rintro ⟨hfinds, hfails, -⟩
    refine (finds_iff.1 hfinds).imp_right fun hnone => ?_
    have hfind := findProcByPid_eq_none.2 hnone
    obtain ⟨hpinfo, hattach, -⟩ := hfails fun q hq => hnone q hq.1
    exact ⟨hnone, (fails_procPinfo_iff hfind).1 hpinfo, (fails_procPipeattch_iff hfind).1 hattach⟩
  · rintro (⟨q, hq⟩ | ⟨hnone, hpinfo, hattach⟩)
    · refine ⟨finds_iff.2 (.inl ⟨q, hq⟩), fun hno => absurd hq.1 (hno q),
        spares_lookups hlive fun r hr => ?_⟩
      rw [hq.find] at hr
      cases hr
      exact hq.1.2
    · have hfind := findProcByPid_eq_none.2 hnone
      refine ⟨finds_iff.2 (.inr hnone), fun _ => ⟨?_, ?_, fails_procWaitByCond hfind⟩,
        spares_lookups hlive fun r hr => ?_⟩
      · exact (fails_procPinfo_iff hfind).2 hpinfo
      · exact (fails_procPipeattch_iff hfind).2 hattach
      · rw [hfind] at hr
        cases hr

/-! ## Two lookups -/

instance (k : Kernel cfg) (pid : ℕ) (q : Slot cfg) : Decidable (LivesAs k pid q) :=
  inferInstanceAs (Decidable (_ ∧ _))

instance (k : Kernel cfg) (pid : ℕ) (q : Slot cfg) : Decidable (FirstLiving k pid q) :=
  inferInstanceAs (Decidable (_ ∧ ∀ _, _))

/-- The slot of a child that was waited for is free, and found. -/
theorem freed_child_found :
    ¬∀ (m : Machine .qemuE) (p : Slot .qemuE) (pid pinfo : ℕ) (fd : ℤ) (type want : ℕ),
      Reach (machine .qemuE) free m → m.mode = .user → m.k.cpuProc = some p →
      SeesLiving p ((trap m).entry p) pid pinfo fd type want := by
  obtain ⟨m, hm, hmode, hp, hfind, hfree⟩ : ∃ m ∈ runFrom .qemuE forkAndWait, m.mode = .user ∧
      m.k.cpuProc = some ⟨0, by decide⟩ ∧
      findProcByPid ((trap m).entry ⟨0, by decide⟩) 1 = some ⟨1, by decide⟩ ∧
      (((trap m).entry ⟨0, by decide⟩).procs ⟨1, by decide⟩).state = .available := by
    decide +kernel
  intro hall
  have hlives := ((hall m _ 1 0 0 0 0 (reach_of_runFrom hm) hmode hp).finds _).1 hfind
  exact hlives.2 hfree

/-- At the first prompt, there is one process, with the pid 0. -/
theorem first_process_seen : ∃ (m : Machine .qemuE) (p : Slot .qemuE), Reach (machine .qemuE) free m ∧
    m.k.cpuProc = some p ∧ SeesLiving p ((trap m).entry p) 0 0x80003d00 1 1 1 := by
  obtain ⟨m, hm, hmode, hp, hfirst⟩ : ∃ m ∈ runFrom .qemuE [.kernel, .kernel], m.mode = .user ∧
      m.k.cpuProc = some ⟨0, by decide⟩ ∧
      FirstLiving ((trap m).entry ⟨0, by decide⟩) 0 ⟨0, by decide⟩ := by
    decide +kernel
  exact ⟨m, _, reach_of_runFrom hm, hp,
    (lookups_see_living_iff (reach_of_runFrom hm) hmode hp).2 (.inl ⟨_, hfirst⟩)⟩

end HobbyOs
