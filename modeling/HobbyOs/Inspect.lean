import HobbyOs.Memory
import HobbyOs.Lookup

/-!
# Looking at a process

`proc_plist` lists the pids of all slots that are not free, and `proc_pinfo` tells
about the first slot with a pid. It copies the name of the process, which is null
in a child that has not called `execv` yet.

* `pinfo_shows_iff`: when what `proc_pinfo` stores for a listed pid is about the
  process that has it.
-/

namespace HobbyOs

open Outcome Transition

variable {cfg : Config} {p q r : Slot cfg} {k k' : Kernel cfg} {m : Machine cfg}
  {n : List UInt8} {a info pid : ℕ}

/-! ## What is stored -/

/-- The part of a name that a `pinfo_t` has room for. -/
def shown (n : List UInt8) : List UInt8 := (n.take 15).takeWhile (· ≠ 0)

/-- The `pinfo_t` at `a` is about the process. -/
structure Shows (mem : ℕ → UInt8) (a : ℕ) (x : Proc cfg) : Prop where
  pid : loadWord mem a 4 = x.pid % 2 ^ 32
  name : ∃ n, x.name = some n ∧ cString mem 16 (a + 4) = some (shown n)
  state : loadWord mem (a + 20) 4 = x.state.code
  nscheds : loadWord mem (a + 24) 8 = x.nscheds % 2 ^ 64

/-- What is shown of a process, but for its pid. -/
def report (x : Proc cfg) : Option (List UInt8) × PState × ℕ :=
  (x.name.map shown, x.state, x.nscheds % 2 ^ 64)

theorem PState.code_inj {s t : PState} (h : s.code = t.code) : s = t := by
  cases s <;> cases t <;> first | rfl | cases h

/-- A `pinfo_t` is about a process exactly as far as it shows it. -/
theorem Shows.report_eq {mem : ℕ → UInt8} {x y : Proc cfg} (hx : Shows mem a x) (hy : Shows mem a y) :
    report x = report y := by
  obtain ⟨n, hn, hs⟩ := hx.name
  obtain ⟨n', hn', hs'⟩ := hy.name
  have hname : shown n = shown n' := Option.some.inj (hs.symm.trans hs')
  have hstate : x.state = y.state := PState.code_inj (hx.state.symm.trans hy.state)
  have hnscheds : x.nscheds % 2 ^ 64 = y.nscheds % 2 ^ 64 := hx.nscheds.symm.trans hy.nscheds
  rw [report, report, hn, hn', Option.map_some, Option.map_some, hname, hstate, hnscheds]

theorem Shows.of_report_eq {mem : ℕ → UInt8} {x y : Proc cfg} (hx : Shows mem a x) (hpid : y.pid = x.pid)
    (h : report y = report x) : Shows mem a y := by
  obtain ⟨n, hn, hs⟩ := hx.name
  simp only [report, Prod.mk.injEq] at h
  obtain ⟨hname, hstate, hnscheds⟩ := h
  rw [hn, Option.map_some] at hname
  obtain ⟨n', hn', heq⟩ := Option.map_eq_some_iff.1 hname
  exact ⟨hpid ▸ hx.pid, ⟨n', hn', heq ▸ hs⟩, hstate ▸ hx.state, hnscheds ▸ hx.nscheds⟩

/-- The memory with a `pinfo_t` stored. -/
def pinfoStored (mem : ℕ → UInt8) (a : ℕ) (x : Proc cfg) (n : List UInt8) : ℕ → UInt8 :=
  storeBytes (storeBytes (storeBytes (storeBytes mem a (bytesOfWord x.pid 4)) (a + 4) (strncpy n 16)) (a + 20)
    (bytesOfWord x.state.code 4)) (a + 24) (bytesOfWord x.nscheds 8)

theorem length_strncpy_le (n : List UInt8) : (strncpy n 16).length ≤ 16 := by
  rw [strncpy, List.length_append, List.length_take, List.length_singleton]
  omega

/-- The four fields do not overlap. -/
theorem shows_pinfoStored (mem : ℕ → UInt8) (a : ℕ) {x : Proc cfg} (hn : x.name = some n) :
    Shows (pinfoStored mem a x n) a x := by
  have hlen := length_strncpy_le n
  have hpid : Stored (pinfoStored mem a x n) a (bytesOfWord x.pid 4) :=
    (((stored_storeBytes _ _ _).store (.inl (by simp))).store (.inl (by simp))).store (.inl (by simp))
  have hname : Stored (pinfoStored mem a x n) (a + 4) (strncpy n 16) :=
    ((stored_storeBytes _ _ _).store (.inl (by omega))).store (.inl (by omega))
  have hstate : Stored (pinfoStored mem a x n) (a + 20) (bytesOfWord x.state.code 4) :=
    (stored_storeBytes _ _ _).store (.inl (by simp))
  have hnscheds : Stored (pinfoStored mem a x n) (a + 24) (bytesOfWord x.nscheds 8) := stored_storeBytes _ _ _
  refine ⟨hpid.loadWord, ⟨n, hn, hname.cString ?_⟩, ?_, hnscheds.loadWord⟩
  · rw [List.length_take]
    omega
  · rw [hstate.loadWord]
    cases x.state <;> rfl

/-! ## The call -/

theorem storePinfo_some (hn : (k.procs r).name = some n) :
    storePinfo a r k = .ok () { k with mem := pinfoStored k.mem a (k.procs r) n } := by
  rw [storePinfo, get_bind_apply, hn]
  rfl

theorem storePinfo_none (hn : (k.procs r).name = none) : storePinfo a r k = .error .fault k := by
  rw [storePinfo, get_bind_apply, hn]
  rfl

/-- `proc_pinfo` of a pid, from a kernel in which the locks that it takes are
    free. -/
theorem procPinfo_apply (hk : Calm p k) (hinfo : va2pa k (k.procs p).upagetable info ≠ 0)
    (hfind : findProcByPid k pid = some r) :
    match (k.procs r).name with
    | none => ∃ k', procPinfo p pid info k = .error .fault k'
    | some n => ∃ k', procPinfo p pid info k = .ok 0 k' ∧
        k'.mem = pinfoStored k.mem (va2pa k (k.procs p).upagetable info) (k.procs r) n := by
  have ht : k.held .procTable = false := hk.free _ (by simp)
  have hpid : (k.procs r).pid = pid := (findProcByPid_eq_some.1 hfind).1
  -- Once the search has found `r`, the rest is one section under the lock of the
  -- table.
  have hbody : procPinfo p pid info k = withLock .procTable (do
      if pid ≠ (k.procs p).pid then
        withLock (.proc r) (storePinfo (va2pa k (k.procs p).upagetable info) r)
      else storePinfo (va2pa k (k.procs p).upagetable info) r
      return 0) k := by
    rw [procPinfo, get_bind_apply, if_neg hinfo, withLock, withLock, bind_ok (acquire_ok ht),
      bind_ok (acquire_ok ht), bind_assoc, get_bind_apply,
      show findProcByPid (k.setHeld .procTable true) pid = some r from hfind]
    rfl
  rw [hbody, withLock, bind_ok (acquire_ok ht)]
  -- The caller's own lock is not taken: it is inspecting itself.
  by_cases hown : pid ≠ (k.procs p).pid
  · have hr : k.held (.proc r) = false := by
      refine hk.free _ (proc_mem_others.2 ?_)
      rintro rfl
      exact hown hpid.symm
    have hr' : (k.setHeld .procTable true).held (.proc r) = false := by
      rw [Kernel.setHeld_held_of_ne (by simp), hr]
    rw [if_pos hown, bind_assoc]
    cases hn : (k.procs r).name with
    | none =>
      have hstore : storePinfo (va2pa k (k.procs p).upagetable info) r
          ((k.setHeld .procTable true).setHeld (.proc r) true) =
            .error .fault ((k.setHeld .procTable true).setHeld (.proc r) true) := storePinfo_none hn
      have hlock : withLock (.proc r) (storePinfo (va2pa k (k.procs p).upagetable info) r)
          (k.setHeld .procTable true) = .error .fault ((k.setHeld .procTable true).setHeld (.proc r) true) := by
        rw [withLock, bind_ok (acquire_ok hr'), bind_error hstore]
      exact ⟨_, by rw [bind_error hlock]⟩
    | some n =>
      have hstore : storePinfo (va2pa k (k.procs p).upagetable info) r
          ((k.setHeld .procTable true).setHeld (.proc r) true) = .ok () _ := storePinfo_some hn
      exact ⟨_, by rw [bind_ok (withLock_apply hr' hstore)]; rfl, rfl⟩
  · rw [if_neg hown, bind_assoc]
    cases hn : (k.procs r).name with
    | none =>
      have hstore : storePinfo (va2pa k (k.procs p).upagetable info) r (k.setHeld .procTable true) =
          .error .fault (k.setHeld .procTable true) := storePinfo_none hn
      exact ⟨_, by rw [bind_error hstore]⟩
    | some n =>
      have hstore : storePinfo (va2pa k (k.procs p).upagetable info) r (k.setHeld .procTable true) = .ok () _ :=
        storePinfo_some hn
      exact ⟨_, by rw [bind_ok hstore]; rfl, rfl⟩

/-- `proc_pinfo` of the pid of the process in `q` returns, and shows that process. -/
def Inspects (p q : Slot cfg) (k : Kernel cfg) (info : ℕ) : Prop :=
  ∃ k', procPinfo p (k.procs q).pid info k = .ok 0 k' ∧
    Shows k'.mem (va2pa k (k.procs p).upagetable info) (k.procs q)

/-- A slot of its own, or one that shows the same, is the first with the pid. -/
def FirstAlike (k : Kernel cfg) (q : Slot cfg) : Prop :=
  ∃ r, findProcByPid k (k.procs q).pid = some r ∧ report (k.procs r) = report (k.procs q)

theorem inspects_iff (hk : Calm p k) (hinfo : va2pa k (k.procs p).upagetable info ≠ 0) :
    Inspects p q k info ↔ (k.procs q).name ≠ none ∧ FirstAlike k q := by
  cases hfind : findProcByPid k (k.procs q).pid with
  | none => exact absurd rfl (findProcByPid_eq_none.1 hfind q)
  | some r =>
    have hpid : (k.procs r).pid = (k.procs q).pid := (findProcByPid_eq_some.1 hfind).1
    have happly := procPinfo_apply hk hinfo hfind
    have halike : FirstAlike k q ↔ report (k.procs r) = report (k.procs q) := by
      rw [FirstAlike, hfind]
      exact ⟨fun ⟨_, hr, h⟩ => Option.some.inj hr ▸ h, fun h => ⟨r, rfl, h⟩⟩
    rw [halike]
    -- `proc_pinfo` shows the first slot with the pid, which is `r`.
    constructor
    · rintro ⟨k', hret, hshows⟩
      obtain ⟨n, hn, -⟩ := hshows.name
      refine ⟨by simp [hn], ?_⟩
      cases hr : (k.procs r).name with
      | none =>
        rw [hr] at happly
        obtain ⟨k'', hfault⟩ := happly
        rw [hfault] at hret
        cases hret
      | some n' =>
        rw [hr] at happly
        obtain ⟨k'', hok, hmem⟩ := happly
        rw [hok] at hret
        cases hret
        rw [hmem] at hshows
        exact (shows_pinfoStored _ _ hr).report_eq hshows
    · rintro ⟨hname, hreport⟩
      cases hr : (k.procs r).name with
      | none =>
        have h := congrArg Prod.fst hreport
        rw [report, report, hr, Option.map_none] at h
        exact absurd (Option.map_eq_none_iff.1 h.symm) hname
      | some n' =>
        rw [hr] at happly
        obtain ⟨k'', hok, hmem⟩ := happly
        refine ⟨k'', hok, ?_⟩
        rw [hmem]
        exact (shows_pinfoStored _ _ hr).of_report_eq hpid.symm hreport.symm

/-- A listed process can be inspected if and only if it has a name, and no slot
    before its own has its pid, or shows something else. -/
theorem pinfo_shows_iff (h : Reach (machine cfg) free m) (hmode : m.mode = .user) (hp : m.k.cpuProc = some p)
    (hinfo : va2pa ((trap m).entry p) (((trap m).entry p).procs p).upagetable info ≠ 0) (q : Slot cfg) :
    Inspects p q ((trap m).entry p) info ↔ (m.k.procs q).name ≠ none ∧
    FirstAlike ((trap m).entry p) q := by
  have hat := (base_of_reach h).at_
  rw [hmode] at hat
  obtain ⟨p', hp', hfree⟩ := hat
  obtain rfl : p' = p := Option.some.inj (hp'.cpu.symm.trans hp)
  have hcalm : Calm p' ((trap m).entry p') := by
    refine ⟨hfree, ?_⟩
    rw [Kernel.entry_core, show (trap m).core = m.k.core from rfl, hp'.running]
    decide
  exact inspects_iff hcalm hinfo

/-- A child that has been forked is listed before it has a name. -/
theorem forked_child_unnamed :
    ¬∀ (m : Machine .qemuE) (p q : Slot .qemuE) (info : ℕ), Reach (machine .qemuE) free m →
    m.mode = .user →
      m.k.cpuProc = some p → (m.k.procs q).state ≠ .available →
      va2pa ((trap m).entry p) (((trap m).entry p).procs p).upagetable info ≠ 0 →
      Inspects p q ((trap m).entry p) info := by
  have h : ∃ m ∈ runFrom .qemuE ([Event.kernel, .kernel] ++ calls 2 0 0 0 []), m.mode = .user ∧
      m.k.cpuProc = some ⟨0, by decide⟩ ∧ (m.k.procs ⟨1, by decide⟩).state ≠ .available ∧
      va2pa ((trap m).entry ⟨0, by decide⟩)
        (((trap m).entry ⟨0, by decide⟩).procs ⟨0, by decide⟩).upagetable
        0x80003d00 ≠ 0 ∧
      value (procPinfo ⟨0, by decide⟩ (m.k.procs ⟨1, by decide⟩).pid 0x80003d00
        ((trap m).entry ⟨0, by decide⟩)) = none := by
    decide +kernel
  obtain ⟨m, hm, hmode, hcpu, hlisted, hinfo, hfault⟩ := h
  intro hall
  obtain ⟨k', hret, -⟩ := hall m _ _ _ (reach_of_runFrom hm) hmode hcpu hlisted hinfo
  rw [show (((trap m).entry ⟨0, by decide⟩).procs ⟨1, by decide⟩).pid =
    (m.k.procs ⟨1, by decide⟩).pid from rfl]
    at hret
  rw [hret] at hfault
  cases hfault

/-- The first process looks at itself. -/
theorem first_process_shown : ∃ m : Machine .qemuE, Reach (machine .qemuE) free m ∧
    Inspects ⟨0, by decide⟩ ⟨0, by decide⟩ ((trap m).entry ⟨0, by decide⟩) 0x80003d00 := by
  obtain ⟨m, hm, hmode, hcpu, hinfo, hname, hfind⟩ : ∃ m ∈ runFrom .qemuE [.kernel, .kernel],
      m.mode = .user ∧
      m.k.cpuProc = some ⟨0, by decide⟩ ∧
      va2pa ((trap m).entry ⟨0, by decide⟩)
        (((trap m).entry ⟨0, by decide⟩).procs ⟨0, by decide⟩).upagetable
        0x80003d00 ≠ 0 ∧
      (m.k.procs ⟨0, by decide⟩).name ≠ none ∧
      findProcByPid ((trap m).entry ⟨0, by decide⟩)
        (((trap m).entry ⟨0, by decide⟩).procs ⟨0, by decide⟩).pid =
        some ⟨0, by decide⟩ := by
    decide +kernel
  exact ⟨m, reach_of_runFrom hm, (pinfo_shows_iff (reach_of_runFrom hm) hmode hcpu hinfo _).2
    ⟨hname, _, hfind, rfl⟩⟩

end HobbyOs
