import HobbyOs.Sched

/-!
# The scheduling state

What scheduling is about is a small part of the kernel: the `Core`. Most code
leaves it alone; what the rest does to it is written here in its own terms.

* `Core.update`, `Core.setState`, `Core.wake` and `Core.sleep` are the changes
  that code makes; the kernel's own operations do to the core of a kernel what
  these do (`setProc_core`, `setState_core`).
* `Wakes` is what `proc_mark_for_wakeup` may do: it wakes sleepers, each by its
  channel and its condition, and changes nothing else.
-/

namespace HobbyOs

variable {cfg : Config}

namespace Core

/-- An update of a process. -/
def update (s : Core cfg) (q : Slot cfg) (f : PCore cfg → PCore cfg) : Core cfg :=
  { s with procs := Function.update s.procs q (f (s.procs q)) }

/-- `p->state = new`. -/
def setState (s : Core cfg) (q : Slot cfg) (new : PState) (site : Site cfg) : Core cfg :=
  { s.update q fun x => { x with state := new } with
    log := .change ⟨q, s.procs q, new, site, s.cpuProc.map fun c => (s.procs c).uid, s.now⟩ :: s.log }

/-- Recording an event. -/
def record (s : Core cfg) (e : Ev cfg) : Core cfg := { s with log := e :: s.log }

/-- A sleeper is woken. -/
def wake (s : Core cfg) (q : Slot cfg) (site : Site cfg) : Core cfg :=
  (s.setState q .ready site).update q fun x => { x with chan := .null }

/-- The process `p` falls asleep in a call, with its fields set by `f`. -/
def sleep (s : Core cfg) (p : Slot cfg) (f : PCore cfg → PCore cfg) (frame : TrapFrame)
    (call : Kont cfg) : Core cfg :=
  ((s.update p f).setState p .sleeping .psleep).update p fun x => { x with trap := frame, ctx := call }

/-- The `pid` and the `nscheds` that are read when a channel is taken for a
    process. -/
def asProcess (s : Core cfg) : Chan cfg → ℕ × ℕ
  | .proc q => ((s.procs q).pid, (s.procs q).nscheds)
  | c => s.overlay c

/-! ## Reading back -/

variable (s : Core cfg) (p q : Slot cfg) (f : PCore cfg → PCore cfg) (new : PState)
  (site : Site cfg) (e : Ev cfg)

@[simp] theorem update_procs_self : (s.update q f).procs q = f (s.procs q) := by simp [update]

@[simp] theorem update_procs_of_ne {p q : Slot cfg} (h : p ≠ q) :
    (s.update q f).procs p = s.procs p := by simp [update, h]

@[simp] theorem update_id : s.update q id = s := by simp [update]

theorem update_update (g : PCore cfg → PCore cfg) :
    (s.update q f).update q g = s.update q fun x => g (f x) := by simp [update]

@[simp] theorem update_numProcs : (s.update q f).numProcs = s.numProcs := rfl
@[simp] theorem update_pidCounter : (s.update q f).pidCounter = s.pidCounter := rfl
@[simp] theorem update_cpuProc : (s.update q f).cpuProc = s.cpuProc := rfl
@[simp] theorem update_now : (s.update q f).now = s.now := rfl
@[simp] theorem update_overlay : (s.update q f).overlay = s.overlay := rfl
@[simp] theorem update_log : (s.update q f).log = s.log := rfl

@[simp] theorem setState_procs_self :
    (s.setState q new site).procs q = { s.procs q with state := new } := by
  simp [setState]

@[simp] theorem setState_procs_of_ne {p q : Slot cfg} (h : p ≠ q) :
    (s.setState q new site).procs p = s.procs p := by
  simp [setState, h]

@[simp] theorem setState_numProcs : (s.setState q new site).numProcs = s.numProcs := rfl
@[simp] theorem setState_pidCounter : (s.setState q new site).pidCounter = s.pidCounter := rfl
@[simp] theorem setState_cpuProc : (s.setState q new site).cpuProc = s.cpuProc := rfl
@[simp] theorem setState_now : (s.setState q new site).now = s.now := rfl
@[simp] theorem setState_overlay : (s.setState q new site).overlay = s.overlay := rfl

@[simp] theorem setState_log : (s.setState q new site).log =
    .change ⟨q, s.procs q, new, site, s.cpuProc.map fun c => (s.procs c).uid, s.now⟩ :: s.log := rfl

@[simp] theorem record_procs : (s.record e).procs = s.procs := rfl
@[simp] theorem record_numProcs : (s.record e).numProcs = s.numProcs := rfl
@[simp] theorem record_pidCounter : (s.record e).pidCounter = s.pidCounter := rfl
@[simp] theorem record_cpuProc : (s.record e).cpuProc = s.cpuProc := rfl
@[simp] theorem record_log : (s.record e).log = e :: s.log := rfl

end Core

/-- Nobody yields on the null channel. -/
theorem Kont.yieldChan_ne_null {call : Kont cfg} {c : Chan cfg} (h : call.yieldChan = some c) :
    c ≠ .null := by
  rintro rfl
  cases call <;> simp [yieldChan] at h

/-! ## Waking up -/

/-- Sleepers are woken, each by a mark of its channel that meets its condition. -/
inductive Wakes : Core cfg → Core cfg → Prop
  | refl {s : Core cfg} : Wakes s s
  | chan {s t : Core cfg} {q : Slot cfg} {c : Chan cfg} : Wakes s t →
      c ≠ .null → (t.procs q).state = .sleeping → (t.procs q).chan = c →
      (t.procs q).cond.type = .chan → Wakes s (t.wake q (.chan c))
  | nscheds {s t : Core cfg} {q : Slot cfg} {c : Chan cfg} : Wakes s t →
      c ≠ .null → (t.procs q).state = .sleeping → (t.procs q).chan = c →
      (t.procs q).cond.type = .nscheds →
      (t.procs q).cond.targetPid = (t.asProcess c).1 →
      (t.procs q).cond.wantNscheds ≤ (t.asProcess c).2 →
      Wakes s (t.wake q (.nscheds c (t.asProcess c).1 (t.asProcess c).2))

namespace Wakes

variable {s t u : Core cfg}

theorem trans (h : Wakes s t) (h' : Wakes t u) : Wakes s u := by
  induction h' with
  | refl => exact h
  | chan _ h0 hs hc ht ih => exact .chan ih h0 hs hc ht
  | nscheds _ h0 hs hc ht hp hn ih => exact .nscheds ih h0 hs hc ht hp hn

/-- What one wake-up of a sleeper keeps, a mark keeps. -/
theorem induct {I : Core cfg → Prop} (h : Wakes s t) (hs : I s)
    (hwake : ∀ {u q site}, I u → (u.procs q).state = .sleeping → (u.procs q).chan ≠ .null →
      (site = .chan (u.procs q).chan ∧ (u.procs q).cond.type = .chan ∨
        ∃ o, o = u.asProcess (u.procs q).chan ∧ site = .nscheds (u.procs q).chan o.1 o.2 ∧
          (u.procs q).cond.type = .nscheds ∧ (u.procs q).cond.targetPid = o.1 ∧
          (u.procs q).cond.wantNscheds ≤ o.2) →
      I (u.wake q site)) : I t := by
  induction h with
  | refl => exact hs
  | chan _ h0 hsl hc ht ih => exact hwake ih hsl (hc ▸ h0) (.inl ⟨by rw [hc], ht⟩)
  | nscheds _ h0 hsl hc ht hp hn ih =>
    subst hc
    exact hwake ih hsl h0 (.inr ⟨_, rfl, rfl, ht, hp, hn⟩)

/-- A process is as it was, or has been woken. -/
theorem procs_eq (h : Wakes s t) (q : Slot cfg) :
    t.procs q = s.procs q ∨
      (s.procs q).state = .sleeping ∧ t.procs q = { s.procs q with state := .ready, chan := .null } := by
  refine h.induct (I := fun u => u.procs q = s.procs q ∨ (s.procs q).state = .sleeping ∧
    u.procs q = { s.procs q with state := .ready, chan := .null }) (.inl rfl) ?_
  intro u r site hu hsl _ _
  by_cases hqr : q = r
  · subst hqr
    rcases hu with hu | ⟨_, hu⟩
    · exact .inr ⟨by rw [← hu]; exact hsl, by simp [Core.wake, hu]⟩
    · rw [hu] at hsl
      cases hsl
  · simpa [Core.wake, hqr] using hu

/-- A process that is awake is left alone. -/
theorem procs_of_ne_sleeping (h : Wakes s t) {q : Slot cfg} (hq : (s.procs q).state ≠ .sleeping) :
    t.procs q = s.procs q :=
  (h.procs_eq q).resolve_right fun h => hq h.1

/-- Nothing but processes and the log changes. -/
theorem rest (h : Wakes s t) : t.numProcs = s.numProcs ∧ t.pidCounter = s.pidCounter ∧
    t.cpuProc = s.cpuProc ∧ t.now = s.now ∧ t.overlay = s.overlay := by
  refine h.induct (I := fun u => u.numProcs = s.numProcs ∧ u.pidCounter = s.pidCounter ∧
    u.cpuProc = s.cpuProc ∧ u.now = s.now ∧ u.overlay = s.overlay) ⟨rfl, rfl, rfl, rfl, rfl⟩ ?_
  intro u q site hu _ _ _
  exact hu

end Wakes

/-! ## The core of a kernel -/

namespace Kernel

variable (k : Kernel cfg) (q : Slot cfg) (x : Proc cfg)

theorem core_procs : k.core.procs q = (k.procs q).toPCore := rfl

theorem setProc_core : (k.setProc q x).core = k.core.update q fun _ => x.toPCore := by
  simp only [core, setProc, Core.update, Core.mk.injEq, and_true]
  funext p
  by_cases h : p = q
  · subst h
    simp
  · simp [h]

/-- What an update of a process does to its core. -/
theorem setProc_core_of {k : Kernel cfg} {q : Slot cfg} {x : Proc cfg}
    {f : PCore cfg → PCore cfg} (h : x.toPCore = f (k.core.procs q)) :
    (k.setProc q x).core = k.core.update q f := by
  rw [setProc_core, h]
  rfl

/-- Fields that scheduling does not work on may be set freely. -/
theorem setProc_core_eq (h : x.toPCore = (k.procs q).toPCore) : (k.setProc q x).core = k.core := by
  rw [setProc_core, h]
  simp [Core.update, core]

theorem setState_core (new : PState) (site : Site cfg) :
    (k.setState q new site).core = k.core.setState q new site := by
  have h := setProc_core k q { k.procs q with state := new }
  simp only [setState, Core.setState]
  rw [Core.ext_iff] at h ⊢
  exact ⟨h.1, h.2.1, h.2.2.1, h.2.2.2.1, h.2.2.2.2.1, h.2.2.2.2.2.1, rfl⟩

@[simp] theorem core_asProcess (c : Chan cfg) : k.core.asProcess c = HobbyOs.asProcess k c := by
  cases c <;> rfl

theorem wake_core (site : Site cfg) :
    ((k.setState q .ready site).setProc q { (k.setState q .ready site).procs q with chan := .null }).core
      = k.core.wake q site := by
  rw [setProc_core, Core.wake, ← setState_core]
  rfl

@[simp] theorem setProc_held : (k.setProc q x).held = k.held := rfl
@[simp] theorem setState_held (new : PState) (site : Site cfg) :
    (k.setState q new site).held = k.held := rfl
@[simp] theorem setHeld_core (l : Lock cfg) (b : Bool) : (k.setHeld l b).core = k.core := rfl

end Kernel

end HobbyOs
