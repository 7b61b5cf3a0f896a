import HobbyOs.Steady

/-!
# What a mark for wake-up does

`proc_mark_for_wakeup`, from a kernel in which it can take its locks: it wakes
every sleeper on the channel whose condition is the channel alone, and touches
nothing but processes.
-/

namespace HobbyOs

open Outcome

variable {cfg : Config} {α : Type} {p q : Slot cfg} {c : Chan cfg} {k k' k'' : Kernel cfg}

/-- The part of the kernel that a pipe and its users work on, processes apart. -/
def Kernel.data (k : Kernel cfg) :
    (Fin maxPipes → Pipe) × (ℕ → ℕ → UInt8) × List Io × (FileRef → File) × (ℕ → UInt8) :=
  (k.pipes, k.kmem, k.io, k.files, k.mem)

/-- The locks of sleepers are free. -/
def SleepersFree (k : Kernel cfg) : Prop :=
  ∀ q, (k.core.procs q).state = .sleeping → k.held (.proc q) = false

/-- Sleepers are woken, and nothing else happens. -/
structure Marks (k k' : Kernel cfg) : Prop where
  wakes : Wakes k.core k'.core
  held : k'.held = k.held
  data : k'.data = k.data

/-- The process sleeps on the channel, until it is marked. -/
structure Sleeps (p : Slot cfg) (c : Chan cfg) (s : Core cfg) : Prop where
  state : (s.procs p).state = .sleeping
  chan : (s.procs p).chan = c
  cond : (s.procs p).cond.type = .chan

namespace Marks

theorem refl : Marks k k := ⟨.refl, rfl, rfl⟩

theorem trans (h : Marks k k') (h' : Marks k' k'') : Marks k k'' :=
  ⟨h.wakes.trans h'.wakes, h'.held.trans h.held, h'.data.trans h.data⟩

/-- A sleeper is still one, or has been woken. -/
theorem sleeping (h : Marks k k') (hq : (k'.core.procs q).state = .sleeping) :
    k'.core.procs q = k.core.procs q := by
  refine (h.wakes.procs_eq q).resolve_right fun hw => ?_
  rw [hw.2] at hq
  cases hq

theorem sleepersFree (h : Marks k k') (hk : SleepersFree k) : SleepersFree k' := by
  intro q hq
  rw [h.held]
  exact hk q (h.sleeping hq ▸ hq)

/-- What is done within a lock. -/
theorem within {l : Lock cfg} (h : Marks (k.setHeld l true) k') (hl : k.held l = false) :
    Marks k (k'.setHeld l false) := by
  refine ⟨h.wakes, ?_, h.data⟩
  show Function.update k'.held _ false = _
  rw [h.held]
  exact update_held_self hl

end Marks

theorem updateProcByChan_marks (h0 : c ≠ .null) (hs : (k.procs q).state = .sleeping)
    (hc : (k.procs q).chan = c) :
    ∃ k', updateProcByChan q c k = .ok () k' ∧ Marks k k' ∧
      ((k.procs q).cond.type = .chan → (k'.core.procs q).state = .ready) := by
  obtain ⟨k', h, hw, hh⟩ := updateProcByChan_ok h0 hs hc
  refine ⟨k', h, ⟨hw, hh, ?_⟩, fun ht => ?_⟩
  · revert h
    simp only [updateProcByChan, modify_bind_apply, get_bind_apply]
    cases (k.procs q).cond.type with
    | chan =>
      intro h
      cases h
      rfl
    | nscheds =>
      dsimp only
      split
      · intro h
        cases h
        rfl
      · intro h
        cases h
        rfl
  · simp only [updateProcByChan, modify_bind_apply, get_bind_apply, ht] at h
    cases h
    rw [Kernel.wake_core]
    simp [Core.wake]

theorem markSlot_marks (h0 : c ≠ .null) (hk : SleepersFree k) (q : Slot cfg) :
    ∃ k', markSlot c q k = .ok () k' ∧ Marks k k' ∧
      (Sleeps q c k.core → (k'.core.procs q).state = .ready) := by
  simp only [markSlot, get_bind_apply]
  by_cases hq : (k.procs q).state = .sleeping ∧ (k.procs q).chan = c
  · rw [if_pos hq]
    have hl := hk q hq.1
    obtain ⟨k', h, hm, hr⟩ := updateProcByChan_marks (k := k.setHeld (.proc q) true) h0 hq.1 hq.2
    exact ⟨_, withLock_apply hl h, hm.within hl, fun hs => hr hs.cond⟩
  · rw [if_neg hq]
    exact ⟨k, rfl, .refl, fun hs => absurd ⟨hs.state, hs.chan⟩ hq⟩

theorem forM_markSlot_marks (h0 : c ≠ .null) (hk : SleepersFree k) (l : List (Slot cfg)) :
    ∃ k', l.forM (markSlot c) k = .ok () k' ∧ Marks k k' ∧
      ∀ q ∈ l, Sleeps q c k.core → (k'.core.procs q).state = .ready := by
  induction l generalizing k with
  | nil => exact ⟨k, rfl, .refl, by simp⟩
  | cons r l ih =>
    obtain ⟨k₁, h₁, hm₁, hr₁⟩ := markSlot_marks h0 hk r
    obtain ⟨k₂, h₂, hm₂, hr₂⟩ := ih (hm₁.sleepersFree hk)
    refine ⟨k₂, ?_, hm₁.trans hm₂, fun q hq hs => ?_⟩
    · exact (bind_ok h₁).trans h₂
    by_cases hawake : (k₁.core.procs q).state = .sleeping
    -- a sleeper that this slot has not woken is another one, and its turn comes
    · have hsame := hm₁.sleeping hawake
      have hqr : q ≠ r := by
        rintro rfl
        rw [hr₁ hs] at hawake
        cases hawake
      refine hr₂ q ((List.mem_cons.1 hq).resolve_left hqr) ?_
      exact ⟨hawake, by rw [hsame]; exact hs.chan, by rw [hsame]; exact hs.cond⟩
    · rw [hm₂.wakes.procs_of_ne_sleeping hawake]
      rcases hm₁.wakes.procs_eq q with h | ⟨-, h⟩
      · rw [h] at hawake
        exact absurd hs.state hawake
      · rw [h]

/-- Every process that sleeps until the channel is marked has been woken. -/
def WakesAll (c : Chan cfg) (k k' : Kernel cfg) : Prop :=
  k.numProcs ≠ 0 → ∀ q, Sleeps q c k.core → (k'.core.procs q).state = .ready

/-- A mark wakes every process that sleeps until its channel is marked. -/
theorem procMarkForWakeup_marks (ht : k.held .procTable = false) (hk : SleepersFree k) (h0 : c ≠ .null) :
    ∃ k', procMarkForWakeup c k = .ok () k' ∧ Marks k k' ∧ WakesAll c k k' := by
  have hk₁ : SleepersFree (k.setHeld .procTable true) := fun q hq =>
    (Kernel.setHeld_held_of_ne (by simp)).trans (hk q hq)
  by_cases hn : k.numProcs = 0
  · refine ⟨_, withLock_apply (t := k.setHeld .procTable true) ht ?_, Marks.refl.within ht, fun h =>
      absurd hn h⟩
    rw [get_bind_apply, if_pos (show (k.setHeld .procTable true).numProcs = 0 from hn)]
    rfl
  · obtain ⟨k', h, hm, hr⟩ := forM_markSlot_marks h0 hk₁ (List.finRange cfg.maxProcs)
    refine ⟨_, withLock_apply ht ?_, hm.within ht, fun _ q hq => hr q (List.mem_finRange q) hq⟩
    rw [get_bind_apply, if_neg (show ¬(k.setHeld .procTable true).numProcs = 0 from hn)]
    exact h

end HobbyOs
