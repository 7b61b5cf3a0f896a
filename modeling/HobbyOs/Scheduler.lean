import HobbyOs.Base

/-!
# The loop of the scheduler

`scheduler` goes round the slots of the process table. It remembers the last
slot it ran (`i_after_wakeup`) and whether it has started another round since
(`new_loop`), and sleeps when it comes by a later slot in another round. Here is
the loop for any number of slots (`SchedLoop`), with whatever the processes do
to the table while they run.

* `sleeps_idle`: when it sleeps, it has looked at every slot since it last ran a
  process, and none is ready. The invariant is `SchedLoop.Scanned`;
* `idles_iff`: with nothing to run, it sleeps after one look at each slot, unless
  the process that ran last is in the last slot; then it never does
  (`never_asleep`);
* `follows_of_reach`: the machine, in whatever it does, follows this loop.
-/

namespace HobbyOs

open Outcome Transition

variable {n : ℕ}

/-! ## The loop -/

/-- What `scheduler` goes by in a slot. -/
structure SchedSlot where
  state : PState
  wakeupTime : ℕ
  deriving DecidableEq

/-- `should_wake_up`, for a process that is asleep. -/
def SchedSlot.Due (x : SchedSlot) (now : ℕ) : Prop :=
  x.state = .sleeping ∧ x.wakeupTime ≠ 0 ∧ x.wakeupTime ≤ now

instance (x : SchedSlot) (now : ℕ) : Decidable (x.Due now) := inferInstanceAs (Decidable (_ ∧ _))

/-- A slot that is due is made ready. -/
def SchedSlot.awaken (x : SchedSlot) (now : ℕ) : SchedSlot :=
  if x.Due now then { x with state := .ready } else x

/-- Where the scheduler is. -/
inductive Place (n : ℕ)
  /-- About to look at the slot `i`. -/
  | scan (i : ℕ) (iAfterWakeup : ℤ) (newLoop : Bool)
  /-- It has switched to the process. -/
  | away (p : Fin n)
  /-- In `sleep_scheduler`. -/
  | asleep
  deriving DecidableEq

/-- The scheduler and its table, and the slots it has looked at since it was
    called, or switched back to. -/
structure SchedLoop (n : ℕ) where
  procs : Fin n → SchedSlot
  place : Place n
  looked : List (Fin n)

namespace SchedLoop

/-- `scheduler` is called. -/
def start (procs : Fin n → SchedSlot) : SchedLoop n := ⟨procs, .scan 0 (-1) false, []⟩

/-- The process `p` has switched back to `scheduler`. -/
def after (p : Fin n) (procs : Fin n → SchedSlot) : SchedLoop n := ⟨procs, .scan (p + 1) p false, []⟩

/-- The sleepers that `proc_mark_for_wakeup` wakes are ready. -/
def mark (woken : Fin n → Bool) (procs : Fin n → SchedSlot) : Fin n → SchedSlot := fun q =>
  if woken q ∧ (procs q).state = .sleeping then { procs q with state := .ready } else procs q

/-- `scheduler` goes on from the slot `i`, at the time `now`. -/
def look (now : ℕ) (woken : Fin n → Bool) (i : ℕ) (iAfterWakeup : ℤ)
    (newLoop : Bool) (s : SchedLoop n) :
    SchedLoop n :=
  if h : i < n then
    if newLoop ∧ iAfterWakeup < i then { s with place := .asleep }
    else
      let p : Fin n := ⟨i, h⟩
      let x := (s.procs p).awaken now
      if x.state = .ready then
        ⟨mark woken (Function.update s.procs p { x with state := .running }), .away p, p :: s.looked⟩
      else ⟨Function.update s.procs p x, .scan (i + 1) iAfterWakeup newLoop, p :: s.looked⟩
  else { s with place := .scan 0 iAfterWakeup true }

end SchedLoop

/-- What happens to the scheduler. -/
inductive SchedEvent (n : ℕ)
  /-- It goes on, at a time; if it runs a process, some sleepers are woken. -/
  | look (now : ℕ) (woken : Fin n → Bool)
  /-- The process it has switched to switches back, and has left a table. -/
  | back (procs : Fin n → SchedSlot)
  /-- A timer interrupt in `sleep_scheduler` calls it anew. -/
  | tick (procs : Fin n → SchedSlot)

/-- The loop as a transition system: it starts on any table. -/
def schedLoop (n : ℕ) : System (SchedLoop n) (SchedEvent n) where
  init := {s | ∃ procs, s = .start procs}
  step e s :=
    match e, s.place with
    | .look now woken, .scan i iAfterWakeup newLoop => some (s.look now woken i iAfterWakeup newLoop)
    | .back procs, .away p => some (.after p procs)
    | .tick procs, .asleep => some (.start procs)
    | _, _ => none

/-! ## What it has looked at -/

variable {s s' : SchedLoop n} {e : SchedEvent n}

/-- In its first round, the scheduler has looked at the slots from the one that
    ran last on, and in another round at those up to it too; none of them is ready. -/
structure SchedLoop.Scanned (s : SchedLoop n) (i : ℕ) (iAfterWakeup : ℤ) (newLoop : Bool) : Prop where
  first : ∀ p : Fin n, iAfterWakeup < p → newLoop = true ∨ p < i → p ∈ s.looked
  later : ∀ p : Fin n, newLoop = true → p < i → p ∈ s.looked
  unready : ∀ p ∈ s.looked, (s.procs p).state ≠ .ready

/-- The scheduler has looked at what it has passed. -/
def SchedLoop.Sound (s : SchedLoop n) : Prop :=
  ∀ i iAfterWakeup newLoop, s.place = .scan i iAfterWakeup newLoop → s.Scanned i iAfterWakeup newLoop

theorem SchedLoop.sound_start (procs : Fin n → SchedSlot) : (start procs).Sound := by
  rintro _ _ _ ⟨⟩
  exact ⟨fun _ _ h => (h.elim nofun fun h => absurd h (Nat.not_lt_zero _)), nofun, nofun⟩

theorem SchedLoop.sound_after (p : Fin n) (procs : Fin n → SchedSlot) : (after p procs).Sound := by
  rintro _ _ _ ⟨⟩
  refine ⟨fun q hlt h => ?_, nofun, nofun⟩
  rcases h with h | h
  · cases h
  · omega

namespace SchedLoop.Scanned

variable {i : ℕ} {iAfterWakeup : ℤ} {newLoop : Bool}

/-- The end of a round. -/
theorem wrap (h : s.Scanned i iAfterWakeup newLoop) (hi : n ≤ i) :
    Scanned { s with place := .scan 0 iAfterWakeup true } 0 iAfterWakeup true where
  first p hp _ := h.first p hp (.inr (p.2.trans_le hi))
  later _ _ hp := absurd hp (Nat.not_lt_zero _)
  unready := h.unready

/-- A slot that is not ready. -/
theorem pass (h : s.Scanned i iAfterWakeup newLoop) (hi : i < n) {x : SchedSlot} (hx : x.state ≠ .ready)
    {place : Place n} :
    Scanned ⟨Function.update s.procs ⟨i, hi⟩ x, place, ⟨i, hi⟩ :: s.looked⟩ (i + 1)
      iAfterWakeup newLoop where
  first p hp hnew := by
    by_cases hpi : p = ⟨i, hi⟩
    · simp [hpi]
    · have hne : (p : ℕ) ≠ i := fun h => hpi (Fin.ext h)
      exact List.mem_cons_of_mem _ (h.first p hp (hnew.imp id fun _ => by omega))
  later p hnew hp := by
    by_cases hpi : p = ⟨i, hi⟩
    · simp [hpi]
    · have hne : (p : ℕ) ≠ i := fun h => hpi (Fin.ext h)
      exact List.mem_cons_of_mem _ (h.later p hnew (by omega))
  unready p hp := by
    by_cases hpi : p = ⟨i, hi⟩
    · subst hpi
      simpa using hx
    · have hp' : p ∈ s.looked := (List.mem_cons.1 hp).resolve_left hpi
      simpa [hpi] using h.unready p hp'

/-- Another round is past the slot that ran last. -/
theorem all (h : s.Scanned i iAfterWakeup newLoop) (hnew : newLoop = true)
    (hlt : iAfterWakeup < i) (p : Fin n) :
    p ∈ s.looked := by
  rcases Nat.lt_or_ge p i with hp | hp
  · exact h.later p hnew hp
  · exact h.first p (by omega) (.inl hnew)

end SchedLoop.Scanned

theorem SchedLoop.Sound.step (h : s.Sound) (hstep : (schedLoop n).step e s = some s') : s'.Sound := by
  cases e with
  | look now woken =>
    cases hplace : s.place with
    | scan i iAfterWakeup newLoop =>
      simp only [schedLoop, hplace, Option.some.injEq] at hstep
      subst hstep
      have hs := h _ _ _ hplace
      rw [look]
      split
      · split
        · rintro _ _ _ ⟨⟩
        · dsimp only
          split
          · rintro _ _ _ ⟨⟩
          · rintro _ _ _ ⟨⟩
            exact hs.pass _ ‹_›
      · rintro _ _ _ ⟨⟩
        exact hs.wrap (by omega)
    | away | asleep => simp [schedLoop, hplace] at hstep
  | back procs =>
    cases hplace : s.place with
    | away p =>
      simp only [schedLoop, hplace, Option.some.injEq] at hstep
      exact hstep ▸ sound_after p procs
    | scan | asleep => simp [schedLoop, hplace] at hstep
  | tick procs =>
    cases hplace : s.place with
    | asleep =>
      simp only [schedLoop, hplace, Option.some.injEq] at hstep
      exact hstep ▸ sound_start procs
    | scan | away => simp [schedLoop, hplace] at hstep

theorem scanned_of_reach {C : SchedLoop n → SchedEvent n → Prop} (h : Reach (schedLoop n) C s) :
    s.Sound := by
  refine h.invariant ?_ fun hs _ hstep => hs.step hstep
  rintro _ ⟨procs, rfl⟩
  exact SchedLoop.sound_start procs

/-- When the scheduler goes to sleep, it has looked at every slot since it was
    called or last switched back to, and no slot is ready. -/
theorem sleeps_idle {now : ℕ} {woken : Fin n → Bool} (h : Reach (schedLoop n) free s)
    (hstep : (schedLoop n).step (.look now woken) s = some s') (hsleep : s'.place = .asleep) (p : Fin n) :
    p ∈ s.looked ∧ (s'.procs p).state ≠ .ready := by
  cases hplace : s.place with
  | scan i iAfterWakeup newLoop =>
    have hs := scanned_of_reach h _ _ _ hplace
    simp only [schedLoop, hplace, Option.some.injEq] at hstep
    subst hstep
    revert hsleep
    rw [SchedLoop.look]
    split
    · split
      · rename_i hsleeps
        intro _
        have hp := hs.all hsleeps.1 hsleeps.2 p
        exact ⟨hp, hs.unready p hp⟩
      · dsimp only
        split <;> nofun
    · nofun
  | away | asleep => simp [schedLoop, hplace] at hstep

/-- Two slots, the process in the first of which runs, and falls asleep. -/
def sleepEvents : List (SchedEvent 2) :=
  let look := .look 0 fun _ => false
  [look, .back fun _ => ⟨.sleeping, 0⟩, look, look, look]

/-- Then the scheduler has looked at both. -/
theorem sleepEvents_looked : ∃ s s' : SchedLoop 2, (schedLoop 2).step (.look 0 fun _ => false) s = some s' ∧
    s'.place = .asleep ∧ ∀ p, p ∈ s.looked ∧ (s'.procs p).state ≠ .ready := by
  have h : ∃ s ∈ run free (schedLoop 2) sleepEvents
      (.start fun p => ⟨if p = 0 then .ready else .sleeping, 0⟩),
      ∃ s' ∈ (schedLoop 2).step (.look 0 fun _ => false) s, s'.place = .asleep := by
    decide
  obtain ⟨s, hs, s', hstep, hsleep⟩ := h
  exact ⟨s, s', hstep, hsleep, sleeps_idle (.of_run free ⟨_, rfl⟩ hs) hstep hsleep⟩

/-! ## Nothing to run -/

/-- No slot is ready, and none is due. -/
def NothingToRun (procs : Fin n → SchedSlot) (now : ℕ) : Prop :=
  ∀ p, (procs p).state ≠ .ready ∧ ¬(procs p).Due now

instance (procs : Fin n → SchedSlot) (now : ℕ) : Decidable (NothingToRun procs now) :=
  inferInstanceAs (Decidable (∀ _, _))

namespace SchedLoop

variable {procs : Fin n → SchedSlot} {looked : List (Fin n)} {i : ℕ} {iAfterWakeup : ℤ} {newLoop : Bool}
  {now : ℕ}

/-- The scheduler goes on by itself, if it is not switched away and not asleep. -/
def advance (now : ℕ) (s : SchedLoop n) : SchedLoop n :=
  ((schedLoop n).step (.look now fun _ => false) s).getD s

/-- It does so `j` times, at these times. -/
def advances (times : ℕ → ℕ) (s : SchedLoop n) : ℕ → SchedLoop n
  | 0 => s
  | j + 1 => (s.advances times j).advance (times j)

/-- It comes by a slot in which there is nothing to do. -/
theorem advance_pass (hq : NothingToRun procs now) (hi : i < n)
    (hlate : ¬(newLoop = true ∧ iAfterWakeup < i)) :
    advance now ⟨procs, .scan i iAfterWakeup newLoop, looked⟩ =
      ⟨procs, .scan (i + 1) iAfterWakeup newLoop, ⟨i, hi⟩ :: looked⟩ := by
  have hx : (procs ⟨i, hi⟩).awaken now = procs ⟨i, hi⟩ := if_neg (hq _).2
  show look now _ i iAfterWakeup newLoop _ = _
  rw [look, dif_pos hi, if_neg hlate]
  dsimp only
  rw [hx, if_neg (hq _).1, Function.update_eq_self]

theorem advance_wrap (hi : n ≤ i) :
    advance now ⟨procs, .scan i iAfterWakeup newLoop, looked⟩ =
      ⟨procs, .scan 0 iAfterWakeup true, looked⟩ :=
  dif_neg (Nat.not_lt.2 hi)

theorem advance_sleep (hi : i < n) (hlt : iAfterWakeup < i) :
    advance now ⟨procs, .scan i iAfterWakeup true, looked⟩ = ⟨procs, .asleep, looked⟩ := by
  show look now _ i iAfterWakeup true _ = _
  rw [look, dif_pos hi, if_pos ⟨rfl, hlt⟩]

theorem advances_add {times : ℕ → ℕ} {s : SchedLoop n} (j j' : ℕ) :
    s.advances times (j + j') = (s.advances times j).advances (fun x => times (j + x)) j' := by
  induction j' with
  | zero => rfl
  | succ j' ih => exact congrArg (advance (times (j + j'))) ih

/-- It comes by some slots, one after the other. -/
theorem advances_pass {times : ℕ → ℕ} (hq : ∀ j, NothingToRun procs (times j))
    (i j : ℕ) (iAfterWakeup : ℤ)
    (newLoop : Bool) (looked : List (Fin n)) (hi : i + j ≤ n)
    (hlate : newLoop = true → (i : ℤ) + j ≤ iAfterWakeup + 1) :
    ∃ looked', looked'.length = looked.length + j ∧
      advances times ⟨procs, .scan i iAfterWakeup newLoop, looked⟩ j =
        ⟨procs, .scan (i + j) iAfterWakeup newLoop, looked'⟩ := by
  induction j with
  | zero => exact ⟨looked, rfl, rfl⟩
  | succ j ih =>
    obtain ⟨looked', hlen, h⟩ := ih (by omega) fun hnew => by
      have := hlate hnew
      omega
    refine ⟨⟨i + j, by omega⟩ :: looked', by rw [List.length_cons, hlen, Nat.add_assoc], ?_⟩
    rw [advances, h, advance_pass (hq _) (by omega), Nat.add_assoc]
    rintro ⟨hnew, hlt⟩
    have := hlate hnew
    omega

/-- After `i` it comes by the slots up to the last, and from the first up to `i`. -/
theorem asleep_after {times : ℕ → ℕ} (hq : ∀ j, NothingToRun procs (times j))
    (looked : List (Fin n)) (hi : i < n) :
    (advances times ⟨procs, .scan i (i - 1) false, looked⟩ (n + 2)).place = .asleep ∧
      (advances times ⟨procs, .scan i (i - 1) false, looked⟩ (n + 2)).looked.length =
        looked.length + n := by
  obtain ⟨looked₁, hlen₁, h₁⟩ := advances_pass hq i (n - i) (i - 1) false looked (by omega) nofun
  have hq' : ∀ j, NothingToRun procs (times (n - i + 1 + j)) := fun j => hq _
  obtain ⟨looked₂, hlen₂, h₂⟩ :=
    advances_pass hq' 0 i (i - 1) true looked₁ (by omega) fun _ => by omega
  have hround : advances times ⟨procs, .scan i (i - 1) false, looked⟩ (n - i + 1) =
      ⟨procs, .scan 0 (i - 1) true, looked₁⟩ := by
    rw [advances, h₁, advance_wrap (by omega)]
  have hend : advances times ⟨procs, .scan i (i - 1) false, looked⟩ (n + 2) =
      ⟨procs, .asleep, looked₂⟩ := by
    rw [show n + 2 = n - i + 1 + (i + 1) by omega, advances_add, hround, advances, h₂,
      advance_sleep (by omega) (by omega)]
  have hlen : looked₂.length = looked.length + n := by omega
  rw [hend]
  exact ⟨rfl, hlen⟩

/-- After the last slot, no slot is a later one. -/
theorem never_asleep {times : ℕ → ℕ} (hq : ∀ j, NothingToRun procs (times j)) {p : Fin n}
    (hlast : (p : ℕ) + 1 = n)
    (j : ℕ) :
    ∃ i newLoop looked, advances times (after p procs) j = ⟨procs, .scan i p newLoop, looked⟩ := by
  induction j with
  | zero => exact ⟨_, _, _, rfl⟩
  | succ j ih =>
    obtain ⟨i, newLoop, looked, h⟩ := ih
    rw [advances, h]
    by_cases hi : i < n
    · exact ⟨_, _, _, advance_pass (hq j) hi (by omega)⟩
    · exact ⟨_, _, _, advance_wrap (by omega)⟩

end SchedLoop

open SchedLoop

/-- With nothing to run, and the process that ran last in the slot `p`, the
    scheduler sleeps within twice the number of slots, if and only if `p` is not the
    last slot. -/
theorem idles_iff (hn : 1 ≤ n) (procs : Fin n → SchedSlot) (times : ℕ → ℕ)
    (hq : ∀ j, NothingToRun procs (times j))
    (p : Fin n) :
    (∃ j, (advances times (after p procs) j).place = .asleep ∧
      (advances times (after p procs) j).looked.length ≤ 2 * n) ↔ (p : ℕ) + 1 < n := by
  constructor
  · rintro ⟨j, hasleep, -⟩
    by_contra hlast
    obtain ⟨i, newLoop, looked, h⟩ := never_asleep hq (by omega : (p : ℕ) + 1 = n) j
    rw [h] at hasleep
    cases hasleep
  · intro hlt
    have h := asleep_after hq [] hlt
    have hplace : (((p : ℕ) + 1 : ℕ) : ℤ) - 1 = (p : ℕ) := by omega
    rw [hplace] at h
    exact ⟨n + 2, h.1, h.2.trans_le (by simp only [List.length_nil]; omega)⟩

/-- Sleepers without a time to wake at. -/
def sleepers (n : ℕ) : Fin n → SchedSlot := fun _ => ⟨.sleeping, 0⟩

theorem nothingToRun_sleepers (now : ℕ) : NothingToRun (sleepers n) now :=
  fun _ => ⟨nofun, fun h => h.2.1 rfl⟩

/-- After the process in the first of eight slots, the scheduler sleeps. -/
theorem sleepers_idle : ∃ j, (advances (fun j => j) (after 0 (sleepers 8)) j).place = .asleep ∧
    (advances (fun j => j) (after 0 (sleepers 8)) j).looked.length ≤ 2 * 8 :=
  (idles_iff (by decide) (sleepers 8) (fun j => j) nothingToRun_sleepers 0).2 (by decide)

/-- After the process in the last of eight slots, it never does. -/
theorem spins_after_last_slot :
    ¬∀ (n : ℕ), 1 ≤ n → ∀ (procs : Fin n → SchedSlot) (times : ℕ → ℕ),
      (∀ j, NothingToRun procs (times j)) →
      ∀ p : Fin n, ∃ j, (advances times (after p procs) j).place = .asleep ∧
        (advances times (after p procs) j).looked.length ≤ 2 * n := by
  intro h
  obtain ⟨j, hasleep, -⟩ := h 8 (by decide) (sleepers 8) (fun j => j) nothingToRun_sleepers 7
  obtain ⟨i, newLoop, looked, hplace⟩ :=
    never_asleep (fun j => nothingToRun_sleepers j) (rfl : ((7 : Fin 8) : ℕ) + 1 = 8) j
  rw [hplace] at hasleep
  cases hasleep

/-! ## The machine -/

section

variable {cfg : Config} {m m' : Machine cfg} {k k' : Kernel cfg}

/-- The table as the scheduler sees it. -/
def Kernel.slots (k : Kernel cfg) : Fin cfg.maxProcs → SchedSlot :=
  fun q => ⟨(k.core.procs q).state, (k.core.procs q).wakeupTime⟩

/-- The scheduler is where the machine is, and they have the same table until the
    process that it has switched to goes on. A machine that has halted is not
    followed further. -/
inductive Follows (m : Machine cfg) (s : SchedLoop cfg.maxProcs) : Prop
  | scan {i : ℕ} {iAfterWakeup : ℤ} {newLoop : Bool} : m.mode = .sched i iAfterWakeup newLoop →
      s.place = .scan i iAfterWakeup newLoop → s.procs = m.k.slots → Follows m s
  | switched {p : Slot cfg} : m.mode = .switched p → s.place = .away p → s.procs = m.k.slots → Follows m s
  | user {p : Slot cfg} : m.mode = .user → m.k.core.cpuProc = some p → s.place = .away p → Follows m s
  | asleep : m.mode = .idle → s.place = .asleep → Follows m s
  | halted {why : Stop cfg} : m.mode = .halted why → Follows m s

theorem slots_congr (h : k'.core.procs = k.core.procs) : k'.slots = k.slots := by
  unfold Kernel.slots
  rw [h]

/-- A slot that is due, or not. -/
theorem slots_awaken (p : Slot cfg) : (k.slots p).awaken k.now =
    ⟨((k.core.awaken p).procs p).state, ((k.core.awaken p).procs p).wakeupTime⟩ := by
  by_cases hdue : k.core.Due p
  · rw [SchedSlot.awaken, if_pos (show (k.slots p).Due k.now from hdue), Core.awaken, if_pos hdue]
    simp [Kernel.slots]
  · rw [SchedSlot.awaken, if_neg (show ¬(k.slots p).Due k.now from hdue), Core.awaken, if_neg hdue]
    rfl

/-- The table when the scheduler has taken a process, before the mark. -/
theorem slots_run (p q : Slot cfg) :
    Function.update k.slots p { (k.slots p).awaken k.now with state := .running } q =
      ⟨(((k.core.awaken p).run p).procs q).state, (((k.core.awaken p).run p).procs q).wakeupTime⟩ := by
  by_cases hq : q = p
  · subst hq
    simp [Core.run, slots_awaken]
  · simp [Core.run, Core.awaken_procs_of_ne hq, hq, Kernel.slots]

/-- The table when the scheduler has switched to a process. -/
theorem slots_wakes {p : Slot cfg} (hw : Wakes ((k.core.awaken p).run p) k'.core) :
    ∃ woken, k'.slots = mark woken (Function.update k.slots p
      { (k.slots p).awaken k.now with state := .running }) := by
  refine ⟨fun q => decide ((k'.core.procs q).state = .ready), ?_⟩
  funext q
  rw [mark, slots_run]
  dsimp only
  rcases hw.procs_eq q with h | ⟨hsleeping, h⟩
  · rw [if_neg, Kernel.slots, h]
    rw [h]
    rintro ⟨hready, hsleeping⟩
    rw [hsleeping] at hready
    exact absurd hready (by decide)
  · rw [if_pos ⟨by simp [h], hsleeping⟩, Kernel.slots, h]

/-- `schedStep` is a step of the loop. -/
theorem Follows.sched {s : SchedLoop cfg.maxProcs} {i : ℕ} {iAfterWakeup : ℤ} {newLoop : Bool} (hb : Base m)
    (hmode : m.mode = .sched i iAfterWakeup newLoop) (hprocs : s.procs = m.k.slots) :
    ∃ woken, Follows (schedStep m i iAfterWakeup newLoop) (s.look m.k.now woken i iAfterWakeup newLoop) := by
  have hat := hb.at_
  rw [hmode] at hat
  obtain ⟨-, hfree, -⟩ := hat
  rw [schedStep]
  by_cases hi : i < cfg.maxProcs
  · rw [dif_pos hi]
    by_cases hsleep : newLoop = true ∧ iAfterWakeup < i
    · rw [if_pos hsleep]
      refine ⟨fun _ => false, .asleep rfl ?_⟩
      rw [SchedLoop.look, dif_pos hi, if_pos hsleep]
    · rw [if_neg hsleep]
      -- The turn of the loop, written with the slots of the kernel.
      have hlook : ∀ woken, s.look m.k.now woken i iAfterWakeup newLoop =
          let p : Slot cfg := ⟨i, hi⟩
          if ((m.k.slots p).awaken m.k.now).state = .ready then
            ⟨mark woken (Function.update m.k.slots p { (m.k.slots p).awaken m.k.now with state := .running }),
              .away p, p :: s.looked⟩
          else
            ⟨Function.update m.k.slots p ((m.k.slots p).awaken m.k.now), .scan (i + 1) iAfterWakeup newLoop,
            p :: s.looked⟩ := by
        intro woken
        rw [SchedLoop.look, dif_pos hi, if_neg hsleep, hprocs]
      have hres := examine_result hfree ⟨i, hi⟩
      revert hres
      generalize examine ⟨i, hi⟩ m.k = r
      intro hres
      cases hres with
      | @pass k' hdue hready hc hh =>
        have hsame : (m.k.slots ⟨i, hi⟩).awaken m.k.now = m.k.slots ⟨i, hi⟩ := if_neg hdue
        have hstate : ¬(m.k.slots ⟨i, hi⟩).state = .ready := hready
        refine ⟨fun _ => false, .scan rfl ?_ ?_⟩
        · rw [hlook]
          dsimp only
          rw [hsame, if_neg hstate]
        · rw [hlook]
          dsimp only
          rw [hsame, if_neg hstate, Function.update_eq_self]
          exact (slots_congr (by rw [hc])).symm
      | @switch k' hready hw hh ht =>
        obtain ⟨woken, hslots⟩ := slots_wakes hw
        have hstate : ((m.k.slots ⟨i, hi⟩).awaken m.k.now).state = .ready := by
          rw [slots_awaken]; exact hready
        refine ⟨woken, .switched rfl ?_ ?_⟩
        · rw [hlook]
          dsimp only
          rw [if_pos hstate]
        · rw [hlook]
          dsimp only
          rw [if_pos hstate, hslots]
      | halt => exact ⟨fun _ => false, .halted rfl⟩
  · rw [dif_neg hi]
    refine ⟨fun _ => false, .scan rfl (i := 0) ?_ ?_⟩
    · rw [SchedLoop.look, dif_neg hi]
    · rw [SchedLoop.look, dif_neg hi]
      exact hprocs

/-- The machine after code of the process `p` has run: it goes on with the
    process, or `p` has switched back. -/
theorem Follows.outcome {α : Type} {s : SchedLoop cfg.maxProcs} {p : Slot cfg}
    {r : EStateM.Result (Stop cfg) (Kernel cfg) α} (hplace : s.place = .away p)
    (hok : ∀ {a k'}, r = .ok a k' → k'.core.cpuProc = some p)
    (hswitch : ∀ {k'}, r = .error .switch k' → k'.core.cpuProc = some p) :
    ∃ s', Path (schedLoop cfg.maxProcs) free s s' ∧ Follows (HobbyOs.outcome r) s' := by
  cases r with
  | ok a k' => exact ⟨s, .refl, .user rfl (hok rfl) hplace⟩
  | error why k' =>
    by_cases hwhy : why = .switch
    · subst hwhy
      rw [outcome_switch (hswitch rfl)]
      refine ⟨.after p k'.slots, .step .refl trivial (e := .back k'.slots) ?_, .scan rfl rfl rfl⟩
      simp [schedLoop, hplace]
    · have hmode : (HobbyOs.outcome (.error why k' : EStateM.Result _ _ α)).mode = .halted why := by
        cases why with
        | switch => exact absurd rfl hwhy
        | _ => rfl
      exact ⟨s, .refl, .halted hmode⟩

theorem follows_ecall {s : SchedLoop cfg.maxProcs} {p : Slot cfg} (hb : Base m) (hmode : m.mode = .user)
    (hcpu : m.k.core.cpuProc = some p) (hplace : s.place = .away p) :
    ∃ s', Path (schedLoop cfg.maxProcs) free s s' ∧ Follows (ecallStep m) s' := by
  have hat := hb.at_
  rw [hmode] at hat
  obtain ⟨p', hp, hfree⟩ := hat
  obtain rfl : p' = p := Option.some.inj (hp.cpu.symm.trans hcpu)
  have hcalm : Calm p' (trap m) :=
    ⟨hfree, by rw [show (trap m).core = m.k.core from rfl, hp.running]; decide⟩
  have hres := syscall_result hcalm hp.cpu (hb.lineal p')
  rw [ecallStep, show m.k.cpuProc = some p' from hcpu]
  refine Follows.outcome hplace (fun h => ?_) fun h => ?_
  · rw [h] at hres
    cases hres with
    | back he => exact he.lawful.cpu.trans hcpu
  · rw [h] at hres
    cases hres with
    | away he => exact he.lawful.cpu.trans hcpu
    | halt he => exact absurd he id

theorem follows_preempt {s : SchedLoop cfg.maxProcs} {p : Slot cfg} (hcpu : m.k.core.cpuProc = some p)
    (hplace : s.place = .away p) :
    ∃ s', Path (schedLoop cfg.maxProcs) free s s' ∧ Follows (tickStep m) s' := by
  obtain ⟨k', h, hc, -⟩ := preempt_apply p (trap m)
  rw [tickStep, show m.k.cpuProc = some p from hcpu]
  refine Follows.outcome hplace (fun h' => ?_) fun h' => ?_
  · rw [h] at h'
    cases h'
  · rw [h] at h'
    cases h'
    rw [hc]
    exact hcpu

theorem follows_resume {s : SchedLoop cfg.maxProcs} {p : Slot cfg} (hb : Base m) (hmode : m.mode = .switched p)
    (hplace : s.place = .away p) :
    ∃ s', Path (schedLoop cfg.maxProcs) free s s' ∧ Follows (HobbyOs.outcome (resume p m.k)) s' := by
  have hat := hb.at_
  rw [hmode] at hat
  obtain ⟨hp, hfree, -, -⟩ := hat
  have hres := resume_result (k := m.k) ⟨hfree, by rw [hp.running]; decide⟩ (hb.lineal p)
  refine Follows.outcome hplace (fun h => ?_) fun h => ?_
  · rw [h] at hres
    cases hres with
    | back he => exact (Lawful.of_resume he).cpu.trans hp.cpu
  · rw [h] at hres
    cases hres with
    | away he => exact (Lawful.of_resume he).cpu.trans hp.cpu
    | halt he => exact absurd he id

/-- Every step of the machine is followed. -/
theorem Follows.step {s : SchedLoop cfg.maxProcs} {e : Event cfg} (hb : Base m) (h : Follows m s)
    (hstep : HobbyOs.step e m = some m') :
    ∃ s', Path (schedLoop cfg.maxProcs) free s s' ∧ Follows m' s' := by
  -- The steps that neither move the scheduler nor change its table.
  have hstill : m'.mode = m.mode → m'.k.core.procs = m.k.core.procs →
      m'.k.core.cpuProc = m.k.core.cpuProc →
      ∃ s', Path (schedLoop cfg.maxProcs) free s s' ∧ Follows m' s' := by
    intro hmode hprocs hcpu
    have hslots := slots_congr hprocs
    refine ⟨s, .refl, ?_⟩
    cases h with
    | scan hm hplace hs => exact .scan (hmode.trans hm) hplace (hs.trans hslots.symm)
    | switched hm hplace hs => exact .switched (hmode.trans hm) hplace (hs.trans hslots.symm)
    | user hm hp hplace => exact .user (hmode.trans hm) (hcpu.trans hp) hplace
    | asleep hm hplace => exact .asleep (hmode.trans hm) hplace
    | halted hm => exact .halted (hmode.trans hm)
  cases e with
  | exec hart stores =>
    cases hmode : m.mode with
    | user | idle =>
      simp only [HobbyOs.step, hmode, Option.some.injEq] at hstep
      subst hstep
      exact hstill hmode.symm rfl rfl
    | sched | switched | halted => simp [HobbyOs.step, hmode] at hstep
  | exception =>
    cases hmode : m.mode with
    | user =>
      simp only [HobbyOs.step, hmode, Option.some.injEq] at hstep
      exact hstep ▸ ⟨s, .refl, .halted rfl⟩
    | idle | sched | switched | halted => simp [HobbyOs.step, hmode] at hstep
  | ecall =>
    cases h with
    | user hmode hcpu hplace =>
      simp only [HobbyOs.step, hmode, Option.some.injEq] at hstep
      exact hstep ▸ follows_ecall hb hmode hcpu hplace
    | scan hmode | switched hmode | asleep hmode | halted hmode => simp [HobbyOs.step, hmode] at hstep
  | tick =>
    cases h with
    | user hmode hcpu hplace =>
      simp only [HobbyOs.step, hmode, Option.some.injEq] at hstep
      exact hstep ▸ follows_preempt hcpu hplace
    | asleep hmode hplace =>
      simp only [HobbyOs.step, hmode, Option.some.injEq] at hstep
      have hat := hb.at_
      rw [hmode] at hat
      rw [tickStep, show m.k.cpuProc = none from hat.2.2] at hstep
      subst hstep
      refine ⟨.start m.k.slots, .step .refl trivial (e := .tick m.k.slots) ?_, .scan rfl rfl rfl⟩
      simp [schedLoop, hplace]
    | scan hmode | switched hmode | halted hmode => simp [HobbyOs.step, hmode] at hstep
  | plic received =>
    have hcpu : m'.k.core.cpuProc = m.k.core.cpuProc := by
      have hcore := (step_stepped hb hstep).core
      generalize m'.k.core = t at hcore ⊢
      cases hcore with
      | same => rfl
      | plic hw => exact hw.rest.2.2.1
    have hplic : m' = plicStep m received := by
      cases hmode : m.mode with
      | user | idle =>
        simp only [HobbyOs.step, hmode, Option.some.injEq] at hstep
        exact hstep.symm
      | sched | switched | halted => simp [HobbyOs.step, hmode] at hstep
    rw [plicStep] at hplic
    split at hplic
    · subst hplic
      refine ⟨s, .refl, ?_⟩
      cases h with
      | user hmode hp hplace => exact .user hmode (hcpu.trans hp) hplace
      | asleep hmode hplace => exact .asleep hmode hplace
      | scan hmode | switched hmode | halted hmode => simp [HobbyOs.step, hmode] at hstep
    · subst hplic
      exact ⟨s, .refl, .halted rfl⟩
  | time ticks =>
    simp only [HobbyOs.step, Option.some.injEq] at hstep
    subst hstep
    exact hstill rfl rfl rfl
  | overlay o =>
    simp only [HobbyOs.step, Option.some.injEq] at hstep
    subst hstep
    exact hstill rfl rfl rfl
  | kernel =>
    cases h with
    | @scan i iAfterWakeup newLoop hmode hplace hprocs =>
      simp only [HobbyOs.step, hmode, Option.some.injEq] at hstep
      subst hstep
      obtain ⟨woken, hf⟩ := Follows.sched hb hmode hprocs
      refine ⟨_, .step .refl trivial (e := .look m.k.now woken) ?_, hf⟩
      simp [schedLoop, hplace]
    | switched hmode hplace =>
      simp only [HobbyOs.step, hmode, Option.some.injEq] at hstep
      exact hstep ▸ follows_resume hb hmode hplace
    | user hmode | asleep hmode | halted hmode => simp [HobbyOs.step, hmode] at hstep

/-- Whatever the machine does, the scheduler in it goes by the loop. -/
theorem follows_of_reach {C : Machine cfg → Event cfg → Prop} (h : Reach (machine cfg) C m) :
    ∃ s, Reach (schedLoop cfg.maxProcs) free s ∧ Follows m s := by
  refine (h.invariant
    (I := fun m => Base m ∧ ∃ s, Reach (schedLoop cfg.maxProcs) free s ∧ Follows m s) ?_ ?_).2
  · rintro _ ⟨mem, rfl⟩
    refine ⟨base_boot mem, .start (boot cfg mem).k.slots, ⟨_, ⟨_, rfl⟩, .refl⟩, ?_⟩
    rcases boot_result cfg mem with ⟨p, frame, frame', hc, hfree, hmode⟩ | ⟨e, hmode, -, hc⟩
    · exact .scan hmode rfl rfl
    · exact .halted hmode
  · rintro u u' e ⟨hb, s, hs, hf⟩ - hstep
    obtain ⟨s', hpath, hf'⟩ := hf.step hb hstep
    exact ⟨(step_stepped hb hstep).base, s', hs.path hpath, hf'⟩

/-- When the machine goes idle, no process is ready. -/
theorem idle_not_ready {C : Machine cfg → Event cfg → Prop} (h : Reach (machine cfg) C m)
    {i : ℕ} {iAfterWakeup : ℤ} {newLoop : Bool} (hmode : m.mode = .sched i iAfterWakeup newLoop)
    (hidle : (schedStep m i iAfterWakeup newLoop).mode = .idle) (p : Slot cfg) :
    (m.k.procs p).state ≠ .ready := by
  obtain ⟨s, hs, hf⟩ := follows_of_reach h
  have hsleep : newLoop = true ∧ iAfterWakeup < i := by
    by_contra hsleep
    revert hidle
    rw [schedStep]
    by_cases hi : i < cfg.maxProcs
    · rw [dif_pos hi, if_neg hsleep]
      split <;> simp
    · rw [dif_neg hi]
      simp
  cases hf with
  | @scan i' _ _ hmode' hplace hprocs =>
    rw [hmode] at hmode'
    cases hmode'
    have hscanned := scanned_of_reach hs _ _ _ hplace
    have hunready := hscanned.unready p (hscanned.all hsleep.1 hsleep.2 p)
    rwa [hprocs] at hunready
  | switched hmode' | user hmode' | asleep hmode' | halted hmode' => simp [hmode] at hmode'

end

end HobbyOs
