import Mathlib.Data.Set.Insert
import HobbyOs.Core

/-!
# What code leaves alone

Most functions of the kernel neither touch the scheduling state nor keep a lock
they take. Of a computation that may take the locks `L`:

* `Still L m`: whatever happens, the core stays as it is; and when none of the
  locks `L` is held, it returns with the locks that were held, or the kernel
  halts. It neither switches to the scheduler nor waits for a lock;
* `Quiet L m`: the same of code that marks objects for wake-up, which moves the
  core along `Wakes` and takes the locks of sleepers too.

The rules are those of sequencing, of loops and of locks.
-/

namespace HobbyOs

open Outcome

variable {cfg : Config} {α β : Type} {L : Set (Lock cfg)}

/-- The core is the same. -/
def SameCore (k k' : Kernel cfg) : Prop := k'.core = k.core

theorem SameCore.refl (k : Kernel cfg) : SameCore k k := rfl

theorem SameCore.trans {a b c : Kernel cfg} (h : SameCore a b) (h' : SameCore b c) : SameCore a c :=
  Eq.trans h' h

/-- The locks `H` are held. -/
def Holds (H : Lock cfg → Bool) (k : Kernel cfg) : Prop := k.held = H

/-- `m` leaves the core alone, and takes and gives back locks of `L`. -/
def Still (L : Set (Lock cfg)) (m : KM cfg α) : Prop :=
  ∀ H : Lock cfg → Bool, (∀ l ∈ L, H l = false) →
    Along SameCore (Holds H) (fun _ => Holds H) Stop.isHalt m

/-- The core has moved along `Wakes`. -/
def Woken (k k' : Kernel cfg) : Prop := Wakes k.core k'.core

theorem Woken.trans {a b c : Kernel cfg} (h : Woken a b) (h' : Woken b c) : Woken a c :=
  Wakes.trans h h'

theorem SameCore.woken {k k' : Kernel cfg} (h : SameCore k k') : Woken k k' := by
  rw [Woken, show k'.core = k.core from h]
  exact .refl

/-- The locks `H` are held, none of them that of a sleeper. -/
def Awake (H : Lock cfg → Bool) (k : Kernel cfg) : Prop :=
  Holds H k ∧ ∀ q, H (.proc q) = true → (k.core.procs q).state ≠ .sleeping

/-- `m` wakes sleepers, and takes and gives back locks of `L` and theirs. -/
def Quiet (L : Set (Lock cfg)) (m : KM cfg α) : Prop :=
  ∀ H : Lock cfg → Bool, (∀ l ∈ L, H l = false) →
    Along Woken (Awake H) (fun _ => Awake H) Stop.isHalt m

/-! ## Locks -/

/-- Taking a lock that is free. -/
theorem acquire_ok {l : Lock cfg} {k : Kernel cfg} (h : k.held l = false) :
    acquire l k = .ok () (k.setHeld l true) := by
  simp [acquire, h]

/-- Taking a lock that is held. -/
theorem acquire_deadlock {l : Lock cfg} {k : Kernel cfg} (h : k.held l = true) :
    acquire l k = .error (.deadlock l) k := by
  simp [acquire, h]

/-- Taking a lock leaves the core alone, whether or not it is free. -/
theorem sameCore_acquire (l : Lock cfg) (k : Kernel cfg) : SameCore k (final (acquire l k)) := by
  cases h : k.held l with
  | false =>
    rw [acquire_ok h]
    exact SameCore.refl k
  | true =>
    rw [acquire_deadlock h]
    exact SameCore.refl k

/-- Taking one of the free locks. -/
theorem along_acquire {l : Lock cfg} {H : Lock cfg → Bool} (h : H l = false) :
    Along SameCore (Holds H) (fun _ => Holds (Function.update H l true)) Stop.isHalt
      (acquire l) := by
  intro k
  refine ⟨sameCore_acquire l k, fun hk => ?_⟩
  rw [acquire_ok (by rw [show k.held = H from hk, h])]
  show Function.update k.held l true = _
  rw [show k.held = H from hk]

/-- Giving back a lock. -/
theorem along_release {l : Lock cfg} {H H' : Lock cfg → Bool} (h : Function.update H l false = H') :
    Along SameCore (Holds H) (fun _ => Holds H') Stop.isHalt (release l) :=
  Along.modify (fun k => rfl) fun k hk => by
    show Function.update k.held l false = _
    rw [show k.held = H from hk, h]

/-- Giving back a lock that was free before it was taken. -/
theorem update_held_self {H : Lock cfg → Bool} {l : Lock cfg} (h : H l = false) :
    Function.update (Function.update H l true) l false = H := by
  rw [Function.update_idem, ← h, Function.update_eq_self]

/-- The other locks are still free when one is taken. -/
theorem free_of_taken {H : Lock cfg → Bool} {l : Lock cfg} (hH : ∀ l ∈ L, H l = false) :
    ∀ l' ∈ L \ {l}, Function.update H l true l' = false := by
  intro l' hl'
  rw [Function.update_of_ne hl'.2]
  exact hH l' hl'.1

theorem Kernel.setHeld_held_of_ne {k : Kernel cfg} {l l' : Lock cfg} {b : Bool} (h : l' ≠ l) :
    (k.setHeld l b).held l' = k.held l' := Function.update_of_ne h _ _

/-- A free lock is taken and given back. -/
theorem Kernel.setHeld_setHeld {k : Kernel cfg} {l : Lock cfg} (h : k.held l = false) :
    (k.setHeld l true).setHeld l false = k := by
  have := update_held_self h
  cases k
  simp only [Kernel.setHeld, Kernel.mk.injEq, true_and, and_true]
  exact this

theorem Kernel.setHeld_comm {k : Kernel cfg} {l l' : Lock cfg} {b b' : Bool} (h : l ≠ l') :
    (k.setHeld l b).setHeld l' b' = (k.setHeld l' b').setHeld l b := by
  simp only [Kernel.setHeld]
  rw [Function.update_comm h]

/-- Code within a free lock. -/
theorem withLock_apply {l : Lock cfg} {m : KM cfg α} {k t : Kernel cfg} {a : α}
    (hl : k.held l = false) (hm : m (k.setHeld l true) = .ok a t) :
    withLock l m k = .ok a (t.setHeld l false) := by
  rw [withLock, bind_ok (acquire_ok hl), bind_ok hm]
  rfl

/-! ## Rules -/

namespace Still

variable {m : KM cfg α} {f : α → KM cfg β}

theorem pure (a : α) : Still L (Pure.pure a : KM cfg α) :=
  fun _ _ => Along.pure SameCore.refl fun _ h => h

theorem get : Still L (MonadState.get : KM cfg (Kernel cfg)) :=
  fun _ _ => (Along.get SameCore.refl).conseq (fun _ h => h) fun _ _ h => h.1

theorem throw {e : Stop cfg} (he : e.isHalt) : Still L (MonadExcept.throw e : KM cfg α) :=
  fun _ _ => Along.throw SameCore.refl he

/-- An update outside of the core and of the locks. -/
theorem modify {g : Kernel cfg → Kernel cfg} (hc : ∀ k, (g k).core = k.core)
    (hh : ∀ k, (g k).held = k.held) :
    Still L (modifyGet fun k => (PUnit.unit, g k) : KM cfg PUnit) :=
  fun _ _ => Along.modify hc fun k h => (hh k).trans h

theorem bind (hm : Still L m) (hf : ∀ a, Still L (f a)) : Still L (m >>= f) :=
  fun H hL => (hm H hL).bind SameCore.trans fun a => hf a H hL

theorem forM {l : List β} {g : β → KM cfg PUnit} (h : ∀ b, Still L (g b)) :
    Still L (l.forM g) := by
  induction l with
  | nil => exact pure _
  | cons b l ih => exact (h b).bind fun _ => ih

theorem findSomeM {l : List β} {g : β → KM cfg (Option α)} (h : ∀ b, Still L (g b)) :
    Still L (l.findSomeM? g) := by
  induction l with
  | nil => exact pure _
  | cons b l ih =>
    refine (h b).bind fun a => ?_
    cases a with
    | none => exact ih
    | some a => exact pure _

/-- Within a lock, only other locks are taken. -/
theorem withLock {l : Lock cfg} (hl : l ∈ L) (hm : Still (L \ {l}) m) :
    Still L (withLock l m) := by
  intro H hH
  refine (along_acquire (hH l hl)).bind SameCore.trans fun _ => ?_
  refine (hm _ (free_of_taken hH)).bind SameCore.trans fun a => ?_
  exact (along_release (update_held_self (hH l hl))).bind SameCore.trans fun _ =>
    Along.pure SameCore.refl fun _ h => h

/-- Code that leaves the core alone wakes nobody. -/
theorem quiet (hm : Still L m) : Quiet L m := by
  intro H hH k
  obtain ⟨hc, hk⟩ := hm H hH k
  refine ⟨hc.woken, fun ha => ?_⟩
  have := hk ha.1
  cases h : m k with
  | ok a k' =>
    rw [h] at hc this
    refine ⟨this, fun q hq => ?_⟩
    rw [show k'.core = k.core from hc]
    exact ha.2 q hq
  | error e k' =>
    rw [h] at this
    exact this

end Still

namespace Quiet

variable {m : KM cfg α} {f : α → KM cfg β}

theorem pure (a : α) : Quiet L (Pure.pure a : KM cfg α) := (Still.pure a).quiet

theorem get : Quiet L (MonadState.get : KM cfg (Kernel cfg)) := Still.get.quiet

theorem throw {e : Stop cfg} (he : e.isHalt) : Quiet L (MonadExcept.throw e : KM cfg α) :=
  (Still.throw he).quiet

/-- An update outside of the core and of the locks. -/
theorem modify {g : Kernel cfg → Kernel cfg} (hc : ∀ k, (g k).core = k.core)
    (hh : ∀ k, (g k).held = k.held) :
    Quiet L (modifyGet fun k => (PUnit.unit, g k) : KM cfg PUnit) :=
  (Still.modify hc hh).quiet

theorem bind (hm : Quiet L m) (hf : ∀ a, Quiet L (f a)) : Quiet L (m >>= f) :=
  fun H hL => (hm H hL).bind Woken.trans fun a => hf a H hL

theorem forM {l : List β} {g : β → KM cfg PUnit} (h : ∀ b, Quiet L (g b)) :
    Quiet L (l.forM g) := by
  induction l with
  | nil => exact pure _
  | cons b l ih => exact (h b).bind fun _ => ih

/-- Within a lock that is not that of a process, only other locks are taken. -/
theorem withLock {l : Lock cfg} (hl : l ∈ L) (hp : ∀ q, l ≠ .proc q)
    (hm : Quiet (L \ {l}) m) : Quiet L (withLock l m) := by
  intro H hH
  have hsame : ∀ q, Function.update H l true (.proc q) = H (.proc q) := fun q =>
    Function.update_of_ne (hp q).symm _ _
  have htake : Along Woken (Awake H) (fun _ => Awake (Function.update H l true)) Stop.isHalt
      (acquire l) := by
    intro k
    refine ⟨(sameCore_acquire l k).woken, fun hk => ?_⟩
    rw [acquire_ok (by rw [show k.held = H from hk.1, hH l hl])]
    refine ⟨?_, fun q hq => hk.2 q ((hsame q).symm.trans hq)⟩
    show Function.update k.held l true = _
    rw [show k.held = H from hk.1]
  have hgive : Along Woken (Awake (Function.update H l true)) (fun _ => Awake H) Stop.isHalt
      (release l) :=
    Along.modify (fun k => SameCore.woken rfl) fun k hk => by
      refine ⟨?_, fun q hq => hk.2 q ((hsame q).trans hq)⟩
      show Function.update k.held l false = _
      rw [show k.held = _ from hk.1, update_held_self (hH l hl)]
  refine htake.bind Woken.trans fun _ => ?_
  refine (hm _ (free_of_taken hH)).bind Woken.trans fun a => ?_
  exact hgive.bind Woken.trans fun _ => Along.pure (fun k => (SameCore.refl k).woken) fun _ h => h

end Quiet

/-! ## Results -/

/-- How code that leaves the core alone ends, from a kernel in which the locks
    it takes are free. -/
theorem Still.result {m : KM cfg α} (hm : Still L m) {k : Kernel cfg}
    (hk : ∀ l ∈ L, k.held l = false) :
    (∃ a k', m k = .ok a k' ∧ k'.core = k.core ∧ k'.held = k.held) ∨
      ∃ e k', m k = .error e k' ∧ e.isHalt ∧ k'.core = k.core := by
  obtain ⟨hc, hp⟩ := hm k.held hk k
  have := hp rfl
  cases h : m k with
  | ok a k' =>
    rw [h] at hc this
    exact .inl ⟨a, k', rfl, hc, this⟩
  | error e k' =>
    rw [h] at hc this
    exact .inr ⟨e, k', rfl, this, hc⟩

/-- How code that wakes sleepers ends, from a kernel in which the locks it takes
    are free, and those of sleepers. -/
theorem Quiet.result {m : KM cfg α} (hm : Quiet L m) {k : Kernel cfg}
    (hk : ∀ l ∈ L, k.held l = false)
    (hs : ∀ q, k.held (.proc q) = true → (k.core.procs q).state ≠ .sleeping) :
    (∃ a k', m k = .ok a k' ∧ Wakes k.core k'.core ∧ k'.held = k.held) ∨
      ∃ e k', m k = .error e k' ∧ e.isHalt ∧ Wakes k.core k'.core := by
  obtain ⟨hc, hp⟩ := hm k.held hk k
  have := hp ⟨rfl, hs⟩
  cases h : m k with
  | ok a k' =>
    rw [h] at hc this
    exact .inl ⟨a, k', rfl, hc, this.1⟩
  | error e k' =>
    rw [h] at hc this
    exact .inr ⟨e, k', rfl, this, hc⟩

end HobbyOs
