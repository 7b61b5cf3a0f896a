import HobbyOs.Lib.Outcome

/-!
# Pre- and postconditions

What is known of a computation that may stop, from what is known of the state
it starts in (`Triple`): of the value and the state it returns with, and of the
error and the state it stops with. Nothing is said about a state that does not
meet the precondition.

* The rules are those of the constructs a computation is made of; a loop over a
  list keeps a property of the state and of what is left of the list
  (`Triple.forM`).
* A computation that is known to have returned is taken apart with
  `bind_eq_ok`.
* A computation that leaves something of the state alone, however it ends
  (`Keeps`) or when it returns (`Restores`), is made of such; so is one that does
  not stop with a given error (`Avoids`).
-/

namespace Outcome

variable {ε σ α β γ : Type}

/-- A sequence that returned: both its parts did. -/
theorem bind_eq_ok {m : EStateM ε σ α} {f : α → EStateM ε σ β} {s u : σ} {b : β} :
    (m >>= f) s = .ok b u ↔ ∃ a t, m s = .ok a t ∧ f a t = .ok b u := by
  constructor
  · intro h
    cases hm : m s with
    | ok a t => exact ⟨a, t, rfl, by rwa [bind_ok hm] at h⟩
    | error e t =>
      rw [bind_error hm] at h
      cases h
  · rintro ⟨a, t, hm, hf⟩
    rw [bind_ok hm, hf]

/-- A sequence that stopped: one of its parts did. -/
theorem bind_eq_error {m : EStateM ε σ α} {f : α → EStateM ε σ β} {s u : σ} {e : ε} :
    (m >>= f) s = .error e u ↔ m s = .error e u ∨ ∃ a t, m s = .ok a t ∧ f a t = .error e u := by
  cases hm : m s with
  | ok a t =>
    rw [bind_ok hm]
    constructor
    · exact fun h => .inr ⟨a, t, rfl, h⟩
    · rintro (h | ⟨_, _, h, hf⟩)
      · cases h
      · cases h
        exact hf
  | error e' t =>
    rw [bind_error hm]
    constructor
    · rintro ⟨⟩
      exact .inl rfl
    · rintro (⟨⟨⟩⟩ | ⟨_, _, h, _⟩)
      · rfl
      · cases h

/-- The value that was returned, if one was. -/
def value : EStateM.Result ε σ α → Option α
  | .ok a _ => some a
  | .error _ _ => none

theorem value_eq_some {r : EStateM.Result ε σ α} {a : α} (h : value r = some a) :
    ∃ s, r = .ok a s := by
  cases r with
  | ok b s =>
    cases h
    exact ⟨s, rfl⟩
  | error e s => cases h

/-- A result meets a condition on what is returned, or one on how it stopped. -/
def Meets (Q : α → σ → Prop) (W : ε → σ → Prop) : EStateM.Result ε σ α → Prop
  | .ok a s => Q a s
  | .error e s => W e s

/-- From a state with `P`, `m` returns only with `Q`, and stops only with `W`. -/
def Triple (P : σ → Prop) (m : EStateM ε σ α) (Q : α → σ → Prop) (W : ε → σ → Prop) : Prop :=
  ∀ s, P s → Meets Q W (m s)

namespace Triple

variable {P P' : σ → Prop} {Q Q' : α → σ → Prop} {W : ε → σ → Prop} {m : EStateM ε σ α}

theorem pure {a : α} (h : ∀ s, P s → Q a s) : Triple P (Pure.pure a) Q W := h

theorem modify {f : σ → σ} {Q : σ → Prop} (h : ∀ s, P s → Q (f s)) :
    Triple P (modifyGet fun s => (PUnit.unit, f s) : EStateM ε σ PUnit) (fun _ => Q) W := h

theorem throw {e : ε} (h : ∀ s, P s → W e s) :
    Triple P (MonadExcept.throw e : EStateM ε σ α) Q W := h

theorem bind (hm : Triple P m Q W) {f : α → EStateM ε σ β} {Q' : β → σ → Prop}
    (hf : ∀ a, Triple (Q a) (f a) Q' W) : Triple P (m >>= f) Q' W := by
  intro s hs
  have h := hm s hs
  cases hr : m s with
  | ok a t =>
    rw [hr] at h
    rw [bind_ok hr]
    exact hf a t h
  | error e t =>
    rw [hr] at h
    rw [bind_error hr]
    exact h

/-- What is read need not be remembered. -/
theorem get_bind {f : σ → EStateM ε σ β} {Q' : β → σ → Prop} (hf : ∀ a, Triple P (f a) Q' W) :
    Triple P (MonadState.get >>= f) Q' W :=
  fun s hs => hf s s hs

/-- A loop over a list, with a property of the state and of what is left. -/
theorem forM {I : List β → σ → Prop} {f : β → EStateM ε σ PUnit}
    (h : ∀ b l, Triple (I (b :: l)) (f b) (fun _ => I l) W) (l : List β) :
    Triple (I l) (l.forM f) (fun _ => I []) W := by
  induction l with
  | nil => exact pure fun _ h => h
  | cons b l ih => exact (h b l).bind fun _ => ih

/-- The result of a computation, known to have returned. -/
theorem of_ok (hm : Triple P m Q W) {s t : σ} {a : α} (hs : P s) (h : m s = .ok a t) : Q a t := by
  have := hm s hs
  rwa [h] at this

end Triple

/-- However it ends, `m` leaves `f` of the state alone. -/
def Keeps (f : σ → γ) (m : EStateM ε σ α) : Prop := ∀ s, f (final (m s)) = f s

namespace Keeps

variable {f : σ → γ} {m : EStateM ε σ α}

instance : IsPreorder σ fun s t => f t = f s where
  refl _ := rfl
  trans _ _ _ h h' := h'.trans h

theorem pure {a : α} : Keeps f (Pure.pure a : EStateM ε σ α) := fun _ => rfl

theorem get : Keeps f (MonadState.get : EStateM ε σ σ) := fun _ => rfl

theorem throw {e : ε} : Keeps f (MonadExcept.throw e : EStateM ε σ α) := fun _ => rfl

theorem modify {g : σ → σ} (h : ∀ s, f (g s) = f s) :
    Keeps f (modifyGet fun s => (PUnit.unit, g s) : EStateM ε σ PUnit) := h

theorem bind {g : α → EStateM ε σ β} (hm : Keeps f m) (hg : ∀ a, Keeps f (g a)) :
    Keeps f (m >>= g) :=
  Evolves.bind (R := fun s t => f t = f s) hm hg

theorem of_ok (hm : Keeps f m) {s t : σ} {a : α} (h : m s = .ok a t) : f t = f s := by
  have := hm s
  rwa [h] at this

end Keeps

/-- When it returns, `m` has left `f` of the state as it was. -/
def Restores (f : σ → γ) (m : EStateM ε σ α) : Prop := ∀ s a t, m s = .ok a t → f t = f s

namespace Restores

variable {f : σ → γ} {m : EStateM ε σ α}

theorem pure {a : α} : Restores f (Pure.pure a : EStateM ε σ α) := by
  intro s b t h
  cases h
  rfl

theorem get : Restores f (MonadState.get : EStateM ε σ σ) := by
  intro s b t h
  cases h
  rfl

theorem throw {e : ε} : Restores f (MonadExcept.throw e : EStateM ε σ α) := by
  intro s b t h
  cases h

theorem modify {g : σ → σ} (h : ∀ s, f (g s) = f s) :
    Restores f (modifyGet fun s => (PUnit.unit, g s) : EStateM ε σ PUnit) := by
  intro s b t hs
  cases hs
  exact h s

theorem bind {g : α → EStateM ε σ β} (hm : Restores f m) (hg : ∀ a, Restores f (g a)) :
    Restores f (m >>= g) := by
  intro s b u h
  obtain ⟨a, t, hma, hga⟩ := bind_eq_ok.1 h
  exact (hg a t b u hga).trans (hm s a t hma)

theorem findSomeM {l : List β} {g : β → EStateM ε σ (Option α)} (h : ∀ b, Restores f (g b)) :
    Restores f (l.findSomeM? g) := by
  induction l with
  | nil => exact pure
  | cons b l ih =>
    rw [List.findSomeM?_cons]
    refine (h b).bind fun o => ?_
    cases o with
    | none => exact ih
    | some a => exact pure

end Restores

/-- `m` does not stop with the error `e`. -/
def Avoids (e : ε) (m : EStateM ε σ α) : Prop := ∀ s t, m s ≠ .error e t

namespace Avoids

variable {e : ε} {m : EStateM ε σ α}

theorem pure {a : α} : Avoids e (Pure.pure a : EStateM ε σ α) := fun _ _ => nofun

theorem get : Avoids e (MonadState.get : EStateM ε σ σ) := fun _ _ => nofun

theorem modify {g : σ → σ} : Avoids e (modifyGet fun s => (PUnit.unit, g s) : EStateM ε σ PUnit) :=
  fun _ _ => nofun

theorem throw {e' : ε} (h : e' ≠ e) : Avoids e (MonadExcept.throw e' : EStateM ε σ α) := by
  intro s t hs
  cases hs
  exact h rfl

theorem bind {g : α → EStateM ε σ β} (hm : Avoids e m) (hg : ∀ a, Avoids e (g a)) :
    Avoids e (m >>= g) := by
  intro s u h
  rcases bind_eq_error.1 h with h | ⟨a, t, -, h⟩
  · exact hm s u h
  · exact hg a t u h

theorem forM {l : List β} {g : β → EStateM ε σ PUnit} (h : ∀ b, Avoids e (g b)) :
    Avoids e (l.forM g) := by
  induction l with
  | nil => exact pure
  | cons b l ih => exact (h b).bind fun _ => ih

theorem findSomeM {l : List β} {g : β → EStateM ε σ (Option α)} (h : ∀ b, Avoids e (g b)) :
    Avoids e (l.findSomeM? g) := by
  induction l with
  | nil => exact pure
  | cons b l ih =>
    rw [List.findSomeM?_cons]
    refine (h b).bind fun o => ?_
    cases o with
    | none => exact ih
    | some a => exact pure

end Avoids

end Outcome
