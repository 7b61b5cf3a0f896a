import Mathlib.Data.Nat.Notation
import Mathlib.Order.Defs.Unbundled

/-!
# Computations that may stop

A computation with a state `σ` that returns a value or stops with an `ε` is an
`EStateM ε σ α`; both ways it leaves a state (`final`). Three things are said
about such a computation at once, and stay true under sequencing (`Along`):

* it evolves along a relation `R`, however it ends (a preorder: what a sequence
  of computations does is what its members do);
* from a state with `P` it returns a value and a state with `Q`;
* from a state with `P` it stops only with an error in `E`.

Of the first alone there is `Evolves`. A computation that changes nothing is told by
the view of the state that it reads (`Reads`).

The rules are those of the constructs a computation is made of; a computation
is then treated by the rule of its outermost construct.
-/

namespace Outcome

variable {ε σ α β : Type}

/-- The state a computation leaves, whether it returned or stopped. -/
def final : EStateM.Result ε σ α → σ
  | .ok _ s => s
  | .error _ s => s

@[simp] theorem final_ok (a : α) (s : σ) : final (.ok a s : EStateM.Result ε σ α) = s := rfl

@[simp] theorem final_error (e : ε) (s : σ) :
    final (.error e s : EStateM.Result ε σ α) = s := rfl

/-- How a result may be, given that the computation started well: a value and a
    state with `Q`, or an error in `E`. -/
def Ends (Q : α → σ → Prop) (E : ε → Prop) : EStateM.Result ε σ α → Prop
  | .ok a s => Q a s
  | .error e _ => E e

/-- `m` evolves along `R`, leads from `P` to `Q`, and from `P` stops only with
    `E`. -/
def Along (R : σ → σ → Prop) (P : σ → Prop) (Q : α → σ → Prop) (E : ε → Prop)
    (m : EStateM ε σ α) : Prop :=
  ∀ s, R s (final (m s)) ∧ (P s → Ends Q E (m s))

/-! ## Evaluation -/

theorem bind_ok {m : EStateM ε σ α} {f : α → EStateM ε σ β} {s s' : σ} {a : α}
    (h : m s = .ok a s') : (m >>= f) s = f a s' := by
  simp [bind, EStateM.bind, h]

theorem bind_error {m : EStateM ε σ α} {f : α → EStateM ε σ β} {s s' : σ} {e : ε}
    (h : m s = .error e s') : (m >>= f) s = .error e s' := by
  simp [bind, EStateM.bind, h]

@[simp] theorem pure_apply (a : α) (s : σ) : (pure a : EStateM ε σ α) s = .ok a s := rfl

@[simp] theorem get_apply (s : σ) : (get : EStateM ε σ σ) s = .ok s s := rfl

@[simp] theorem modify_apply (f : σ → σ) (s : σ) :
    (modify f : EStateM ε σ PUnit) s = .ok ⟨⟩ (f s) := rfl

@[simp] theorem throw_apply (e : ε) (s : σ) : (throw e : EStateM ε σ α) s = .error e s := rfl

@[simp] theorem pure_bind_apply (a : α) (f : α → EStateM ε σ β) (s : σ) :
    (pure a >>= f) s = f a s := rfl

@[simp] theorem get_bind_apply (f : σ → EStateM ε σ β) (s : σ) : (get >>= f) s = f s s := rfl

@[simp] theorem modify_bind_apply (g : σ → σ) (f : PUnit → EStateM ε σ β) (s : σ) :
    (modify g >>= f) s = f ⟨⟩ (g s) := rfl

@[simp] theorem throw_bind_apply (e : ε) (f : α → EStateM ε σ β) (s : σ) :
    (throw e >>= f) s = .error e s := rfl

/-! ## Rules -/

namespace Along

variable {R : σ → σ → Prop} {P P' : σ → Prop} {Q Q' : α → σ → Prop} {E : ε → Prop}
  {m : EStateM ε σ α}

theorem pure (hr : ∀ s, R s s) {a : α} (h : ∀ s, P s → Q a s) :
    Along R P Q E (Pure.pure a : EStateM ε σ α) :=
  fun s => ⟨hr s, h s⟩

theorem get (hr : ∀ s, R s s) : Along R P (fun a s => P s ∧ a = s) E (MonadState.get : EStateM ε σ σ) :=
  fun s => ⟨hr s, fun h => ⟨h, rfl⟩⟩

theorem modify {f : σ → σ} {Q : σ → Prop} (hR : ∀ s, R s (f s)) (hP : ∀ s, P s → Q (f s)) :
    Along R P (fun _ => Q) E (modifyGet fun s => (PUnit.unit, f s) : EStateM ε σ PUnit) :=
  fun s => ⟨hR s, hP s⟩

theorem throw (hr : ∀ s, R s s) {e : ε} (he : E e) :
    Along R P Q E (MonadExcept.throw e : EStateM ε σ α) :=
  fun s => ⟨hr s, fun _ => he⟩

theorem bind (hm : Along R P Q E m) (ht : ∀ {a b c}, R a b → R b c → R a c)
    {f : α → EStateM ε σ β} {Q' : β → σ → Prop} (hf : ∀ a, Along R (Q a) Q' E (f a)) :
    Along R P Q' E (m >>= f) := by
  intro s
  obtain ⟨hR, hP⟩ := hm s
  cases h : m s with
  | ok a s' =>
    rw [bind_ok h]
    rw [h] at hR hP
    exact ⟨ht hR (hf a s').1, fun hs => (hf a s').2 (hP hs)⟩
  | error e s' =>
    rw [bind_error h]
    rw [h] at hR hP
    exact ⟨hR, hP⟩

/-- A stronger start and a weaker end. -/
theorem conseq (hm : Along R P Q E m) (hP : ∀ s, P' s → P s) (hQ : ∀ a s, Q a s → Q' a s) :
    Along R P' Q' E m := by
  intro s
  refine ⟨(hm s).1, fun hs => ?_⟩
  have h := (hm s).2 (hP s hs)
  cases hr : m s with
  | ok a s' =>
    rw [hr] at h
    exact hQ a s' h
  | error e s' =>
    rw [hr] at h
    exact h

end Along

/-! ## Evolving -/

/-- However it ends, `m` evolves along the preorder `R`. -/
def Evolves (R : σ → σ → Prop) (m : EStateM ε σ α) : Prop := ∀ s, R s (final (m s))

namespace Evolves

variable {R : σ → σ → Prop} [IsPreorder σ R] {m : EStateM ε σ α}

theorem pure {a : α} : Evolves R (Pure.pure a : EStateM ε σ α) := fun s => refl_of R s

theorem get : Evolves R (MonadState.get : EStateM ε σ σ) := fun s => refl_of R s

theorem throw {e : ε} : Evolves R (MonadExcept.throw e : EStateM ε σ α) := fun s => refl_of R s

/-- From one state on. -/
theorem bind_apply {s : σ} (hm : R s (final (m s))) {f : α → EStateM ε σ β}
    (hf : ∀ a, Evolves R (f a)) : R s (final ((m >>= f) s)) := by
  cases hr : m s with
  | ok a t =>
    rw [hr] at hm
    rw [bind_ok hr]
    exact trans_of R hm (hf a t)
  | error e t =>
    rw [hr] at hm
    rw [bind_error hr]
    exact hm

theorem bind (hm : Evolves R m) {f : α → EStateM ε σ β} (hf : ∀ a, Evolves R (f a)) :
    Evolves R (m >>= f) := fun s =>
  bind_apply (hm s) hf

theorem forM {l : List β} {g : β → EStateM ε σ PUnit} (h : ∀ b, Evolves R (g b)) :
    Evolves R (l.forM g) := by
  induction l with
  | nil => exact pure
  | cons b l ih => exact (h b).bind fun _ => ih

theorem findSomeM {l : List β} {g : β → EStateM ε σ (Option α)} (h : ∀ b, Evolves R (g b)) :
    Evolves R (l.findSomeM? g) := by
  induction l with
  | nil => exact pure
  | cons b l ih =>
    refine (h b).bind fun a => ?_
    cases a with
    | none => exact ih
    | some a => exact pure

end Evolves

/-! ## Reading -/

/-- `m` changes nothing, and what it returns depends on the view `f` of the state
    only. -/
def Reads {τ : Type} (f : σ → τ) (m : EStateM ε σ α) : Prop :=
  ∀ s t, f s = f t → (∃ a, m s = .ok a s ∧ m t = .ok a t) ∨
    ∃ e, m s = .error e s ∧ m t = .error e t

namespace Reads

variable {τ : Type} {f : σ → τ} {m : EStateM ε σ α}

theorem pure (a : α) : Reads f (Pure.pure a : EStateM ε σ α) :=
  fun _ _ _ => .inl ⟨a, rfl, rfl⟩

theorem throw (e : ε) : Reads f (MonadExcept.throw e : EStateM ε σ α) :=
  fun _ _ _ => .inr ⟨e, rfl, rfl⟩

theorem get_bind {g : σ → EStateM ε σ α} (hg : ∀ s t, f s = f t → g s = g t)
    (h : ∀ s, Reads f (g s)) : Reads f (MonadState.get >>= g) := by
  intro s t hst
  have := h s s t hst
  rw [get_bind_apply, get_bind_apply, ← hg s t hst]
  exact this

theorem bind (hm : Reads f m) {g : α → EStateM ε σ β} (hg : ∀ a, Reads f (g a)) :
    Reads f (m >>= g) := by
  intro s t hst
  rcases hm s t hst with ⟨a, hs, ht⟩ | ⟨e, hs, ht⟩
  · rw [bind_ok hs, bind_ok ht]
    exact hg a s t hst
  · rw [bind_error hs, bind_error ht]
    exact .inr ⟨e, rfl, rfl⟩

theorem findSomeM {l : List β} {g : β → EStateM ε σ (Option α)} (h : ∀ b, Reads f (g b)) :
    Reads f (l.findSomeM? g) := by
  induction l with
  | nil => exact pure _
  | cons b l ih =>
    refine (h b).bind fun a => ?_
    cases a with
    | none => exact ih
    | some a => exact pure _

end Reads

/-! ## Searches -/

/-- A search through all indices finds the first that fits. -/
theorem find_finRange_eq_some {m : ℕ} {P : Fin m → Bool} {x : Fin m} :
    (List.finRange m).find? P = some x ↔ P x = true ∧ ∀ y < x, P y = false := by
  rw [List.find?_eq_some_iff_getElem]
  simp only [List.getElem_finRange, List.length_finRange]
  constructor
  · rintro ⟨hx, a, ha, rfl, hbefore⟩
    refine ⟨hx, fun y hy => ?_⟩
    simpa using hbefore y hy
  · rintro ⟨hx, hbefore⟩
    exact ⟨hx, x, x.2, rfl, fun y hy => by simpa using hbefore ⟨y, Nat.lt_trans hy x.2⟩ hy⟩

end Outcome
