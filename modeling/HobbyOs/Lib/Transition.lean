import Mathlib.Data.Set.Basic

/-!
# Guarded runs of a transition system

A transition system moves from state to state on events; an event may be
impossible in a state (`none`). A *guarded* path only takes the steps that a
guard `C`, a condition on the state before the step and on the event, lets
pass; with the trivial guard these are all the paths.

* `Path`: the guarded paths from a state, and `Reach`: those from an initial
  state;
* `Path.induct` and `Reach.invariant`: what every guarded step keeps, a guarded
  path keeps;
* `run`: a path given by its events, to be evaluated; it is a path
  (`Path.of_run`), if the guard holds at each step;
* `run_map`: a system that another one implements, step by step, has its runs.
-/

namespace Transition

/-- A transition system: its initial states, and its steps. -/
structure System (σ ε : Type*) where
  /-- The initial states. -/
  init : Set σ
  /-- The step of an event, where it is possible. -/
  step : ε → σ → Option σ

variable {σ ε : Type*} (T : System σ ε)

/-- The states reached from `s` by steps that all meet the guard `C`. -/
inductive Path (C : σ → ε → Prop) (s : σ) : σ → Prop
  | refl : Path C s s
  | step {t t' : σ} {e : ε} : Path C s t → C t e → T.step e t = some t' → Path C s t'

/-- The states reached from an initial state by steps that all meet `C`. -/
def Reach (C : σ → ε → Prop) (s : σ) : Prop := ∃ s₀ ∈ T.init, Path T C s₀ s

/-- The guard that lets every step pass. -/
def free : σ → ε → Prop := fun _ _ => True

variable {T} {C D : σ → ε → Prop} {s t t' : σ} {e : ε}

/-- What every guarded step keeps holds along a guarded path. -/
theorem Path.induct {I : σ → Prop} (h : Path T C s t) (hs : I s)
    (hstep : ∀ {u u' e}, I u → C u e → T.step e u = some u' → I u') : I t := by
  induction h with
  | refl => exact hs
  | step _ hC hst ih => exact hstep ih hC hst

theorem Path.trans {u : σ} (h : Path T C s t) (h' : Path T C t u) : Path T C s u := by
  induction h' with
  | refl => exact h
  | step _ hC hst ih => exact .step ih hC hst

theorem Path.mono (h : Path T C s t) (hCD : ∀ {u e}, C u e → D u e) : Path T D s t := by
  induction h with
  | refl => exact .refl
  | step _ hC hst ih => exact .step ih (hCD hC) hst

theorem Reach.mono (h : Reach T C s) (hCD : ∀ {u e}, C u e → D u e) : Reach T D s :=
  let ⟨s₀, h₀, hp⟩ := h; ⟨s₀, h₀, hp.mono hCD⟩

theorem Reach.step (h : Reach T C s) (hC : C s e) (hst : T.step e s = some t) : Reach T C t :=
  let ⟨s₀, h₀, hp⟩ := h; ⟨s₀, h₀, .step hp hC hst⟩

theorem Reach.path (h : Reach T C s) (hp : Path T C s t) : Reach T C t :=
  let ⟨s₀, h₀, h⟩ := h; ⟨s₀, h₀, h.trans hp⟩

/-- What holds initially and is kept by every guarded step holds in every state
    reached. -/
theorem Reach.invariant {I : σ → Prop} (h : Reach T C s) (hinit : ∀ s ∈ T.init, I s)
    (hstep : ∀ {u u' e}, I u → C u e → T.step e u = some u' → I u') : I s :=
  let ⟨_, h₀, hp⟩ := h; hp.induct (hinit _ h₀) hstep

/-- A guard may be replaced by one that the steps from the states reached meet. -/
theorem Reach.strengthen (h : Reach T C s)
    (hCD : ∀ {u u' e}, Reach T C u → C u e → T.step e u = some u' → D u e) : Reach T D s := by
  obtain ⟨s₀, h₀, hp⟩ := h
  induction hp with
  | refl => exact ⟨s₀, h₀, .refl⟩
  | step hp hC hst ih => exact ih.step (hCD ⟨s₀, h₀, hp⟩ hC hst) hst

/-! ## Runs -/

section

variable (C) [∀ s e, Decidable (C s e)]

/-- The state after the events `es`, in turn, if every step is possible and
    meets `C`. -/
def run (T : System σ ε) : List ε → σ → Option σ
  | [], s => some s
  | e :: es, s => if C s e then (T.step e s).bind (run T es) else none

/-- A run of events is a path. -/
theorem Path.of_run {es : List ε} (h : run C T es s = some t) : Path T C s t := by
  induction es generalizing s with
  | nil =>
    cases h
    exact .refl
  | cons e es ih =>
    rw [run] at h
    split at h
    · obtain ⟨u, hu, h⟩ := Option.bind_eq_some_iff.1 h
      exact (Path.step .refl ‹_› hu).trans (ih h)
    · cases h

/-- What a run of events from an initial state leads to is reached. -/
theorem Reach.of_run {es : List ε} (hs : s ∈ T.init) (h : run C T es s = some t) : Reach T C t :=
  ⟨s, hs, .of_run C h⟩

end

instance (s : σ) (e : ε) : Decidable (free s e) := .isTrue trivial

/-- A system that shows, step by step, what another one does shows it in every run: the states by
    `f`, as long as they meet `I`, and the events by `g`. -/
theorem run_map {τ δ : Type*} {U : System τ δ} {f : σ → τ} {g : ε → δ} {I : σ → Prop}
    (hI : ∀ {s s' e}, I s → T.step e s = some s' → I s')
    (hf : ∀ {s e}, I s → (T.step e s).map f = U.step (g e) (f s))
    (hs : I s) (es : List ε) : (run free T es s).map f = run free U (es.map g) (f s) := by
  induction es generalizing s with
  | nil => rfl
  | cons e es ih =>
    have hstep : run free T (e :: es) s = (T.step e s).bind (run free T es) := if_pos trivial
    have hstep' : run free U ((e :: es).map g) (f s) = (U.step (g e) (f s)).bind (run free U (es.map g)) :=
      if_pos trivial
    rw [hstep, hstep', ← hf hs]
    cases hs' : T.step e s with
    | none => rfl
    | some s' => exact ih (hI hs hs')

end Transition
