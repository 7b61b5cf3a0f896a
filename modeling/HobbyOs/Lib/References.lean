import Mathlib.Algebra.BigOperators.Group.Finset.Basic
import Mathlib.Algebra.Order.BigOperators.Group.Finset
import Mathlib.Data.Fintype.BigOperators

/-!
# Counting references

Owners hold references to objects, each in a table of its own, and every object
has a counter. The counter of an object may be ahead of the references to it,
but only so far (`Bounded`).

* `count`: how many entries of a table refer to an object, and what becomes of
  it when an entry is filled or cleared;
* `total`: the same for the tables of all owners;
* `Bounded.replace`: the table of an owner is replaced, and the counters follow;
* `Bounded.leak`: a counter goes up without an entry to show for it;
* `Exact`: what a counter is ahead by does not change.
-/

namespace References

open Finset

/-! ## A table in part -/

section

variable {ι φ : Type*} [DecidableEq ι] {E : ι → Option φ} {l : List ι} {i : ι}

/-- A table but for its entries in `l`. -/
def without (E : ι → Option φ) (l : List ι) : ι → Option φ := fun i => if i ∈ l then none else E i

@[simp] theorem without_nil : without E [] = E := by
  funext i
  simp [without]

theorem without_all (h : ∀ i, i ∈ l) : without E l = fun _ => none := by
  funext i
  simp [without, h]

theorem without_cons (hi : i ∉ l) : Function.update (without E l) i none = without E (i :: l) := by
  funext j
  by_cases hj : j = i
  · subst hj
    simp [without]
  · simp [without, hj]

end

variable {κ ι φ : Type*} [Fintype ι] [DecidableEq φ]
  {E E' : ι → Option φ} {i : ι} {f g : φ}

/-! ## One table -/

/-- The number of entries that refer to `f`. -/
def count (E : ι → Option φ) (f : φ) : ℕ := (univ.filter fun i => E i = some f).card

@[simp] theorem count_none : count (fun _ : ι => none) f = 0 := by simp [count]

theorem count_le : count E f ≤ Fintype.card ι := card_le_univ _

theorem count_pos (h : E i = some f) : 0 < count E f := card_pos.2 ⟨i, by simpa using h⟩

theorem exists_of_count_pos (h : 0 < count E f) : ∃ i, E i = some f := by
  obtain ⟨i, hi⟩ := card_pos.1 h
  exact ⟨i, by simpa using hi⟩

theorem count_eq_zero (h : ∀ i, E i ≠ some f) : count E f = 0 := by
  by_contra hne
  obtain ⟨i, hi⟩ := exists_of_count_pos (Nat.pos_of_ne_zero hne)
  exact h i hi

/-- Exactly one entry refers to `f`. -/
theorem count_eq_one (hi : E i = some f) (h : ∀ j, E j = some f → j = i) : count E f = 1 := by
  refine card_eq_one.2 ⟨i, ?_⟩
  ext j
  simp only [mem_filter, mem_univ, true_and, mem_singleton]
  exact ⟨h j, fun hj => hj ▸ hi⟩

/-- An entry is filled. -/
theorem count_fill [DecidableEq ι] (hi : E i = none) (g : φ) :
    count (Function.update E i (some f)) g = count E g + if g = f then 1 else 0 := by
  rw [count, count]
  split_ifs with hg
  · subst hg
    rw [show (univ.filter fun j => Function.update E i (some g) j = some g) =
      insert i (univ.filter fun j => E j = some g) from ?_, card_insert_of_notMem (by simp [hi])]
    ext j
    by_cases hj : j = i
    · subst hj
      simp
    · simp [hj]
  · congr 1
    ext j
    by_cases hj : j = i
    · subst hj
      simpa [hi] using Ne.symm hg
    · simp [hj]

/-- An entry is cleared. -/
theorem count_clear [DecidableEq ι] (hi : E i = some f) (g : φ) :
    count (Function.update E i none) g + (if g = f then 1 else 0) = count E g := by
  have h := count_fill (E := Function.update E i none) (i := i) (f := f) (by simp) g
  rw [Function.update_idem, ← hi, Function.update_eq_self] at h
  exact h.symm

/-- One entry more. -/
theorem count_without [DecidableEq ι] {l : List ι} (hi : i ∉ l) (g : φ) :
    count (without E (i :: l)) g + (if E i = some g then 1 else 0) = count (without E l) g := by
  rw [← without_cons hi]
  have hEi : without E l i = E i := by simp [without, hi]
  cases h : E i with
  | none =>
    rw [← h, ← hEi, Function.update_eq_self, hEi, h]
    simp
  | some f =>
    have := count_clear (hEi.trans h) g
    simpa [eq_comm] using this

theorem count_without_le [DecidableEq ι] {l : List ι} : count (without E l) f ≤ count E f := by
  refine card_le_card fun i hi => mem_filter.2 ⟨mem_univ i, ?_⟩
  have hi := (mem_filter.1 hi).2
  rw [without] at hi
  split_ifs at hi
  exact hi

/-! ## The tables of all owners -/

variable [Fintype κ] {D D' : κ → ι → Option φ} {q : κ} {S : Set φ} {rc rc' : φ → ℕ} {b b' : ℕ}

/-- The number of entries of all tables that refer to `f`. -/
def total (D : κ → ι → Option φ) (f : φ) : ℕ := ∑ q, count (D q) f

theorem total_le : total D f ≤ Fintype.card κ * Fintype.card ι :=
  (sum_le_card_nsmul univ _ _ fun _ _ => count_le).trans (by simp)

theorem count_le_total : count (D q) f ≤ total D f :=
  single_le_sum (f := fun q => count (D q) f) (fun _ _ => Nat.zero_le _) (mem_univ q)

/-- The table of `q` is replaced. -/
theorem total_replace [DecidableEq κ] :
    total (Function.update D q E) f + count (D q) f = total D f + count E f := by
  have hsplit : ∀ D' : κ → ι → Option φ, total D' f = ∑ r ∈ univ \ {q},
      count (D' r) f + count (D' q) f := by
    intro D'
    rw [total, ← sum_sdiff (singleton_subset_iff.2 (mem_univ q)), sum_singleton]
  have hne : ∀ r ∈ univ \ {q}, count (Function.update D q E r) f = count (D r) f := by
    intro r hr
    rw [Function.update_of_ne (by simpa using hr)]
  rw [hsplit, hsplit, sum_congr rfl hne, Function.update_self]
  omega

/-- The entries that refer to `f` are all in the table of `q`. -/
theorem total_eq_count (h : ∀ r ≠ q, count (D r) f = 0) : total D f = count (D q) f :=
  sum_eq_single q (fun r _ hr => h r hr) fun hq => absurd (mem_univ q) hq

/-- The counters of the objects in `S` are ahead of the references to them by what `base` says. -/
def Exact (S : Set φ) (base rc : φ → ℕ) (D : κ → ι → Option φ) : Prop :=
  ∀ f ∈ S, rc f = base f + total D f

namespace Exact

variable {base : φ → ℕ}

/-- The table of `q` is replaced, and the counters follow. -/
theorem replace [DecidableEq κ] (h : Exact S base rc D)
    (hrc : ∀ g ∈ S, rc' g + count (D q) g = rc g + count E g) :
    Exact S base rc' (Function.update D q E) := by
  intro g hg
  have htotal := total_replace (D := D) (q := q) (E := E) (f := g)
  have hle := count_le_total (D := D) (q := q) (f := g)
  have hbefore := h g hg
  have hafter := hrc g hg
  omega

end Exact

/-- The counters of the objects in `S` are those of the references to them, or
    ahead of these by at most `b`. -/
def Bounded (S : Set φ) (b : ℕ) (rc : φ → ℕ) (D : κ → ι → Option φ) : Prop :=
  ∀ f ∈ S, total D f ≤ rc f ∧ rc f ≤ b + total D f

namespace Bounded

theorem pos (h : Bounded S b rc D) (hf : f ∈ S) (hi : D q i = some f) : 0 < rc f :=
  (count_pos hi).trans_le (count_le_total.trans (h f hf).1)

theorem le (h : Bounded S b rc D) (hf : f ∈ S) : rc f ≤ b + Fintype.card κ * Fintype.card ι :=
  (h f hf).2.trans (Nat.add_le_add_left total_le b)

/-- Nothing refers to an object whose counter is zero. -/
theorem ne_some (h : Bounded S b rc D) (hf : f ∈ S) (h0 : rc f = 0) (q : κ) (i : ι) : D q i ≠ some f :=
  fun hi => absurd (h.pos hf hi) (by omega)

/-- The table of `q` is replaced, and the counters follow. -/
theorem replace [DecidableEq κ] (h : Bounded S b rc D)
    (hrc : ∀ g ∈ S, rc' g + count (D q) g = rc g + count E g) :
    Bounded S b rc' (Function.update D q E) := by
  intro g hg
  obtain ⟨hlow, hhigh⟩ := h g hg
  have htotal := total_replace (D := D) (q := q) (E := E) (f := g)
  have := hrc g hg
  have := count_le_total (D := D) (q := q) (f := g)
  omega

/-- The counter of `f` goes up, as long as it stays within the larger bound. -/
theorem leak (h : Bounded S b rc D) (hb : b ≤ b') (hf : rc f < b' + total D f)
    (hrc : ∀ g ∈ S, rc' g = rc g + if g = f then 1 else 0) : Bounded S b' rc' D := by
  intro g hg
  obtain ⟨hlow, hhigh⟩ := h g hg
  rw [hrc g hg]
  split_ifs with hgf
  · subst hgf
    omega
  · omega

end Bounded

end References
