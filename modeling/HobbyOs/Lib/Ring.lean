import Mathlib.Data.Nat.ModEq

/-!
# Rings

A ring is `n` cells, `f 0` to `f (n - 1)`, gone through in a circle. A queue is
kept in it as the cells from one position on, which need not be in one piece.

* `next` and `dist`: the position after another, and how far it is from one to
  another;
* `window`: what is in the cells from a position on, and how it changes when
  cells are written behind it.
-/

namespace Ring

variable {α : Type*} {f g : ℕ → α} {n a b l : ℕ}

/-- The position after `a`. -/
def next (n a : ℕ) : ℕ := if a + 1 = n then 0 else a + 1

/-- The steps from `a` to `b`; all the way round, if they are the same. -/
def dist (n a b : ℕ) : ℕ := if a < b then b - a else b + n - a

/-- What is in the `l` cells from `a` on. -/
def window (f : ℕ → α) (n a l : ℕ) : List α := (List.range l).map fun j => f ((a + j) % n)

/-! ## Positions -/

theorem next_lt (ha : a < n) : next n a < n := by
  unfold next
  split <;> omega

theorem next_eq_mod (ha : a < n) : next n a = (a + 1) % n := by
  unfold next
  split
  · simp [*]
  · exact (Nat.mod_eq_of_lt (by omega)).symm

theorem dist_pos (hb : a < n) : 0 < dist n a b := by
  unfold dist
  split <;> omega

theorem dist_le (hb : b < n) : dist n a b ≤ n := by
  unfold dist
  split <;> omega

@[simp] theorem dist_self : dist n a a = n := by simp [dist]

theorem next_eq_iff (ha : a < n) (hb : b < n) : next n a = b ↔ dist n a b = 1 := by
  unfold next dist
  split <;> split <;> omega

theorem dist_next (ha : a < n) (hb : b < n) (h : next n a ≠ b) :
    dist n a b = dist n (next n a) b + 1 := by
  unfold next at h ⊢
  unfold dist
  split at h <;> split <;> split <;> omega

/-- There and back is once round. -/
theorem dist_add_dist (ha : a < n) (hb : b < n) (h : a ≠ b) : dist n a b + dist n b a = n := by
  unfold dist
  split <;> split <;> omega

theorem add_dist_mod (ha : a < n) (hb : b < n) : (a + dist n a b) % n = b := by
  unfold dist
  split
  · rw [Nat.add_sub_cancel' (by omega), Nat.mod_eq_of_lt hb]
  · rw [Nat.add_sub_cancel' (by omega), Nat.add_mod_right, Nat.mod_eq_of_lt hb]

/-- Going on from a position that is reached. -/
theorem dist_add_mod (ha : a < n) (hb : b < n) (hl : l < dist n a b) :
    dist n ((a + l) % n) b = dist n a b - l := by
  induction l with
  | zero => rw [Nat.add_zero, Nat.mod_eq_of_lt ha, Nat.sub_zero]
  | succ l ih =>
    have ih := ih (by omega)
    have hlt : (a + l) % n < n := Nat.mod_lt _ (by omega)
    have hnext : next n ((a + l) % n) = (a + (l + 1)) % n := by
      rw [next_eq_mod hlt, Nat.mod_add_mod, Nat.add_assoc]
    have hne : next n ((a + l) % n) ≠ b := by
      rw [Ne, next_eq_iff hlt hb]
      omega
    have := dist_next hlt hb hne
    rw [hnext] at this
    omega

/-! ## Windows -/

@[simp] theorem window_zero : window f n a 0 = [] := rfl

@[simp] theorem length_window : (window f n a l).length = l := by simp [window]

theorem window_mod : window f n (a % n) l = window f n a l := by
  simp [window, Nat.mod_add_mod]

theorem window_add (m : ℕ) : window f n a (l + m) = window f n a l ++ window f n (a + l) m := by
  simp [window, List.range_add, Nat.add_assoc, Function.comp_def]

theorem window_succ : window f n a (l + 1) = window f n a l ++ [f ((a + l) % n)] := by
  simp [window, List.range_succ]

theorem window_succ' : window f n a (l + 1) = f (a % n) :: window f n (a + 1) l := by
  rw [Nat.add_comm l 1, window_add]
  simp [window]

theorem window_congr (h : ∀ j < l, f ((a + j) % n) = g ((a + j) % n)) :
    window f n a l = window g n a l := by
  simpa [window] using h

/-- A window in one piece. -/
theorem window_of_le (h : a + l ≤ n) : window f n a l = (List.range l).map fun j => f (a + j) := by
  refine List.map_congr_left fun j hj => ?_
  rw [Nat.mod_eq_of_lt (by have := List.mem_range.1 hj; omega)]

/-- Different places of a window of at most `n` cells are different cells. -/
theorem mod_ne_mod {i j : ℕ} (hij : i < j) (hj : j < i + n) : (a + i) % n ≠ (a + j) % n := by
  intro h
  have h' : i ≡ j [MOD n] := Nat.ModEq.add_left_cancel' a h
  have := (Nat.modEq_iff_dvd' hij.le).1 h'
  exact absurd (Nat.le_of_dvd (by omega) this) (by omega)

/-- Cells behind the window are written: the window stays. -/
theorem window_of_write {m : ℕ} (hlm : l + m ≤ n)
    (h : ∀ x < n, (∀ t < m, x ≠ (a + l + t) % n) → g x = f x) :
    window g n a l = window f n a l := by
  refine window_congr fun j hj => h _ (Nat.mod_lt _ (by omega)) fun t ht => ?_
  rw [Nat.add_assoc]
  exact mod_ne_mod (by omega) (by omega)

end Ring
