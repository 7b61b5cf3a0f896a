import Mathlib.Data.List.Basic
import Mathlib.Data.List.Induction
import Mathlib.Data.Nat.Digits.Defs

/-!
# Numerals

A numeral in a radix is a list of digits, of any kind, the most significant one
first; `val` says what a digit is worth. What is worth the radix or more is no
digit.

* `value`: the number that the digits denote (`value_concat`, `value_append`);
* `Canonical`: a numeral without leading zeros; it grows digit by digit
  (`Canonical.single`, `Canonical.concat`);
* `value_eq_of_append`: digits in front of a numeral leave its value as it is if and
  only if they are zeros.
-/

namespace Numerals

variable {α : Type*} {val : α → ℕ} {radix n : ℕ} {c : α} {ds front : List α}

/-- The number that digits denote. -/
def value (val : α → ℕ) (radix : ℕ) (ds : List α) : ℕ := Nat.ofDigits radix (ds.reverse.map val)

@[simp] theorem value_nil : value val radix [] = 0 := rfl

theorem value_concat : value val radix (ds ++ [c]) = value val radix ds * radix + val c := by
  rw [value, List.reverse_append, List.reverse_singleton, List.singleton_append,
    List.map_cons, Nat.ofDigits_cons,
    Nat.mul_comm, Nat.add_comm]
  rfl

theorem value_append :
    value val radix (front ++ ds) = value val radix front * radix ^ ds.length + value val radix ds := by
  rw [value, List.reverse_append, List.map_append, Nat.ofDigits_append, List.length_map, List.length_reverse,
    Nat.mul_comm, Nat.add_comm]
  rfl

/-- Only zeros denote zero. -/
theorem value_eq_zero_iff (hradix : 0 < radix) : value val radix ds = 0 ↔ ∀ c ∈ ds, val c = 0 := by
  induction ds using List.reverseRecOn with
  | nil => simp
  | append_singleton ds c ih =>
    rw [value_concat, Nat.add_eq_zero_iff, Nat.mul_eq_zero, or_iff_left (by omega), ih]
    simp only [List.mem_append, List.mem_singleton]
    constructor
    · rintro ⟨hds, hc⟩ d (hd | rfl)
      · exact hds d hd
      · exact hc
    · exact fun h => ⟨fun d hd => h d (.inl hd), h c (.inr rfl)⟩

/-- Digits in front of a numeral are only seen if one is not zero. -/
theorem value_eq_of_append (hradix : 0 < radix) (front ds : List α) :
    value val radix ds = value val radix (front ++ ds) ↔ ∀ c ∈ front, val c = 0 := by
  rw [value_append, ← value_eq_zero_iff hradix]
  have hpow : 0 < radix ^ ds.length := Nat.pow_pos hradix
  constructor
  · intro h
    have hzero : value val radix front * radix ^ ds.length = 0 := by omega
    exact (Nat.mul_eq_zero.1 hzero).resolve_right (Nat.ne_of_gt hpow)
  · intro h
    rw [h, Nat.zero_mul, Nat.zero_add]

/-! ## Canonical numerals -/

/-- The digits denote `n`, and do not start with a zero unless it is the only one. -/
structure Canonical (val : α → ℕ) (radix n : ℕ) (ds : List α) : Prop where
  digits : ∀ c ∈ ds, val c < radix
  nonempty : ds ≠ []
  leading : ∀ c ∈ ds.head?, val c = 0 → ds = [c]
  value : value val radix ds = n

theorem Canonical.single (hn : n < radix) (hc : val c = n) : Canonical val radix n [c] where
  digits d hd := by
    obtain rfl := List.mem_singleton.1 hd
    exact hc ▸ hn
  nonempty := List.cons_ne_nil _ _
  leading d hd _ := by
    obtain rfl := Option.mem_some.1 hd
    rfl
  value := by
    rw [show [c] = [] ++ [c] from rfl, value_concat, value_nil, Nat.zero_mul, Nat.zero_add, hc]

/-- One digit more, behind what is left of the number without it. -/
theorem Canonical.concat (h : Canonical val radix (n / radix) ds) (hn : radix ≤ n) (hradix : 0 < radix)
    (hc : val c = n % radix) : Canonical val radix n (ds ++ [c]) where
  digits d hd := by
    rcases List.mem_append.1 hd with hd | hd
    · exact h.digits d hd
    · rw [List.mem_singleton.1 hd, hc]
      exact Nat.mod_lt n hradix
  nonempty := by simp
  leading d hd hzero := by
    -- A leading zero would be all there is, but the rest of the number is not zero.
    rw [List.head?_append_of_ne_nil _ h.nonempty] at hd
    have hpos : 0 < n / radix := Nat.div_pos hn hradix
    have hrest := h.value
    rw [h.leading d hd hzero, show [d] = [] ++ [d] from rfl, value_concat, hzero,
      value_nil, Nat.zero_mul] at hrest
    omega
  value := by
    rw [value_concat, h.value, hc, Nat.mul_comm]
    exact Nat.div_add_mod n radix

end Numerals
