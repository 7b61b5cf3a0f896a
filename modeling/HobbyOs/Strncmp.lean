import HobbyOs.Printf
import HobbyOs.Ustr

/-!
# Comparing strings

`strncmp` counts down and returns zero when the count has run out, `ustrncmp`
counts up and returns the difference of what comes next. Both test the count
after a character has been compared.

* `orders_strncmp`: the kernel's orders strings as the standard says, if the count
  is not zero;
* `orders_ustrncmpLoop_iff`: that of the user programs does, unless the first
  characters are the same and the next ones are not;
* `comparesRight_iff`: where both do.
-/

namespace HobbyOs

open Printf Ustr

/-- The sign of `r` says how two lists are ordered lexicographically. -/
def Orders (r : ℤ) (a b : List UInt8) : Prop := (r < 0 ↔ a < b) ∧ (0 < r ↔ b < a)

section

variable {r : ℤ} {x y : UInt8} {a b : List UInt8}

theorem orders_same : Orders r a a ↔ r = 0 := by
  simp only [Orders, List.lt_irrefl, iff_false]
  omega

theorem orders_cons : Orders r (x :: a) (x :: b) ↔ Orders r a b := by
  simp [Orders]

/-- Different characters decide. -/
theorem orders_of_ne (h : x ≠ y) : Orders ((x.toNat : ℤ) - y.toNat) (x :: a) (y :: b) := by
  have hne : x.toNat ≠ y.toNat := fun heq => h (UInt8.toNat_inj.1 heq)
  simp only [Orders, List.cons_lt_cons_iff, UInt8.lt_iff_toNat_lt, h, h.symm, false_and, or_false]
  omega

theorem orders_nil_cons : Orders (-1) [] (y :: b) := by simp [Orders]

theorem orders_cons_nil : Orders 1 (x :: a) [] := by simp [Orders]

/-- The sign is zero if and only if the lists are the same. -/
theorem Orders.eq_zero_iff (h : Orders r a b) : r = 0 ↔ a = b := by
  constructor
  · intro hr
    rw [Orders, hr] at h
    exact List.le_antisymm (List.not_lt.1 fun hlt => by simpa using h.2.2 hlt)
      (List.not_lt.1 fun hlt => by simpa using h.1.2 hlt)
  · rintro rfl
    exact orders_same.1 h

end

/-! ## The kernel's comparison -/

/-- With a count, `strncmp` orders what the count leaves of the strings. -/
theorem orders_strncmp {a b : List UInt8} {num : ℕ} (hpos : 0 < num) (hnum : num < 2 ^ 32) :
    Orders (strncmp a b num) (a.take num) (b.take num) := by
  induction a generalizing b num with
  | nil =>
    cases b with
    | nil => exact (orders_same (a := [].take num)).2 rfl
    | cons y b =>
      obtain ⟨num, rfl⟩ := Nat.exists_eq_succ_of_ne_zero (Nat.ne_of_gt hpos)
      exact orders_nil_cons
  | cons x a ih =>
    obtain ⟨num, rfl⟩ := Nat.exists_eq_succ_of_ne_zero (Nat.ne_of_gt hpos)
    cases b with
    | nil => exact orders_cons_nil
    | cons y b =>
      rw [strncmp, u32_pred hnum hpos, Nat.succ_sub_one, List.take_succ_cons, List.take_succ_cons]
      by_cases hxy : x = y
      · subst hxy
        rw [if_neg (not_not.2 rfl), orders_cons]
        by_cases hlast : num = 0
        · subst hlast
          exact orders_same.2 rfl
        · rw [if_neg hlast]
          exact ih (Nat.pos_of_ne_zero hlast) (Nat.lt_of_succ_lt hnum)
      · rw [if_pos hxy, if_neg (Nat.succ_ne_zero num)]
        exact orders_of_ne hxy

/-- Without a count, it goes on up to `2 ^ 32` characters, if the first ones are the same. -/
theorem strncmp_zero {a b : List UInt8} (h : a.take 1 = b.take 1) :
    strncmp a b 0 = 0 ↔ a.take (2 ^ 32) = b.take (2 ^ 32) := by
  cases a with
  | nil =>
    cases b with
    | nil => exact iff_of_true rfl rfl
    | cons y b => exact absurd h nofun
  | cons x a =>
    cases b with
    | nil => exact absurd h nofun
    | cons y b =>
      obtain rfl : x = y := (List.cons.inj h).1
      rw [strncmp, if_neg (not_not.2 rfl), show u32 ((0 : ℕ) - 1) = 2 ^ 32 - 1 from rfl, if_neg (by decide),
        (orders_strncmp (by decide) (by decide)).eq_zero_iff, show (2 : ℕ) ^ 32 = 2 ^ 32 - 1 + 1 from rfl,
        List.take_succ_cons, List.take_succ_cons, List.cons.injEq]
      exact (and_iff_right rfl).symm

/-! ## The comparison of the user programs -/

/-- What comes next decides when the count has run out. -/
theorem charAt_sub_eq_zero_iff {a b : List UInt8} (ha : 0 ∉ a) (hb : 0 ∉ b) :
    ((charAt a 0).toNat : ℤ) - (charAt b 0).toNat = 0 ↔ a.take 1 = b.take 1 := by
  have hsub (x y : UInt8) : (x.toNat : ℤ) - y.toNat = 0 ↔ x = y := by
    rw [← UInt8.toNat_inj]
    omega
  cases a with
  | nil =>
    cases b with
    | nil => exact iff_of_true rfl rfl
    | cons y b => exact (hsub 0 y).trans (iff_of_false (fun h => hb (h ▸ List.mem_cons_self)) nofun)
  | cons x a =>
    cases b with
    | nil => exact (hsub x 0).trans (iff_of_false (fun h => ha (h ▸ List.mem_cons_self)) nofun)
    | cons y b =>
      refine (hsub x y).trans ?_
      rw [List.take_succ_cons, List.take_succ_cons, List.take_zero, List.take_zero,
        List.cons.injEq, and_iff_left rfl]

/-- The loop of `ustrncmp`, with `left` characters to compare. -/
theorem orders_ustrncmpLoop_iff {a b : List UInt8} (ha : 0 ∉ a) (hb : 0 ∉ b) {num i left : ℕ}
    (hleft : i + left = num)
    (hpos : 0 < left) (hnum : num < 2 ^ 32) :
    Orders (ustrncmpLoop num i a b) (a.take left) (b.take left) ↔
      (a.take left = b.take left → a.take (left + 1) = b.take (left + 1)) := by
  obtain ⟨left, rfl⟩ := Nat.exists_eq_succ_of_ne_zero (Nat.ne_of_gt hpos)
  induction a generalizing b i left with
  | nil =>
    cases b with
    | nil => exact iff_of_true (orders_same.2 rfl) fun _ => rfl
    | cons y b => exact iff_of_true orders_nil_cons nofun
  | cons x a ih =>
    cases b with
    | nil => exact iff_of_true orders_cons_nil nofun
    | cons y b =>
      rw [ustrncmpLoop]
      simp only [Nat.succ_eq_add_one, List.take_succ_cons]
      -- The loop goes on only while the bytes agree.
      by_cases hxy : x = y
      · subst hxy
        have hnext : u32 (i + 1) = i + 1 := by
          rw [u32]
          omega
        rw [if_neg (not_not.2 rfl), hnext, orders_cons, List.cons.injEq, List.cons.injEq, and_iff_right rfl,
          and_iff_right rfl]
        by_cases hlast : left = 0
        · -- The count has run out.
          subst hlast
          rw [if_neg (by omega), List.take_zero, List.take_zero, orders_same, imp_iff_right rfl]
          exact charAt_sub_eq_zero_iff (fun h => ha (List.mem_cons_of_mem _ h)) fun h =>
            hb (List.mem_cons_of_mem _ h)
        · obtain ⟨left, rfl⟩ := Nat.exists_eq_succ_of_ne_zero hlast
          rw [if_pos (by omega)]
          exact ih (fun h => ha (List.mem_cons_of_mem _ h)) (fun h => hb (List.mem_cons_of_mem _ h))
            left (by omega)
            (Nat.succ_pos left)
      · rw [if_pos hxy]
        exact iff_of_true (orders_of_ne hxy) fun h => absurd (List.cons.inj h).1 hxy

/-- A count of zero is one of one. -/
theorem ustrncmp_zero (a b : List UInt8) : ustrncmp a b 0 = ustrncmp a b 1 := by
  unfold ustrncmp
  cases a with
  | nil => cases b <;> rfl
  | cons x a =>
    cases b with
    | nil => rfl
    | cons y b => rfl

/-! ## Where they agree -/

/-- Both comparisons order the first `num` characters of two strings. -/
def ComparesRight (a b : List UInt8) (num : ℕ) : Prop :=
  Orders (strncmp a b num) (a.take num) (b.take num) ∧ Orders (ustrncmp a b num) (a.take num) (b.take num)

theorem take_eq_of_le {a b : List UInt8} {m n : ℕ} (hle : m ≤ n) (h : a.take n = b.take n) :
    a.take m = b.take m := by
  rw [← Nat.min_eq_left hle, ← List.take_take, h, List.take_take]

/-- Without a count, `ustrncmp` compares two characters. -/
theorem ustrncmp_zero_eq_zero_iff {a b : List UInt8} (ha : 0 ∉ a) (hb : 0 ∉ b) :
    ustrncmp a b 0 = 0 ↔ a.take 2 = b.take 2 := by
  have hone := orders_ustrncmpLoop_iff ha hb (Nat.zero_add 1) (by decide) (by decide)
  rw [ustrncmp_zero, ustrncmp]
  by_cases hfirst : a.take 1 = b.take 1
  · rw [hfirst, orders_same, imp_iff_right rfl] at hone
    exact hone
  · have horders := hone.2 fun h => absurd h hfirst
    exact iff_of_false (fun h => hfirst (horders.eq_zero_iff.1 h)) fun h => hfirst (take_eq_of_le (by decide) h)

/-- Without a count, both say that the strings are equal if and only if they are,
    up to `2 ^ 32` characters. -/
theorem comparesRight_zero {a b : List UInt8} (ha : 0 ∉ a) (hb : 0 ∉ b) :
    ComparesRight a b 0 ↔ a.take (2 ^ 32) = b.take (2 ^ 32) := by
  rw [ComparesRight, List.take_zero, List.take_zero, orders_same, orders_same, ustrncmp_zero_eq_zero_iff ha hb]
  exact ⟨fun ⟨hkernel, huser⟩ => (strncmp_zero (take_eq_of_le (by decide) huser)).1 hkernel,
    fun h => ⟨(strncmp_zero (take_eq_of_le (by decide) h)).2 h, take_eq_of_le (by decide) h⟩⟩

/-- Both comparisons are right if and only if the strings differ among their
    first `num` characters, or also have the next one in common. -/
theorem comparesRight_iff (a b : CStr) (num : BitVec 32) :
    ComparesRight a.1 b.1 num.toNat ↔
      if num = 0 then a.1.take (2 ^ 32) = b.1.take (2 ^ 32)
      else a.1.take num.toNat = b.1.take num.toNat → a.1.take (num.toNat + 1) = b.1.take (num.toNat + 1) := by
  split
  · subst num
    exact comparesRight_zero a.2 b.2
  · have hpos : 0 < num.toNat := Nat.pos_of_ne_zero fun h => ‹num ≠ 0› (BitVec.eq_of_toNat_eq h)
    exact (and_iff_right (orders_strncmp hpos num.isLt)).trans
      (orders_ustrncmpLoop_iff a.2 b.2 (Nat.zero_add _) hpos num.isLt)

/-- Two strings that differ behind the count. -/
theorem prefix_not_equal : ustrncmp (ascii "ab") (ascii "ac") 1 = -1 ∧
    ¬∀ (a b : CStr) (num : BitVec 32), ComparesRight a.1 b.1 num.toNat := by
  refine ⟨by decide, fun h => ?_⟩
  have huser := (h ⟨ascii "ab", by decide⟩ ⟨ascii "ac", by decide⟩ 1).2
  exact absurd (orders_same.1 huser) (by decide)

end HobbyOs
