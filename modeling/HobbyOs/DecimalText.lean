import HobbyOs.NumberText
import HobbyOs.Ustr
import Mathlib.Data.BitVec

/-!
# Decimal text

`itoa` stores a number as `print_radix` prints it (`itoa_ok`), and `uatoi` reads
the digits back, from the last one on, in 32-bit arithmetic (`uatoi_eq`).

* `decimal_roundTrips`: numbers below `2 ^ 31` come back;
* `uatoi_accepts_iff`: which strings are read as they should be.
-/

namespace HobbyOs

open Numerals Printf Ustr

/-! ## Storing -/

theorem countLoop_eq (num needSize : ℕ) : countLoop num needSize = needSize + (numeral 10 num).length := by
  induction num using Nat.strongRecOn generalizing needSize with
  | _ num ih =>
    rw [countLoop, numeral_eq (by decide) (by decide), List.length_append, List.length_singleton]
    split
    · rw [ih (num / 10) (by omega), if_neg (by omega)]
      omega
    · rw [if_pos (by omega), List.length_nil, Nat.zero_add]

/-- The digits are stored, and end where `i` was. -/
theorem storeLoop_ok (buf i : ℤ) (num : ℕ) (mem : ℤ → UInt8) :
    Printf.Holds (storeLoop buf i num mem) (buf + i - (numeral 10 num).length) (numeral 10 num) ∧
      ∀ j, j < buf + i - (numeral 10 num).length ∨ buf + i ≤ j → storeLoop buf i num mem j = mem j := by
  induction num using Nat.strongRecOn generalizing i mem with
  | _ num ih =>
    have hdigit : (num % 10 + 48).toUInt8 = digitByte (num % 10) := by
      rw [digitByte, if_neg (by omega), Nat.add_comm]
    rw [storeLoop, numeral_eq (by decide) (by decide), List.length_append, List.length_singleton, hdigit]
    split
    · obtain ⟨hholds, hframe⟩ := ih (num / 10) (by omega) (i - 1)
        (Function.update mem (buf + (i - 1)) (digitByte (num % 10)))
      rw [if_neg (by omega)]
      have hstart : buf + i - ((numeral 10 (num / 10)).length + 1 : ℕ) =
        buf + (i - 1) - (numeral 10 (num / 10)).length := by omega
      rw [hstart]
      refine ⟨holds_append.2 ⟨hholds, ?_, trivial⟩, fun j hj => ?_⟩
      · rw [show buf + (i - 1) - ((numeral 10 (num / 10)).length : ℤ) +
          (numeral 10 (num / 10)).length = buf + (i - 1)
          by omega, hframe _ (.inr (Int.le_refl _)), Function.update_self]
      · rw [hframe j (by omega), Function.update_of_ne (by omega)]
    · rw [if_pos (by omega)]
      refine ⟨⟨?_, trivial⟩, fun j hj => Function.update_of_ne ?_ ..⟩
      · rw [show buf + i - (([] : List UInt8).length + 1 : ℕ) = buf + (i - 1) by
          simp; omega, Function.update_self]
      · simp only [List.length_nil] at hj
        omega

/-- `itoa` stores the number, if the size is enough for it and its terminator, and
    else returns how much it needs. -/
theorem itoa_ok (buf size : ℤ) (num : ℕ) (mem : ℤ → UInt8) :
    (((numeral 10 num).length + 1 : ℤ) ≤ size →
      (Ustr.itoa buf size num mem).2 = (numeral 10 num).length + 1 ∧
      StringAt (Ustr.itoa buf size num mem).1 buf (numeral 10 num)) ∧
    (size < (numeral 10 num).length + 1 →
      Ustr.itoa buf size num mem = (mem, -((numeral 10 num).length + 1 : ℤ))) := by
  rw [Ustr.itoa, countLoop_eq, Nat.zero_add]
  dsimp only
  refine ⟨fun h => ?_, fun h => if_pos h⟩
  rw [if_neg (Int.not_lt.2 h), Int.add_sub_cancel]
  obtain ⟨hholds, hframe⟩ := storeLoop_ok buf (numeral 10 num).length num
    (Function.update mem (buf + (numeral 10 num).length) 0)
  rw [Int.add_sub_cancel] at hholds
  refine ⟨rfl, zero_notMem_numeral (by decide) (by decide) num, holds_append.2 ⟨hholds, ?_, trivial⟩⟩
  exact (hframe _ (.inr (Int.le_refl _))).trans (Function.update_self ..)

/-- The text of a number in the tables of the file system is what `itoa` stores. -/
theorem itoa_stores (buf : ℤ) (size num : ℕ) (mem : ℤ → UInt8) (s : List UInt8) :
    (HobbyOs.itoa size num = some s → StringAt (Ustr.itoa buf size num mem).1 buf s) ∧
    (HobbyOs.itoa size num = none → (Ustr.itoa buf size num mem).1 = mem ∧
      (Ustr.itoa buf size num mem).2 < 0) := by
  rw [HobbyOs.itoa, show digits num = numeral 10 num from rfl]
  constructor
  · intro h
    obtain ⟨hroom, hs⟩ := Option.ite_none_right_eq_some.1 h
    cases hs
    exact ((itoa_ok buf size num mem).1 (by omega)).2
  · intro h
    have hroom : ¬(numeral 10 num).length + 1 ≤ size := fun hroom => by
      rw [if_pos hroom] at h
      cases h
    rw [(itoa_ok buf size num mem).2 (by omega)]
    exact ⟨rfl, by dsimp only; omega⟩

/-! ## Reading -/

/-- What is behind the sign of a string, if it has one. -/
def magnitude (s : List UInt8) : List UInt8 := if charAt s 0 = 45 then s.tail else s

/-- What a string denotes, if it is an optional `-` and digits. -/
def numberOf (s : List UInt8) : ℤ :=
  if charAt s 0 = 45 then -(value digitVal 10 (magnitude s) : ℤ) else value digitVal 10 (magnitude s)

/-- The string is an optional `-`, and digits behind it. -/
def Digits (s : List UInt8) : Prop := ∀ c ∈ magnitude s, digitVal c < 10

/-- The values of an `int`. -/
def Representable (n : ℤ) : Prop := -2 ^ 31 ≤ n ∧ n < 2 ^ 31

theorem digitVal_lt_ten (c : UInt8) : digitVal c < 10 ↔ 48 ≤ c.toNat ∧ c.toNat ≤ 57 := by
  simp only [digitVal, UInt8.le_iff_toNat_le, UInt8.reduceToNat]
  split
  · omega
  · split <;> omega

theorem digitVal_of_lt_ten {c : UInt8} (h : digitVal c < 10) : (digitVal c : ℤ) = c.toNat - 48 := by
  have hc := (digitVal_lt_ten c).1 h
  rw [digitVal, if_pos]
  · omega
  · rw [UInt8.le_iff_toNat_le, UInt8.le_iff_toNat_le]
    exact hc

/-- What the first loop of `uatoi` stops at is no digit. -/
theorem not_digit_iff {c : UInt8} : c < 48 ∨ c > 57 ↔ ¬digitVal c < 10 := by
  rw [digitVal_lt_ten, gt_iff_lt, UInt8.lt_iff_toNat_lt, UInt8.lt_iff_toNat_lt]
  simp only [UInt8.reduceToNat]
  omega

/-- The first loop of `uatoi` counts the digits, modulo `2 ^ 32`. -/
theorem scanDigits_of_digits {s : List UInt8} (h : ∀ c ∈ s, digitVal c < 10) (n : BitVec 32) :
    scanDigits s n = some (n + BitVec.ofNat 32 s.length) := by
  induction s generalizing n with
  | nil => simp [scanDigits]
  | cons c s ih =>
    obtain ⟨hc, hs⟩ := List.forall_mem_cons.1 h
    have hsum : n + 1 + BitVec.ofNat 32 s.length = n + BitVec.ofNat 32 (c :: s).length := by
      rw [List.length_cons, Nat.add_comm s.length 1, BitVec.ofNat_add, BitVec.add_assoc]
      rfl
    rw [scanDigits, if_neg fun h => not_digit_iff.1 h hc, ih hs, hsum]

/-- Where there is something else, the loop stops. -/
theorem scanDigits_of_not_digits {s : List UInt8} (h : ¬∀ c ∈ s, digitVal c < 10) (n : BitVec 32) :
    scanDigits s n = none := by
  induction s generalizing n with
  | nil => exact absurd (List.forall_mem_nil _) h
  | cons c s ih =>
    rw [scanDigits]
    by_cases hc : digitVal c < 10
    · rw [if_neg fun h => not_digit_iff.1 h hc]
      exact ih (fun hs => h (List.forall_mem_cons.2 ⟨hc, hs⟩)) _
    · rw [if_pos (not_digit_iff.2 hc)]

/-- The second loop of `uatoi` adds up what the digits are worth. -/
theorem sumDigits_eq {back : List UInt8} {n : ℕ} (hn : n ≤ back.length)
    (hdigits : ∀ c ∈ back, digitVal c < 10)
    (number mult : BitVec 32) :
    sumDigits n back number mult = number +
      mult * BitVec.ofNat 32 (value digitVal 10 (back.take n).reverse) := by
  induction n generalizing back number mult with
  | zero => simp [sumDigits]
  | succ n ih =>
    cases back with
    | nil => exact absurd hn (Nat.not_succ_le_zero n)
    | cons c back =>
      have hdigit : BitVec.ofInt 32 ((charAt (c :: back) 0).toNat - 48) = BitVec.ofNat 32 (digitVal c) := by
        rw [← BitVec.ofInt_natCast, digitVal_of_lt_ten (hdigits c List.mem_cons_self)]
        rfl
      rw [sumDigits, hdigit]
      dsimp only [List.tail_cons]
      rw [ih (Nat.le_of_succ_le_succ hn) fun d hd => hdigits d (List.mem_cons_of_mem _ hd), List.take_succ_cons,
        List.reverse_cons, value_concat, BitVec.ofNat_add, BitVec.ofNat_mul,
        show BitVec.ofNat 32 10 = (10 : BitVec 32) from rfl]
      ring

/-- The digits that `uatoi` adds up: all of them, unless there are too many to
    be counted. -/
def counted (ds : List UInt8) : List UInt8 := ds.drop (ds.length - ds.length % 2 ^ 32)

/-- Both loops of `uatoi`. -/
theorem sumDigits_counted {ds : List UInt8} (hdigits : ∀ c ∈ ds, digitVal c < 10) :
    sumDigits (0 + BitVec.ofNat 32 ds.length).toNat ds.reverse 0 1 =
      BitVec.ofNat 32 (value digitVal 10 (counted ds)) := by
  rw [show (0 + BitVec.ofNat 32 ds.length).toNat = ds.length % 2 ^ 32 from
    (congrArg BitVec.toNat (BitVec.zero_add _)).trans (BitVec.toNat_ofNat ..)]
  rw [sumDigits_eq, List.take_reverse, List.reverse_reverse]
  · exact (BitVec.zero_add _).trans (BitVec.one_mul _)
  · rw [List.length_reverse]
    exact Nat.mod_le ..
  · exact fun c hc => hdigits c (List.mem_reverse.1 hc)

/-- `uatoi` adds up the digits that are counted. -/
theorem uatoi_of_digits {s : List UInt8} (h : Digits s) (err : ℤ) :
    uatoi s err = ((BitVec.ofInt 32 (if charAt s 0 = 45 then -(value digitVal 10 (counted (magnitude s)) : ℤ)
      else value digitVal 10 (counted (magnitude s)))).toInt, err) := by
  unfold Digits magnitude at h
  unfold uatoi magnitude
  by_cases hsign : charAt s 0 = 45
  · rw [if_pos hsign] at h
    rw [if_pos hsign, if_pos hsign, if_pos hsign]
    dsimp only
    rw [scanDigits_of_digits h]
    dsimp only
    rw [sumDigits_counted h, BitVec.ofInt_neg, BitVec.ofInt_natCast, mul_neg, mul_one]
  · rw [if_neg hsign] at h
    rw [if_neg hsign, if_neg hsign, if_neg hsign]
    dsimp only
    rw [scanDigits_of_digits h]
    dsimp only
    rw [sumDigits_counted h, BitVec.ofInt_natCast, mul_one]

/-- `uatoi` checks that there are digits only. -/
theorem uatoi_of_not_digits {s : List UInt8} (h : ¬Digits s) (err : ℤ) : uatoi s err = (0, 1) := by
  unfold Digits magnitude at h
  unfold uatoi
  by_cases hsign : charAt s 0 = 45
  · rw [if_pos hsign] at h ⊢
    dsimp only
    rw [scanDigits_of_not_digits h]
  · rw [if_neg hsign] at h ⊢
    dsimp only
    rw [scanDigits_of_not_digits h]

theorem counted_of_lt {ds : List UInt8} (h : ds.length < 2 ^ 32) : counted ds = ds := by
  rw [counted, Nat.mod_eq_of_lt h, Nat.sub_self, List.drop_zero]

/-! ## Round trips -/

/-- The digits of a canonical text are its digits. -/
theorem Represents.magnitude {n : ℤ} {s : List UInt8} (h : Represents 10 n s) :
    Digits s ∧ magnitude s ≠ [] ∧ numberOf s = n := by
  cases h with
  | @nonneg n s h =>
    have hsign : ¬charAt s 0 = 45 := by
      obtain ⟨c, s, rfl⟩ := List.exists_cons_of_ne_nil h.nonempty
      intro hc
      have hdigit := h.digits c List.mem_cons_self
      rw [show c = 45 from hc] at hdigit
      exact absurd hdigit (by decide)
    rw [Digits, numberOf, HobbyOs.magnitude, if_neg hsign, if_neg hsign, h.value]
    exact ⟨h.digits, h.nonempty, rfl⟩
  | @neg n ds hn h =>
    have hsign : charAt (45 :: ds) 0 = 45 := rfl
    rw [Digits, numberOf, HobbyOs.magnitude, if_pos hsign, if_pos hsign, List.tail_cons, h.value]
    exact ⟨h.digits, h.nonempty, rfl⟩

/-- `uatoi` reads the canonical text of an `int`. -/
theorem uatoi_of_represents {n : ℤ} {s : List UInt8} (h : Represents 10 n s) (hlen : s.length < 2 ^ 32)
    (hn : Representable n) (err : ℤ) : uatoi s err = (n, err) := by
  obtain ⟨hdigits, -, hnumber⟩ := h.magnitude
  have hmag : (magnitude s).length < 2 ^ 32 := by
    refine Nat.lt_of_le_of_lt ?_ hlen
    rw [magnitude]
    split
    · rw [List.length_tail]
      exact Nat.sub_le ..
    · exact Nat.le_refl _
  rw [uatoi_of_digits hdigits, counted_of_lt hmag, ← numberOf, hnumber,
    BitVec.toInt_ofInt_eq_self (by decide) hn.1 hn.2]

/-- The size that a number needs: its digits, and the terminator. -/
def neededSize (num : ℕ) : ℤ := (Nat.toDigits 10 num).length + 1

theorem length_numeral_ten (num : ℕ) : ((numeral 10 num).length + 1 : ℤ) = neededSize num := by
  rw [numeral, List.length_map, neededSize]

/-- What is printed in decimal is read back; if the size is too small, `itoa`
    stores nothing, and returns the size that it needs. -/
theorem decimal_roundTrips (buf : ℤ) (mem : ℤ → UInt8) :
    (∀ w, w = 32 ∨ w = 64 → ∀ num : BitVec w, -2 ^ 31 < num.toInt → num.toInt < 2 ^ 31 →
      ∃ s, StringAt (printRadix num 10 buf mem).1 (buf + (printRadix num 10 buf mem).2) s ∧
        uatoi s 0 = (num.toInt, 0)) ∧
    (∀ n < 2 ^ 31, ∀ size, neededSize n ≤ size →
      ∃ s, StringAt (Ustr.itoa buf size n mem).1 buf s ∧ uatoi s 0 = ((n : ℤ), 0)) ∧
    (∀ num < 2 ^ 32, ∀ size < neededSize num, Ustr.itoa buf size num mem = (mem, -neededSize num)) := by
  refine ⟨fun w hw num hlow hhigh => ?_, fun n hn size hsize => ?_, fun num _ size hsize => ?_⟩
  · have hmin : num ≠ BitVec.intMin w := by
      rintro rfl
      rcases hw with rfl | rfl
      · exact absurd hlow (by decide)
      · exact absurd hlow (by decide)
    obtain ⟨s, hs, hat, hlen⟩ := ((printRadix_printed (by omega) num (.inl rfl) buf mem).1 hmin).text
    have hnonneg := ((printRadix_printed (by omega) num (.inl rfl) buf mem).1 hmin).nonneg
    have hlen : s.length < 2 ^ 32 := by
      simp only [digitBufSize] at hlen
      omega
    exact ⟨s, hat, uatoi_of_represents hs hlen ⟨Int.le_of_lt hlow, hhigh⟩ 0⟩
  · rw [← length_numeral_ten] at hsize
    have hlen : (numeral 10 n).length ≤ 10 :=
      length_numeral_le (by decide) (by decide) (Nat.lt_trans hn (by decide))
    refine ⟨_, ((itoa_ok buf size n mem).1 hsize).2, ?_⟩
    exact uatoi_of_represents (.nonneg (canonical_numeral (by decide) (by decide) n)) (by omega)
      ⟨by omega, by exact_mod_cast hn⟩ 0
  · rw [← length_numeral_ten] at hsize ⊢
    exact (itoa_ok buf size num mem).2 hsize

/-- The least and the greatest number, and one that needs more than the size. -/
theorem maxInt_roundTrips :
    (∃ s, StringAt (printRadix (-2147483647#64) 10 0 fun _ => 0).1
      (0 + (printRadix (-2147483647#64) 10 0 fun _ => 0).2) s ∧ uatoi s 0 = ((-2147483647#64).toInt, 0)) ∧
    (∃ s, StringAt (Ustr.itoa 0 11 2147483647 fun _ => 0).1 0 s ∧ uatoi s 0 = (2147483647, 0)) ∧
    Ustr.itoa 0 10 4294967295 (fun _ => 0) = (fun _ => 0, -neededSize 4294967295) :=
  ⟨(decimal_roundTrips 0 fun _ => 0).1 64 (.inr rfl) (-2147483647#64) (by decide) (by decide),
    (decimal_roundTrips 0 fun _ => 0).2.1 2147483647 (by decide) 11 (by decide),
    (decimal_roundTrips 0 fun _ => 0).2.2 4294967295 (by decide) 10 (by decide)⟩

/-! ## What is accepted -/

/-- The string is an optional `-`, at least one digit, and nothing else, and
    denotes an `int`. -/
def IsInt (s : List UInt8) : Prop := magnitude s ≠ [] ∧ Digits s ∧ Representable (numberOf s)

/-- `uatoi` accepts the string if and only if it is an `int`, and then returns it. -/
def ReadsRight (s : List UInt8) :
    Prop := ((uatoi s 0).2 = 0 ↔ IsInt s) ∧ (IsInt s → (uatoi s 0).1 = numberOf s)

/-- The digits that are not counted are the first ones. -/
theorem take_append_counted (ds : List UInt8) : ds.take (2 ^ 32 * (ds.length / 2 ^ 32)) ++ counted ds = ds := by
  rw [counted, show ds.length - ds.length % 2 ^ 32 = 2 ^ 32 * (ds.length / 2 ^ 32) by omega]
  exact List.take_append_drop ..

/-- Digits that are an `int` are read as such, unless one that is not counted matters. -/
theorem uatoi_eq_iff {s : List UInt8} (hdigits : Digits s) (hrep : Representable (numberOf s)) :
    (uatoi s 0).1 = numberOf s ↔
      ∀ c ∈ (magnitude s).take (2 ^ 32 * ((magnitude s).length / 2 ^ 32)), digitVal c = 0 := by
  rw [← value_eq_of_append (show 0 < 10 by decide) _ (counted (magnitude s)), take_append_counted,
    uatoi_of_digits hdigits]
  have hle : value digitVal 10 (counted (magnitude s)) ≤ value digitVal 10 (magnitude s) := by
    conv =>
      rhs
      rw [← take_append_counted (magnitude s), value_append]
    exact Nat.le_add_left ..
  unfold numberOf Representable at hrep
  unfold numberOf
  split at hrep
  · rw [if_pos ‹_›, if_pos ‹_›, BitVec.toInt_ofInt_eq_self (by decide) (by omega) (by omega)]
    omega
  · rw [if_neg ‹_›, if_neg ‹_›, BitVec.toInt_ofInt_eq_self (by decide) (by omega) (by omega)]
    omega

/-- `uatoi` is right about a string if and only if there is something behind its
    sign, which, if it is digits, denotes an `int`; of `2 ^ 32` digits or more,
    those that are not counted have to be zeros. -/
theorem uatoi_accepts_iff (s : CStr) :
    ReadsRight s.1 ↔ magnitude s.1 ≠ [] ∧ (Digits s.1 → Representable (numberOf s.1) ∧
      ∀ c ∈ (magnitude s.1).take (2 ^ 32 * ((magnitude s.1).length / 2 ^ 32)), digitVal c = 0) := by
  by_cases hdigits : Digits s.1
  · have herr : (uatoi s.1 0).2 = 0 := by rw [uatoi_of_digits hdigits]
    have hint : IsInt s.1 ↔ magnitude s.1 ≠ [] ∧ Representable (numberOf s.1) :=
      and_congr_right fun _ => and_iff_right hdigits
    rw [ReadsRight, hint]
    constructor
    · rintro ⟨haccept, hvalue⟩
      obtain ⟨hne, hrep⟩ := haccept.1 herr
      exact ⟨hne, fun _ => ⟨hrep, (uatoi_eq_iff hdigits hrep).1 (hvalue ⟨hne, hrep⟩)⟩⟩
    · rintro ⟨hne, hcond⟩
      obtain ⟨hrep, hzeros⟩ := hcond hdigits
      exact ⟨iff_of_true herr ⟨hne, hrep⟩, fun _ => (uatoi_eq_iff hdigits hrep).2 hzeros⟩
  · have hne : magnitude s.1 ≠ [] := by
      intro hnil
      rw [Digits, hnil] at hdigits
      exact hdigits fun c hc => absurd hc List.not_mem_nil
    refine iff_of_true ⟨iff_of_false ?_ fun h => hdigits h.2.1, fun h => absurd h.2.1 hdigits⟩
      ⟨hne, fun h => absurd h hdigits⟩
    rw [uatoi_of_not_digits hdigits]
    decide

/-- The empty string, and one that is too large, are accepted. -/
theorem emptyString_accepted :
    (¬∀ s : CStr, ReadsRight s.1) ∧ uatoi [] 0 = (0, 0) ∧ uatoi (ascii "4294967297") 0 = (1, 0) := by
  refine ⟨fun h => ?_, by decide, by decide⟩
  exact ((h ⟨[], List.not_mem_nil⟩).1.1 (by decide)).1 rfl

end HobbyOs
