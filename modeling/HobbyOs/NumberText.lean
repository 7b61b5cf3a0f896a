import HobbyOs.Lib.Numerals
import HobbyOs.PrintRadix

/-!
# Numbers and their text

The text of a number is canonical (`canonical_numeral`), and so is what
`print_radix` and `print_radixu` make of one: an optional sign, no leading zeros,
digits in lower case. It ends where the buffer does, and nothing else is written
(`printRadix_printed`).
-/

namespace HobbyOs

open Numerals Printf

/-- What a digit is worth; a character that is no digit is worth sixteen. -/
def digitVal (c : UInt8) : ℕ :=
  if 48 ≤ c ∧ c ≤ 57 then c.toNat - 48 else if 97 ≤ c ∧ c ≤ 102 then c.toNat - 87 else 16

/-- A text is the canonical representation of a number. -/
inductive Represents (radix : ℕ) : ℤ → List UInt8 → Prop
  | nonneg {n : ℕ} {ds : List UInt8} : Canonical digitVal radix n ds → Represents radix n ds
  | neg {n : ℕ} {ds : List UInt8} :
      0 < n → Canonical digitVal radix n ds → Represents radix (-n) (45 :: ds)

/-- A string is in memory, with its terminator. -/
def StringAt (mem : ℤ → UInt8) (p : ℤ) (s : List UInt8) :
    Prop := 0 ∉ s ∧ Printf.Holds mem p (s ++ [0])

/-- The number `num` is printed to the buffer `buf`: the memory, and where in the
    buffer its text starts. -/
structure Printed (radix : ℕ) (num buf : ℤ) (mem : ℤ → UInt8) (r : (ℤ → UInt8) × ℤ) : Prop where
  nonneg : 0 ≤ r.2
  text : ∃ s, Represents radix num s ∧ StringAt r.1 (buf + r.2) s ∧ r.2 + s.length + 1 = digitBufSize
  frame : ∀ j, j < buf ∨ buf + digitBufSize ≤ j → r.1 j = mem j

theorem digitVal_digitByte : ∀ d < 16, digitVal (digitByte d) = d := by decide

theorem canonical_numeral {radix : ℕ} (hlow : 1 < radix) (hhigh : radix ≤ 16) (n : ℕ) :
    Canonical digitVal radix n (numeral radix n) := by
  induction n using Nat.strongRecOn with
  | _ n ih =>
    rw [numeral_eq hlow hhigh]
    have hdigit : digitVal (digitByte (n % radix)) = n % radix :=
      digitVal_digitByte _ (Nat.lt_of_lt_of_le (Nat.mod_lt n (by omega)) hhigh)
    split
    · rename_i hn
      rw [Nat.mod_eq_of_lt hn] at hdigit ⊢
      exact .single hn hdigit
    · rename_i hn
      exact (ih (n / radix) (Nat.div_lt_self (by omega) hlow)).concat (Nat.not_lt.1 hn) (by omega) hdigit

theorem represents_signedNumeral {radix : ℕ} (hlow : 1 < radix) (hhigh : radix ≤ 16) (num : ℤ) :
    Represents radix num (signedNumeral radix num) := by
  cases num with
  | ofNat n => exact .nonneg (canonical_numeral hlow hhigh n)
  | negSucc n => exact .neg (Nat.succ_pos n) (canonical_numeral hlow hhigh (n + 1))

/-- `PRINT_RADIX_IMPL` prints a number whose text fits into the buffer. -/
theorem printRadixImpl_printed {num num' neg buf : ℤ} {radix : ℕ} (mem : ℤ → UInt8) (hlow : 1 < radix)
    (hhigh : radix ≤ 16) (hroom : (shown num neg radix).length ≤ 20)
    (hshown : Represents radix num' (shown num neg radix)) :
    Printed radix num' buf mem (printRadixImpl num neg radix buf mem) := by
  obtain ⟨mem', off, hrun, hoff, hholds, hframe⟩ := printRadixImpl_ok buf mem hlow hhigh hroom
  rw [hrun]
  have hsize : off + (shown num neg radix).length + 1 = 21 := by omega
  exact ⟨by dsimp only; omega, ⟨_, hshown, ⟨zero_notMem_shown hlow hhigh, hholds⟩, hsize⟩, hframe⟩

variable {w : ℕ}

/-- Any number but the most negative one fits, with its sign. -/
theorem length_shown_signed (hw : w ≤ 64) (num : BitVec w) {radix : ℕ}
    (hradix : radix = 10 ∨ radix = 16) :
    (shown num.toInt (-num).toInt radix).length ≤ 20 := by
  have hpow : 2 ^ 63 ≤ radix ^ 19 := by
    rcases hradix with rfl | rfl
    · decide
    · decide
  exact length_shown_le (k := 19) (by omega) (by decide) (Nat.lt_of_lt_of_le (toNat_toInt_lt hw num) hpow)
    (Nat.lt_of_lt_of_le (toNat_toInt_lt hw (-num)) hpow)

theorem length_numeral_unsigned (hw : w ≤ 64) (num : BitVec w) {radix : ℕ}
    (hradix : radix = 10 ∨ radix = 16) :
    (numeral radix num.toNat).length ≤ 20 := by
  have hpow : 2 ^ 64 ≤ radix ^ 20 := by
    rcases hradix with rfl | rfl
    · decide
    · decide
  refine length_numeral_le (by omega) (by decide) (Nat.lt_of_lt_of_le num.isLt ?_)
  exact Nat.le_trans (Nat.pow_le_pow_right (by decide) hw) hpow

/-- `print_radix` prints every number but the most negative one, and
    `print_radixu` every number. -/
theorem printRadix_printed (hw : w ≤ 64) (num : BitVec w) {radix : ℕ}
    (hradix : radix = 10 ∨ radix = 16) (buf : ℤ)
    (mem : ℤ → UInt8) :
    (num ≠ BitVec.intMin w → Printed radix num.toInt buf mem (printRadix num radix buf mem)) ∧
      Printed radix num.toNat buf mem (printRadixu num radix buf mem) := by
  have hlow : 1 < radix := by omega
  have hhigh : radix ≤ 16 := by omega
  constructor
  · intro hmin
    refine printRadixImpl_printed mem hlow hhigh (length_shown_signed hw num hradix) ?_
    rw [shown_signed hmin]
    exact represents_signedNumeral hlow hhigh num.toInt
  · refine printRadixImpl_printed mem hlow hhigh ?_ ?_
    · rw [shown_unsigned]
      exact length_numeral_unsigned hw num hradix
    · rw [shown_unsigned]
      exact .nonneg (canonical_numeral hlow hhigh num.toNat)

/-- The longest numbers, with the sign and without. -/
theorem longest_printed :
    Printed 10 (-9223372036854775807) 0 (fun _ => 0) (printRadix (-9223372036854775807#64) 10 0 fun _ => 0) ∧
      Printed 10 18446744073709551615 0 (fun _ => 0) (printRadixu 18446744073709551615#64 10 0 fun _ => 0) :=
  ⟨(printRadix_printed (by decide) (-9223372036854775807#64) (.inl rfl) 0 fun _ => 0).1 (by decide),
    (printRadix_printed (by decide) 18446744073709551615#64 (.inl rfl) 0 fun _ => 0).2⟩

end HobbyOs
