import HobbyOs.Bakedinfs

/-!
# Strings of the user programs

`ustr.c`: `ustrncmp` and `uatoi`; and the kernel's `itoa` (`string.c`), as it
stores its digits. A string is the list of its characters, without the
terminating zero. An `int` wraps around.
-/

namespace HobbyOs.Ustr

/-! ## Comparison -/

/-- The loop of `ustrncmp`, with its counter. -/
def ustrncmpLoop (num : ℕ) : (i : ℕ) → List UInt8 → List UInt8 → ℤ
  | _, [], [] => 0
  | _, [], _ :: _ => -1
  | _, _ :: _, [] => 1
  | i, x :: a, y :: b =>
    if x ≠ y then (x.toNat : ℤ) - y.toNat
    else
      let i := u32 (i + 1)
      if i < num then ustrncmpLoop num i a b
      -- The count has run out, and the pointers are behind what was compared.
      else ((charAt a 0).toNat : ℤ) - (charAt b 0).toNat

/-- `ustrncmp`. -/
def ustrncmp (a b : List UInt8) (num : ℕ) : ℤ := ustrncmpLoop num 0 a b

/-! ## Numbers -/

/-- The first loop of `itoa`: it counts the digits. -/
def countLoop (num needSize : ℕ) : ℕ :=
  if 0 < num / 10 then countLoop (num / 10) (needSize + 1) else needSize + 1
termination_by num

/-- The second loop of `itoa`: it stores the digits, from the last one on. -/
def storeLoop (buf i : ℤ) (num : ℕ) (mem : ℤ → UInt8) : ℤ → UInt8 :=
  let i := i - 1
  let mem := Function.update mem (buf + i) (num % 10 + 48).toUInt8
  if 0 < num / 10 then storeLoop buf i (num / 10) mem else mem
termination_by num

/-- `itoa`: the memory, and what it returns. -/
def itoa (buf size : ℤ) (num : ℕ) (mem : ℤ → UInt8) : (ℤ → UInt8) × ℤ :=
  let needSize : ℤ := countLoop num 0 + 1
  if needSize > size then (mem, -needSize)
  else
    let i := needSize - 1
    (storeLoop buf i num (Function.update mem (buf + i) 0), needSize)

/-- The first loop of `uatoi`: the number of digits, if there is nothing else. -/
def scanDigits : List UInt8 → (nDigits : BitVec 32) → Option (BitVec 32)
  | [], nDigits => some nDigits
  | c :: s, nDigits => if c < 48 ∨ c > 57 then none else scanDigits s (nDigits + 1)

/-- The second loop of `uatoi`, over the characters in front of `s`, the last one first. -/
def sumDigits : (nDigits : ℕ) → (back : List UInt8) → (number mult10 : BitVec 32) → BitVec 32
  | 0, _, number, _ => number
  | nDigits + 1, back, number, mult10 =>
    let digit := BitVec.ofInt 32 ((charAt back 0).toNat - 48)
    sumDigits nDigits back.tail (number + digit * mult10) (mult10 * 10)

/-- `uatoi`: what it returns, and `*err` after it. -/
def uatoi (s : List UInt8) (err : ℤ) : ℤ × ℤ :=
  let (multiplier, s) : BitVec 32 × List UInt8 := if charAt s 0 = 45 then (-1, s.tail) else (1, s)
  match scanDigits s 0 with
  | none => (0, 1)
  | some nDigits => ((sumDigits nDigits.toNat s.reverse 0 1 * multiplier).toInt, err)

end HobbyOs.Ustr
