import HobbyOs.Printf

/-!
# Numbers as text

A number in a radix up to sixteen, most significant digit first, and what
`PRINT_RADIX_IMPL` makes of it: the digits are stored from the end of the area on
(`radixLoop_ok`), so that the text ends where the area does (`printRadixImpl_ok`).
-/

namespace HobbyOs.Printf

/-! ## Numerals -/

/-- The digits of a number. -/
def numeral (radix n : ℕ) : List UInt8 := (Nat.toDigits radix n).map fun c => c.toNat.toUInt8

/-- A number with its sign. -/
def signedNumeral (radix : ℕ) : ℤ → List UInt8
  | .ofNat n => numeral radix n
  | .negSucc n => ascii "-" ++ numeral radix (n + 1)

/-- `%d` of the text of a `stats` file. -/
theorem signedNumeral_ten : signedNumeral 10 = decimal := rfl

theorem digitByte_eq : ∀ d < 16, (Nat.digitChar d).toNat.toUInt8 = digitByte d := by decide

/-- The last digit is the remainder. -/
theorem numeral_eq {radix : ℕ} (hlow : 1 < radix) (hhigh : radix ≤ 16) (n : ℕ) :
    numeral radix n = (if n < radix then [] else numeral radix (n / radix)) ++ [digitByte (n % radix)] := by
  have hdigit : ∀ d < radix, (Nat.digitChar d).toNat.toUInt8 = digitByte d :=
    fun d hd => digitByte_eq d (by omega)
  rw [numeral, Nat.toDigits_eq_if hlow]
  split
  · rename_i hn
    rw [List.nil_append, List.map_singleton, hdigit n hn, Nat.mod_eq_of_lt hn]
  · rw [List.map_append, List.map_singleton, hdigit _ (Nat.mod_lt n (by omega)), numeral]

theorem numeral_ne_nil (radix n : ℕ) : numeral radix n ≠ [] := by
  rw [numeral, Ne, List.map_eq_nil_iff]
  exact Nat.toDigits_ne_nil

theorem length_numeral_le {radix n k : ℕ} (hlow : 1 < radix) (hk : 0 < k) (h : n < radix ^ k) :
    (numeral radix n).length ≤ k := by
  rw [numeral, List.length_map]
  exact (Nat.length_toDigits_le_iff hlow hk).2 h

theorem digitByte_ne_zero : ∀ d < 16, digitByte d ≠ 0 := by decide

theorem zero_notMem_numeral {radix : ℕ} (hlow : 1 < radix) (hhigh : radix ≤ 16) (n : ℕ) :
    0 ∉ numeral radix n := by
  induction n using Nat.strongRecOn with
  | _ n ih =>
    rw [numeral_eq hlow hhigh, List.mem_append, List.mem_singleton]
    rintro (h | h)
    · split at h
      · cases h
      · exact ih (n / radix) (Nat.div_lt_self (by omega) hlow) h
    · exact digitByte_ne_zero (n % radix) (by have := Nat.mod_lt n (show radix > 0 by omega); omega) h.symm

/-! ## The memory of a number -/

/-- The bytes `l` are in memory, from `off` on. -/
def Holds (mem : ℤ → UInt8) : (off : ℤ) → List UInt8 → Prop
  | _, [] => True
  | off, c :: l => mem off = c ∧ Holds mem (off + 1) l

section

variable {mem mem' : ℤ → UInt8} {off : ℤ} {l l' : List UInt8} {c : UInt8}

theorem Holds.congr (h : Holds mem off l) (heq : ∀ j, off ≤ j → j < off + l.length → mem' j = mem j) :
    Holds mem' off l := by
  induction l generalizing off with
  | nil => trivial
  | cons c l ih =>
    rw [List.length_cons] at heq
    exact ⟨(heq off (by omega) (by omega)).trans h.1, ih h.2 fun j hlow hhigh =>
      heq j (by omega) (by omega)⟩

theorem Holds.ne_zero (h : Holds mem off l) (hl : 0 ∉ l) :
    ∀ j, off ≤ j → j < off + l.length → mem j ≠ 0 := by
  induction l generalizing off with
  | nil =>
    intro j hlow hhigh
    simp only [List.length_nil] at hhigh
    omega
  | cons c l ih =>
    intro j hlow hhigh
    rw [List.length_cons] at hhigh
    by_cases hj : j = off
    · rw [hj, h.1]
      exact fun h0 => hl (h0 ▸ List.mem_cons_self)
    · exact ih h.2 (fun h0 => hl (List.mem_cons_of_mem _ h0)) j (by omega) (by omega)

theorem holds_append : Holds mem off (l ++ l') ↔ Holds mem off l ∧ Holds mem (off + l.length) l' := by
  induction l generalizing off with
  | nil => simp [Holds]
  | cons c l ih =>
    rw [List.cons_append, Holds, Holds, ih, and_assoc, List.length_cons]
    rw [show off + 1 + (l.length : ℤ) = off + (l.length + 1 : ℕ) by omega]

/-- The digits come out from the last one on. -/
theorem radixLoop_ok {radix left num : ℕ} (buf : ℤ) (mem : ℤ → UInt8)
    (hlow : 1 < radix) (hhigh : radix ≤ 16)
    (hroom : (if num = 0 then [] else numeral radix num).length ≤ left) :
    ∃ mem' n, radixLoop radix buf left num mem = (mem', n) ∧
      n + (if num = 0 then [] else numeral radix num).length = left ∧
      Holds mem' (buf + n) (if num = 0 then [] else numeral radix num) ∧
      ∀ j, j < buf + n ∨ buf + left ≤ j → mem' j = mem j := by
  induction left generalizing num mem with
  | zero =>
    have hnum : num = 0 := by
      by_contra hne
      rw [if_neg hne] at hroom
      exact numeral_ne_nil radix num (List.length_eq_zero_iff.1 (Nat.le_zero.1 hroom))
    subst hnum
    exact ⟨mem, 0, rfl, rfl, trivial, fun _ _ => rfl⟩
  | succ left ih =>
    by_cases hnum : num = 0
    · subst hnum
      exact ⟨mem, left + 1, rfl, rfl, trivial, fun _ _ => rfl⟩
    · rw [if_neg hnum, numeral_eq hlow hhigh, List.length_append, List.length_singleton] at hroom
      have hzero : (num / radix = 0) = (num < radix) := by
        rw [Nat.div_eq_zero_iff_lt (by omega)]
      -- What is left of the numeral fits before the digit just stored.
      have hless : (if num / radix = 0 then [] else numeral radix (num / radix)).length ≤ left := by
        simp only [hzero]
        omega
      obtain ⟨mem', n, hrun, hn, hholds, hsame⟩ :=
        ih (Function.update mem (buf + left) (digitByte (num % radix))) hless
      simp only [hzero] at hn hholds
      rw [radixLoop, if_neg hnum, if_neg hnum, numeral_eq hlow hhigh num]
      refine ⟨mem', n, hrun, by rw [List.length_append, List.length_singleton]; omega, ?_, fun j hj => ?_⟩
      · refine holds_append.2 ⟨hholds, ?_, trivial⟩
        rw [show buf + n + (if num < radix then [] else numeral radix (num / radix)).length = buf +
          left by omega,
          hsame _ (.inr (Int.le_refl _)), Function.update_self]
      · rw [hsame j (by omega), Function.update_of_ne (by omega)]

/-- What `PRINT_RADIX_IMPL` makes of a number. There are no digits if `-num` overflows. -/
def shown (num neg : ℤ) (radix : ℕ) : List UInt8 :=
  if num = 0 then [48]
  else if num < 0 then 45 :: if neg.toNat = 0 then [] else numeral radix neg.toNat
  else numeral radix num.toNat

/-- The number is at the end of its area, with its terminator. -/
theorem printRadixImpl_ok {num neg : ℤ} {radix : ℕ} (buf : ℤ) (mem : ℤ → UInt8)
    (hlow : 1 < radix) (hhigh : radix ≤ 16)
    (hroom : (shown num neg radix).length ≤ 20) :
    ∃ mem' off, printRadixImpl num neg radix buf mem = (mem', off) ∧
      off + (shown num neg radix).length = 20 ∧ Holds mem' (buf + off) (shown num neg radix ++ [0]) ∧
      ∀ j, j < buf ∨ buf + 21 ≤ j → mem' j = mem j := by
  unfold shown at hroom ⊢
  by_cases hzero : num = 0
  · subst hzero
    refine ⟨_, _, rfl, rfl, ⟨Function.update_self .., ?_, trivial⟩, fun j hj => ?_⟩
    · rw [Function.update_of_ne (by omega), show buf + 19 + 1 = buf + 20 by omega, Function.update_self]
    · rw [Function.update_of_ne (by omega), Function.update_of_ne (by omega)]
  · rw [if_neg hzero] at hroom ⊢
    by_cases hneg : num < 0
    · rw [if_pos hneg] at hroom ⊢
      rw [List.length_cons] at hroom
      obtain ⟨mem', n, hrun, hn, hholds, hsame⟩ := radixLoop_ok buf (Function.update mem (buf + 20) 0)
        hlow hhigh (show (if neg.toNat = 0 then [] else numeral radix neg.toNat).length ≤ 20 by omega)
      have hend : mem' (buf + 20) = 0 := by rw [hsame (buf + 20) (.inr (by omega)), Function.update_self]
      -- The digits end at the terminator; the sign goes in front of them.
      have htext : Holds mem' (buf + n) ((if neg.toNat = 0 then [] else numeral radix neg.toNat) ++ [0]) := by
        refine holds_append.2 ⟨hholds, ?_, trivial⟩
        rw [show buf + (n : ℤ) + (if neg.toNat = 0 then [] else numeral radix neg.toNat).length =
          buf + 20 by omega, hend]
      refine ⟨Function.update mem' (buf + (n - 1)) 45, n - 1, by
        simp only [printRadixImpl, if_neg hzero, if_pos hneg, hrun],
        by rw [List.length_cons]; omega, ⟨Function.update_self .., ?_⟩, fun j hj => ?_⟩
      · rw [show buf + ((n : ℤ) - 1) + 1 = buf + n by omega]
        exact htext.congr fun j hlow _ => Function.update_of_ne (by omega) ..
      · rw [Function.update_of_ne (by omega), hsame j (by omega), Function.update_of_ne (by omega)]
    · rw [if_neg hneg] at hroom ⊢
      have hpos : ¬num.toNat = 0 := by omega
      obtain ⟨mem', n, hrun, hn, hholds, hsame⟩ := radixLoop_ok buf (Function.update mem (buf + 20) 0)
        hlow hhigh (show (if num.toNat = 0 then [] else numeral radix num.toNat).length ≤
          20 by rwa [if_neg hpos])
      rw [if_neg hpos] at hn hholds
      have hend : mem' (buf + 20) = 0 := by rw [hsame (buf + 20) (.inr (by omega)), Function.update_self]
      refine ⟨mem', n, by simp only [printRadixImpl, if_neg hzero, if_neg hneg, hrun], by omega,
        holds_append.2 ⟨hholds, ?_, trivial⟩, fun j hj => ?_⟩
      · rw [show buf + (n : ℤ) + (numeral radix num.toNat).length = buf + 20 by omega, hend]
      · rw [hsame j (by omega), Function.update_of_ne (by omega)]

end

/-! ## What is shown of a number -/

variable {w : ℕ}

theorem shown_signed {a : BitVec w} (h : a ≠ BitVec.intMin w) (radix : ℕ) :
    shown a.toInt (-a).toInt radix = signedNumeral radix a.toInt := by
  rw [BitVec.toInt_neg_of_ne_intMin h, shown]
  cases ha : a.toInt with
  | ofNat n =>
    cases n with
    | zero => simp [signedNumeral, numeral]
    | succ n =>
      rw [Int.ofNat_eq_natCast, if_neg (by omega), if_neg (by omega)]
      rfl
  | negSucc n =>
    rw [if_neg (by simp), if_pos (by omega), if_neg (by omega)]
    rfl

theorem shown_unsigned (n : ℕ) (neg : ℤ) (radix : ℕ) : shown n neg radix = numeral radix n := by
  rw [shown]
  cases n with
  | zero => simp [numeral]
  | succ n =>
    rw [if_neg (by omega), if_neg (by omega)]
    rfl

theorem length_shown_le {num neg : ℤ} {radix k : ℕ} (hradix : 1 < radix) (hk : 0 < k)
    (hnum : num.toNat < radix ^ k)
    (hneg : neg.toNat < radix ^ k) : (shown num neg radix).length ≤ k + 1 := by
  unfold shown
  split
  · exact Nat.succ_le_succ (Nat.zero_le k)
  · split
    · rw [List.length_cons]
      split
      · exact Nat.succ_le_succ (Nat.zero_le k)
      · exact Nat.succ_le_succ (length_numeral_le hradix hk hneg)
    · exact Nat.le_trans (length_numeral_le hradix hk hnum) (Nat.le_succ k)

theorem toNat_toInt_lt (hw : w ≤ 64) (a : BitVec w) : a.toInt.toNat < 2 ^ 63 := by
  have hlt := BitVec.toInt_lt (x := a)
  have hpow : (2 : ℤ) ^ (w - 1) ≤ 2 ^ 63 := by
    exact_mod_cast Nat.pow_le_pow_right (by decide : 0 < 2) (show w - 1 ≤ 63 by omega)
  have hlit : (2 : ℤ) ^ 63 = 9223372036854775808 := by decide
  omega

theorem zero_notMem_shown {num neg : ℤ} {radix : ℕ} (hlow : 1 < radix) (hhigh : radix ≤ 16) :
    0 ∉ shown num neg radix := by
  have hnot := zero_notMem_numeral hlow hhigh
  unfold shown
  split
  · decide
  · split
    · rw [List.mem_cons, not_or]
      refine ⟨by decide, ?_⟩
      split
      · exact List.not_mem_nil
      · exact hnot _
    · exact hnot _

theorem shown_ne_nil (num neg : ℤ) (radix : ℕ) : shown num neg radix ≠ [] := by
  unfold shown
  split
  · exact List.cons_ne_nil _ _
  · split
    · exact List.cons_ne_nil _ _
    · exact numeral_ne_nil _ _

end HobbyOs.Printf
