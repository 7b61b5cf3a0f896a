import Mathlib.Data.BitVec
import Mathlib.Data.List.Basic
import Mathlib.Logic.Function.Basic

/-!
# A RISC-V hart

Some of the RISC-V instructions, as one hart executes them: those by which code saves the
registers in memory and loads them back. Words are of `w` bits; the control and status
registers have names in `C`, and one of them holds what `legal` makes of a word that is
written to it.

* `readBytes` and `writeBytes`: words in memory, the lowest byte first; words that lie
  `Apart` do not disturb each other.
* `Hart.run`: a straight line of instructions. `saves` stores registers in the words from an
  address on, and `loads` loads them back; `run_saves` and `run_loads` say what they do.
* `Program.run`: pieces of code with labels, each of them a straight line that ends with a
  jump.
-/

namespace Riscv

variable {w : ℕ} {C L : Type}

/-! ## Memory -/

/-- The number in the `n` bytes from `a` on. -/
def readBytes (mem : BitVec w → BitVec 8) (a : BitVec w) : ℕ → ℕ
  | 0 => 0
  | n + 1 => (mem a).toNat + 256 * readBytes mem (a + 1) n

/-- The memory with a number in the `n` bytes from `a` on. -/
def writeBytes (mem : BitVec w → BitVec 8) (a : BitVec w) (n v : ℕ) : BitVec w → BitVec 8 := fun x =>
  if (x - a).toNat < n then BitVec.ofNat 8 (v / 256 ^ (x - a).toNat) else mem x

/-- Neither the `n` bytes from `a` on nor the `m` bytes from `b` on begin within the others. -/
def Apart (a : BitVec w) (n : ℕ) (b : BitVec w) (m : ℕ) :
    Prop := n ≤ (b - a).toNat ∧ m ≤ (a - b).toNat

instance (a b : BitVec w) (n m : ℕ) : Decidable (Apart a n b m) := inferInstanceAs (Decidable (_ ∧ _))

theorem Apart.symm {a b : BitVec w} {n m : ℕ} (h : Apart a n b m) : Apart b m a n := ⟨h.2, h.1⟩

theorem readBytes_lt (mem : BitVec w → BitVec 8) (a : BitVec w) (n : ℕ) : readBytes mem a n < 256 ^ n := by
  induction n generalizing a with
  | zero => exact Nat.one_pos
  | succ n ih =>
    have hbyte := (mem a).isLt
    have hrest := ih (a + 1)
    rw [readBytes, Nat.pow_succ]
    omega

theorem readBytes_writeBytes {mem : BitVec w → BitVec 8} {a : BitVec w} {n v : ℕ} (hn : n ≤ 2 ^ w) :
    readBytes (writeBytes mem a n v) a n = v % 256 ^ n := by
  -- The last `j` of the bytes, from the one after the first `i` on.
  have key : ∀ j i, i + j = n →
      readBytes (writeBytes mem a n v) (a + BitVec.ofNat w i) j = v / 256 ^ i % 256 ^ j := by
    intro j
    induction j with
    | zero => intro i _; rw [readBytes, Nat.pow_zero, Nat.mod_one]
    | succ j ih =>
      intro i hi
      have hdist : (a + BitVec.ofNat w i - a).toNat = i := by
        rw [BitVec.add_comm, BitVec.add_sub_cancel, BitVec.toNat_ofNat, Nat.mod_eq_of_lt (by omega)]
      have hnext : a + BitVec.ofNat w i + 1 = a + BitVec.ofNat w (i + 1) := by
        rw [BitVec.add_assoc, ← BitVec.ofNat_add_ofNat]
        rfl
      rw [readBytes, hnext, ih (i + 1) (by omega), writeBytes, hdist, if_pos (by omega), BitVec.toNat_ofNat,
        Nat.pow_succ 256 j, Nat.mul_comm (256 ^ j), Nat.mod_mul, Nat.div_div_eq_div_mul, ← Nat.pow_succ]
  simpa using key n 0 (Nat.zero_add n)

theorem readBytes_congr {mem mem' : BitVec w → BitVec 8} {a : BitVec w} {n : ℕ}
    (h : ∀ i < n, mem' (a + BitVec.ofNat w i) = mem (a + BitVec.ofNat w i)) :
    readBytes mem' a n = readBytes mem a n := by
  induction n generalizing a with
  | zero => rfl
  | succ n ih =>
    have hnext : ∀ i, a + 1 + BitVec.ofNat w i = a + BitVec.ofNat w (i + 1) := by
      intro i
      rw [BitVec.add_assoc, Nat.add_comm i, ← BitVec.ofNat_add_ofNat]
      rfl
    have hfirst := h 0 (Nat.succ_pos n)
    rw [BitVec.add_zero] at hfirst
    rw [readBytes, readBytes, hfirst, ih fun i hi => by rw [hnext]; exact h (i + 1) (Nat.succ_lt_succ hi)]

/-- The bytes of a number, split in two. -/
theorem readBytes_add (mem : BitVec w → BitVec 8) (a : BitVec w) (n m : ℕ) :
    readBytes mem a (n + m) = readBytes mem a n + 256 ^ n * readBytes mem (a + BitVec.ofNat w n) m := by
  induction n generalizing a with
  | zero => simp [readBytes]
  | succ n ih =>
    have hnext : a + 1 + BitVec.ofNat w n = a + BitVec.ofNat w (n + 1) := by
      rw [BitVec.add_assoc, Nat.add_comm n, ← BitVec.ofNat_add_ofNat]
      rfl
    rw [Nat.add_right_comm, readBytes, readBytes, ih, hnext, Nat.pow_succ', Nat.mul_add,
      Nat.mul_assoc, Nat.add_assoc]

/-- The lower bytes of a number are written, and the upper ones stay. -/
theorem readBytes_writeBytes_add {mem : BitVec w → BitVec 8} {a : BitVec w}
    {n m v : ℕ} (hle : n + m ≤ 2 ^ w) :
    readBytes (writeBytes mem a n v) a (n + m) =
      v % 256 ^ n + readBytes mem a (n + m) / 256 ^ n * 256 ^ n := by
  have hupper : readBytes (writeBytes mem a n v) (a + BitVec.ofNat w n) m =
      readBytes mem (a + BitVec.ofNat w n) m := by
    refine readBytes_congr fun i hi => if_neg ?_
    rw [BitVec.add_assoc, BitVec.ofNat_add_ofNat, add_sub_cancel_left, BitVec.toNat_ofNat,
      Nat.mod_eq_of_lt (by omega)]
    omega
  rw [readBytes_add, readBytes_add, readBytes_writeBytes (by omega), hupper,
    Nat.add_mul_div_left _ _ (Nat.pow_pos (by decide)), Nat.div_eq_of_lt (readBytes_lt mem a n), Nat.zero_add,
    Nat.mul_comm (256 ^ n)]

/-- The lower bytes of a number. -/
theorem readBytes_mod (mem : BitVec w → BitVec 8) (a : BitVec w) (n m : ℕ) :
    readBytes mem a (n + m) % 256 ^ n = readBytes mem a n := by
  rw [readBytes_add, Nat.add_mul_mod_self_left, Nat.mod_eq_of_lt (readBytes_lt mem a n)]

/-- A byte of one of two ranges that lie apart is not in the other one. -/
theorem Apart.le {a b x : BitVec w} {n m : ℕ} (h : Apart a n b m) (hx : (x - b).toNat < m) :
    n ≤ (x - a).toNat := by
  obtain ⟨hn, hm⟩ := h
  rw [← neg_sub b, BitVec.toNat_neg] at hm
  have hlt := (b - a).isLt
  rw [← sub_add_sub_cancel x b a, BitVec.toNat_add]
  by_cases h0 : (b - a).toNat = 0
  · omega
  · rw [Nat.mod_eq_of_lt (by omega)] at hm
    rw [Nat.mod_eq_of_lt (by omega)]
    omega

/-- A write apart from what is read. -/
theorem readBytes_writeBytes_of_apart {mem : BitVec w → BitVec 8} {a b : BitVec w}
    {n m v : ℕ} (h : Apart a n b m) :
    readBytes (writeBytes mem a n v) b m = readBytes mem b m := by
  refine readBytes_congr fun i hi => if_neg (Nat.not_lt.2 (h.le ?_))
  rw [add_sub_cancel_left, BitVec.toNat_ofNat]
  exact (Nat.mod_le _ _).trans_lt hi

/-! ## Instructions -/

/-- A register, `x0` to `x31`. -/
abbrev Reg := BitVec 5

/-- The instructions after which the next one follows. -/
inductive Instr (w : ℕ) (C : Type)
  /-- `ld` or `lw`, of a word. -/
  | load (rd : Reg) (offset : BitVec w) (base : Reg)
  /-- `sd` or `sw`, of a word. -/
  | store (rs : Reg) (offset : BitVec w) (base : Reg)
  /-- `li`, or `la`. -/
  | li (rd : Reg) (v : BitVec w)
  | mv (rd rs : Reg)
  | add (rd rs₁ rs₂ : Reg)
  | addi (rd rs : Reg) (v : BitVec w)
  | mul (rd rs₁ rs₂ : Reg)
  | slli (rd rs : Reg) (n : ℕ)
  | csrr (rd : Reg) (c : C)
  | csrw (c : C) (rs : Reg)
  | csrwi (c : C) (v : BitVec w)
  | csrrw (rd : Reg) (c : C) (rs : Reg)
  /-- `sfence.vma zero, zero`. -/
  | sfence

/-- The registers and the memory of a hart. -/
structure Hart (w : ℕ) (C : Type) where
  regs : Reg → BitVec w
  csrs : C → BitVec w
  mem : BitVec w → BitVec 8

namespace Hart

variable (h : Hart w C) (r : Reg) (v : BitVec w)

/-- What is in a register: `x0` is zero. -/
def get : BitVec w := if r = 0#5 then 0 else h.regs r

/-- A register is written: `x0` is not. -/
def set : Hart w C := if r = 0#5 then h else { h with regs := Function.update h.regs r v }

/-- The word at an address. -/
def word (a : BitVec w) : BitVec w := BitVec.ofNat w (readBytes h.mem a (w / 8))

/-- A word is stored. -/
def setWord (a v : BitVec w) : Hart w C := { h with mem := writeBytes h.mem a (w / 8) v.toNat }

section

variable {h r v} {s : Reg} {a b : BitVec w}

@[simp] theorem get_set : (h.set r v).get s = if s = r ∧ r ≠ 0#5 then v else h.get s := by
  by_cases hr : r = 0#5
  · simp [set, hr]
  · by_cases hs : s = r
    · subst hs
      simp [set, get, hr]
    · simp [set, get, hr, hs]

@[simp] theorem csrs_set : (h.set r v).csrs = h.csrs := by
  rw [set]
  split <;> rfl

@[simp] theorem mem_set : (h.set r v).mem = h.mem := by
  rw [set]
  split <;> rfl

@[simp] theorem word_set : (h.set r v).word a = h.word a := by rw [word, word, mem_set]

@[simp] theorem get_setWord : (h.setWord a v).get s = h.get s := rfl

@[simp] theorem csrs_setWord : (h.setWord a v).csrs = h.csrs := rfl

/-- A word that has been stored. -/
theorem word_setWord (hw : 8 ∣ w) : (h.setWord a v).word a = v := by
  have hlt := v.isLt
  have hpow : 256 ^ (w / 8) = 2 ^ w := by
    rw [show 256 = 2 ^ 8 from rfl, ← Nat.pow_mul, Nat.mul_div_cancel' hw]
  rw [word, setWord, readBytes_writeBytes (by have := Nat.lt_two_pow_self (n := w); omega),
    hpow, Nat.mod_eq_of_lt hlt,
    BitVec.ofNat_toNat, BitVec.setWidth_eq]

/-- A word apart from the one that has been stored. -/
theorem word_setWord_of_apart (hab : Apart a (w / 8) b (w / 8)) : (h.setWord a v).word b = h.word b := by
  rw [word, word, setWord, readBytes_writeBytes_of_apart hab]

end

variable [DecidableEq C] (legal : C → BitVec w → BitVec w)

/-- A control and status register is written. -/
def setCsr (c : C) : Hart w C := { h with csrs := Function.update h.csrs c (legal c v) }

/-- An instruction is executed. -/
def exec : Instr w C → Hart w C
  | .load rd offset base => h.set rd (h.word (h.get base + offset))
  | .store rs offset base => h.setWord (h.get base + offset) (h.get rs)
  | .li rd v => h.set rd v
  | .mv rd rs => h.set rd (h.get rs)
  | .add rd rs₁ rs₂ => h.set rd (h.get rs₁ + h.get rs₂)
  | .addi rd rs v => h.set rd (h.get rs + v)
  | .mul rd rs₁ rs₂ => h.set rd (h.get rs₁ * h.get rs₂)
  | .slli rd rs n => h.set rd (h.get rs <<< n)
  | .csrr rd c => h.set rd (h.csrs c)
  | .csrw c rs => h.setCsr (h.get rs) legal c
  | .csrwi c v => h.setCsr v legal c
  | .csrrw rd c rs => (h.setCsr (h.get rs) legal c).set rd (h.csrs c)
  | .sfence => h

/-- A straight line of instructions is executed. -/
def run (code : List (Instr w C)) : Hart w C := code.foldl (fun h i => h.exec legal i) h

section

variable {h v legal} {s : Reg} {a : BitVec w} {c d : C} {i : Instr w C} {code : List (Instr w C)}

@[simp] theorem get_setCsr : (h.setCsr v legal c).get s = h.get s := rfl

@[simp] theorem word_setCsr : (h.setCsr v legal c).word a = h.word a := rfl

@[simp] theorem mem_setCsr : (h.setCsr v legal c).mem = h.mem := rfl

@[simp] theorem csrs_setCsr : (h.setCsr v legal c).csrs d = if d = c then legal c v else h.csrs d := by
  simp [setCsr, Function.update_apply]

@[simp] theorem run_nil : h.run legal [] = h := rfl

@[simp] theorem run_cons : h.run legal (i :: code) = (h.exec legal i).run legal code := rfl

theorem run_append {code' : List (Instr w C)} :
    h.run legal (code ++ code') = (h.run legal code).run legal code' :=
  List.foldl_append

end

end Hart

/-! ## Saved registers -/

/-- The distance from a word to the `i`-th one after it. -/
def offset (w i : ℕ) : BitVec w := BitVec.ofNat w (i * (w / 8))

@[simp] theorem offset_zero : offset w 0 = 0 := by simp [offset]

/-- Registers are stored, each in the word of its number, from `base` on. -/
def saves (base : Reg) (l : List (Reg × ℕ)) : List (Instr w C) :=
  l.map fun x => .store x.1 (offset w x.2) base

/-- Registers are loaded, each from the word of its number, from `base` on. -/
def loads (base : Reg) (l : List (Reg × ℕ)) : List (Instr w C) :=
  l.map fun x => .load x.1 (offset w x.2) base

/-- Ranges of bytes with a distance that leaves room for both of them. -/
theorem apart_of_dist {a b : BitVec w} {x n m : ℕ} (hd : b - a = BitVec.ofNat w x)
    (hn : n ≤ x) (hm : x + m ≤ 2 ^ w)
    (hpos : 0 < x) (hlt : x < 2 ^ w) : Apart a n b m := by
  refine ⟨?_, ?_⟩
  · rwa [hd, BitVec.toNat_ofNat, Nat.mod_eq_of_lt hlt]
  · rw [← neg_sub b, hd, BitVec.toNat_neg, BitVec.toNat_ofNat, Nat.mod_eq_of_lt hlt,
      Nat.mod_eq_of_lt (by omega)]
    omega

theorem offset_sub {i j : ℕ} (hij : i ≤ j) :
    offset w j - offset w i = BitVec.ofNat w ((j - i) * (w / 8)) := by
  have hsum : j * (w / 8) = i * (w / 8) + (j - i) * (w / 8) := by
    rw [← Nat.add_mul, Nat.add_sub_cancel' hij]
  rw [offset, offset, hsum, ← BitVec.ofNat_add_ofNat, add_sub_cancel_left]

/-- A word before the end of a range of words. -/
theorem offset_le {i n : ℕ} (hi : i < n) : i * (w / 8) + w / 8 ≤ n * (w / 8) := by
  rw [← Nat.succ_mul]
  exact Nat.mul_le_mul_right _ hi

/-- The words from an address on, if they do not go around the whole memory. -/
theorem apart_offset {a : BitVec w} {i j n : ℕ} (hn : n * (w / 8) ≤ 2 ^ w) (hi : i < n)
    (hj : j < n) (hij : i ≠ j) :
    Apart (a + offset w i) (w / 8) (a + offset w j) (w / 8) := by
  have key : ∀ {i j : ℕ}, i < j → j < n → Apart (a + offset w i) (w / 8) (a + offset w j) (w / 8) := by
    intro i j hij hj
    rcases Nat.eq_zero_or_pos (w / 8) with h0 | h0
    · exact ⟨h0 ▸ Nat.zero_le _, h0 ▸ Nat.zero_le _⟩
    have hle : (j - i) * (w / 8) + w / 8 ≤ n * (w / 8) := offset_le (by omega)
    have hpos : w / 8 ≤ (j - i) * (w / 8) := Nat.le_mul_of_pos_left _ (Nat.sub_pos_of_lt hij)
    refine apart_of_dist ?_ hpos (hle.trans hn) (by omega) (by omega)
    rw [add_sub_add_left_eq_sub, offset_sub hij.le]
  rcases Nat.lt_or_gt_of_ne hij with h | h
  · exact key h hj
  · exact (key h hi).symm

/-- Some of the bytes of a range lie apart from what the range lies apart from. -/
theorem Apart.within {a b : BitVec w} {x k n m : ℕ} (h : Apart a n b m) (hk : 0 < k) (hx : x + k ≤ n) :
    Apart (a + BitVec.ofNat w x) k b m := by
  obtain ⟨hn, hm⟩ := h
  have hlt := (b - a).isLt
  rw [← neg_sub b, BitVec.toNat_neg, Nat.mod_eq_of_lt (by omega)] at hm
  refine apart_of_dist (x := (b - a).toNat - x) ?_ (by omega) (by omega) (by omega) (by omega)
  have hsum := congrArg (BitVec.ofNat w) (show (b - a).toNat = x + ((b - a).toNat - x) by omega)
  rw [← BitVec.ofNat_add_ofNat, BitVec.ofNat_toNat, BitVec.setWidth_eq] at hsum
  rw [← sub_sub]
  exact sub_eq_of_eq_add' hsum

/-- The words of two ranges of words that lie apart. -/
theorem Apart.offset {a b : BitVec w} {i j n m : ℕ} (h : Apart a (n * (w / 8)) b (m * (w / 8)))
    (hi : i < n) (hj : j < m) :
    Apart (a + offset w i) (w / 8) (b + offset w j) (w / 8) := by
  rcases Nat.eq_zero_or_pos (w / 8) with h0 | h0
  · exact ⟨h0 ▸ Nat.zero_le _, h0 ▸ Nat.zero_le _⟩
  · exact ((h.within h0 (offset_le hi)).symm.within h0 (offset_le hj)).symm

section

variable [DecidableEq C] {h : Hart w C} {legal : C → BitVec w → BitVec w}
  {base : Reg} {l : List (Reg × ℕ)}

variable (h legal base l) in
/-- Stores do not change the registers. -/
theorem get_run_saves :
    ((h.run legal (saves base l)).get = h.get) ∧ (h.run legal (saves base l)).csrs = h.csrs := by
  induction l generalizing h with
  | nil => exact ⟨rfl, rfl⟩
  | cons x l ih => exact ih (h.exec legal (.store x.1 (offset w x.2) base))

/-- A word apart from those that are stored. -/
theorem word_run_saves {b : BitVec w} (hb : ∀ x ∈ l, Apart (h.get base + offset w x.2) (w / 8) b (w / 8)) :
    (h.run legal (saves base l)).word b = h.word b := by
  induction l generalizing h with
  | nil => rfl
  | cons x l ih =>
    have hrest := ih (h := h.exec legal (.store x.1 (offset w x.2) base)) fun y hy =>
      hb y (List.mem_cons_of_mem _ hy)
    exact hrest.trans (Hart.word_setWord_of_apart (hb x List.mem_cons_self))

/-- A byte that is in none of the words that are stored. -/
theorem mem_run_saves {b : BitVec w} (hb : ∀ x ∈ l, w / 8 ≤ (b - (h.get base + offset w x.2)).toNat) :
    (h.run legal (saves base l)).mem b = h.mem b := by
  induction l generalizing h with
  | nil => rfl
  | cons x l ih =>
    have hrest := ih (h := h.exec legal (.store x.1 (offset w x.2) base)) fun y hy =>
      hb y (List.mem_cons_of_mem _ hy)
    exact hrest.trans (if_neg (Nat.not_lt.2 (hb x List.mem_cons_self)))

variable (h legal base) in
/-- What has been stored. -/
theorem word_run_saves_of_mem {n : ℕ} (hw : 8 ∣ w) (hn : n * (w / 8) ≤ 2 ^ w) (hlt : ∀ x ∈ l, x.2 < n)
    (hl : (l.map Prod.snd).Nodup) {x : Reg × ℕ} (hx : x ∈ l) :
    (h.run legal (saves base l)).word (h.get base + offset w x.2) = h.get x.1 := by
  induction l generalizing h with
  | nil => cases hx
  | cons y l ih =>
    rw [List.map_cons, List.nodup_cons] at hl
    rcases List.mem_cons.1 hx with rfl | hx
    · -- It is not overwritten by the stores after it.
      refine (word_run_saves (h := h.exec legal (.store x.1 (offset w x.2) base)) fun z hz => ?_).trans
        (Hart.word_setWord hw)
      exact apart_offset hn (hlt z (List.mem_cons_of_mem _ hz)) (hlt x List.mem_cons_self) fun he =>
        hl.1 (he ▸ List.mem_map_of_mem hz)
    · exact ih (h.exec legal (.store y.1 (offset w y.2) base))
        (fun z hz => hlt z (List.mem_cons_of_mem _ hz)) hl.2 hx

variable (h legal base l) in
/-- Loads change only the registers that are loaded. -/
theorem run_loads : (h.run legal (loads base l)).mem = h.mem ∧ (h.run legal (loads base l)).csrs = h.csrs ∧
    ∀ r, (∀ x ∈ l, x.1 ≠ r) → (h.run legal (loads base l)).get r = h.get r := by
  induction l generalizing h with
  | nil => exact ⟨rfl, rfl, fun _ _ => rfl⟩
  | cons x l ih =>
    obtain ⟨hmem, hcsrs, hregs⟩ := ih (h.exec legal (.load x.1 (offset w x.2) base))
    refine ⟨hmem.trans (by simp [Hart.exec]), hcsrs.trans (by simp [Hart.exec]), fun r hr => ?_⟩
    rw [loads, List.map_cons, Hart.run_cons, ← loads, hregs r fun y hy => hr y (List.mem_cons_of_mem _ hy)]
    simp [Hart.exec, (hr x List.mem_cons_self).symm]

variable (h legal base) in
/-- What has been loaded, when the base is not. -/
theorem get_run_loads_of_mem (hbase : ∀ x ∈ l, x.1 ≠ base) (h0 : ∀ x ∈ l, x.1 ≠ 0#5)
    (hl : (l.map Prod.fst).Nodup)
    {x : Reg × ℕ} (hx : x ∈ l) :
    (h.run legal (loads base l)).get x.1 = h.word (h.get base + offset w x.2) := by
  induction l generalizing h with
  | nil => cases hx
  | cons y l ih =>
    rw [List.map_cons, List.nodup_cons] at hl
    rw [loads, List.map_cons, Hart.run_cons, ← loads]
    rcases List.mem_cons.1 hx with rfl | hx
    · rw [(run_loads _ legal base l).2.2 x.1 fun z hz he => hl.1 (he ▸ List.mem_map_of_mem hz)]
      simp [Hart.exec, h0 x List.mem_cons_self]
    · rw [ih _ (fun z hz => hbase z (List.mem_cons_of_mem _ hz))
        (fun z hz => h0 z (List.mem_cons_of_mem _ hz)) hl.2 hx]
      simp [Hart.exec, (hbase y List.mem_cons_self).symm]

end

/-! ## Programs -/

/-- How a piece of code ends. -/
inductive Tail (L : Type)
  | j (l : L)
  | beqz (rs : Reg) (l next : L)
  | bgez (rs : Reg) (l next : L)
  | bgeu (rs₁ rs₂ : Reg) (l next : L)
  | jr (rs : Reg)
  /-- `jalr`, before the code at a label. -/
  | jalr (rs : Reg) (next : L)

/-- A piece of code. -/
structure Block (w : ℕ) (C L : Type) where
  code : List (Instr w C)
  tail : Tail L

/-- Code with labels: those without code are left to somebody else. -/
structure Program (w : ℕ) (C L : Type) where
  block : L → Option (Block w C L)
  addr : L → BitVec w
  /-- The label that is at an address. -/
  label : BitVec w → Option L

namespace Program

variable (P : Program w C L)

/-- Where a piece of code goes on. -/
def next (h : Hart w C) : Tail L → Option (L × Hart w C)
  | .j l => some (l, h)
  | .beqz rs l next => some (if h.get rs = 0 then l else next, h)
  | .bgez rs l next => some (if (h.get rs).msb then next else l, h)
  | .bgeu rs₁ rs₂ l next => some (if h.get rs₁ < h.get rs₂ then next else l, h)
  | .jr rs => (P.label (h.get rs)).map fun l => (l, h)
  | .jalr rs next => (P.label (h.get rs)).map fun l => (l, h.set 1#5 (P.addr next))

/-- The code at the label `l` runs until it gets to a label without code, within `n` pieces of code. -/
def run [DecidableEq C] (legal : C → BitVec w → BitVec w) :
    ℕ → L → Hart w C → Option (L × Hart w C)
  | 0, _, _ => none
  | n + 1, l, h =>
    match P.block l with
    | none => some (l, h)
    | some b => (P.next (h.run legal b.code) b.tail).bind fun x => run legal n x.1 x.2

section

variable {P} [DecidableEq C] {legal : C → BitVec w → BitVec w} {l l' : L} {h h' : Hart w C}
  {b : Block w C L} {n : ℕ}

theorem run_of_none (hl : P.block l = none) : P.run legal (n + 1) l h = some (l, h) := by rw [run, hl]

/-- A piece of code, and where it goes on. -/
theorem run_of_next (hl : P.block l = some b) (hnext : P.next (h.run legal b.code) b.tail = some (l', h')) :
    P.run legal (n + 1) l h = P.run legal n l' h' := by
  rw [run, hl]
  simp only [hnext, Option.bind_some]

end

end Program

end Riscv
