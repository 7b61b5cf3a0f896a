import HobbyOs.State

/-!
# Bytes in memory

What is read from the byte memory after stores (`Stored`): words of several
bytes, and C strings. A store leaves alone what is below or above it.
-/

namespace HobbyOs

variable {mem : ℕ → UInt8} {a b n v : ℕ} {bs cs s : List UInt8}

@[simp] theorem length_bytesOfWord (v n : ℕ) : (bytesOfWord v n).length = n := by
  induction n generalizing v with
  | zero => rfl
  | succ n ih => rw [bytesOfWord, List.length_cons, ih]

/-- The bytes `bs` are in memory, from `a` on. -/
def Stored (mem : ℕ → UInt8) (a : ℕ) (bs : List UInt8) :
    Prop := ∀ i, i < bs.length → mem (a + i) = bs.getD i 0

instance (mem : ℕ → UInt8) (a : ℕ) (bs : List UInt8) : Decidable (Stored mem a bs) :=
  inferInstanceAs (Decidable (∀ i, i < _ → _))

theorem stored_storeBytes (mem : ℕ → UInt8) (a : ℕ) (bs : List UInt8) :
    Stored (storeBytes mem a bs) a bs := by
  intro i hi
  rw [storeBytes, if_pos (by omega), Nat.add_sub_cancel_left]

/-- What was stored is loaded. -/
theorem loadBytes_storeBytes (mem : ℕ → UInt8) (a : ℕ) (bs : List UInt8) :
    loadBytes (storeBytes mem a bs) a bs.length = bs := by
  refine List.ext_getElem (by simp [loadBytes]) fun i hi hi' => ?_
  simp only [loadBytes, List.getElem_map, List.getElem_range]
  rw [stored_storeBytes mem a bs i hi', List.getD_eq_getElem?_getD, List.getElem?_eq_getElem hi',
    Option.getD_some]

theorem storeBytes_of_disjoint {x : ℕ} (h : x < a ∨ a + bs.length ≤ x) :
    storeBytes mem a bs x = mem x := by
  rw [storeBytes, if_neg (by omega)]

theorem loadWord_storeBytes {mem : ℕ → UInt8} {a b n : ℕ} {bs : List UInt8}
    (h : a + n ≤ b ∨ b + bs.length ≤ a) :
    loadWord (storeBytes mem b bs) a n = loadWord mem a n := by
  induction n generalizing a with
  | zero => rfl
  | succ n ih => rw [loadWord, loadWord, storeBytes_of_disjoint (by omega), ih (by omega)]

/-- A store over another of the same length. -/
theorem storeBytes_storeBytes {mem : ℕ → UInt8} {a : ℕ} {bs cs : List UInt8} (h : bs.length = cs.length) :
    storeBytes (storeBytes mem a bs) a cs = storeBytes mem a cs := by
  funext x
  by_cases hx : a ≤ x ∧ x < a + cs.length
  · rw [storeBytes, if_pos hx, storeBytes, if_pos hx]
  · rw [storeBytes, if_neg hx, storeBytes, if_neg (by rw [h]; exact hx), storeBytes, if_neg hx]

namespace Stored

theorem store (h : Stored mem a bs) (hd : a + bs.length ≤ b ∨ b + cs.length ≤ a) :
    Stored (storeBytes mem b cs) a bs := by
  intro i hi
  rw [storeBytes_of_disjoint (by omega)]
  exact h i hi

/-- A byte behind what is stored. -/
theorem update {o : ℕ} {x : UInt8} (h : Stored mem a bs) (ho : a + bs.length ≤ o) :
    Stored (Function.update mem o x) a bs := by
  intro i hi
  rw [Function.update_of_ne (by omega)]
  exact h i hi

/-- One more byte. -/
theorem snoc {o : ℕ} {x : UInt8} (h : Stored mem a bs) (ho : a + bs.length = o) :
    Stored (Function.update mem o x) a (bs ++ [x]) := by
  intro i hi
  rw [List.length_append, List.length_singleton] at hi
  by_cases heq : i = bs.length
  · subst heq
    rw [ho, Function.update_self]
    simp
  · rw [Function.update_of_ne (by omega), h i (by omega), List.getD_eq_getElem?_getD,
      List.getD_eq_getElem?_getD,
      List.getElem?_append_left (by omega)]

theorem head {x : UInt8} (h : Stored mem a (x :: bs)) : mem a = x := h 0 (Nat.zero_lt_succ _)

theorem tail {x : UInt8} (h : Stored mem a (x :: bs)) : Stored mem (a + 1) bs := by
  intro i hi
  have := h (i + 1) (Nat.succ_lt_succ hi)
  rwa [show a + (i + 1) = a + 1 + i by omega] at this

theorem left (h : Stored mem a (bs ++ cs)) : Stored mem a bs := by
  intro i hi
  rw [h i (by rw [List.length_append]; omega), List.getD_eq_getElem?_getD, List.getD_eq_getElem?_getD,
    List.getElem?_append_left hi]

theorem right (h : Stored mem a (bs ++ cs)) : Stored mem (a + bs.length) cs := by
  intro i hi
  have := h (bs.length + i) (by rw [List.length_append]; omega)
  rwa [List.getD_eq_getElem?_getD, List.getElem?_append_right (by omega),
    Nat.add_sub_cancel_left, ← Nat.add_assoc,
    ← List.getD_eq_getElem?_getD] at this

/-- A word is read as it was stored, as far as it fits. -/
theorem loadWord (h : Stored mem a (bytesOfWord v n)) : loadWord mem a n = v % 256 ^ n := by
  induction n generalizing a v with
  | zero => rw [HobbyOs.loadWord, Nat.pow_zero, Nat.mod_one]
  | succ n ih =>
    have hbyte : (mem a).toNat = v % 256 := by
      rw [h.head, Nat.toUInt8, UInt8.toNat_ofNat']
      omega
    rw [HobbyOs.loadWord, hbyte, ih h.tail, Nat.pow_succ, Nat.mul_comm (256 ^ n), Nat.mod_mul]

/-- A C string is read up to its first zero. -/
theorem cString (h : Stored mem a (s ++ [0])) (hn : s.length < n) :
    cString mem n a = some (s.takeWhile (· ≠ 0)) := by
  induction s generalizing a n with
  | nil =>
    cases n with
    | zero => exact absurd hn (Nat.lt_irrefl 0)
    | succ n => rw [HobbyOs.cString, if_pos h.head, List.takeWhile_nil]
  | cons x s ih =>
    cases n with
    | zero => exact absurd hn (Nat.not_lt_zero _)
    | succ n =>
      rw [HobbyOs.cString, h.head]
      by_cases hx : x = 0
      · rw [if_pos hx, List.takeWhile_cons_of_neg (by simpa using hx)]
      · rw [if_neg hx, ih h.tail (Nat.lt_of_succ_lt_succ hn), List.takeWhile_cons_of_pos (by simpa using hx)]
        rfl

end Stored

end HobbyOs
