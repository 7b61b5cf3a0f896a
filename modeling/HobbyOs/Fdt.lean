import Mathlib.Tactic.IntervalCases
import Mathlib.Data.List.TakeWhile
import HobbyOs.Bakedinfs
import HobbyOs.Memory

/-!
# The device tree reader

`fdt_parse` (`fdt.c`): it walks the tokens of the structure block of a flattened
device tree and copies the property `bootargs` of the node `chosen`. The words of
the block have their highest byte first.

* `turn_begin`, `turn_prop`, `turn_skip`, `turn_end`: what the loops do at a token;
* `turn_unknown`: at another word they stay where they are;
* `fdtParse_mono`: how many turns are allowed does not matter for the result.
-/

namespace HobbyOs.Fdt

/-- `FDT_BEGIN_NODE` and the other tokens. -/
abbrev fdtBeginNode : BitVec 32 := 0x00000001
abbrev fdtEndNode : BitVec 32 := 0x00000002
abbrev fdtProp : BitVec 32 := 0x00000003
abbrev fdtNop : BitVec 32 := 0x00000004
abbrev fdtEnd : BitVec 32 := 0x00000009

/-- `NODE_CHOSEN` and `PROP_BOOTARGS`. -/
abbrev nodeChosen : List UInt8 := ascii "chosen"
abbrev propBootargs : List UInt8 := ascii "bootargs"

/-- `bswap`. -/
def bswap (x : BitVec 32) : BitVec 32 :=
  let y := (x &&& 0x00ff00ff) <<< 8 ||| (x &&& 0xff00ff00) >>> 8
  (y &&& 0x0000ffff) <<< 16 ||| (y &&& 0xffff0000) >>> 16

/-- What `fdt_parse` works on: the width of a pointer, `HAS_BOOTARGS`, the memory with the structure
    block, the characters from `strings` on, and `bootargs` as it is at first. -/
structure Input where
  width : ℕ
  hasBootargs : Bool
  mem : ℕ → UInt8
  strings : ℕ → UInt8
  bootargs : List UInt8
  length_bootargs : bootargs.length = 128

/-- An address, as far as it fits into a pointer. -/
def ptr (w a : ℕ) : ℕ := a % 2 ^ w

/-- `upalign4`. -/
def upalign4 (w a : ℕ) : ℕ := ptr w (a + 3) / 4 * 4

/-- `bswap(*tree)`: the load takes the first byte for the lowest. -/
def readWord (mem : ℕ → UInt8) (tree : ℕ) : BitVec 32 :=
  bswap
    ((mem (tree + 3)).toBitVec ++ (mem (tree + 2)).toBitVec ++ (mem (tree + 1)).toBitVec ++ (mem tree).toBitVec)

/-- The first `num` characters of a C string, or all of them. -/
def charsAt (w : ℕ) (mem : ℕ → UInt8) : (num a : ℕ) → List UInt8
  | 0, _ => []
  | num + 1, a => if mem a = 0 then [] else mem a :: charsAt w mem num (ptr w (a + 1))

/-- `while (*end_of_name++) {}`. -/
def skipName (w : ℕ) (mem : ℕ → UInt8) : (turns endOfName : ℕ) → Option ℕ
  | 0, _ => none
  | turns + 1, endOfName =>
    if mem endOfName = 0 then some (ptr w (endOfName + 1)) else skipName w mem turns (ptr w (endOfName + 1))

/-- The variables of `fdt_parse`. Whenever `token` is tested, it is the word at `tree`. -/
structure Parser where
  tree : ℕ
  foundChosen : Bool
  deriving DecidableEq

/-- A turn of the loops: they return with `bootargs`, or run on. -/
inductive Turn
  | returned (bootargs : List UInt8)
  | runs (p : Parser)

variable (i : Input)

/-- `bootargs` after `strncpy`, on a build that has it. -/
def Input.copied (arg : ℕ) : List UInt8 :=
  if i.hasBootargs then
    let l := strncpy (charsAt i.width i.mem 127 arg) 128
    l ++ i.bootargs.drop l.length
  else i.bootargs

/-- A turn: of the inner loop, or at `FDT_BEGIN_NODE`, where that is left, of the rest of the outer one.
    Both are left at `FDT_END`. A name that does not end within the address space never does. -/
def turn (p : Parser) : Option Turn :=
  let token := readWord i.mem p.tree
  if token = fdtEnd then some (.returned i.bootargs)
  else if token = fdtBeginNode then do
    let name := ptr i.width (p.tree + 4)
    let endOfName ← skipName i.width i.mem (2 ^ i.width) name
    let tree := upalign4 i.width endOfName
    if strncmp (charsAt i.width i.mem 7 name) nodeChosen 7 = 0 then return .runs ⟨tree, true⟩
    return .runs ⟨tree, p.foundChosen⟩
  else if token = fdtProp then
    let tree := ptr i.width (p.tree + 4)
    let len := (readWord i.mem tree).toNat
    let tree := ptr i.width (tree + 4)
    let nameOffset := (readWord i.mem tree).toNat
    let tree := ptr i.width (tree + 4)
    if p.foundChosen = true ∧ strncmp (charsAt i.width i.strings 9 nameOffset) propBootargs 9 = 0 then
      some (.returned (i.copied tree))
    else some (.runs ⟨upalign4 i.width (ptr i.width (tree + len)), p.foundChosen⟩)
  else if token = fdtNop ∨ token = fdtEndNode then some (.runs ⟨ptr i.width (p.tree + 4), p.foundChosen⟩)
  else some (.runs p)

/-- The loops, for a number of turns. -/
def parseLoop : (turns : ℕ) → Parser → Option (List UInt8)
  | 0, _ => none
  | turns + 1, p =>
    match turn i p with
    | none => none
    | some (.returned bootargs) => some bootargs
    | some (.runs p) => parseLoop turns p

/-- `fdt_parse`: what `bootargs` is when it has returned. -/
def fdtParse (turns tree : ℕ) : Option (List UInt8) :=
  if readWord i.mem tree ≠ fdtBeginNode then some i.bootargs else parseLoop i turns ⟨tree, false⟩

/-! ## The functions it calls -/

/-- The bytes of a word, the highest first. -/
def wordBytes (x : BitVec 32) : List UInt8 :=
  [24, 16, 8, 0].map fun n => UInt8.ofBitVec (x.extractLsb' n 8)

@[simp] theorem length_wordBytes (x : BitVec 32) : (wordBytes x).length = 4 := rfl

theorem bswap_append (b₀ b₁ b₂ b₃ : BitVec 8) :
    bswap (b₃ ++ b₂ ++ b₁ ++ b₀) = b₀ ++ b₁ ++ b₂ ++ b₃ := by
  unfold bswap
  refine BitVec.eq_of_getLsbD_eq fun n hn => ?_
  simp only [BitVec.getLsbD_append, BitVec.getLsbD_or, BitVec.getLsbD_and, BitVec.getLsbD_shiftLeft,
    BitVec.getLsbD_ushiftRight]
  interval_cases n <;> simp

/-- A word is read as it is written. -/
theorem readWord_stored {mem : ℕ → UInt8} {a : ℕ} {x : BitVec 32} (h : Stored mem a (wordBytes x)) :
    readWord mem a = x := by
  have hbyte (n : ℕ) (hn : n < 4) : mem (a + n) = (wordBytes x).getD n 0 := h n hn
  rw [readWord, bswap_append, hbyte 3 (by decide), hbyte 2 (by decide), hbyte 1 (by decide),
    show mem a = _ from hbyte 0 (by decide)]
  refine BitVec.eq_of_getLsbD_eq fun n hn => ?_
  simp only [wordBytes, List.map_cons, List.getD_cons_succ, List.getD_cons_zero, BitVec.getLsbD_append,
    BitVec.getLsbD_extractLsb']
  interval_cases n <;> simp

variable {w a num : ℕ} {mem : ℕ → UInt8} {l : List UInt8}

theorem ptr_of_lt (h : a < 2 ^ w) : ptr w a = a := Nat.mod_eq_of_lt h

theorem upalign4_of_lt (h : a + 3 < 2 ^ w) : upalign4 w a = (a + 3) / 4 * 4 := by rw [upalign4, ptr_of_lt h]

/-- A C string is read up to its terminator. -/
theorem charsAt_stored (h : Stored mem a (l ++ [0])) (ha : a + l.length < 2 ^ w) :
    charsAt w mem num a = (l.takeWhile (· ≠ 0)).take num := by
  induction num generalizing a l with
  | zero => rw [List.take_zero, charsAt]
  | succ num ih =>
    cases l with
    | nil => rw [charsAt, if_pos h.head, List.takeWhile_nil, List.take_nil]
    | cons c l =>
      rw [List.length_cons] at ha
      have hhead : mem a = c := h.head
      rw [charsAt, hhead]
      by_cases hc : c = 0
      · rw [if_pos hc, List.takeWhile_cons_of_neg (by simpa using hc), List.take_nil]
      · rw [if_neg hc, ptr_of_lt (by omega), ih h.tail (by omega),
          List.takeWhile_cons_of_pos (by simpa using hc),
          List.take_succ_cons]

theorem takeWhile_name (hl : 0 ∉ l) : l.takeWhile (· ≠ 0) = l :=
  List.takeWhile_eq_self_iff.2 fun _ hc => decide_eq_true fun h0 => hl (h0 ▸ hc)

/-- A name is skipped with its terminator. -/
theorem skipName_stored {turns : ℕ} (hl : 0 ∉ l) (h : Stored mem a (l ++ [0]))
    (ha : a + l.length + 1 < 2 ^ w)
    (hturns : l.length < turns) : skipName w mem turns a = some (a + l.length + 1) := by
  induction l generalizing a turns with
  | nil =>
    obtain ⟨turns, rfl⟩ := Nat.exists_eq_add_one_of_ne_zero (Nat.ne_zero_of_lt hturns)
    rw [skipName, if_pos h.head]
    exact congrArg some (ptr_of_lt ha)
  | cons c l ih =>
    obtain ⟨turns, rfl⟩ := Nat.exists_eq_add_one_of_ne_zero (Nat.ne_zero_of_lt hturns)
    have hc : mem a ≠ 0 := by
      rw [show mem a = c from h.head]
      rintro rfl
      exact hl List.mem_cons_self
    rw [List.length_cons] at ha hturns ⊢
    rw [skipName, if_neg hc, ptr_of_lt (by omega),
      ih (fun h0 => hl (List.mem_cons_of_mem _ h0)) h.tail (by omega)
      (by omega), show a + 1 + l.length + 1 = a + (l.length + 1) + 1 by omega]

/-- A comparison that includes the terminator of the second string. -/
theorem strncmp_eq_zero_iff {s t : List UInt8} (ht : t.length < num) (hnum : num < 2 ^ 32) :
    strncmp s t num = 0 ↔ s = t := by
  induction t generalizing s num with
  | nil => cases s <;> simp [strncmp]
  | cons c t ih =>
    rw [List.length_cons] at ht
    cases s with
    | nil => simp [strncmp]
    | cons b s =>
      rw [strncmp]
      by_cases hbc : b = c
      · have hcount : u32 ((num : ℤ) - 1) = num - 1 := by
          unfold u32
          omega
        simp only [hbc, ne_eq, not_true_eq_false, if_false, hcount, List.cons.injEq, true_and]
        rw [if_neg (by omega), ih (by omega) (by omega)]
      · rw [if_pos hbc, if_neg (by omega)]
        refine iff_of_false (fun h => hbc ?_) fun h => hbc (List.cons.inj h).1
        exact UInt8.toNat_inj.1 (by omega)

theorem strncmp_take_eq_zero_iff {s t : List UInt8} (ht : t.length < num) (hnum : num < 2 ^ 32) :
    strncmp (s.take num) t num = 0 ↔ s = t := by
  rw [strncmp_eq_zero_iff ht hnum]
  refine ⟨fun h => ?_, fun h => ?_⟩
  · have hlen : (s.take num).length < num := by rwa [h]
    rw [List.length_take] at hlen
    rwa [List.take_of_length_le (by omega)] at h
  · rw [h, List.take_of_length_le (Nat.le_of_lt ht)]

/-! ## Turns -/

variable {i : Input} {p : Parser}

theorem turn_end (h : readWord i.mem p.tree = fdtEnd) : turn i p = some (.returned i.bootargs) := by
  rw [turn, h]
  rfl

/-- At the begin of a node, its name is skipped and compared. -/
theorem turn_begin (h : readWord i.mem p.tree = fdtBeginNode) :
    turn i p = (skipName i.width i.mem (2 ^ i.width) (ptr i.width (p.tree + 4))).map fun endOfName =>
      .runs ⟨upalign4 i.width endOfName, p.foundChosen ||
        strncmp (charsAt i.width i.mem 7 (ptr i.width (p.tree + 4))) nodeChosen 7 = 0⟩ := by
  rw [turn, h, if_neg (by decide), if_pos rfl]
  cases hskip : skipName i.width i.mem (2 ^ i.width) (ptr i.width (p.tree + 4)) with
  | none => simp [hskip]
  | some e =>
    by_cases hchosen : strncmp (charsAt i.width i.mem 7 (ptr i.width (p.tree + 4))) nodeChosen 7 = 0
    · simp [hskip, hchosen]
    · simp [hskip, hchosen]

/-- Where the value of the property at `tree` starts, and its length. -/
def valueAt (i : Input) (tree : ℕ) : ℕ := ptr i.width (ptr i.width (ptr i.width (tree + 4) + 4) + 4)
def lengthAt (i : Input) (tree : ℕ) : ℕ := (readWord i.mem (ptr i.width (tree + 4))).toNat

/-- The property at `tree` has the name `bootargs`. -/
def IsBootargs (i : Input) (tree : ℕ) : Prop :=
  strncmp (charsAt i.width i.strings 9 (readWord i.mem (ptr i.width (ptr i.width (tree + 4) + 4))).toNat)
    propBootargs 9 = 0

instance (i : Input) (tree : ℕ) : Decidable (IsBootargs i tree) := inferInstanceAs (Decidable (_ = _))

/-- At a property, the value is copied or skipped. -/
theorem turn_prop (h : readWord i.mem p.tree = fdtProp) :
    turn i p =
      some (if p.foundChosen = true ∧ IsBootargs i p.tree then .returned (i.copied (valueAt i p.tree))
      else
        .runs ⟨upalign4 i.width (ptr i.width (valueAt i p.tree + lengthAt i p.tree)), p.foundChosen⟩) := by
  rw [turn, h, if_neg (by decide), if_neg (by decide), if_pos rfl]
  by_cases hfound : p.foundChosen = true ∧ IsBootargs i p.tree
  · rw [if_pos hfound]
    exact if_pos hfound
  · rw [if_neg hfound]
    exact if_neg hfound

/-- A token that is skipped. -/
theorem turn_skip (h : readWord i.mem p.tree = fdtNop ∨ readWord i.mem p.tree = fdtEndNode) :
    turn i p = some (.runs ⟨ptr i.width (p.tree + 4), p.foundChosen⟩) := by
  rw [turn]
  rcases h with h | h <;> rw [h] <;> rfl

/-- The words that are no tokens. -/
def Unknown (x : BitVec 32) : Prop := x ∉ [fdtBeginNode, fdtEndNode, fdtProp, fdtNop, fdtEnd]

instance (x : BitVec 32) : Decidable (Unknown x) := inferInstanceAs (Decidable (_ ∉ _))

/-- At another word, nothing moves. -/
theorem turn_unknown (h : Unknown (readWord i.mem p.tree)) : turn i p = some (.runs p) := by
  simp only [Unknown, List.mem_cons, not_or] at h
  obtain ⟨hbegin, hendNode, hprop, hnop, hend, -⟩ := h
  rw [turn, if_neg hend, if_neg hbegin, if_neg hprop, if_neg (not_or.2 ⟨hnop, hendNode⟩)]

/-- More turns do not change a result. -/
theorem parseLoop_mono {turns turns' : ℕ} {r : List UInt8} (h : parseLoop i turns p = some r)
    (hle : turns ≤ turns') :
    parseLoop i turns' p = some r := by
  induction turns generalizing turns' p with
  | zero => cases h
  | succ turns ih =>
    obtain ⟨turns', rfl⟩ :=
      Nat.exists_eq_add_one_of_ne_zero (Nat.ne_of_gt (Nat.lt_of_lt_of_le turns.succ_pos hle))
    rw [parseLoop] at h ⊢
    cases hturn : turn i p with
    | none => simp [hturn] at h
    | some t =>
      cases t with
      | returned bootargs => simpa [hturn] using h
      | runs p' =>
        rw [hturn] at h
        exact ih h (Nat.le_of_succ_le_succ hle)

/-- There is one result. -/
theorem fdtParse_unique {tree turns turns' : ℕ} {r r' : List UInt8} (h : fdtParse i turns tree = some r)
    (h' : fdtParse i turns' tree = some r') : r = r' := by
  unfold fdtParse at h h'
  split at h
  · rename_i htoken
    rw [if_pos htoken] at h'
    exact Option.some.inj (h.symm.trans h')
  · rename_i htoken
    rw [if_neg htoken] at h'
    have hmax := parseLoop_mono h (Nat.le_max_left turns turns')
    rw [parseLoop_mono h' (Nat.le_max_right turns turns')] at hmax
    exact (Option.some.inj hmax).symm

end HobbyOs.Fdt
