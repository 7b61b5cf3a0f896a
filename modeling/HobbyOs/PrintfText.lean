import Mathlib.Data.List.GetD
import HobbyOs.PrintRadix

/-!
# What is printed

The text of a format: of each conversion, the text of its argument, as long as
arguments are left; the rest as it stands.

* `turn_conv`: a conversion writes what is shown of its argument, or the beginning
  when `bufsize` is reached (`Emits`);
* `formatLoop_piece`: so does a turn of the loop, at each kind of piece;
* `printf_agrees`: the three front ends agree on the text, where it fits.
-/

namespace HobbyOs.Printf

open Outcome

/-! ## Pieces of a format -/

/-- The verbs. -/
inductive Verb
  | c
  | d
  | p
  | x
  | s
  deriving DecidableEq

/-- The character of a verb. -/
def Verb.char : Verb → UInt8
  | .c => charC
  | .d => charD
  | .p => charP
  | .x => charX
  | .s => charS

/-- A piece of a format: a character that stands for itself, `%%`, or a conversion. -/
inductive Piece
  | lit (char : UInt8) (ordinary : char ≠ 0 ∧ char ≠ percent)
  | percent
  | conv (v : Verb)

/-- How a piece is written. -/
def Piece.bytes : Piece → List UInt8
  | .lit c _ => [c]
  | .percent => [Printf.percent, Printf.percent]
  | .conv v => [Printf.percent, v.char]

/-- The format of the pieces. -/
def render (ps : List Piece) : List UInt8 := ps.flatMap Piece.bytes

variable {w : ℕ}

/-- The character that `%c` is given. -/
def charArg (a : BitVec w) : UInt8 := UInt8.ofBitVec (a.setWidth 8)

/-- The text of an argument. -/
def Verb.text (str : BitVec w → CStr) : Verb → BitVec w → List UInt8
  | .c, a => if charArg a = 0 then [] else [charArg a]
  | .d, a => signedNumeral 10 a.toInt
  | .p, a => ascii "0x" ++ numeral 16 a.toNat
  | .x, a => signedNumeral 16 a.toInt
  | .s, a => (str a).1

/-- Only the most negative number is not supported. -/
def Verb.Supports : Verb → BitVec w → Prop
  | .d, a | .x, a => a ≠ BitVec.intMin w
  | _, _ => True

/-- The text of a piece, after `n` arguments of `nargs`, where `text` gives that of an argument. -/
def Piece.text (text : Verb → BitVec w → List UInt8) (args : ℕ → BitVec w) (nargs n : ℕ) :
    Piece → List UInt8
  | .lit c _ => [c]
  | .percent => if n < nargs then [Printf.percent] else [Printf.percent, Printf.percent]
  | .conv v => if n < nargs then text v (args n) else [Printf.percent, v.char]

/-- The number of arguments used after a piece. -/
def Piece.used (nargs n : ℕ) : Piece → ℕ
  | .conv _ => if n < nargs then n + 1 else n
  | _ => n

/-- The text of a format, from the argument `n` on. -/
def formatted (text : Verb → BitVec w → List UInt8) (args : ℕ → BitVec w) (nargs : ℕ) :
    (n : ℕ) → List Piece → List UInt8
  | _, [] => []
  | n, p :: ps => p.text text args nargs n ++ formatted text args nargs (p.used nargs n) ps

/-- A conversion supports its argument, if it has one. -/
def Piece.Supports (args : ℕ → BitVec w) (nargs n : ℕ) : Piece → Prop
  | .conv v => n < nargs → v.Supports (args n)
  | _ => True

/-- No argument is used that its verb does not support. -/
def Supported (args : ℕ → BitVec w) (nargs : ℕ) : (n : ℕ) → List Piece → Prop
  | _, [] => True
  | n, p :: ps => p.Supports args nargs n ∧ Supported args nargs (p.used nargs n) ps

instance (v : Verb) (a : BitVec w) : Decidable (v.Supports a) := by
  cases v <;> unfold Verb.Supports <;> infer_instance

instance (args : ℕ → BitVec w) (nargs n : ℕ) (p : Piece) : Decidable (p.Supports args nargs n) := by
  cases p <;> unfold Piece.Supports <;> infer_instance

instance Supported.decidable (args : ℕ → BitVec w) (nargs : ℕ) :
    (n : ℕ) → (ps : List Piece) → Decidable (Supported args nargs n ps)
  | _, [] => isTrue trivial
  | n, p :: ps =>
    haveI := Supported.decidable args nargs (p.used nargs n) ps
    inferInstanceAs (Decidable (_ ∧ _))

/-! ### What is written for an argument -/

/-- The number that a conversion writes. -/
def Verb.number : Verb → BitVec w → List UInt8
  | .d, a => shown a.toInt (-a).toInt 10
  | .p, a => shown a.toNat (-a).toNat 16
  | .x, a => shown a.toInt (-a).toInt 16
  | _, _ => []

/-- What a conversion writes in front of it. -/
def Verb.lead : Verb → List UInt8
  | .p => [48, 120]
  | _ => []

/-- The argument is converted to a number. -/
def Verb.IsNumber : Verb → Prop
  | .c | .s => False
  | _ => True

/-- What `tmp` points to. -/
def Verb.body (str : BitVec w → CStr) : Verb → BitVec w → List UInt8
  | .c, a => Verb.c.text str a
  | .s, a => Verb.s.text str a
  | .d, a => Verb.d.number a
  | .p, a => Verb.p.number a
  | .x, a => Verb.x.number a

/-- What is written for an argument. -/
def Verb.shown (str : BitVec w → CStr) (v : Verb) (a : BitVec w) : List UInt8 := v.lead ++ v.body str a

/-- What is written is the text, if the verb supports the argument. -/
theorem Verb.shown_eq {str : BitVec w → CStr} {v : Verb} {a : BitVec w} (h : v.Supports a) :
    v.shown str a = v.text str a := by
  cases v with
  | c | s => rfl
  | d => exact shown_signed h 10
  | x => exact shown_signed h 16
  | p =>
    rw [Verb.shown, Verb.body, Verb.number, shown_unsigned]
    rfl

/-- A number fits into its area, with its terminator. -/
theorem Verb.length_number_le (hw : w ≤ 64) (v : Verb) (a : BitVec w) : (v.number a).length ≤ 20 := by
  have hnum := toNat_toInt_lt hw a
  have hneg := toNat_toInt_lt hw (-a)
  cases v with
  | c | s => exact Nat.zero_le 20
  | d =>
    exact length_shown_le (k := 19) (by decide) (by decide) (Nat.lt_trans hnum (by decide))
      (Nat.lt_trans hneg (by decide))
  | x =>
    exact length_shown_le (k := 19) (by decide) (by decide) (Nat.lt_trans hnum (by decide))
      (Nat.lt_trans hneg (by decide))
  | p =>
    rw [Verb.number, shown_unsigned]
    refine length_numeral_le (by decide) (by decide) (Nat.lt_of_lt_of_le a.isLt ?_)
    exact Nat.le_trans (Nat.pow_le_pow_right (by decide) hw) (by decide)

/-- A pointer has at most sixteen digits. -/
theorem length_pointer_le (hw : w ≤ 64) (a : BitVec w) : (Verb.p.number a).length ≤ 16 := by
  rw [Verb.number, shown_unsigned]
  refine length_numeral_le (by decide) (by decide) (Nat.lt_of_lt_of_le a.isLt ?_)
  exact Nat.le_trans (Nat.pow_le_pow_right (by decide) hw) (by decide)

/-! ## Writing -/

/-- The memory outside the area of the numbers. -/
def Front.Outside (f : Front) (j : ℤ) : Prop := j < f.digitBuf ∨ f.digitBuf + 21 ≤ j

/-- The characters `l` have been written from the index `d` on. Besides, only the area of the numbers
    may have changed. -/
structure Puts (f : Front) (d : ℕ) (l : List UInt8) (s s' : Output) : Prop where
  sent : s'.sent = s.sent ++ if f.sink = .uart then l else []
  stores : s'.stores = s.stores ++ if f.sink = .buf then List.range' d l.length else []
  mem : f.sink = .buf → ∀ j, f.Outside j →
    s'.mem j = if d ≤ j ∧ j < d + l.length then l.getD (j - d).toNat 0 else s.mem j

section

variable {f : Front} {d : ℕ} {l l' : List UInt8} {c : UInt8} {s s' s'' : Output}

theorem Puts.nil {mem : ℤ → UInt8} (h : ∀ j, f.Outside j → mem j = s.mem j) :
    Puts f d [] s { s with mem } where
  sent := by simp
  stores := by simp
  mem _ j hj := by
    rw [if_neg (by simp)]
    exact h j hj

theorem Puts.refl : Puts f d [] s s := .nil fun _ _ => rfl

theorem Puts.put : Puts f d [c] s (s.put f d c) := by
  unfold Output.put
  split
  · rename_i hf
    exact ⟨by simp [hf], by simp [hf], fun h => by simp [hf] at h⟩
  · rename_i hf
    refine ⟨by simp [hf], by simp [hf], fun _ j _ => ?_⟩
    by_cases hj : j = d
    · subst hj
      rw [if_pos ⟨Int.le_refl _, by rw [List.length_singleton]; omega⟩, Int.sub_self]
      exact Function.update_self ..
    · rw [if_neg (by simp; omega)]
      exact Function.update_of_ne hj ..

theorem Puts.append (h : Puts f d l s s') (h' : Puts f (d + l.length) l' s' s'') :
    Puts f d (l ++ l') s s'' where
  sent := by
    rw [h'.sent, h.sent, List.append_assoc]
    split <;> simp
  stores := by
    rw [h'.stores, h.stores, List.append_assoc, List.length_append]
    split
    · rw [List.range'_append_1]
    · simp
  mem hf j hj := by
    rw [h'.mem hf j hj, h.mem hf j hj, List.length_append]
    by_cases hright : ((d + l.length : ℕ) : ℤ) ≤ j
    · rw [if_neg (show ¬((d : ℤ) ≤ j ∧ j < d + l.length) by omega),
        List.getD_append_right _ _ _ _ (by omega)]
      by_cases hin : j < ((d + l.length : ℕ) : ℤ) + l'.length
      · rw [if_pos ⟨hright, hin⟩, if_pos (by omega),
          show (j - (d + l.length : ℕ)).toNat = (j - d).toNat - l.length by omega]
      · rw [if_neg fun h => hin h.2, if_neg (by omega)]
    · rw [if_neg fun h => hright h.1]
      by_cases hin : (d : ℤ) ≤ j
      · rw [if_pos (by omega), if_pos (by omega), List.getD_append _ _ _ _ (by omega)]
      · rw [if_neg fun h => hin h.1, if_neg fun h => hin h.1]

theorem write_apply : write f d c s = .ok () (s.put f d c) := rfl

/-- What `tmp` points to is `l`, also while it is written from the index `d` on. -/
def Reads (f : Front) (d : ℕ) (mem : ℤ → UInt8) (l : List UInt8) : Tmp → Prop
  | .text chars => chars = l
  | .digits off => Holds mem off (l ++ [0]) ∧ (f.sink = .buf → d ≤ off ∨ off + l.length < d)

theorem Reads.head {tmp : Tmp} (h : Reads f d s.mem l tmp) : tmp.head s.mem = l.headD 0 := by
  cases tmp with
  | text chars => rw [← show chars = l from h]; rfl
  | digits off =>
    cases l with
    | nil => exact h.1.1
    | cons c l => exact h.1.1

/-- The character that is written is none of those that are still to be read. -/
theorem Reads.next {tmp : Tmp} (h : Reads f d s.mem (c :: l) tmp) :
    Reads f (d + 1) (s.put f d c).mem l tmp.next := by
  cases tmp with
  | text chars =>
    rw [show chars = c :: l from h]
    rfl
  | digits off =>
    obtain ⟨hholds, hapart⟩ := h
    rw [List.length_cons] at hapart
    have hmem : ∀ j, off + 1 ≤ j → j < off + 1 + (l ++ [0]).length → (s.put f d c).mem j = s.mem j := by
      intro j hlow hhigh
      rw [List.length_append, List.length_singleton] at hhigh
      unfold Output.put
      split
      · rfl
      · rename_i hf
        exact Function.update_of_ne (by have := hapart hf; omega) ..
    exact ⟨hholds.2.congr hmem, fun hf => by have := hapart hf; omega⟩

/-- What a step writes of the text `u`, from the index `d` on: all of it, or its beginning `v` when
    `bufsize` is reached. The first `k` characters are written without a test. -/
structure Emits (f : Front) (k d : ℕ) (u v : List UInt8) (returned : Bool) (s s' : Output) : Prop where
  start : v <+: u
  puts : Puts f d v s s'
  goes : returned = false → v = u
  ends : returned = true → f.bufsize ≤ (d + v.length : ℕ)
  first : u ≠ [] → k < v.length
  bound : ((d + k : ℕ) : ℤ) < f.bufsize → ((d + v.length : ℕ) : ℤ) ≤ f.bufsize

/-- A character is written, and `bufsize` is tested. -/
theorem Emits.single : Emits f 0 d [c] [c] (decide (f.bufsize ≤ (d + 1 : ℕ))) s (s.put f d c) where
  start := List.prefix_refl _
  puts := .put
  goes _ := rfl
  ends h := of_decide_eq_true h
  first _ := Nat.one_pos
  bound h := h

/-- One more character in front, short of `bufsize`. -/
theorem Emits.cons {v : List UInt8} {returned : Bool} (h : Emits f 0 (d + 1) l v returned (s.put f d c) s')
    (hd : ((d + 1 : ℕ) : ℤ) < f.bufsize) : Emits f 0 d (c :: l) (c :: v) returned s s' where
  start := List.cons_prefix_cons.2 ⟨rfl, h.start⟩
  puts := Puts.put.append h.puts
  goes hr := by rw [h.goes hr]
  ends hr := by
    have := h.ends hr
    rw [List.length_cons]
    omega
  first _ := Nat.succ_pos _
  bound _ := by
    have := h.bound hd
    rw [List.length_cons]
    omega

/-- The loop writes what `tmp` points to. -/
theorem copyLoop_ok {turns : ℕ} {tmp : Tmp} (hzero : 0 ∉ l) (h : Reads f d s.mem l tmp)
    (hturns : 0 < turns ∧ f.bufsize < (d + turns : ℕ)) :
    ∃ v returned s', copyLoop f turns tmp d s = .ok (returned, d + v.length) s' ∧
    Emits f 0 d l v returned s s' ∧
      (returned = false → l ≠ [] → ((d + l.length : ℕ) : ℤ) < f.bufsize) := by
  induction l generalizing d s turns tmp with
  | nil =>
    obtain ⟨turns, rfl⟩ := Nat.exists_eq_add_one_of_ne_zero (Nat.ne_of_gt hturns.1)
    refine ⟨[], false, s, ?_,
      ⟨List.prefix_refl [], .refl, fun _ => rfl, nofun, fun h => absurd rfl h, ?_⟩,
      fun _ h => absurd rfl h⟩
    · have hhead : tmp.head s.mem = 0 := h.head
      rw [copyLoop, get_bind_apply, if_pos hhead]
      rfl
    · simp only [List.length_nil]
      omega
  | cons c l ih =>
    obtain ⟨turns, rfl⟩ := Nat.exists_eq_add_one_of_ne_zero (Nat.ne_of_gt hturns.1)
    have hc : c ≠ 0 := fun h0 => hzero (h0 ▸ List.mem_cons_self)
    rw [copyLoop, get_bind_apply, h.head, List.headD_cons, if_neg hc, bind_ok write_apply]
    -- The byte is stored before the limit is looked at.
    by_cases hfull : f.bufsize ≤ (d + 1 : ℕ)
    · rw [if_pos hfull]
      refine ⟨[c], true, s.put f d c, rfl,
        ⟨⟨l, rfl⟩, .put, nofun, fun _ => hfull, fun _ => Nat.one_pos, ?_⟩, nofun⟩
      exact fun h => h
    · rw [if_neg hfull]
      obtain ⟨v, returned, s', hrun, hemits, hroom⟩ :=
        ih (fun h0 => hzero (List.mem_cons_of_mem _ h0)) h.next
        (show 0 < turns ∧ f.bufsize < (d + 1 + turns : ℕ) by omega)
      have hd : d + 1 + v.length = d + (c :: v).length := by rw [List.length_cons]; omega
      rw [hd] at hrun
      refine ⟨c :: v, returned, s', hrun, hemits.cons (by omega), fun hr _ => ?_⟩
      by_cases hl : l = []
      · rw [hl, List.length_singleton]
        omega
      · have := hroom hr hl
        rw [List.length_cons]
        omega

/-- Text that is read from where it has been overwritten by itself has no end. -/
theorem copyLoop_runaway {turns : ℕ} {off : ℤ} (hf : f.sink = .buf) (hoff : off < d)
    (h : ∀ j, off ≤ j → j < d → s.mem j ≠ 0) :
    ∃ n s', copyLoop f turns (.digits off) d s = .ok (true, n) s' := by
  induction turns generalizing d s off with
  | zero => exact ⟨d, s, rfl⟩
  | succ turns ih =>
    have hne : Tmp.head s.mem (.digits off) ≠ 0 := h off (Int.le_refl _) hoff
    rw [copyLoop, get_bind_apply, if_neg hne, bind_ok write_apply]
    split
    · exact ⟨_, _, rfl⟩
    · refine ih (show off + 1 < (d + 1 : ℕ) by omega) fun j hlow hhigh => ?_
      rw [Output.put, hf]
      by_cases hj : j = d
      · rw [hj]
        simpa using hne
      · rw [show ({ s with mem := Function.update s.mem d _, stores := s.stores ++ [d] } : Output).mem j =
          s.mem j from
          Function.update_of_ne hj ..]
        exact h j (by omega) (by omega)

end

section

variable {f : Front} {d : ℕ} {s : Output} {w : ℕ} {str : BitVec w → CStr} {v : Verb} {a : BitVec w}

/-- What a number's conversion has left: where it starts, and the memory. -/
theorem convertNumber_ok {num neg : ℤ} {radix : ℕ} (hlow : 1 < radix) (hhigh : radix ≤ 16)
    (hroom : (shown num neg radix).length ≤ 20) :
    ∃ off s', convertNumber f (printRadixImpl num neg radix) s = .ok (.digits off) s' ∧
      off + (shown num neg radix).length = f.digitBuf + 20 ∧
      Holds s'.mem off (shown num neg radix ++ [0]) ∧ Puts f d [] s s' := by
  obtain ⟨mem', off, hrun, hoff, hholds, hsame⟩ := printRadixImpl_ok f.digitBuf s.mem hlow hhigh hroom
  refine ⟨f.digitBuf + off, { s with mem := mem' }, ?_, by omega, hholds, .nil hsame⟩
  rw [convertNumber, get_bind_apply, hrun]
  rfl

/-- The argument is converted: to text, or to a number at the end of its area. -/
theorem convert_ok (hw : w ≤ 64) (f : Front) (d : ℕ) (s : Output) (str : BitVec w → CStr)
    (v : Verb) (a : BitVec w) :
    ∃ tmp s₁, convert f str v.char a d s = .ok (tmp, d + v.lead.length) s₁ ∧ Puts f d v.lead s s₁ ∧
      (¬v.IsNumber ∧ tmp = .text (v.body str a) ∨ v.IsNumber ∧ ∃ off, tmp = .digits off ∧
        off + (v.body str a).length = f.digitBuf + 20 ∧ Holds s₁.mem off (v.body str a ++ [0])) := by
  have hroom := v.length_number_le hw a
  cases v with
  | c => exact ⟨_, s, rfl, .refl, .inl ⟨id, rfl⟩⟩
  | s => exact ⟨_, s, rfl, .refl, .inl ⟨id, rfl⟩⟩
  | d =>
    obtain ⟨off, s₁, hrun, hoff, hholds, hputs⟩ :=
      convertNumber_ok (f := f) (d := d) (s := s) (by decide) (by decide) hroom
    refine ⟨_, s₁, ?_, hputs, .inr ⟨trivial, off, rfl, hoff, hholds⟩⟩
    rw [convert, if_neg (by decide), if_pos (show Verb.d.char = charD from rfl)]
    exact bind_ok hrun
  | x =>
    obtain ⟨off, s₁, hrun, hoff, hholds, hputs⟩ :=
      convertNumber_ok (f := f) (d := d) (s := s) (by decide) (by decide) hroom
    refine ⟨_, s₁, ?_, hputs, .inr ⟨trivial, off, rfl, hoff, hholds⟩⟩
    rw [convert, if_neg (by decide), if_neg (by decide), if_neg (by decide),
      if_pos (show Verb.x.char = charX from rfl)]
    exact bind_ok hrun
  | p =>
    obtain ⟨off, s₁, hrun, hoff, hholds, hputs⟩ := convertNumber_ok (f := f) (d := d + 2)
      (s := (s.put f d 48).put f (d + 1) 120) (by decide) (by decide) hroom
    have hlead : Puts f d ([48] ++ [120]) s ((s.put f d 48).put f (d + 1) 120) := Puts.put.append .put
    refine ⟨_, s₁, ?_, hlead.append hputs, .inr ⟨trivial, off, rfl, hoff, hholds⟩⟩
    rw [convert, if_neg (by decide), if_neg (by decide), if_pos (show Verb.p.char = charP from rfl),
      bind_ok write_apply, bind_ok write_apply]
    exact bind_ok hrun

theorem zero_notMem_body (str : BitVec w → CStr) (v : Verb) (a : BitVec w) : 0 ∉ v.body str a := by
  cases v with
  | c =>
    rw [Verb.body, Verb.text]
    split
    · exact List.not_mem_nil
    · rename_i hne
      exact fun h => hne (List.mem_singleton.1 h).symm
  | s => exact (str a).2
  | d | p | x => exact zero_notMem_shown (by decide) (by decide)

/-- A number that is to be written over the end of its own digits, which only happens where the
    buffer is smaller than their area. -/
def Clobbered (f : Front) (str : BitVec w → CStr) (d : ℕ) (v : Verb) (a : BitVec w) : Prop :=
  v.IsNumber ∧ f.sink = .buf ∧ ((d + v.lead.length : ℕ) : ℤ) ≤ f.digitBuf + 20 ∧
    f.digitBuf + 20 < ((d + v.lead.length : ℕ) : ℤ) + (v.body str a).length

/-- A turn at a conversion, with an argument left. -/
theorem turn_conv {fmt : CStr} {args : ℕ → BitVec w} {srci n : ℕ} (hw : w ≤ 64)
    (hchar : charOf fmt (srci + 1) = return v.char) (hn : n < f.nargs)
    (hclob : ¬Clobbered f str d v (args n)) :
    ∃ t u s', turn f str fmt args percent srci n d s = .ok t s' ∧ t.srci = srci + 2 ∧ t.argnum = n + 1 ∧
      t.dsti = d + u.length ∧ Emits f v.lead.length d (v.shown str (args n)) u t.returned s s' ∧
      (t.returned = false → ((d + (v.shown str (args n)).length : ℕ) : ℤ) < f.bufsize) := by
  obtain ⟨tmp, s₁, hconv, hlead, htmp⟩ := convert_ok hw f d s str v (args n)
  have hpercent : v.char ≠ percent := by cases v <;> decide
  -- The text of the argument is read where it is: a number from the area of its
  -- digits, which the output does not reach.
  have hreads : Reads f (d + v.lead.length) s₁.mem (v.body str (args n)) tmp := by
    rcases htmp with ⟨-, rfl⟩ | ⟨hnum, off, rfl, hoff, hholds⟩
    · rfl
    · refine ⟨hholds, fun hf => ?_⟩
      by_contra hover
      exact hclob ⟨hnum, hf, by omega, by omega⟩
  obtain ⟨u, returned, s', hcopy, hemits, hroom⟩ := copyLoop_ok (zero_notMem_body str v (args n)) hreads
    (show 0 < f.bufsize.toNat + 1 ∧ f.bufsize < (d + v.lead.length + (f.bufsize.toNat + 1) : ℕ) by omega)
  -- The turn returns with the copy, or where the copy has filled the buffer.
  have hturn : ∃ t, turn f str fmt args percent srci n d s = .ok t s' ∧
      t.srci = srci + 2 ∧ t.argnum = n + 1 ∧
      t.dsti = d + v.lead.length + u.length ∧
      (t.returned = true ↔ returned = true ∨ f.bufsize ≤ (d + v.lead.length + u.length : ℕ)) := by
    rw [turn, if_pos ⟨rfl, hn⟩, hchar, pure_bind, if_neg hpercent, bind_ok hconv]
    cases returned with
    | true =>
      refine ⟨⟨true, srci + 2, n + 1, d + v.lead.length + u.length⟩, ?_, rfl, rfl, rfl, by simp⟩
      exact (bind_ok hcopy).trans rfl
    | false =>
      refine ⟨finish f (srci + 2) (n + 1) (d + v.lead.length + u.length), ?_, rfl,
        rfl, rfl, by simp [finish]⟩
      exact (bind_ok hcopy).trans rfl
  obtain ⟨t, hrun, hsrci, hargnum, hdsti, hret⟩ := hturn
  have hbody : v.shown str (args n) ≠ [] → v.body str (args n) ≠ [] := by
    intro hne
    cases v with
    | p => exact shown_ne_nil _ _ _
    | c | d | x | s => exact hne
  have hlen : d + v.lead.length + u.length = d + (v.lead ++ u).length := by rw [List.length_append]; omega
  refine ⟨t, v.lead ++ u, s', hrun, hsrci, hargnum, hdsti.trans hlen,
    ⟨?_, hlead.append hemits.puts, ?_, ?_, ?_, ?_⟩, ?_⟩
  · exact (List.prefix_append_right_inj _).2 hemits.start
  · intro h
    have hnot : returned = false := by
      cases returned with
      | true => exact absurd (hret.2 (.inl rfl)) (by simp [h])
      | false => rfl
    rw [hemits.goes hnot, Verb.shown]
  · intro h
    rw [← hlen]
    rcases hret.1 h with h | h
    · exact hemits.ends h
    · exact h
  · intro hne
    have := hemits.first (hbody hne)
    rw [List.length_append]
    omega
  · intro h
    rw [← hlen]
    exact hemits.bound h
  · intro h
    have hnot : ¬(returned = true ∨ f.bufsize ≤ (d + v.lead.length + u.length : ℕ)) := fun hor => by
      simp [hret.2 hor] at h
    have hu : u = v.body str (args n) := hemits.goes (Bool.eq_false_iff.2 fun h => hnot (.inl h))
    rw [Verb.shown, ← hu, ← hlen]
    omega

/-- A turn at a conversion that overwrites its own number: it returns. -/
theorem turn_clobbered {fmt : CStr} {args : ℕ → BitVec w} {srci n : ℕ} (hw : w ≤ 64)
    (hchar : charOf fmt (srci + 1) = return v.char) (hn : n < f.nargs) (hclob : Clobbered f str d v (args n)) :
    ∃ t s', turn f str fmt args percent srci n d s = .ok t s' ∧ t.returned = true := by
  obtain ⟨hnum, hf, hin, hover⟩ := hclob
  obtain ⟨tmp, s₁, hconv, -, htmp⟩ := convert_ok hw f d s str v (args n)
  have hpercent : v.char ≠ percent := by cases v <;> decide
  rcases htmp with ⟨hnot, -⟩ | ⟨-, off, rfl, hoff, hholds⟩
  · exact absurd hnum hnot
  · obtain ⟨m, s', hcopy⟩ : ∃ m s',
        copyLoop f (f.bufsize.toNat + 1) (.digits off) (d + v.lead.length) s₁ =
        .ok (true, m) s' :=
      copyLoop_runaway hf (by omega) fun j hlow hhigh =>
        (holds_append.1 hholds).1.ne_zero (zero_notMem_body str v (args n)) j hlow (by omega)
    refine ⟨⟨true, srci + 2, n + 1, m⟩, s', ?_, rfl⟩
    rw [turn, if_pos ⟨rfl, hn⟩, hchar, pure_bind, if_neg hpercent, bind_ok hconv]
    exact (bind_ok hcopy).trans rfl

/-! ### The pieces -/

variable {fmt : CStr} {args : ℕ → BitVec w} {pre rest : List UInt8} {turns n : ℕ} {p : Piece}

theorem charOf_cons {c : UInt8} (h : fmt.1 = pre ++ c :: rest) : charOf fmt pre.length = return c := by
  rw [charOf, h, if_pos (by simp)]
  simp

theorem charOf_succ {c c' : UInt8} (h : fmt.1 = pre ++ c :: c' :: rest) :
    charOf fmt (pre.length + 1) = return c' := by
  rw [charOf, h, if_pos (by simp)]
  simp

theorem charOf_end (h : fmt.1 = pre) : charOf fmt pre.length = return 0 := by
  rw [charOf, h, if_pos (Nat.le_refl _)]
  simp

/-- The characters of a piece that are written before `bufsize` is tested. -/
def Piece.lead : Piece → ℕ
  | .conv v => v.lead.length
  | _ => 0

/-- The number of a piece is clobbered. -/
def Piece.Clobbered (f : Front) (str : BitVec w → CStr) (args : ℕ → BitVec w) (n d : ℕ) : Piece → Prop
  | .conv v => Printf.Clobbered f str d v (args n)
  | _ => False

/-- A turn of the loop at a piece, with an argument left. -/
theorem formatLoop_piece (str : BitVec w → CStr) (args : ℕ → BitVec w) (s : Output)
    (turns : ℕ) (hw : w ≤ 64)
    (hfmt : fmt.1 = pre ++ (p.bytes ++ rest)) (hn : n < f.nargs)
    (hclob : ¬p.Clobbered f str args n d) :
    ∃ u returned s', formatLoop f str fmt args (turns + 1) pre.length n d s =
        (if returned then return d + u.length
          else formatLoop f str fmt args turns (pre.length + p.bytes.length) (p.used f.nargs n) (d + u.length))
            s' ∧
      Emits f p.lead d (p.text (Verb.shown str) args f.nargs n) u returned s s' ∧
      (returned = false → ((d + (p.text (Verb.shown str) args f.nargs n).length : ℕ) : ℤ) <
        f.bufsize) := by
  cases p with
  | lit c hc =>
    refine ⟨[c], _, _, ?_, .single, fun h => of_decide_eq_false h |> Int.not_le.1⟩
    rw [formatLoop, charOf_cons hfmt, pure_bind, if_neg hc.1, turn, if_neg fun h => hc.2 h.1]
    rfl
  | percent =>
    simp only [Piece.text, if_pos hn]
    refine ⟨[Printf.percent], _, _, ?_, .single, fun h => of_decide_eq_false h |> Int.not_le.1⟩
    rw [formatLoop, charOf_cons hfmt, pure_bind, if_neg (by decide), turn, if_pos ⟨rfl, hn⟩,
      charOf_succ hfmt, pure_bind, if_pos rfl]
    rfl
  | conv v =>
    obtain ⟨t, u, s', hturn, hsrci, hargnum, hdsti, hemits, hroom⟩ :=
      turn_conv (s := s) hw (charOf_succ hfmt) hn hclob
    simp only [Piece.text, if_pos hn]
    refine ⟨u, t.returned, s', ?_, hemits, hroom⟩
    rw [formatLoop, charOf_cons hfmt, pure_bind, if_neg (by decide), bind_ok hturn, hsrci,
      hargnum, hdsti, Piece.used,
      if_pos hn]
    rfl

/-- Without an argument left, the format is written as it stands. -/
theorem formatLoop_verbatim (str : BitVec w → CStr) (args : ℕ → BitVec w) (d : ℕ) (s : Output)
    (hfmt : fmt.1 = pre ++ rest) (hn : f.nargs ≤ n) (hturns : rest.length < turns) :
    ∃ u returned s', formatLoop f str fmt args turns pre.length n d s = .ok (d + u.length) s' ∧
      Emits f 0 d rest u returned s s' := by
  induction rest generalizing pre turns d s with
  | nil =>
    obtain ⟨turns, rfl⟩ := Nat.exists_eq_add_one_of_ne_zero (Nat.ne_of_gt hturns)
    rw [List.append_nil] at hfmt
    refine ⟨[], false, s, ?_, List.prefix_refl [], .refl, fun _ => rfl, nofun, fun h => absurd rfl h, ?_⟩
    · rw [formatLoop, charOf_end hfmt, pure_bind, if_pos rfl]
      rfl
    · simp only [List.length_nil]
      omega
  | cons c rest ih =>
    obtain ⟨turns, rfl⟩ := Nat.exists_eq_add_one_of_ne_zero (Nat.ne_zero_of_lt hturns)
    have hc : c ≠ 0 := by
      rintro rfl
      exact fmt.2 (by rw [hfmt]; simp)
    rw [List.length_cons] at hturns
    -- With no argument left a `%` is a byte like the others.
    rw [formatLoop, charOf_cons hfmt, pure_bind, if_neg hc, turn, if_neg fun h => Nat.not_lt.2 hn h.2,
      bind_assoc, bind_ok write_apply, pure_bind]
    by_cases hfull : f.bufsize ≤ (d + 1 : ℕ)
    · rw [if_pos (show (finish f (pre.length + 1) n (d + 1)).returned = true from decide_eq_true hfull)]
      refine ⟨[c], true, _, rfl, ⟨rest, rfl⟩, .put, nofun, fun _ => hfull, fun _ =>
        Nat.one_pos, fun h => h⟩
    · rw [if_neg
        (show ¬(finish f (pre.length + 1) n (d + 1)).returned = true from mt of_decide_eq_true hfull)]
      obtain ⟨u, returned, s', hrun, hemits⟩ := ih (d + 1) (s.put f d c)
        (show fmt.1 = (pre ++ [c]) ++ rest by rw [hfmt]; simp) (Nat.lt_of_succ_lt_succ hturns)
      rw [List.length_append, List.length_singleton] at hrun
      refine ⟨c :: u, returned, s', ?_, hemits.cons (by omega)⟩
      rw [List.length_cons, show d + (u.length + 1) = d + 1 + u.length by omega]
      exact hrun

theorem formatted_of_le (text : Verb → BitVec w → List UInt8) {nargs : ℕ}
    (h : nargs ≤ n) (ps : List Piece) :
    formatted text args nargs n ps = render ps := by
  induction ps with
  | nil => rfl
  | cons p ps ih =>
    have hused : p.used nargs n = n := by
      cases p with
      | conv v => exact if_neg (Nat.not_lt.2 h)
      | lit | percent => rfl
    have htext : p.text text args nargs n = p.bytes := by
      cases p with
      | lit => rfl
      | percent => exact if_neg (Nat.not_lt.2 h)
      | conv v => exact if_neg (Nat.not_lt.2 h)
    rw [formatted, hused, htext, ih]
    rfl

/-- The area of the numbers is behind the output. -/
def Front.Apart (f : Front) : Prop := f.sink = .buf → f.bufsize ≤ f.digitBuf

/-- Where the text fits, no number is clobbered. -/
theorem Piece.not_clobbered {p : Piece} (hapart : f.Apart) (hn : n < f.nargs)
    (hroom : ((d + (p.text (Verb.shown str) args f.nargs n).length : ℕ) : ℤ) < f.bufsize) :
    ¬p.Clobbered f str args n d := by
  cases p with
  | lit | percent => exact id
  | conv v =>
    rintro ⟨-, hf, -, hover⟩
    have := hapart hf
    simp only [Piece.text, if_pos hn, Verb.shown, List.length_append] at hroom
    omega

theorem Piece.length_bytes_pos (p : Piece) : 0 < p.bytes.length := by cases p <;> exact Nat.succ_pos _

theorem render_cons (p : Piece) (ps : List Piece) : render (p :: ps) = p.bytes ++ render ps := rfl

/-- Where the text fits, it is written. -/
theorem formatLoop_formatted (f : Front) (str : BitVec w → CStr) (args : ℕ → BitVec w) (d n : ℕ)
    (s : Output)
    (hw : w ≤ 64) (hapart : f.Apart) (ps : List Piece) (hfmt : fmt.1 = pre ++ render ps)
    (hroom : ((d + (formatted (Verb.shown str) args f.nargs n ps).length : ℕ) : ℤ) < f.bufsize)
    (hturns : (render ps).length < turns) :
    ∃ s', formatLoop f str fmt args turns pre.length n d s =
      .ok (d + (formatted (Verb.shown str) args f.nargs n ps).length) s' ∧
      Puts f d (formatted (Verb.shown str) args f.nargs n ps) s s' := by
  induction ps generalizing pre n d s turns with
  | nil =>
    obtain ⟨turns, rfl⟩ := Nat.exists_eq_add_one_of_ne_zero (Nat.ne_zero_of_lt hturns)
    refine ⟨s, ?_, .refl⟩
    rw [formatLoop, charOf_end (by rw [hfmt]; exact List.append_nil pre), pure_bind, if_pos rfl]
    rfl
  | cons p ps ih =>
    by_cases hn : n < f.nargs
    · obtain ⟨turns, rfl⟩ := Nat.exists_eq_add_one_of_ne_zero (Nat.ne_zero_of_lt hturns)
      rw [formatted, List.length_append] at hroom ⊢
      rw [render_cons, List.length_append] at hturns
      have hpos := p.length_bytes_pos
      have hclob : ¬p.Clobbered f str args n d := Piece.not_clobbered hapart hn (by omega)
      obtain ⟨u, returned, s₁, hrun, hemits, -⟩ := formatLoop_piece str args s turns hw hfmt hn hclob
      have hle := hemits.start.length_le
      -- A turn returns only at the end of the buffer, and that is not reached.
      cases returned with
      | true =>
        have := hemits.ends rfl
        omega
      | false =>
        obtain rfl := hemits.goes rfl
        have hfmt' : fmt.1 = (pre ++ p.bytes) ++ render ps := by rw [hfmt, render_cons, List.append_assoc]
        obtain ⟨s', hrest, hputs⟩ := ih _ _ s₁ hfmt'
          (show (((d + _) + _ : ℕ) : ℤ) < _ by rw [Nat.add_assoc]; exact hroom) (show _ < turns by omega)
        rw [List.length_append] at hrest
        rw [hrun, if_neg (by decide), hrest, Nat.add_assoc]
        exact ⟨s', rfl, hemits.puts.append hputs⟩
    · rw [formatted_of_le _ (Nat.not_lt.1 hn)] at hroom ⊢
      obtain ⟨u, returned, s', hrun, hemits⟩ :=
        formatLoop_verbatim str args d s hfmt (Nat.not_lt.1 hn) hturns
      have hle := hemits.start.length_le
      cases returned with
      | true =>
        have := hemits.ends rfl
        omega
      | false =>
        obtain rfl := hemits.goes rfl
        exact ⟨s', hrun, hemits.puts⟩

end

/-! ## The front ends -/

section

variable {w nargs n : ℕ} {args : ℕ → BitVec w} {str : BitVec w → CStr}

/-- The format of the pieces, as a C string. -/
def format (ps : List Piece) : CStr := ⟨render ps, by
  rw [render, List.mem_flatMap]
  rintro ⟨p, -, h⟩
  cases p with
  | lit c hc => exact hc.1 (List.mem_singleton.1 h).symm
  | percent => exact absurd h (by decide)
  | conv v => exact absurd h (by cases v <;> decide)⟩

/-- What is written is the text, if the arguments are supported. -/
theorem formatted_shown (str : BitVec w → CStr) {ps : List Piece} (h : Supported args nargs n ps) :
    formatted (Verb.shown str) args nargs n ps = formatted (Verb.text str) args nargs n ps := by
  induction ps generalizing n with
  | nil => rfl
  | cons p ps ih =>
    obtain ⟨hp, hps⟩ := h
    rw [formatted, formatted, ih hps]
    congr 1
    cases p with
    | lit | percent => rfl
    | conv v =>
      rw [Piece.text, Piece.text]
      split
      · rename_i hn
        exact Verb.shown_eq (hp hn)
      · rfl

/-- The area of the numbers is cut off the buffer, where that has room for it. -/
theorem ksprintFront_bufsize {size : BitVec w} (h : 21 ≤ size.toNat) :
    (ksprintFront size).bufsize = size.toNat - 21 := by
  have hlt := size.isLt
  have hsize : (size - BitVec.ofNat w 21).toNat = size.toNat - 21 := by
    rw [BitVec.toNat_sub_of_le
      (by rw [BitVec.le_def, BitVec.toNat_ofNat, Nat.mod_eq_of_lt (by omega)]; exact h),
      BitVec.toNat_ofNat, Nat.mod_eq_of_lt (by omega)]
  show ((size - BitVec.ofNat w 21).toNat : ℤ) = _
  omega

theorem printFront_bufsize {size : BitVec 32} (h : 21 ≤ size.toInt) :
    (printFront nargs size).bufsize = size.toInt - 21 := by
  show (size - BitVec.ofNat 32 21).toInt = _
  rw [BitVec.toInt_eq_toNat_cond] at h ⊢
  rw [BitVec.toInt_eq_toNat_cond]
  have hlt := size.isLt
  have hsize : (size - BitVec.ofNat 32 21).toNat = size.toNat - 21 := by
    rw [BitVec.toNat_sub_of_le (by rw [BitVec.le_def, BitVec.toNat_ofNat, Nat.mod_eq_of_lt (by omega)]; omega),
      BitVec.toNat_ofNat, Nat.mod_eq_of_lt (by omega)]
  rw [hsize]
  omega

/-- The text is in the buffer, and besides only the area of the numbers, at its end, may have changed. -/
structure StoresText (size : ℤ) (text : List UInt8) (s s' : Output) : Prop where
  stored : ∀ i (h : i < text.length), s'.mem i = text[i]
  others : ∀ j, j < 0 ∨ text.length ≤ j → j < size - 21 ∨ size ≤ j → s'.mem j = s.mem j
  sent : s'.sent = s.sent

theorem Puts.storesText {f : Front} {size : ℤ} {text : List UInt8} {s s' : Output} (h : Puts f 0 text s s')
    (hsink : f.sink = .buf) (hbuf : f.digitBuf = size - 21) (hroom : (text.length : ℤ) < size - 21) :
    StoresText size text s s' where
  stored i hi := by
    rw [h.mem hsink i (.inl (by omega)), if_pos (by omega), List.getD_eq_getElem?_getD]
    simp [hi]
  others j hout harea := by
    rw [h.mem hsink j (by rw [Front.Outside]; omega), if_neg (by omega)]
  sent := by
    rw [h.sent, hsink]
    exact List.append_nil _

/-- What `printf` writes, with room for it. -/
theorem printf_formatted (f : Front) (hw : w ≤ 64) (hapart : f.Apart) (ps : List Piece) (s : Output)
    (hsupp : Supported args f.nargs 0 ps)
    (hroom : ((formatted (Verb.text str) args f.nargs 0 ps).length : ℤ) < f.bufsize) :
    ∃ s', printf f str (format ps) args s = .ok (formatted (Verb.text str) args f.nargs 0 ps).length s' ∧
      Puts f 0 (formatted (Verb.text str) args f.nargs 0 ps) s s' := by
  have hshown := formatted_shown str hsupp
  have hfmt : (format ps).1 = [] ++ render ps := rfl
  obtain ⟨s', hrun, hputs⟩ := formatLoop_formatted f str args 0 0 s hw hapart ps hfmt
    (by rw [hshown, Nat.zero_add]; exact hroom) (Nat.lt_succ_self _)
  rw [hshown] at hrun hputs
  rw [Nat.zero_add] at hrun
  exact ⟨s', hrun, hputs⟩

/-- The text of a format with seven arguments at most. -/
def printed (str : BitVec w → CStr) (args : ℕ → BitVec w) (ps : List Piece) : List UInt8 :=
  formatted (Verb.text str) args 7 0 ps

/-- `ksprintfvec` and `printfvecbuf` store the text of a format to their buffer, and `kprintfvec` sends
    it, where it fits. -/
theorem printf_agrees (cfg : Config) (hw : w ≤ 64) (ps : List Piece)
    (args : ℕ → BitVec w) (str : BitVec w → CStr)
    (s : Output) (hsupp : Supported args 7 0 ps) :
    (∀ size : BitVec w, (printed str args ps).length + digitBufSize < size.toNat →
      ∃ s', ksprintfvec size str (format ps) args s = .ok (printed str args ps).length s' ∧
        StoresText size.toNat (printed str args ps) s s') ∧
    (∀ size : BitVec 32, ((printed str args ps).length + digitBufSize : ℕ) < size.toInt →
      ∃ s', printfvecbuf 7 size str (format ps) args s = .ok (printed str args ps).length s' ∧
        StoresText size.toInt (printed str args ps) s s') ∧
    ((printed str args ps).length < cfg.pageSize →
      ∃ s', kprintfvec cfg str (format ps) args s = .ok (printed str args ps).length s' ∧
        s'.sent = s.sent ++ printed str args ps) := by
  have hdigits : digitBufSize = 21 := rfl
  refine ⟨fun size hsize => ?_, fun size hsize => ?_, fun hpage => ?_⟩
  · have hbuf : (ksprintFront size).bufsize = size.toNat - 21 := ksprintFront_bufsize (by omega)
    have hroom : ((printed str args ps).length : ℤ) < size.toNat - 21 := by omega
    obtain ⟨s', hrun, hputs⟩ :=
      printf_formatted (ksprintFront size) hw (fun _ => Int.le_of_eq hbuf) ps s hsupp (hbuf ▸ hroom)
    exact ⟨s', hrun, hputs.storesText rfl rfl hroom⟩
  · have hbuf : (printFront 7 size).bufsize = size.toInt - 21 := printFront_bufsize (by omega)
    have hroom : ((printed str args ps).length : ℤ) < size.toInt - 21 := by omega
    obtain ⟨s', hrun, hputs⟩ :=
      printf_formatted (printFront 7 size) hw (fun _ => Int.le_refl _) ps s hsupp (hbuf ▸ hroom)
    exact ⟨s', hrun, hputs.storesText rfl hbuf hroom⟩
  · obtain ⟨s', hrun, hputs⟩ :=
      printf_formatted (kprintFront cfg) hw nofun ps s hsupp (Int.ofNat_lt.2 hpage)
    exact ⟨s', hrun, hputs.sent⟩

/-- More conversions than there are arguments. -/
def nineNumbers : List Piece := List.replicate 9 (.conv .d)

theorem zero_not_mem_nil : (0 : UInt8) ∉ ([] : List UInt8) := List.not_mem_nil

/-- The arguments, and no strings. -/
def elevenOn (n : ℕ) : BitVec 32 := BitVec.ofNat 32 (11 + n)
def noStrings (_ : BitVec 32) : CStr := ⟨[], zero_not_mem_nil⟩
def emptyOutput : Output := ⟨fun _ => 0, [], []⟩

theorem nineNumbers_agree :
    printed noStrings elevenOn nineNumbers = ascii "11121314151617%d%d" ∧
      (∃ s', ksprintfvec 64 noStrings (format nineNumbers) elevenOn emptyOutput = .ok 18 s' ∧
        StoresText 64 (printed noStrings elevenOn nineNumbers) emptyOutput s') ∧
      (∃ s', printfvecbuf 7 64 noStrings (format nineNumbers) elevenOn emptyOutput = .ok 18 s' ∧
        StoresText 64 (printed noStrings elevenOn nineNumbers) emptyOutput s') ∧
      ∃ s', kprintfvec .qemuE noStrings (format nineNumbers) elevenOn emptyOutput = .ok 18 s' ∧
        s'.sent = printed noStrings elevenOn nineNumbers := by
  have hlen : (printed noStrings elevenOn nineNumbers).length = 18 := by decide +kernel
  have h := printf_agrees .qemuE (by decide) nineNumbers elevenOn noStrings emptyOutput
    (by decide +kernel)
  rw [hlen] at h
  refine ⟨by decide +kernel, h.1 64 (by decide), h.2.1 64 (by decide), ?_⟩
  obtain ⟨s', hrun, hsent⟩ := h.2.2 (by decide)
  exact ⟨s', hrun, hsent⟩

end

end HobbyOs.Printf
