import Mathlib.Data.List.Nodup
import HobbyOs.Lib.Transition
import HobbyOs.Lib.Words
import HobbyOs.Memory
import HobbyOs.Shell

/-!
# What the shell makes of a line

Within the limits of its tables, a line becomes a chain with a command for each
segment between bars, and the arguments of a command are the words of its
segment (`parse_words`). Where a segment has too many words, a pointer is stored
behind the arguments, into the link of the chain (`parse_safe_iff`).

* `Filled`: how far `parse_command` has come in a buffer: the words it has ended,
  and the characters of the next one;
* `Ready`: the free slots of the pool are initialised. This is so whenever the
  shell reads a line (`ready_of_reach`).
-/

namespace HobbyOs.Shell

open Outcome Words

variable {n : ℕ} {b b' : CmdBuf n} {dst : Fin n} {ws : List (List UInt8)} {w : List UInt8}
  {o argc : ℕ} {c : UInt8}
  {p : Option (Fin n × ℕ)}

/-! ## Stores -/

theorem setChar_apply (h : o < cmdBufSize) : setChar dst o c b =
    .ok () (b.set dst { b.pool dst with buf := Function.update (b.pool dst).buf o c }) := by
  rw [setChar, if_pos h]
  rfl

theorem setArg_apply (h : argc < argvBufSize) : setArg dst argc p b =
    .ok () (b.set dst { b.pool dst with args := Function.update (b.pool dst).args argc p }) := by
  rw [setArg, if_pos h]
  rfl

@[simp] theorem CmdBuf.set_pool_self (b : CmdBuf n) (i : Fin n) (c : Cmd n) : (b.set i c).pool i = c := by
  simp [CmdBuf.set]

@[simp] theorem CmdBuf.set_set (b : CmdBuf n) (i : Fin n) (c c' : Cmd n) :
    (b.set i c).set i c' = b.set i c' := by
  simp [CmdBuf.set]

/-- Of the pool, only the characters and the arguments of `dst` are changed. -/
structure OnlyAt (dst : Fin n) (b b' : CmdBuf n) : Prop where
  count : b'.count = b.count
  next : (b'.pool dst).next = (b.pool dst).next
  others : ∀ i ≠ dst, b'.pool i = b.pool i

namespace OnlyAt

theorem refl : OnlyAt dst b b := ⟨rfl, rfl, fun _ _ => rfl⟩

theorem trans {b'' : CmdBuf n} (h : OnlyAt dst b b') (h' : OnlyAt dst b' b'') : OnlyAt dst b b'' :=
  ⟨h'.count.trans h.count, h'.next.trans h.next, fun i hi => (h'.others i hi).trans (h.others i hi)⟩

theorem set {x : Cmd n} (h : OnlyAt dst b b') (hx : x.next = (b'.pool dst).next) :
    OnlyAt dst b (b'.set dst x) := by
  refine h.trans ⟨rfl, by rw [CmdBuf.set_pool_self, hx], fun i hi => ?_⟩
  exact Function.update_of_ne hi _ _

end OnlyAt

/-! ## A command -/

/-- The arguments of the command in slot `i` are the words `ws`, each a C string in
    its own buffer. -/
structure HasArgs (b : CmdBuf n) (i : Fin n) (ws : List (List UInt8)) : Prop where
  fits : ws.length < argvBufSize
  words : ∀ j (h : j < ws.length), ∃ off, (b.pool i).args j = some (i, off) ∧
    off + ws[j].length < cmdBufSize ∧ Stored (b.pool i).buf off (ws[j] ++ [0])
  null : (b.pool i).args ws.length = none

/-- `parse_command` has come to `o` in the buffer of `dst`: it has ended the words
    `ws`, and read `w` of the next one. -/
structure Filled (b : CmdBuf n) (dst : Fin n) (ws : List (List UInt8)) (w : List UInt8) (o : ℕ) : Prop where
  words : ∀ j (h : j < ws.length), ∃ off, (b.pool dst).args j = some (dst, off) ∧
    off + ws[j].length < o ∧ Stored (b.pool dst).buf off (ws[j] ++ [0])
  last : ∃ off, (b.pool dst).args ws.length = some (dst, off) ∧ off + w.length = o ∧
    Stored (b.pool dst).buf off w
  space : space ∉ w
  nonzero : 0 ∉ w

namespace Filled

/-- A character of a word. -/
theorem char (h : Filled b dst ws w o) (hc : c ≠ Shell.space) (h0 : c ≠ 0) :
    Filled (b.set dst { b.pool dst with buf := Function.update (b.pool dst).buf o c }) dst ws
      (w ++ [c]) (o + 1) := by
  refine ⟨fun j hj => ?_, ?_, ?_, ?_⟩
  · obtain ⟨off, ha, hoff, hs⟩ := h.words j hj
    rw [CmdBuf.set_pool_self]
    refine ⟨off, ha, by omega, hs.update ?_⟩
    rw [List.length_append, List.length_singleton]
    omega
  · obtain ⟨off, ha, hoff, hs⟩ := h.last
    rw [CmdBuf.set_pool_self]
    refine ⟨off, ha, ?_, hs.snoc hoff⟩
    rw [List.length_append, List.length_singleton]
    omega
  · simpa [hc.symm] using h.space
  · simpa [h0.symm] using h.nonzero

/-- A zero after a word. -/
theorem zero (h : Filled b dst ws w o) : ∀ j (hj : j < (ws ++ [w]).length), ∃ off,
    (b.pool dst).args j = some (dst, off) ∧ off + (ws ++ [w])[j].length < o + 1 ∧
      Stored (Function.update (b.pool dst).buf o 0) off ((ws ++ [w])[j] ++ [0]) := by
  intro j hj
  by_cases hlast : j < ws.length
  · rw [List.getElem_append_left hlast]
    obtain ⟨off, ha, hoff, hs⟩ := h.words j hlast
    refine ⟨off, ha, by omega, hs.update ?_⟩
    rw [List.length_append, List.length_singleton]
    omega
  · obtain rfl : j = ws.length := by
      rw [List.length_append, List.length_singleton] at hj
      omega
    rw [List.getElem_concat_length rfl]
    obtain ⟨off, ha, hoff, hs⟩ := h.last
    exact ⟨off, ha, by omega, hs.snoc hoff⟩

/-- A space after a word. -/
theorem endWord (h : Filled b dst ws w o) {x : Cmd n}
    (hargs : x.args = Function.update (b.pool dst).args (ws.length + 1)
    (some (dst, o + 1))) (hbuf : x.buf = Function.update (b.pool dst).buf o 0) :
    Filled (b.set dst x) dst (ws ++ [w]) [] (o + 1) := by
  have hzero := h.zero
  have hlen : (ws ++ [w]).length = ws.length + 1 := by simp
  refine ⟨fun j hj => ?_, ⟨o + 1, ?_, rfl, fun _ hi => absurd hi (Nat.not_lt_zero _)⟩, List.not_mem_nil,
    List.not_mem_nil⟩
  · obtain ⟨off, ha, hoff, hs⟩ := hzero j hj
    rw [CmdBuf.set_pool_self, hargs, hbuf, Function.update_of_ne (by omega)]
    exact ⟨off, ha, hoff, hs⟩
  · rw [CmdBuf.set_pool_self, hargs, hlen, Function.update_self]

end Filled

/-- The input of `parse_command` is without spaces, if there were some. -/
theorem takeWhile_skipSpaces (l : List UInt8) :
    (skipSpaces l).takeWhile (· ≠ bar) = skipSpaces (l.takeWhile (· ≠ bar)) := by
  unfold skipSpaces
  induction l with
  | nil => rfl
  | cons x l ih =>
    by_cases hx : x = Shell.space
    · subst hx
      rw [List.dropWhile_cons_of_pos (by simp), ih, List.takeWhile_cons_of_pos (by decide),
        List.dropWhile_cons_of_pos (by simp)]
    · rw [List.dropWhile_cons_of_neg (by simpa using hx)]
      by_cases hbar : x = bar
      · subst hbar
        rw [List.takeWhile_cons_of_neg (by simp)]
        rfl
      · rw [List.takeWhile_cons_of_pos (by simpa using hbar), List.dropWhile_cons_of_neg (by simpa using hx)]

theorem dropWhile_skipSpaces (l : List UInt8) :
    (skipSpaces l).dropWhile (· ≠ bar) = l.dropWhile (· ≠ bar) := by
  unfold skipSpaces
  induction l with
  | nil => rfl
  | cons x l ih =>
    by_cases hx : x = Shell.space
    · subst hx
      rw [List.dropWhile_cons_of_pos (by simp), ih, List.dropWhile_cons_of_pos (by decide)]
    · rw [List.dropWhile_cons_of_neg (by simpa using hx)]

theorem length_skipSpaces_le (l : List UInt8) : (skipSpaces l).length ≤ l.length :=
  (List.dropWhile_suffix _).length_le

theorem head?_skipSpaces (l : List UInt8) : (skipSpaces l).head? ≠ some space := by
  intro h
  have hhead := List.head?_dropWhile_not (· = space) l
  rw [show List.dropWhile (fun x => decide (x = space)) l = skipSpaces l from rfl, h] at hhead
  simp at hhead

/-- The loop of `parse_command` reads up to a bar. It has ended all the words but
    one, if a space follows. If there are too many, it stores a pointer to one behind
    the array. -/
theorem parseCommandLoop_result (turns : ℕ) (input : List UInt8) (hturns : input.length < turns)
    (h : Filled b dst ws w o) (hfit : o + input.length < cmdBufSize) (h0 : 0 ∉ input)
    (hspace : w = [] → input.head? ≠ some space) (hlt : ws.length < argvBufSize) :
    (∃ ws' w' o' b', parseCommandLoop dst turns input o ws.length b =
        .ok (input.dropWhile (· ≠ bar), o', ws'.length) b' ∧
      Filled b' dst ws' w' o' ∧ o' < cmdBufSize ∧ ws'.length < argvBufSize ∧ OnlyAt dst b b' ∧
      ws' ++ words space w' = ws ++ words space (w ++ input.takeWhile (· ≠ bar))) ∨
    (∃ b', parseCommandLoop dst turns input o ws.length b = .error .outOfBounds b') ∧
      argvBufSize ≤ ws.length + (words space (w ++ input.takeWhile (· ≠ bar))).length := by
  induction turns generalizing input ws w o b with
  | zero => exact absurd hturns (Nat.not_lt_zero _)
  | succ turns ih =>
    cases input with
    | nil =>
      exact .inl ⟨ws, w, o, b, rfl, h, by omega, hlt, .refl, by rw [List.takeWhile_nil, List.append_nil]⟩
    | cons c rest =>
      rw [List.length_cons] at hturns hfit
      have hrest : 0 ∉ rest := fun hmem => h0 (List.mem_cons_of_mem _ hmem)
      rw [parseCommandLoop]
      by_cases hbar : c = bar
      · subst hbar
        rw [if_pos rfl]
        rw [List.dropWhile_cons_of_neg (by simp), List.takeWhile_cons_of_neg (by simp), List.append_nil]
        exact .inl ⟨ws, w, o, b, rfl, h, by omega, hlt, .refl, rfl⟩
      rw [if_neg hbar, bind_ok (setChar_apply (by omega))]
      rw [List.takeWhile_cons_of_pos (by simpa using hbar), List.dropWhile_cons_of_pos (by simpa using hbar)]
      by_cases hc : c = space
      · -- The word ends here.
        subst hc
        have hw : w ≠ [] := fun hw => hspace hw rfl
        rw [words_append_cons hw h.space, List.length_cons]
        have hlen : (ws ++ [w]).length = ws.length + 1 := by simp
        have hle := length_skipSpaces_le rest
        have hnot0 : 0 ∉ skipSpaces rest := fun hmem => hrest ((List.dropWhile_suffix _).mem hmem)
        rw [if_pos rfl, bind_ok (setChar_apply (by omega))]
        dsimp only
        -- A pointer to the next word is stored, or the index is past the array.
        by_cases hnext : ws.length + 1 < argvBufSize
        · rw [bind_ok (setArg_apply hnext), if_neg (by omega), ← hlen]
          simp only [CmdBuf.set_pool_self, CmdBuf.set_set, Function.update_idem]
          have hend := h.endWord (x := { b.pool dst with
            buf := Function.update (b.pool dst).buf o 0
            args := Function.update (b.pool dst).args (ws ++ [w]).length (some (dst, o + 1)) })
              (by rw [hlen]) rfl
          -- The spaces that are skipped separate no words.
          have hwords : words space ([] ++ (skipSpaces rest).takeWhile (· ≠ bar)) =
              words space (rest.takeWhile (· ≠ bar)) := by
            rw [List.nil_append, takeWhile_skipSpaces, skipSpaces, words_dropWhile]
          rcases ih (skipSpaces rest) (by omega) hend (by omega) hnot0
              (fun _ => head?_skipSpaces rest) (hlen ▸ hnext) with
            ⟨ws', w', o', b', hrun, hfilled, ho, hlt', honly, hws⟩ | ⟨herror, hmany⟩
          · rw [dropWhile_skipSpaces] at hrun
            refine .inl ⟨ws', w', o', b', hrun, hfilled, ho, hlt', (OnlyAt.set .refl ?_).trans honly, ?_⟩
            · rfl
            · rw [hws, hwords, List.append_assoc]
              rfl
          · rw [hwords, hlen] at hmany
            exact .inr ⟨herror, by omega⟩
        · have hfault : ∀ (p : Option (Fin n × ℕ)) (b : CmdBuf n),
              setArg dst (ws.length + 1) p b = .error .outOfBounds b := fun p b => by
            rw [setArg, if_neg hnext]
            rfl
          rw [bind_error (hfault _ _)]
          exact .inr ⟨⟨_, rfl⟩, by omega⟩
      · -- The word goes on.
        have hc0 : c ≠ 0 := fun hc0 => h0 (hc0 ▸ List.mem_cons_self)
        have hsnoc : w ++ c :: rest.takeWhile (· ≠ bar) = w ++ [c] ++ rest.takeWhile (· ≠ bar) := by simp
        rw [hsnoc, if_neg hc, if_neg (by omega)]
        rcases ih rest (by omega) (h.char hc hc0) (by omega) hrest (fun hnil => absurd hnil (by simp)) hlt with
          ⟨ws', w', o', b', hrun, hfilled, ho, hlt', honly, hws⟩ | herror
        · exact .inl ⟨ws', w', o', b', hrun, hfilled, ho, hlt',
            (OnlyAt.set .refl (by rfl)).trans honly, hws⟩
        · exact .inr herror

/-- The words have ended, and a null pointer follows. -/
theorem HasArgs.of_words {x : Cmd n} (hfit : ws.length < argvBufSize)
    (hwords : ∀ j (h : j < ws.length), ∃ off,
      x.args j = some (dst, off) ∧ off + ws[j].length < cmdBufSize ∧ Stored x.buf off (ws[j] ++ [0])) :
    HasArgs (b.set dst { x with args := Function.update x.args ws.length none }) dst ws := by
  refine ⟨hfit, fun j hj => ?_, ?_⟩
  · rw [CmdBuf.set_pool_self]
    obtain ⟨off, ha, hrest⟩ := hwords j hj
    exact ⟨off, by rw [← ha]; exact Function.update_of_ne (by omega) _ _, hrest⟩
  · rw [CmdBuf.set_pool_self]
    simp

theorem HasArgs.congr {i : Fin n} (h : HasArgs b i ws) (hargs : (b'.pool i).args = (b.pool i).args)
    (hbuf : (b'.pool i).buf = (b.pool i).buf) : HasArgs b' i ws :=
  ⟨h.fits, by rw [hargs, hbuf]; exact h.words, by rw [hargs]; exact h.null⟩

theorem argHead_apply {off : ℕ} (ha : argc < argvBufSize) (hp : (b.pool dst).args argc = some (dst, off))
    (ho : off < cmdBufSize) : argHead dst argc b = .ok ((b.pool dst).buf off) b := by
  rw [argHead, if_pos ha, get_bind_apply, hp]
  dsimp only
  rw [if_pos ho]
  rfl

/-- `parse_command` makes arguments of the words up to a bar, unless there are too
    many for the array. -/
theorem parseCommand_result (b : CmdBuf n) (dst : Fin n) {input : List UInt8} (hfit : input.length < cmdBufSize)
    (h0 : 0 ∉ input) :
    (∃ b', parseCommand input dst b = .ok (input.dropWhile (· ≠ bar)) b' ∧
      HasArgs b' dst (words space (input.takeWhile (· ≠ bar))) ∧ OnlyAt dst b b') ∨
    (∃ b', parseCommand input dst b = .error .outOfBounds b') ∧
      argvBufSize ≤ (words space (input.takeWhile (· ≠ bar))).length := by
  have hle := length_skipSpaces_le input
  -- The loop starts with no word, and the pointer to the first one stored.
  have hstart :
      Filled (b.set dst { b.pool dst with args := Function.update (b.pool dst).args 0 (some (dst, 0)) }) dst
      [] [] 0 := by
    refine ⟨fun _ hj => absurd hj (Nat.not_lt_zero _),
      ⟨0, ?_, rfl, fun _ hi => absurd hi (Nat.not_lt_zero _)⟩,
      List.not_mem_nil, List.not_mem_nil⟩
    rw [CmdBuf.set_pool_self]
    simp
  have hwords : words space ([] ++ (skipSpaces input).takeWhile (· ≠ bar)) =
      words space (input.takeWhile (· ≠ bar)) := by
    rw [List.nil_append, takeWhile_skipSpaces, skipSpaces, words_dropWhile]
  rw [parseCommand]
  dsimp only
  rw [bind_ok (setArg_apply (by decide))]
  rcases parseCommandLoop_result ((skipSpaces input).length + 1) (skipSpaces input)
    (Nat.lt_succ_self _) hstart (by omega)
    (fun hmem => h0 ((List.dropWhile_suffix _).mem hmem)) (fun _ => head?_skipSpaces input) (by decide) with
    ⟨ws, w, o, b₁, hloop, hfilled, ho, hlt, honly, hws⟩ | ⟨⟨b', hloop⟩, hmany⟩
  case inr =>
    rw [hwords, List.length_nil, Nat.zero_add] at hmany
    rw [List.length_nil] at hloop
    exact .inr ⟨⟨b', bind_error hloop⟩, hmany⟩
  rw [hwords, List.nil_append] at hws
  rw [dropWhile_skipSpaces, List.length_nil] at hloop
  rw [← hws]
  obtain ⟨off, ha, hoff, hs⟩ := hfilled.last
  rw [bind_ok hloop]
  dsimp only
  rw [bind_ok (setChar_apply ho),
    bind_ok (argHead_apply hlt (by rw [CmdBuf.set_pool_self]; exact ha) (by omega)),
    CmdBuf.set_pool_self]
  have honly' : ∀ x : Cmd n, x.next = (b₁.pool dst).next → OnlyAt dst b (b₁.set dst x) := fun x hx =>
    ((OnlyAt.set .refl (by rfl)).trans honly).set hx
  by_cases hw : w = []
  · -- There was a space after the last word.
    subst hw
    obtain rfl : off = o := by simpa using hoff
    rw [words_nil, List.append_nil]
    dsimp only
    rw [if_neg (by simp), bind_ok (setArg_apply hlt), CmdBuf.set_pool_self, CmdBuf.set_set]
    refine .inl ⟨_, rfl, HasArgs.of_words hlt fun j hj => ?_, honly' _ rfl⟩
    obtain ⟨off', ha', hoff', hs'⟩ := hfilled.words j hj
    refine ⟨off', ha', by omega, hs'.update ?_⟩
    rw [List.length_append, List.length_singleton]
    omega
  · have hlast : words space w = [w] := (words_of_notMem hfilled.space).trans (if_neg hw)
    have hpos : 0 < w.length := List.length_pos_of_ne_nil hw
    -- The last word has not ended: its first character is there, and counts as one
    -- more word.
    have hchar : (b₁.pool dst).buf off ≠ 0 := by
      intro hzero
      have hfirst := hs 0 hpos
      rw [Nat.add_zero, hzero, List.getD_eq_getElem?_getD, List.getElem?_eq_getElem hpos,
        Option.getD_some] at hfirst
      exact hfilled.nonzero (hfirst ▸ List.getElem_mem hpos)
    rw [hlast]
    have hlen : (ws ++ [w]).length = ws.length + 1 := by simp
    have hkept : Function.update (b₁.pool dst).buf o 0 off ≠ 0 := by rwa [Function.update_of_ne (by omega)]
    rw [if_pos hkept, ← hlen]
    by_cases hargs : (ws ++ [w]).length < argvBufSize
    · rw [bind_ok (setArg_apply hargs), CmdBuf.set_pool_self, CmdBuf.set_set]
      refine .inl ⟨_, rfl, HasArgs.of_words hargs fun j hj => ?_, honly' _ rfl⟩
      obtain ⟨off', ha', hoff', hs'⟩ := hfilled.zero j hj
      exact ⟨off', ha', by omega, hs'⟩
    · rw [setArg, if_neg hargs]
      exact .inr ⟨⟨_, rfl⟩, not_lt.1 hargs⟩

/-! ## A chain -/

/-- The commands in the slots `l` are chained. -/
inductive Chain (b : CmdBuf n) : Option (Fin n) → List (Fin n) → Prop
  | nil : Chain b none []
  | cons {i : Fin n} {l : List (Fin n)} : Chain b (b.pool i).next l → Chain b (some i) (i :: l)

theorem Chain.congr {head : Option (Fin n)} {l : List (Fin n)} (h : Chain b head l)
    (hnext : ∀ i ∈ l, (b'.pool i).next = (b.pool i).next) : Chain b' head l := by
  induction h with
  | nil => exact .nil
  | cons _ ih =>
    refine .cons ?_
    rw [hnext _ List.mem_cons_self]
    exact ih fun i hi => hnext i (List.mem_cons_of_mem _ hi)

/-- The free slots are at the start of the pool, and initialised. -/
structure Ready (b : CmdBuf n) : Prop where
  count_le : b.count ≤ n
  next : ∀ i : Fin n, (i : ℕ) < b.count → (b.pool i).next = none

theorem OnlyAt.ready (h : OnlyAt dst b b') (hb : Ready b) (hdst : b.count ≤ (dst : ℕ)) : Ready b' := by
  refine ⟨h.count ▸ hb.count_le, fun i hi => ?_⟩
  rw [h.count] at hi
  rw [h.others i fun hd => by subst hd; omega]
  exact hb.next i hi

theorem allocCmd_none (h : b.count = 0) : allocCmd b = .ok none b := by
  rw [allocCmd, get_bind_apply, if_pos h]
  rfl

theorem allocCmd_some (h : b.count ≠ 0) (i : Fin n) (hi : (i : ℕ) + 1 = b.count) :
    allocCmd b = .ok (some i) { b with count := i } := by
  have hcount : b.count - 1 = i := by omega
  rw [allocCmd, get_bind_apply, if_neg h, modify_bind_apply]
  simp only [hcount]
  rw [dif_pos i.isLt]
  rfl

/-- The free slot that is taken next. -/
theorem Ready.top (hb : Ready b) (h : b.count ≠ 0) : ∃ i : Fin n, (i : ℕ) + 1 = b.count :=
  have hle := hb.count_le
  ⟨⟨b.count - 1, by omega⟩, Nat.succ_pred h⟩

theorem Ready.taken (hb : Ready b) {i : Fin n} (hi : (i : ℕ) + 1 = b.count) :
    Ready { b with count := i } := by
  refine ⟨i.isLt.le, fun j hj => hb.next j ?_⟩
  have hj : (j : ℕ) < i := hj
  omega

/-- A command has been added to the chain. -/
def CmdBuf.linked (b : CmdBuf n) (tail i : Fin n) : CmdBuf n :=
  { b with count := i }.set tail { b.pool tail with next := some i }

theorem CmdBuf.linked_count (b : CmdBuf n) (tail i : Fin n) : (b.linked tail i).count = i := rfl

theorem Ready.linked (hb : Ready b) {tail i : Fin n} (htail : b.count ≤ (tail : ℕ))
    (hi : (i : ℕ) + 1 = b.count) :
    Ready (b.linked tail i) ∧ (b.linked tail i).pool i = b.pool i ∧
    ((b.linked tail i).pool i).next = none := by
  have hne : i ≠ tail := fun h => by subst h; omega
  have hpool : (b.linked tail i).pool i = b.pool i := Function.update_of_ne hne _ _
  refine ⟨⟨?_, fun j hj => ?_⟩, hpool, ?_⟩
  · show (i : ℕ) ≤ n
    omega
  · have hj : (j : ℕ) < i := hj
    rw [show (b.linked tail i).pool j = b.pool j from Function.update_of_ne (fun h => by subst h; omega) _ _]
    exact hb.next j (by omega)
  · rw [hpool]
    exact hb.next i (by omega)

/-- What `parse` has done from the command `tail` on: it has chained the slots `l`
    to it, and they are the last of those that were free. -/
structure Chained (b b' : CmdBuf n) (tail : Fin n) (l : List (Fin n)) : Prop where
  chain : Chain b' (some tail) (tail :: l)
  nodup : l.Nodup
  slots : ∀ i : Fin n, i ∈ l ↔ b'.count ≤ i ∧ (i : ℕ) < b.count
  count : b'.count + l.length = b.count
  others : ∀ i, i ≠ tail → i ∉ l → b'.pool i = b.pool i

namespace Chained

variable {tail i : Fin n} {l : List (Fin n)}

/-- The chain ends. -/
theorem stop (h : OnlyAt tail b b') (hnext : (b.pool tail).next = none) : Chained b b' tail [] := by
  refine ⟨.cons ?_, List.nodup_nil, fun i => ?_, h.count, fun i hi _ => h.others i hi⟩
  · rw [h.next, hnext]
    exact .nil
  · rw [h.count]
    simp only [List.not_mem_nil, false_iff, not_and, not_lt]
    exact id

/-- The command `i` follows. -/
theorem step {b₁ : CmdBuf n} (h : OnlyAt tail b b₁) (htail : b.count ≤ (tail : ℕ))
    (hi : (i : ℕ) + 1 = b.count)
    (hl : Chained (b₁.linked tail i) b' i l) : Chained b b' tail (i :: l) := by
  have hlow : ∀ j ∈ l, (j : ℕ) < i := fun j hj => ((hl.slots j).1 hj).2
  have hil : i ∉ l := fun hmem => Nat.lt_irrefl _ (hlow i hmem)
  have htl : tail ∉ l := fun hmem => by
    have := hlow tail hmem
    omega
  have hne : tail ≠ i := fun h => by subst h; omega
  have hcount : b'.count + l.length = i := hl.count
  refine ⟨.cons ?_, List.nodup_cons.2 ⟨hil, hl.nodup⟩, fun j => ?_, ?_, fun j hj hjl => ?_⟩
  · rw [hl.others tail hne htl, show (b₁.linked tail i).pool tail = _ from Function.update_self _ _ _]
    exact hl.chain
  · rw [List.mem_cons, hl.slots]
    show j = i ∨ b'.count ≤ j ∧ (j : ℕ) < i ↔ _
    rw [Fin.ext_iff]
    omega
  · rw [List.length_cons]
    omega
  · rw [List.mem_cons, not_or] at hjl
    rw [hl.others j hjl.1 hjl.2, show (b₁.linked tail i).pool j =
      b₁.pool j from Function.update_of_ne hj _ _,
      h.others j hj]

end Chained

/-- A command for each segment, in order, with the words of the segment. -/
def Parsed (b : CmdBuf n) (l : List (Fin n)) (input : List UInt8) : Prop :=
  List.Forall₂ (HasArgs b) l ((input.splitOn bar).map (words space))

/-- `parse` makes a command of each segment, as far as there are free slots, unless one
    of the segments has too many words. -/
theorem parseLoop_result (turns : ℕ) {input : List UInt8} {tail : Fin n} (hturns : input.length < turns)
    (hfit : input.length < cmdBufSize) (h0 : 0 ∉ input) (hb : Ready b) (htail : b.count ≤ (tail : ℕ))
    (hnext : (b.pool tail).next = none) :
    (∃ l b', parseLoop turns input tail b = .ok () b' ∧ Chained b b' tail l ∧
      List.Forall₂ (HasArgs b') (tail :: l) (((input.splitOn bar).take (b.count + 1)).map (words space))) ∨
    (∃ b', parseLoop turns input tail b = .error .outOfBounds b') ∧
      ∃ seg ∈ (input.splitOn bar).take (b.count + 1), argvBufSize ≤ (words space seg).length := by
  induction turns generalizing input tail b with
  | zero => exact absurd hturns (Nat.not_lt_zero _)
  | succ turns ih =>
    rw [parseLoop]
    rcases parseCommand_result b tail hfit
      h0 with ⟨b₁, hrun, hwords, honly⟩ | ⟨⟨b', herror⟩, hmany⟩
    case inr =>
      refine .inr ⟨⟨b', bind_error herror⟩, input.takeWhile (· ≠ bar), ?_, hmany⟩
      cases hdrop : input.dropWhile (· ≠ bar) with
      | nil => simp [splitOn_of_dropWhile_nil hdrop]
      | cons x rest => simp [(splitOn_of_dropWhile hdrop).2]
    rw [bind_ok hrun]
    cases hdrop : input.dropWhile (· ≠ bar) with
    | nil =>
      refine .inl ⟨[], b₁, rfl, .stop honly hnext, ?_⟩
      rw [splitOn_of_dropWhile_nil hdrop, List.take_succ_cons, List.take_nil]
      exact .cons hwords .nil
    | cons x rest =>
      obtain ⟨-, hsplit⟩ := splitOn_of_dropWhile hdrop
      have hsuffix : x :: rest <:+ input := hdrop ▸ List.dropWhile_suffix _
      -- The rest after the bar is shorter, and there is one slot less.
      have hlen : rest.length < input.length := by
        have := hsuffix.length_le
        rw [List.length_cons] at this
        omega
      have hcount : b₁.count = b.count := honly.count
      dsimp only
      rw [hsplit, List.take_succ_cons, List.map_cons]
      by_cases hfull : b₁.count = 0
      · -- There is no slot for the other segments.
        rw [bind_ok (allocCmd_none hfull), ← hcount, hfull, List.take_zero]
        exact .inl ⟨[], b₁, rfl, .stop honly hnext, .cons hwords .nil⟩
      obtain ⟨i, hi⟩ := (honly.ready hb htail).top hfull
      rw [bind_ok (allocCmd_some hfull i hi)]
      obtain ⟨hready, hpool, hinext⟩ := (honly.ready hb htail).linked (hcount ▸ htail) hi
      have htake : (b₁.linked tail i).count + 1 = b.count := by rw [CmdBuf.linked_count, hi, hcount]
      rcases ih (by omega) (by omega) (fun hmem => h0 (hsuffix.mem (List.mem_cons_of_mem _ hmem))) hready
        (le_refl (i : ℕ)) hinext with ⟨l, b', hloop, hchained, hparsed⟩ | ⟨herror, seg, hseg, hmany⟩
      · have hstep := Chained.step honly htail (hcount ▸ hi) hchained
        have htl : tail ∉ l := fun hmem => by
          have := ((hchained.slots tail).1 hmem).2
          rw [CmdBuf.linked_count] at this
          omega
        -- The words of this command are not touched by what comes after it.
        have hkept : b'.pool tail = { b₁.pool tail with next := some i } := by
          rw [hchained.others tail (fun h => by subst h; omega) htl]
          exact Function.update_self _ _ _
        rw [htake] at hparsed
        exact .inl ⟨i :: l, b', hloop, hstep, .cons (hwords.congr (by rw [hkept]) (by rw [hkept])) hparsed⟩
      · rw [htake] at hseg
        exact .inr ⟨herror, seg, List.mem_cons_of_mem _ hseg, hmany⟩

/-- What `parse` makes of a line: a chain with a command for each segment, as far as
    there are free slots, unless one of the segments has too many words. -/
theorem Ready.parse_result {line : List UInt8} (hb : Ready b) (hlen : line.length < cmdBufSize)
    (h0 : 0 ∉ line) :
    (∃ l b', parse line b = .ok l.head? b' ∧ Chain b' l.head? l ∧ l.Nodup ∧
      List.Forall₂ (HasArgs b') l (((line.splitOn bar).take b.count).map (words space))) ∨
    (∃ b', parse line b = .error .outOfBounds b') ∧
      ∃ seg ∈ (line.splitOn bar).take b.count, argvBufSize ≤ (words space seg).length := by
  by_cases hfull : b.count = 0
  · rw [Shell.parse, bind_ok (allocCmd_none hfull), hfull, List.take_zero]
    exact .inl ⟨[], b, rfl, .nil, List.nodup_nil, .nil⟩
  obtain ⟨i, hi⟩ := hb.top hfull
  rw [Shell.parse, bind_ok (allocCmd_some hfull i hi)]
  dsimp only
  rcases parseLoop_result (line.length + 1) (Nat.lt_succ_self _) hlen h0 (hb.taken hi) (le_refl (i : ℕ))
    (hb.next i (by omega)) with ⟨l, b', hloop, hchained, hparsed⟩ | ⟨⟨b', herror⟩, seg, hseg, hmany⟩
  · rw [bind_ok hloop]
    rw [show ({ b with count := (i : ℕ) } : CmdBuf n).count + 1 = b.count from hi] at hparsed
    refine .inl ⟨i :: l, b', rfl, hchained.chain,
      List.nodup_cons.2 ⟨fun hmem => ?_, hchained.nodup⟩, hparsed⟩
    exact Nat.lt_irrefl _ ((hchained.slots i).1 hmem).2
  · rw [bind_error herror]
    rw [show ({ b with count := (i : ℕ) } : CmdBuf n).count + 1 = b.count from hi] at hseg
    exact .inr ⟨⟨b', rfl⟩, seg, hseg, hmany⟩

/-- Within the limits, `parse` makes a chain with a command for each segment. -/
theorem Ready.parse {line : List UInt8} (hb : Ready b) (hlen : line.length < cmdBufSize) (h0 : 0 ∉ line)
    (hslots : (line.splitOn bar).length ≤ b.count)
    (hargs : ∀ seg ∈ line.splitOn bar, (words space seg).length < argvBufSize) :
    ∃ l b', parse line b = .ok l.head? b' ∧ Chain b' l.head? l ∧ l.Nodup ∧ Parsed b' l line := by
  rcases hb.parse_result hlen h0 with hok | ⟨-, seg, hseg, hmany⟩
  · rwa [List.take_of_length_le hslots] at hok
  · exact absurd (hargs seg (List.mem_of_mem_take hseg)) (not_lt.2 hmany)

/-! ## Line after line -/

/-- Only the command is changed, or the parser has failed. -/
theorem onlyAt_setChar {b₀ : CmdBuf n} {k : ℕ} :
    Triple (OnlyAt dst b₀) (setChar dst k c) (fun _ => OnlyAt dst b₀)
    fun _ _ => True := by
  unfold setChar
  split
  · exact .modify fun b h => h.set rfl
  · exact .throw fun _ _ => trivial

theorem onlyAt_setArg {b₀ : CmdBuf n} {k : ℕ} :
    Triple (OnlyAt dst b₀) (setArg dst k p) (fun _ => OnlyAt dst b₀)
    fun _ _ => True := by
  unfold setArg
  split
  · exact .modify fun b h => h.set rfl
  · exact .throw fun _ _ => trivial

theorem onlyAt_argHead {b₀ : CmdBuf n} {k : ℕ} :
    Triple (OnlyAt dst b₀) (argHead dst k) (fun _ => OnlyAt dst b₀)
    fun _ _ => True := by
  unfold argHead
  split
  · refine Triple.get_bind fun b => ?_
    split
    · exact .throw fun _ _ => trivial
    · split
      · exact .pure fun _ h => h
      · exact .throw fun _ _ => trivial
  · exact .throw fun _ _ => trivial

theorem onlyAt_parseCommandLoop {b₀ : CmdBuf n} (turns : ℕ) (input : List UInt8) (buf argc : ℕ) :
    Triple (OnlyAt dst b₀) (parseCommandLoop dst turns input buf argc) (fun _ => OnlyAt dst b₀) fun _ _ =>
      True := by
  induction turns generalizing input buf argc with
  | zero => exact .pure fun _ h => h
  | succ turns ih =>
    cases input with
    | nil => exact .pure fun _ h => h
    | cons c rest =>
      unfold parseCommandLoop
      split
      · exact .pure fun _ h => h
      refine onlyAt_setChar.bind fun _ => ?_
      split
      · refine onlyAt_setChar.bind fun _ => onlyAt_setArg.bind fun _ => ?_
        split
        · exact .pure fun _ h => h
        · exact ih _ _ _
      · split
        · exact .pure fun _ h => h
        · exact ih _ _ _

theorem onlyAt_parseCommand {b₀ : CmdBuf n} (input : List UInt8) :
    Triple (OnlyAt dst b₀) (parseCommand input dst) (fun _ => OnlyAt dst b₀) fun _ _ => True := by
  unfold parseCommand
  refine onlyAt_setArg.bind fun _ => (onlyAt_parseCommandLoop _ _ _ _).bind fun _ => ?_
  exact onlyAt_setChar.bind fun _ => onlyAt_argHead.bind fun _ => onlyAt_setArg.bind fun _ => .pure fun _ h => h

/-- Whatever the line, what `parse` has chained are the last of the free slots. -/
theorem parseLoop_chained {turns : ℕ} {input : List UInt8} {tail : Fin n} (hb : Ready b)
    (htail : b.count ≤ (tail : ℕ)) (hnext : (b.pool tail).next = none)
    (h : parseLoop turns input tail b = .ok () b') : ∃ l, Chained b b' tail l := by
  induction turns generalizing input tail b with
  | zero =>
    cases h
    exact ⟨[], .stop .refl hnext⟩
  | succ turns ih =>
    rw [parseLoop] at h
    obtain ⟨left, b₁, hrun, h⟩ := bind_eq_ok.1 h
    have honly := (onlyAt_parseCommand input).of_ok OnlyAt.refl hrun
    cases left with
    | nil =>
      cases h
      exact ⟨[], .stop honly hnext⟩
    | cons x rest =>
      dsimp only at h
      by_cases hzero : b₁.count = 0
      · rw [bind_ok (allocCmd_none hzero)] at h
        cases h
        exact ⟨[], .stop honly hnext⟩
      · have hready := honly.ready hb htail
        have hcount := honly.count
        obtain ⟨i, hi⟩ := hready.top hzero
        rw [bind_ok (allocCmd_some hzero i hi)] at h
        obtain ⟨hlinked, -, hinext⟩ := hready.linked (hcount ▸ htail) hi
        obtain ⟨l, hl⟩ := ih hlinked (le_refl (i : ℕ)) hinext h
        exact ⟨i :: l, .step honly htail (hcount ▸ hi) hl⟩

/-- What is to be freed: a chain of slots in use, and the other slots below those
    that are then free are initialised. -/
structure Freeable (b : CmdBuf n) (head : Option (Fin n)) (l : List (Fin n)) : Prop where
  chain : Chain b head l
  nodup : l.Nodup
  count : b.count + l.length ≤ n
  next : ∀ i : Fin n, (i : ℕ) < b.count + l.length → i ∉ l → (b.pool i).next = none

/-- `sh_free_cmd_chain` initialises the slots of a chain. -/
theorem freeCmdLoop_ready {turns : ℕ} {l : List (Fin n)} (head : Option (Fin n)) (hturns : l.length ≤ turns)
    (h : Freeable b head l) :
    ∃ b', freeCmdLoop turns head b = .ok () b' ∧ Ready b' ∧ b'.count = b.count + l.length := by
  induction turns generalizing head l b with
  | zero =>
    obtain rfl : l = [] := List.eq_nil_of_length_eq_zero (Nat.le_zero.1 hturns)
    exact ⟨b, rfl, ⟨h.count, fun i hi => h.next i hi List.not_mem_nil⟩, rfl⟩
  | succ turns ih =>
    obtain ⟨hchain, hnodup, hcount, hnext⟩ := h
    cases hchain with
    | nil => exact ⟨b, rfl, ⟨hcount, fun i hi => hnext i hi List.not_mem_nil⟩, rfl⟩
    | @cons i l hchain =>
      rw [List.nodup_cons] at hnodup
      rw [List.length_cons] at hturns hcount hnext
      have hset : ∀ j, j ≠ i →
          ({ b with count := b.count + 1 }.set i (initCmd (b.pool i))).pool j = b.pool j :=
        fun j hj => Function.update_of_ne hj _ _
      have hfreeable : Freeable ({ b with count := b.count + 1 }.set i (initCmd (b.pool i)))
          (b.pool i).next l := by
        refine ⟨hchain.congr fun j hj => ?_, hnodup.2, ?_, fun j hj hjl => ?_⟩
        · rw [hset j fun h => hnodup.1 (h ▸ hj)]
        · show b.count + 1 + l.length ≤ n
          omega
        · have hj : (j : ℕ) < b.count + 1 + l.length := hj
          by_cases hji : j = i
          · subst hji
            rw [CmdBuf.set_pool_self]
            rfl
          · rw [hset j hji]
            exact hnext j (by omega) (by simp [hji, hjl])
      obtain ⟨b', hrun, hready, hcount'⟩ := ih _ (Nat.le_of_succ_le_succ hturns) hfreeable
      refine ⟨b', hrun, hready, hcount'.trans ?_⟩
      show b.count + 1 + l.length = _
      rw [List.length_cons]
      omega

theorem Ready.parse_freeable {line : List UInt8} {head : Option (Fin n)} (hb : Ready b)
    (h : Shell.parse line b = .ok head b') : ∃ l, Freeable b' head l ∧ b'.count + l.length = b.count := by
  rw [Shell.parse] at h
  by_cases hzero : b.count = 0
  · rw [bind_ok (allocCmd_none hzero)] at h
    cases h
    exact ⟨[], ⟨.nil, List.nodup_nil, hb.count_le, fun i hi _ => hb.next i hi⟩, rfl⟩
  obtain ⟨i, hi⟩ := hb.top hzero
  rw [bind_ok (allocCmd_some hzero i hi)] at h
  obtain ⟨_, b₁, hrun, h⟩ := bind_eq_ok.1 h
  cases h
  obtain ⟨l, hl⟩ := parseLoop_chained (hb.taken hi) (le_refl (i : ℕ)) (hb.next i (by omega)) hrun
  have hil : i ∉ l := fun hmem => Nat.lt_irrefl _ ((hl.slots i).1 hmem).2
  have hcount : b'.count + l.length = i := hl.count
  have hle := hb.count_le
  refine ⟨i :: l, ⟨hl.chain, List.nodup_cons.2 ⟨hil, hl.nodup⟩, ?_, fun j hj hjl => ?_⟩, ?_⟩
  · rw [List.length_cons]
    omega
  · rw [List.length_cons] at hj
    rw [List.mem_cons, not_or] at hjl
    rw [hl.others j hjl.1 hjl.2]
    exact hb.next j (by omega)
  · rw [List.length_cons]
    omega

/-- What the shell does with its pool: it parses a line, and when the commands have
    run it frees them. -/
def shell (n : ℕ) : Transition.System (CmdBuf n) (List UInt8) where
  init := Set.range initCmdSlots
  step line b :=
    match (parse line >>= freeCmdChain) b with
    | .ok _ b => some b
    | .error _ _ => none

/-- When a line is read, all the slots are free, and initialised. -/
theorem ready_of_reach (h : Transition.Reach (shell n) Transition.free b) : Ready b ∧ b.count = n := by
  refine h.invariant (I := fun b => Ready b ∧ b.count = n) ?_ ?_
  · rintro _ ⟨slots, rfl⟩
    exact ⟨⟨le_refl n, fun _ _ => rfl⟩, rfl⟩
  · rintro b₀ b₁ line ⟨hb, hcount⟩ - hstep
    dsimp only [shell] at hstep
    split at hstep
    case h_2 => cases hstep
    case h_1 hrun =>
      cases hstep
      obtain ⟨head, b₂, hparse, hfree⟩ := bind_eq_ok.1 hrun
      obtain ⟨l, hl, hlen⟩ := hb.parse_freeable hparse
      have hle : l.length ≤ n := Nat.le_of_add_left_le hl.count
      obtain ⟨b₃, hrun', hready, hcount'⟩ := freeCmdLoop_ready head hle hl
      rw [freeCmdChain, hrun'] at hfree
      cases hfree
      exact ⟨hready, by omega⟩

/-- Within the limits of its tables, the shell makes of a line a chain with one
    command for each segment, in order, and the arguments of each are the words of
    its segment, as C strings in its own buffer, with a null pointer behind them. -/
theorem parse_words (line : List UInt8) (h : Transition.Reach (shell n) Transition.free b)
    (hlen : line.length ≤ cmdBufSize - 1) (h0 : 0 ∉ line) (hslots : (line.splitOn bar).length ≤ b.count)
    (hargs : ∀ seg ∈ line.splitOn bar, (words space seg).length ≤ argvBufSize - 1) :
    ∃ l b', parse line b = .ok l.head? b' ∧ Chain b' l.head? l ∧ l.Nodup ∧
      List.Forall₂ (HasArgs b') l ((line.splitOn bar).map (words space)) :=
  (ready_of_reach h).1.parse (Nat.lt_of_le_pred (by decide) hlen) h0 hslots fun seg hseg =>
    Nat.lt_of_le_pred (by decide) (hargs seg hseg)

/-- `" cat  a b | wc |x"`. -/
def exampleLine : List UInt8 := [32, 99, 97, 116, 32, 32, 97, 32, 98, 32, 124, 32, 119, 99, 32, 124, 120]

theorem exampleLine_parsed :
    ∃ l b', parse exampleLine (initCmdSlots fun _ : Fin 5 => ⟨fun _ => 7, fun _ => none, none⟩) =
      .ok l.head? b' ∧ Chain b' l.head? l ∧ l.Nodup ∧
      List.Forall₂ (HasArgs b') l [[[99, 97, 116], [97], [98]], [[119, 99]], [[120]]] :=
  parse_words exampleLine ⟨_, ⟨_, rfl⟩, .refl⟩ (by decide) (by decide) (by decide) (by decide)

/-! ## Too many words -/

/-- `parse` stores within the arrays of its commands, and makes one of each segment,
    as far as there are free slots, with a null pointer in its arguments. -/
def ParsesSafely (line : List UInt8) (b : CmdBuf n) : Prop :=
  ∃ head b' l, parse line b = .ok head b' ∧ Chain b' head l ∧
    (∀ i ∈ l, ∃ j < argvBufSize, (b'.pool i).args j = none) ∧
    l.length = min b.count (line.splitOn bar).length

/-- A line is parsed safely if and only if no segment that gets a command has as many
    words as the command has arguments. -/
theorem parse_safe_iff (line : List UInt8) (h : Transition.Reach (shell n) Transition.free b)
    (hlen : line.length ≤ cmdBufSize - 1) (h0 : 0 ∉ line) :
    ParsesSafely line b ↔ ∀ seg ∈ (line.splitOn bar).take b.count,
      (words space seg).length ≤ argvBufSize - 1 := by
  rcases (ready_of_reach h).1.parse_result (Nat.lt_of_le_pred (by decide) hlen) h0 with
    ⟨l, b', hrun, hchain, -, hparsed⟩ | ⟨⟨b', herror⟩, seg, hseg, hmany⟩
  · have hlength := hparsed.length_eq
    refine iff_of_true ⟨l.head?, b', l, hrun, hchain, fun i hi => ?_, ?_⟩ fun seg hseg => ?_
    · obtain ⟨j, hj, rfl⟩ := List.getElem_of_mem hi
      have hargs := hparsed.get hj (hlength ▸ hj)
      exact ⟨_, hargs.fits, hargs.null⟩
    · rw [hlength, List.length_map, List.length_take]
    · obtain ⟨j, hj, rfl⟩ := List.getElem_of_mem hseg
      have hargs := hparsed.get (i := j) (by rwa [hlength, List.length_map]) (by rwa [List.length_map])
      have hfits := hargs.fits
      rw [List.get_eq_getElem, List.getElem_map] at hfits
      exact Nat.le_pred_of_lt hfits
  · refine iff_of_false ?_ fun hall => ?_
    · rintro ⟨head, b'', l, hrun, -⟩
      cases herror.symm.trans hrun
    · exact absurd (hall seg hseg) (Nat.not_le_of_lt (Nat.lt_of_lt_of_le (by decide) hmany))

/-- `"a b c d|e"`: the first segment has a word too many. -/
def surplusLine : List UInt8 := [97, 32, 98, 32, 99, 32, 100, 124, 101]

theorem surplusLine_unsafe : ¬∀ (n : ℕ) (b : CmdBuf n) (line : List UInt8),
    Transition.Reach (shell n) Transition.free b → line.length ≤ cmdBufSize - 1 → 0 ∉ line →
    ParsesSafely line b := by
  intro hall
  obtain ⟨head, b', l, hrun, -⟩ :=
    hall 5 (initCmdSlots fun _ => ⟨fun _ => 7, fun _ => none, none⟩) surplusLine
    ⟨_, ⟨_, rfl⟩, .refl⟩ (by decide) (by decide)
  have hfails : value
      (parse surplusLine (initCmdSlots fun _ : Fin 5 => ⟨fun _ => 7, fun _ => none, none⟩)) = none := by
    decide +kernel
  rw [hrun] at hfails
  cases hfails

theorem exampleLine_safe :
    ParsesSafely exampleLine (initCmdSlots fun _ : Fin 5 => ⟨fun _ => 7, fun _ => none, none⟩) :=
  (parse_safe_iff exampleLine ⟨_, ⟨_, rfl⟩, .refl⟩ (by decide) (by decide)).2 (by decide)

end HobbyOs.Shell
