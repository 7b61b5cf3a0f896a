import HobbyOs.Lib.Riscv

/-!
# Interrupts without a trace

Straight code that is interrupted at any points, by a handler that changes only some memory
and some control and status registers that the code does not use.

* `SameBut` and `SameIn`: two harts that are the same but for these, and in these.
* `Spares` and `SparesAll`: an instruction, and straight code, does not use them.
* `Interrupted`: the code runs with interrupts. `Interrupted.sameBut`: what it does is the
  same, and an invariant of the handler holds all the time.
* `Program.Interrupted` and `Program.Interrupted.sameBut`: so for pieces of code with labels.
-/

namespace Riscv

variable {w : ℕ} {C : Type} {A : BitVec w → Prop} {D : C → Prop} {h h' : Hart w C} {i : Instr w C}

/-- The same but for the memory in `A` and the control and status registers in `D`. -/
structure SameBut (A : BitVec w → Prop) (D : C → Prop) (h h' : Hart w C) : Prop where
  get : ∀ r, h'.get r = h.get r
  csrs : ∀ c, ¬D c → h'.csrs c = h.csrs c
  mem : ∀ x, ¬A x → h'.mem x = h.mem x

/-- The same in the memory in `A` and the control and status registers in `D`. -/
structure SameIn (A : BitVec w → Prop) (D : C → Prop) (h h' : Hart w C) : Prop where
  csrs : ∀ c, D c → h'.csrs c = h.csrs c
  mem : ∀ x, A x → h'.mem x = h.mem x

/-- The word at `a` is not in `A`. -/
def OutsideOf (A : BitVec w → Prop) (a : BitVec w) : Prop := ∀ k < w / 8, ¬A (a + BitVec.ofNat w k)

instance [DecidablePred A] (a : BitVec w) : Decidable (OutsideOf A a) :=
  inferInstanceAs (Decidable (∀ k < w / 8, ¬A (a + BitVec.ofNat w k)))

/-- The instruction leaves the memory in `A` and the control and status registers in `D` alone. -/
def Instr.Spares (A : BitVec w → Prop) (D : C → Prop) (h : Hart w C) : Instr w C → Prop
  | .load _ offset base | .store _ offset base => OutsideOf A (h.get base + offset)
  | .csrr _ c | .csrw c _ | .csrwi c _ | .csrrw _ c _ => ¬D c
  | _ => True

/-! ## One instruction -/

theorem SameIn.word (hs : SameIn A D h h') {a : BitVec w} (ha : ∀ k < w / 8, A (a + BitVec.ofNat w k)) :
    h'.word a = h.word a :=
  congrArg (BitVec.ofNat w) (readBytes_congr fun k hk => hs.mem _ (ha k hk))

namespace SameBut

theorem word (hs : SameBut A D h h') {a : BitVec w} (ha : OutsideOf A a) : h'.word a = h.word a :=
  congrArg (BitVec.ofNat w) (readBytes_congr fun k hk => hs.mem _ (ha k hk))

theorem spares (hs : SameBut A D h h') (hi : i.Spares A D h) : i.Spares A D h' := by
  cases i with
  | load rd offset base | store rs offset base => rwa [Instr.Spares, hs.get]
  | _ => exact hi

theorem set (hs : SameBut A D h h') {r : Reg} {v : BitVec w} : SameBut A D (h.set r v) (h'.set r v) where
  get s := by rw [Hart.get_set, Hart.get_set, hs.get]
  csrs c hc := by rw [Hart.csrs_set, Hart.csrs_set, hs.csrs c hc]
  mem x hx := by rw [Hart.mem_set, Hart.mem_set, hs.mem x hx]

theorem setWord (hs : SameBut A D h h') {a v : BitVec w} : SameBut A D (h.setWord a v) (h'.setWord a v) where
  get := hs.get
  csrs := hs.csrs
  mem x hx := by
    simp only [Hart.setWord, writeBytes]
    rw [hs.mem x hx]

theorem setCsr [DecidableEq C] (hs : SameBut A D h h') {legal : C → BitVec w → BitVec w}
    {c : C} {v : BitVec w} :
    SameBut A D (h.setCsr v legal c) (h'.setCsr v legal c) where
  get := hs.get
  csrs d hd := by rw [Hart.csrs_setCsr, Hart.csrs_setCsr, hs.csrs d hd]
  mem := hs.mem

/-- An instruction that does not use them does the same. -/
theorem exec [DecidableEq C] {legal : C → BitVec w → BitVec w}
    (hs : SameBut A D h h') (hi : i.Spares A D h) :
    SameBut A D (h.exec legal i) (h'.exec legal i) := by
  cases i with
  | load rd offset base =>
    rw [Hart.exec, Hart.exec, hs.get, hs.word hi]
    exact hs.set
  | store rs offset base =>
    rw [Hart.exec, Hart.exec, hs.get, hs.get]
    exact hs.setWord
  | csrr rd c =>
    rw [Hart.exec, Hart.exec, hs.csrs c hi]
    exact hs.set
  | csrw c rs =>
    rw [Hart.exec, Hart.exec, hs.get]
    exact hs.setCsr
  | csrwi c v => exact hs.setCsr
  | csrrw rd c rs =>
    rw [Hart.exec, Hart.exec, hs.get, hs.csrs c hi]
    exact hs.setCsr.set
  | sfence => exact hs
  | _ =>
    simp only [Hart.exec, hs.get]
    exact hs.set

end SameBut

/-- A byte of a range of bytes. -/
theorem exists_offset {a x : BitVec w} {n : ℕ} (hx : (x - a).toNat < n) :
    ∃ k < n, x = a + BitVec.ofNat w k :=
  ⟨(x - a).toNat, hx, by rw [BitVec.ofNat_toNat, BitVec.setWidth_eq, add_sub_cancel]⟩

theorem Hart.mem_setWord_of_outside {a v x : BitVec w} (ha : OutsideOf A a) (hx : A x) :
    (h.setWord a v).mem x = h.mem x := by
  refine if_neg fun hlt => ?_
  obtain ⟨k, hk, rfl⟩ := exists_offset hlt
  exact ha k hk hx

variable [DecidableEq C] {legal : C → BitVec w → BitVec w}

/-- An instruction that does not use them does not change them. -/
theorem sameIn_exec (hi : i.Spares A D h) : SameIn A D h (h.exec legal i) := by
  have hcsr : ∀ {c v} d, ¬D c → D d → (h.setCsr v legal c).csrs d = h.csrs d := by
    intro c v d hc hd
    rw [Hart.csrs_setCsr, if_neg]
    rintro rfl
    exact hc hd
  cases i with
  | store rs offset base => exact ⟨fun _ _ => rfl, fun x hx => Hart.mem_setWord_of_outside hi hx⟩
  | csrw c rs => exact ⟨fun d hd => hcsr d hi hd, fun _ _ => rfl⟩
  | csrwi c v => exact ⟨fun d hd => hcsr d hi hd, fun _ _ => rfl⟩
  | csrrw rd c rs =>
    refine ⟨fun d hd => ?_, fun x _ => ?_⟩
    · rw [Hart.exec, Hart.csrs_set]
      exact hcsr d hi hd
    · rw [Hart.exec, Hart.mem_set, Hart.mem_setCsr]
  | _ => exact ⟨fun _ _ => by simp [Hart.exec], fun _ _ => by simp [Hart.exec]⟩

/-! ## Interrupts in between -/

/-- The instructions leave `A` and `D` alone, each when its turn comes. -/
def SparesAll (legal : C → BitVec w → BitVec w) (A : BitVec w → Prop) (D : C → Prop) :
    List (Instr w C) → Hart w C → Prop
  | [], _ => True
  | i :: code, h => i.Spares A D h ∧ SparesAll legal A D code (h.exec legal i)

theorem sparesAll_append {code code' : List (Instr w C)} (hcode : SparesAll legal A D code h)
    (hcode' : SparesAll legal A D code' (h.run legal code)) : SparesAll legal A D (code ++ code') h := by
  induction code generalizing h with
  | nil => exact hcode'
  | cons i code ih => exact ⟨hcode.1, ih hcode.2 hcode'⟩

theorem sparesAll_saves {base : Reg} {l : List (Reg × ℕ)}
    (hl : ∀ x ∈ l, OutsideOf A (h.get base + offset w x.2)) :
    SparesAll legal A D (saves base l) h := by
  induction l generalizing h with
  | nil => trivial
  | cons x l ih => exact ⟨hl x List.mem_cons_self, ih fun y hy => hl y (List.mem_cons_of_mem _ hy)⟩

theorem sparesAll_loads {base : Reg} {l : List (Reg × ℕ)} (hbase : ∀ x ∈ l, x.1 ≠ base)
    (hl : ∀ x ∈ l, OutsideOf A (h.get base + offset w x.2)) : SparesAll legal A D (loads base l) h := by
  induction l generalizing h with
  | nil => trivial
  | cons x l ih =>
    refine ⟨hl x List.mem_cons_self, ih (fun y hy => hbase y (List.mem_cons_of_mem _ hy)) fun y hy => ?_⟩
    have hx : (h.exec legal (.load x.1 (offset w x.2) base)).get base = h.get base := by
      simp [Hart.exec, (hbase x List.mem_cons_self).symm]
    rw [hx]
    exact hl y (List.mem_cons_of_mem _ hy)

/-- The instructions run, with `n` interrupts that `handler` takes, before and after them and
    between any two. -/
inductive Interrupted (legal : C → BitVec w → BitVec w) (handler : Hart w C → Hart w C) :
    ℕ → List (Instr w C) → Hart w C → Hart w C → Prop
  | done {h : Hart w C} : Interrupted legal handler 0 [] h h
  | instr {h h' : Hart w C} {i : Instr w C} {code : List (Instr w C)} {n : ℕ} :
      Interrupted legal handler n code (h.exec legal i) h' → Interrupted legal handler n (i :: code) h h'
  | interrupt {h h' : Hart w C} {code : List (Instr w C)} {n : ℕ} :
      Interrupted legal handler n code (handler h) h' → Interrupted legal handler (n + 1) code h h'

/-- The code runs without interrupts. -/
theorem Interrupted.of_run {handler : Hart w C → Hart w C} {code : List (Instr w C)} :
    Interrupted legal handler 0 code h (h.run legal code) := by
  induction code generalizing h with
  | nil => exact .done
  | cons i code ih => exact .instr ih

/-- Code that does not use what the handler changes does the same with interrupts as without them.
    `I`, with the number of the interrupts so far, is what the handler keeps; it does not depend
    on anything else. -/
theorem Interrupted.sameBut {handler : Hart w C → Hart w C} {I : ℕ → Hart w C → Prop}
    (hhandler : ∀ {m h}, I m h → SameBut A D h (handler h) ∧ I (m + 1) (handler h))
    (hI : ∀ {m h h'}, SameIn A D h h' → I m h → I m h') {code : List (Instr w C)}
    {n : ℕ} {t t' : Hart w C}
    (hint : Interrupted legal handler n code t t') {m : ℕ} (hs : SameBut A D h t) (ht : I m t)
    (hcode : SparesAll legal A D code h) : SameBut A D (h.run legal code) t' ∧ I (m + n) t' := by
  induction hint generalizing h m with
  | done => exact ⟨hs, ht⟩
  | instr _ ih => exact ih (hs.exec hcode.1) (hI (sameIn_exec (hs.spares hcode.1)) ht) hcode.2
  | interrupt _ ih =>
    obtain ⟨hsame, hkept⟩ := hhandler ht
    have hs' : SameBut A D h (handler _) := ⟨fun r => (hsame.get r).trans (hs.get r),
      fun c hc => (hsame.csrs c hc).trans (hs.csrs c hc), fun x hx => (hsame.mem x hx).trans (hs.mem x hx)⟩
    have hrest := ih hs' hkept hcode
    rwa [Nat.add_right_comm] at hrest

/-! ## Programs -/

namespace Program

variable {L : Type} {P : Program w C L} {l l' : L} {n : ℕ}

omit [DecidableEq C] in
/-- Pieces of code go on at the same label. -/
theorem next_sameBut {tail : Tail L} {t t' : Hart w C} (hs : SameBut A D h t)
    (hnext : P.next t tail = some (l, t')) :
    ∃ h', P.next h tail = some (l, h') ∧ SameBut A D h' t' ∧ SameIn A D t t' := by
  cases tail with
  | jr rs =>
    rw [Program.next, hs.get] at hnext
    obtain ⟨l₁, hl, heq⟩ := Option.map_eq_some_iff.1 hnext
    cases heq
    exact ⟨h, by rw [Program.next, hl, Option.map_some], hs, fun _ _ => rfl, fun _ _ => rfl⟩
  | jalr rs next =>
    rw [Program.next, hs.get] at hnext
    obtain ⟨l₁, hl, heq⟩ := Option.map_eq_some_iff.1 hnext
    cases heq
    exact ⟨_, by rw [Program.next, hl, Option.map_some], hs.set, fun _ _ => by simp, fun _ _ => by simp⟩
  | _ =>
    simp only [Program.next, hs.get, Option.some.injEq, Prod.mk.injEq] at hnext ⊢
    obtain ⟨rfl, rfl⟩ := hnext
    exact ⟨h, ⟨rfl, rfl⟩, hs, fun _ _ => rfl, fun _ _ => rfl⟩

/-- The pieces of code from the label `l` on leave `A` and `D` alone, as far as `n` of them. -/
def SparesRun (P : Program w C L) (legal : C → BitVec w → BitVec w)
    (A : BitVec w → Prop) (D : C → Prop) :
    ℕ → L → Hart w C → Prop
  | 0, _, _ => True
  | n + 1, l, h => ∀ b ∈ P.block l, SparesAll legal A D b.code h ∧
      ∀ x ∈ P.next (h.run legal b.code) b.tail, SparesRun P legal A D n x.1 x.2

/-- The code at the label `l` runs until it gets to a label without code, with `n` interrupts that
    `handler` takes, at any points up to there. -/
inductive Interrupted (P : Program w C L) (legal : C → BitVec w → BitVec w)
    (handler : Hart w C → Hart w C) :
    ℕ → L → Hart w C → L → Hart w C → Prop
  | stop {l : L} {h h' : Hart w C} {n : ℕ} :
      P.block l = none → Riscv.Interrupted legal handler n [] h h' →
      Interrupted P legal handler n l h l h'
  | block {l l₁ l' : L} {h h₁ h₂ h' : Hart w C} {b : Block w C L} {n m : ℕ} : P.block l = some b →
      Riscv.Interrupted legal handler n b.code h h₁ → P.next h₁ b.tail = some (l₁, h₂) →
      Interrupted P legal handler m l₁ h₂ l' h' → Interrupted P legal handler (n + m) l h l' h'

/-- The code runs without interrupts. -/
theorem Interrupted.of_run {handler : Hart w C → Hart w C} (hrun : P.run legal n l h = some (l', h')) :
    P.Interrupted legal handler 0 l h l' h' := by
  induction n generalizing l h with
  | zero => cases hrun
  | succ n ih =>
    cases hl : P.block l with
    | none =>
      rw [run_of_none hl] at hrun
      cases hrun
      exact .stop hl .done
    | some b =>
      rw [run, hl] at hrun
      obtain ⟨⟨l₁, h₁⟩, hnext, hrun⟩ := Option.bind_eq_some_iff.1 hrun
      exact .block hl .of_run hnext (ih hrun)

/-- An interrupt comes first. -/
theorem Interrupted.interrupt {handler : Hart w C → Hart w C}
    (hint : P.Interrupted legal handler n l (handler h) l' h') :
    P.Interrupted legal handler (n + 1) l h l' h' := by
  cases hint with
  | stop hl hint => exact .stop hl (.interrupt hint)
  | @block _ _ _ _ _ _ _ _ n m hl hint hnext hrest =>
    rw [Nat.add_right_comm]
    exact .block hl (.interrupt hint) hnext hrest

/-- A program that does not use what the handler changes gets to the same label, with and without
    interrupts, and does the same on its way. -/
theorem Interrupted.sameBut {handler : Hart w C → Hart w C} {I : ℕ → Hart w C → Prop}
    (hhandler : ∀ {m h}, I m h → SameBut A D h (handler h) ∧ I (m + 1) (handler h))
    (hI : ∀ {m h h'}, SameIn A D h h' → I m h → I m h') {t t' : Hart w C}
    (hint : P.Interrupted legal handler n l t l' t') {m N : ℕ} (hs : SameBut A D h t) (ht : I m t)
    (hcode : P.SparesRun legal A D N l h) {l₁ : L} (hrun : P.run legal N l h = some (l₁, h')) :
    l' = l₁ ∧ SameBut A D h' t' ∧ I (m + n) t' := by
  induction hint generalizing h m N with
  | stop hl hint =>
    obtain ⟨hsame, hkept⟩ := hint.sameBut (I := I) hhandler hI hs ht (trivial : SparesAll legal A D [] h)
    cases N with
    | zero => cases hrun
    | succ N =>
      rw [run_of_none hl] at hrun
      cases hrun
      exact ⟨rfl, hsame, hkept⟩
  | @block l _ _ _ _ _ _ b n m' hl hint hnext _ ih =>
    cases N with
    | zero => cases hrun
    | succ N =>
      obtain ⟨hspares, hrest⟩ := hcode b hl
      obtain ⟨hsame, hkept⟩ := hint.sameBut (I := I) hhandler hI hs ht hspares
      obtain ⟨h₂, hnext', hsame₂, hin⟩ := next_sameBut hsame hnext
      rw [run_of_next hl hnext'] at hrun
      have hend := ih hsame₂ (hI hin hkept) (hrest _ hnext') hrun
      rwa [Nat.add_assoc] at hend

end Program

end Riscv
