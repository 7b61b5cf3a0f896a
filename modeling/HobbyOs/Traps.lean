import HobbyOs.Lib.Riscv
import HobbyOs.Lib.Transition
import HobbyOs.Machine
import Mathlib.Data.Fintype.Fin

/-!
# Into the kernel and back

The code in assembly by which a trap gets to the kernel (`trap_vector`, `boot.S`), and by
which the kernel goes back to what the trap has interrupted (`ret_to_user`, `context.S`).

* `program`: this code, for a `Layout` of the data and the tables it refers to, up to the
  functions in C and the loops it leads to.
* `hartSystem`: a hart under any code. What may be interrupted, a process or the idle loop of
  the scheduler, leaves any words in registers and memory; so does the kernel, and no code
  but this one writes the register that points to `trap_frame` (`REG_SCRATCH`). The kernel
  goes back by `ret_to_user`, or gets to the idle loop itself.
* `frameSystem`: what the code is for. A trap puts the registers of what it interrupts in a
  frame and leads to the function for its cause, and the kernel goes back to the frame that
  it has filled in, unless it idles.
* `traps_refine`: the first does what the second says, in every run. `trap_of_step` and
  `outcome_of_step`: so do the `trap` and the `outcome` of the machine.
-/

namespace HobbyOs.Asm

open Riscv Transition

variable {w : ℕ}

/-! ## The code -/

/-- The control and status registers: those of the mode in which the kernel runs (`REG_SCRATCH`, `REG_EPC`,
    `REG_CAUSE`, `satp`), and two of M-mode. -/
inductive Csr
  | scratch
  | epc
  | cause
  | satp
  | mscratch
  | mip
  deriving DecidableEq

/-- The lowest bit of `REG_EPC` is always zero. -/
def evenWord (v : BitVec w) : BitVec w := v &&& ~~~1#w

/-- What a control and status register holds after a word has been written to it. -/
def legal : Csr → BitVec w → BitVec w
  | .epc, v => evenWord v
  | _, v => v

/-- The registers that the code names. -/
abbrev ra : Reg := 1#5
abbrev sp : Reg := 2#5
abbrev tp : Reg := 4#5
abbrev t0 : Reg := 5#5
abbrev t1 : Reg := 6#5
abbrev t2 : Reg := 7#5
abbrev t3 : Reg := 28#5
abbrev a0 : Reg := 10#5
abbrev a1 : Reg := 11#5
abbrev t6 : Reg := 31#5

/-- The register of the `i`-th word of a frame: all but `x0` have one. -/
def regOf (i : Fin 31) : Reg := BitVec.ofNat 5 (i + 1)

/-- The places in the code, and the functions that it leads to. -/
inductive Label
  | trapVector
  /-- After the branch to `set_global_stack`. -/
  | procStack
  | setGlobalStack
  | stackDone
  /-- After the branch to `exception_dispatch`. -/
  | takeInterrupt
  | interruptVector (i : Fin 12)
  | exceptionVector (i : Fin 17)
  | exceptionDispatch
  /-- After the branch to `exception_epilogue`. -/
  | takeException
  | kInterruptTimer
  | kInterruptPlic
  | interruptNoop
  | interruptTimer
  | syscallDispatch
  | exception
  | exceptionEpilogue
  /-- `call kinit`, at boot. -/
  | kinit
  | retToUser
  /-- `OP_xRET`. -/
  | xRet
  deriving DecidableEq

/-- Where the linker has put what the code refers to. -/
structure Layout (w : ℕ) where
  trapFrame : BitVec w
  /-- `paged_memory`, of which `ksatp` is the first word. -/
  pagedMemory : BitVec w
  cpus : BitVec w
  ramStart : BitVec w
  /-- `interrupt_vector`; `exception_vector` follows it. -/
  vectors : BitVec w
  /-- `CONFIG_MMU`. -/
  mmu : Bool
  /-- `HAS_S_MODE`. -/
  sMode : Bool
  bytes : 8 ∣ w
  frame_fits : 32 * (w / 8) ≤ 2 ^ w
  vectors_fit : vectors.toNat + 4 * (12 + 17) < 2 ^ w

/-- The entries of `interrupt_vector`. -/
def interruptEntry (i : Fin 12) : Label :=
  match i.val with
  | 0 => .exceptionDispatch
  | 1 | 5 | 7 => .kInterruptTimer
  | 9 | 11 => .kInterruptPlic
  | 4 => .interruptTimer
  | _ => .interruptNoop

/-- The entries of `exception_vector`. -/
def exceptionEntry (i : Fin 17) : Label :=
  match i.val with
  | 8 | 9 | 11 => .syscallDispatch
  | _ => .exception

namespace Layout

variable (K : Layout w)

/-- `exception_vector` and `exception_vector_end`. -/
def exceptionVector : BitVec w := K.vectors + BitVec.ofNat w (4 * 12)
def exceptionVectorEnd : BitVec w := K.vectors + BitVec.ofNat w (4 * (12 + 17))

/-- The registers `x1` to `x30`, with their words in `trap_frame`. -/
def saved : List (Reg × ℕ) := (List.finRange 30).map fun i => (regOf i.castSucc, i.val)

/-- `trap_vector`, up to the branch to `set_global_stack`. -/
def trapVectorCode : List (Instr w Csr) :=
  [.csrrw t6 .scratch t6] ++ saves t6 saved ++
    [.mv t0 t6, .csrrw t6 .scratch t6, .store t6 (offset w 30) t0] ++
    (if K.mmu then [.li t6 K.pagedMemory, .load t6 (offset w 0) t6, .csrw .satp t6, .sfence] else []) ++
    [.csrr t6 .epc, .store t6 (offset w 31) t0, .li t0 K.cpus, .mv t1 tp, .li t2 (offset w 15), .mul t2 t2 t1,
      .add t0 t0 t2, .load t0 (offset w 0) t0]

/-- `ret_to_user`, up to `OP_xRET`. -/
def retToUserCode : List (Instr w Csr) :=
  (if K.mmu then [.csrw .satp a0, .sfence] else []) ++
    [.li t6 K.trapFrame, .load t0 (offset w 31) t6, .csrw .epc t0, .load t6 (offset w 30) t6,
      .csrrw t6 .scratch t6] ++ loads t6 saved ++ [.csrrw t6 .scratch t6]

/-- The code at a label. -/
def block : Label → Option (Block w Csr Label)
  | .trapVector => some ⟨K.trapVectorCode, .beqz t0 .setGlobalStack .procStack⟩
  | .procStack => some ⟨[.load sp (offset w 2) t0], .j .stackDone⟩
  | .setGlobalStack =>
    some ⟨[.li t0 K.ramStart, .mv t1 tp, .addi t1 t1 1, .li t2 512, .mul t1 t1 t2, .add t0 t0 t1, .mv sp t0],
      .j .stackDone⟩
  | .stackDone => some ⟨[.csrr t0 .cause], .bgez t0 .exceptionDispatch .takeInterrupt⟩
  | .takeInterrupt =>
    some ⟨[.slli t0 t0 2, .li t1 K.vectors, .add t0 t1 t0], .jalr t0 (.interruptVector 0)⟩
  | .interruptVector i => some ⟨[], .j (interruptEntry i)⟩
  | .exceptionVector i => some ⟨[], .j (exceptionEntry i)⟩
  | .exceptionDispatch =>
    some
      ⟨[.li t0 K.exceptionVector, .csrr t1 .cause, .slli t1 t1 2, .add t0 t0 t1, .li t1 K.exceptionVectorEnd],
      .bgeu t0 t1 .exceptionEpilogue .takeException⟩
  | .takeException => some ⟨[], .jr t0⟩
  | .retToUser => some ⟨K.retToUserCode, .j .xRet⟩
  | _ => none

/-- The entry of the tables that is at an address. -/
def label (a : BitVec w) : Option Label :=
  let d := (a - K.vectors).toNat
  if h : d / 4 < 12 then if d % 4 = 0 then some (.interruptVector ⟨d / 4, h⟩) else none
  else if h : d / 4 - 12 < 17 then if d % 4 = 0 then some (.exceptionVector ⟨d / 4 - 12, h⟩) else none
  else none

/-- The code, with the addresses that it uses itself. -/
def program : Program w Csr Label where
  block := K.block
  addr
    | .interruptVector i => K.vectors + BitVec.ofNat w (4 * i)
    | .exceptionVector i => K.exceptionVector + BitVec.ofNat w (4 * i)
    | _ => 0
  label := K.label

end Layout

/-! ## The hart -/

/-- `trap_frame_t`. -/
@[ext]
structure Frame (w : ℕ) where
  regs : Fin 31 → BitVec w
  pc : BitVec w

/-- The frame, with a program counter that `REG_EPC` can hold. -/
def Frame.even (f : Frame w) : Frame w := { f with pc := evenWord f.pc }

/-- The frame in memory at an address. -/
def frameAt (h : Hart w Csr) (a : BitVec w) : Frame w where
  regs i := h.word (a + offset w i)
  pc := h.word (a + offset w 31)

/-- The registers and the program counter of a hart. -/
def frameOf (h : Hart w Csr) (pc : BitVec w) : Frame w where
  regs i := h.get (regOf i)
  pc := pc

/-- Why there is a trap. -/
inductive Cause
  | interrupt (n : Fin 12)
  | exception (n : Fin 16)
  deriving DecidableEq

namespace Cause

/-- `REG_CAUSE`. -/
def word : Cause → BitVec w
  | .interrupt n => BitVec.ofNat w (2 ^ (w - 1) + n)
  | .exception n => BitVec.ofNat w n

/-- An exception may always happen, and an interrupt if `set_interrupt_enable_bits` has enabled
    it: that of the timer and the external ones of the mode in which the kernel runs, and the
    software interrupt of S-mode. -/
def enabled (sMode : Bool) : Cause → Bool
  | .interrupt n => if sMode then n ∈ [5, 9, 1] else n ∈ [7, 11]
  | .exception _ => true

/-- The function for a trap: external interrupts, the timer (also when M-mode or the kernel itself
    sends its interrupt on), system calls from each mode, and faults. -/
def handler : Cause → Label
  | .interrupt n => if n = 9 ∨ n = 11 then .kInterruptPlic else .kInterruptTimer
  | .exception n => if n = 8 ∨ n = 9 ∨ n = 11 then .syscallDispatch else .exception

end Cause

/-- The functions of the kernel that go back by `ret_to_user`. -/
def Label.returns : Label → Bool
  | .kInterruptTimer | .kInterruptPlic | .syscallDispatch | .kinit => true
  | _ => false

/-- What the hart executes. -/
inductive Place
  /-- What may be interrupted. -/
  | running
  | kernel (l : Label)
  deriving DecidableEq

/-- A hart; the program counter is that of what may be interrupted. -/
structure Cpu (w : ℕ) where
  hart : Hart w Csr
  pc : BitVec w
  place : Place

/-- What may happen to a hart. -/
inductive Move (w : ℕ)
  /-- What may be interrupted runs: it leaves these registers and this memory. -/
  | exec (regs : Reg → BitVec w) (pc : BitVec w) (mem : BitVec w → BitVec 8)
  | trap (c : Cause)
  /-- The kernel runs, up to `ret_to_user`. -/
  | kernel (regs : Reg → BitVec w) (csrs : Csr → BitVec w) (mem : BitVec w → BitVec 8)
  /-- The kernel runs, and finds nothing to run: `sleep_scheduler` enables the interrupts, and
      `soft_park_hart` loops. -/
  | sleep (regs : Reg → BitVec w) (pc : BitVec w) (csrs : Csr → BitVec w) (mem : BitVec w → BitVec 8)

/-- What the hart does by itself at a trap. -/
def takeTrap (h : Hart w Csr) (pc : BitVec w) (c : Cause) : Hart w Csr :=
  { h with csrs := Function.update (Function.update h.csrs .epc (evenWord pc)) .cause c.word }

/-- A step of the hart. -/
def Cpu.step (K : Layout w) (e : Move w) (s : Cpu w) : Option (Cpu w) :=
  match e, s.place with
  | .exec regs pc mem, .running =>
    some { s with hart := { s.hart with regs := regs, mem := mem }, pc := evenWord pc }
  | .trap c, .running =>
    if c.enabled K.sMode then
      (K.program.run legal 8 .trapVector (takeTrap s.hart s.pc c)).map fun x => ⟨x.2, s.pc, .kernel x.1⟩
    else none
  | .kernel regs csrs mem, .kernel l =>
    if l.returns then
      (K.program.run legal 8 .retToUser
          ⟨regs, Function.update csrs .scratch (s.hart.csrs .scratch), mem⟩).map fun x =>
        ⟨x.2, x.2.csrs .epc, .running⟩
    else none
  | .sleep regs pc csrs mem, .kernel l =>
    if l.returns then
      some ⟨⟨regs, Function.update csrs .scratch (s.hart.csrs .scratch), mem⟩, evenWord pc, .running⟩
    else none
  | _, _ => none

/-- The hart is ready for a trap: `REG_SCRATCH` points to `trap_frame`, as `init_trap_vector` has set it. -/
structure Ready (K : Layout w) (s : Cpu w) : Prop where
  scratch : s.hart.csrs .scratch = K.trapFrame
  even : evenWord s.pc = s.pc

/-- The hart, with this code. -/
def hartSystem (K : Layout w) : System (Cpu w) (Move w) where
  init := {s | Ready K s}
  step := Cpu.step K

/-! ## Frames -/

/-- What runs, with its registers; and in the kernel, those of what the trap has interrupted. -/
inductive Framed (w : ℕ)
  | running (f : Frame w)
  | kernel (l : Label) (f : Frame w)

/-- What may happen to it. -/
inductive FrameMove (w : ℕ)
  | exec (f : Frame w)
  | trap (c : Cause)
  | kernel (f : Frame w)
  /-- The kernel idles. -/
  | sleep (f : Frame w)

/-- A step. -/
def Framed.step (sMode : Bool) : FrameMove w → Framed w → Option (Framed w)
  | .exec f, .running _ => some (.running f.even)
  | .trap c, .running f => if c.enabled sMode then some (.kernel c.handler f) else none
  | .kernel f, .kernel l _ | .sleep f, .kernel l _ => if l.returns then some (.running f.even) else none
  | _, _ => none

/-- What traps are for. -/
def frameSystem (w : ℕ) (sMode : Bool) : System (Framed w) (FrameMove w) where
  init := Set.univ
  step := Framed.step sMode

/-- What a hart shows of it. -/
def Cpu.framed (K : Layout w) (s : Cpu w) : Framed w :=
  match s.place with
  | .running => .running (frameOf s.hart s.pc)
  | .kernel l => .kernel l (frameAt s.hart K.trapFrame)

/-- What a move of a hart shows of it. -/
def Move.framed (K : Layout w) : Move w → FrameMove w
  | .exec regs pc mem => .exec (frameOf ⟨regs, fun _ => 0, mem⟩ pc)
  | .trap c => .trap c
  | .kernel regs csrs mem => .kernel (frameAt ⟨regs, csrs, mem⟩ K.trapFrame)
  | .sleep regs pc csrs mem => .sleep (frameOf ⟨regs, csrs, mem⟩ pc)

/-! ## What the code does -/

theorem evenWord_evenWord {v : BitVec w} : evenWord (evenWord v) = evenWord v := by
  rw [evenWord, evenWord, BitVec.and_assoc, BitVec.and_self]

section

variable {K : Layout w} {h : Hart w Csr}

theorem get_saved {i : Fin 30} : (regOf i.castSucc, i.val) ∈ Layout.saved :=
  List.mem_map_of_mem (List.mem_finRange i)

theorem saved_ne_t6 : ∀ i : Fin 30, regOf i.castSucc ≠ t6 := by decide

theorem Layout.apart (K : Layout w) {i j : ℕ} (hi : i < 32) (hj : j < 32) (hij : i ≠ j) :
    Apart (K.trapFrame + offset w i) (w / 8) (K.trapFrame + offset w j) (w / 8) :=
  apart_offset K.frame_fits hi hj hij

/-- The first `n` registers are in `trap_frame`, and the causes of the trap are as before. -/
structure Saved (K : Layout w) (h h' : Hart w Csr) (n : ℕ) : Prop where
  words : ∀ i : Fin 31, i < n → h'.word (K.trapFrame + offset w i) = h.get (regOf i)
  epc : h'.csrs .epc = h.csrs .epc
  cause : h'.csrs .cause = h.csrs .cause

/-- The registers are saved, but for `t6`, which is in `REG_SCRATCH` then. -/
theorem run_saved (hscratch : h.csrs .scratch = K.trapFrame) {h' : Hart w Csr}
    (hh' : h' = h.run legal ([.csrrw t6 .scratch t6] ++ saves t6 Layout.saved)) :
    Saved K h h' 30 ∧ h'.get t6 = K.trapFrame ∧ h'.csrs .scratch = h.get t6 := by
  rw [Hart.run_append] at hh'
  set h₁ := h.run legal [.csrrw t6 .scratch t6] with hh₁
  have ht6 : h₁.get t6 = K.trapFrame := by simp [hh₁, Hart.exec, hscratch, t6]
  obtain ⟨hget, hcsrs⟩ := get_run_saves h₁ legal t6 Layout.saved
  rw [← hh'] at hget hcsrs
  refine ⟨⟨fun i hi => ?_, ?_, ?_⟩, ?_, ?_⟩
  · have hword := word_run_saves_of_mem h₁ legal t6 K.bytes K.frame_fits (by decide)
      (by decide) (get_saved (i := ⟨i, hi⟩))
    rw [ht6, ← hh'] at hword
    have hne : regOf i ≠ t6 := saved_ne_t6 ⟨i, hi⟩
    exact hword.trans (by simp [hh₁, Hart.exec, hne])
  · simp [hcsrs, hh₁, Hart.exec]
  · simp [hcsrs, hh₁, Hart.exec]
  · rw [hget, ht6]
  · simp [hcsrs, hh₁, Hart.exec, legal]

/-- Then `t6` is saved too, and `REG_SCRATCH` points to `trap_frame` again. -/
theorem run_saved_t6 {h₀ : Hart w Csr} (hs : Saved K h₀ h 30) (ht6 : h.get t6 = K.trapFrame)
    (hscratch : h.csrs .scratch = h₀.get t6) {h' : Hart w Csr}
    (hh' : h' = h.run legal [.mv t0 t6, .csrrw t6 .scratch t6, .store t6 (offset w 30) t0]) :
    Saved K h₀ h' 31 ∧ h'.get t0 = K.trapFrame ∧ h'.csrs .scratch = K.trapFrame := by
  have hword : ∀ a, h'.word a = (h.setWord (K.trapFrame + offset w 30) (h₀.get t6)).word a := by
    intro a
    simp [hh', Hart.exec, Hart.word, Hart.setWord, ht6, hscratch, t0, t6]
  refine ⟨⟨fun i _ => ?_, ?_, ?_⟩, ?_, ?_⟩
  · rw [hword]
    rcases Nat.lt_or_ge i 30 with hi | hi
    · rw [Hart.word_setWord_of_apart (K.apart (by decide) (by omega) (by omega)), hs.words i hi]
    · obtain rfl : i = 30 := by omega
      exact Hart.word_setWord K.bytes
  · simp [hh', Hart.exec, hs.epc]
  · simp [hh', Hart.exec, hs.cause]
  · simp [hh', Hart.exec, ht6, t0, t6]
  · simp [hh', Hart.exec, ht6, t0, t6, legal]

/-- `trap_vector`, up to the first branch: the registers are in `trap_frame`, and `REG_SCRATCH`
    points to it again. -/
theorem run_trapVectorCode (hscratch : h.csrs .scratch = K.trapFrame) {h' : Hart w Csr}
    (hh' : h' = h.run legal K.trapVectorCode) :
    frameAt h' K.trapFrame = frameOf h (h.csrs .epc) ∧ h'.csrs .scratch = K.trapFrame ∧
      h'.csrs .cause = h.csrs .cause := by
  rw [Layout.trapVectorCode, Hart.run_append, Hart.run_append, Hart.run_append] at hh'
  obtain ⟨hsaved, ht6, ht6'⟩ := run_saved hscratch rfl
  obtain ⟨hsaved, ht0, hscratch'⟩ := run_saved_t6 hsaved ht6 ht6' rfl
  set h₁ := (h.run legal ([.csrrw t6 .scratch t6] ++ saves t6 Layout.saved)).run legal
    [.mv t0 t6, .csrrw t6 .scratch t6, .store t6 (offset w 30) t0]
  -- `satp` does not matter for the words.
  set h₂ := h₁.run legal
    (if K.mmu then [.li t6 K.pagedMemory, .load t6 (offset w 0) t6, .csrw .satp t6, .sfence] else [])
    with hh₂
  have hword₂ : h₂.mem = h₁.mem := by
    rw [hh₂]
    split <;> simp [Hart.exec]
  have ht0₂ : h₂.get t0 = h₁.get t0 := by
    rw [hh₂]
    split <;> simp [Hart.exec, t0, t6]
  have hcsrs₂ : ∀ c, c ≠ .satp → h₂.csrs c = h₁.csrs c := by
    intro c hc
    rw [hh₂]
    split <;> simp [Hart.exec, hc]
  have hword : ∀ a, h'.word a = (h₂.setWord (K.trapFrame + offset w 31) (h.csrs .epc)).word a := by
    intro a
    simp [hh', Hart.exec, Hart.word, Hart.setWord, ht0₂, ht0, hcsrs₂, hsaved.epc, t0, t6]
  refine ⟨?_, ?_, ?_⟩
  · refine Frame.ext (funext fun i => ?_) ?_
    · have hi := hsaved.words i i.isLt
      rw [Hart.word, ← hword₂, ← Hart.word] at hi
      exact (hword _).trans ((Hart.word_setWord_of_apart (K.apart (by decide) (by omega) (by omega))).trans hi)
    · exact (hword _).trans (Hart.word_setWord K.bytes)
  · simp [hh', Hart.exec, hcsrs₂, hscratch']
  · simp [hh', Hart.exec, hcsrs₂, hsaved.cause]

end

/-! ## Where a trap leads -/

section

variable {K : Layout w} {h : Hart w Csr}

/-- Code that changes neither the memory nor control and status registers. -/
structure Quiet (h h' : Hart w Csr) : Prop where
  mem : h'.mem = h.mem
  csrs : h'.csrs = h.csrs

theorem Layout.label_vectors {K : Layout w} (i : Fin 12) :
    K.label (K.vectors + BitVec.ofNat w (4 * i)) = some (.interruptVector i) := by
  have hfit := K.vectors_fit
  have hd : 4 * i.val % 2 ^ w = 4 * i := Nat.mod_eq_of_lt (by omega)
  simp [label, hd]

theorem Layout.label_exceptionVector {K : Layout w} (i : Fin 17) :
    K.label (K.exceptionVector + BitVec.ofNat w (4 * i)) = some (.exceptionVector i) := by
  have hfit := K.vectors_fit
  have hd : (K.exceptionVector + BitVec.ofNat w (4 * i) - K.vectors).toNat = 4 * (12 + i) := by
    rw [exceptionVector, BitVec.add_assoc, BitVec.ofNat_add_ofNat, BitVec.add_comm, BitVec.add_sub_cancel,
      BitVec.toNat_ofNat, Nat.mod_eq_of_lt (by omega)]
    omega
  simp [label, hd]

theorem exceptionEntry_eq : ∀ n : Fin 16, exceptionEntry n.castSucc = (Cause.exception n).handler := by decide

theorem interruptEntry_eq : ∀ (sMode : Bool) (n : Fin 12), (Cause.interrupt n).enabled sMode →
    interruptEntry n = (Cause.interrupt n).handler := by
  decide

/-- There is no code of this part at the function for a trap. -/
theorem block_handler {c : Cause} : K.block c.handler = none := by
  cases c <;> rw [Cause.handler] <;> split <;> rfl

/-- `exception_dispatch` leads to the function for an exception. -/
theorem run_exceptionDispatch {n : Fin 16} {m : ℕ} (hcause : h.csrs .cause = (Cause.exception n).word) :
    ∃ h', K.program.run legal (m + 4) .exceptionDispatch h = some ((Cause.exception n).handler, h') ∧
    Quiet h h' := by
  have hfit := K.vectors_fit
  have hn := n.isLt
  have hshift : (BitVec.ofNat w n <<< 2 : BitVec w) = BitVec.ofNat w (4 * n) := by
    refine BitVec.eq_of_toNat_eq ?_
    rw [BitVec.toNat_shiftLeft, BitVec.toNat_ofNat, BitVec.toNat_ofNat,
      Nat.mod_eq_of_lt (a := n.val) (by omega),
      Nat.shiftLeft_eq, Nat.mul_comm]
  -- The entry is within the table.
  have hlt : K.exceptionVector + BitVec.ofNat w (4 * n) < K.exceptionVectorEnd := by
    rw [BitVec.lt_def, Layout.exceptionVector, Layout.exceptionVectorEnd,
      BitVec.add_assoc, BitVec.ofNat_add_ofNat,
      BitVec.toNat_add, BitVec.toNat_add, BitVec.toNat_ofNat, BitVec.toNat_ofNat,
      Nat.mod_eq_of_lt (a := 4 * 12 + 4 * n.val) (by omega), Nat.mod_eq_of_lt (a := 4 * (12 + 17)) (by omega),
      Nat.mod_eq_of_lt (by omega), Nat.mod_eq_of_lt (by omega)]
    omega
  have hentry := K.label_exceptionVector n.castSucc
  rw [Fin.val_castSucc] at hentry
  set h₁ := h.run legal
    [.li t0 K.exceptionVector, .csrr t1 .cause, .slli t1 t1 2, .add t0 t0 t1,
      .li t1 K.exceptionVectorEnd] with hh₁
  have ht0 : h₁.get t0 = K.exceptionVector + BitVec.ofNat w (4 * n) := by
    simp [hh₁, Hart.exec, hcause, Cause.word, hshift, t0, t1]
  have ht1 : h₁.get t1 = K.exceptionVectorEnd := by simp [hh₁, Hart.exec, t1]
  have hdispatch : K.program.next h₁ (.bgeu t0 t1 .exceptionEpilogue .takeException) =
      some (.takeException, h₁) := by
    rw [Program.next, ht0, ht1, if_pos hlt]
  have hjump : K.program.next h₁ (.jr t0) = some (.exceptionVector n.castSucc, h₁) := by
    rw [Program.next, ht0]
    exact congrArg (Option.map fun l => (l, h₁)) hentry
  have hvector : K.program.next h₁ (.j (exceptionEntry n.castSucc)) =
      some ((Cause.exception n).handler, h₁) := by
    rw [Program.next, exceptionEntry_eq]
  refine ⟨h₁, ?_, by simp [hh₁, Hart.exec], by simp [hh₁, Hart.exec]⟩
  rw [Program.run_of_next rfl hdispatch, Program.run_of_next rfl hjump, Program.run_of_next rfl hvector,
    Program.run_of_none block_handler]

/-- A register has at least 8 bits. -/
theorem Layout.pow_eq (K : Layout w) : 2 ^ w = 2 * 2 ^ (w - 1) ∧ 128 ≤ 2 ^ (w - 1) := by
  have hfit := K.vectors_fit
  have hpos : 0 < w := by
    by_contra h0
    obtain rfl : w = 0 := by omega
    omega
  have hle : 8 ≤ w := Nat.le_of_dvd hpos K.bytes
  refine ⟨?_, Nat.pow_le_pow_right (n := 2) (by decide) (show 7 ≤ w - 1 by omega)⟩
  rw [← Nat.pow_succ', Nat.succ_eq_add_one, Nat.sub_add_cancel hpos]

/-- The top bit of the cause says whether it is an interrupt. -/
theorem Layout.msb_word (K : Layout w) (c : Cause) :
    (c.word : BitVec w).msb = match c with | .interrupt _ => true | .exception _ => false := by
  obtain ⟨hpow, hle⟩ := K.pow_eq
  rw [BitVec.msb_eq_decide]
  cases c with
  | interrupt n =>
    exact decide_eq_true (by rw [Cause.word, BitVec.toNat_ofNat, Nat.mod_eq_of_lt (by omega)]; omega)
  | exception n =>
    exact decide_eq_false (by rw [Cause.word, BitVec.toNat_ofNat, Nat.mod_eq_of_lt (by omega)]; omega)

/-- `slli` clears the top bit, and takes four bytes for each entry. -/
theorem Layout.shift_word (K : Layout w) {n : Fin 12} :
    ((Cause.interrupt n).word <<< 2 : BitVec w) = BitVec.ofNat w (4 * n) := by
  obtain ⟨hpow, hle⟩ := K.pow_eq
  refine BitVec.eq_of_toNat_eq ?_
  rw [BitVec.toNat_shiftLeft, Cause.word, BitVec.toNat_ofNat, BitVec.toNat_ofNat,
    Nat.mod_eq_of_lt (a := 2 ^ (w - 1) + n.val) (by omega), Nat.shiftLeft_eq,
    show (2 ^ (w - 1) + n.val) * 2 ^ 2 = 4 * n.val + 2 ^ w * 2 by omega, Nat.add_mul_mod_self_left]

/-- After `stack_done`: the function for the cause. -/
theorem run_stackDone {c : Cause} {m : ℕ} (hc : c.enabled K.sMode) (hcause : h.csrs .cause = c.word) :
    ∃ h', K.program.run legal (m + 5) .stackDone h = some (c.handler, h') ∧ Quiet h h' := by
  set h₁ := h.run legal [.csrr t0 .cause] with hh₁
  have ht0 : h₁.get t0 = c.word := by simp [hh₁, Hart.exec, hcause, t0]
  have hquiet₁ : Quiet h h₁ := ⟨by simp [hh₁, Hart.exec], by simp [hh₁, Hart.exec]⟩
  have hbgez : ∀ l, (if (c.word : BitVec w).msb then Label.takeInterrupt else .exceptionDispatch) = l →
      K.program.run legal (m + 5) .stackDone h = K.program.run legal (m + 4) l h₁ := by
    rintro l rfl
    refine Program.run_of_next rfl ?_
    rw [Program.next, ht0]
  -- The sign of the cause tells an interrupt from an exception.
  cases c with
  | exception n =>
    have hcause₁ : h₁.csrs .cause = (Cause.exception n).word := by rw [hquiet₁.csrs, hcause]
    obtain ⟨h₂, hrun, hmem, hcsrs⟩ := run_exceptionDispatch (K := K) (m := m) hcause₁
    rw [hbgez .exceptionDispatch (by rw [K.msb_word]; rfl)]
    exact ⟨h₂, hrun, hmem.trans hquiet₁.mem, hcsrs.trans hquiet₁.csrs⟩
  | interrupt n =>
    set h₂ := h₁.run legal [.slli t0 t0 2, .li t1 K.vectors, .add t0 t1 t0] with hh₂
    have ht0₂ : h₂.get t0 = K.vectors + BitVec.ofNat w (4 * n) := by
      simp [hh₂, Hart.exec, ht0, K.shift_word, t0, t1]
    -- The table of vectors: `jalr` to entry `n`, which jumps to the handler.
    set h₃ := h₂.set 1#5 (K.program.addr (.interruptVector 0)) with hh₃
    have hjump : K.program.next h₂ (.jalr t0 (.interruptVector 0)) = some (.interruptVector n, h₃) := by
      rw [Program.next, ht0₂]
      exact congrArg (Option.map fun l => (l, h₃)) (K.label_vectors n)
    have hvector : K.program.next h₃ (.j (interruptEntry n)) = some ((Cause.interrupt n).handler, h₃) := by
      rw [Program.next, interruptEntry_eq _ n hc]
    refine ⟨h₃, ?_, ?_, ?_⟩
    · rw [hbgez .takeInterrupt (by rw [K.msb_word]; rfl), Program.run_of_next rfl hjump,
        Program.run_of_next rfl hvector,
        Program.run_of_none block_handler]
    · simp [hh₃, hh₂, Hart.exec, hquiet₁.mem]
    · simp [hh₃, hh₂, Hart.exec, hquiet₁.csrs]

/-- `trap_vector` stores the registers, and leads to the function for the cause. -/
theorem run_trapVector {c : Cause} (hscratch : h.csrs .scratch = K.trapFrame) (hc : c.enabled K.sMode)
    (hcause : h.csrs .cause = c.word) :
    ∃ h', K.program.run legal 8 .trapVector h = some (c.handler, h') ∧
      frameAt h' K.trapFrame = frameOf h (h.csrs .epc) ∧ h'.csrs .scratch = K.trapFrame := by
  obtain ⟨hframe, hscratch', hcause'⟩ := run_trapVectorCode hscratch rfl
  set h₁ := h.run legal K.trapVectorCode
  -- Whatever the stack is, what follows does not touch `trap_frame`.
  have hrest : ∀ h₂ : Hart w Csr, Quiet h₁ h₂ →
      K.program.run legal 8 .trapVector h = K.program.run legal 6 .stackDone h₂ →
      ∃ h', K.program.run legal 8 .trapVector h = some (c.handler, h') ∧
        frameAt h' K.trapFrame = frameOf h (h.csrs .epc) ∧ h'.csrs .scratch = K.trapFrame := by
    intro h₂ hquiet hrun
    have hcause₂ : h₂.csrs .cause = c.word := by rw [hquiet.csrs, hcause', hcause]
    obtain ⟨h₃, hrun₃, hmem, hcsrs⟩ := run_stackDone (m := 1) hc hcause₂
    refine ⟨h₃, hrun.trans hrun₃, ?_, by rw [hcsrs, hquiet.csrs, hscratch']⟩
    rw [← hframe]
    simp only [frameAt, Hart.word, hmem, hquiet.mem]
  have hbeqz : ∀ l, (if h₁.get t0 = 0 then Label.setGlobalStack else .procStack) = l →
      K.program.run legal 8 .trapVector h = K.program.run legal 7 l h₁ := by
    rintro l rfl
    exact Program.run_of_next rfl rfl
  by_cases h0 : h₁.get t0 = 0
  · refine hrest (h₁.run legal
      [.li t0 K.ramStart, .mv t1 tp, .addi t1 t1 1, .li t2 512, .mul t1 t1 t2, .add t0 t0 t1, .mv sp t0])
      ⟨by simp [Hart.exec], by simp [Hart.exec]⟩ ?_
    rw [hbeqz .setGlobalStack (if_pos h0)]
    exact Program.run_of_next rfl rfl
  · refine hrest (h₁.run legal [.load sp (offset w 2) t0]) ⟨by simp [Hart.exec], by simp [Hart.exec]⟩ ?_
    rw [hbeqz .procStack (if_neg h0)]
    exact Program.run_of_next rfl rfl

/-- `ret_to_user` loads the registers. -/
theorem run_retToUserCode (hscratch : h.csrs .scratch = K.trapFrame) {h' : Hart w Csr}
    (hh' : h' = h.run legal K.retToUserCode) :
    frameOf h' (h'.csrs .epc) = (frameAt h K.trapFrame).even ∧ h'.csrs .scratch = K.trapFrame := by
  rw [Layout.retToUserCode, Hart.run_append, Hart.run_append, Hart.run_append] at hh'
  set h₁ := h.run legal (if K.mmu then [.csrw .satp a0, .sfence] else []) with hh₁
  have hmem₁ : h₁.mem = h.mem := by
    rw [hh₁]
    split <;> simp [Hart.exec]
  have hscratch₁ : h₁.csrs .scratch = K.trapFrame := by
    rw [hh₁]
    split <;> simp [Hart.exec, hscratch]
  set h₂ :=
    h₁.run legal [.li t6 K.trapFrame, .load t0 (offset w 31) t6, .csrw .epc t0, .load t6 (offset w 30) t6,
    .csrrw t6 .scratch t6] with hh₂
  have hmem₂ : h₂.mem = h.mem := by simp [hh₂, Hart.exec, hmem₁]
  have ht6 : h₂.get t6 = K.trapFrame := by simp [hh₂, Hart.exec, hscratch₁, t6, t0]
  have hscratch₂ : h₂.csrs .scratch = h.word (K.trapFrame + offset w 30) := by
    simp [hh₂, Hart.exec, legal, t6, t0, Hart.word, hmem₁]
  have hepc₂ : h₂.csrs .epc = evenWord (h.word (K.trapFrame + offset w 31)) := by
    simp [hh₂, Hart.exec, legal, t6, t0, Hart.word, hmem₁]
  obtain ⟨hmem, hcsrs, hget⟩ := run_loads h₂ legal t6 Layout.saved
  have hloaded : ∀ i : Fin 30, (h₂.run legal (loads t6 Layout.saved)).get (regOf i.castSucc) =
      h.word (K.trapFrame + offset w i) := by
    intro i
    have hi := get_run_loads_of_mem h₂ legal t6 (by decide) (by decide) (by decide)
      (get_saved (i := i))
    rwa [ht6, Hart.word, hmem₂, ← Hart.word] at hi
  set h₃ := h₂.run legal (loads t6 Layout.saved)
  have ht6₃ : h₃.get t6 = K.trapFrame := by rw [hget t6 (by decide), ht6]
  refine ⟨Frame.ext (funext fun i => ?_) ?_, ?_⟩
  · -- The last register, `t6`, comes through the scratch register.
    rcases Nat.lt_or_ge i 30 with hi | hi
    · have hne : regOf i ≠ t6 := saved_ne_t6 ⟨i, hi⟩
      have hword : h₃.get (regOf i) = h.word (K.trapFrame + offset w i) := hloaded ⟨i, hi⟩
      simp [hh', frameOf, frameAt, Frame.even, Hart.exec, hne, hword]
    · obtain rfl : i = 30 := by omega
      have hlast : regOf 30 = t6 := rfl
      simp [hh', frameOf, frameAt, Frame.even, Hart.exec, hlast, t6, hcsrs, hscratch₂]
  · simp [hh', frameOf, frameAt, Frame.even, Hart.exec, hcsrs, hepc₂]
  · simp [hh', Hart.exec, legal, ht6₃]

/-- `ret_to_user`, up to `OP_xRET`. -/
theorem run_retToUser (hscratch : h.csrs .scratch = K.trapFrame) :
    ∃ h', K.program.run legal 8 .retToUser h = some (.xRet, h') ∧
      frameOf h' (h'.csrs .epc) = (frameAt h K.trapFrame).even ∧ h'.csrs .scratch = K.trapFrame := by
  refine ⟨h.run legal K.retToUserCode, ?_, run_retToUserCode hscratch rfl⟩
  have hret : K.program.run legal 8 .retToUser h = K.program.run legal 7 .xRet (h.run legal K.retToUserCode) :=
    Program.run_of_next rfl rfl
  rw [hret, Program.run_of_none rfl]

end

/-! ## Every run -/

section

variable {K : Layout w} {s s' : Cpu w} {e : Move w}

/-- A step of the hart is one of the frames, and where there is none there is none of the frames. -/
theorem step_framed (hs : Ready K s) :
    (∃ s', s.step K e = some s' ∧ Ready K s' ∧ (s.framed K).step K.sMode (e.framed K) =
      some (s'.framed K)) ∨
      s.step K e = none ∧ (s.framed K).step K.sMode (e.framed K) = none := by
  obtain ⟨h, pc, place⟩ := s
  obtain ⟨hscratch, heven⟩ := hs
  change h.csrs .scratch = K.trapFrame at hscratch
  change evenWord pc = pc at heven
  cases place with
  | running =>
    cases e with
    | exec regs pc' mem => exact .inl ⟨_, rfl, ⟨hscratch, evenWord_evenWord⟩, rfl⟩
    | trap c =>
      by_cases hc : c.enabled K.sMode
      · -- A trap runs `trap_vector`, which saves the frame.
        obtain ⟨h', hrun, hframe, hscratch'⟩ := run_trapVector (h := takeTrap h pc c) (K := K)
          (by simp [takeTrap, hscratch]) hc (by simp [takeTrap])
        refine .inl ⟨⟨h', pc, .kernel c.handler⟩, ?_, ⟨hscratch', heven⟩, ?_⟩
        · simp [Cpu.step, hc, hrun]
        · have hepc : (takeTrap h pc c).csrs .epc = pc := by simpa [takeTrap] using heven
          have hregs : frameOf (takeTrap h pc c) pc = frameOf h pc := rfl
          simp [Framed.step, Move.framed, Cpu.framed, hc, hframe, hepc, hregs]
      · exact .inr ⟨if_neg hc, if_neg hc⟩
    | kernel regs csrs mem => exact .inr ⟨rfl, rfl⟩
    | sleep regs pc' csrs mem => exact .inr ⟨rfl, rfl⟩
  | kernel l =>
    cases e with
    | exec regs pc' mem => exact .inr ⟨rfl, rfl⟩
    | trap c => exact .inr ⟨rfl, rfl⟩
    | kernel regs csrs mem =>
      by_cases hl : l.returns
      · set h₁ : Hart w Csr := ⟨regs, Function.update csrs .scratch (h.csrs .scratch), mem⟩ with hh₁
        -- The kernel may have changed all but the register of the frame.
        obtain ⟨h', hrun, hframe, hscratch'⟩ :=
          run_retToUser (h := h₁) (K := K) (by simp [hh₁, hscratch])
        refine .inl ⟨⟨h', h'.csrs .epc, .running⟩, ?_, ⟨hscratch', ?_⟩, ?_⟩
        · simp [Cpu.step, hl, ← hh₁, hrun]
        · have hpc : h'.csrs .epc = evenWord (frameAt h₁ K.trapFrame).pc := congrArg Frame.pc hframe
          rw [hpc, evenWord_evenWord]
        · have hframe₁ : frameAt ⟨regs, csrs, mem⟩ K.trapFrame = frameAt h₁ K.trapFrame := rfl
          simp [Framed.step, Move.framed, Cpu.framed, hl, hframe, hframe₁]
      · exact .inr ⟨if_neg hl, if_neg hl⟩
    | sleep regs pc' csrs mem =>
      by_cases hl : l.returns
      · refine .inl ⟨_, if_pos hl, ⟨?_, evenWord_evenWord⟩, if_pos hl⟩
        simp [hscratch]
      · exact .inr ⟨if_neg hl, if_neg hl⟩

/-- In every run, traps put the registers of what they interrupt in `trap_frame` and lead to the
    function for their cause, and by `ret_to_user` the kernel goes back to exactly the registers
    that are in `trap_frame` then. -/
theorem traps_refine (hs : Ready K s) (es : List (Move w)) :
    (run free (hartSystem K) es s).map (Cpu.framed K) =
      run free (frameSystem w K.sMode) (es.map (Move.framed K)) (s.framed K) := by
  refine run_map (I := Ready K) (fun {s s' e} hs h => ?_) (fun {s e} hs => ?_) hs es
  · rcases step_framed (e := e) hs with ⟨s₁, hstep, hs₁, -⟩ | ⟨hstep, -⟩
    · obtain rfl : s₁ = s' := Option.some.inj (hstep.symm.trans h)
      exact hs₁
    · cases hstep.symm.trans h
  · rcases step_framed (e := e) hs with ⟨s', hstep, -, hframed⟩ | ⟨hstep, hframed⟩
    · exact (congrArg _ hstep).trans hframed.symm
    · exact (congrArg _ hstep).trans hframed.symm

end

/-! ## The machine -/

section

variable {K : Layout w} {s s' : Cpu w} {cfg : Config} {m : Machine cfg} {k : Kernel cfg}

/-- The frame, as the machine has it. -/
def Frame.toTrapFrame (f : Frame w) : TrapFrame where
  regs i := (f.regs i).toNat
  pc := f.pc.toNat

/-- A trap is `trap` of the machine. -/
theorem trap_of_step {c : Cause} (hs : Ready K s) (hm : (frameOf s.hart s.pc).toTrapFrame = m.hart)
    (h : s.step K (.trap c) = some s') :
    s'.place = .kernel c.handler ∧ (frameAt s'.hart K.trapFrame).toTrapFrame = (trap m).trapFrame := by
  obtain ⟨hart, pc, place⟩ := s
  rcases step_framed (e := .trap c) hs with ⟨s₁, hstep, -, hframed⟩ | ⟨hstep, -⟩
  · obtain rfl : s₁ = s' := Option.some.inj (hstep.symm.trans h)
    cases place with
    | kernel l => cases hframed
    | running =>
      simp only [Cpu.framed, Framed.step, Move.framed] at hframed
      split_ifs at hframed with hc
      split at hframed
      · cases hframed
      · rename_i l hl
        obtain ⟨rfl, hframe⟩ : c.handler = l ∧ frameOf hart pc = frameAt s₁.hart K.trapFrame := by
          simpa using hframed
        exact ⟨hl, by rw [← hframe]; exact hm⟩
  · cases hstep.symm.trans h

/-- `ret_to_user` is how the machine goes back to user mode. -/
theorem outcome_of_step {α : Type} {a : α} {regs : Reg → BitVec w} {csrs : Csr → BitVec w}
    {mem : BitVec w → BitVec 8}
    (hs : Ready K s) (hk : (frameAt ⟨regs, csrs, mem⟩ K.trapFrame).even.toTrapFrame = k.trapFrame)
    (h : s.step K (.kernel regs csrs mem) = some s') :
    s'.place = .running ∧ (frameOf s'.hart s'.pc).toTrapFrame = (outcome (.ok a k)).hart := by
  obtain ⟨hart, pc, place⟩ := s
  rcases step_framed (e := .kernel regs csrs mem) hs with ⟨s₁, hstep, -, hframed⟩ | ⟨hstep, -⟩
  · obtain rfl : s₁ = s' := Option.some.inj (hstep.symm.trans h)
    cases place with
    | running => cases hframed
    | kernel l =>
      simp only [Cpu.framed, Framed.step, Move.framed] at hframed
      split_ifs at hframed with hl
      split at hframed
      · rename_i hplace
        refine ⟨hplace, ?_⟩
        have hframe : (frameAt ⟨regs, csrs, mem⟩ K.trapFrame).even = frameOf s₁.hart s₁.pc := by
          simpa using hframed
        rw [← hframe]
        exact hk
      · cases hframed
  · cases hstep.symm.trans h

end

theorem eight_dvd_sixtyFour : 8 ∣ 64 := by decide

/-- The data and the tables of the build for the `virt` machine of qemu, with addresses as a
    linker may assign them. -/
def qemuVirtLayout : Layout 64 where
  trapFrame := 0x8000b100
  pagedMemory := 0x8000b800
  cpus := 0x8000b000
  ramStart := 0x80000000
  vectors := 0x80001200
  mmu := true
  sMode := true
  bytes := eight_dvd_sixtyFour
  frame_fits := by decide
  vectors_fit := by decide

/-- A process is interrupted by the timer, and the kernel finds nothing to run; the timer
    interrupts the idle loop, and the kernel goes back to registers that it has put into the
    frame. -/
theorem traps_refine_qemuVirt : ∃ s : Cpu 64,
    run free (hartSystem qemuVirtLayout)
        [.exec (fun r => BitVec.ofNat 64 r.toNat) 0x1002 (fun _ => 0), .trap (.interrupt 5),
          .sleep (fun _ => 7) 0x80000400 (fun _ => 0) (fun _ => 0), .trap (.interrupt 5),
          .kernel (fun _ => 0) (fun _ => 0) fun x => x.setWidth 8]
        ⟨⟨fun _ => 0, fun _ => 0x8000b100, fun _ => 0⟩, 0, .running⟩ = some s ∧
      s.framed qemuVirtLayout =
        .running (frameAt ⟨fun _ => 0, fun _ => 0, fun x => x.setWidth 8⟩ qemuVirtLayout.trapFrame).even :=
  Option.map_eq_some_iff.1 (traps_refine ⟨rfl, rfl⟩ _)

end HobbyOs.Asm
