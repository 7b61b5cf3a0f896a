import HobbyOs.Traps
import Mathlib.Data.Fin.VecNotation

/-!
# Switching contexts

`swtch` (`context.S`), by which the scheduler and the processes hand the hart to each other:
it stores the registers that a function must keep in the context of the one that calls it,
loads those of the other one, and returns, to where the other one has called it.

* `swtchSystem`: some code for each context, which may do what it likes in between, but for
  the contexts of the others; a context may be filled in by somebody else.
* `threadSystem`: what `swtch` is for. Each context has registers of its own, and a switch
  changes only whose code runs.
* `swtch_refines`: the first does what the second says, in every run.
-/

namespace HobbyOs.Asm

open Riscv Transition

variable {w : ℕ} {ι : Type}

/-! ## The code -/

/-- The registers of `context_t`: `ra`, `sp` and `s0` to `s11`. -/
def kept : Fin 14 → Reg := ![1#5, 2#5, 8#5, 9#5, 18#5, 19#5, 20#5, 21#5, 22#5, 23#5, 24#5, 25#5, 26#5, 27#5]

/-- The registers of a context, with their words. -/
def contextWords : List (Reg × ℕ) := (List.finRange 14).map fun n => (kept n, n.val)

/-- `swtch`, up to `ret`. -/
def swtchCode : List (Instr w Csr) := saves a0 contextWords ++ loads a1 contextWords

/-- Contexts in memory. -/
structure Contexts (w : ℕ) (ι : Type) where
  addr : ι → BitVec w
  bytes : 8 ∣ w
  fits : 14 * (w / 8) ≤ 2 ^ w
  apart : ∀ i j, i ≠ j → Apart (addr i) (14 * (w / 8)) (addr j) (14 * (w / 8))

namespace Contexts

variable (K : Contexts w ι)

/-- The byte is in the context `i`. -/
def within (i : ι) (x : BitVec w) : Prop := (x - K.addr i).toNat < 14 * (w / 8)

instance (i : ι) (x : BitVec w) : Decidable (K.within i x) := inferInstanceAs (Decidable (_ < _))

/-- The words of the context `i`. -/
def words (h : Hart w Csr) (i : ι) : Fin 14 → BitVec w := fun n => h.word (K.addr i + offset w n)

end Contexts

/-! ## What the code does -/

section

variable {K : Contexts w ι} {h h' : Hart w Csr} {i j : ι}

theorem get_contextWords {n : Fin 14} : (kept n, n.val) ∈ contextWords :=
  List.mem_map_of_mem (List.mem_finRange n)

theorem kept_ne : ∀ n, kept n ≠ a0 ∧ kept n ≠ a1 := by decide

/-- The words of a context, whose bytes have not changed. -/
theorem Contexts.words_congr (hmem : ∀ x, K.within i x → h'.mem x = h.mem x) :
    K.words h' i = K.words h i := by
  funext n
  refine congrArg (BitVec.ofNat w) (readBytes_congr fun k hk => hmem _ ?_)
  have hle : n * (w / 8) + w / 8 ≤ 14 * (w / 8) := offset_le n.isLt
  have hfits := K.fits
  have hdist : K.addr i + offset w n + BitVec.ofNat w k - K.addr i = BitVec.ofNat w (n * (w / 8) + k) := by
    rw [offset, BitVec.add_assoc, BitVec.ofNat_add_ofNat, add_sub_cancel_left]
  rw [within, hdist, BitVec.toNat_ofNat, Nat.mod_eq_of_lt (by omega)]
  omega

theorem Contexts.not_within {x : BitVec w} (hij : i ≠ j) (hi : K.within i x) : ¬K.within j x := by
  exact Nat.not_lt.2 ((K.apart j i hij.symm).le hi)

/-- `swtch` stores the registers in one context, loads those of the other one, and leaves the others alone. -/
theorem run_swtchCode (hij : i ≠ j) (ha0 : h.get a0 = K.addr i) (ha1 : h.get a1 = K.addr j)
    (hh' : h' = h.run legal swtchCode) :
    (∀ n, h'.get (kept n) = K.words h j n) ∧ (K.words h' i = fun n => h.get (kept n)) ∧
      ∀ l, l ≠ i → K.words h' l = K.words h l := by
  rw [swtchCode, Hart.run_append] at hh'
  set h₁ := h.run legal (saves a0 contextWords) with hh₁
  obtain ⟨hget₁, -⟩ := get_run_saves h legal a0 contextWords
  obtain ⟨hmem, -, -⟩ := run_loads h₁ legal a1 contextWords
  have hother : ∀ l, l ≠ i → K.words h₁ l = K.words h l := by
    intro l hl
    funext n
    refine word_run_saves fun x hx => ?_
    obtain ⟨m, -, rfl⟩ := List.mem_map.1 hx
    rw [ha0]
    exact (K.apart i l hl.symm).offset m.isLt n.isLt
  have hwords : ∀ l, K.words h' l = K.words h₁ l :=
    fun l => Contexts.words_congr fun x _ => by rw [hh', hmem]
  refine ⟨fun n => ?_, ?_, fun l hl => (hwords l).trans (hother l hl)⟩
  · have hn := get_run_loads_of_mem h₁ legal a1 (by decide) (by decide) (by decide)
      (get_contextWords (n := n))
    rw [← hh', hget₁, ha1] at hn
    exact hn.trans (congrFun (hother j hij.symm) n)
  · rw [hwords]
    funext n
    have hn := word_run_saves_of_mem h legal a0 K.bytes K.fits (by decide) (by decide)
      (get_contextWords (n := n))
    rwa [ha0] at hn

end

/-! ## The systems -/

/-- The hart, in the code of a context. -/
structure Switcher (w : ℕ) (ι : Type) where
  hart : Hart w Csr
  pc : BitVec w
  cur : ι

/-- What may happen. -/
inductive SwitchMove (w : ℕ) (ι : Type)
  /-- The code of the context runs: it leaves these registers, and this memory but for the other contexts. -/
  | runs (regs : Reg → BitVec w) (pc : BitVec w) (mem : BitVec w → BitVec 8)
  /-- It fills in the context of another one, as in this memory. -/
  | fills (j : ι) (mem : BitVec w → BitVec 8)
  /-- It calls `swtch`. -/
  | swtch (j : ι)

variable [DecidableEq ι]

/-- A step. The `ret` of `swtch` clears the lowest bit of the pc. -/
def Switcher.step [Fintype ι] (K : Contexts w ι) (e : SwitchMove w ι) (s : Switcher w ι) :
    Option (Switcher w ι) :=
  match e with
  | .runs regs pc mem => some { s with
      hart := { s.hart with
        regs := regs
        mem := fun x => if ∃ j, j ≠ s.cur ∧ K.within j x then s.hart.mem x else mem x }
      pc := pc }
  | .fills j mem =>
    if j = s.cur then none
    else some { s with hart := { s.hart with mem := fun x => if K.within j x then mem x else s.hart.mem x } }
  | .swtch j =>
    if j = s.cur then none
    else
      let h := ((s.hart.set a0 (K.addr s.cur)).set a1 (K.addr j)).run legal swtchCode
      some ⟨h, evenWord (h.get ra), j⟩

/-- Code that switches contexts. -/
def swtchSystem [Fintype ι] (K : Contexts w ι) : System (Switcher w ι) (SwitchMove w ι) where
  init := Set.univ
  step := Switcher.step K

/-- Threads, each with the registers that a function must keep, of which one runs. -/
@[ext]
structure Threads (w : ℕ) (ι : Type) where
  regs : ι → Fin 14 → BitVec w
  pc : BitVec w
  cur : ι

/-- What may happen to them. -/
inductive ThreadMove (w : ℕ) (ι : Type)
  | runs (regs : Fin 14 → BitVec w) (pc : BitVec w)
  | fills (j : ι) (regs : Fin 14 → BitVec w)
  | swtch (j : ι)

/-- A step: a switch changes only which thread runs, and that one goes on where its `ra` points to. -/
def Threads.step (e : ThreadMove w ι) (s : Threads w ι) : Option (Threads w ι) :=
  match e with
  | .runs regs pc => some { s with regs := Function.update s.regs s.cur regs, pc := pc }
  | .fills j regs => if j = s.cur then none else some { s with regs := Function.update s.regs j regs }
  | .swtch j => if j = s.cur then none else some { s with pc := evenWord (s.regs j 0), cur := j }

/-- What `swtch` is for. -/
def threadSystem (w : ℕ) (ι : Type) [DecidableEq ι] : System (Threads w ι) (ThreadMove w ι) where
  init := Set.univ
  step := Threads.step

/-- The threads: the registers of the one that runs are those of the hart. -/
def Switcher.threads (K : Contexts w ι) (s : Switcher w ι) : Threads w ι where
  regs i := if i = s.cur then fun n => s.hart.get (kept n) else K.words s.hart i
  pc := s.pc
  cur := s.cur

/-- What a move does to the threads. -/
def SwitchMove.threads (K : Contexts w ι) : SwitchMove w ι → ThreadMove w ι
  | .runs regs pc mem => .runs (fun n => (⟨regs, fun _ => 0, mem⟩ : Hart w Csr).get (kept n)) pc
  | .fills j mem => .fills j (K.words ⟨fun _ => 0, fun _ => 0, mem⟩ j)
  | .swtch j => .swtch j

/-! ## Every run -/

section

variable [Fintype ι] {K : Contexts w ι} {s : Switcher w ι} {e : SwitchMove w ι}

theorem step_threads : (s.step K e).map (Switcher.threads K) = (s.threads K).step (e.threads K) := by
  cases e with
  | runs regs pc mem =>
    refine congrArg some (Threads.ext (funext fun i => ?_) rfl rfl)
    by_cases hi : i = s.cur
    · subst hi
      simp [Switcher.threads, Hart.get]
    · -- What the running context writes is not in the saved contexts of the others.
      have hwords : ∀ h' : Hart w Csr,
          (h'.mem = fun x => if ∃ j, j ≠ s.cur ∧ K.within j x then s.hart.mem x else mem x) →
          K.words h' i = K.words s.hart i := by
        intro h' hh'
        refine Contexts.words_congr fun x hx => ?_
        rw [hh']
        exact if_pos ⟨i, hi, hx⟩
      simp [Switcher.threads, hi, hwords]
  | fills j mem =>
    by_cases hj : j = s.cur
    · simp [Switcher.step, Threads.step, SwitchMove.threads, Switcher.threads, hj]
    · have hstep : s.step K (.fills j mem) = some _ := if_neg hj
      have hthreads : (s.threads K).step ((SwitchMove.fills j mem).threads K) = some _ := if_neg hj
      rw [hstep, hthreads]
      refine congrArg some (Threads.ext (funext fun i => ?_) rfl rfl)
      by_cases hij : i = j
      · subst hij
        simp only [Switcher.threads, if_neg hj, Function.update_self]
        exact Contexts.words_congr fun x hx => if_pos hx
      · by_cases hi : i = s.cur
        · subst hi
          simp [Switcher.threads, hij, Hart.get]
        · simp only [Switcher.threads, if_neg hi, Function.update_of_ne hij]
          exact Contexts.words_congr fun x hx => if_neg (Contexts.not_within hij hx)
  | swtch j =>
    by_cases hj : j = s.cur
    · simp [Switcher.step, Threads.step, SwitchMove.threads, Switcher.threads, hj]
    · have hstep : s.step K (.swtch j) = some _ := if_neg hj
      have hthreads : (s.threads K).step ((SwitchMove.swtch j).threads K) = some _ := if_neg hj
      rw [hstep, hthreads]
      -- The arguments of `swtch` are in registers that it does not save.
      set h := (s.hart.set a0 (K.addr s.cur)).set a1 (K.addr j) with hh
      have hkept : ∀ n, h.get (kept n) = s.hart.get (kept n) := fun n => by simp [hh, kept_ne]
      have hwords : ∀ l, K.words h l = K.words s.hart l :=
        fun l => Contexts.words_congr fun x _ => by simp [hh]
      obtain ⟨hloaded, hstored, hothers⟩ :=
        run_swtchCode (K := K) (h := h) (Ne.symm hj) (by simp [hh, a0, a1]) (by simp [hh, a1]) rfl
      refine congrArg some (Threads.ext (funext fun i => ?_) ?_ rfl)
      · -- The context loaded, the one stored, and the others, which are left alone.
        by_cases hij : i = j
        · subst hij
          simp only [Switcher.threads, if_neg hj, if_pos]
          exact (funext hloaded).trans (hwords i)
        · by_cases hi : i = s.cur
          · subst hi
            simp only [Switcher.threads, if_neg hij, if_pos]
            exact hstored.trans (funext hkept)
          · simp only [Switcher.threads, if_neg hij, if_neg hi]
            exact (hothers i hi).trans (hwords i)
      · simp only [Switcher.threads, if_neg hj]
        exact congrArg evenWord ((hloaded 0).trans (congrFun (hwords j) 0))

/-- In every run, each context has the registers of its own: when the others switch back to it, it
    goes on where it has called `swtch`, with the registers that it had there, whatever they have
    done. -/
theorem swtch_refines (es : List (SwitchMove w ι)) :
    (run free (swtchSystem K) es s).map (Switcher.threads K) =
      run free (threadSystem w ι) (es.map (SwitchMove.threads K)) (s.threads K) :=
  run_map (I := fun _ => True) (fun _ _ => trivial) (fun _ => step_threads) trivial es

end

/-- The context of a process, or else that of the scheduler. -/
def twoContexts : Contexts 64 Bool where
  addr proc := if proc then 0x8000b300 else 0x8000b200
  bytes := eight_dvd_sixtyFour
  fits := by decide
  apart := by decide

/-- The scheduler. -/
def schedulerRuns : Switcher 64 Bool where
  hart := ⟨fun r => BitVec.ofNat 64 (2000 + 2 * r.toNat), fun _ => 0, fun _ => 0⟩
  pc := 0x80001000
  cur := false

/-- The context of the process is filled in, with an address and a stack. The scheduler
    switches to it. The process puts other values into the registers and all the memory
    that it may use, and switches back. -/
def thereAndBack : List (SwitchMove 64 Bool) :=
  [.fills true (writeBytes (writeBytes (fun _ => 0) 0x8000b300 8 0x80002000) 0x8000b308 8 0x80019000),
    .swtch true,
    .runs (fun r => BitVec.ofNat 64 (5000 + r.toNat)) 0x80002468 fun _ => 0xff, .swtch false]

/-- What runs, where, and with which registers. -/
def Threads.running (s : Threads 64 Bool) : Bool × BitVec 64 × List (BitVec 64) :=
  (s.cur, s.pc, List.ofFn (s.regs s.cur))

/-- The process starts with what was filled in, and the scheduler gets its registers
    back. -/
theorem swtch_there_and_back :
    ((run free (swtchSystem twoContexts) (thereAndBack.take 2) schedulerRuns).map fun s =>
      (s.threads twoContexts).running) =
        some (true, 0x80002000, 0x80002000 :: 0x80019000 :: List.replicate 12 0) ∧
      ((run free (swtchSystem twoContexts) thereAndBack schedulerRuns).map fun s =>
        (s.threads twoContexts).running) =
        some (false, 2002, List.ofFn fun n => BitVec.ofNat 64 (2000 + 2 * (kept n).toNat)) := by
  have hrun : ∀ es,
      ((run free (swtchSystem twoContexts) es schedulerRuns).map fun s => (s.threads twoContexts).running) =
      (run free (threadSystem 64 Bool) (es.map (SwitchMove.threads twoContexts))
        (schedulerRuns.threads twoContexts)).map
        Threads.running := fun es => by
    rw [← swtch_refines, Option.map_map]
    rfl
  exact ⟨(hrun _).trans (by decide +kernel), (hrun _).trans (by decide +kernel)⟩

end HobbyOs.Asm
