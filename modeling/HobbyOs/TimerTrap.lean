import HobbyOs.Lib.Interrupts
import HobbyOs.Traps

/-!
# The timer in M-mode

On machines that boot in M-mode and have an S-mode, the interrupt of the timer goes to
`mtimertrap` (`boot.S`), in M-mode. It sets the next tick and sends the interrupt on to the
kernel; it may come at any moment, also in the middle of `trap_vector` and `ret_to_user`.

* `mtimertrap_unnoticed`: code that does not use the memory of the timer does the same with
  such interrupts as without them, and each of them puts the next tick one interval later.
  With words of 32 bits there is no carry to the upper half of the register for the next
  tick (`Timer.tick_eq_iff`).
* `trapVector_interrupted` and `retToUser_interrupted`: so traps work with them as without,
  up to the function for their cause, and from `ret_to_user` on.
-/

namespace HobbyOs.Asm

open Riscv

variable {w : ℕ}

/-! ## The code -/

/-- The registers that `mtimertrap` uses, with their words in `timer_trap`. -/
def timerSaved : List (Reg × ℕ) := [(t1, 0), (t2, 1), (t3, 2)]

/-- `mtimertrap`, up to `mret`. -/
def mtimertrap : List (Instr w Csr) :=
  [.csrrw t0 .mscratch t0] ++ saves t0 timerSaved ++
    [.load t1 (offset w 3) t0, .load t2 (offset w 4) t0, .load t3 (offset w 0) t1, .add t3 t3 t2,
      .store t3 (offset w 0) t1] ++ loads t0 timerSaved ++ [.csrwi .mip 2, .csrrw t0 .mscratch t0]

/-- `timer_trap`, and the register for the next tick, which has 64 bits. -/
structure Timer (w : ℕ) where
  timerTrap : BitVec w
  mtimecmp : BitVec w
  interval : BitVec w
  words : w = 32 ∨ w = 64
  apart : Apart timerTrap (5 * (w / 8)) mtimecmp 8

namespace Timer

variable (T : Timer w)

/-- The memory of the timer. -/
def Area (x : BitVec w) : Prop := (x - T.timerTrap).toNat < 5 * (w / 8) ∨ (x - T.mtimecmp).toNat < 8

instance : DecidablePred T.Area := fun _ => inferInstanceAs (Decidable (_ ∨ _))

/-- The control and status registers of M-mode. -/
def Owns (c : Csr) : Prop := c = .mscratch ∨ c = .mip

/-- The interval is added to the lower word of a number. -/
def later (v : ℕ) : ℕ := (v + T.interval.toNat) % 2 ^ w + v / 2 ^ w * 2 ^ w

/-- The next tick, `n` ticks after `start`. Where words are of 64 bits, it is all one word;
    where they are of 32 bits, there is no carry to the upper one. -/
def tick (start n : ℕ) : ℕ := (start + n * T.interval.toNat) % 2 ^ w + start / 2 ^ w * 2 ^ w

/-- The timer, as `machine_init_timer` has set it, `n` ticks after `start`. -/
structure Armed (start : ℕ) (n : ℕ) (h : Hart w Csr) : Prop where
  mscratch : h.csrs .mscratch = T.timerTrap
  mtimercmp : h.word (T.timerTrap + offset w 3) = T.mtimecmp
  interval : h.word (T.timerTrap + offset w 4) = T.interval
  next : readBytes h.mem T.mtimecmp 8 = T.tick start n

variable {T} {start : ℕ} {n v : ℕ} {h h₀ h' : Hart w Csr}

/-- The ticks are the interval apart for as long as there is nothing to carry. -/
theorem tick_eq_iff : T.tick start n = start + n * T.interval.toNat ↔
    start % 2 ^ w + n * T.interval.toNat < 2 ^ w := by
  have hsum : start + n * T.interval.toNat = start % 2 ^ w + n * T.interval.toNat + start / 2 ^ w * 2 ^ w := by
    rw [Nat.add_right_comm, Nat.mod_add_div']
  have hpos : 0 < 2 ^ w := Nat.pow_pos (by decide)
  rw [tick, hsum, Nat.add_mul_mod_self_right, Nat.add_right_cancel_iff, Nat.mod_eq_iff_lt hpos.ne']

/-- With words of 32 bits the lower half overflows, and the next tick is in the past. -/
example : (⟨0x80008000, 0x2004000, 10000000, .inl rfl, by decide⟩ : Timer 32).tick 0xffffff00 1 =
    9999744 := by decide

theorem tick_succ : T.tick start (n + 1) = T.later (T.tick start n) := by
  have hpos : 0 < 2 ^ w := Nat.pow_pos (by decide)
  have hlow : (start + n * T.interval.toNat) % 2 ^ w / 2 ^ w = 0 := Nat.div_eq_of_lt (Nat.mod_lt _ hpos)
  rw [later, tick, tick, Nat.add_mul_div_right _ _ hpos, hlow, Nat.zero_add, Nat.add_right_comm,
    Nat.add_mul_mod_self_right, Nat.mod_add_mod, Nat.add_mul, Nat.one_mul, Nat.add_assoc]

theorem bytes (T : Timer w) : 8 ∣ w := by rcases T.words with rfl | rfl <;> decide

theorem fits (T : Timer w) : 5 * (w / 8) ≤ 2 ^ w := by rcases T.words with rfl | rfl <;> decide

theorem word_le (T : Timer w) :
    w / 8 + (8 - w / 8) = 8 ∧ 8 ≤ 2 ^ w := by rcases T.words with rfl | rfl <;> decide

theorem pow_word (T : Timer w) : 256 ^ (w / 8) = 2 ^ w := by
  rw [show 256 = 2 ^ 8 from rfl, ← Nat.pow_mul, Nat.mul_div_cancel' T.bytes]

theorem area_timerTrap {i k : ℕ} (hi : i < 5) (hk : k < w / 8) :
    T.Area (T.timerTrap + offset w i + BitVec.ofNat w k) := by
  have hle : i * (w / 8) + w / 8 ≤ 5 * (w / 8) := offset_le hi
  have hfits := T.fits
  refine .inl ?_
  rw [offset, BitVec.add_assoc, BitVec.ofNat_add_ofNat, add_sub_cancel_left, BitVec.toNat_ofNat,
    Nat.mod_eq_of_lt (by omega)]
  omega

theorem area_mtimecmp {k : ℕ} (hk : k < 8) : T.Area (T.mtimecmp + BitVec.ofNat w k) := by
  refine .inr ?_
  rw [add_sub_cancel_left, BitVec.toNat_ofNat]
  exact (Nat.mod_le _ _).trans_lt hk

/-- It depends only on what belongs to the timer. -/
theorem Armed.same (ha : T.Armed start n h) (hs : SameIn T.Area Owns h h') : T.Armed start n h' where
  mscratch := (hs.csrs _ (.inl rfl)).trans ha.mscratch
  mtimercmp := (hs.word fun _ hk => area_timerTrap (by decide) hk).trans ha.mtimercmp
  interval := (hs.word fun _ hk => area_timerTrap (by decide) hk).trans ha.interval
  next := (readBytes_congr fun _ hk => hs.mem _ (area_mtimecmp hk)).trans ha.next

/-! ## What the code does -/

/-- The words of `timer_trap` lie apart from each other, and from the register for the next
    tick. -/
theorem apart_timerTrap {i j : ℕ} (hi : i < 5) (hj : j < 5) (hij : i ≠ j) :
    Apart (T.timerTrap + offset w i) (w / 8) (T.timerTrap + offset w j) (w / 8) :=
  apart_offset T.fits hi hj hij

theorem apart_mtimecmp {i : ℕ} (hi : i < 5) : Apart (T.timerTrap + offset w i) (w / 8) T.mtimecmp 8 :=
  T.apart.within (by rcases T.words with rfl | rfl <;> decide) (offset_le hi)

/-- Registers are stored in `timer_trap`: what they were in `h₀`, but for `t0`, which is in
    `mscratch`; and the next tick is `v`. -/
structure Holds (T : Timer w) (h₀ : Hart w Csr) (v : ℕ) (h : Hart w Csr) : Prop where
  base : h.get t0 = T.timerTrap
  mscratch : h.csrs .mscratch = h₀.get t0
  saved : ∀ x ∈ timerSaved, h.word (T.timerTrap + offset w x.2) = h₀.get x.1
  mtimercmp : h.word (T.timerTrap + offset w 3) = T.mtimecmp
  interval : h.word (T.timerTrap + offset w 4) = T.interval
  next : readBytes h.mem T.mtimecmp 8 = v
  get : ∀ r, r ≠ t0 → (∀ x ∈ timerSaved, x.1 ≠ r) → h.get r = h₀.get r
  csrs : ∀ c, ¬Owns c → h.csrs c = h₀.csrs c
  mem : ∀ x, ¬T.Area x → h.mem x = h₀.mem x

theorem timerSaved_lt : ∀ x ∈ timerSaved, x.2 < 3 := by decide

theorem timerSaved_ne : ∀ x ∈ timerSaved, x.1 ≠ t0 := by decide

/-- The registers that `mtimertrap` uses are saved. -/
theorem Armed.holds (ha : T.Armed start n h)
    (hh' : h' = h.run legal ([.csrrw t0 .mscratch t0] ++ saves t0 timerSaved)) :
    Holds T h (T.tick start n) h' := by
  rw [Hart.run_append] at hh'
  set h₁ := h.run legal [.csrrw t0 .mscratch t0] with hh₁
  have ht0 : h₁.get t0 = T.timerTrap := by simp [hh₁, Hart.exec, ha.mscratch, t0]
  obtain ⟨hget, hcsrs⟩ := get_run_saves h₁ legal t0 timerSaved
  rw [← hh'] at hget hcsrs
  -- The first three words of the area are written, and the other two are not.
  have hword : ∀ i < 5, 3 ≤ i →
      h'.word (T.timerTrap + offset w i) = h.word (T.timerTrap + offset w i) := by
    intro i hi h3
    rw [hh']
    refine (word_run_saves fun x hx => ?_).trans (by simp [hh₁, Hart.exec])
    rw [ht0]
    have hlt := timerSaved_lt x hx
    exact apart_timerTrap (by omega) hi (by omega)
  have hmem : ∀ b, (∀ i < 3, w / 8 ≤ (b - (T.timerTrap + offset w i)).toNat) → h'.mem b = h.mem b := by
    intro b hb
    rw [hh']
    refine (mem_run_saves fun x hx => ?_).trans (by simp [hh₁, Hart.exec])
    rw [ht0]
    exact hb x.2 (timerSaved_lt x hx)
  refine ⟨by
    rw [hget, ht0], ?_, fun x hx => ?_, ?_, ?_, ?_, fun r hr _ => ?_, fun c hc => ?_, fun x hx => ?_⟩
  · rw [hcsrs]
    simp [hh₁, Hart.exec, legal]
  · have hx' := word_run_saves_of_mem h₁ legal t0 T.bytes T.fits
      (fun x hx => (timerSaved_lt x hx).trans (by decide)) (by decide) hx
    rw [ht0, ← hh'] at hx'
    exact hx'.trans (by simp [hh₁, Hart.exec, timerSaved_ne x hx])
  · rw [hword 3 (by decide) le_rfl, ha.mtimercmp]
  · rw [hword 4 (by decide) (by decide), ha.interval]
  · refine (readBytes_congr fun k hk => hmem _ fun i hi => ?_).trans ha.next
    refine (apart_mtimecmp (by omega)).le ?_
    rw [add_sub_cancel_left, BitVec.toNat_ofNat]
    exact (Nat.mod_le _ _).trans_lt hk
  · rw [hget]
    simp [hh₁, Hart.exec, hr]
  · rw [hcsrs]
    have hne : c ≠ .mscratch := fun h => hc (.inl h)
    simp [hh₁, Hart.exec, hne]
  · refine hmem x fun i hi => ?_
    by_contra hlt
    obtain ⟨k, hk, rfl⟩ := exists_offset (Nat.not_le.1 hlt)
    exact hx (area_timerTrap (by omega) hk)

/-- The next tick is put later. -/
theorem Holds.tick (hs : Holds T h₀ v h)
    (hh' : h' = h.run legal [.load t1 (offset w 3) t0, .load t2 (offset w 4) t0,
    .load t3 (offset w 0) t1, .add t3 t3 t2, .store t3 (offset w 0) t1]) : Holds T h₀ (T.later v) h' := by
  -- The five instructions are one write, of a word of `mtimecmp`.
  have hmem : h'.mem = writeBytes h.mem T.mtimecmp (w / 8) (h.word T.mtimecmp + T.interval).toNat := by
    simp [hh', Hart.exec, Hart.setWord, hs.base, hs.mtimercmp, hs.interval, t0, t1, t2, t3]
  have hword : ∀ i < 5, h'.word (T.timerTrap + offset w i) = h.word (T.timerTrap + offset w i) := by
    intro i hi
    have hapart := apart_mtimecmp (T := T) hi
    have hle := T.word_le
    rw [Hart.word, hmem, readBytes_writeBytes_of_apart ⟨by have := hapart.2; omega, hapart.1⟩, Hart.word]
  have hregs : ∀ r, (∀ x ∈ timerSaved, x.1 ≠ r) → h'.get r = h.get r := by
    intro r hr
    have h1 := hr (t1, 0) (by decide)
    have h2 := hr (t2, 1) (by decide)
    have h3 := hr (t3, 2) (by decide)
    simp [hh', Hart.exec, h1.symm, h2.symm, h3.symm]
  have hcsrs : h'.csrs = h.csrs := by simp [hh', Hart.exec]
  refine ⟨?_, ?_, fun x hx => ?_, ?_, ?_, ?_, fun r h0 hr => ?_, fun c hc => ?_, fun x hx => ?_⟩
  · rw [hregs _ timerSaved_ne, hs.base]
  · rw [hcsrs, hs.mscratch]
  · rw [hword x.2 ((timerSaved_lt x hx).trans (by decide)), hs.saved x hx]
  · rw [hword 3 (by decide), hs.mtimercmp]
  · rw [hword 4 (by decide), hs.interval]
  · -- The lower word is that of the sum, and the upper one is as it was.
    obtain ⟨hle, h8⟩ := T.word_le
    have hlow : h.word T.mtimecmp = BitVec.ofNat w v := by
      refine BitVec.eq_of_toNat_eq ?_
      rw [Hart.word, BitVec.toNat_ofNat, BitVec.toNat_ofNat, ← hs.next,
        ← readBytes_mod h.mem T.mtimecmp (w / 8) (8 - w / 8), hle, T.pow_word, Nat.mod_mod]
    have hwrite : readBytes h'.mem T.mtimecmp (w / 8 + (8 - w / 8)) = _ :=
      hmem ▸ readBytes_writeBytes_add (by omega)
    rw [hle, hs.next, T.pow_word, hlow, BitVec.toNat_add, BitVec.toNat_ofNat,
      Nat.mod_add_mod, Nat.mod_mod] at hwrite
    exact hwrite
  · rw [hregs r hr, hs.get r h0 hr]
  · rw [hcsrs, hs.csrs c hc]
  · rw [hmem]
    refine (if_neg fun hlt => hx (.inr ?_)).trans (hs.mem x hx)
    have hle := T.word_le
    omega

/-- The registers are loaded again. -/
theorem Holds.run_loads (hs : Holds T h₀ v h)
    (hh' : h' = h.run legal (loads t0 timerSaved ++ [.csrwi .mip 2, .csrrw t0 .mscratch t0])) :
    SameBut T.Area Owns h₀ h' ∧ h'.csrs .mscratch = T.timerTrap ∧ h'.mem = h.mem := by
  rw [Hart.run_append] at hh'
  obtain ⟨hmem, hcsrs, hget⟩ := Riscv.run_loads h legal t0 timerSaved
  have hloaded : ∀ x ∈ timerSaved, (h.run legal (loads t0 timerSaved)).get x.1 = h₀.get x.1 := by
    intro x hx
    have hword := get_run_loads_of_mem h legal t0 (by decide) (by decide) (by decide) hx
    rwa [hs.base, hs.saved x hx] at hword
  set h₁ := h.run legal (loads t0 timerSaved)
  have ht0 : h₁.get t0 = T.timerTrap := by rw [hget _ timerSaved_ne, hs.base]
  have hget' : ∀ r, h'.get r = if r = t0 then h₀.get t0 else h₁.get r := by
    intro r
    simp [hh', Hart.exec, hcsrs, hs.mscratch, t0]
  have hmem' : h'.mem = h.mem := by
    rw [hh', ← hmem]
    simp [Hart.exec]
  refine ⟨⟨fun r => ?_, fun c hc => ?_, fun x hx => by rw [hmem', hs.mem x hx]⟩, ?_, hmem'⟩
  · rw [hget']
    split_ifs with hr
    · rw [hr]
    · by_cases hx : ∀ x ∈ timerSaved, x.1 ≠ r
      · rw [hget r hx, hs.get r hr hx]
      · obtain ⟨x, hmem, rfl⟩ : ∃ x ∈ timerSaved, x.1 = r := by simpa using hx
        exact hloaded x hmem
  · obtain ⟨h1, h2⟩ := not_or.1 hc
    rw [hh']
    simp [Hart.exec, h1, h2, hcsrs, hs.csrs c hc]
  · simp [hh', Hart.exec, legal, ht0]

/-- `mtimertrap` puts the next tick one interval later, and leaves the rest as it was. -/
theorem run_mtimertrap (ha : T.Armed start n h) (hh' : h' = h.run legal mtimertrap) :
    SameBut T.Area Owns h h' ∧ T.Armed start (n + 1) h' := by
  rw [mtimertrap, List.append_assoc _ (loads t0 timerSaved), Hart.run_append, Hart.run_append] at hh'
  have hs := (ha.holds rfl).tick rfl
  rw [← tick_succ] at hs
  obtain ⟨hsame, hscratch, hmem⟩ := hs.run_loads hh'
  have hword : ∀ a, h'.word a = _ := fun a => by rw [Hart.word, hmem, ← Hart.word]
  exact ⟨hsame, hscratch, (hword _).trans hs.mtimercmp, (hword _).trans hs.interval, by rw [hmem, hs.next]⟩

end Timer

/-! ## Interrupts of the timer in between -/

section

variable {T : Timer w} {start : ℕ} {n m N : ℕ} {h h' : Hart w Csr} {K : Layout w} {l l' : Label}

/-- Code that does not use the memory of the timer does the same with interrupts of the timer,
    whenever they come, as without them; and each of them puts the next tick one interval later. -/
theorem mtimertrap_unnoticed {L : Type} {P : Program w Csr L} {l l' l₁ : L} {h₁ : Hart w Csr}
    (ha : T.Armed start m h)
    (hcode : P.SparesRun legal T.Area Timer.Owns N l h) (hrun : P.run legal N l h = some (l₁, h₁))
    (hint : P.Interrupted legal (fun h => h.run legal mtimertrap) n l h l' h') :
    l' = l₁ ∧ SameBut T.Area Timer.Owns h₁ h' ∧ T.Armed start (m + n) h' :=
  hint.sameBut (I := fun m h => T.Armed start m h) (fun ha => Timer.run_mtimertrap ha rfl)
    (fun hs ha => ha.same hs)
    ⟨fun _ => rfl, fun _ _ => rfl, fun _ _ => rfl⟩ ha hcode hrun

theorem owns_of_ne {c : Csr} (hscratch : c ≠ .mscratch) (hip : c ≠ .mip) : ¬Timer.Owns c := fun hc =>
  hc.elim hscratch hip

/-- `&thiscpu()->proc`. -/
def Layout.procAddr (K : Layout w) (h : Hart w Csr) : BitVec w := K.cpus + offset w 15 * h.get tp

/-- The timer has memory of its own, apart from `trap_frame`, `paged_memory`, the process of the
    hart and its stack pointer; and the frame lies apart from where the process is. -/
structure Layout.Clear (K : Layout w) (T : Timer w) (h : Hart w Csr) : Prop where
  frame : ∀ i < 32, OutsideOf T.Area (K.trapFrame + offset w i)
  ksatp : OutsideOf T.Area K.pagedMemory
  proc : OutsideOf T.Area (K.procAddr h)
  apart : ∀ i < 32, Apart (K.trapFrame + offset w i) (w / 8) (K.procAddr h) (w / 8)
  stack : h.word (K.procAddr h) ≠ 0 → OutsideOf T.Area (h.word (K.procAddr h) + offset w 2)

/-! ## trap_vector -/

/-- `trap_vector`, up to where it gets the process. -/
def Layout.entryCode (K : Layout w) : List (Instr w Csr) :=
  ([.csrrw t6 .scratch t6] ++ saves t6 Layout.saved) ++
    [.mv t0 t6, .csrrw t6 .scratch t6, .store t6 (offset w 30) t0] ++
    (if K.mmu then [.li t6 K.pagedMemory, .load t6 (offset w 0) t6, .csrw .satp t6, .sfence] else [])

/-- It gets the process of the hart. -/
def Layout.procCode (K : Layout w) : List (Instr w Csr) :=
  [.csrr t6 .epc, .store t6 (offset w 31) t0, .li t0 K.cpus, .mv t1 tp, .li t2 (offset w 15), .mul t2 t2 t1,
    .add t0 t0 t2, .load t0 (offset w 0) t0]

theorem Layout.trapVectorCode_eq : K.trapVectorCode = K.entryCode ++ K.procCode := rfl

theorem saved_lt : ∀ x ∈ Layout.saved, x.2 < 32 := by decide

/-- What the first part of `trap_vector` does not change. -/
theorem run_entryCode (hscratch : h.csrs .scratch = K.trapFrame) (hh' : h' = h.run legal K.entryCode) :
    h'.get t0 = K.trapFrame ∧ h'.get tp = h.get tp ∧
      ∀ a, (∀ i < 32, Apart (K.trapFrame + offset w i) (w / 8) a (w / 8)) → h'.word a = h.word a := by
  rw [Layout.entryCode, Hart.run_append, Hart.run_append] at hh'
  obtain ⟨hsaved, ht6, hscratch₁⟩ := run_saved hscratch rfl
  obtain ⟨-, ht0, -⟩ := run_saved_t6 hsaved ht6 hscratch₁ rfl
  have ht6₀ : (h.run legal [.csrrw t6 .scratch t6]).get t6 = K.trapFrame := by simp [Hart.exec, hscratch, t6]
  have htp₁ : (h.run legal ([.csrrw t6 .scratch t6] ++ saves t6 Layout.saved)).get tp = h.get tp := by
    rw [Hart.run_append, (get_run_saves _ _ _ _).1]
    simp [Hart.exec, tp, t6]
  have hword₁ : ∀ a, (∀ i < 32, Apart (K.trapFrame + offset w i) (w / 8) a (w / 8)) →
      (h.run legal ([.csrrw t6 .scratch t6] ++ saves t6 Layout.saved)).word a = h.word a := by
    intro a hapart
    rw [Hart.run_append]
    refine (word_run_saves fun x hx => ?_).trans (by simp [Hart.exec])
    rw [ht6₀]
    exact hapart x.2 (saved_lt x hx)
  -- All registers but `t6` and `t0` are in the frame now.
  set h₁ := h.run legal ([.csrrw t6 .scratch t6] ++ saves t6 Layout.saved)
  have htp₂ : (h₁.run legal [.mv t0 t6, .csrrw t6 .scratch t6, .store t6 (offset w 30) t0]).get tp =
      h₁.get tp := by
    simp [Hart.exec, tp, t0, t6]
  have hword₂ : ∀ a, Apart (K.trapFrame + offset w 30) (w / 8) a (w / 8) →
      (h₁.run legal [.mv t0 t6, .csrrw t6 .scratch t6, .store t6 (offset w 30) t0]).word a = h₁.word a := by
    intro a hapart
    have hset : (h₁.setWord (K.trapFrame + offset w 30) (h₁.csrs .scratch)).word a = h₁.word a :=
      Hart.word_setWord_of_apart hapart
    simpa [Hart.exec, ht6, t0, t6, Hart.word, Hart.setWord] using hset
  set h₂ := h₁.run legal [.mv t0 t6, .csrrw t6 .scratch t6, .store t6 (offset w 30) t0]
  have hmmu : h'.mem = h₂.mem ∧ ∀ r, r ≠ t6 → h'.get r = h₂.get r := by
    rw [hh']
    split
    · exact ⟨by simp [Hart.exec], fun r hr => by simp [Hart.exec, hr]⟩
    · exact ⟨by rw [Hart.run_nil], fun r _ => by rw [Hart.run_nil]⟩
  refine ⟨by rw [hmmu.2 _ (by decide), ht0], by
    rw [hmmu.2 _ (by decide), htp₂, htp₁], fun a hapart => ?_⟩
  rw [Hart.word, hmmu.1, ← Hart.word, hword₂ a (hapart 30 (by decide)), hword₁ a hapart]

theorem sparesAll_entryCode (hscratch : h.csrs .scratch = K.trapFrame) (hc : K.Clear T h) :
    SparesAll legal T.Area Timer.Owns K.entryCode h := by
  obtain ⟨-, ht6, -⟩ := run_saved hscratch rfl
  rw [Layout.entryCode]
  refine sparesAll_append (sparesAll_append (sparesAll_append ?_ (sparesAll_saves fun x hx => ?_)) ?_) ?_
  · exact ⟨owns_of_ne (by decide) (by decide), trivial⟩
  · have ht6 : (h.run legal [.csrrw t6 .scratch t6]).get t6 = K.trapFrame := by simp [Hart.exec, hscratch, t6]
    rw [ht6]
    exact hc.frame x.2 (saved_lt x hx)
  · generalize h.run legal ([.csrrw t6 .scratch t6] ++ saves t6 Layout.saved) = h₁ at ht6 ⊢
    refine ⟨trivial, owns_of_ne (by decide) (by decide), ?_, trivial⟩
    simpa [Instr.Spares, Hart.exec, ht6, t0, t6] using hc.frame 30 (by decide)
  · split
    · refine ⟨trivial, ?_, owns_of_ne (by decide) (by decide), trivial, trivial⟩
      simpa [Instr.Spares, Hart.exec, t6] using hc.ksatp
    · trivial

/-- The first piece of `trap_vector`: it gets the process of the hart. -/
theorem trapVectorCode_clear (hscratch : h.csrs .scratch = K.trapFrame) (hc : K.Clear T h) :
    SparesAll legal T.Area Timer.Owns K.trapVectorCode h ∧
      (h.run legal K.trapVectorCode).get t0 = h.word (K.procAddr h) := by
  obtain ⟨ht0, htp, hword⟩ := run_entryCode hscratch rfl
  rw [Layout.trapVectorCode_eq, Hart.run_append]
  refine ⟨sparesAll_append (sparesAll_entryCode hscratch hc) ?_, ?_⟩
  · refine ⟨owns_of_ne (by decide) (by decide), ?_, trivial, trivial, trivial,
      trivial, trivial, ?_, trivial⟩
    · simpa [Instr.Spares, Hart.exec, ht0, t0, t6] using hc.frame 31 (by decide)
    · simpa [Instr.Spares, Hart.exec, htp, Layout.procAddr, t0, t1, t2, t6, tp] using hc.proc
  · rw [← hword _ hc.apart, Layout.procAddr, ← htp]
    have hapart := hc.apart 31 (by decide)
    rw [Layout.procAddr, ← htp] at hapart
    generalize h.run legal K.entryCode = h₁ at ht0 hapart ⊢
    have hset : (h₁.setWord (K.trapFrame + offset w 31) (h₁.csrs .epc)).word
        (K.cpus + offset w 15 * h₁.get tp) =
        h₁.word (K.cpus + offset w 15 * h₁.get tp) := Hart.word_setWord_of_apart hapart
    rw [← hset]
    have hstore : h₁.run legal [.csrr t6 .epc, .store t6 (offset w 31) t0] =
        (h₁.set t6 (h₁.csrs .epc)).setWord (K.trapFrame + offset w 31) (h₁.csrs .epc) := by
      simp [Hart.exec, ht0, t0, t6]
    have hword₂ : ∀ a, (h₁.run legal [.csrr t6 .epc, .store t6 (offset w 31) t0]).word a =
        (h₁.setWord (K.trapFrame + offset w 31) (h₁.csrs .epc)).word a := by
      intro a
      rw [hstore]
      simp [Hart.word, Hart.setWord]
    have htp₂ : (h₁.run legal [.csrr t6 .epc, .store t6 (offset w 31) t0]).get tp = h₁.get tp := by
      simp [Hart.exec, t6, tp]
    rw [show K.procCode = [.csrr t6 .epc, .store t6 (offset w 31) t0] ++
      [.li t0 K.cpus, .mv t1 tp, .li t2 (offset w 15),
      .mul t2 t2 t1, .add t0 t0 t2, .load t0 (offset w 0) t0] from rfl, Hart.run_append, ← hword₂]
    generalize h₁.run legal [.csrr t6 .epc, .store t6 (offset w 31) t0] = h₂ at htp₂ ⊢
    rw [← htp₂]
    simp [Hart.exec, t0, t1, t2, tp]

/-- An address in the tables leads into the tables. -/
theorem Layout.label_some {a : BitVec w} (hl : K.label a = some l) :
    (∃ i, l = .interruptVector i) ∨ ∃ i, l = .exceptionVector i := by
  simp only [label] at hl
  split_ifs at hl
  · exact .inl ⟨_, (Option.some.inj hl).symm⟩
  · exact .inr ⟨_, (Option.some.inj hl).symm⟩

/-- The places where no memory is used. -/
def Label.inRegisters (l : Label) : Bool := l ≠ .trapVector ∧ l ≠ .procStack ∧ l ≠ .retToUser

theorem inRegisters_entries :
    (∀ i, (interruptEntry i).inRegisters) ∧ ∀ i, (exceptionEntry i).inRegisters := by decide

/-- On the way to the function for the cause nothing in memory is used. -/
theorem sparesRun_dispatch (hl : l.inRegisters) : K.program.SparesRun legal T.Area Timer.Owns N l h := by
  induction N generalizing l h with
  | zero => trivial
  | succ N ih =>
    have hlabel : ∀ {a h} {x : Label × Hart w Csr}, x ∈ (K.label a).map (fun l => (l, h)) →
        x.1.inRegisters := by
      intro a h x hx
      obtain ⟨l, hl, rfl⟩ := Option.map_eq_some_iff.1 hx
      rcases Layout.label_some hl with ⟨i, rfl⟩ | ⟨i, rfl⟩ <;> rfl
    -- Each block is a few instructions on registers, and goes on at one of the other
    -- labels.
    cases l with
    | trapVector | procStack | retToUser => cases hl
    | setGlobalStack =>
      rintro b ⟨rfl⟩
      refine ⟨⟨trivial, trivial, trivial, trivial, trivial, trivial, trivial, trivial⟩, ?_⟩
      rintro x ⟨rfl⟩
      exact ih rfl
    | stackDone =>
      rintro b ⟨rfl⟩
      refine ⟨⟨owns_of_ne (by decide) (by decide), trivial⟩, ?_⟩
      rintro x ⟨rfl⟩
      refine ih ?_
      dsimp only
      split <;> rfl
    | takeInterrupt =>
      rintro b ⟨rfl⟩
      exact ⟨⟨trivial, trivial, trivial, trivial⟩, fun x hx => ih (hlabel hx)⟩
    | interruptVector i =>
      rintro b ⟨rfl⟩
      refine ⟨trivial, ?_⟩
      rintro x ⟨rfl⟩
      exact ih (inRegisters_entries.1 i)
    | exceptionVector i =>
      rintro b ⟨rfl⟩
      refine ⟨trivial, ?_⟩
      rintro x ⟨rfl⟩
      exact ih (inRegisters_entries.2 i)
    | exceptionDispatch =>
      rintro b ⟨rfl⟩
      refine ⟨⟨trivial, owns_of_ne (by decide) (by decide), trivial, trivial, trivial, trivial⟩, ?_⟩
      rintro x ⟨rfl⟩
      refine ih ?_
      dsimp only
      split <;> rfl
    | takeException =>
      rintro b ⟨rfl⟩
      exact ⟨trivial, fun x hx => ih (hlabel hx)⟩
    | _ => rintro b ⟨⟩

/-- `trap_vector` does not use the memory of the timer, all the way to the function for the cause. -/
theorem sparesRun_trapVector (hscratch : h.csrs .scratch = K.trapFrame) (hc : K.Clear T h) :
    K.program.SparesRun legal T.Area Timer.Owns N .trapVector h := by
  obtain ⟨hspares, ht0⟩ := trapVectorCode_clear hscratch hc
  cases N with
  | zero => trivial
  | succ N =>
    rintro b ⟨rfl⟩
    refine ⟨hspares, ?_⟩
    rintro x ⟨rfl⟩
    by_cases h0 : (h.run legal K.trapVectorCode).get t0 = 0
    · exact sparesRun_dispatch (by rw [if_pos h0]; rfl)
    · rw [if_neg h0]
      cases N with
      | zero => trivial
      | succ N =>
        rintro b ⟨rfl⟩
        refine ⟨⟨?_, trivial⟩, ?_⟩
        · rw [ht0] at h0
          rw [Instr.Spares, ht0]
          exact hc.stack h0
        · rintro x ⟨rfl⟩
          exact sparesRun_dispatch rfl

/-! ## ret_to_user -/

theorem sparesAll_retToUserCode (hscratch : h.csrs .scratch = K.trapFrame)
    (hc : ∀ i < 32, OutsideOf T.Area (K.trapFrame + offset w i)) :
    SparesAll legal T.Area Timer.Owns K.retToUserCode h := by
  have howns : ∀ c : Csr, c ≠ .mscratch → c ≠ .mip → ¬Timer.Owns c :=
    fun c h₁ h₂ hc => hc.elim h₁ h₂
  rw [Layout.retToUserCode]
  have hmmu : SparesAll legal T.Area Timer.Owns (if K.mmu then [.csrw .satp a0, .sfence] else []) h := by
    split
    · exact ⟨howns _ (by decide) (by decide), trivial, trivial⟩
    · trivial
  have hscratch₁ : (h.run legal (if K.mmu then [.csrw .satp a0, .sfence] else [])).csrs .scratch =
      K.trapFrame := by
    split <;> simp [Hart.exec, hscratch]
  set h₁ := h.run legal (if K.mmu then [.csrw .satp a0, .sfence] else [])
  refine sparesAll_append (sparesAll_append (sparesAll_append hmmu ?_) ?_)
    ⟨howns _ (by decide) (by decide), trivial⟩
  · refine ⟨trivial, ?_, howns _ (by decide) (by decide), ?_, howns _ (by decide) (by decide), trivial⟩
    · simpa [Instr.Spares, Hart.exec, t6] using hc 31 (by decide)
    · simpa [Instr.Spares, Hart.exec, t6, t0] using hc 30 (by decide)
  · refine sparesAll_loads (by decide) fun x hx => ?_
    rw [Hart.run_append]
    have ht6 : (h₁.run legal [.li t6 K.trapFrame, .load t0 (offset w 31) t6, .csrw .epc t0,
        .load t6 (offset w 30) t6,
        .csrrw t6 .scratch t6]).get t6 = K.trapFrame := by
      simp [Hart.exec, hscratch₁, t6, t0]
    rw [ht6]
    exact hc x.2 ((by decide : ∀ x ∈ Layout.saved, x.2 < 32) x hx)

theorem frameAt_sameBut (hs : SameBut T.Area Timer.Owns h h')
    (hc : ∀ i < 32, OutsideOf T.Area (K.trapFrame + offset w i)) :
    frameAt h' K.trapFrame = frameAt h K.trapFrame :=
  Frame.ext (funext fun i => hs.word (hc i (by omega))) (hs.word (hc 31 (by decide)))

/-- `ret_to_user` does not use the memory of the timer. -/
theorem sparesRun_retToUser (hscratch : h.csrs .scratch = K.trapFrame)
    (hc : ∀ i < 32, OutsideOf T.Area (K.trapFrame + offset w i)) :
    K.program.SparesRun legal T.Area Timer.Owns N .retToUser h := by
  cases N with
  | zero => trivial
  | succ N =>
    rintro b ⟨rfl⟩
    refine ⟨sparesAll_retToUserCode hscratch hc, ?_⟩
    rintro x ⟨rfl⟩
    exact sparesRun_dispatch rfl

/-! ## Traps with interrupts -/

/-- The way into the kernel, with interrupts of the timer at any points of it: it leads to the
    function for the cause, with the registers and the program counter of what the trap has
    interrupted in `trap_frame`. -/
theorem trapVector_interrupted {c : Cause} (hscratch : h.csrs .scratch = K.trapFrame)
    (hcause : h.csrs .cause = c.word)
    (henabled : c.enabled K.sMode) (hc : K.Clear T h) (ha : T.Armed start m h)
    (hint : K.program.Interrupted legal (fun h => h.run legal mtimertrap) n .trapVector h l h') :
    l = c.handler ∧ frameAt h' K.trapFrame = frameOf h (h.csrs .epc) ∧ h'.csrs .scratch = K.trapFrame ∧
      T.Armed start (m + n) h' := by
  obtain ⟨h₁, hrun, hframe, hscratch₁⟩ := run_trapVector hscratch henabled hcause
  obtain ⟨rfl, hsame, ha'⟩ := mtimertrap_unnoticed ha (sparesRun_trapVector hscratch hc) hrun hint
  refine ⟨rfl, ?_, ?_, ha'⟩
  · rw [frameAt_sameBut hsame hc.frame, hframe]
  · rw [hsame.csrs _ (owns_of_ne (by decide) (by decide)), hscratch₁]

/-- The way back, with interrupts at any points of it: the registers and the program counter are those in
    `trap_frame`. -/
theorem retToUser_interrupted (hscratch : h.csrs .scratch = K.trapFrame)
    (hc : ∀ i < 32, OutsideOf T.Area (K.trapFrame + offset w i)) (ha : T.Armed start m h)
    (hint : K.program.Interrupted legal (fun h => h.run legal mtimertrap) n .retToUser h l h') :
    l = .xRet ∧ frameOf h' (h'.csrs .epc) = (frameAt h K.trapFrame).even ∧ T.Armed start (m + n) h' := by
  obtain ⟨h₁, hrun, hframe, -⟩ := run_retToUser hscratch
  obtain ⟨rfl, hsame, ha'⟩ := mtimertrap_unnoticed ha (sparesRun_retToUser hscratch hc) hrun hint
  refine ⟨rfl, ?_, ha'⟩
  rw [← hframe, hsame.csrs _ (owns_of_ne (by decide) (by decide))]
  exact Frame.ext (funext fun i => hsame.get (regOf i)) rfl

/-- A trap with interrupts of the timer at any points, on its way into the kernel and on its way
    back: it leads to the function for its cause, and if that leaves the frame as it is, the code
    that the trap has interrupted gets back exactly its registers. Each interrupt puts the next
    tick one interval later. -/
theorem trap_interrupted {c : Cause} {h₁ h₂ h₃ : Hart w Csr} {k n₁ n₃ : ℕ}
    (hscratch : h.csrs .scratch = K.trapFrame)
    (hcause : h.csrs .cause = c.word) (henabled : c.enabled K.sMode) (hc : K.Clear T h) (ha : T.Armed start m h)
    (h₁int : K.program.Interrupted legal (fun h => h.run legal mtimertrap) n₁ .trapVector h l h₁)
    (hframe : frameAt h₂ K.trapFrame = frameAt h₁ K.trapFrame)
    (hscratch₂ : h₂.csrs .scratch = h₁.csrs .scratch)
    (ha₂ : T.Armed start k h₂)
    (h₃int : K.program.Interrupted legal (fun h => h.run legal mtimertrap) n₃ .retToUser h₂ l' h₃) :
    l = c.handler ∧ frameAt h₁ K.trapFrame = frameOf h (h.csrs .epc) ∧ T.Armed start (m + n₁) h₁ ∧
      l' = .xRet ∧ frameOf h₃ (h₃.csrs .epc) = (frameOf h (h.csrs .epc)).even ∧
      T.Armed start (k + n₃) h₃ := by
  obtain ⟨hl, hframe₁, hscratch₁, ha₁⟩ :=
    trapVector_interrupted hscratch hcause henabled hc ha h₁int
  obtain ⟨hl', hframe₃, ha₃⟩ :=
    retToUser_interrupted (hscratch₂.trans hscratch₁) hc.frame ha₂ h₃int
  exact ⟨hl, hframe₁, ha₁, hl', by rw [hframe₃, hframe, hframe₁], ha₃⟩

end

/-- The timer of the `virt` machine of qemu. -/
def qemuVirtTimer : Timer 64 where
  timerTrap := 0x8000c000
  mtimecmp := 0x2004000
  interval := 10000000
  words := .inr rfl
  apart := by decide

/-- A process with its registers at a trap for the timer, and the memory of the timer before the next tick. -/
def timedHart : Hart 64 Csr :=
  ((Hart.mk (fun r => BitVec.ofNat 64 (1000 + r.toNat))
    (fun c => if c = .mscratch then 0x8000c000 else if c = .cause then 0x8000000000000005 else 0x8000b100)
    fun _ => 0).setWord (0x8000c000 + offset 64 3) 0x2004000).setWord (0x8000c000 + offset 64 4) 10000000

/-- One interrupt comes in the middle of `trap_vector`, after the branch to `set_global_stack`, and one before
    `ret_to_user`. -/
theorem trap_interrupted_qemuVirt : ∃ h₁ h₃ : Hart 64 Csr,
    qemuVirtLayout.program.Interrupted legal (fun h => h.run legal mtimertrap) 1 .trapVector
      timedHart .kInterruptTimer h₁ ∧
      qemuVirtLayout.program.Interrupted legal (fun h => h.run legal mtimertrap) 1
        .retToUser h₁ .xRet h₃ ∧
      frameOf h₃ (h₃.csrs .epc) = frameOf timedHart 0x8000b100 ∧
      readBytes h₃.mem 0x2004000 8 = 20000000 := by
  have ha : qemuVirtTimer.Armed 0 0 timedHart :=
    ⟨rfl, by decide +kernel, by decide +kernel, by decide +kernel⟩
  have hc : qemuVirtLayout.Clear qemuVirtTimer timedHart :=
    ⟨by decide +kernel, by decide +kernel, by decide +kernel, by decide +kernel, by decide +kernel⟩
  set h := timedHart.run legal qemuVirtLayout.trapVectorCode with hh
  have hnext : qemuVirtLayout.program.next h (.beqz t0 .setGlobalStack .procStack) =
      some (.setGlobalStack, h) := by
    have h0 : h.get t0 = 0 := by
      rw [hh]
      decide +kernel
    rw [Program.next, if_pos h0]
  have hrun : ∃ x ∈ qemuVirtLayout.program.run legal 7 .setGlobalStack (h.run legal mtimertrap),
      x.1 = .kInterruptTimer := by
    rw [hh]
    decide +kernel
  obtain ⟨⟨_, h₁⟩, hrun, rfl⟩ := hrun
  have h₁int : qemuVirtLayout.program.Interrupted legal (fun h => h.run legal mtimertrap)
      (0 + 1) .trapVector timedHart
      .kInterruptTimer h₁ := .block rfl .of_run hnext (.interrupt (.of_run hrun))
  have hret : ∃ h₃, qemuVirtLayout.program.run legal 2 .retToUser (h₁.run legal mtimertrap) =
      some (.xRet, h₃) :=
    ⟨_, (Program.run_of_next rfl rfl).trans (Program.run_of_none rfl)⟩
  obtain ⟨h₃, hret⟩ := hret
  have h₃int : qemuVirtLayout.program.Interrupted legal (fun h => h.run legal mtimertrap) (0 + 1)
      .retToUser h₁ .xRet h₃ :=
    .interrupt (.of_run hret)
  have ha₁ := (trapVector_interrupted (c := .interrupt 5) rfl rfl rfl hc ha h₁int).2.2.2
  obtain ⟨-, -, -, -, hregs, ha₃⟩ :=
    trap_interrupted (c := .interrupt 5) rfl rfl rfl hc ha h₁int rfl rfl ha₁ h₃int
  exact ⟨h₁, h₃, h₁int, h₃int, hregs, ha₃.next.trans (by decide)⟩

end HobbyOs.Asm
