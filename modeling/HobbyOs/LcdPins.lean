import HobbyOs.Gpio
import HobbyOs.Lcd
import Mathlib.Data.Fin.VecNotation
import Mathlib.Tactic.Set

/-!
# The pins of the LCD

How `drivers/hd44780/hd44780.c` gets its bytes to the display: over six pins, half a byte at a
time. The display reads its pins when the level of the `enable` pin falls. It may be in the
mode of 8 bits, where every nibble is the upper half of an instruction, or in that of 4 bits,
where two nibbles make a byte; which one, and whether it has read the first half of a byte
already, the driver cannot know when it starts.

* `Board`: the registers of the pins, and the display behind them; `lcdBegin`, `lcdCommand`
  and `lcdWrite` change the pins one after another.
* `ready_lcdBegin`: whatever the display has been doing, the driver and the display agree on
  what is a byte after `_init_4_bit_mode`.
* `lcd_receives`: from then on the display receives what the driver sends, whatever the
  processes do to the other pins in between.
-/

namespace HobbyOs.Bus

open Gpio

/-! ## The display -/

/-- Half a byte, with the level of the `rs` pin. A line may be undefined, when nothing drives it. -/
structure Nibble where
  rs : Option Bool
  data : Fin 4 → Option Bool

/-- A byte, the lowest bit first. -/
structure Transfer where
  rs : Option Bool
  bits : Fin 8 → Option Bool

/-- The display, as far as it reads bytes. -/
structure Reader where
  eightBit : Bool
  half : Option Nibble
  received : List Transfer

/-- The mode, after the instruction with this upper half: `LCD_FUNCTIONSET` chooses it by `LCD_8BITMODE`. -/
def Nibble.mode (n : Nibble) (eightBit : Bool) : Bool :=
  if n.rs = some false ∧ n.data 3 = some false ∧ n.data 2 = some false ∧ n.data 1 = some true then
    (n.data 0).getD eightBit
  else eightBit

/-- Two nibbles make a byte. -/
def Nibble.join (high low : Nibble) : Transfer where
  rs := high.rs
  bits i := if h : i.val < 4 then low.data ⟨i, h⟩ else high.data ⟨i - 4, by omega⟩

/-- The display reads its pins. Only in the mode of 4 bits it knows all of a byte. -/
def Reader.latch (d : Reader) (n : Nibble) : Reader :=
  if d.eightBit then { d with eightBit := n.mode true, half := none }
  else
    match d.half with
    | none => { d with half := some n }
    | some high => ⟨high.mode false, none, d.received ++ [high.join n]⟩

/-! ## The driver -/

/-- `rs_pin`, as `lcd_init` sets it: `GPIO_PIN_10`. -/
def rsPin : BitVec 32 := 2

/-- `enable_pin`: `GPIO_PIN_11`. -/
def enablePin : BitVec 32 := 3

/-- `data_pins`: `GPIO_PIN_4` to `GPIO_PIN_7`. -/
def dataPins : Fin 4 → BitVec 32 := ![20, 21, 22, 23]

/-- The pins that `lcd_begin` enables. -/
def outputPins : List (BitVec 32) := [rsPin, enablePin, dataPins 0, dataPins 1, dataPins 2, dataPins 3]

/-- What is on the lines to the display. -/
def nibble (g : Gpio) : Nibble where
  rs := (g.pins (index rsPin)).line
  data i := (g.pins (index (dataPins i))).line

/-- The line of the `enable` pin. -/
def enableLine (g : Gpio) : Option Bool := (g.pins (index enablePin)).line

/-- The pins, and the display behind them. -/
structure Board where
  gpio : Gpio
  reader : Reader

/-- The pins are changed: the display reads them if the level of the `enable` pin falls. -/
def Board.change (b : Board) (f : Gpio → Gpio) : Board where
  gpio := f b.gpio
  reader :=
    if enableLine b.gpio = some true ∧ enableLine (f b.gpio) = some false then
      b.reader.latch (nibble (f b.gpio))
    else b.reader

namespace Board

variable (b : Board)

/-- `gpio_set_pin`. -/
def setPin (pin : BitVec 32) (value : Bool) : Board := b.change fun g => g.gpioSetPin pin value

/-- `gpio_enable_pin_out`. -/
def enablePinOut (pin : BitVec 32) : Board := b.change fun g => g.gpioEnablePinOut pin

/-- `lcd_write_4bits`. -/
def lcdWrite4bits (value : BitVec 8) : Board :=
  let b := [0, 1, 2, 3].foldl (fun (b : Board) (i : Fin 4) => b.setPin (dataPins i) (value.getLsbD i)) b
  ((b.setPin enablePin false).setPin enablePin true).setPin enablePin false

/-- `lcd_command`. -/
def lcdCommand (value : BitVec 8) : Board :=
  ((b.setPin rsPin false).lcdWrite4bits (value >>> 4)).lcdWrite4bits value

/-- `lcd_write`. -/
def lcdWrite (value : BitVec 8) : Board :=
  ((b.setPin rsPin true).lcdWrite4bits (value >>> 4)).lcdWrite4bits value

/-- `_init_4_bit_mode`. -/
def init4BitMode : Board := (((b.lcdWrite4bits 3).lcdWrite4bits 3).lcdWrite4bits 3).lcdWrite4bits 2

/-- `lcd_begin`, before its commands. -/
def lcdBegin : Board :=
  let b := outputPins.foldl enablePinOut b
  ((b.setPin rsPin false).setPin enablePin false).init4BitMode

end Board

/-- What may happen: the driver sends a byte, or a process makes the system call `gpio`. -/
inductive LcdEvent
  | command (value : BitVec 8)
  | write (value : BitVec 8)
  | gpio (pin enable value : BitVec 32)

/-- What comes of it. -/
def LcdEvent.step (b : Board) : LcdEvent → Board
  | .command value => b.lcdCommand value
  | .write value => b.lcdWrite value
  | .gpio pin enable value => b.change fun g => (g.gpioDoSyscall pin enable value).2

/-- The pins of the display. -/
def lcdPins : List (Fin 32) := outputPins.map index

/-- The command does not choose the mode of 8 bits; the call leaves the `enable` pin alone, and
    disables none of the others. -/
def LcdEvent.Spares : LcdEvent → Prop
  | .command value => value >>> 4 ≠ 3
  | .write _ => True
  | .gpio pin enable _ => index pin ≠ index enablePin ∧ (enable = 0 → index pin ∉ lcdPins)

/-- A byte as it is sent. -/
def transfer (rs : Bool) (value : BitVec 8) : Transfer := ⟨some rs, fun i => some (value.getLsbD i)⟩

/-- What the driver sends. -/
def LcdEvent.sent : LcdEvent → List Transfer
  | .command value => [transfer false value]
  | .write value => [transfer true value]
  | .gpio .. => []

/-! ## Half a byte -/

/-- The pins of the display are outputs. -/
def Outputs (g : Gpio) : Prop := ∀ i ∈ lcdPins, (g.pins i).out = true ∧ (g.pins i).iof = false

/-- The display is driven, and its `enable` pin is low. -/
structure Driven (g : Gpio) : Prop where
  outputs : Outputs g
  low : (g.pins (index enablePin)).level = false

/-- Half a byte as it is sent. -/
def half (rs : Bool) (value : BitVec 8) : Nibble := ⟨some rs, fun i => some (value.getLsbD i)⟩

section

variable {b b' : Board} {g g' : Gpio} {i : Fin 32} {pin : BitVec 32} {value : BitVec 8} {v rs : Bool}

theorem dataPins_ne :
    ∀ i, index (dataPins i) ≠ index enablePin ∧ index (dataPins i) ∈ lcdPins := by decide

theorem dataPins_inj : ∀ i j, index (dataPins i) = index (dataPins j) → i = j := by decide

theorem Outputs.line (h : Outputs g) (hi : i ∈ lcdPins) : (g.pins i).line = some (g.pins i).level := by
  simp [Pin.line, h i hi]

theorem Outputs.set (h : Outputs g) : Outputs (g.gpioSetPin pin v) := by
  intro i hi
  by_cases hpin : i = index pin
  · subst hpin
    simpa using h _ hi
  · simpa [hpin] using h i hi

theorem level_set : ((g.gpioSetPin pin v).pins i).level = if i = index pin then v else (g.pins i).level := by
  by_cases hpin : i = index pin <;> simp [hpin]

theorem Driven.enableLine (h : Driven g) : enableLine g = some false := by
  rw [Bus.enableLine, h.outputs.line (by decide), h.low]

/-- Nothing is read while the `enable` pin is low. -/
theorem Driven.change (h : Driven b.gpio) {f : Gpio → Gpio} : (b.change f).reader = b.reader :=
  if_neg fun hfall => by simp [h.enableLine] at hfall

/-- Another pin is set. -/
theorem Driven.set (h : Driven g) (hpin : index pin ≠ index enablePin) : Driven (g.gpioSetPin pin v) where
  outputs := h.outputs.set
  low := by rw [level_set, if_neg hpin.symm, h.low]

/-- The `enable` pin is set to low. -/
theorem Outputs.driven (h : Outputs g) : Driven (g.gpioSetPin enablePin false) where
  outputs := h.set
  low := by rw [level_set, if_pos rfl]

/-- The `enable` pin is not one of those that the display reads. -/
theorem nibble_congr (h : ∀ i ≠ index enablePin, g'.pins i = g.pins i) : nibble g' = nibble g := by
  rw [nibble, nibble, h _ (by decide)]
  congr
  funext i
  rw [h _ (dataPins_ne i).1]

/-- A pulse of the `enable` pin: the display reads its pins once. -/
theorem pulse (h : Driven b.gpio)
    (hb' : b' = ((b.setPin enablePin false).setPin enablePin true).setPin enablePin false) :
    Driven b'.gpio ∧ (∀ i ≠ index enablePin, b'.gpio.pins i = b.gpio.pins i) ∧
      b'.reader = b.reader.latch (nibble b.gpio) := by
  have hpins : ∀ i ≠ index enablePin, b'.gpio.pins i = b.gpio.pins i := by
    intro i hi
    simp [hb', Board.setPin, Board.change, hi]
  have hlow : Driven b'.gpio := hb' ▸ h.outputs.set.set.driven
  set b₁ := b.setPin enablePin false with hb₁
  set b₂ := b₁.setPin enablePin true with hb₂
  have h₁ : Driven b₁.gpio := h.outputs.driven
  -- The level rises, and then it falls.
  have hrise : Bus.enableLine b₂.gpio = some true :=
    (h₁.outputs.set.line (by decide)).trans (congrArg some (level_set.trans (if_pos rfl)))
  have hread : b'.reader = b₂.reader.latch (nibble b'.gpio) := by
    rw [hb']
    exact if_pos ⟨hrise, (hb' ▸ hlow).enableLine⟩
  refine ⟨hlow, hpins, ?_⟩
  rw [hread, nibble_congr hpins]
  exact congrArg (Reader.latch · _) (h₁.change.trans h.change)

variable (value) in
/-- The loop over the data pins. -/
theorem writes {l : List (Fin 4)} (h : Driven b.gpio)
    (hb' : b' = l.foldl (fun b i => b.setPin (dataPins i) (value.getLsbD i)) b) :
    Driven b'.gpio ∧ b'.reader = b.reader ∧
      (∀ k ∈ l, (b'.gpio.pins (index (dataPins k))).level = value.getLsbD k) ∧
      ∀ i, (∀ k ∈ l, i ≠ index (dataPins k)) → (b'.gpio.pins i).level = (b.gpio.pins i).level := by
  induction l generalizing b with
  | nil =>
    subst hb'
    exact ⟨h, rfl, fun _ hk => absurd hk List.not_mem_nil, fun _ _ => rfl⟩
  | cons k l ih =>
    set b₁ := b.setPin (dataPins k) (value.getLsbD k) with hb₁
    obtain ⟨hdriven, hread, hdata, hrest⟩ := ih (b := b₁) (h.set (dataPins_ne k).1) hb'
    refine ⟨hdriven, hread.trans h.change, fun m hm => ?_, fun i hi => ?_⟩
    · -- A pin that is set now keeps its level, unless it is set again.
      by_cases hml : m ∈ l
      · exact hdata m hml
      · obtain rfl : m = k := (List.mem_cons.1 hm).resolve_right hml
        rw [hrest (index (dataPins m)) fun n hn hmn => hml (dataPins_inj m n hmn ▸ hn)]
        exact level_set.trans (if_pos rfl)
    · rw [hrest i fun n hn => hi n (List.mem_cons_of_mem _ hn)]
      exact level_set.trans (if_neg (hi k List.mem_cons_self))

variable (value) in
/-- `lcd_write_4bits`: the display reads half a byte. -/
theorem write4bits (h : Driven b.gpio) (hrs : (b.gpio.pins (index rsPin)).level = rs)
    (hb' : b' = b.lcdWrite4bits value) :
    Driven b'.gpio ∧ (b'.gpio.pins (index rsPin)).level = rs ∧
    b'.reader = b.reader.latch (half rs value) := by
  obtain ⟨h₁, hread₁, hdata, hrest⟩ := writes value (l := [0, 1, 2, 3]) h rfl
  obtain ⟨hdriven, hpins, hread⟩ := pulse h₁ hb'
  have hrs₁ := (hrest (index rsPin) (by decide)).trans hrs
  refine ⟨hdriven, (congrArg Pin.level (hpins _ (by decide))).trans hrs₁, ?_⟩
  -- What is on the lines at the pulse is what the loop has put there.
  rw [hread, hread₁]
  refine congrArg (Reader.latch _) ?_
  rw [nibble, half, h₁.outputs.line (by decide), hrs₁]
  congr
  funext k
  rw [h₁.outputs.line (dataPins_ne k).2, hdata k (by revert k; decide)]

end

/-! ## Bytes -/

/-- The driver and the display agree on what is a byte. -/
structure Ready (b : Board) : Prop where
  driven : Driven b.gpio
  eightBit : b.reader.eightBit = false
  half : b.reader.half = none

section

variable {b b' : Board} {value : BitVec 8} {rs : Bool}

theorem mode_half : ∀ value :
    BitVec 8, value >>> 4 ≠ 3 → (half false (value >>> 4)).mode false = false := by
  decide +kernel

/-- Whatever the display takes the nibbles for, after the last one it is in the mode of 4 bits, and between two
    bytes. -/
theorem latch_init (d : Reader) {d' : Reader}
    (hd' : d' = (((d.latch (half false 3)).latch (half false 3)).latch (half false 3)).latch (half false 2)) :
    d'.eightBit = false ∧ d'.half = none := by
  have h3 : ∀ m, (half false 3#8).mode m = true := by decide
  have h2 : ∀ m, (half false 2#8).mode m = false := by decide
  obtain ⟨eightBit, first, received⟩ := d
  subst hd'
  cases eightBit with
  | true => simp [Reader.latch, h3, h2]
  | false =>
    -- Two nibbles choose the mode of 8 bits, once the byte that has been begun is over.
    cases first with
    | none => simp [Reader.latch, h3, h2]
    | some high => cases hm : high.mode false <;> simp [Reader.latch, h3, h2, hm]

theorem join_half : (half rs (value >>> 4)).join (half rs value) = transfer rs value := by
  rw [Nibble.join, transfer]
  congr
  funext i
  by_cases hi : i.val < 4
  · simp [half, hi]
  · simp [half, hi, show 4 + (i.val - 4) = i.val by omega]

/-- The two nibbles of a byte. -/
theorem send (h : Ready b) (hmode : (half rs (value >>> 4)).mode false = false)
    (hb' : b' = ((b.setPin rsPin rs).lcdWrite4bits (value >>> 4)).lcdWrite4bits value) :
    Ready b' ∧ b'.reader.received = b.reader.received ++ [transfer rs value] := by
  obtain ⟨hdriven, height, hhalf⟩ := h
  obtain ⟨h₁, hrs₁, hread₁⟩ := write4bits (value >>> 4) (b := b.setPin rsPin rs)
    (hdriven.set (by decide)) (level_set.trans (if_pos rfl)) rfl
  obtain ⟨h₂, -, hread₂⟩ := write4bits value h₁ hrs₁ hb'
  rw [hread₁, show (b.setPin rsPin rs).reader = b.reader from hdriven.change] at hread₂
  have hread : b'.reader = ⟨false, none, b.reader.received ++ [transfer rs value]⟩ := by
    rw [hread₂, ← join_half]
    simp [Reader.latch, height, hhalf, hmode]
  exact ⟨⟨h₂, by rw [hread], by rw [hread]⟩, by rw [hread]⟩

/-- The pins that are enabled are outputs. -/
theorem enables {l : List (BitVec 32)} {i : Fin 32}
    (hi : i ∈ l.map index ∨ (b.gpio.pins i).out = true ∧ (b.gpio.pins i).iof = false) :
    ((l.foldl Board.enablePinOut b).gpio.pins i).out = true ∧
      ((l.foldl Board.enablePinOut b).gpio.pins i).iof = false := by
  induction l generalizing b with
  | nil => exact hi.resolve_left List.not_mem_nil
  | cons pin l ih =>
    refine ih ?_
    by_cases hpin : i = index pin
    · right
      simp [Board.enablePinOut, Board.change, hpin]
    · rw [List.map_cons, List.mem_cons, or_iff_right hpin] at hi
      simpa [Board.enablePinOut, Board.change, hpin] using hi

/-- `lcd_begin` finds the display in any mode, and in the middle of a byte maybe. -/
theorem ready_lcdBegin : Ready b.lcdBegin := by
  set b₀ := outputPins.foldl Board.enablePinOut b with hb₀
  have houtputs : Outputs b₀.gpio := fun i hi => enables (.inl hi)
  set b₁ := (b₀.setPin rsPin false).setPin enablePin false with hb₁
  -- From here on the display reads one nibble at a time.
  obtain ⟨h₁, hrs₁, hread₁⟩ := write4bits 3 (b := b₁) houtputs.set.driven
    (level_set.trans (level_set.trans (if_pos rfl))) rfl
  obtain ⟨h₂, hrs₂, hread₂⟩ := write4bits 3 h₁ hrs₁ rfl
  obtain ⟨h₃, hrs₃, hread₃⟩ := write4bits 3 h₂ hrs₂ rfl
  obtain ⟨h₄, -, hread₄⟩ := write4bits 2 h₃ hrs₃ rfl
  rw [hread₃, hread₂, hread₁] at hread₄
  obtain ⟨height, hhalf⟩ := latch_init _ hread₄
  exact ⟨h₄, height, hhalf⟩

/-- One event. -/
theorem ready_step (h : Ready b) {e : LcdEvent} (he : e.Spares) :
    Ready (e.step b) ∧ (e.step b).reader.received = b.reader.received ++ e.sent := by
  cases e with
  | command value => exact send h (mode_half value he) rfl
  | write value => exact send h (if_neg fun hrs => by simp [half] at hrs) rfl
  | gpio pin enable value =>
    -- The `enable` pin stays low, so that nothing is read.
    obtain ⟨hpin, hout⟩ := he
    have hread : (LcdEvent.step b (.gpio pin enable value)).reader = b.reader := h.driven.change
    refine ⟨⟨⟨fun i hi => ?_, ?_⟩, ?_, ?_⟩, ?_⟩
    · exact out_doSyscall (h.driven.outputs i hi) fun h0 hip => hout h0 (hip ▸ hi)
    · exact (congrArg Pin.level (pins_doSyscall hpin.symm)).trans h.driven.low
    · rw [hread, h.eightBit]
    · rw [hread, h.half]
    · rw [hread, LcdEvent.sent, List.append_nil]

/-- The events, in turn. -/
theorem Ready.steps {es : List LcdEvent} (h : Ready b) (hes : ∀ e ∈ es, e.Spares) :
    Ready (es.foldl LcdEvent.step b) ∧
      (es.foldl LcdEvent.step b).reader.received = b.reader.received ++ es.flatMap LcdEvent.sent := by
  induction es generalizing b with
  | nil => exact ⟨h, (List.append_nil _).symm⟩
  | cons e es ih =>
    obtain ⟨hready, hreceived⟩ := ready_step h (hes e List.mem_cons_self)
    obtain ⟨hready', hreceived'⟩ := ih hready fun x hx => hes x (List.mem_cons_of_mem _ hx)
    exact ⟨hready', by rw [List.foldl_cons, hreceived', hreceived, List.flatMap_cons, List.append_assoc]⟩

/-- After `lcd_begin`, the display receives what the driver sends, and nothing else, as long as
    the processes leave its `enable` pin alone and do not disable the others. -/
theorem lcd_receives {es : List LcdEvent} (hes : ∀ e ∈ es, e.Spares) :
    Ready (es.foldl LcdEvent.step b.lcdBegin) ∧
      (es.foldl LcdEvent.step b.lcdBegin).reader.received = b.lcdBegin.reader.received ++
        es.flatMap LcdEvent.sent :=
  ready_lcdBegin.steps hes

/-- A process sets a pin of the display between two characters, and disables another one. -/
theorem lcd_receives_some : ∃ es : List LcdEvent,
    (es.foldl LcdEvent.step (Board.lcdBegin ⟨⟨0, 0, 0⟩, true, none, []⟩)).reader.received =
      [transfer false 0x28, transfer true 72, transfer true 105] := by
  have hbegin : (Board.lcdBegin ⟨⟨0, 0, 0⟩, true, none, []⟩).reader.received = [] :=
    List.eq_nil_of_length_eq_zero (by decide +kernel)
  refine ⟨[.command 0x28, .gpio 20 (-1) 1, .write 72, .gpio 18 0 0, .write 105],
    (lcd_receives ?_).2.trans ?_⟩
  · simp only [List.forall_mem_cons, LcdEvent.Spares]
    exact ⟨by decide, ⟨by decide, by decide⟩, trivial, ⟨by decide, by decide⟩, trivial, by simp⟩
  · rw [hbegin]
    rfl

end

end HobbyOs.Bus
