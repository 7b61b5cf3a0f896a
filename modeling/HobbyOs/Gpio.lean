import HobbyOs.Proc
import Mathlib.Tactic.SplitIfs

/-!
# The pins

`gpio.c`: each of the 32 pins has a bit in three registers of the device. `Gpio.pins` is what
the registers mean; each function of the driver changes one pin and leaves the others alone.
-/

namespace HobbyOs

/-! ## The driver -/

/-- The registers `GPIO_PIN_OUT_EN`, `GPIO_PIN_OUT_VAL` and `GPIO_PIN_IOF_EN`. -/
structure Gpio where
  outEn : BitVec 32
  outVal : BitVec 32
  iofEn : BitVec 32

namespace Gpio

/-- The pin that `1 << pin` is about: the processor shifts by the lower five bits. -/
def index (pin : BitVec 32) : Fin 32 := ⟨pin.toNat % 32, Nat.mod_lt _ (by decide)⟩

/-- `1 << pin`. -/
def bit (pin : BitVec 32) : BitVec 32 := 1#32 <<< (index pin).val

variable (g : Gpio) (pin : BitVec 32)

/-- `gpio_enable_pin_out`. -/
def gpioEnablePinOut : Gpio := { g with outEn := g.outEn ||| bit pin, iofEn := g.iofEn &&& ~~~bit pin }

/-- `gpio_disable_pin_out`. -/
def gpioDisablePinOut : Gpio := { g with outEn := g.outEn &&& ~~~bit pin, iofEn := g.iofEn ||| bit pin }

/-- `gpio_set_pin`. -/
def gpioSetPin (value : Bool) : Gpio :=
  { g with outVal := if value then g.outVal ||| bit pin else g.outVal &&& ~~~bit pin }

/-- `gpio_toggle_pin`. -/
def gpioTogglePin : Gpio := { g with outVal := g.outVal ^^^ bit pin }

/-- `gpio_do_syscall`, with the device. -/
def gpioDoSyscall (enable value : BitVec 32) : ℤ × Gpio :=
  if pin = 16 ∨ pin = 17 then (-1, g)
  else if pin = 4 then (-2, g)
  else if pin = 10 then (-3, g)
  else if enable = 0 then (0, g.gpioDisablePinOut pin)
  else if enable = 1 then (0, g.gpioEnablePinOut pin)
  else if enable = -1 then
    if value = 0 ∨ value = 1 then (0, g.gpioSetPin pin (value = 1))
    else if value = 2 then (0, g.gpioTogglePin pin)
    else (-4, g)
  else (-5, g)

/-! ## The pins -/

/-- A pin: whether it is an output, at which level, and whether it is left to a function of the chip. -/
structure Pin where
  out : Bool
  level : Bool
  iof : Bool

/-- What is on the line of a pin, if it drives the line. -/
def Pin.line (x : Pin) : Option Bool := if x.out && !x.iof then some x.level else none

/-- The pins of the device. -/
def pins (i : Fin 32) : Pin := ⟨g.outEn[i.val], g.outVal[i.val], g.iofEn[i.val]⟩

section

variable {g pin} {i : Fin 32} {x : BitVec 32}

@[simp] theorem getElem_bit : (bit pin)[i.val] = decide (i = index pin) := by
  rw [bit, BitVec.getElem_shiftLeft, BitVec.getElem_one]
  simp only [Fin.ext_iff]
  grind

@[simp] theorem pins_enable : (g.gpioEnablePinOut pin).pins =
    Function.update g.pins (index pin) { g.pins (index pin) with out := true, iof := false } := by
  funext i
  by_cases h : i = index pin <;> simp [pins, gpioEnablePinOut, h]

@[simp] theorem pins_disable : (g.gpioDisablePinOut pin).pins =
    Function.update g.pins (index pin) { g.pins (index pin) with out := false, iof := true } := by
  funext i
  by_cases h : i = index pin <;> simp [pins, gpioDisablePinOut, h]

@[simp] theorem pins_set {value : Bool} : (g.gpioSetPin pin value).pins =
    Function.update g.pins (index pin) { g.pins (index pin) with level := value } := by
  funext i
  cases value <;> by_cases h : i = index pin <;> simp [pins, gpioSetPin, h]

@[simp] theorem pins_toggle : (g.gpioTogglePin pin).pins =
    Function.update g.pins (index pin) { g.pins (index pin) with level := !(g.pins (index pin)).level } := by
  funext i
  by_cases h : i = index pin <;> simp [pins, gpioTogglePin, h]

/-- A system call changes its own pin at most. -/
theorem pins_doSyscall {enable value : BitVec 32} (hi : i ≠ index pin) :
    (g.gpioDoSyscall pin enable value).2.pins i = g.pins i := by
  unfold gpioDoSyscall
  split_ifs <;> simp [hi]

/-- It takes only the call that disables an output to do so. -/
theorem out_doSyscall {enable value : BitVec 32} (hout : (g.pins i).out = true ∧ (g.pins i).iof = false)
    (henable : enable = 0 → i ≠ index pin) :
    ((g.gpioDoSyscall pin enable value).2.pins i).out = true ∧
      ((g.gpioDoSyscall pin enable value).2.pins i).iof = false := by
  by_cases hi : i = index pin
  · unfold gpioDoSyscall
    have h0 : enable ≠ 0 := fun h0 => henable h0 hi
    subst hi
    split_ifs <;> simp [hout]
  · rwa [pins_doSyscall hi]

/-- What the kernel returns. -/
theorem gpioDoSyscall_eq {enable value : BitVec 32} :
    HobbyOs.gpioDoSyscall pin.toNat enable.toNat value.toNat = (g.gpioDoSyscall pin enable value).1 := by
  have henable : enable = -1 ↔ enable.toNat = noPid := by
    rw [← BitVec.toNat_inj]
    rfl
  unfold HobbyOs.gpioDoSyscall gpioDoSyscall
  simp only [henable, ← BitVec.toNat_inj]
  grind

end

end Gpio

end HobbyOs
