import HobbyOs.Sched

/-!
# The console

`drivers/uart/uart.c`: the ring of received characters. `uart_enqueue_chars`
takes what the device has received, handling backspace; `uart_readline` hands
out a line, or what there is when the ring is full, and blocks otherwise. The
echo to the console is not modelled.
-/

namespace HobbyOs

variable {cfg : Config}

abbrev asciiDel : UInt8 := 0x7f
abbrev asciiCr : UInt8 := 13
abbrev asciiNl : UInt8 := 10

/-! ## Input -/

/-- `_decrement_wpos`. -/
def decrementWpos (u : Uart) (wpos : ℕ) : ℕ :=
  if wpos = u.rxRpos then wpos
  else
    let wpos' := if wpos = 0 then uartBufSz - 1 else wpos - 1
    if u.rxbuf wpos' = asciiNl then wpos else wpos'

/-- The loop of `uart_enqueue_chars` over the received characters; the position
    is a local variable until its end. -/
def uartEnqueueLoop : List UInt8 → ℕ → KM cfg ℕ
  | [], wpos => return wpos
  | ch :: chs, wpos => do
    let u := (← get).uart0
    if ch = asciiDel then
      let wpos' := decrementWpos u wpos
      if wpos' ≠ wpos then
        modify fun k => { k with uart0 := { k.uart0 with rxBuffFull := false } }
      uartEnqueueLoop chs wpos'
    else if u.rxBuffFull then
      procMarkForWakeup .uart0
      uartEnqueueLoop chs wpos
    else
      if ch = asciiCr then
        modify fun k => { k with uart0 := { k.uart0 with rxNumNewlines := k.uart0.rxNumNewlines + 1 } }
        procMarkForWakeup .uart0
      let stored := if ch = asciiCr then asciiNl else ch
      let wpos' := if uartBufSz ≤ wpos + 1 then 0 else wpos + 1
      modify fun k => { k with uart0 := { k.uart0 with
        rxbuf := Function.update k.uart0.rxbuf wpos stored
        rxBuffFull := k.uart0.rxBuffFull || decide (wpos' = k.uart0.rxRpos) } }
      uartEnqueueLoop chs wpos'

/-- `uart_enqueue_chars`. -/
def uartEnqueueChars (received : List UInt8) : KM cfg Unit := do
  let wpos ← uartEnqueueLoop received (← get).uart0.rxWpos
  modify fun k => { k with uart0 := { k.uart0 with rxWpos := wpos } }

/-! ## Reading -/

/-- `_can_read_from`. -/
def canReadFrom (u : Uart) : Bool := 0 < u.rxNumNewlines || u.rxBuffFull

/-- The loop of `uart_readline`, with room for some more characters: those it
    reads, the position after them, and whether a newline ended it. -/
def readlineLoop (u : Uart) : (room : ℕ) → (nread rpos : ℕ) → List UInt8 × ℕ × Bool
  | 0, _, rpos => ([], rpos, false)
  | room + 1, nread, rpos =>
    if rpos = u.rxWpos ∧ 0 < nread then ([], rpos, false)
    else
      let ch := u.rxbuf rpos
      let rpos := if rpos + 1 = uartBufSz then 0 else rpos + 1
      if ch = asciiNl then ([], rpos, true)
      else
        let r := readlineLoop u room (nread + 1) rpos
        (ch :: r.1, r.2)

/-- The second half of `uart_readline`. -/
def uartTake (buf bufsize : ℕ) : KM cfg ℤ := do
  let u := (← get).uart0
  let (bytes, rpos, newline) := readlineLoop u bufsize 0 u.rxRpos
  store buf bytes
  modify fun k => { k with
    uart0 := { k.uart0 with
      rxNumNewlines := if newline then u.rxNumNewlines - 1 else u.rxNumNewlines
      rxBuffFull := if u.rxRpos ≠ rpos ∨ 0 < bytes.length then false else u.rxBuffFull
      rxRpos := rpos }
    io := .store buf bytes.length :: k.io }
  return bytes.length

/-- `uart_readline`, at the loop it enters again after a wake-up. -/
def uartReadline (p : Slot cfg) (f : FileRef) (buf bufsize : ℕ) : KM cfg ℤ := do
  if canReadFrom (← get).uart0 then uartTake buf bufsize
  else procYield p .uart0 (.uartRead f buf bufsize)

/-- `uart_write`. `proc_write` replaces a missing size, so there is one. -/
def uartWrite (buf nbytes : ℕ) : KM cfg ℤ := do
  modify fun k => { k with io := .load buf nbytes :: k.io }
  return int32 nbytes

end HobbyOs
