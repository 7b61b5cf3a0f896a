import HobbyOs.Uart

/-!
# The LCD

`drivers/hd44780/hd44780.c`: a display of four lines. What is printed goes to
the display and into a buffer of four lines, used in turn, from which the
display is drawn again when the text scrolls. The display itself is a grid of
cells with a cursor; the delays and the commands that only change how it looks
are not modelled. How the bytes get to it over the pins is in `LcdPins`.
-/

namespace HobbyOs

abbrev lcdNumRows : ℕ := 4
abbrev lcdNumCols : ℕ := 20
abbrev asciiSpace : UInt8 := 32

/-- The `uint8_t` of an integer. -/
def u8 (n : ℤ) : ℕ := (n % 2 ^ 8).toNat

/-! ## The state -/

/-- `lcd_buffer_t`. -/
structure LcdBuffer where
  data : ℕ → UInt8
  currLine : ℕ
  pos : ℕ
  screenIsFull : Bool

/-- The pointers `lines` into `data`, as `lcd_init_buffer` sets them once. -/
def LcdBuffer.lines (i : ℕ) : ℕ := lcdNumCols * i

/-- The device. What is written beyond a row is not in any cell of the grid. -/
structure Display where
  cells : ℕ → ℕ → UInt8
  row : ℕ
  col : ℕ

/-- `lcd_t`, and the device behind its pins. -/
structure Lcd where
  buf : LcdBuffer
  lastCursorRow : ℕ
  lastCursorCol : ℕ
  display : Display

/-! ## The device -/

/-- `lcd_set_cursor`; there are `LCD_NUM_ROWS` lines, so both of its tests are
    the same. -/
def lcdSetCursor (d : Display) (col row : ℕ) : Display :=
  { d with row := if lcdNumRows ≤ row then lcdNumRows - 1 else row, col := col }

/-- `lcd_write`: the character goes to the cell of the cursor, which moves on. -/
def lcdWrite (d : Display) (ch : UInt8) : Display :=
  { d with cells := Function.update d.cells d.row (Function.update (d.cells d.row) d.col ch), col := d.col + 1 }

/-- `lcd_clear`. -/
def lcdClear (_ : Display) : Display := ⟨fun _ _ => asciiSpace, 0, 0⟩

/-! ## Initialization -/

/-- `lcd_init_buffer`. -/
def lcdInitBuffer : LcdBuffer := ⟨fun _ => asciiSpace, 0, 0, false⟩

/-- `lcd_init`, whatever the device shows before. -/
def lcdInit (d : Display) : Lcd := ⟨lcdInitBuffer, 0, 0, lcdClear d⟩

/-! ## The buffer -/

/-- `_clear_line_if_full`. -/
def clearLineIfFull (b : LcdBuffer) : LcdBuffer :=
  if !b.screenIsFull then b
  else
    let line := LcdBuffer.lines b.currLine
    { b with data := fun a => if line ≤ a ∧ a < line + lcdNumCols then asciiSpace else b.data a }

/-- One turn of the loop of `_printn_to_buf`, and its `curr_line_advanced`. -/
def putChar (b : LcdBuffer) (ch : UInt8) : LcdBuffer × Bool :=
  let (b, advanced) :=
    if ch = asciiNl then ({ b with currLine := u8 (b.currLine + 1), pos := 0 }, true)
    else
      ({ b with
          data := Function.update b.data (LcdBuffer.lines b.currLine + b.pos) ch
          pos := u8 (b.pos + 1) }, false)
  let (b, advanced) :=
    if b.pos = lcdNumCols then ({ b with currLine := u8 (b.currLine + 1), pos := 0 }, true) else (b, advanced)
  let b := if b.currLine = lcdNumRows then { b with screenIsFull := true, currLine := 0 } else b
  if advanced then (clearLineIfFull b, true) else (b, false)

/-- `_printn_to_buf`: the buffer after it, and the `lines_advanced` that it returns. -/
def printnToBuf : LcdBuffer → List UInt8 → LcdBuffer × ℕ
  | b, [] => (b, 0)
  | b, ch :: data =>
    let (b, advanced) := putChar b ch
    let (b, linesAdvanced) := printnToBuf b data
    (b, linesAdvanced + advanced.toNat)

/-! ## The display -/

/-- The loop of `_clear_screen_and_scroll_up` that writes a whole line. -/
def writeLine (b : LcdBuffer) (line : ℕ) (d : Display) : Display :=
  (List.range lcdNumCols).foldl (fun d i => lcdWrite d (b.data (LcdBuffer.lines line + i))) d

/-- The `while` loop of `_clear_screen_and_scroll_up`, with the device and the
    `lcd_line` after it; `none`, if it takes more than the given turns. -/
def scrollLoop (b : LcdBuffer) :
    (turns : ℕ) → Display → (bufLine lcdLine : ℕ) → Option (Display × ℕ)
  | 0, _, _, _ => none
  | turns + 1, d, bufLine, lcdLine =>
    if bufLine = b.currLine then some (d, lcdLine)
    else
      let d := writeLine b bufLine (lcdSetCursor d 0 (u8 lcdLine))
      scrollLoop b turns d (if bufLine + 1 = lcdNumRows then 0 else bufLine + 1) (lcdLine + 1)

/-- The last loop of `_clear_screen_and_scroll_up`, over the line that is being
    written. -/
def replayLine (l : Lcd) : Lcd :=
  (List.range l.buf.pos).foldl (fun l i => { l with
    display := lcdWrite l.display (l.buf.data (LcdBuffer.lines l.buf.currLine + i))
    lastCursorCol := u8 (l.lastCursorCol + 1) }) l

/-- `_clear_screen_and_scroll_up`. -/
def clearScreenAndScrollUp (l : Lcd) : Option Lcd := do
  let b := l.buf
  let bufLine := if b.currLine + 1 = lcdNumRows then 0 else b.currLine + 1
  let (d, lcdLine) ← scrollLoop b lcdNumRows (lcdClear l.display) bufLine 0
  let d := lcdSetCursor d 0 (u8 lcdLine)
  return replayLine { l with display := d, lastCursorRow := u8 lcdLine, lastCursorCol := 0 }

/-- One turn of the loop of `lcd_printn`. -/
def drawChar (l : Lcd) (ch : UInt8) : Lcd :=
  if ch = asciiNl then
    let row := u8 (l.lastCursorRow + 1)
    { l with lastCursorRow := row, lastCursorCol := 0, display := lcdSetCursor l.display 0 row }
  else
    let d := lcdWrite l.display ch
    let col := u8 (l.lastCursorCol + 1)
    if col = lcdNumCols then
      let row := u8 (l.lastCursorRow + 1)
      { l with lastCursorRow := row, lastCursorCol := 0, display := lcdSetCursor d 0 row }
    else { l with lastCursorCol := col, display := d }

/-- `lcd_printn`. -/
def lcdPrintn (l : Lcd) (data : List UInt8) : Option Lcd :=
  let (b, linesAdvanced) := printnToBuf l.buf data
  let l := { l with buf := b }
  if b.screenIsFull && 0 < linesAdvanced then clearScreenAndScrollUp l
  else some (data.foldl drawChar l)

/-- `lcd_backspace`. The column is unsigned, so it is never less than zero. -/
def lcdBackspace (l : Lcd) : Lcd :=
  let col := u8 (l.lastCursorCol - 1)
  let col := if col < 0 then 0 else col
  let d := lcdWrite (lcdSetCursor l.display col l.lastCursorRow) asciiSpace
  { l with lastCursorCol := col, display := lcdSetCursor d col l.lastCursorRow }

/-! ## Calls -/

/-- A call of the driver. -/
inductive LcdCall
  | printn (data : List UInt8)
  | backspace
  deriving DecidableEq

/-- The call is made. -/
def LcdCall.exec (l : Lcd) : LcdCall → Option Lcd
  | .printn data => lcdPrintn l data
  | .backspace => lcdBackspace l

/-- The calls are made, in turn. -/
def lcdRun (l : Lcd) (calls : List LcdCall) : Option Lcd := calls.foldlM LcdCall.exec l

end HobbyOs
