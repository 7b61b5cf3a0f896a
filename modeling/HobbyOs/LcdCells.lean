import HobbyOs.LcdLines
import HobbyOs.LcdPins

/-!
# The memory of the LCD

What the display makes of the bytes that it receives: `LCD_SETDDRAMADDR` chooses the address at
which the next characters go, and a row of the grid is a range of addresses (`row_offsets`).

* `Ram`: the memory, and the bytes that change it.
* `LcdOp`: the operations on the grid by which the driver draws, and the bytes that they send.
  `Holds`: the memory holds what is in the grid, as long as the driver stays within the rows.
* `printsOps`: the operations of `lcd_printn`. They do stay within the rows (`draws_prints`).
* `lcd_text`: what is printed is in the memory of the display, whatever the processes do to the
  other pins in between.
-/

namespace HobbyOs.Bus

/-! ## The memory -/

/-- The memory of the display, and the address at which the next character goes. -/
structure Ram where
  data : BitVec 7 → BitVec 8
  addr : BitVec 7

/-- The next address: the first line of the memory is followed by the second one. -/
def nextAddr (a : BitVec 7) : BitVec 7 := if a = 0x27 then 0x40 else if a = 0x67 then 0 else a + 1

/-- What is on the lines; an undefined one may be taken for anything. -/
def Transfer.byte (t : Transfer) : BitVec 8 :=
  (List.finRange 8).foldl (fun value i => if t.bits i = some true then value ||| 1#8 <<< i.val else value) 0

/-- A byte is received. The commands that only change how the display looks do not change the memory. -/
def Ram.receive (m : Ram) (t : Transfer) : Ram :=
  if t.rs = some true then ⟨Function.update m.data m.addr t.byte, nextAddr m.addr⟩
  else if t.byte.msb then { m with addr := t.byte.setWidth 7 }
  else if t.byte = 1 then ⟨fun _ => asciiSpace.toBitVec, 0⟩
  else if t.byte >>> 1 = 1 then { m with addr := 0 }
  else m

/-! ## The grid -/

/-- `row_offsets`, as `lcd_begin` sets them. -/
def rowOffsets : Fin lcdNumRows → BitVec 8 := ![0x00, 0x40, 0x00 + 20, 0x40 + 20]

/-- The address of a cell. -/
def cellAddr (row : Fin lcdNumRows) (col : Fin lcdNumCols) : BitVec 7 :=
  (BitVec.ofNat 8 col + rowOffsets row).setWidth 7

/-- The cell at an address. -/
def cellAt (a : BitVec 7) : ℕ × ℕ :=
  if a < 20 then (0, a.toNat) else if a < 40 then (2, a.toNat - 20)
  else if a < 84 then (1, a.toNat - 64) else (3, a.toNat - 84)

/-- What the driver does to draw. -/
inductive LcdOp
  | setCursor (col row : ℕ)
  | write (ch : UInt8)
  | clear
  /-- Another command. -/
  | look (value : BitVec 8)

/-- The operation on the grid. -/
def LcdOp.apply (d : Display) : LcdOp → Display
  | .setCursor col row => HobbyOs.lcdSetCursor d col row
  | .write ch => HobbyOs.lcdWrite d ch
  | .clear => lcdClear d
  | .look _ => d

theorem lastRow_lt : lcdNumRows - 1 < lcdNumRows := by decide

/-- The row that `lcd_set_cursor` takes. -/
def clampRow (row : ℕ) : Fin lcdNumRows := if h :
    row < lcdNumRows then ⟨row, h⟩ else ⟨lcdNumRows - 1, lastRow_lt⟩

/-- The byte that the driver sends for it. -/
def LcdOp.event : LcdOp → LcdEvent
  | .setCursor col row => .command (0x80 ||| (BitVec.ofNat 8 col + rowOffsets (clampRow row)))
  | .write ch => .write ch.toBitVec
  | .clear => .command 1
  | .look value => .command value

/-- The driver stays within the rows; its other commands choose no address and no mode of 8 bits,
    and clear nothing. -/
def LcdOp.Fits (d : Display) : LcdOp → Prop
  | .setCursor col _ => col < lcdNumCols
  | .write _ => d.col < lcdNumCols
  | .clear => True
  | .look value => value < 0x40 ∧ value >>> 2 ≠ 0 ∧ value >>> 4 ≠ 3

/-- So it is for each of the operations, in turn. -/
def FitAll : Display → List LcdOp → Prop
  | _, [] => True
  | d, op :: ops => op.Fits d ∧ FitAll (op.apply d) ops

/-- The memory holds what is in the grid. -/
structure Holds (m : Ram) (d : Display) : Prop where
  row : d.row < lcdNumRows
  addr : ∀ h : d.col < lcdNumCols, m.addr = cellAddr ⟨d.row, row⟩ ⟨d.col, h⟩
  cells : ∀ row col, m.data (cellAddr row col) = (d.cells row col).toBitVec

section

variable {m : Ram} {d : Display} {value : BitVec 8} {rs : Bool}

theorem cellAt_cellAddr : ∀ row col, cellAt (cellAddr row col) = (row.val, col.val) := by decide +kernel

theorem nextAddr_cellAddr : ∀ (row : Fin lcdNumRows) (col : Fin lcdNumCols) (h : col.val + 1 < lcdNumCols),
    nextAddr (cellAddr row col) = cellAddr row ⟨col + 1, h⟩ := by
  decide +kernel

theorem setCursor_byte : ∀ (row : Fin lcdNumRows) (col : Fin lcdNumCols),
    (0x80 ||| (BitVec.ofNat 8 col + rowOffsets row)).msb = true ∧
      (0x80 ||| (BitVec.ofNat 8 col + rowOffsets row)).setWidth 7 = cellAddr row col := by
  decide +kernel

theorem byte_transfer :
    ∀ (rs : Bool) (value : BitVec 8), (transfer rs value).byte = value := by decide +kernel

theorem receive_character {ch : BitVec 8} :
    m.receive (transfer true ch) = ⟨Function.update m.data m.addr ch, nextAddr m.addr⟩ := by
  rw [Ram.receive, byte_transfer]
  exact if_pos rfl

theorem receive_command :
    m.receive (transfer false value) =
      if value.msb then { m with addr := value.setWidth 7 }
      else if value = 1 then ⟨fun _ => asciiSpace.toBitVec, 0⟩
      else if value >>> 1 = 1 then { m with addr := 0 }
      else m := by
  rw [Ram.receive, if_neg (by simp [transfer]), byte_transfer]

/-- `lcd_clear`, whatever is in the memory before. -/
theorem holds_clear : Holds (m.receive (transfer false 1)) (lcdClear d) where
  row := Nat.succ_pos 3
  addr _ := by
    rw [receive_command, if_neg (by decide), if_pos rfl]
    rfl
  cells _ _ := by
    rw [receive_command, if_neg (by decide), if_pos rfl]
    rfl

/-- The cursor is set. -/
theorem Holds.setCursor (h : Holds m d) {col row : ℕ} (hcol : col < lcdNumCols) :
    Holds (m.receive (transfer false (0x80 ||| (BitVec.ofNat 8 col + rowOffsets (clampRow row)))))
      (HobbyOs.lcdSetCursor d col row) := by
  obtain ⟨hmsb, haddr⟩ := setCursor_byte (clampRow row) ⟨col, hcol⟩
  have hrow : (HobbyOs.lcdSetCursor d col row).row = clampRow row := by
    by_cases h : row < lcdNumRows
    · simp [HobbyOs.lcdSetCursor, clampRow, h, Nat.not_le.2 h]
    · simp [HobbyOs.lcdSetCursor, clampRow, h, Nat.not_lt.1 h]
  rw [receive_command, if_pos hmsb, haddr]
  refine ⟨hrow ▸ (clampRow row).isLt, fun _ => ?_, h.cells⟩
  exact congrArg (cellAddr · ⟨col, hcol⟩) (Fin.ext hrow.symm)

/-- A character is written. -/
theorem Holds.write (h : Holds m d) {ch : UInt8} (hcol : d.col < lcdNumCols) :
    Holds (m.receive (transfer true ch.toBitVec)) (HobbyOs.lcdWrite d ch) := by
  rw [receive_character, h.addr hcol]
  refine ⟨h.row, fun hnext => nextAddr_cellAddr ⟨d.row, h.row⟩ ⟨d.col, hcol⟩ hnext,
    fun row col => ?_⟩
  by_cases hcell : row.val = d.row ∧ col.val = d.col
  · obtain ⟨hr, hc⟩ := hcell
    obtain rfl : row = ⟨d.row, h.row⟩ := Fin.ext hr
    obtain rfl : col = ⟨d.col, hcol⟩ := Fin.ext hc
    simp [HobbyOs.lcdWrite]
  · -- Another cell has another address.
    have hne : cellAddr row col ≠ cellAddr ⟨d.row, h.row⟩ ⟨d.col, hcol⟩ := by
      intro he
      have hcells := congrArg cellAt he
      rw [cellAt_cellAddr, cellAt_cellAddr] at hcells
      exact hcell (Prod.mk.inj hcells)
    refine (Function.update_of_ne hne _ _).trans ((h.cells row col).trans (congrArg UInt8.toBitVec ?_))
    rw [HobbyOs.lcdWrite]
    by_cases hr : row.val = d.row
    · have hc : col.val ≠ d.col := fun hc => hcell ⟨hr, hc⟩
      simp [hr, hc]
    · simp [hr]

/-- One operation. -/
theorem Holds.op (h : Holds m d) (op : LcdOp) (hop : op.Fits d) :
    Holds (op.event.sent.foldl Ram.receive m) (op.apply d) := by
  cases op with
  | setCursor col row => exact h.setCursor hop
  | write ch => exact h.write hop
  | clear => exact holds_clear (m := m) (d := d)
  | look value =>
    obtain ⟨hlt, hvalue, -⟩ := hop
    have hram : m.receive (transfer false value) = m := by
      have hmsb : ¬value.msb = true := by
        revert value
        decide +kernel
      have h1 : value ≠ 1 := by
        rintro rfl
        exact hvalue rfl
      have h2 : value >>> 1 ≠ 1 := by
        revert value
        decide +kernel
      rw [receive_command, if_neg hmsb, if_neg h1, if_neg h2]
    exact (congrArg (Holds · d) hram).mpr h

theorem look_fits (value : BitVec 8) (h : value < 0x40 ∧ value >>> 2 ≠ 0 ∧ value >>> 4 ≠ 3) :
    (LcdOp.look value).Fits d := h

/-- The bytes of an operation. -/
theorem LcdOp.spares {op : LcdOp} (hop : op.Fits d) : op.event.Spares := by
  cases op with
  | setCursor col row =>
    have hmode : ∀ value : BitVec 8, value.msb = true → value >>> 4 ≠ 3 := by decide +kernel
    exact hmode _ (setCursor_byte (clampRow row) ⟨col, hop⟩).1
  | write ch => trivial
  | clear => exact fun h => by cases h
  | look value => exact hop.2.2

theorem FitAll.spares {ops : List LcdOp} (hops : FitAll d ops) : ∀ op ∈ ops, op.event.Spares := by
  induction ops generalizing d with
  | nil => exact fun _ hop => absurd hop List.not_mem_nil
  | cons op ops ih => exact List.forall_mem_cons.2 ⟨LcdOp.spares hops.1, ih hops.2⟩

theorem transfer_inj {rs' : Bool} {value' : BitVec 8} (h : transfer rs value = transfer rs' value') :
    rs = rs' ∧ value = value' := by
  refine ⟨Option.some.inj (congrArg Transfer.rs h), ?_⟩
  rw [← byte_transfer rs value, h, byte_transfer]

/-- If the driver sends the bytes of operations that fit, only the processes may disturb it. -/
theorem spares_of_sent {es : List LcdEvent} {ops : List LcdOp} (hops : ∀ op ∈ ops, op.event.Spares)
    (hsent : es.flatMap LcdEvent.sent = ops.flatMap fun op => op.event.sent)
    (hgpio : ∀ pin enable value, .gpio pin enable value ∈ es → LcdEvent.Spares (.gpio pin enable value)) :
    ∀ e ∈ es, e.Spares := by
  intro e he
  cases e with
  | command value =>
    have hmem : transfer false value ∈ es.flatMap LcdEvent.sent :=
      List.mem_flatMap.2 ⟨_, he, List.mem_singleton_self _⟩
    rw [hsent] at hmem
    obtain ⟨op, hop, hin⟩ := List.mem_flatMap.1 hmem
    have hspares := hops op hop
    cases hevent : op.event with
    | command value' =>
      rw [hevent] at hin hspares
      exact (transfer_inj (List.mem_singleton.1 hin)).2 ▸ hspares
    | write value' =>
      rw [hevent] at hin
      cases (transfer_inj (List.mem_singleton.1 hin)).1
    | gpio pin enable value' =>
      rw [hevent] at hin
      exact absurd hin List.not_mem_nil
  | write value => trivial
  | gpio pin enable value => exact hgpio pin enable value he

/-- The operations, in turn. -/
theorem Holds.ops {ops : List LcdOp} (h : Holds m d) (hops : FitAll d ops) :
    Holds ((ops.flatMap fun op => op.event.sent).foldl Ram.receive m) (ops.foldl LcdOp.apply d) := by
  induction ops generalizing m d with
  | nil => exact h
  | cons op ops ih =>
    rw [List.flatMap_cons, List.foldl_append]
    exact ih (h.op op hops.1) hops.2

end

/-! ## What the driver does -/

/-- The commands of `lcd_begin`. -/
def beginOps : List LcdOp := [.look 0x28, .look 0x0c, .clear, .look 0x0e, .look 0x06]

/-- One turn of the loop of `lcd_printn`. -/
def drawCharOps (l : Lcd) (ch : UInt8) : List LcdOp :=
  if ch = asciiNl then [.setCursor 0 (u8 (l.lastCursorRow + 1))]
  else .write ch :: if u8 (l.lastCursorCol + 1) = lcdNumCols then
    [.setCursor 0 (u8 (l.lastCursorRow + 1))] else []

/-- The loop of `lcd_printn`. -/
def drawOps : Lcd → List UInt8 → List LcdOp
  | _, [] => []
  | l, ch :: data => drawCharOps l ch ++ drawOps (drawChar l ch) data

/-- The first characters of a line of the buffer. -/
def lineOps (b : LcdBuffer) (line count : ℕ) : List LcdOp :=
  (List.range count).map fun i => .write (b.data (LcdBuffer.lines line + i))

/-- The `while` loop of `_clear_screen_and_scroll_up`, and `lcd_set_cursor` after it. -/
def scrollOps (b : LcdBuffer) : (turns : ℕ) → (bufLine lcdLine : ℕ) → List LcdOp
  | 0, _, _ => []
  | turns + 1, bufLine, lcdLine =>
    .setCursor 0 (u8 lcdLine) ::
      if bufLine = b.currLine then []
      else lineOps b bufLine lcdNumCols ++
        scrollOps b turns (if bufLine + 1 = lcdNumRows then 0 else bufLine + 1) (lcdLine + 1)

/-- `_clear_screen_and_scroll_up`. -/
def redrawOps (b : LcdBuffer) : List LcdOp :=
  .clear :: (scrollOps b lcdNumRows (if b.currLine + 1 = lcdNumRows then 0 else b.currLine + 1) 0 ++
    lineOps b b.currLine b.pos)

/-- `lcd_printn`. -/
def printnOps (l : Lcd) (data : List UInt8) : List LcdOp :=
  let (b, linesAdvanced) := printnToBuf l.buf data
  if b.screenIsFull && 0 < linesAdvanced then redrawOps b else drawOps { l with buf := b } data

/-- Calls of `lcd_printn`, in turn. -/
def printsOps : Lcd → List (List UInt8) → List LcdOp
  | _, [] => []
  | l, data :: chunks =>
    printnOps l data ++
      match lcdPrintn l data with
      | some l' => printsOps l' chunks
      | none => []

/-- The operations lead from one grid to another, and stay within the rows. -/
def Draws (d : Display) (ops : List LcdOp) (d' : Display) :
    Prop := FitAll d ops ∧ ops.foldl LcdOp.apply d = d'

section

variable {d d₁ d' : Display} {l l' : Lcd} {b : LcdBuffer} {t : Text} {op : LcdOp} {ops ops' : List LcdOp}

theorem cursor_fits {row : ℕ} : (LcdOp.setCursor 0 row).Fits d := Nat.succ_pos 19

theorem Draws.nil : Draws d [] d := ⟨trivial, rfl⟩

theorem Draws.cons (hop : op.Fits d) (h : Draws (op.apply d) ops d') : Draws d (op :: ops) d' :=
  ⟨⟨hop, h.1⟩, h.2⟩

theorem Draws.append (h : Draws d ops d₁) (h' : Draws d₁ ops' d') : Draws d (ops ++ ops') d' := by
  induction ops generalizing d with
  | nil =>
    obtain ⟨-, rfl⟩ := h
    exact h'
  | cons op ops ih => exact .cons h.1.1 (ih ⟨h.1.2, h.2⟩)

/-- A line is written from its start. -/
theorem draws_line {line count : ℕ} (hcol : d.col = 0) (hcount : count ≤ lcdNumCols) :
    Draws d (lineOps b line count)
      ((List.range count).foldl (fun d i => lcdWrite d (b.data (LcdBuffer.lines line + i))) d) := by
  induction count with
  | zero => exact .nil
  | succ count ih =>
    obtain ⟨d₁, hd₁, -, hcol₁, -⟩ :=
      writes_eq (fun i => b.data (LcdBuffer.lines line + i)) d hcol count
    have h := ih (Nat.le_of_succ_le hcount)
    rw [hd₁] at h
    rw [lineOps, List.range_succ, List.map_append, List.foldl_append, hd₁]
    exact h.append (.cons (hcol₁ ▸ hcount) .nil)

/-- One turn of the loop of `lcd_printn`, with the cursor where the driver has it. -/
theorem draws_drawChar (ch : UInt8) (hcol : l.display.col = l.lastCursorCol)
    (hlt : l.lastCursorCol < lcdNumCols) :
    Draws l.display (drawCharOps l ch) (drawChar l ch).display ∧
      (drawChar l ch).display.col = (drawChar l ch).lastCursorCol ∧
      (drawChar l ch).lastCursorCol < lcdNumCols := by
  have hnext : u8 (l.lastCursorCol + 1) = l.lastCursorCol + 1 :=
    u8_succ (by simp only [lcdNumCols] at hlt; omega)
  rw [drawCharOps, drawChar]
  by_cases hnl : ch = asciiNl
  · rw [if_pos hnl, if_pos hnl]
    exact ⟨.cons cursor_fits .nil, rfl, Nat.succ_pos 19⟩
  rw [if_neg hnl, if_neg hnl]
  have hfits : (LcdOp.write ch).Fits l.display := lt_of_eq_of_lt hcol hlt
  by_cases hfull : u8 (l.lastCursorCol + 1) = lcdNumCols
  · simp only [if_pos hfull]
    exact ⟨.cons hfits (.cons cursor_fits .nil), rfl, Nat.succ_pos 19⟩
  · simp only [if_neg hfull]
    refine ⟨.cons hfits .nil, ?_, ?_⟩
    · rw [hnext, lcdWrite, hcol]
    · simp only [lcdNumCols] at hlt hfull ⊢
      omega

/-- The loop of `lcd_printn`. -/
theorem draws_draw {data : List UInt8} (hcol : l.display.col = l.lastCursorCol)
    (hlt : l.lastCursorCol < lcdNumCols) :
    Draws l.display (drawOps l data) (data.foldl drawChar l).display := by
  induction data generalizing l with
  | nil => exact .nil
  | cons ch data ih =>
    obtain ⟨hdraws, hcol', hlt'⟩ := draws_drawChar ch hcol hlt
    exact hdraws.append (ih hcol' hlt')

/-- The `while` loop of `_clear_screen_and_scroll_up`. -/
theorem draws_scroll {turns bufLine lcdLine line : ℕ}
    (h : scrollLoop b turns d bufLine lcdLine = some (d', line)) :
    Draws d (scrollOps b turns bufLine lcdLine) (lcdSetCursor d' 0 (u8 line)) := by
  induction turns generalizing d bufLine lcdLine with
  | zero => cases h
  | succ turns ih =>
    rw [scrollLoop] at h
    rw [scrollOps]
    refine .cons cursor_fits ?_
    by_cases hlast : bufLine = b.currLine
    · rw [if_pos hlast] at h ⊢
      obtain ⟨rfl, rfl⟩ := Prod.mk.inj (Option.some.inj h)
      exact .nil
    · rw [if_neg hlast] at h ⊢
      exact (draws_line rfl (Nat.le_refl _)).append (ih h)

/-- `_clear_screen_and_scroll_up`. -/
theorem draws_redraw (hpos : l.buf.pos < lcdNumCols) (h : clearScreenAndScrollUp l = some l') :
    Draws l.display (redrawOps l.buf) l'.display := by
  rw [clearScreenAndScrollUp] at h
  obtain ⟨⟨d₁, line⟩, hloop, hl'⟩ := Option.bind_eq_some_iff.1 h
  obtain rfl := Option.some.inj hl'
  set l₁ : Lcd :=
    { l with display := lcdSetCursor d₁ 0 (u8 line), lastCursorRow := u8 line, lastCursorCol := 0 }
  rw [replayLine_eq (l := l₁) rfl hpos]
  exact .cons trivial ((draws_scroll hloop).append (draws_line rfl hpos.le))

/-- `lcd_printn`. -/
theorem draws_printn {data : List UInt8} (hs : l.Shows t) (h : lcdPrintn l data = some l') :
    Draws l.display (printnOps l data) l'.display := by
  obtain ⟨hb, -⟩ := hs.buffered.printn data
  set l₁ : Lcd := { l with buf := (printnToBuf l.buf data).1 } with hl₁
  by_cases hagain : ((printnToBuf l.buf data).1.screenIsFull && decide (0 < (printnToBuf l.buf data).2)) = true
  · -- A line leaves the display.
    have hops : printnOps l data = redrawOps l₁.buf := if_pos hagain
    have hredraw : clearScreenAndScrollUp l₁ = some l' := (if_pos hagain).symm.trans h
    rw [hops]
    exact draws_redraw (l := l₁) hb.pos_lt hredraw
  · have hops : printnOps l data = drawOps l₁ data := if_neg hagain
    have hdraw : some (data.foldl drawChar l₁) = some l' := (if_neg hagain).symm.trans h
    obtain rfl := Option.some.inj hdraw
    rw [hops]
    exact draws_draw (l := l₁) hs.displayed.cursorCol hs.displayed.col_lt

/-- Calls of `lcd_printn`. -/
theorem draws_prints (chunks : List (List UInt8)) (hs : l.Shows t) :
    ∃ d', Draws l.display (printsOps l chunks) d' ∧
      ∀ row < lcdNumRows, ∀ col < lcdNumCols,
        d'.cells row col = (chunks.flatten.foldl Text.put t).shown row col := by
  induction chunks generalizing l t with
  | nil => exact ⟨_, .nil, hs.displayed.cells⟩
  | cons data chunks ih =>
    obtain ⟨l₁, hl₁, hs₁⟩ := hs.printn data
    obtain ⟨d', hdraws, hcells⟩ := ih hs₁
    refine ⟨d', ?_, ?_⟩
    · rw [printsOps, hl₁]
      exact (draws_printn hs hl₁).append hdraws
    · rw [List.flatten_cons, List.foldl_append]
      exact hcells

end

/-! ## What the LCD shows -/

section

variable {m : Ram} {d : Display} {b : Board}

/-- After the commands of `lcd_begin`, the memory is clear. -/
theorem holds_begin : Holds ((beginOps.flatMap fun op => op.event.sent).foldl Ram.receive m) (lcdClear d) := by
  have hclear :
      Holds (((m.receive (transfer false 0x28)).receive (transfer false 0x0c)).receive (transfer false 1))
      (lcdClear d) := holds_clear
  exact (hclear.op (.look 0x0e) (look_fits _ (by decide))).op (.look 0x06) (look_fits _ (by decide))

/-- The driver prints text: whatever the pins, the display and its memory have been at first, and
    whatever the processes do to the other pins meanwhile, the last lines of the text are in the
    memory of the display. -/
theorem lcd_text (chunks : List (List UInt8)) {es : List LcdEvent}
    (hgpio : ∀ pin enable value, .gpio pin enable value ∈ es → LcdEvent.Spares (.gpio pin enable value))
    (hsent : es.flatMap LcdEvent.sent = (beginOps ++ printsOps (lcdInit d) chunks).flatMap fun op =>
      op.event.sent) :
    ∃ received, (es.foldl LcdEvent.step b.lcdBegin).reader.received =
      b.lcdBegin.reader.received ++ received ∧
      ∀ row col, (received.foldl Ram.receive m).data (cellAddr row col) =
        ((typeset chunks.flatten).shown row col).toBitVec := by
  obtain ⟨d', ⟨hfits, rfl⟩, hcells⟩ := draws_prints chunks (Lcd.Shows.init d)
  have hbegin : FitAll d beginOps :=
    ⟨look_fits _ (by decide), look_fits _ (by decide), trivial, look_fits _ (by decide),
      look_fits _ (by decide),
      trivial⟩
  have hops := List.forall_mem_append.2 ⟨hbegin.spares, hfits.spares⟩
  refine ⟨_, ((ready_lcdBegin (b := b)).steps (spares_of_sent hops hsent hgpio)).2, fun row col => ?_⟩
  have hholds := (holds_begin (m := m) (d := d)).ops hfits
  rw [← List.foldl_append, ← List.flatMap_append, ← hsent] at hholds
  rw [hholds.cells]
  exact congrArg UInt8.toBitVec (hcells row row.isLt col col.isLt)

/-- Three pieces of text: one of its lines fills a row and goes on in the next, and the last lines
    make the display scroll. -/
def session : List (List UInt8) :=
  [ascii "boot\n", ascii "abcdefghijklmnopqrstuvwxyz\n", ascii "$ ls\nbin home\n$ "]

/-- The session is printed on a cleared display, and a process sets a pin of it in between. -/
theorem lcd_text_session :
    let ops := beginOps ++ printsOps (lcdInit ⟨fun _ _ => 0, 0, 0⟩) session
    let es := (ops.take 20).map LcdOp.event ++ .gpio 20 (-1) 1 :: (ops.drop 20).map LcdOp.event
    let b := Board.lcdBegin ⟨⟨0, 0, 0⟩, true, none, []⟩
    ∃ received, (es.foldl LcdEvent.step b).reader.received = b.reader.received ++ received ∧
      ∃ m : Ram, m = received.foldl Ram.receive ⟨fun _ => 0, 0⟩ ∧
        (List.finRange lcdNumCols).map (fun col => m.data (cellAddr 0 col)) =
          (ascii "uvwxyz              ").map UInt8.toBitVec ∧
        (List.finRange lcdNumCols).map (fun col => m.data (cellAddr 2 col)) =
          (ascii "bin home            ").map UInt8.toBitVec := by
  intro ops es b
  have hgpio : ∀ pin enable value, .gpio pin enable value ∈ es →
      LcdEvent.Spares (.gpio pin enable value) := by
    have hop : ∀ (ops : List LcdOp) (pin enable value),
        LcdEvent.gpio pin enable value ∉ ops.map LcdOp.event := by
      intro ops pin enable value he
      obtain ⟨op, -, hevent⟩ := List.mem_map.1 he
      cases op <;> cases hevent
    intro pin enable value he
    rcases List.mem_append.1 he with he | he
    · exact absurd he (hop _ _ _ _)
    rcases List.mem_cons.1 he with he | he
    · cases he
      exact ⟨by decide, by decide⟩
    · exact absurd he (hop _ _ _ _)
  have hsent : es.flatMap LcdEvent.sent = ops.flatMap fun op => op.event.sent := by
    conv_rhs => rw [← List.take_append_drop 20 ops]
    rw [List.flatMap_append, List.flatMap_append, List.flatMap_cons, List.flatMap_map, List.flatMap_map]
    rfl
  obtain ⟨received, hreceived, hcells⟩ := lcd_text (m := ⟨fun _ => 0, 0⟩) session hgpio hsent
  refine ⟨received, hreceived, _, rfl, ?_, ?_⟩ <;> simp only [hcells] <;> decide +kernel

end

end HobbyOs.Bus
