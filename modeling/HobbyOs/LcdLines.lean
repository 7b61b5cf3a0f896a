import HobbyOs.Lcd
import Mathlib.Data.List.GetD

/-!
# What the LCD shows

The text that is printed is broken into lines (`typeset`). The buffer holds the
last four of them, each in the line that is its number modulo four
(`Buffered`), and the display shows them from the top (`Displayed`): while
there are at most four, characters are drawn where the cursor is
(`Displayed.draw`); when a line leaves the display, it is drawn again
(`Buffered.redraw`).

* `lcdPrintn_shows`: the display shows the last four lines of what is printed;
* `inStep_iff`: `lcd_backspace` moves the cursor of the display only, so that it
  never agrees with the buffer afterwards.
-/

namespace HobbyOs

/-! ## Lines of text -/

/-- Text, broken into lines: those that are complete, and the one that is being
    written, which is shorter than a row. -/
structure Text where
  done : List (List UInt8)
  cur : List UInt8
  cur_lt : cur.length < lcdNumCols

/-- The elements of a list with one more at its end. -/
theorem getD_concat {α : Type*} (xs : List α) (x y : α) (i : ℕ) :
    (xs ++ [x]).getD i y = if i = xs.length then x else xs.getD i y := by
  rcases Nat.lt_trichotomy i xs.length with h | h | h
  · rw [if_neg (by omega), List.getD_append _ _ _ _ h]
  · rw [if_pos h, List.getD_append_right _ _ _ _ (by omega), h, Nat.sub_self]
    rfl
  · rw [if_neg (by omega), List.getD_eq_default _ _ (by rw [List.length_append, List.length_singleton]; omega),
      List.getD_eq_default _ _ (by omega)]

namespace Text

/-- No text: the first line is being written. -/
def blank : Text := ⟨[], [], by decide⟩

/-- A character more: a newline completes a line, and so does the last
    character that fits in a row. -/
def put (t : Text) (ch : UInt8) : Text :=
  if ch = asciiNl then ⟨t.done ++ [t.cur], [], by decide⟩
  else if h : t.cur.length + 1 = lcdNumCols then ⟨t.done ++ [t.cur ++ [ch]], [], by decide⟩
  else ⟨t.done, t.cur ++ [ch], by have := t.cur_lt; rw [List.length_append]; simp at h ⊢; omega⟩

/-- All the lines. -/
def lines (t : Text) : List (List UInt8) := t.done ++ [t.cur]

/-- The lines that fit on the display: all of them, or the last ones. -/
def visible (t : Text) : List (List UInt8) :=
  if t.lines.length ≤ lcdNumRows then t.lines else t.lines.drop (t.lines.length - lcdNumRows)

/-- What a cell of the grid shows. -/
def shown (t : Text) (row col : ℕ) : UInt8 := (t.visible.getD row []).getD col asciiSpace

/-- The line of a number; nothing, if there is none. -/
def line (t : Text) (i : ℕ) : List UInt8 := t.lines.getD i []

@[simp] theorem length_lines (t : Text) : t.lines.length = t.done.length + 1 := by simp [lines]

@[simp] theorem line_done (t : Text) : t.line t.done.length = t.cur := by simp [line, lines]

/-- The first line on the display has the number by which the lines exceed it. -/
theorem shown_eq (t : Text) (row col : ℕ) :
    t.shown row col = (t.line (t.done.length - 3 + row)).getD col asciiSpace := by
  have hdrop : t.visible = t.lines.drop (t.done.length - 3) := by
    rw [visible, length_lines, show t.done.length + 1 - lcdNumRows =
      t.done.length - 3 from Nat.add_sub_add_right ..]
    split
    · rw [Nat.sub_eq_zero_of_le (Nat.le_of_succ_le_succ ‹_›), List.drop_zero]
    · rfl
  rw [shown, hdrop, line]
  simp [List.getD_eq_getElem?_getD, List.getElem?_drop]

/-- An empty line that is added is not seen. -/
theorem getD_append_nil (lines : List (List UInt8)) (i : ℕ) :
    (lines ++ [[]]).getD i [] = lines.getD i [] := by
  rw [getD_concat]
  split
  · rw [List.getD_eq_default _ _ (by omega)]
  · rfl

/-- The line that is being written gets a character. -/
theorem getD_append_put (done : List (List UInt8)) (cur : List UInt8) (ch : UInt8) (i col : ℕ) :
    ((done ++ [cur ++ [ch]]).getD i []).getD col asciiSpace =
      if i = done.length ∧ col = cur.length then ch
      else ((done ++ [cur]).getD i []).getD col asciiSpace := by
  rw [getD_concat, getD_concat]
  by_cases hi : i = done.length
  · rw [if_pos hi, if_pos hi, getD_concat]
    simp only [hi, true_and]
  · rw [if_neg hi, if_neg hi, if_neg fun h => hi h.1]

end Text

/-- The text broken into lines. -/
def typeset (text : List UInt8) : Text := text.foldl Text.put .blank

/-! ## The buffer -/

variable {b : LcdBuffer} {t : Text} {ch : UInt8}

theorem u8_succ {n : ℕ} (h : n < 255) : u8 (n + 1) = n + 1 := by
  rw [u8]
  omega

namespace LcdBuffer

/-- A character is stored in the current line. -/
def stored (b : LcdBuffer) (ch : UInt8) : LcdBuffer :=
  { b with data := Function.update b.data (lines b.currLine + b.pos) ch, pos := b.pos + 1 }

/-- The next line is the current one, and cleared if it was used before. -/
def advance (b : LcdBuffer) : LcdBuffer :=
  clearLineIfFull { b with
    currLine := if b.currLine + 1 = lcdNumRows then 0 else b.currLine + 1
    pos := 0
    screenIsFull := b.screenIsFull || decide (b.currLine + 1 = lcdNumRows) }

/-- The last four lines are in the buffer, the line `i` where its number modulo
    four says; as long as there are fewer, the rest of it is blank. -/
def Replays (b : LcdBuffer) (text : List (List UInt8)) : Prop :=
  ∀ i, i < max text.length lcdNumRows → text.length ≤ i + lcdNumRows → ∀ col < lcdNumCols,
    b.data (lines (i % lcdNumRows) + col) = (text.getD i []).getD col asciiSpace

end LcdBuffer

theorem putChar_eq (hline : b.currLine < lcdNumRows) (hpos : b.pos < lcdNumCols) :
    putChar b ch =
      if ch = asciiNl then (b.advance, true)
      else if b.pos + 1 = lcdNumCols then ((b.stored ch).advance, true)
      else (b.stored ch, false) := by
  have hline' : u8 (b.currLine + 1) = b.currLine + 1 := u8_succ (Nat.lt_trans hline (by decide))
  have hpos' : u8 (b.pos + 1) = b.pos + 1 := u8_succ (Nat.lt_trans hpos (by decide))
  have hne : b.currLine ≠ lcdNumRows := Nat.ne_of_lt hline
  rw [putChar]
  by_cases hnl : ch = asciiNl
  · by_cases hlast : b.currLine + 1 = lcdNumRows
    · simp [hnl, hline', hlast, LcdBuffer.advance]
    · simp [hnl, hline', hlast, LcdBuffer.advance]
  by_cases hend : b.pos + 1 = lcdNumCols
  · by_cases hlast : b.currLine + 1 = lcdNumRows
    · simp [hnl, hline', hpos', hend, hlast, LcdBuffer.advance, LcdBuffer.stored]
    · simp [hnl, hline', hpos', hend, hlast, LcdBuffer.advance, LcdBuffer.stored]
  · simp [hnl, hpos', hend, hne, LcdBuffer.stored]

theorem replays_stored {done : List (List UInt8)} {cur : List UInt8} (ch : UInt8)
    (h : b.Replays (done ++ [cur]))
    (hline : b.currLine = done.length % lcdNumRows) (hpos : b.pos = cur.length)
    (hcur : cur.length < lcdNumCols) :
    (b.stored ch).Replays (done ++ [cur ++ [ch]]) := by
  intro i hi hlast col hcol
  rw [List.length_append, List.length_singleton] at hi hlast
  rw [Text.getD_append_put, LcdBuffer.stored, hline, hpos]
  dsimp only
  rw [Function.update_apply]
  -- Of the lines in the buffer, only the current one has its place in it.
  refine if_congr ?_ rfl (h i ?_ ?_ col hcol)
  · simp only [LcdBuffer.lines, lcdNumRows, lcdNumCols] at *
    constructor
    · intro heq
      omega
    · rintro ⟨rfl, rfl⟩
      rfl
  · rwa [List.length_append, List.length_singleton]
  · rwa [List.length_append, List.length_singleton]

theorem replays_advance {text : List (List UInt8)} {n : ℕ} (h : b.Replays text) (hn : text.length = n + 1)
    (hline : b.currLine = n % lcdNumRows) (hfull : b.screenIsFull = decide (lcdNumRows ≤ n)) :
    b.advance.Replays (text ++ [[]]) ∧ b.advance.currLine = (n + 1) % lcdNumRows ∧ b.advance.pos = 0 ∧
      b.advance.screenIsFull = decide (lcdNumRows ≤ n + 1) := by
  have hline' : (if b.currLine + 1 = lcdNumRows then 0 else b.currLine + 1) = (n + 1) % lcdNumRows := by
    simp only [lcdNumRows] at *
    split <;> omega
  have hfull' : (b.screenIsFull || decide (b.currLine + 1 = lcdNumRows)) = decide (lcdNumRows ≤ n + 1) := by
    rw [hfull, hline, ← Bool.decide_or]
    exact decide_eq_decide.2 (by simp only [lcdNumRows]; omega)
  rw [LcdBuffer.advance, hline', hfull', clearLineIfFull]
  by_cases h4 : lcdNumRows ≤ n + 1
  · -- The line was used before, by the line that is no longer among the last four.
    rw [decide_eq_true h4]
    refine ⟨fun i hi hlast col hcol => ?_, rfl, rfl, rfl⟩
    rw [Text.getD_append_nil]
    rw [List.length_append, List.length_singleton, hn] at hi hlast
    change (if LcdBuffer.lines ((n + 1) % lcdNumRows) ≤ LcdBuffer.lines (i % lcdNumRows) + col ∧
      _ then asciiSpace
      else b.data _) = _
    by_cases hi' : i = n + 1
    · subst hi'
      rw [if_pos ⟨Nat.le_add_right _ _, Nat.add_lt_add_left hcol _⟩,
        List.getD_eq_default text [] (by omega)]
      rfl
    · rw [if_neg, h i (by omega) (by omega) col hcol]
      simp only [LcdBuffer.lines, lcdNumRows, lcdNumCols] at *
      omega
  · rw [decide_eq_false h4]
    refine ⟨fun i hi hlast col hcol => ?_, rfl, rfl, rfl⟩
    rw [Text.getD_append_nil]
    rw [List.length_append, List.length_singleton, hn] at hi hlast
    exact h i (by omega) (by omega) col hcol

/-- The buffer keeps the text: it holds its last four lines, and the position
    where the next character goes. -/
structure Buffered (b : LcdBuffer) (t : Text) : Prop where
  currLine : b.currLine = t.done.length % lcdNumRows
  pos : b.pos = t.cur.length
  full : b.screenIsFull = decide (lcdNumRows ≤ t.done.length)
  replays : b.Replays t.lines

namespace Buffered

theorem init : Buffered lcdInitBuffer .blank where
  currLine := rfl
  pos := rfl
  full := rfl
  replays i hi _ col _ := by
    have hlines : Text.blank.lines.getD i [] = [] := Text.getD_append_nil [] i
    rw [hlines]
    rfl

theorem currLine_lt (h : Buffered b t) : b.currLine < lcdNumRows := h.currLine ▸ Nat.mod_lt _ (by decide)

theorem pos_lt (h : Buffered b t) : b.pos < lcdNumCols := h.pos ▸ t.cur_lt

/-- A character goes to the buffer; `curr_line_advanced` says that it completes a line. -/
theorem put (h : Buffered b t) (ch : UInt8) :
    Buffered (putChar b ch).1 (t.put ch) ∧
      t.done.length + (putChar b ch).2.toNat = (t.put ch).done.length := by
  have hadvance {b : LcdBuffer} {line : List UInt8} (hr : b.Replays (t.done ++ [line]))
      (hline : b.currLine = t.done.length % lcdNumRows)
        (hfull : b.screenIsFull = decide (lcdNumRows ≤ t.done.length)) :
      Buffered b.advance ⟨t.done ++ [line], [], by decide⟩ := by
    obtain ⟨hr', hline', hpos', hfull'⟩ := replays_advance hr (by simp) hline hfull
    exact ⟨by simpa using hline', hpos', by simpa using hfull', hr'⟩
  have hstored := replays_stored ch h.replays h.currLine h.pos t.cur_lt
  rw [putChar_eq h.currLine_lt h.pos_lt, Text.put, h.pos]
  split
  · exact ⟨hadvance h.replays h.currLine h.full, by simp⟩
  split
  · exact ⟨hadvance hstored h.currLine h.full, by simp⟩
  · exact ⟨⟨h.currLine, by simp [LcdBuffer.stored, h.pos], h.full, hstored⟩, by simp⟩

/-- `_printn_to_buf` returns the number of lines that are completed. -/
theorem printn (h : Buffered b t) (data : List UInt8) :
    Buffered (printnToBuf b data).1 (data.foldl Text.put t) ∧
      t.done.length + (printnToBuf b data).2 = (data.foldl Text.put t).done.length := by
  induction data generalizing b t with
  | nil => exact ⟨h, rfl⟩
  | cons ch data ih =>
    obtain ⟨hput, hcount⟩ := h.put ch
    obtain ⟨hrest, hcount'⟩ := ih hput
    refine ⟨hrest, ?_⟩
    change t.done.length + ((printnToBuf (putChar b ch).1 data).2 + (putChar b ch).2.toNat) = _
    rw [List.foldl_cons, ← hcount', ← hcount]
    omega

end Buffered

/-! ## The display -/

variable {l : Lcd} {d : Display}

/-- What is written in a row from its start. -/
theorem writes_eq (f : ℕ → UInt8) (d : Display) (hcol : d.col = 0) (count : ℕ) :
    ∃ d', (List.range count).foldl (fun d i => lcdWrite d (f i)) d = d' ∧
    d'.row = d.row ∧ d'.col = count ∧
      ∀ row col, d'.cells row col = if row = d.row ∧ col < count then f col else d.cells row col := by
  induction count with
  | zero => exact ⟨d, rfl, rfl, hcol, fun row col => (if_neg fun h => Nat.not_lt_zero _ h.2).symm⟩
  | succ count ih =>
    obtain ⟨d', hd', hrow, hcount, hcells⟩ := ih
    refine ⟨lcdWrite d' (f count), ?_, hrow, by rw [lcdWrite, hcount], fun row col => ?_⟩
    · rw [List.range_succ, List.foldl_append, hd']
      rfl
    rw [lcdWrite, hrow, hcount]
    dsimp only
    rw [Function.update_apply]
    by_cases hr : row = d.row
    · subst hr
      rw [if_pos rfl, Function.update_apply, hcells]
      by_cases hc : col = count
      · rw [if_pos hc, if_pos ⟨rfl, by omega⟩, hc]
      · rw [if_neg hc]
        exact if_congr (and_congr_right fun _ => by omega) rfl rfl
    · rw [if_neg hr, hcells, if_neg fun h => hr h.1, if_neg fun h => hr h.1]

/-- The display shows the text, and the cursor is where it goes on. -/
structure Displayed (l : Lcd) (t : Text) : Prop where
  row : l.lastCursorRow = min t.done.length 3
  col : l.lastCursorCol = t.cur.length
  cursorRow : l.display.row = l.lastCursorRow
  cursorCol : l.display.col = l.lastCursorCol
  cells : ∀ row < lcdNumRows, ∀ col < lcdNumCols, l.display.cells row col = t.shown row col

theorem Displayed.init (d : Display) : Displayed (lcdInit d) .blank where
  row := rfl
  col := rfl
  cursorRow := rfl
  cursorCol := rfl
  cells row _ col _ := by
    rw [Text.shown_eq, Text.line, show Text.blank.lines = [] ++ [[]] from rfl, Text.getD_append_nil]
    rfl

namespace Displayed

theorem col_lt (h : Displayed l t) : l.lastCursorCol < lcdNumCols := h.col ▸ t.cur_lt

/-- A character is written at the cursor: the line that is being written has one more. -/
theorem cells_write (h : Displayed l t) (ch : UInt8) {row col : ℕ} (hrow : row < lcdNumRows)
    (hcol : col < lcdNumCols) :
    (lcdWrite l.display ch).cells row col =
      ((t.done ++ [t.cur ++ [ch]]).getD (t.done.length - 3 + row) []).getD col asciiSpace := by
  have hold : l.display.cells row col = _ := (h.cells row hrow col hcol).trans (t.shown_eq row col)
  have hhere : t.done.length - 3 + row = t.done.length ↔ row = l.display.row := by
    rw [h.cursorRow, h.row]
    omega
  rw [Text.getD_append_put, lcdWrite]
  dsimp only
  rw [Function.update_apply]
  simp only [hhere, ← h.col, ← h.cursorCol]
  by_cases hr : row = l.display.row
  · subst hr
    rw [if_pos rfl, Function.update_apply, hold]
    exact if_congr ⟨fun hc => ⟨rfl, hc⟩, And.right⟩ rfl rfl
  · rw [if_neg hr, if_neg fun hand => hr hand.1, hold]
    rfl

/-- A line is completed, and there is room for another: the cursor goes to its start. -/
theorem newline {line : List UInt8} (hrow : l.lastCursorRow = min t.done.length 3)
    (hroom : t.done.length + 1 < 4)
    (hcells : ∀ row < lcdNumRows, ∀ col < lcdNumCols,
      l.display.cells row col = ((t.done ++ [line]).getD (t.done.length - 3 + row) []).getD col asciiSpace) :
    Displayed { l with
      lastCursorRow := u8 (l.lastCursorRow + 1)
      lastCursorCol := 0
      display := lcdSetCursor l.display 0 (u8 (l.lastCursorRow + 1)) }
        ⟨t.done ++ [line], [], by decide⟩ := by
  have hnext : u8 (l.lastCursorRow + 1) = t.done.length + 1 := by
    rw [u8_succ (by omega)]
    omega
  rw [hnext]
  refine ⟨?_, rfl, ?_, rfl, fun row hr col hc => ?_⟩
  · rw [List.length_append, List.length_singleton]
    exact (Nat.min_eq_left (Nat.le_of_lt_succ hroom)).symm
  · exact if_neg (Nat.not_le.2 hroom)
  · rw [Text.shown_eq, Text.line, Text.lines, Text.getD_append_nil, List.length_append, List.length_singleton,
      show t.done.length + 1 - 3 = t.done.length - 3 by omega]
    exact hcells row hr col hc

/-- One turn of the loop of `lcd_printn`, where no line leaves the display. -/
theorem draw (h : Displayed l t)
    (hroom : (t.put ch).done.length < lcdNumRows ∨ (t.put ch).done.length = t.done.length) :
    Displayed (drawChar l ch) (t.put ch) := by
  have hnext : u8 (l.lastCursorCol + 1) = t.cur.length + 1 := by
    rw [← h.col]
    exact u8_succ (Nat.lt_trans h.col_lt (by decide))
  rw [Text.put] at hroom ⊢
  rw [drawChar]
  by_cases hnl : ch = asciiNl
  · rw [if_pos hnl] at hroom ⊢
    rw [if_pos hnl]
    have hroom : t.done.length + 1 < 4 := by simpa using hroom
    exact newline h.row hroom fun row hr col hc => (h.cells row hr col hc).trans (t.shown_eq row col)
  rw [if_neg hnl] at hroom ⊢
  rw [if_neg hnl, hnext]
  by_cases hend : t.cur.length + 1 = lcdNumCols
  · rw [dif_pos hend] at hroom ⊢
    rw [if_pos hend]
    have hroom : t.done.length + 1 < 4 := by simpa using hroom
    exact newline (l := { l with display := lcdWrite l.display ch }) h.row hroom
      fun row hr col hc => h.cells_write ch hr hc
  · rw [dif_neg hend, if_neg hend]
    refine ⟨h.row, by simp, h.cursorRow, ?_, fun row hr col hc => ?_⟩
    · rw [← h.col, ← h.cursorCol]
      rfl
    · rw [Text.shown_eq]
      exact h.cells_write ch hr hc

end Displayed

/-! ## Drawing again -/

/-- The first rows show the text, and the others nothing. -/
def Drawn (t : Text) (count : ℕ) (d : Display) : Prop :=
  ∀ row < lcdNumRows, ∀ col < lcdNumCols,
    d.cells row col = if row < count then t.shown row col else asciiSpace

/-- The line of the buffer for a row of the display. -/
theorem Buffered.data_eq (h : Buffered b t) {row col : ℕ} (hrow : row < lcdNumRows)
    (hcol : col < lcdNumCols) :
    b.data (LcdBuffer.lines ((t.done.length - 3 + row) % lcdNumRows) + col) = t.shown row col := by
  rw [t.shown_eq]
  simp only [lcdNumRows] at hrow
  refine h.replays _ ?_ ?_ col hcol
  · rw [t.length_lines]
    simp only [lcdNumRows]
    omega
  · rw [t.length_lines]
    simp only [lcdNumRows]
    omega

/-- One turn of the loop of `_clear_screen_and_scroll_up`: a row more is drawn. -/
theorem Drawn.writeLine {row : ℕ} (h : Buffered b t) (hd : Drawn t row d) (hrow : row < lcdNumRows) :
    Drawn t (row + 1)
      (writeLine b ((t.done.length - 3 + row) % lcdNumRows) (lcdSetCursor d 0 (u8 row))) := by
  have hu8 : u8 row = row := by
    simp only [lcdNumRows] at hrow
    rw [u8]
    omega
  obtain ⟨d', hd', -, -, hcells⟩ := writes_eq
    (fun i => b.data (LcdBuffer.lines ((t.done.length - 3 + row) % lcdNumRows) + i))
      (lcdSetCursor d 0 row) rfl lcdNumCols
  have hcursor : (lcdSetCursor d 0 row).row = row := if_neg (Nat.not_le.2 hrow)
  intro row' hrow' col hcol
  rw [hu8, HobbyOs.writeLine, hd', hcells, hcursor]
  by_cases heq : row' = row
  · subst heq
    rw [if_pos ⟨rfl, hcol⟩, if_pos (Nat.lt_succ_self _)]
    exact h.data_eq hrow hcol
  · rw [if_neg fun hand => heq hand.1, lcdSetCursor, hd row' hrow' col hcol]
    exact if_congr (by omega) rfl rfl

/-- The loop of `_clear_screen_and_scroll_up` ends, with the rows above the last one drawn. -/
theorem scrollLoop_draws (h : Buffered b t) (hfull : lcdNumRows ≤ t.done.length) {rest row : ℕ}
    (hrest : row + rest = 3) (hd : Drawn t row d) :
    ∃ d', scrollLoop b (rest + 1) d ((t.done.length - 3 + row) % lcdNumRows) row = some (d', 3) ∧
    Drawn t 3 d' := by
  simp only [lcdNumRows] at hfull
  induction rest generalizing row d with
  | zero =>
    obtain rfl : row = 3 := by omega
    refine ⟨d, ?_, hd⟩
    rw [scrollLoop, if_pos]
    rw [h.currLine, Nat.sub_add_cancel (by omega)]
  | succ rest ih =>
    have hline : (t.done.length - 3 + row) % lcdNumRows ≠ b.currLine := by
      rw [h.currLine]
      simp only [lcdNumRows]
      omega
    have hnext : (if (t.done.length - 3 + row) % lcdNumRows + 1 = lcdNumRows then 0
        else (t.done.length - 3 + row) % lcdNumRows + 1) = (t.done.length - 3 + (row + 1)) % lcdNumRows := by
      simp only [lcdNumRows]
      split <;> omega
    rw [scrollLoop, if_neg hline, hnext]
    exact ih (by omega) (hd.writeLine h (by simp only [lcdNumRows]; omega))

/-- The last loop of `_clear_screen_and_scroll_up` writes the line that is being
    written, and counts its characters. -/
theorem replayLine_eq (hcol : l.lastCursorCol = 0) (hpos : l.buf.pos < lcdNumCols) :
    replayLine l = { l with
      display := (List.range l.buf.pos).foldl
        (fun d i => lcdWrite d (l.buf.data (LcdBuffer.lines l.buf.currLine + i))) l.display
      lastCursorCol := l.buf.pos } := by
  have hcount (count : ℕ) (hle : count ≤ l.buf.pos) : (List.range count).foldl (fun l i => { l with
      display := lcdWrite l.display (l.buf.data (LcdBuffer.lines l.buf.currLine + i))
      lastCursorCol := u8 (l.lastCursorCol + 1) }) l = { l with
        display := (List.range count).foldl
          (fun d i => lcdWrite d (l.buf.data (LcdBuffer.lines l.buf.currLine + i))) l.display
        lastCursorCol := count } := by
    induction count with
    | zero => exact congrArg (fun col => { l with lastCursorCol := col }) hcol
    | succ count ih =>
      simp only [List.range_succ, List.foldl_append, ih (by omega), List.foldl_cons, List.foldl_nil]
      rw [u8_succ (by simp only [lcdNumCols] at hpos; omega)]
  exact hcount _ (Nat.le_refl _)

/-- `_clear_screen_and_scroll_up` shows the text that is in the buffer. -/
theorem Buffered.redraw (h : Buffered l.buf t) (hfull : lcdNumRows ≤ t.done.length) :
    ∃ l', clearScreenAndScrollUp l = some l' ∧ l'.buf = l.buf ∧ Displayed l' t := by
  have hblank : Drawn t 0 (lcdClear l.display) := fun row _ col _ => (if_neg (Nat.not_lt_zero row)).symm
  obtain ⟨d, hloop, hd⟩ := scrollLoop_draws h hfull (Nat.zero_add 3) hblank
  have hstart : (if l.buf.currLine + 1 = lcdNumRows then 0 else l.buf.currLine + 1) =
      (t.done.length - 3 + 0) % lcdNumRows := by
    rw [h.currLine]
    simp only [lcdNumRows] at hfull ⊢
    split <;> omega
  obtain ⟨d', hd', hrow, hcol, hcells⟩ := writes_eq
    (fun i => l.buf.data (LcdBuffer.lines l.buf.currLine + i)) (lcdSetCursor d 0 3) rfl l.buf.pos
  refine ⟨{ l with display := d', lastCursorRow := 3, lastCursorCol := l.buf.pos }, ?_,
    rfl, ?_, h.pos, hrow, hcol, ?_⟩
  · rw [clearScreenAndScrollUp, hstart, hloop]
    have hreplay :=
      replayLine_eq (l := { l with display := lcdSetCursor d 0 3, lastCursorRow := 3, lastCursorCol := 0 })
      rfl h.pos_lt
    refine (congrArg some hreplay).trans ?_
    exact congrArg (fun d => some { l with display := d, lastCursorRow := 3, lastCursorCol := l.buf.pos }) hd'
  · exact (Nat.min_eq_right (Nat.le_of_succ_le hfull)).symm
  intro row hr col hc
  have hlast : t.done.length - 3 + 3 = t.done.length := Nat.sub_add_cancel (Nat.le_of_succ_le hfull)
  dsimp only
  rw [hcells]
  -- The last line is drawn up to the cursor, the others by the loop.
  by_cases h3 : row = 3
  · subst h3
    by_cases hshort : col < l.buf.pos
    · rw [if_pos ⟨rfl, hshort⟩, ← h.data_eq hr hc, hlast, ← h.currLine]
    · rw [if_neg fun hand => hshort hand.2, t.shown_eq, hlast, t.line_done,
        List.getD_eq_default _ _ (by rw [← h.pos]; omega)]
      exact (hd 3 hr col hc).trans (if_neg (by omega))
  · rw [if_neg fun hand => h3 hand.1]
    exact (hd row hr col hc).trans (if_pos (by simp only [lcdNumRows] at hr; omega))

/-! ## Calls -/

/-- The buffer and the display both have the text. -/
structure Lcd.Shows (l : Lcd) (t : Text) : Prop where
  buffered : Buffered l.buf t
  displayed : Displayed l t

theorem Text.length_le_put (t : Text) (ch : UInt8) : t.done.length ≤ (t.put ch).done.length := by
  rw [Text.put]
  split
  · simp
  split
  · simp
  · exact Nat.le_refl _

theorem Text.length_le_foldl (t : Text) (data : List UInt8) :
    t.done.length ≤ (data.foldl Text.put t).done.length := by
  induction data generalizing t with
  | nil => exact Nat.le_refl _
  | cons ch data ih => exact Nat.le_trans (t.length_le_put ch) (ih _)

theorem foldl_drawChar_buf (l : Lcd) (data : List UInt8) : (data.foldl drawChar l).buf = l.buf := by
  induction data generalizing l with
  | nil => rfl
  | cons ch data ih =>
    rw [List.foldl_cons, ih, drawChar]
    split
    · rfl
    dsimp only
    split <;> rfl

/-- The loop of `lcd_printn`, where no line leaves the display. -/
theorem Displayed.draws (h : Displayed l t) (data : List UInt8)
    (hroom : (data.foldl Text.put t).done.length < lcdNumRows ∨
      (data.foldl Text.put t).done.length = t.done.length) :
    Displayed (data.foldl drawChar l) (data.foldl Text.put t) := by
  induction data generalizing l t with
  | nil => exact h
  | cons ch data ih =>
    have hle := t.length_le_put ch
    have hle' := (t.put ch).length_le_foldl data
    rw [List.foldl_cons] at hroom
    exact ih (h.draw (by omega)) (by omega)

/-- `lcd_printn` adds to the text that is shown. It draws the display again if
    a line leaves it, and else goes on where the cursor is. -/
theorem Lcd.Shows.printn (h : l.Shows t) (data : List UInt8) :
    ∃ l', lcdPrintn l data = some l' ∧ l'.Shows (data.foldl Text.put t) := by
  obtain ⟨hb, hcount⟩ := h.buffered.printn data
  have hcond : ((printnToBuf l.buf data).1.screenIsFull && decide (0 < (printnToBuf l.buf data).2)) = true ↔
      lcdNumRows ≤ (data.foldl Text.put t).done.length ∧ 0 < (printnToBuf l.buf data).2 := by
    rw [hb.full, Bool.and_eq_true, decide_eq_true_iff, decide_eq_true_iff]
  rw [lcdPrintn]
  by_cases hagain : lcdNumRows ≤ (data.foldl Text.put t).done.length ∧ 0 < (printnToBuf l.buf data).2
  · obtain ⟨l', hl', hbuf, hd⟩ :=
      Buffered.redraw (l := { l with buf := (printnToBuf l.buf data).1 }) hb hagain.1
    exact ⟨l', (if_pos (hcond.2 hagain)).trans hl', hbuf ▸ hb, hd⟩
  · have hd : Displayed { l with buf := (printnToBuf l.buf data).1 } t :=
      ⟨h.displayed.row, h.displayed.col, h.displayed.cursorRow, h.displayed.cursorCol, h.displayed.cells⟩
    refine ⟨_, if_neg fun hc => hagain (hcond.1 hc), ?_, hd.draws data (by omega)⟩
    rw [foldl_drawChar_buf]
    exact hb

theorem Lcd.Shows.prints (h : l.Shows t) (chunks : List (List UInt8)) :
    ∃ l', lcdRun l (chunks.map .printn) = some l' ∧ l'.Shows (chunks.flatten.foldl Text.put t) := by
  induction chunks generalizing l t with
  | nil => exact ⟨l, rfl, h⟩
  | cons data chunks ih =>
    obtain ⟨l₁, hl₁, h₁⟩ := h.printn data
    obtain ⟨l', hl', h'⟩ := ih h₁
    refine ⟨l', ?_, ?_⟩
    · rw [List.map_cons, lcdRun, List.foldlM_cons, LcdCall.exec, hl₁]
      exact hl'
    · rw [List.flatten_cons, List.foldl_append]
      exact h'

theorem Lcd.Shows.init (d : Display) : Lcd.Shows (lcdInit d) .blank := ⟨.init, .init d⟩

/-- After any calls of `lcd_printn`, the display shows the last four lines of
    what was printed, and its cursor agrees with the buffer. -/
theorem lcdPrintn_shows (d : Display) (chunks : List (List UInt8)) :
    ∃ l, lcdRun (lcdInit d) (chunks.map .printn) = some l ∧
      (∀ row < lcdNumRows, ∀ col < lcdNumCols, l.display.cells row col =
        (typeset chunks.flatten).shown row col) ∧
      l.buf.currLine < lcdNumRows ∧ l.buf.pos = l.lastCursorCol ∧ l.lastCursorCol < lcdNumCols := by
  obtain ⟨l, hl, h⟩ := (Lcd.Shows.init d).prints chunks
  exact ⟨l, hl, h.displayed.cells, h.buffered.currLine_lt, h.buffered.pos.trans h.displayed.col.symm,
    h.displayed.col_lt⟩

/-! ## Backspace -/

/-- The cursor is in a row, at the place in it where the buffer is. -/
def Lcd.InStep (l : Lcd) : Prop := l.lastCursorCol < lcdNumCols ∧ l.lastCursorCol = l.buf.pos

theorem Lcd.Shows.inStep (h : l.Shows t) : l.InStep :=
  ⟨h.displayed.col_lt, h.displayed.col.trans h.buffered.pos.symm⟩

/-- `lcd_backspace` moves the cursor, at the start of a row to the column 255,
    and leaves the buffer as it is. -/
theorem not_inStep_lcdBackspace (h : l.InStep) : ¬(lcdBackspace l).InStep := by
  rintro ⟨-, hcol⟩
  have hlt : l.buf.pos < 20 := h.2 ▸ h.1
  rw [lcdBackspace, h.2, u8] at hcol
  simp only [Nat.not_lt_zero, if_false] at hcol
  omega

/-- Calls without `lcd_backspace`. -/
theorem exists_chunks {calls : List LcdCall} (h : .backspace ∉ calls) :
    ∃ chunks : List (List UInt8), calls = chunks.map .printn := by
  induction calls with
  | nil => exact ⟨[], rfl⟩
  | cons call calls ih =>
    obtain ⟨chunks, rfl⟩ := ih fun hmem => h (List.mem_cons_of_mem _ hmem)
    cases call with
    | printn data => exact ⟨data :: chunks, rfl⟩
    | backspace => exact absurd List.mem_cons_self h

/-- The display and the buffer are in step throughout a run if and only if it
    does not call `lcd_backspace`. -/
theorem inStep_iff (d : Display) (calls : List LcdCall) :
    (∀ calls', calls' <+: calls → ∃ l, lcdRun (lcdInit d) calls' = some l ∧ l.InStep) ↔
    .backspace ∉ calls := by
  constructor
  · intro h hmem
    -- The state before the first backspace is in step, and so the one after it is not.
    obtain ⟨before, after, rfl, hbefore⟩ := List.eq_append_cons_of_mem hmem
    obtain ⟨chunks, rfl⟩ := exists_chunks hbefore
    obtain ⟨l, hl, hshows⟩ := (Lcd.Shows.init d).prints chunks
    obtain ⟨l', hl', hstep⟩ := h (chunks.map .printn ++ [.backspace]) (by simp)
    rw [lcdRun, List.foldlM_append] at hl'
    have hback : some (lcdBackspace l) = some l' := by
      rw [← hl', show (chunks.map LcdCall.printn).foldlM LcdCall.exec (lcdInit d) = some l from hl]
      rfl
    cases hback
    exact not_inStep_lcdBackspace hshows.inStep hstep
  · intro h calls' hpre
    obtain ⟨chunks, rfl⟩ := exists_chunks fun hmem => h (hpre.subset hmem)
    obtain ⟨l, hl, hshows⟩ := (Lcd.Shows.init d).prints chunks
    exact ⟨l, hl, hshows.inStep⟩

/-- One character, and then a backspace. The character is erased from the
    display only: it comes back when its line moves up. -/
theorem erased_reappears :
    (¬∀ calls, ∃ l, lcdRun (lcdInit ⟨fun _ _ => 0, 0, 0⟩) calls = some l ∧ l.InStep) ∧
    ((lcdRun (lcdInit ⟨fun _ _ => 0, 0, 0⟩) [.printn [10, 97], .backspace]).map fun l =>
      l.display.cells 1 0) =
      some asciiSpace ∧
    ((lcdRun (lcdInit ⟨fun _ _ => 0, 0, 0⟩) [.printn [10, 97], .backspace, .printn [10, 10, 10]]).map
      fun l => l.display.cells 0 0) = some 97 := by
  refine ⟨fun h => ?_, by decide +kernel, by decide +kernel⟩
  obtain ⟨l, hl, -, hcol⟩ := h [.printn [97], .backspace]
  cases hl
  exact absurd hcol (by decide)

end HobbyOs
