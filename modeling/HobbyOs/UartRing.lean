import HobbyOs.Uart
import HobbyOs.Lib.Ring

/-!
# The ring of the console

The characters that the console has received and not yet handed out are a queue
(`Uart.queue`), kept in a ring. A character that is received is appended to it,
if there is room; a backspace takes back the last one, but not a whole line
(`enqueue`). Reading takes a line, or a part of one, from its front
(`takeLine`).

* `Valid.receives` and `Valid.readline`: the ring is this queue;
* `uncounted`: the newlines in the queue beyond those that are counted, which
  only a received line feed adds to.
-/

namespace HobbyOs

/-! ## The queue -/

/-- What a received character does to those that wait to be read. -/
def enqueue (q : List UInt8) (ch : UInt8) : List UInt8 :=
  if ch = asciiDel then
    if q.length = uartBufSz ∨ q.getLast? = some asciiNl then q else q.dropLast
  else if q.length = uartBufSz then q
  else q ++ [if ch = asciiCr then asciiNl else ch]

/-- The characters up to a newline, at most `room` of them; those that are left,
    and whether there was a newline. -/
def takeLine : (room : ℕ) → List UInt8 → List UInt8 × List UInt8 × Bool
  | 0, q => ([], q, false)
  | _ + 1, [] => ([], [], false)
  | room + 1, ch :: q =>
    if ch = asciiNl then ([], q, true)
    else
      let r := takeLine room q
      (ch :: r.1, r.2)

/-- A line is a front part of the queue, with or without the newline that ended it. -/
theorem takeLine_append (room : ℕ) (q : List UInt8) :
    q = (takeLine room q).1 ++ (if (takeLine room q).2.2 then [asciiNl] else []) ++ (takeLine room q).2.1 := by
  induction room generalizing q with
  | zero => rfl
  | succ room ih =>
    cases q with
    | nil => rfl
    | cons ch q =>
      rw [takeLine]
      by_cases hch : ch = asciiNl
      · simp [hch]
      · have h := ih q
        simp only [if_neg hch, List.cons_append]
        rw [← h]

theorem notMem_takeLine (room : ℕ) (q : List UInt8) : asciiNl ∉ (takeLine room q).1 := by
  induction room generalizing q with
  | zero => exact List.not_mem_nil
  | succ room ih =>
    cases q with
    | nil => exact List.not_mem_nil
    | cons ch q =>
      rw [takeLine]
      by_cases hch : ch = asciiNl
      · simp [hch]
      · rw [if_neg hch]
        exact fun h => (List.mem_cons.1 h).elim (fun h => hch h.symm) (ih q)

/-- Something is taken, if there is room for it. -/
theorem takeLine_ne {room : ℕ} {q : List UInt8} (hr : room ≠ 0) (hq : q ≠ []) :
    0 < (takeLine room q).1.length ∨ (takeLine room q).2.2 = true := by
  obtain ⟨room, rfl⟩ := Nat.exists_eq_succ_of_ne_zero hr
  obtain ⟨ch, q, rfl⟩ := List.exists_cons_of_ne_nil hq
  rw [takeLine]
  by_cases hch : ch = asciiNl
  · simp [hch]
  · simp [hch]

/-! ## The ring -/

namespace Uart

variable {u : Uart} {c : ℕ}

/-- The number of characters that wait to be read. -/
def count (u : Uart) : ℕ :=
  if u.rxBuffFull then uartBufSz else (u.rxWpos + uartBufSz - u.rxRpos) % uartBufSz

/-- The characters that wait to be read, the oldest first. -/
def queue (u : Uart) : List UInt8 := Ring.window u.rxbuf uartBufSz u.rxRpos u.count

/-- The positions are in the ring, and the same if it is full. -/
structure Valid (u : Uart) : Prop where
  rpos_lt : u.rxRpos < uartBufSz
  wpos_lt : u.rxWpos < uartBufSz
  full : u.rxBuffFull = true → u.rxRpos = u.rxWpos

/-- The characters that wait are those from one position to the other. -/
structure Spans (u : Uart) (c : ℕ) : Prop where
  rpos_lt : u.rxRpos < uartBufSz
  le : c ≤ uartBufSz
  wpos : u.rxWpos = (u.rxRpos + c) % uartBufSz
  full : u.rxBuffFull = decide (c = uartBufSz)

theorem Spans.valid (h : Spans u c) : u.Valid where
  rpos_lt := h.rpos_lt
  wpos_lt := by
    rw [h.wpos]
    exact Nat.mod_lt _ (by decide)
  full hf := by
    rw [h.full, decide_eq_true_iff] at hf
    rw [h.wpos, hf, Nat.add_mod_right, Nat.mod_eq_of_lt h.rpos_lt]

theorem Spans.count (h : Spans u c) : u.count = c := by
  obtain ⟨hr, hc, hw, hf⟩ := h
  rw [Uart.count, hf, hw]
  unfold uartBufSz at *
  by_cases h : c = 64
  · simp [h]
  · simp only [h, decide_false, Bool.false_eq_true, if_false]
    omega

theorem Spans.queue (h : Spans u c) : u.queue = Ring.window u.rxbuf uartBufSz u.rxRpos c := by
  rw [Uart.queue, h.count]

theorem Valid.spans (h : u.Valid) : Spans u u.count := by
  obtain ⟨hr, hw, hf⟩ := h
  rw [Uart.count]
  cases hfull : u.rxBuffFull with
  | true =>
    refine ⟨hr, le_rfl, ?_, by simpa using hfull⟩
    rw [if_pos rfl, Nat.add_mod_right, Nat.mod_eq_of_lt hr, hf hfull]
  | false =>
    have hlt : (u.rxWpos + uartBufSz - u.rxRpos) % uartBufSz < uartBufSz := Nat.mod_lt _ (by decide)
    have heq : (u.rxRpos + (u.rxWpos + uartBufSz - u.rxRpos) % uartBufSz) % uartBufSz = u.rxWpos := by
      unfold uartBufSz at *
      omega
    exact ⟨hr, hlt.le, heq.symm, hfull.trans (decide_eq_false hlt.ne).symm⟩

@[simp] theorem length_queue : u.queue.length = u.count := Ring.length_window

theorem Valid.full_iff (h : u.Valid) : u.rxBuffFull = true ↔ u.queue.length = uartBufSz := by
  rw [h.spans.full, decide_eq_true_iff, length_queue]

/-! ### Input -/

/-- The position after `wpos`, as `uart_enqueue_chars` computes it. -/
def nextWpos (wpos : ℕ) : ℕ := if uartBufSz ≤ wpos + 1 then 0 else wpos + 1

theorem nextWpos_eq {wpos : ℕ} (h : wpos < uartBufSz) : nextWpos wpos = (wpos + 1) % uartBufSz := by
  unfold nextWpos uartBufSz at *
  split <;> omega

/-- What `uart_enqueue_chars` does with one character. -/
def receive (u : Uart) (ch : UInt8) : Uart :=
  if ch = asciiDel then
    if decrementWpos u u.rxWpos ≠ u.rxWpos then
      { u with rxBuffFull := false, rxWpos := decrementWpos u u.rxWpos }
    else u
  else if u.rxBuffFull then u
  else
    { rxbuf := Function.update u.rxbuf u.rxWpos (if ch = asciiCr then asciiNl else ch)
      rxRpos := u.rxRpos
      rxWpos := nextWpos u.rxWpos
      rxNumNewlines := if ch = asciiCr then u.rxNumNewlines + 1 else u.rxNumNewlines
      rxBuffFull := decide (nextWpos u.rxWpos = u.rxRpos) }

/-- A backspace, in a ring with room in which a character waits. -/
theorem Spans.decrementWpos (h : Spans u (c + 1)) (hc : c + 1 ≠ uartBufSz) :
    decrementWpos u u.rxWpos =
      if u.rxbuf ((u.rxRpos + c) % uartBufSz) = asciiNl then u.rxWpos else (u.rxRpos + c) % uartBufSz := by
  obtain ⟨hr, hle, hw, -⟩ := h
  have hne : u.rxWpos ≠ u.rxRpos := by
    unfold uartBufSz at *
    omega
  have hprev : (if u.rxWpos = 0 then uartBufSz - 1 else u.rxWpos - 1) = (u.rxRpos + c) % uartBufSz := by
    unfold uartBufSz at *
    split <;> omega
  rw [HobbyOs.decrementWpos, if_neg hne, hprev]

theorem Spans.pred (h : Spans u (c + 1)) :
    Spans { u with rxBuffFull := false, rxWpos := (u.rxRpos + c) % uartBufSz } c where
  rpos_lt := h.rpos_lt
  le := Nat.le_of_succ_le h.le
  wpos := rfl
  full := (decide_eq_false (by have := h.le; omega)).symm

/-- A character that is stored, in a ring with room. -/
theorem Spans.succ {b : UInt8} {n : ℤ} (h : Spans u c) (hc : c ≠ uartBufSz) :
    Spans ⟨Function.update u.rxbuf u.rxWpos b, u.rxRpos, nextWpos u.rxWpos, n,
      decide (nextWpos u.rxWpos = u.rxRpos)⟩ (c + 1) := by
  have hwpos := h.valid.wpos_lt
  have hnext : nextWpos u.rxWpos = (u.rxRpos + (c + 1)) % uartBufSz := by
    rw [nextWpos_eq hwpos, h.wpos, Nat.mod_add_mod, Nat.add_assoc]
  refine ⟨h.rpos_lt, Nat.lt_of_le_of_ne h.le hc, hnext, ?_⟩
  have hr := h.rpos_lt
  have hle := h.le
  rw [decide_eq_decide, hnext]
  unfold uartBufSz at *
  omega

theorem Spans.window_update {b : UInt8} (h : Spans u c) (hc : c ≠ uartBufSz) :
    Ring.window (Function.update u.rxbuf u.rxWpos b) uartBufSz u.rxRpos (c + 1) = u.queue ++ [b] := by
  have hcell : (u.rxRpos + c) % uartBufSz = u.rxWpos := h.wpos.symm
  rw [Ring.window_succ, hcell, Function.update_self, h.queue]
  congr 1
  refine Ring.window_of_write (m := 1) (Nat.lt_of_le_of_ne h.le hc) fun x _ hx => ?_
  refine Function.update_of_ne (fun hxw => hx 0 Nat.one_pos ?_) _ _
  rw [hxw, Nat.add_zero, hcell]

theorem Valid.receive_del (h : u.Valid) :
    (u.receive asciiDel).Valid ∧ (u.receive asciiDel).queue = enqueue u.queue asciiDel := by
  have hspans := h.spans
  rw [Uart.receive, enqueue, length_queue, if_pos rfl, if_pos rfl]
  by_cases hpos : u.rxWpos = u.rxRpos
  · -- The ring is empty or full.
    have hcount : u.count = 0 ∨ u.count = uartBufSz := by
      have hwpos := hspans.wpos
      have hle := hspans.le
      have hr := h.rpos_lt
      unfold uartBufSz at *
      omega
    rw [if_neg (not_not.2 (by rw [decrementWpos, if_pos hpos]))]
    refine ⟨h, ?_⟩
    rcases hcount with hc | hc
    · rw [Uart.queue, hc]
      simp
    · rw [if_pos (.inl hc)]
  · -- There is a last character, which goes unless it ends a line.
    obtain ⟨c, hc⟩ : ∃ c, u.count = c + 1 := by
      refine Nat.exists_eq_succ_of_ne_zero fun hc => hpos ?_
      rw [hspans.wpos, hc, Nat.add_zero, Nat.mod_eq_of_lt h.rpos_lt]
    have hfull : c + 1 ≠ uartBufSz := by
      intro hfull
      rw [hspans.wpos, hc, hfull, Nat.add_mod_right, Nat.mod_eq_of_lt h.rpos_lt] at hpos
      exact hpos rfl
    rw [hc] at hspans ⊢
    have hqueue : u.queue = Ring.window u.rxbuf uartBufSz u.rxRpos c ++
        [u.rxbuf ((u.rxRpos + c) % uartBufSz)] := by
      rw [hspans.queue, Ring.window_succ]
    rw [hspans.decrementWpos hfull]
    by_cases hnl : u.rxbuf ((u.rxRpos + c) % uartBufSz) = asciiNl
    · rw [if_pos hnl, if_neg (by simp), if_pos (.inr (by simp [hqueue, hnl]))]
      exact ⟨h, rfl⟩
    · have hmoved : (u.rxRpos + c) % uartBufSz ≠ u.rxWpos := by
        have hle := hspans.le
        rw [hspans.wpos]
        unfold uartBufSz at *
        omega
      rw [if_neg hnl, if_pos hmoved, if_neg (by simp [hfull, hqueue, hnl])]
      refine ⟨hspans.pred.valid, ?_⟩
      rw [hspans.pred.queue, hqueue, List.dropLast_concat]

/-- A received character does to the queue what it should. -/
theorem Valid.receive (h : u.Valid) (ch : UInt8) :
    (u.receive ch).Valid ∧ (u.receive ch).queue = enqueue u.queue ch := by
  have hspans := h.spans
  by_cases hdel : ch = asciiDel
  · rw [hdel]
    exact h.receive_del
  rw [Uart.receive, enqueue, length_queue, if_neg hdel, if_neg hdel, hspans.full]
  by_cases hfull : u.count = uartBufSz
  · rw [if_pos (decide_eq_true hfull), if_pos hfull]
    exact ⟨h, rfl⟩
  · rw [if_neg (by simpa using hfull), if_neg hfull]
    refine ⟨(hspans.succ hfull).valid, ?_⟩
    rw [(hspans.succ hfull).queue, hspans.window_update hfull]

theorem Valid.receives (h : u.Valid) (received : List UInt8) :
    (received.foldl Uart.receive u).Valid ∧
      (received.foldl Uart.receive u).queue = received.foldl enqueue u.queue := by
  induction received generalizing u with
  | nil => exact ⟨h, rfl⟩
  | cons ch received ih =>
    rw [List.foldl_cons, List.foldl_cons, ← (h.receive ch).2]
    exact ih (h.receive ch).1

/-- A full ring takes no part in what is received. Its positions are the same, as in an empty one: a
    backspace finds nothing to take back. -/
theorem Valid.receive_full (h : u.Valid) (hfull : u.rxBuffFull = true) (ch : UInt8) : u.receive ch = u := by
  unfold Uart.receive
  by_cases hdel : ch = asciiDel
  · have hwpos : HobbyOs.decrementWpos u u.rxWpos = u.rxWpos := if_pos (h.full hfull).symm
    rw [if_pos hdel, if_neg (not_not.2 hwpos)]
  · rw [if_neg hdel, if_pos hfull]

theorem Valid.receives_full (h : u.Valid) (hfull : u.rxBuffFull = true) (received : List UInt8) :
    received.foldl Uart.receive u = u := by
  induction received with
  | nil => rfl
  | cons ch received ih => rw [List.foldl_cons, h.receive_full hfull, ih]

/-! ### Reading -/

/-- What `uart_readline` hands out, and the console after it. -/
def readline (u : Uart) (bufsize : ℕ) : List UInt8 × Uart :=
  let r := readlineLoop u bufsize 0 u.rxRpos
  (r.1, { u with
    rxNumNewlines := if r.2.2 then u.rxNumNewlines - 1 else u.rxNumNewlines
    rxBuffFull := if u.rxRpos ≠ r.2.1 ∨ 0 < r.1.length then false else u.rxBuffFull
    rxRpos := r.2.1 })

/-- The loop takes a line from what is left. -/
theorem readlineLoop_eq (room nread : ℕ) {rpos : ℕ} (hr : rpos < uartBufSz) (hc : c ≤ uartBufSz)
    (hw : u.rxWpos = (rpos + c) % uartBufSz) (hread : if nread = 0 then 0 < c else c < uartBufSz) :
    ∃ rpos' c', readlineLoop u room nread rpos =
        ((takeLine room (Ring.window u.rxbuf uartBufSz rpos c)).1, rpos',
          (takeLine room (Ring.window u.rxbuf uartBufSz rpos c)).2.2) ∧
      (takeLine room (Ring.window u.rxbuf uartBufSz rpos c)).2.1 = Ring.window u.rxbuf uartBufSz rpos' c' ∧
      rpos' < uartBufSz ∧ u.rxWpos = (rpos' + c') % uartBufSz := by
  induction room generalizing nread rpos c with
  | zero => exact ⟨rpos, c, rfl, rfl, hr, hw⟩
  | succ room ih =>
    rw [readlineLoop]
    -- The ring is empty at `rx_wpos`, but not before the first character has been
    -- read.
    cases c with
    | zero =>
      have hpos : 0 < nread := by
        by_contra hn
        rw [if_pos (by omega)] at hread
        exact absurd hread (lt_irrefl 0)
      have hend : rpos = u.rxWpos := by rw [hw, Nat.add_zero, Nat.mod_eq_of_lt hr]
      rw [if_pos ⟨hend, hpos⟩]
      exact ⟨rpos, 0, rfl, rfl, hr, hw⟩
    | succ c =>
      have hmore : ¬(rpos = u.rxWpos ∧ 0 < nread) := by
        rintro ⟨hend, hpos⟩
        rw [if_neg (by omega)] at hread
        unfold uartBufSz at *
        omega
      have hwindow : Ring.window u.rxbuf uartBufSz rpos (c + 1) =
          u.rxbuf rpos :: Ring.window u.rxbuf uartBufSz (Ring.next uartBufSz rpos) c := by
        rw [Ring.window_succ', Nat.mod_eq_of_lt hr, Ring.next_eq_mod hr, Ring.window_mod]
      have hnext : u.rxWpos = (Ring.next uartBufSz rpos + c) % uartBufSz := by
        rw [hw, Ring.next_eq_mod hr, Nat.mod_add_mod, Nat.add_assoc, Nat.add_comm 1]
      rw [if_neg hmore, hwindow, takeLine]
      dsimp only
      by_cases hnl : u.rxbuf rpos = asciiNl
      · rw [if_pos hnl, if_pos hnl]
        exact ⟨_, c, rfl, rfl, Ring.next_lt hr, hnext⟩
      · rw [if_neg hnl, if_neg hnl]
        obtain ⟨rpos', c', hloop, hrest, hr', hw'⟩ := ih (nread + 1) (Ring.next_lt hr)
          (Nat.le_of_succ_le hc) hnext (by rw [if_neg (Nat.succ_ne_zero _)]; omega)
        refine ⟨rpos', c', ?_, hrest, hr', hw'⟩
        rw [show (if rpos + 1 = uartBufSz then 0 else rpos + 1) = Ring.next uartBufSz rpos from rfl, hloop]

/-- Reading takes a line from the front of the queue. -/
theorem Valid.readline (h : u.Valid) (hq : u.queue ≠ []) (bufsize : ℕ) :
    (u.readline bufsize).1 = (takeLine bufsize u.queue).1 ∧ (u.readline bufsize).2.Valid ∧
      (u.readline bufsize).2.queue = (takeLine bufsize u.queue).2.1 ∧
      (u.readline bufsize).2.rxNumNewlines =
        u.rxNumNewlines - if (takeLine bufsize u.queue).2.2 then 1 else 0 := by
  have hspans := h.spans
  have hpos : 0 < u.count := by
    rw [← length_queue]
    exact List.length_pos_iff.2 hq
  obtain ⟨rpos, c, hloop, hrest, hr, hw⟩ := readlineLoop_eq bufsize 0 h.rpos_lt hspans.le hspans.wpos hpos
  rw [← Uart.queue] at hloop hrest
  have hlength := congrArg List.length (takeLine_append bufsize u.queue)
  rw [List.length_append, List.length_append, hrest, Ring.length_window, length_queue] at hlength
  have hspans' : Spans (u.readline bufsize).2 c := by
    rw [Uart.readline, hloop]
    refine ⟨hr, by have := hspans.le; omega, hw, ?_⟩
    dsimp only
    have hwpos := hspans.wpos
    have hle := hspans.le
    have hrpos := h.rpos_lt
    -- The position moves by the number of characters that are taken.
    cases hnl : (takeLine bufsize u.queue).2.2 with
    | true =>
      rw [hnl, if_pos rfl, List.length_singleton] at hlength
      have hmoved : u.rxRpos ≠ rpos ∨ 0 < (takeLine bufsize u.queue).1.length := by
        by_contra hn
        unfold uartBufSz at *
        omega
      rw [if_pos hmoved, eq_comm, decide_eq_false_iff_not]
      omega
    | false =>
      rw [hnl, if_neg Bool.false_ne_true, List.length_nil, Nat.add_zero] at hlength
      by_cases htaken : 0 < (takeLine bufsize u.queue).1.length
      · rw [if_pos (.inr htaken), eq_comm, decide_eq_false_iff_not]
        omega
      · have hsame : c = u.count := by omega
        have hstays : rpos = u.rxRpos := by
          rw [hsame] at hw
          unfold uartBufSz at *
          omega
        rw [if_neg (by rw [hstays]; simpa using htaken), hsame]
        exact hspans.full
  refine ⟨by rw [Uart.readline, hloop], hspans'.valid, ?_, ?_⟩
  · rw [hspans'.queue, hrest, Uart.readline, hloop]
  · rw [Uart.readline, hloop]
    split <;> simp

/-! ### Newlines -/

/-- The newlines that wait to be read, beyond those that are counted. -/
def uncounted (u : Uart) : ℤ := u.queue.count asciiNl - u.rxNumNewlines

/-- A received character that is stored as a newline, but not counted. -/
def storesLfFor (u : Uart) (ch : UInt8) : Bool := ch = asciiNl && !u.rxBuffFull

/-- One of the characters is stored as a newline, but not counted. -/
def storesLf (u : Uart) : List UInt8 → Bool
  | [] => false
  | ch :: chs => u.storesLfFor ch || (u.receive ch).storesLf chs

theorem count_enqueue (q : List UInt8) (ch : UInt8) :
    (enqueue q ch).count asciiNl =
      q.count asciiNl + if q.length ≠ uartBufSz ∧ (ch = asciiCr ∨ ch = asciiNl) then 1 else 0 := by
  rw [enqueue]
  by_cases hdel : ch = asciiDel
  · have hno : ¬(q.length ≠ uartBufSz ∧ (ch = asciiCr ∨ ch = asciiNl)) := by
      rw [hdel]
      exact fun h => absurd h.2 (by decide)
    rw [if_pos hdel, if_neg hno, Nat.add_zero]
    split
    · rfl
    · rename_i h
      rcases List.eq_nil_or_concat q with rfl | ⟨q, b, rfl⟩
      · rfl
      · have hb : b ≠ asciiNl := by simpa using fun hb => h (.inr (by simp [hb]))
        simp [hb]
  rw [if_neg hdel]
  by_cases hfull : q.length = uartBufSz
  · simp [hfull]
  · rw [if_neg hfull, List.count_append, List.count_singleton]
    by_cases hcr : ch = asciiCr
    · simp [hcr, hfull]
    · simp [hcr, hfull]

theorem receive_newlines (h : u.Valid) (ch : UInt8) :
    (u.receive ch).rxNumNewlines =
      u.rxNumNewlines + if u.queue.length ≠ uartBufSz ∧ ch = asciiCr then 1 else 0 := by
  rw [Uart.receive]
  by_cases hdel : ch = asciiDel
  · have hno : ¬(u.queue.length ≠ uartBufSz ∧ ch = asciiCr) := by
      rw [hdel]
      exact fun h => absurd h.2 (by decide)
    rw [if_pos hdel, if_neg hno, add_zero]
    split <;> rfl
  rw [if_neg hdel]
  by_cases hfull : u.rxBuffFull = true
  · rw [if_pos hfull, if_neg (not_and_of_not_left _ (not_not.2 (h.full_iff.1 hfull))), add_zero]
  · rw [if_neg hfull]
    have hroom : u.queue.length ≠ uartBufSz := fun hc => hfull (h.full_iff.2 hc)
    by_cases hcr : ch = asciiCr
    · have hyes : u.queue.length ≠ uartBufSz ∧ ch = asciiCr := ⟨hroom, hcr⟩
      simp only [if_pos hyes, if_pos hcr]
    · simp [hcr]

/-- Only a line feed that is stored is not counted. -/
theorem uncounted_receive (h : u.Valid) (ch : UInt8) :
    (u.receive ch).uncounted = u.uncounted + if u.storesLfFor ch then 1 else 0 := by
  rw [uncounted, uncounted, (h.receive ch).2, count_enqueue, receive_newlines h, storesLfFor]
  cases hfull : u.rxBuffFull with
  | true =>
    have hno : u.count = uartBufSz := by simpa using h.full_iff.1 hfull
    simp [hno]
  | false =>
    have hroom : u.count ≠ uartBufSz := by simpa [hfull] using h.full_iff.not
    by_cases hcr : ch = asciiCr
    · simp [hroom, hcr, show asciiCr ≠ asciiNl by decide]
    · by_cases hnl : ch = asciiNl
      · simp [hroom, hnl, show asciiNl ≠ asciiCr by decide]
        omega
      · simp [hcr, hnl]

theorem uncounted_receives (h : u.Valid) {received : List UInt8} (hlf : u.storesLf received = false) :
    (received.foldl Uart.receive u).uncounted = u.uncounted := by
  induction received generalizing u with
  | nil => rfl
  | cons ch received ih =>
    rw [storesLf, Bool.or_eq_false_iff] at hlf
    rw [List.foldl_cons, ih (h.receive ch).1 hlf.2, uncounted_receive h, hlf.1]
    simp

theorem uncounted_le_receives (h : u.Valid) (received : List UInt8) :
    u.uncounted ≤ (received.foldl Uart.receive u).uncounted := by
  induction received generalizing u with
  | nil => exact le_rfl
  | cons ch received ih =>
    refine le_trans ?_ (ih (h.receive ch).1)
    rw [uncounted_receive h]
    split <;> omega

theorem uncounted_readline (h : u.Valid) (hq : u.queue ≠ []) (bufsize : ℕ) :
    (u.readline bufsize).2.uncounted = u.uncounted := by
  obtain ⟨-, -, hqueue, hnewlines⟩ := h.readline hq bufsize
  have hcount := congrArg (List.count asciiNl) (takeLine_append bufsize u.queue)
  rw [List.count_append, List.count_append, List.count_eq_zero.2 (notMem_takeLine bufsize u.queue)] at hcount
  rw [uncounted, uncounted, hqueue, hnewlines, hcount]
  cases (takeLine bufsize u.queue).2.2 with
  | true =>
    simp
    omega
  | false => simp

/-- There is something to read when there seems to be. -/
theorem queue_ne_nil (h : u.Valid) (hu : 0 ≤ u.uncounted) (hread : canReadFrom u = true) :
    u.queue ≠ [] := by
  intro hq
  rw [canReadFrom, Bool.or_eq_true, decide_eq_true_iff, h.full_iff] at hread
  rw [uncounted, hq] at hu
  rcases hread with hread | hread
  · simp at hu
    omega
  · rw [hq] at hread
    cases hread

end Uart

end HobbyOs
