import HobbyOs.Bakedinfs
import HobbyOs.Lib.Words
import HobbyOs.Memory
import HobbyOs.Reads
import HobbyOs.Shell

/-!
# Scripts

How the shell runs the lines of a file (`run_shell_script`, `shell.c`). It takes one
page: the content is at its start, and the last 32 bytes are the buffer for a line.

* The lines that are passed to `parse` are those of the file that are not empty, if
  and only if the file does not start with an empty line that another line follows
  (`script_lines_iff`): an empty line buffer is taken for the end.
* All stores are in the page, none hits what is still to be scanned, and the scan
  ends at the end of the file, if and only if besides that the file leaves a byte
  free in front of the line buffer, and each line one byte of it
  (`script_confined_iff`).
-/

namespace HobbyOs.Shell

open Outcome Words

variable {cfg : Config}

/-! ## Running a script -/

/-- The end of a line. -/
abbrev newline : UInt8 := 10

/-- The bytes reserved for `pbuf`. -/
abbrev lineBufSize : ℕ := 32

/-- A byte that was stored to the page: at which offset, whether through `pbuf`, and the value of
    `end` then, where the scan goes on. -/
structure ScriptStore where
  offset : ℕ
  line : Bool
  scan : ℕ

/-- The state of `run_shell_script`: the page, and `end`. What it has stored, the strings it has
    passed to `parse`, and what it has printed are kept as well. -/
structure Script where
  page : ℕ → UInt8
  scan : ℕ
  stores : List ScriptStore
  parsed : List (List UInt8)
  printed : List String

/-- The code of `run_shell_script`. -/
abbrev ScriptM (α : Type) : Type := EStateM Fault Script α

/-- `pbuf - fbuf`. -/
def pbuf (cfg : Config) : ℕ := cfg.pageSize - lineBufSize

/-- A byte of the page. -/
def fetch (cfg : Config) (off : ℕ) : ScriptM UInt8 := do
  if off < cfg.pageSize then return (← get).page off else throw .outOfBounds

/-- A byte is stored to the page. -/
def put (cfg : Config) (line : Bool) (off : ℕ) (c : UInt8) : ScriptM Unit := do
  modify fun s => { s with stores := s.stores ++ [⟨off, line, s.scan⟩] }
  if off < cfg.pageSize then modify fun s => { s with page := Function.update s.page off c }
  else throw .outOfBounds

/-- `end++`. -/
def advance : ScriptM Unit := modify fun s => { s with scan := s.scan + 1 }

/-- `fbuf[end]`. -/
def peek (cfg : Config) : ScriptM UInt8 := do fetch cfg (← get).scan

/-- `while (fbuf[end] != 0 && fbuf[end] != '\n') pbuf[i++] = fbuf[end++]`. Each turn moves on in the
    page, so that its size bounds their number. -/
def copyLine (cfg : Config) : (turns : ℕ) → (i : ℕ) → ScriptM ℕ
  | 0, _ => throw .outOfBounds
  | turns + 1, i => do
    let c ← peek cfg
    if c = 0 ∨ c = newline then return i
    advance
    put cfg true (pbuf cfg + i) c
    copyLine cfg turns (i + 1)

/-- `while (fbuf[end] != 0 && fbuf[end] == '\n') end++`. -/
def skipNewlines (cfg : Config) : (turns : ℕ) → ScriptM Unit
  | 0 => throw .outOfBounds
  | turns + 1 => do
    if (← peek cfg) ≠ newline then return ()
    advance
    skipNewlines cfg turns

/-- The line at `pbuf` is parsed and its commands are run, none of which touches the page. -/
def runLine (cfg : Config) : ScriptM Unit := do
  match cString (← get).page lineBufSize (pbuf cfg) with
  | none => throw .outOfBounds
  | some line => modify fun s => { s with parsed := s.parsed ++ [line] }

/-- The outer loop. -/
def scanLoop (cfg : Config) : (turns : ℕ) → ScriptM Unit
  | 0 => throw .outOfBounds
  | turns + 1 => do
    if (← peek cfg) = 0 then return ()
    put cfg true (pbuf cfg) 0
    let i ← copyLine cfg (cfg.pageSize + 1) 0
    skipNewlines cfg (cfg.pageSize + 1)
    put cfg true (pbuf cfg + i) 0
    if (← fetch cfg (pbuf cfg)) = 0 then return ()
    runLine cfg
    scanLoop cfg turns

/-- What the kernel has for the path of a script. -/
inductive ScriptFile
  /-- `open` fails. -/
  | missing
  /-- `read` fails. -/
  | unreadable
  | data (bytes : List UInt8)

/-- `read` stores the bytes at the start of the page. -/
def readInto (cfg : Config) : (bytes : List UInt8) → (off : ℕ) → ScriptM Unit
  | [], _ => return ()
  | c :: bytes, off => do
    put cfg false off c
    readInto cfg bytes (off + 1)

/-- `run_shell_script`. -/
def runShellScript (cfg : Config) (file : ScriptFile) : ScriptM ℤ := do
  match file with
  | .missing =>
    modify fun s => { s with printed := s.printed ++ ["ERROR: open=-1\n"] }
    return -1
  | .unreadable =>
    modify fun s => { s with printed := s.printed ++ ["ERROR: read=-1\n"] }
    return -1
  | .data bytes =>
    let bytes := bifsReadLoop (charAt bytes) (cfg.pageSize - lineBufSize) 0
    readInto cfg bytes 0
    put cfg false bytes.length 0
    scanLoop cfg (cfg.pageSize + 1)
    return 0

/-- A script that starts, with a page that may hold anything. -/
def Script.initial (page : ℕ → UInt8) : Script := ⟨page, 0, [], [], []⟩

/-! ## What the loops do -/

section

variable {s s' : Script} {text u r w rest l : List UInt8} {i n : ℕ} {c : UInt8}

/-- A byte in the page, and the record of the store. -/
def Script.store (s : Script) (line : Bool) (off : ℕ) (c : UInt8) : Script :=
  { s with stores := s.stores ++ [⟨off, line, s.scan⟩], page := Function.update s.page off c }

/-- The scan goes on at `n`. -/
def Script.moved (s : Script) (n : ℕ) : Script := { s with scan := n }

theorem put_ok {line : Bool} {off : ℕ} (h : off < cfg.pageSize) :
    put cfg line off c s = .ok () (s.store line off c) := by
  rw [put, modify_bind_apply, if_pos h]
  rfl

theorem put_error {off : ℕ} (s : Script) (line : Bool) (c : UInt8) (h : cfg.pageSize ≤ off) :
    ∃ s', put cfg line off c s = .error .outOfBounds s' := by
  rw [put, modify_bind_apply, if_neg (by omega)]
  exact ⟨_, rfl⟩

/-- A text is in the page with its terminator, in front of the line buffer, and what was stored
    through `pbuf` is behind it. -/
structure Scanning (cfg : Config) (text : List UInt8) (s : Script) : Prop where
  stored : Stored s.page 0 (text ++ [0])
  short : text.length < pbuf cfg
  inside : ∀ x ∈ s.stores, x.offset < cfg.pageSize ∧ (x.line = true → text.length < x.offset)

theorem Scanning.peek_eq (h : Scanning cfg text s) (htext : text = u ++ r) (hu : s.scan = u.length) :
    peek cfg s = .ok (r.headD 0) s := by
  have hlen : text.length = u.length + r.length := by rw [htext, List.length_append]
  have hshort := h.short
  have hlt : s.scan < cfg.pageSize := by
    unfold pbuf at hshort
    omega
  have hchar : s.page s.scan = r.headD 0 := by
    have :=
      (show Stored s.page 0 (u ++ (r ++ [0])) by rw [← List.append_assoc, ← htext]; exact h.stored).right
    rw [Nat.zero_add, ← hu] at this
    cases r with
    | nil => exact this.head
    | cons c r => exact this.head
  rw [peek, get_bind_apply, fetch, if_pos hlt, get_bind_apply, hchar]
  rfl

theorem Scanning.store {off : ℕ} (h : Scanning cfg text s) (hlow : pbuf cfg ≤ off)
    (hhigh : off < cfg.pageSize) :
    Scanning cfg text (s.store true off c) where
  stored := h.stored.update (by have := h.short; simp; omega)
  short := h.short
  inside x hx := by
    have hshort := h.short
    rcases List.mem_append.1 hx with hx | hx
    · exact h.inside x hx
    · rw [List.mem_singleton.1 hx]
      exact ⟨hhigh, fun _ => by simp only; omega⟩

theorem Scanning.moved (h : Scanning cfg text s) (n : ℕ) : Scanning cfg text (s.moved n) :=
  ⟨h.stored, h.short, h.inside⟩

theorem advance_apply : advance s = .ok () (s.moved (s.scan + 1)) := rfl

/-- The line buffer is at the end of the page. -/
theorem Scanning.pbuf_add (h : Scanning cfg text s) : pbuf cfg + lineBufSize = cfg.pageSize := by
  have hshort := h.short
  unfold pbuf at hshort ⊢
  omega

/-- The characters `w`, up to the end of the line, go to the line buffer behind `l`. -/
theorem copyLine_ok (h : Scanning cfg text s) (htext : text = u ++ (w ++ rest)) (hu : s.scan = u.length)
    (hw : ∀ c ∈ w, c ≠ 0 ∧ c ≠ newline) (hrest : rest.headD 0 = 0 ∨ rest.headD 0 = newline)
    (hroom : l.length + w.length ≤ lineBufSize) (hl : Stored s.page (pbuf cfg) l) (hturns : w.length < n) :
    ∃ s', copyLine cfg n l.length s = .ok (l.length + w.length) s' ∧ Scanning cfg text s' ∧
      s'.scan = u.length + w.length ∧ Stored s'.page (pbuf cfg) (l ++ w) ∧ s'.parsed = s.parsed := by
  obtain ⟨n, rfl⟩ := Nat.exists_eq_add_one_of_ne_zero (Nat.ne_zero_of_lt hturns)
  induction w generalizing s u l n with
  | nil =>
    rw [copyLine, bind_ok (h.peek_eq htext hu), List.nil_append, if_pos hrest]
    exact ⟨s, rfl, h, hu, by rwa [List.append_nil], rfl⟩
  | cons c w ih =>
    have hpage := h.pbuf_add
    obtain ⟨hc, hw⟩ := List.forall_mem_cons.1 hw
    rw [List.length_cons] at hroom hturns
    rw [copyLine, bind_ok (h.peek_eq htext hu), if_neg (by simpa using hc), bind_ok advance_apply,
      bind_ok (put_ok (by omega))]
    -- The character is the next one of the line buffer.
    have h' := (h.moved (s.scan + 1)).store (c := c) (Nat.le_add_right (pbuf cfg) l.length) (by omega)
    obtain ⟨n, rfl⟩ := Nat.exists_eq_add_one_of_ne_zero (Nat.ne_zero_of_lt (Nat.lt_of_succ_lt_succ hturns))
    obtain ⟨s', hrun, hs', hscan, hline, hparsed⟩ := ih (u := u ++ [c]) (l := l ++ [c]) h'
      (by rw [htext]; simp) (by simp [Script.store, Script.moved, hu]) hw (by simp; omega) (hl.snoc rfl) _
      (Nat.lt_of_succ_lt_succ hturns)
    rw [List.length_append, List.length_singleton] at hrun hscan
    refine ⟨s', ?_, hs', ?_, ?_, hparsed⟩
    · rw [List.length_cons, show l.length + (w.length + 1) = l.length + 1 + w.length by omega]
      exact hrun
    · rw [hscan, List.length_cons]
      omega
    · rwa [List.append_cons]

/-- A line that does not fit is not copied. -/
theorem copyLine_error (h : Scanning cfg text s) (htext : text = u ++ (w ++ rest)) (hu : s.scan = u.length)
    (hw : ∀ c ∈ w, c ≠ 0 ∧ c ≠ newline) (hi : i ≤ lineBufSize) (hroom : lineBufSize < i + w.length)
    : ∃ e s', copyLine cfg n i s = .error e s' := by
  induction w generalizing s u i n with
  | nil => simp at hroom; omega
  | cons c w ih =>
    have hpage := h.pbuf_add
    obtain ⟨hc, hw⟩ := List.forall_mem_cons.1 hw
    cases n with
    | zero => exact ⟨_, _, rfl⟩
    | succ n =>
      rw [copyLine, bind_ok (h.peek_eq htext hu), if_neg (by simpa using hc), bind_ok advance_apply]
      by_cases hlast : i = lineBufSize
      · obtain ⟨s', hput⟩ := put_error (s.moved (s.scan + 1)) true c
          (show cfg.pageSize ≤ pbuf cfg + i by omega)
        exact ⟨_, s', bind_error hput⟩
      · rw [bind_ok (put_ok (by omega))]
        exact ih (u := u ++ [c]) ((h.moved _).store (Nat.le_add_right (pbuf cfg) i) (by omega))
          (by rw [htext]; simp)
          (by simp [Script.store, Script.moved, hu]) hw (by omega) (by simp at hroom; omega)

theorem skipNewlines_ok {v : List UInt8} (h : Scanning cfg text s) (htext : text = u ++ (v ++ r))
    (hu : s.scan = u.length) (hv : ∀ c ∈ v, c = newline) (hr : r.headD 0 ≠ newline)
    (hturns : v.length < n) :
    skipNewlines cfg n s = .ok () (s.moved (u.length + v.length)) := by
  obtain ⟨n, rfl⟩ := Nat.exists_eq_add_one_of_ne_zero (Nat.ne_zero_of_lt hturns)
  induction v generalizing s u n with
  | nil =>
    rw [skipNewlines, bind_ok (h.peek_eq htext hu), List.nil_append, if_pos hr,
      List.length_nil, Nat.add_zero, ← hu]
    rfl
  | cons c v ih =>
    obtain ⟨hc, hv⟩ := List.forall_mem_cons.1 hv
    rw [List.length_cons] at hturns
    obtain ⟨n, rfl⟩ := Nat.exists_eq_add_one_of_ne_zero (Nat.ne_zero_of_lt (Nat.lt_of_succ_lt_succ hturns))
    rw [skipNewlines, bind_ok (h.peek_eq htext hu), if_neg (by simpa using hc), bind_ok advance_apply,
      ih (u := u ++ [c]) (h.moved _) (by rw [htext]; simp) (by simp [Script.moved, hu]) hv _
      (Nat.lt_of_succ_lt_succ hturns)]
    simp [Script.moved, Nat.add_comm, Nat.add_left_comm]

/-- A text that does not start with an end of line: its first line, the ends of line that follow,
    and what is behind them. -/
structure FirstLine (r w v rest : List UInt8) : Prop where
  split : r = w ++ (v ++ rest)
  line : ∀ c ∈ w, c ≠ 0 ∧ c ≠ newline
  ends : ∀ c ∈ v, c = newline
  next : rest.headD 0 ≠ newline
  stop : (v ++ rest).headD 0 = 0 ∨ (v ++ rest).headD 0 = newline
  words : words newline r = w :: words newline rest

theorem exists_firstLine (hr : r ≠ []) (hzero : 0 ∉ r) (hhead : r.headD 0 ≠ newline) :
    ∃ w v rest, w ≠ [] ∧ FirstLine r w v rest := by
  obtain ⟨w, hwdef⟩ : ∃ w, w = r.takeWhile (· ≠ newline) := ⟨_, rfl⟩
  obtain ⟨t, ht⟩ : ∃ t, t = r.dropWhile (· ≠ newline) := ⟨_, rfl⟩
  have hr' : w ++ t = r := by rw [hwdef, ht, List.takeWhile_append_dropWhile]
  have hline : ∀ c ∈ w, c ≠ 0 ∧ c ≠ newline := by
    intro c hc
    have hmem := hc
    rw [hwdef] at hmem
    have hne : c ≠ newline := by simpa using List.mem_takeWhile_imp hmem
    refine ⟨?_, hne⟩
    rintro rfl
    exact hzero (hr' ▸ List.mem_append_left t hc)
  have hw : w ≠ [] := by
    cases r with
    | nil => exact absurd rfl hr
    | cons c r =>
      rw [hwdef, List.takeWhile_cons_of_pos (by simpa using hhead)]
      exact List.cons_ne_nil _ _
  have hnext : (t.dropWhile (· = newline)).headD 0 ≠ newline := by
    have hnot := List.head?_dropWhile_not (· = newline) t
    cases hd : t.dropWhile (· = newline) with
    | nil => decide
    | cons c rest => simpa [hd] using hnot
  have hsplit : w ++ (t.takeWhile (· = newline) ++ t.dropWhile (· = newline)) = r := by
    rw [List.takeWhile_append_dropWhile, hr']
  refine ⟨w, t.takeWhile (· = newline), t.dropWhile (· = newline), hw, hsplit.symm, hline,
    fun c hc => by simpa using List.mem_takeWhile_imp hc, hnext, ?_, ?_⟩
  · rw [List.takeWhile_append_dropWhile]
    cases t with
    | nil => exact .inl rfl
    | cons c t => exact .inr (splitOn_of_dropWhile ht.symm).1
  · have hnot : newline ∉ w := fun hc => (hline _ hc).2 rfl
    rw [words_dropWhile]
    cases t with
    | nil => rw [words_nil, ← hr', List.append_nil, words_of_notMem hnot, if_neg hw]
    | cons c t =>
      rw [(splitOn_of_dropWhile ht.symm).1] at hr' ⊢
      rw [words_cons_self, ← words_append_cons hw hnot, hr']

theorem runLine_ok (h : cString s.page lineBufSize (pbuf cfg) = some l) :
    runLine cfg s = .ok () { s with parsed := s.parsed ++ [l] } := by
  rw [runLine, get_bind_apply, h]
  rfl

/-- A turn of the loop, at a line that fits. -/
theorem scanLoop_turn {v : List UInt8} (h : Scanning cfg text s) (htext : text = u ++ r)
    (hu : s.scan = u.length)
    (hw : w ≠ []) (hfirst : FirstLine r w v rest) (hroom : w.length < lineBufSize) :
    ∃ s', scanLoop cfg (n + 1) s = scanLoop cfg n s' ∧ Scanning cfg text s' ∧
      s'.scan = u.length + (w.length + v.length) ∧ s'.parsed = s.parsed ++ [w] := by
  have hpage := h.pbuf_add
  have hsplit := hfirst.split
  obtain ⟨c, w', rfl⟩ := List.exists_cons_of_ne_nil hw
  have hc := (hfirst.line c List.mem_cons_self).1
  have hlen : text.length = u.length + ((c :: w').length + (v.length + rest.length)) := by
    rw [htext, hsplit, List.length_append, List.length_append, List.length_append]
  have hshort := h.short
  have h₁ := h.store (c := 0) (Nat.le_refl (pbuf cfg)) (by omega)
  obtain ⟨s₂, hcopy, h₂, hscan₂, hline₂, hparsed₂⟩ :=
    copyLine_ok (l := []) (n := cfg.pageSize + 1) h₁
    (by rw [htext, hsplit]) hu hfirst.line hfirst.stop (by simp at hroom ⊢; omega)
      (fun _ hi => absurd hi (by simp))
    (by omega)
  rw [List.length_nil, Nat.zero_add, List.nil_append] at *
  have hskip := skipNewlines_ok (n := cfg.pageSize + 1) (u := u ++ (c :: w')) h₂ (by rw [htext, hsplit]; simp)
    (by rw [hscan₂, List.length_append]) hfirst.ends hfirst.next (by omega)
  -- The line buffer holds the line and its terminator.
  obtain ⟨s₃, hs₃⟩ : ∃ s₃, s₃ = (s₂.moved ((u ++ c :: w').length + v.length)).store true
    (pbuf cfg + (c :: w').length) 0 := ⟨_, rfl⟩
  have h₃ : Scanning cfg text s₃ := hs₃ ▸ (h₂.moved _).store (by omega) (by omega)
  have hstored : Stored s₃.page (pbuf cfg) ((c :: w') ++ [0]) := hs₃ ▸ hline₂.snoc rfl
  have hline : cString s₃.page lineBufSize (pbuf cfg) = some (c :: w') := by
    rw [hstored.cString hroom, List.takeWhile_eq_self_iff.2 fun d hd => by simpa using (hfirst.line d hd).1]
  have hfetch : fetch cfg (pbuf cfg) s₃ = .ok c s₃ := by
    rw [fetch, if_pos (by omega), get_bind_apply, hstored.head]
    rfl
  have hpeek : peek cfg s = .ok c s := h.peek_eq (r := r) htext hu |>.trans (by rw [hsplit]; rfl)
  refine ⟨{ s₃ with parsed := s₃.parsed ++ [c :: w'] }, ?_,
    ⟨h₃.stored, h₃.short, h₃.inside⟩, ?_, ?_⟩
  · rw [scanLoop, bind_ok hpeek, if_neg hc, bind_ok (put_ok (by omega)), bind_ok hcopy, bind_ok hskip,
      bind_ok (put_ok (by omega)), ← hs₃, bind_ok hfetch, if_neg hc, bind_ok (runLine_ok hline)]
  · rw [hs₃]
    simp [Script.store, Script.moved, Nat.add_assoc]
  · rw [hs₃]
    simp [Script.store, Script.moved, hparsed₂]

/-- The loop, from the first character of a line: it runs the lines, if each fits. -/
theorem scanLoop_ok (h : Scanning cfg text s) (hzero : 0 ∉ text) (htext : text = u ++ r)
    (hu : s.scan = u.length)
    (hhead : r.headD 0 ≠ newline) (hlines : ∀ line ∈ words newline r, line.length < lineBufSize)
    (hturns : r.length < n) :
    ∃ s', scanLoop cfg n s = .ok () s' ∧ Scanning cfg text s' ∧ s'.scan = text.length ∧
      s'.parsed = s.parsed ++ words newline r := by
  induction n generalizing s u r with
  | zero => exact absurd hturns (Nat.not_lt_zero _)
  | succ n ih =>
    by_cases hr : r = []
    · subst hr
      rw [scanLoop, bind_ok (h.peek_eq htext hu), List.headD_nil, if_pos rfl]
      exact ⟨s, rfl, h, by rw [hu, htext, List.append_nil], by rw [words_nil, List.append_nil]⟩
    · obtain ⟨w, v, rest, hw, hfirst⟩ := exists_firstLine hr
        (fun h0 => hzero (htext ▸ List.mem_append_right u h0)) hhead
      rw [hfirst.words] at hlines ⊢
      have hsplit := hfirst.split
      have hpos := List.length_pos_iff.2 hw
      obtain ⟨s₁, hturn, h₁, hscan₁, hparsed₁⟩ := scanLoop_turn (n := n) h htext hu hw hfirst
        (hlines w List.mem_cons_self)
      obtain ⟨s', hrun, hs', hscan, hparsed⟩ := ih (u := u ++ (w ++ v)) h₁ (by rw [htext, hsplit]; simp)
        (by rw [hscan₁]; simp) hfirst.next (fun line hl => hlines line (List.mem_cons_of_mem _ hl))
        (by rw [hsplit] at hturns; simp at hturns; omega)
      exact ⟨s', hturn.trans hrun, hs', hscan, by rw [hparsed, hparsed₁]; simp⟩

/-- A line that does not fit stops the loop. -/
theorem scanLoop_line_error {v : List UInt8} (h : Scanning cfg text s) (htext : text = u ++ r)
    (hu : s.scan = u.length) (hw : w ≠ []) (hfirst : FirstLine r w v rest)
    (hlong : lineBufSize ≤ w.length) :
    ∃ e s', scanLoop cfg (n + 1) s = .error e s' := by
  have hpage := h.pbuf_add
  have hshort := h.short
  have hpos : 0 < lineBufSize := by decide
  have hsplit := hfirst.split
  obtain ⟨c, w', rfl⟩ := List.exists_cons_of_ne_nil hw
  have hpeek : peek cfg s = .ok c s := h.peek_eq (r := r) htext hu |>.trans (by rw [hsplit]; rfl)
  have hlen : text.length = u.length + ((c :: w').length + (v.length + rest.length)) := by
    rw [htext, hsplit, List.length_append, List.length_append, List.length_append]
  have h₁ := h.store (c := 0) (Nat.le_refl (pbuf cfg)) (by omega)
  have htext' : text = u ++ ((c :: w') ++ (v ++ rest)) := by rw [htext, hsplit]
  rw [scanLoop, bind_ok hpeek, if_neg (hfirst.line c List.mem_cons_self).1, bind_ok (put_ok (by omega))]
  -- The line is too long for `pbuf`, or leaves no room for its terminator.
  rcases Nat.lt_or_eq_of_le hlong with hlong | hlong
  · obtain ⟨e, s', herr⟩ :=
      copyLine_error (n := cfg.pageSize + 1) h₁ htext' hu hfirst.line (Nat.zero_le _)
      (by omega)
    exact ⟨e, s', bind_error herr⟩
  · -- The characters fit, but not the terminator.
    obtain ⟨s₂, hcopy, h₂, hscan₂, -, -⟩ :=
      copyLine_ok (l := []) (n := cfg.pageSize + 1) h₁ htext' hu
      hfirst.line hfirst.stop (by rw [List.length_nil]; omega) (fun _ hi => absurd hi (by simp)) (by omega)
    rw [List.length_nil] at hcopy
    have hskip := skipNewlines_ok (n := cfg.pageSize + 1) (u := u ++ (c :: w')) h₂ (by rw [htext']; simp)
      (by rw [hscan₂, List.length_append]) hfirst.ends hfirst.next (by omega)
    obtain ⟨s', hput⟩ := put_error (s₂.moved ((u ++ c :: w').length + v.length)) true 0
      (show cfg.pageSize ≤ pbuf cfg + (0 + (c :: w').length) by omega)
    exact ⟨_, s', by rw [bind_ok hcopy, bind_ok hskip]; exact bind_error hput⟩

theorem scanLoop_error (h : Scanning cfg text s) (hzero : 0 ∉ text) (htext : text = u ++ r)
    (hu : s.scan = u.length)
    (hhead : r.headD 0 ≠ newline) (hlong : ∃ line ∈ words newline r, lineBufSize ≤ line.length) :
    ∃ e s', scanLoop cfg n s = .error e s' := by
  induction n generalizing s u r with
  | zero => exact ⟨_, _, rfl⟩
  | succ n ih =>
    have hr : r ≠ [] := by
      rintro rfl
      obtain ⟨_, hmem, -⟩ := hlong
      exact absurd hmem List.not_mem_nil
    obtain ⟨w, v, rest, hw, hfirst⟩ := exists_firstLine hr
      (fun h0 => hzero (htext ▸ List.mem_append_right u h0)) hhead
    by_cases hroom : w.length < lineBufSize
    · have hsplit := hfirst.split
      obtain ⟨s₁, hturn, h₁, hscan₁, -⟩ := scanLoop_turn (n := n) h htext hu hw hfirst hroom
      rw [hturn]
      refine ih (u := u ++ (w ++ v)) h₁ (by rw [htext, hsplit]; simp) (by rw [hscan₁]; simp) hfirst.next ?_
      obtain ⟨line, hmem, hline⟩ := hlong
      rw [hfirst.words] at hmem
      rcases List.mem_cons.1 hmem with rfl | hmem
      · omega
      · exact ⟨line, hmem, hline⟩
    · exact scanLoop_line_error h htext hu hw hfirst (by omega)

/-- At an empty line the loop ends, past the empty lines. -/
theorem scanLoop_blank {v : List UInt8} (h : Scanning cfg text s) (htext : text = newline :: v ++ rest)
    (hs : s.scan = 0) (hv : ∀ c ∈ v, c = newline) (hrest : rest.headD 0 ≠ newline) :
    ∃ s', scanLoop cfg (n + 1) s = .ok () s' ∧ Scanning cfg text s' ∧ s'.scan = v.length + 1 ∧
      s'.parsed = s.parsed := by
  have hpage := h.pbuf_add
  have hpos : 0 < lineBufSize := by decide
  have hshort := h.short
  have hlen : text.length = (newline :: v).length + rest.length := by rw [htext, List.length_append]
  have hpeek : peek cfg s = .ok newline s :=
    h.peek_eq (u := []) (r := text) rfl hs |>.trans (by rw [htext]; rfl)
  have h₁ := h.store (c := 0) (Nat.le_refl (pbuf cfg)) (by omega)
  have hcopy : copyLine cfg (cfg.pageSize + 1) 0 (s.store true (pbuf cfg) 0) =
      .ok 0 (s.store true (pbuf cfg) 0) := by
    rw [copyLine, bind_ok (h₁.peek_eq (u := []) (r := text) rfl hs), htext, if_pos (.inr rfl)]
    rfl
  have hskip := skipNewlines_ok (n := cfg.pageSize + 1) (u := []) (v := newline :: v) h₁ htext hs
    (List.forall_mem_cons.2 ⟨rfl, hv⟩) hrest (by omega)
  rw [List.length_nil, Nat.zero_add] at hskip
  obtain ⟨s₃, hs₃⟩ : ∃ s₃,
    s₃ = ((s.store true (pbuf cfg) 0).moved (newline :: v).length).store true
    (pbuf cfg + 0) 0 := ⟨_, rfl⟩
  have h₃ : Scanning cfg text s₃ := hs₃ ▸ (h₁.moved _).store (by omega) (by omega)
  have hfetch : fetch cfg (pbuf cfg) s₃ = .ok 0 s₃ := by
    rw [fetch, if_pos (by omega), get_bind_apply, hs₃]
    simp [Script.store]
  refine ⟨s₃, ?_, h₃, ?_, ?_⟩
  · rw [scanLoop, bind_ok hpeek, if_neg (by decide), bind_ok (put_ok (by omega)), bind_ok hcopy, bind_ok hskip,
      bind_ok (put_ok (by omega)), ← hs₃, bind_ok hfetch, if_pos rfl]
    rfl
  · rw [hs₃]
    rfl
  · rw [hs₃]
    rfl

/-- The bytes of the file go to the page behind `l`. -/
theorem readInto_ok {bytes : List UInt8} (hroom : l.length + bytes.length ≤ cfg.pageSize)
    (hl : Stored s.page 0 l)
    (hs : ∀ x ∈ s.stores, x.line = false ∧ x.offset < cfg.pageSize) :
    ∃ s', readInto cfg bytes l.length s = .ok () s' ∧ Stored s'.page 0 (l ++ bytes) ∧
      (∀ x ∈ s'.stores, x.line = false ∧ x.offset < cfg.pageSize) ∧ s'.scan = s.scan ∧
      s'.parsed = s.parsed := by
  induction bytes generalizing s l with
  | nil => exact ⟨s, rfl, by rwa [List.append_nil], hs, rfl, rfl⟩
  | cons c bytes ih =>
    rw [List.length_cons] at hroom
    rw [readInto, bind_ok (put_ok (by omega))]
    obtain ⟨s', hrun, hstored, hstores, hscan, hparsed⟩ :=
      ih (s := s.store false l.length c) (l := l ++ [c])
      (by simp; omega) (hl.snoc (Nat.zero_add _)) fun x hx => by
        rcases List.mem_append.1 hx with hx | hx
        · exact hs x hx
        · rw [List.mem_singleton.1 hx]
          exact ⟨rfl, by simp only; omega⟩
    rw [List.length_append, List.length_singleton] at hrun
    exact ⟨s', hrun, by rwa [List.append_cons], hstores, hscan, hparsed⟩

/-! ## Whole scripts -/

/-- The text of a file ends at its first zero byte. -/
def fileText (bytes : List UInt8) : List UInt8 := bytes.takeWhile (· ≠ 0)

theorem zero_notMem_fileText (bytes : List UInt8) : 0 ∉ fileText bytes := fun h => by
  simpa using List.mem_takeWhile_imp h

/-- The script is read, as far as it fits, and then scanned. -/
theorem runShellScript_data (bytes : List UInt8) (page : ℕ → UInt8) (hpage : lineBufSize < cfg.pageSize) :
    ∃ s, runShellScript cfg (.data bytes) (.initial page) =
      (do scanLoop cfg (cfg.pageSize + 1); return 0) s ∧
      Stored s.page 0 ((fileText bytes).take (pbuf cfg) ++ [0]) ∧
      (∀ x ∈ s.stores, x.line = false ∧ x.offset < cfg.pageSize) ∧ s.scan = 0 ∧ s.parsed = [] := by
  have hread : bifsReadLoop (charAt bytes) (cfg.pageSize - lineBufSize) 0 =
      (fileText bytes).take (pbuf cfg) := by
    rw [bifsReadLoop_eq (Nat.zero_le _), List.drop_zero]
    rfl
  have hlen : ((fileText bytes).take (pbuf cfg)).length < cfg.pageSize := by
    rw [List.length_take, pbuf]
    have hpos : 0 < lineBufSize := by decide
    omega
  have hroom : ([] : List UInt8).length + ((fileText bytes).take (pbuf cfg)).length ≤ cfg.pageSize := by
    rw [List.length_nil]
    omega
  obtain ⟨s, hrun, hstored, hstores, hscan, hparsed⟩ := readInto_ok (s := .initial page) hroom
    (fun _ h => absurd h (by simp)) (fun _ h => absurd h List.not_mem_nil)
  rw [List.nil_append] at hstored
  rw [List.length_nil] at hrun
  refine ⟨s.store false ((fileText bytes).take (pbuf cfg)).length 0, ?_,
    hstored.snoc (Nat.zero_add _), ?_, hscan,
    hparsed⟩
  · rw [runShellScript, hread, bind_ok hrun, bind_ok (put_ok hlen)]
  · intro x hx
    rcases List.mem_append.1 hx with hx | hx
    · exact hstores x hx
    · rw [List.mem_singleton.1 hx]
      exact ⟨rfl, hlen⟩

/-- A script that is shorter than the space in front of the line buffer, as the scan starts. -/
theorem runShellScript_short (bytes : List UInt8) (page : ℕ → UInt8)
    (hshort : (fileText bytes).length < pbuf cfg) :
    ∃ s, runShellScript cfg (.data bytes) (.initial page) =
      (do scanLoop cfg (cfg.pageSize + 1); return 0) s ∧
      Scanning cfg (fileText bytes) s ∧ s.scan = 0 ∧ s.parsed = [] := by
  have hpage : lineBufSize < cfg.pageSize := by
    unfold pbuf at hshort
    omega
  obtain ⟨s, hrun, hstored, hstores, hscan, hparsed⟩ := runShellScript_data bytes page hpage
  rw [List.take_of_length_le hshort.le] at hstored
  exact ⟨s, hrun,
    ⟨hstored, hshort, fun x hx => ⟨(hstores x hx).2, fun h => by simp [(hstores x hx).1] at h⟩⟩,
    hscan, hparsed⟩

theorem mem_words {line : List UInt8} :
    line ∈ words newline text ↔ line ∈ text.splitOn newline ∧ line ≠ [] := by
  rw [words, List.mem_filter, decide_eq_true_eq]

/-- Every line leaves room in the line buffer for its terminator. -/
def LinesFit (text : List UInt8) : Prop := ∀ line ∈ text.splitOn newline, line.length < lineBufSize

theorem LinesFit.words_lt (h : LinesFit text) : ∀ line ∈ words newline text, line.length < lineBufSize :=
  fun _ hl => h _ (mem_words.1 hl).1

/-- A text starts with a line, or has empty lines only. -/
def StartsWell (text : List UInt8) : Prop := text.headD 0 ≠ newline ∨ ∀ c ∈ text, c = newline

/-- A text that does not start with a line: the empty lines, and what follows. -/
theorem exists_blank (h : text.headD 0 = newline) :
    ∃ v rest, text = newline :: v ++ rest ∧ (∀ c ∈ v, c = newline) ∧ rest.headD 0 ≠ newline := by
  cases text with
  | nil => cases h
  | cons c t =>
    obtain rfl : c = newline := h
    refine ⟨t.takeWhile (· = newline), t.dropWhile (· = newline), ?_, fun c hc => ?_, ?_⟩
    · rw [List.cons_append, List.takeWhile_append_dropWhile]
    · simpa using List.mem_takeWhile_imp hc
    · have hnot := List.head?_dropWhile_not (· = newline) t
      cases hd : t.dropWhile (· = newline) with
      | nil => decide
      | cons c rest => simpa [hd] using hnot

/-- Empty lines in front do not matter to the words. -/
theorem words_blank {v : List UInt8} (hv : ∀ c ∈ v, c = newline) :
    words newline (v ++ rest) = words newline rest := by
  induction v with
  | nil => rfl
  | cons c v ih =>
    obtain ⟨rfl, hv'⟩ := List.forall_mem_cons.1 hv
    rw [List.cons_append, words_cons_self, ih hv']

/-- A short script that starts with an empty line: nothing is passed to `parse`. -/
theorem runShellScript_blank (bytes : List UInt8) (page : ℕ → UInt8)
    (hshort : (fileText bytes).length < pbuf cfg)
    (hhead : (fileText bytes).headD 0 = newline) :
    ∃ s', runShellScript cfg (.data bytes) (.initial page) = .ok 0 s' ∧ Scanning cfg (fileText bytes) s' ∧
      (s'.scan = (fileText bytes).length ↔ StartsWell (fileText bytes)) ∧ s'.parsed = [] ∧
      (words newline (fileText bytes) = [] ↔ StartsWell (fileText bytes)) := by
  obtain ⟨s, hrun, hs, hscan, hparsed⟩ := runShellScript_short bytes page hshort
  have hzero := zero_notMem_fileText bytes
  obtain ⟨text, htext⟩ : ∃ text, text = fileText bytes := ⟨_, rfl⟩
  rw [← htext] at hs hhead hzero ⊢
  obtain ⟨v, rest, hsplit, hv, hrest⟩ := exists_blank hhead
  obtain ⟨s', hloop, hs', hscan', hparsed'⟩ := scanLoop_blank (n := cfg.pageSize) hs hsplit hscan hv hrest
  have hall : ∀ c ∈ newline :: v, c = newline := List.forall_mem_cons.2 ⟨rfl, hv⟩
  -- The loop stops after the newlines, so nothing may follow them.
  have hwell : StartsWell text ↔ rest = [] := by
    constructor
    · rintro (h | hsame)
      · exact absurd hhead h
      · cases rest with
        | nil => rfl
        | cons c rest => exact absurd (hsame c (by simp [hsplit])) hrest
    · rintro rfl
      rw [List.append_nil] at hsplit
      exact .inr (hsplit ▸ hall)
  have hlen : text.length = v.length + 1 + rest.length := by
    rw [hsplit, List.length_append, List.length_cons]
  refine ⟨s', by rw [hrun, bind_ok hloop]; rfl, hs', ?_, hparsed'.trans hparsed, ?_⟩
  · rw [hwell, hscan', ← List.length_eq_zero_iff]
    omega
  · rw [hwell, hsplit, words_blank hall]
    constructor
    · intro hnone
      by_contra hne
      obtain ⟨w, v', rest', -, hfirst⟩ := exists_firstLine hne
        (fun h0 => hzero (hsplit ▸ List.mem_append_right _ h0)) hrest
      rw [hfirst.words] at hnone
      cases hnone
    · rintro rfl
      rfl

/-- What a short script whose lines fit does. -/
theorem runShellScript_fits (bytes : List UInt8) (page : ℕ → UInt8)
    (hshort : (fileText bytes).length < pbuf cfg)
    (hfit : LinesFit (fileText bytes)) :
    ∃ s', runShellScript cfg (.data bytes) (.initial page) = .ok 0 s' ∧ Scanning cfg (fileText bytes) s' ∧
      (s'.scan = (fileText bytes).length ↔ StartsWell (fileText bytes)) ∧
      (s'.parsed = words newline (fileText bytes) ↔ StartsWell (fileText bytes)) := by
  by_cases hhead : (fileText bytes).headD 0 = newline
  · obtain ⟨s', hrun, hs', hscan, hparsed, hwords⟩ := runShellScript_blank bytes page hshort hhead
    exact ⟨s', hrun, hs', hscan, by rw [hparsed, eq_comm, hwords]⟩
  · obtain ⟨s, hrun, hs, hscan, hparsed⟩ := runShellScript_short bytes page hshort
    have hturns : (fileText bytes).length < cfg.pageSize + 1 := by
      have := hs.pbuf_add
      omega
    obtain ⟨s', hloop, hs', hscan', hparsed'⟩ :=
      scanLoop_ok (u := []) hs (zero_notMem_fileText bytes) rfl hscan hhead
      hfit.words_lt hturns
    have hwell : StartsWell (fileText bytes) := .inl hhead
    refine ⟨s', by rw [hrun, bind_ok hloop]; rfl, hs', iff_of_true hscan' hwell, iff_of_true ?_ hwell⟩
    rw [hparsed', hparsed, List.nil_append]
    rfl

/-- The lines that a script passes to `parse` are those of the file that are not empty, in order, if
    and only if the file starts with a line or has empty lines only. -/
theorem script_lines_iff (bytes : List UInt8) (page : ℕ → UInt8)
    (hshort : (fileText bytes).length < pbuf cfg)
    (hfit : LinesFit (fileText bytes)) :
    (∃ s', runShellScript cfg (.data bytes) (.initial page) = .ok 0 s' ∧
      s'.parsed = words newline (fileText bytes)) ↔ StartsWell (fileText bytes) := by
  obtain ⟨s', hrun, -, -, hparsed⟩ := runShellScript_fits bytes page hshort hfit
  constructor
  · rintro ⟨t, ht, hlines⟩
    rw [hrun] at ht
    cases ht
    exact hparsed.1 hlines
  · exact fun h => ⟨s', hrun, hparsed.2 h⟩

/-- Two lines with an empty one between them. -/
def exampleScript : List UInt8 := [108, 115, newline, newline, 112, 115, newline]

theorem exampleScript_lines :
    ∃ s', runShellScript .qemuE (.data exampleScript) (.initial fun _ => 0) = .ok 0 s' ∧
      s'.parsed = [[108, 115], [112, 115]] := by
  have hshort : (fileText exampleScript).length < pbuf .qemuE := by decide
  obtain ⟨s', hrun, hparsed⟩ := (script_lines_iff exampleScript (fun _ => 0) hshort
    (by unfold LinesFit; decide +kernel)).2 (.inl (by decide))
  exact ⟨s', hrun, hparsed.trans (by decide +kernel)⟩

/-- An empty line, and a line. -/
def blankScript : List UInt8 := [newline, 108, 115, newline]

/-- Nothing is passed to `parse`. -/
theorem blankScript_skipped :
    ∃ s', runShellScript .qemuE (.data blankScript) (.initial fun _ => 0) = .ok 0 s' ∧ s'.parsed = [] ∧
      words newline (fileText blankScript) = [[108, 115]] := by
  obtain ⟨s', hrun, -, -, hparsed, -⟩ := runShellScript_blank blankScript (fun _ => 0)
    (show _ < pbuf .qemuE by decide) rfl
  exact ⟨s', hrun, hparsed, by decide +kernel⟩

/-! ## Staying in the page -/

/-- The script has run to its end: every byte that was stored is in the page, none that was stored
    through `pbuf` is one still to be scanned then (up to the terminator), and the scan ended at the
    end of the file. -/
def Confined (cfg : Config) (text : List UInt8) : EStateM.Result Fault Script ℤ → Prop
  | .ok _ s => (∀ x ∈ s.stores, x.offset < cfg.pageSize ∧
      (x.line = true → ¬(x.scan ≤ x.offset ∧ x.offset ≤ min text.length (pbuf cfg)))) ∧
        s.scan = text.length
  | .error _ _ => False

/-- What was stored stays on record. -/
def Records (x : ScriptStore) {α : Type} (m : ScriptM α) : Prop :=
  Triple (x ∈ ·.stores) m (fun _ s => x ∈ s.stores) fun _ _ => True

section

variable {x : ScriptStore}

theorem records_throw {α : Type} {e : Fault} : Records x (throw e : ScriptM α) := .throw fun _ _ => trivial

theorem records_pure {α : Type} {a : α} : Records x (pure a : ScriptM α) := .pure fun _ h => h

theorem records_fetch {off : ℕ} : Records x (fetch cfg off) := by
  unfold fetch
  split
  · exact .get_bind fun _ => records_pure
  · exact records_throw

theorem records_put {line : Bool} {off : ℕ} : Records x (put cfg line off c) := by
  unfold put
  refine Triple.bind (.modify (Q := (x ∈ ·.stores)) fun _ h => List.mem_append_left _ h) fun _ => ?_
  split
  · exact .modify fun _ h => h
  · exact records_throw

theorem records_advance : Records x advance := .modify fun _ h => h

theorem records_copyLine : Records x (copyLine cfg n i) := by
  induction n generalizing i with
  | zero => exact records_throw
  | succ n ih =>
    unfold copyLine
    refine Triple.bind (.get_bind fun _ => records_fetch) fun c => ?_
    split
    · exact records_pure
    · exact Triple.bind records_advance fun _ => Triple.bind records_put fun _ => ih

theorem records_skipNewlines : Records x (skipNewlines cfg n) := by
  induction n with
  | zero => exact records_throw
  | succ n ih =>
    unfold skipNewlines
    refine Triple.bind (.get_bind fun _ => records_fetch) fun c => ?_
    split
    · exact records_pure
    · exact Triple.bind records_advance fun _ => ih

theorem records_runLine : Records x (runLine cfg) := by
  unfold runLine
  refine .get_bind fun s => ?_
  split
  · exact records_throw
  · exact .modify fun _ h => h

/-- A turn of the loop, from where the line is copied. -/
theorem records_turn (h : Records x (scanLoop cfg n)) :
    Records x (do
      let i ← copyLine cfg (cfg.pageSize + 1) 0
      skipNewlines cfg (cfg.pageSize + 1)
      put cfg true (pbuf cfg + i) 0
      if (← fetch cfg (pbuf cfg)) = 0 then return ()
      runLine cfg
      scanLoop cfg n) := by
  refine Triple.bind records_copyLine fun _ => Triple.bind records_skipNewlines fun _ =>
    Triple.bind records_put fun _ => Triple.bind records_fetch fun _ => ?_
  split
  · exact records_pure
  · exact Triple.bind records_runLine fun _ => h

theorem records_scanLoop : Records x (scanLoop cfg n) := by
  induction n with
  | zero => exact records_throw
  | succ n ih =>
    unfold scanLoop
    refine Triple.bind (.get_bind fun _ => records_fetch) fun c => ?_
    split
    · exact records_pure
    · exact Triple.bind records_put fun _ => records_turn ih

end

/-- A file that reaches the line buffer: the loop starts by storing a zero where its terminator is. -/
theorem not_confined_of_le (bytes : List UInt8) (page : ℕ → UInt8) (hpage : lineBufSize < cfg.pageSize)
    (hlong : pbuf cfg ≤ (fileText bytes).length) :
    ¬Confined cfg (fileText bytes) (runShellScript cfg (.data bytes) (.initial page)) := by
  obtain ⟨s, hrun, hstored, -, hscan, -⟩ := runShellScript_data bytes page hpage
  have hpos : 0 < lineBufSize := by decide
  have hpbuf : 0 < pbuf cfg ∧ pbuf cfg < cfg.pageSize := by
    unfold pbuf
    omega
  obtain ⟨c, t, ht⟩ : ∃ c t, (fileText bytes).take (pbuf cfg) = c :: t := by
    refine List.exists_cons_of_ne_nil fun hnil => ?_
    have := congrArg List.length hnil
    rw [List.length_take, List.length_nil] at this
    omega
  have hc : c ≠ 0 := by
    rintro rfl
    exact zero_notMem_fileText bytes (List.mem_of_mem_take (ht ▸ List.mem_cons_self))
  have hpeek : peek cfg s = .ok c s := by
    rw [ht] at hstored
    rw [peek, get_bind_apply, hscan, fetch, if_pos (by omega), get_bind_apply, hstored.head]
    rfl
  rw [hrun]
  cases hloop : scanLoop cfg (cfg.pageSize + 1) s with
  | error e s' =>
    rw [bind_error hloop]
    exact id
  | ok _ s' =>
    rw [bind_ok hloop]
    rw [scanLoop, bind_ok hpeek, if_neg hc, bind_ok (put_ok hpbuf.2)] at hloop
    intro hconf
    have hmem : ⟨pbuf cfg, true, 0⟩ ∈ s'.stores :=
      (records_turn records_scanLoop).of_ok (by simp [Script.store, hscan]) hloop
    exact (hconf.1 _ hmem).2 rfl ⟨Nat.zero_le _, by simp only; omega⟩

/-- The stores of a script stay in the page and off what is still to be scanned, and the scan ends
    at the end of the file, if and only if the file is shorter than the space in front of the line
    buffer, its lines fit, and it starts with a line or has empty lines only. -/
theorem script_confined_iff (bytes : List UInt8) (page : ℕ → UInt8) (hpage : lineBufSize < cfg.pageSize) :
    Confined cfg (fileText bytes) (runShellScript cfg (.data bytes) (.initial page)) ↔
      (fileText bytes).length < pbuf cfg ∧ LinesFit (fileText bytes) ∧ StartsWell (fileText bytes) := by
  by_cases hshort : (fileText bytes).length < pbuf cfg
  · by_cases hfit : LinesFit (fileText bytes)
    · -- Short text, fitting lines: all stores stay inside, and the text is read to its
      -- end if it starts well.
      obtain ⟨s', hrun, hs, hscan, -⟩ := runShellScript_fits bytes page hshort hfit
      rw [hrun]
      refine ⟨fun h => ⟨hshort, hfit, hscan.1 h.2⟩, fun h => ⟨fun x hx => ?_, hscan.2 h.2.2⟩⟩
      obtain ⟨hin, hline⟩ := hs.inside x hx
      exact ⟨hin, fun hl => by have := hline hl; omega⟩
    · refine iff_of_false (fun hconf => ?_) fun h => hfit h.2.1
      have hlong : ∃ line ∈ words newline (fileText bytes), lineBufSize ≤ line.length := by
        simp only [LinesFit, not_forall, not_lt] at hfit
        obtain ⟨line, hmem, hline⟩ := hfit
        refine ⟨line, mem_words.2 ⟨hmem, ?_⟩, hline⟩
        rintro rfl
        exact absurd hline (by decide)
      -- A line too long for `pbuf` is read, unless a leading newline ends the run
      -- before it.
      by_cases hhead : (fileText bytes).headD 0 = newline
      · obtain ⟨s', hrun, -, hscan, -, hwords⟩ := runShellScript_blank bytes page hshort hhead
        rw [hrun] at hconf
        obtain ⟨line, hmem, -⟩ := hlong
        rw [hwords.2 (hscan.1 hconf.2)] at hmem
        cases hmem
      · obtain ⟨s, hrun, hs, hscan, -⟩ := runShellScript_short bytes page hshort
        obtain ⟨e, s', herr⟩ :=
          scanLoop_error (u := []) (n := cfg.pageSize + 1) hs (zero_notMem_fileText bytes)
          rfl hscan hhead hlong
        rw [hrun, bind_error herr] at hconf
        exact hconf
  · exact iff_of_false (not_confined_of_le bytes page hpage (by omega)) fun h => hshort h.1

theorem exampleScript_confined :
    Confined .qemuE (fileText exampleScript)
    (runShellScript .qemuE (.data exampleScript) (.initial fun _ => 0)) :=
  (script_confined_iff exampleScript _ (by decide)).2
    ⟨by decide, by unfold LinesFit; decide +kernel, .inl (by decide)⟩

/-- As many bytes as are read at most, in short lines. -/
def fullScript : List UInt8 := (List.replicate 240 [120, newline]).flatten

/-- The line buffer is on the terminator of the text. -/
theorem fullScript_not_confined :
    ¬Confined .qemuE (fileText fullScript) (runShellScript .qemuE (.data fullScript) (.initial fun _ => 0)) :=
  not_confined_of_le fullScript _ (by decide) (by decide +kernel)

end

end HobbyOs.Shell
