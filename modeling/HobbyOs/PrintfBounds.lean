import HobbyOs.PrintfText

/-!
# The limits of formatted output

* `printf_respects_iff`: the output stays below `bufsize` if and only if the buffer has
  room for the area of the numbers, and no pointer starts in the last two places in
  front of it (the `0x` is written without a test). Of an empty buffer, only the test
  after the first piece is left.
* `printf_safe_iff`: the format is read as it should if and only if every `%` that is
  reached with an argument left is followed by a verb or by `%`: there is no test for
  the end of the format, nor a `default` in the `switch`.
-/

namespace HobbyOs.Printf

open Outcome

variable {f : Front} {w n d turns : ℕ} {str : BitVec w → CStr} {args : ℕ → BitVec w}
  {fmt : CStr} {s s' : Output}
  {pre rest : List UInt8} {p : Piece} {ps : List Piece}

/-- The number of conversions. -/
def convs (ps : List Piece) : ℕ := ps.countP fun p => match p with
  | .conv _ => true
  | _ => false

/-! ## Staying below `bufsize` -/

/-- Each pointer that starts below `bufsize` has its first digit below it, after `n` arguments and
    from the index `d` on. -/
def Clear (f : Front) (str : BitVec w → CStr) (args : ℕ → BitVec w) : (n d : ℕ) → List Piece → Prop
  | _, _, [] => True
  | n, d, p :: ps =>
    (p = .conv .p → n < f.nargs → (d : ℤ) < f.bufsize → ((d + 2 : ℕ) : ℤ) < f.bufsize) ∧
      Clear f str args (p.used f.nargs n) (d + (p.text (Verb.shown str) args f.nargs n).length) ps

theorem Clear.of_le (h : f.bufsize ≤ d) (ps : List Piece) : Clear f str args n d ps := by
  induction ps generalizing n d with
  | nil => trivial
  | cons p ps ih => exact ⟨fun _ _ hd => absurd hd (Int.not_lt.2 h), ih (by omega)⟩

theorem Clear.of_nargs_le (h : f.nargs ≤ n) (ps : List Piece) : Clear f str args n d ps := by
  induction ps generalizing n d with
  | nil => trivial
  | cons p ps ih =>
    refine ⟨fun _ hn => absurd hn (Nat.not_lt.2 h), ih ?_⟩
    cases p with
    | conv v => rwa [Piece.used, if_neg (Nat.not_lt.2 h)]
    | lit | percent => exact h

theorem used_add_convs {nargs : ℕ} (p : Piece) (ps : List Piece) :
    p.used nargs n + convs ps < nargs ↔ n + convs (p :: ps) < nargs := by
  cases p with
  | lit | percent => rfl
  | conv v =>
    rw [Piece.used, show convs (.conv v :: ps) = convs ps + 1 from List.countP_cons_of_pos rfl]
    split <;> omega

/-- The pointers by what is in front of them. -/
theorem clear_iff : Clear f str args n d ps ↔ ∀ pre post :
    List Piece, ps = pre ++ .conv .p :: post → n + convs pre < f.nargs →
    ((d + (formatted (Verb.shown str) args f.nargs n pre).length : ℕ) : ℤ) < f.bufsize →
    ((d + (formatted (Verb.shown str) args f.nargs n pre).length + 2 : ℕ) : ℤ) < f.bufsize := by
  induction ps generalizing n d with
  | nil => exact ⟨fun _ pre post h => absurd h (by simp), fun _ => trivial⟩
  | cons p ps ih =>
    rw [Clear, ih]
    constructor
    · rintro ⟨hhead, hrest⟩ pre post h hn
      cases pre with
      | nil => exact hhead (List.cons.inj h).1 hn
      | cons q pre =>
        obtain ⟨rfl, rfl⟩ := List.cons.inj h
        rw [formatted, List.length_append, ← Nat.add_assoc]
        exact hrest pre post rfl ((used_add_convs p pre).2 hn)
    · refine fun h => ⟨fun hp hn => ?_, fun pre post hps hn => ?_⟩
      · exact h [] ps (by rw [hp]; rfl) hn
      · have hroom := h (p :: pre) post (by rw [hps]; rfl) ((used_add_convs p pre).1 hn)
        rwa [formatted, List.length_append, ← Nat.add_assoc] at hroom

/-- The first digit of a pointer is the first character of a piece behind which there is a test. -/
theorem Piece.lead_lt_iff (hd : (d : ℤ) < f.bufsize) (hn : n < f.nargs) :
    ((d + p.lead : ℕ) : ℤ) < f.bufsize ↔
      (p = .conv .p → n < f.nargs → (d : ℤ) < f.bufsize → ((d + 2 : ℕ) : ℤ) < f.bufsize) := by
  refine ⟨fun h hp _ _ => by rwa [hp] at h, fun h => ?_⟩
  cases p with
  | lit | percent => exact hd
  | conv v =>
    cases v with
    | p => exact h rfl hn hd
    | c | d | x | s => exact hd

theorem Piece.lead_le_length (str : BitVec w → CStr) (args : ℕ → BitVec w)
    (hn : n < f.nargs) (p : Piece) :
    p.lead ≤ (p.text (Verb.shown str) args f.nargs n).length := by
  cases p with
  | lit | percent => exact Nat.zero_le _
  | conv v =>
    rw [Piece.text, if_pos hn, Verb.shown, List.length_append]
    exact Nat.le_add_right ..

/-- A number that starts in front of its area is not clobbered: it is shorter. -/
theorem Piece.not_clobbered_of_le (hw : w ≤ 64) (hapart : f.Apart) (hd : (d : ℤ) ≤ f.bufsize) :
    ¬p.Clobbered f str args n d := by
  cases p with
  | lit | percent => exact id
  | conv v =>
    rintro ⟨hnum, hf, -, hover⟩
    have hbuf := hapart hf
    have hroom : v.lead.length + (v.body str (args n)).length ≤ 20 := by
      cases v with
      | c | s => exact hnum.elim
      | d => exact Nat.le_trans (Nat.le_of_eq (Nat.zero_add _)) (Verb.d.length_number_le hw (args n))
      | x => exact Nat.le_trans (Nat.le_of_eq (Nat.zero_add _)) (Verb.x.length_number_le hw (args n))
      | p =>
        have := length_pointer_le hw (args n)
        exact Nat.le_trans (Nat.add_le_add_left this 2) (by decide)
    omega

/-- From an index below `bufsize` on, the output stays below it if and only if each pointer has room for
    its first digit. -/
theorem formatLoop_bound (f : Front) (str : BitVec w → CStr) (args : ℕ → BitVec w) (d n : ℕ)
    (s : Output)
    (hw : w ≤ 64) (hapart : f.Apart) (ps : List Piece) (hfmt : fmt.1 = pre ++ render ps)
    (hd : (d : ℤ) < f.bufsize) (hturns : (render ps).length < turns) :
    ∃ u s', formatLoop f str fmt args turns pre.length n d s = .ok (d + u.length) s' ∧ Puts f d u s s' ∧
      (((d + u.length : ℕ) : ℤ) ≤ f.bufsize ↔ Clear f str args n d ps) := by
  induction ps generalizing pre n d s turns with
  | nil =>
    obtain ⟨turns, rfl⟩ := Nat.exists_eq_add_one_of_ne_zero (Nat.ne_zero_of_lt hturns)
    refine ⟨[], s, ?_, .refl, iff_of_true (Int.le_of_lt hd) trivial⟩
    rw [formatLoop, charOf_end (by rw [hfmt]; exact List.append_nil pre), pure_bind, if_pos rfl]
    rfl
  | cons p ps ih =>
    by_cases hn : n < f.nargs
    · obtain ⟨turns, rfl⟩ := Nat.exists_eq_add_one_of_ne_zero (Nat.ne_zero_of_lt hturns)
      rw [render_cons, List.length_append] at hturns
      have hpos := p.length_bytes_pos
      have hclob : ¬p.Clobbered f str args n d := Piece.not_clobbered_of_le hw hapart (Int.le_of_lt hd)
      obtain ⟨u, returned, s₁, hrun, hemits, hroom⟩ := formatLoop_piece str args s turns hw hfmt hn hclob
      have hlead := Piece.lead_lt_iff (p := p) hd hn
      have hlen := p.lead_le_length str args hn
      have hle := hemits.start.length_le
      cases returned with
      | true =>
        -- It returns in this turn: what was written is all that counts.
        have hfull := hemits.ends rfl
        refine ⟨u, s₁, hrun, hemits.puts, fun h => ⟨hlead.1 ?_, .of_le (by omega) ps⟩, fun h => ?_⟩
        · by_cases hnil : p.text (Verb.shown str) args f.nargs n = []
          · rw [hnil, List.length_nil] at hlen
            omega
          · have := hemits.first hnil
            omega
        · exact hemits.bound (hlead.2 h.1)
      | false =>
        obtain rfl := hemits.goes rfl
        have hfmt' : fmt.1 = (pre ++ p.bytes) ++ render ps := by rw [hfmt, render_cons, List.append_assoc]
        obtain ⟨u, s', hrest, hputs, hiff⟩ := ih _ _ s₁ hfmt' (hroom rfl) (show _ < turns by omega)
        rw [List.length_append] at hrest
        refine ⟨_ ++ u, s', ?_, hemits.puts.append hputs, ?_⟩
        · rw [hrun, if_neg (by decide), hrest, List.length_append, Nat.add_assoc]
        · rw [List.length_append, ← Nat.add_assoc, hiff]
          -- It goes on, so that there was room for this piece.
          refine ⟨fun h => ⟨hlead.1 ?_, h⟩, fun h => h.2⟩
          have := hroom rfl
          omega
    · -- No arguments are left: what follows is copied as it is, and that is bounded.
      obtain ⟨u, returned, s', hrun, hemits⟩ :=
        formatLoop_verbatim str args d s hfmt (Nat.not_lt.1 hn) hturns
      exact ⟨u, s', hrun, hemits.puts, iff_of_true (hemits.bound hd) (.of_nargs_le (Nat.not_lt.1 hn) _)⟩

/-- With no room at all, the first piece is written nevertheless. -/
theorem printf_empty (f : Front) (str : BitVec w → CStr) (args : ℕ → BitVec w) (s : Output)
    (hw : w ≤ 64) (hapart : f.Apart) (ps : List Piece) (hbuf : f.bufsize = 0) :
    ∃ u s', printf f str (format ps) args s = .ok u.length s' ∧ Puts f 0 u s s' ∧
      (u = [] ↔ ∀ p ∈ ps.head?, p.text (Verb.shown str) args f.nargs 0 = []) := by
  cases ps with
  | nil => exact ⟨[], s, rfl, .refl, iff_of_true rfl nofun⟩
  | cons p ps =>
    have hfmt : (format (p :: ps)).1 = [] ++ render (p :: ps) := rfl
    have hiff (u : List UInt8) (h : u = [] ↔ p.text (Verb.shown str) args f.nargs 0 = []) :
        u = [] ↔ ∀ q ∈ (p :: ps).head?, q.text (Verb.shown str) args f.nargs 0 = [] := by
      simpa using h
    by_cases hn : 0 < f.nargs
    · have hclob : ¬p.Clobbered f str args 0 0 := Piece.not_clobbered_of_le hw hapart (Int.le_of_eq hbuf.symm)
      obtain ⟨u, returned, s', hrun, hemits, hroom⟩ :=
        formatLoop_piece str args s (render (p :: ps)).length hw hfmt hn hclob
      rw [Nat.zero_add] at hrun
      -- The end of the buffer is seen only after the first character.
      obtain rfl : returned = true := by
        cases returned with
        | true => rfl
        | false =>
          have := hroom rfl
          omega
      refine ⟨u, s', hrun, hemits.puts, hiff u ⟨fun h => ?_, fun h => ?_⟩⟩
      · by_contra hne
        exact absurd (hemits.first hne) (by simp [h])
      · exact List.prefix_nil.1 (h ▸ hemits.start)
    · obtain ⟨u, returned, s', hrun, hemits⟩ := formatLoop_verbatim str args 0 s hfmt (Nat.not_lt.1 hn)
        (Nat.lt_succ_self _)
      rw [Nat.zero_add] at hrun
      have hu : u ≠ [] := by
        have hpos := p.length_bytes_pos
        have := hemits.first (by
          rw [render_cons]
          exact List.append_ne_nil_of_left_ne_nil (List.ne_nil_of_length_pos hpos) _)
        exact List.ne_nil_of_length_pos this
      have htext : p.text (Verb.shown str) args f.nargs 0 ≠ [] := by
        cases p with
        | lit c => exact List.cons_ne_nil c []
        | percent | conv => simp [Piece.text, hn]
      exact ⟨u, s', hrun, hemits.puts, hiff u (iff_of_false hu htext)⟩

/-- The characters are stored below `bufsize`, and so many are returned. -/
def Respects (size : ℤ) (s : Output) : EStateM.Result Fault Output ℕ → Prop
  | .ok n s' => (∃ l, s'.stores = s.stores ++ l ∧ ∀ i ∈ l, (i : ℤ) < size - digitBufSize) ∧
      (n : ℤ) ≤ size - digitBufSize
  | .error .. => False

theorem Puts.respects_iff {size : ℤ} {u : List UInt8} (h : Puts f 0 u s s') (hsink : f.sink = .buf) :
    Respects size s (.ok u.length s') ↔ (u.length : ℤ) ≤ size - 21 := by
  refine ⟨fun h => h.2, fun hle => ⟨⟨_, h.stores, fun i hi => ?_⟩, hle⟩⟩
  rw [if_pos hsink, List.mem_range'_1] at hi
  exact Int.lt_of_lt_of_le (by omega) hle

/-- There is room for the area of the numbers, and for the first digit of each pointer in front of it. An
    empty rest has no room for a first piece. -/
structure Roomy (nargs : ℕ) (size : ℤ) (str : BitVec w → CStr) (args : ℕ → BitVec w)
    (ps : List Piece) : Prop where
  area : digitBufSize ≤ size
  first : size = digitBufSize → ∀ p ∈ ps.head?, p.text (Verb.shown str) args nargs 0 = []
  pointers : ∀ pre post : List Piece, ps = pre ++ .conv .p :: post → convs pre < nargs →
    (formatted (Verb.shown str) args nargs 0 pre).length < size - digitBufSize →
    (formatted (Verb.shown str) args nargs 0 pre).length + 2 < size - digitBufSize

theorem printf_respects {size : ℤ} (hw : w ≤ 64) (hsink : f.sink = .buf)
    (hbuf : 21 ≤ size → f.bufsize = size - 21 ∧ f.digitBuf = size - 21)
    (str : BitVec w → CStr) (args : ℕ → BitVec w)
    (ps : List Piece) (s : Output) :
    Respects size s (printf f str (format ps) args s) ↔ Roomy f.nargs size str args ps := by
  have hdigits : ((digitBufSize : ℕ) : ℤ) = 21 := rfl
  by_cases harea : 21 ≤ size
  · obtain ⟨hbuf, hdigit⟩ := hbuf harea
    have hapart : f.Apart := fun _ => by omega
    by_cases hsize : size = 21
    · obtain ⟨u, s', hrun, hputs, hiff⟩ := printf_empty f str args s hw hapart ps (by omega)
      rw [hrun, hputs.respects_iff hsink, hsize, show (u.length : ℤ) ≤ 21 - 21 ↔ u = [] by simp, hiff]
      exact ⟨fun h => ⟨by omega, fun _ => h, fun pre post _ _ hlt => by omega⟩, fun h => h.first rfl⟩
    · have hfmt : (format ps).1 = [] ++ render ps := rfl
      obtain ⟨u, s', hrun, hputs, hiff⟩ := formatLoop_bound f str args 0 0 s hw hapart ps hfmt (by omega)
        (Nat.lt_succ_self _)
      rw [Nat.zero_add] at hrun hiff
      have hrun : printf f str (format ps) args s = .ok u.length s' := hrun
      rw [hrun, hputs.respects_iff hsink, ← hbuf, hiff, clear_iff]
      simp only [Nat.zero_add, hbuf]
      exact ⟨fun h => ⟨harea, fun h => absurd h hsize, h⟩, fun h => h.pointers⟩
  · refine iff_of_false ?_ fun h => harea h.area
    cases printf f str (format ps) args s with
    | ok n s' =>
      rintro ⟨-, hn⟩
      omega
    | error => exact id

/-- What is written to a buffer respects it if and only if it is roomy. -/
theorem printf_respects_iff (hw : w ≤ 64) (nargs : ℕ) (str : BitVec w → CStr)
    (args : ℕ → BitVec w) (ps : List Piece)
    (s : Output) :
    (∀ size : BitVec w, Respects size.toNat s (ksprintfvec size str (format ps) args s) ↔
      Roomy 7 size.toNat str args ps) ∧
    (∀ size : BitVec 32, Respects size.toInt s (printfvecbuf nargs size str (format ps) args s) ↔
      Roomy nargs size.toInt str args ps) := by
  refine ⟨fun size => ?_, fun size => ?_⟩
  · exact printf_respects hw rfl (fun h => ⟨ksprintFront_bufsize (Int.ofNat_le.1 h), rfl⟩) str args ps s
  · have hbuf (h : 21 ≤ size.toInt) : (printFront nargs size).bufsize = size.toInt - 21 :=
      printFront_bufsize h
    exact printf_respects hw rfl (fun h => ⟨hbuf h, hbuf h⟩) str args ps s

/-- A pointer alone, to a buffer of 64 bytes. -/
theorem onePointer_respects :
    Respects 64 emptyOutput
      (ksprintfvec (64 : BitVec 32) noStrings (format [.conv .p]) elevenOn emptyOutput) := by
  refine ((printf_respects_iff (by decide) 7 noStrings elevenOn [.conv .p] emptyOutput).1 64).2
    ⟨by decide, ?_, ?_⟩
  · exact fun h => absurd h (by decide)
  · intro pre post hps _ _
    cases pre with
    | nil => decide
    | cons p pre => simp at hps

/-- With one byte in front of the area, its `x` and its digit are stored to the area. -/
theorem onePointer_not_respects :
    ¬Respects 22 emptyOutput
      (ksprintfvec (22 : BitVec 32) noStrings (format [.conv .p]) elevenOn emptyOutput) ∧
      ¬Respects 22 emptyOutput (printfvecbuf 7 22 noStrings (format [.conv .p]) elevenOn emptyOutput) := by
  have hk : ∃ s', ksprintfvec (22 : BitVec 32) noStrings (format [.conv .p]) elevenOn
      emptyOutput = .ok 3 s' :=
    ⟨_, rfl⟩
  have hu : ∃ s', printfvecbuf 7 22 noStrings (format [.conv .p]) elevenOn emptyOutput = .ok 3 s' :=
    ⟨_, rfl⟩
  obtain ⟨s₁, hk⟩ := hk
  obtain ⟨s₂, hu⟩ := hu
  rw [hk, hu]
  exact ⟨fun h => absurd h.2 (by decide), fun h => absurd h.2 (by decide)⟩

/-! ## Reading the format -/

/-- What a `%` may be followed by. -/
def Expected (c : UInt8) : Prop := c ∈ [percent, charC, charD, charP, charX, charS]

/-- The loop gets past the pieces: below `bufsize`, and without a number that overwrites its own digits. -/
def Passes (f : Front) (str : BitVec w → CStr) (args : ℕ → BitVec w) : (n d : ℕ) → List Piece → Prop
  | _, _, [] => True
  | n, d, p :: ps => ¬p.Clobbered f str args n d ∧
      ((d + (p.text (Verb.shown str) args f.nargs n).length : ℕ) : ℤ) < f.bufsize ∧
      Passes f str args (p.used f.nargs n) (d + (p.text (Verb.shown str) args f.nargs n).length) ps

theorem charOf_headD (hfmt : fmt.1 = pre ++ rest) : charOf fmt pre.length = return rest.headD 0 := by
  cases rest with
  | nil => exact charOf_end (by rw [hfmt, List.append_nil])
  | cons c rest => exact charOf_cons hfmt

theorem length_le_length_render (ps : List Piece) : ps.length ≤ (render ps).length := by
  induction ps with
  | nil => exact Nat.le_refl 0
  | cons p ps ih =>
    have := p.length_bytes_pos
    rw [render_cons, List.length_append, List.length_cons]
    omega

/-- The loop goes on behind the pieces that it gets past. -/
theorem formatLoop_passes (str : BitVec w → CStr) (args : ℕ → BitVec w) (s : Output)
    (turns : ℕ) (hw : w ≤ 64)
    (hfmt : fmt.1 = pre ++ (render ps ++ rest)) (hn : n + convs ps < f.nargs) (h : Passes f str args n d ps) :
    ∃ d' s', formatLoop f str fmt args (turns + ps.length) pre.length n d s =
      formatLoop f str fmt args turns (pre ++ render ps).length (n + convs ps) d' s' := by
  induction ps generalizing pre n d s with
  | nil =>
    refine ⟨d, s, ?_⟩
    rw [show render [] = [] from rfl, List.append_nil]
    rfl
  | cons p ps ih =>
    obtain ⟨hclob, hroom, hrest⟩ := h
    have hlt : n < f.nargs := by omega
    have hused : p.used f.nargs n + convs ps = n + convs (p :: ps) := by
      cases p with
      | lit | percent => rfl
      | conv v =>
        rw [Piece.used, if_pos hlt, show convs (.conv v :: ps) = convs ps + 1 from List.countP_cons_of_pos rfl]
        omega
    obtain ⟨u, returned, s₁, hrun, hemits, -⟩ := formatLoop_piece str args s (turns + ps.length) hw
      (show fmt.1 = pre ++ (p.bytes ++ (render ps ++ rest)) by rw [hfmt, render_cons, List.append_assoc])
        hlt hclob
    have hle := hemits.start.length_le
    -- The limit is not reached within the pieces, so the turn does not return.
    cases returned with
    | true =>
      have := hemits.ends rfl
      omega
    | false =>
      obtain rfl := hemits.goes rfl
      have hfmt' : fmt.1 = (pre ++ p.bytes) ++ (render ps ++ rest) := by
        rw [hfmt, render_cons, List.append_assoc, List.append_assoc]
      obtain ⟨d', s', hpasses⟩ := ih s₁ hfmt' (hused ▸ hn) hrest
      rw [List.length_append] at hpasses
      refine ⟨d', s', ?_⟩
      rw [List.length_cons, ← Nat.add_assoc, hrun, if_neg (by decide), hpasses, hused,
        render_cons, List.append_assoc]

/-- No case is for another character. -/
theorem convert_unexpected {c : UInt8} (h : ¬Expected c) (a : BitVec w) :
    convert f str c a d s = .error .uninitialised s := by
  simp only [Expected, List.mem_cons, not_or] at h
  obtain ⟨-, hc, hd, hp, hx, hs, -⟩ := h
  rw [convert, if_neg hc, if_neg hd, if_neg hp, if_neg hx, if_neg hs]
  rfl

/-- At a `%` that is followed by something else, `tmp` is not set. -/
theorem formatLoop_unexpected (hfmt : fmt.1 = pre ++ percent :: rest) (hn : n < f.nargs)
    (h : ¬Expected (rest.headD 0)) :
    formatLoop f str fmt args (turns + 1) pre.length n d s = .error .uninitialised s := by
  have hsucc : charOf fmt (pre.length + 1) = return rest.headD 0 := by
    have := charOf_headD (show fmt.1 = (pre ++ [percent]) ++ rest by rw [hfmt]; simp)
    rwa [List.length_append] at this
  have hne : rest.headD 0 ≠ percent := fun h' => h (h' ▸ List.mem_cons_self)
  have hturn : turn f str fmt args percent pre.length n d s = .error .uninitialised s := by
    rw [turn, if_pos ⟨rfl, hn⟩, hsucc, pure_bind, if_neg hne]
    exact bind_error (convert_unexpected h (args n))
  rw [formatLoop, charOf_cons hfmt, pure_bind, if_neg (by decide)]
  exact bind_error hturn

theorem Expected.piece {c : UInt8} (h : Expected c) (rest : List UInt8) :
    ∃ p : Piece, percent :: c :: rest = p.bytes ++ rest := by
  simp only [Expected, List.mem_cons, List.not_mem_nil, or_false] at h
  rcases h with rfl | rfl | rfl | rfl | rfl | rfl
  · exact ⟨.percent, rfl⟩
  · exact ⟨.conv .c, rfl⟩
  · exact ⟨.conv .d, rfl⟩
  · exact ⟨.conv .p, rfl⟩
  · exact ⟨.conv .x, rfl⟩
  · exact ⟨.conv .s, rfl⟩

/-- What starts with no unexpected character starts with a piece. -/
theorem exists_piece {c : UInt8} (hzero : c ≠ 0) (h : c = percent → Expected (rest.headD 0)) :
    ∃ (p : Piece) (rest' : List UInt8), c :: rest = p.bytes ++ rest' := by
  by_cases hc : c = percent
  · subst hc
    cases rest with
    | nil => exact absurd (h rfl) (by unfold Expected; decide)
    | cons c rest =>
      obtain ⟨p, hp⟩ := (h rfl).piece rest
      exact ⟨p, rest, hp⟩
  · exact ⟨.lit c ⟨hzero, hc⟩, rest, rfl⟩

/-- A turn at a piece that overwrites its own number is the last. -/
theorem formatLoop_clobbered (hw : w ≤ 64) (hfmt : fmt.1 = pre ++ (p.bytes ++ rest)) (hn : n < f.nargs)
    (hclob : p.Clobbered f str args n d) :
    ∃ m s', formatLoop f str fmt args (turns + 1) pre.length n d s = .ok m s' := by
  cases p with
  | lit | percent => exact hclob.elim
  | conv v =>
    obtain ⟨t, s', hturn, hret⟩ := turn_clobbered (s := s) hw (charOf_succ hfmt) hn hclob
    refine ⟨t.dsti, s', ?_⟩
    rw [formatLoop, charOf_cons hfmt, pure_bind, if_neg (by decide), bind_ok hturn, if_pos hret]
    rfl

/-- Where no unexpected character is reached, the loop returns. -/
theorem formatLoop_safe (f : Front) (str : BitVec w → CStr) (args : ℕ → BitVec w) (d n : ℕ) (s : Output)
    (hw : w ≤ 64) (hfmt : fmt.1 = pre ++ rest) (hturns : rest.length < turns)
    (h : ∀ ps tail, rest = render ps ++ percent :: tail → n + convs ps < f.nargs →
      Passes f str args n d ps →
      Expected (tail.headD 0)) :
    ∃ m s', formatLoop f str fmt args turns pre.length n d s = .ok m s' := by
  -- On the turns: each is at a piece of what is left of the format.
  induction turns generalizing pre rest n d s with
  | zero => exact absurd hturns (Nat.not_lt_zero _)
  | succ turns ih =>
    by_cases hn : n < f.nargs
    · cases rest with
      | nil =>
        refine ⟨d, s, ?_⟩
        rw [formatLoop, charOf_end (by rw [hfmt, List.append_nil]), pure_bind, if_pos rfl]
        rfl
      | cons c rest =>
        have hzero : c ≠ 0 := by
          rintro rfl
          exact fmt.2 (by rw [hfmt]; simp)
        obtain ⟨p, rest', hp⟩ := exists_piece hzero fun hc => h [] rest (by rw [hc]; rfl) hn trivial
        rw [hp] at hfmt
        by_cases hclob : p.Clobbered f str args n d
        · exact formatLoop_clobbered hw hfmt hn hclob
        · obtain ⟨u, returned, s₁, hrun, hemits, hroom⟩ :=
            formatLoop_piece str args s turns hw hfmt hn hclob
          rw [hrun]
          cases returned with
          | true => exact ⟨_, s₁, rfl⟩
          | false =>
            obtain rfl := hemits.goes rfl
            have hpos := p.length_bytes_pos
            have hlen : (c :: rest).length = p.bytes.length + rest'.length := by rw [hp, List.length_append]
            have hfmt' : fmt.1 = (pre ++ p.bytes) ++ rest' := by rw [hfmt, List.append_assoc]
            have hrest := ih (d + _) (p.used f.nargs n) s₁ hfmt' (by omega) fun ps
                tail htail hconvs hpasses =>
              h (p :: ps) tail (by rw [hp, htail, render_cons, List.append_assoc])
                ((used_add_convs p ps).1 hconvs)
                ⟨hclob, hroom rfl, hpasses⟩
            rw [List.length_append] at hrest
            exact hrest
    · obtain ⟨u, returned, s', hrun, -⟩ := formatLoop_verbatim str args d s hfmt (Nat.not_lt.1 hn) hturns
      exact ⟨_, s', hrun⟩

/-- A format is read without a fault if and only if each `%` that is reached with an argument left is
    followed by a verb or by a `%`. -/
theorem printf_safe_iff (f : Front) (hw : w ≤ 64) (str : BitVec w → CStr)
    (fmt : CStr) (args : ℕ → BitVec w)
    (s : Output) :
    (∃ n s', printf f str fmt args s = .ok n s') ↔
      ∀ ps tail, fmt.1 = render ps ++ percent :: tail → convs ps < f.nargs → Passes f str args 0 0 ps →
        Expected (tail.headD 0) := by
  have hnil : fmt.1 = [] ++ fmt.1 := rfl
  constructor
  · rintro ⟨n, s', hrun⟩ ps tail hfmt hconvs hpasses
    by_contra hunexpected
    have hturns : fmt.1.length + 1 = fmt.1.length - ps.length + 1 + ps.length := by
      have := length_le_length_render ps
      rw [hfmt, List.length_append]
      omega
    obtain ⟨d', s₁, hrest⟩ := formatLoop_passes str args s (fmt.1.length - ps.length + 1) hw
      (show fmt.1 = [] ++ (render ps ++ percent :: tail) from hfmt) (by rwa [Nat.zero_add]) hpasses
    rw [Nat.zero_add, formatLoop_unexpected (by rw [hfmt]; rfl) hconvs hunexpected, ← hturns] at hrest
    have hrun' : printf f str fmt args s = .error .uninitialised s₁ := hrest
    rw [hrun] at hrun'
    cases hrun'
  · intro h
    refine formatLoop_safe f str args 0 0 s hw hnil (Nat.lt_succ_self _) fun ps tail hfmt hconvs hpasses => ?_
    exact h ps tail hfmt (by rwa [Nat.zero_add] at hconvs) hpasses

theorem char_expected (v : Verb) : Expected v.char ∧ v.char ≠ percent := by
  cases v <;> exact ⟨by simp [Expected, Verb.char], by decide⟩

/-- In a format that is made of pieces, each `%` is followed by what it may be followed by. -/
theorem expected_of_render {qs ps : List Piece} {tail : List UInt8}
    (h : render qs = render ps ++ percent :: tail) :
    Expected (tail.headD 0) := by
  induction qs generalizing ps with
  | nil => simp [render] at h
  | cons q qs ih =>
    rw [render_cons] at h
    cases ps with
    | nil =>
      cases q with
      | lit c hc => exact absurd (List.cons.inj h).1 hc.2
      | percent =>
        obtain ⟨-, rfl⟩ := List.cons.inj h
        exact List.mem_cons_self
      | conv v =>
        obtain ⟨-, rfl⟩ := List.cons.inj h
        exact (char_expected v).1
    | cons p ps =>
      rw [render_cons, List.append_assoc] at h
      cases q with
      | lit c hc =>
        cases p with
        | lit => exact ih (List.cons.inj h).2
        | percent | conv => exact absurd (List.cons.inj h).1 hc.2
      | percent =>
        cases p with
        | lit c hc => exact absurd (List.cons.inj h).1.symm hc.2
        | percent => exact ih (List.cons.inj (List.cons.inj h).2).2
        | conv v => exact absurd (List.cons.inj (List.cons.inj h).2).1.symm (char_expected v).2
      | conv v =>
        cases p with
        | lit c hc => exact absurd (List.cons.inj h).1.symm hc.2
        | percent => exact absurd (List.cons.inj (List.cons.inj h).2).1 (char_expected v).2
        | conv v' => exact ih (List.cons.inj (List.cons.inj h).2).2

/-- A number with a percent sign, and a string. -/
def hundred : CStr := format [.conv .d, .percent, .lit 32 (by decide), .conv .s]

theorem hundred_safe : ∃ n s', kprintfvec .qemuE noStrings hundred elevenOn emptyOutput = .ok n s' :=
  (printf_safe_iff (kprintFront .qemuE) (by decide) noStrings hundred elevenOn emptyOutput).2 fun _
      _ hfmt _ _ =>
    expected_of_render hfmt

/-- A `%` at the end. -/
def hundredPercent : CStr := ⟨ascii "100%", by decide⟩

theorem hundredPercent_not_safe :
    ¬∃ n s', kprintfvec .qemuE noStrings hundredPercent elevenOn emptyOutput = .ok n s' := by
  rintro ⟨n, s', h⟩
  have herr : ∃ s', kprintfvec .qemuE noStrings hundredPercent elevenOn emptyOutput =
      .error .uninitialised s' :=
    ⟨_, rfl⟩
  obtain ⟨s₁, herr⟩ := herr
  rw [h] at herr
  cases herr

end HobbyOs.Printf
