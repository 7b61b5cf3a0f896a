import HobbyOs.Blocked
import HobbyOs.FileCalls
import HobbyOs.Memory

/-!
# Reading a file of the baked-in file system

A file object keeps the position that the next read starts at, and every
descriptor of it shares the position. `bifs_read` stops at the end of the text,
which it does not know the length of.

* `bifsReadLoop_eq`: from a position within the text, it delivers the next
  characters, as many as there are;
* `position_kept`: no call moves the position of a file object in use, but a read
  through it;
* `reads_partition`: the reads of a file object, from when it was opened on a file,
  deliver the text of the file piece by piece, and nothing at its end;
* `blocked_read_moves`: unless a process has blocked in a read through the file
  object before, which goes on and moves the position.
-/

namespace HobbyOs

open Outcome Transition

variable {cfg : Config} {α β : Type} {p q : Slot cfg} {k k' : Kernel cfg}
  {f g : FileRef} {m m' m₀ : Machine cfg}
  {j : Fin bifsMaxFiles} {s : List UInt8} {fd buf size : ℕ}

/-! ## The loop -/

theorem charAt_of_lt {t : List UInt8} {pos : ℕ} (h : pos < (t.takeWhile (· ≠ 0)).length) :
    charAt t pos = (t.takeWhile (· ≠ 0))[pos] ∧ charAt t pos ≠ 0 := by
  induction t generalizing pos with
  | nil => exact absurd h (Nat.not_lt_zero _)
  | cons x t ih =>
    by_cases hx : x ≠ 0
    · simp only [List.takeWhile_cons, decide_eq_true hx, if_true] at h ⊢
      cases pos with
      | zero => exact ⟨rfl, hx⟩
      | succ pos => exact ih (Nat.lt_of_succ_lt_succ h)
    · rw [List.takeWhile_cons, if_neg (by simpa using hx)] at h
      exact absurd h (Nat.not_lt_zero _)

/-- A C string ends with a zero. -/
theorem charAt_length {t : List UInt8} : charAt t (t.takeWhile (· ≠ 0)).length = 0 := by
  induction t with
  | nil => rfl
  | cons x t ih =>
    by_cases hx : x ≠ 0
    · rw [List.takeWhile_cons, if_pos (by simpa using hx)]
      exact ih
    · rw [List.takeWhile_cons, if_neg (by simpa using hx)]
      exact not_not.1 hx

/-- The loop of `bifs_read` delivers the next characters of the text. -/
theorem bifsReadLoop_eq {t : List UInt8} {size pos : ℕ} (h : pos ≤ (t.takeWhile (· ≠ 0)).length) :
    bifsReadLoop (charAt t) size pos = ((t.takeWhile (· ≠ 0)).drop pos).take size := by
  induction size generalizing pos with
  | zero => rfl
  | succ size ih =>
    rw [bifsReadLoop]
    rcases h.eq_or_lt with rfl | hlt
    · rw [if_pos charAt_length, List.drop_length, List.take_nil]
    · obtain ⟨hchar, hne⟩ := charAt_of_lt hlt
      rw [if_neg hne, ih hlt, List.drop_eq_getElem_cons hlt, List.take_succ_cons, hchar]

/-! ## A read -/

/-- The text of a file that is not temporary. -/
def content (k : Kernel cfg) (j : Fin bifsMaxFiles) : Option (List UInt8) :=
  match (k.bfiles j).data with
  | .lit t => some (t.takeWhile (· ≠ 0))
  | _ => none

/-- The file object `f` is open on the file `j`, and the text of the file is `s`. -/
structure OnFile (f : FileRef) (j : Fin bifsMaxFiles) (s : List UInt8) (k : Kernel cfg) : Prop where
  inUse : (k.files f).refcount ≠ 0
  fsFile : (k.files f).fsFile = .bifs j
  read : (k.files f).read = .bifs
  content : content k j = some s

/-- The kernel after a read through `f` that has delivered `bytes`. -/
def Kernel.delivered (k : Kernel cfg) (f : FileRef) (buf : ℕ) (bytes : List UInt8) : Kernel cfg :=
  { k with
    mem := storeBytes k.mem buf bytes
    io := .store buf bytes.length :: k.io
    files := Function.update k.files f { k.files f with
      position := u32 ((k.files f).position + bytes.length) } }

theorem bifsRead_apply (h : OnFile f j s k) {pos : ℕ} (hpos : pos ≤ s.length) :
    bifsRead f pos buf size k = .ok (((s.drop pos).take size).length : ℤ) { k with
      mem := storeBytes k.mem buf ((s.drop pos).take size)
      io := .store buf ((s.drop pos).take size).length :: k.io } := by
  have hcontent := h.content
  unfold content at hcontent
  rw [bifsRead, get_bind_apply, h.fsFile]
  dsimp only
  cases hd : (k.bfiles j).data with
  | lit t =>
    rw [hd] at hcontent
    cases hcontent
    have hlen : ¬t.length < pos := by
      have := (List.takeWhile_prefix (p := (· ≠ 0)) (l := t)).length_le
      omega
    dsimp only
    rw [if_neg hlen, bifsReadLoop_eq hpos]
    rfl
  | null | page _ =>
    rw [hd] at hcontent
    cases hcontent

theorem fsRead_eq (p : Slot cfg) (pos buf size : ℕ) (h : (k.files f).read = .bifs) :
    fsRead p f pos buf size k = bifsRead f pos buf size k := by
  rw [fsRead, get_bind_apply, h]

theorem procRead_apply (p : Slot cfg) (size : ℕ) (h : OnFile f j s k) {i : Fin maxProcFds}
    (hf : (k.procs p).files i = some f)
    (hbuf : va2pa k (k.procs p).upagetable buf ≠ 0) (hle : (k.files f).position ≤ s.length) :
    procRead p i buf size k = .ok (((s.drop (k.files f).position).take size).length : ℤ)
      (k.delivered f (va2pa k (k.procs p).upagetable buf) ((s.drop (k.files f).position).take size)) := by
  have hfile : fileOf p (i : ℕ) k = .ok (some f) k := by
    rw [fileOf, dif_pos ⟨Int.natCast_nonneg _, by simp⟩]
    exact congrArg (EStateM.Result.ok · k) hf
  have hread := (fsRead_eq p _ (va2pa k (k.procs p).upagetable buf) size h.read).trans (bifsRead_apply h hle)
  rw [procRead, bind_ok hfile]
  dsimp only
  rw [get_bind_apply, if_neg hbuf, bind_ok hread, readTail, if_neg (by omega)]
  rfl

/-! ## Positions -/

theorem keeps_file {S : Set Part} {c : KM cfg α} (hc : Frame S c) (hf : .files ∉ S) :
    Outcome.Keeps (fun k => k.files f) c :=
  fun k => congrFun (show (final (c k)).files = k.files from hc k .files hf) f

theorem keeps_readTail {n : ℤ} (h : g ≠ f) :
    Outcome.Keeps (fun k => k.files f) (readTail p g n : KM cfg ℤ) := by
  unfold readTail
  split
  · exact (keeps_file frame_setErrno (Set.notMem_empty _)).bind fun _ => .pure
  · refine Outcome.Keeps.bind (Outcome.Keeps.modify fun k => ?_) fun _ => .pure
    simp [Kernel.setFile, h.symm]

/-- A read through `f` from a buffer that is mapped. -/
def ReadsFile (p : Slot cfg) (k : Kernel cfg) (f : FileRef) : Call → Prop
  | .read fd buf _ => ∃ i : Fin maxProcFds, fd = i ∧ (k.procs p).files i = some f ∧
      va2pa k (k.procs p).upagetable buf ≠ 0
  | _ => False

/-- Of other file objects, and of buffers that are not mapped. -/
theorem procRead_other (h : ¬ReadsFile p k f (.read fd buf size)) :
    (final (procRead p fd buf size k)).files f = k.files f := by
  unfold procRead
  cases hfile : fileOf p fd k with
  | error e k₁ =>
    rw [bind_error hfile]
    rw [fileOf] at hfile
    split at hfile
    · cases hfile
    · cases hfile
      rfl
  | ok o k₁ =>
    obtain ⟨rfl, i, hi, ho⟩ := fileOf_ok hfile
    obtain rfl : fd = i := Int.ofNat.inj hi
    rw [bind_ok hfile]
    cases o with
    | none => exact keeps_file (frame_setErrno.bind fun _ => Frame.pure) (Set.notMem_empty _) k₁
    | some g =>
      dsimp only
      rw [get_bind_apply]
      by_cases hbuf : va2pa k₁ (k₁.procs p).upagetable buf = 0
      · rw [if_pos hbuf]
        exact keeps_file (frame_setErrno.bind fun _ => Frame.pure) (Set.notMem_empty _) k₁
      · rw [if_neg hbuf]
        -- The read is of another file object, and it writes to that one only.
        have hg : g ≠ f := by
          rintro rfl
          exact h ⟨i, rfl, ho, hbuf⟩
        have hread : Frame {Part.files}ᶜ (fsRead p g (k₁.files g).position
            (va2pa k₁ (k₁.procs p).upagetable buf) size) := frame_fsRead (by simp) (by simp)
        exact ((keeps_file hread (by simp)).bind fun n => keeps_readTail hg) k₁

theorem Frees.position (h : Frees g k k') (f : FileRef) : (k'.files f).position = (k.files f).position := by
  cases h with
  | plain _ hfiles _ =>
    rw [hfiles]
    by_cases hf : f = g
    · subst hf
      simp [File.dropped]
    · simp [hf]
  | @last i w files _ _ hw hfiles _ =>
    have hdrop : ∀ f, (Function.update k.files g (k.files g).dropped f).position = (k.files f).position := by
      intro f
      by_cases hf : f = g
      · subst hf
        simp [File.dropped]
      · simp [hf]
    have hnull : ∀ f, (files f).position = (k.files f).position := by
      intro f
      rw [hw, ← hdrop f]
      by_cases hf : f = w
      · subst hf
        simp
      · simp [hf]
    rw [hfiles, ← hnull f]
    by_cases hf : f = g
    · subst hf
      simp
    · simp [hf]

theorem closeFiles_position {files : Fin maxProcFds → Option FileRef}
    (h : closeFiles files k = .ok () k') (f : FileRef) :
    (k'.files f).position = (k.files f).position := by
  have hloop : Triple (fun t => (t.files f).position = (k.files f).position) (closeFiles files : KM cfg Unit)
      (fun _ t => (t.files f).position = (k.files f).position) fun _ _ => True := by
    refine Triple.forM (I := fun _ (t : Kernel cfg) => (t.files f).position = (k.files f).position)
      (fun i l t ht => ?_) _
    cases hi : files i with
    | none => exact ht
    | some g =>
      dsimp only
      cases hr : fsFreeFile g t with
      | ok a t' => exact ((fsFreeFile_ok hr).position f).trans ht
      | error e t' => trivial
  exact hloop.of_ok rfl h

/-! ### Opening -/

theorem fsOpen_position {path : List UInt8} :
    Outcome.Keeps (fun k => (k.files f).position) (fsOpen p f path) := by
  have hframe : ∀ {γ : Type} {S : Set Part} {c : KM cfg γ}, Frame S c → .files ∉ S →
      Outcome.Keeps (fun k => (k.files f).position) c :=
      fun hc hf k => congrArg File.position (keeps_file hc hf k)
  -- What `fs_open` sets in the file object are fields other than the position.
  have hset : ∀ g : File → File, (∀ x, (g x).position = x.position) →
      Outcome.Keeps (fun k => (k.files f).position)
      (modify fun k => k.setFile f (g (k.files f)) : KM cfg PUnit) :=
    fun g hg => Outcome.Keeps.modify fun k => by simp [Kernel.setFile, hg]
  have hend : ∀ r : ℤ, Outcome.Keeps (fun k => (k.files f).position) (do
      modify fun k => k.setFile f { k.files f with read := .bifs, write := .bifs }
      return r : KM cfg ℤ) := fun r =>
    Outcome.Keeps.bind (hset (fun x => { x with read := .bifs, write := .bifs }) fun _ => rfl) fun _ => .pure
  refine Outcome.Keeps.bind (hframe (S := ∅) frame_bifsOpen (Set.notMem_empty _)) fun a => ?_
  cases a with
  | inl e => exact .pure
  | inr j =>
    refine Outcome.Keeps.bind (hset (fun x => { x with fsFile := .bifs j }) fun _ => rfl) fun _ => ?_
    refine Outcome.Keeps.get.bind fun a => ?_
    dsimp only
    split
    · refine Outcome.Keeps.get.bind fun a => ?_
      refine Outcome.Keeps.bind (hframe (S := {.pages}) (frame_kalloc (by simp)) (by simp)) fun b => ?_
      cases b with
      | none => exact Outcome.Keeps.bind (hset (fun x => { x with tmpfileMem := 0 }) fun _ => rfl) fun _ =>
        .pure
      | some page =>
        refine Outcome.Keeps.bind (hset (fun x => { x with tmpfileMem := page }) fun _ => rfl) fun _ => ?_
        refine Outcome.Keeps.get.bind fun a => ?_
        have hdata : Outcome.Keeps (fun k => (k.files f).position) (do
            modify fun k => { k with
              bfiles := Function.update k.bfiles j { k.bfiles j with data := .page page } }
            modify fun k => k.setFile f { k.files f with read := .bifs, write := .bifs }
            return 0 : KM cfg ℤ) := Outcome.Keeps.bind (Outcome.Keeps.modify fun _ => rfl) fun _ => hend 0
        split
        · exact hdata
        · exact Outcome.Keeps.bind (Outcome.Keeps.modify fun _ => rfl) fun _ => hdata
    · exact hend 0

theorem openFile_position {path : ℕ} {r : ℤ} (h : openFile p f path k = .ok r k') :
    (k'.files f).position = (k.files f).position := by
  obtain ⟨hl, t, ht, rfl⟩ := withLock_eq_ok.1 h
  obtain ⟨o, k₁, h₁, ht⟩ := bind_eq_ok.1 ht
  rcases fdAlloc_ok h₁ with ⟨rfl, rfl, -⟩ | ⟨fd, rfl, hfd, rfl⟩
  · cases ht
    rfl
  · obtain ⟨s, k₂, h₂, ht⟩ := bind_eq_ok.1 ht
    obtain ⟨status, k₃, h₃, ht⟩ := bind_eq_ok.1 ht
    have hfiles₂ := Frame.same (x := .files) frame_readString h₂
    have hpos : (k₃.files f).position = (k.files f).position :=
      (fsOpen_position.of_ok h₃).trans (congrArg (fun fs => (fs f).position) hfiles₂)
    split at ht
    · obtain ⟨_, k₄, h₄, ht⟩ := bind_eq_ok.1 ht
      obtain ⟨hfiles₄, -⟩ := setFd_ok h₄
      cases ht
      exact (congrArg (fun fs => (fs f).position) hfiles₄).trans hpos
    · cases ht
      exact hpos

/-- A file object that `proc_open` gives a descriptor to has not been read from. -/
theorem procOpen_position {path : ℕ} {r : ℤ} {fd : Fin maxProcFds} (h : procOpen p path k = .ok r k')
    (hnone : (k.procs p).files fd = none) (hfd : (k'.procs p).files fd = some f) :
    (k'.files f).position = 0 := by
  cases procOpen_ok h with
  | none _ hfds =>
    rw [hfds p, hnone] at hfd
    cases hfd
  | lost _ _ hfds =>
    rw [hfds p, hnone] at hfd
    cases hfd
  | @opened i e hi _ _ hset =>
    have hf : f = .ftable i := by
      rw [hset.own] at hfd
      by_cases he : fd = e
      · subst he
        simpa using hfd.symm
      · rw [Function.update_of_ne he, hnone] at hfd
        cases hfd
    subst hf
    rw [procOpen, get_bind_apply] at h
    split at h
    · cases h
      exact absurd hfd (by simp [hnone])
    · obtain ⟨o, k₁, h₁, h⟩ := bind_eq_ok.1 h
      rcases fsAllocFile_ok h₁ with ⟨hno, -⟩ | ⟨i', hi', rfl, rfl⟩
      · rw [hno] at hi
        cases hi
      · obtain rfl : i' = i := Option.some.inj (hi'.symm.trans hi)
        rw [openFile_position h]
        simp [Kernel.setFile, File.taken]

/-! ### Calls -/

/-- A call does not move the position of a file object in use, but for a read
    through it. -/
theorem position_call {c : Call} {how : How} {t : Core cfg} (hk : Calm p k) (hcpu : k.core.cpuProc = some p)
    (hpar : (k.core.procs p).parent ≠ some p) (huse : (k.files f).refcount ≠ 0)
    (hread : ¬ReadsFile p k f c)
    (hend : Ended (runCall p c k) how k') (he : CallEffect p k c how t) :
    (k'.files f).position = (k.files f).position := by
  have hother : Part.files ∉ c.parts → (k'.files f).position = (k.files f).position := fun hfiles =>
    congrArg (fun fs => (fs f).position) (show k'.files = k.files from hend.same (frame_runCall p c) hfiles)
  have hne : ∀ {i : Fin maxFiles}, (k.files (.ftable i)).refcount = 0 → f ≠ .ftable i := by
    rintro i hi rfl
    exact huse hi
  -- A call that takes a file object takes one that is not in use, so it is not this
  -- one.
  have honly : ∀ {i : Fin maxFiles} {x : File}, (k.files (.ftable i)).refcount = 0 →
      OnlyFile (.ftable i) (Function.update k.files (.ftable i) x) k'.files →
      (k'.files f).position = (k.files f).position := by
    intro i x hi ho
    rw [ho.others f (hne hi), Function.update_of_ne (hne hi)]
  have hupdate : ∀ {g : FileRef} {x : File}, k'.files = Function.update k.files g x →
      x.position = (k.files g).position → (k'.files f).position = (k.files f).position := by
    intro g x hfiles hx
    rw [hfiles]
    by_cases hf : f = g
    · subst hf
      simpa using hx
    · simp [hf]
  have hsame : Part.files.Same k k' → (k'.files f).position = (k.files f).position := fun h =>
    congrArg (fun fs => (fs f).position) (show k'.files = k.files from h)
  cases c with
  | read fd buf size =>
    have hfile := procRead_other hread
    cases hend with
    | back hr | away hr =>
      rw [show procRead p fd buf size k = _ from hr] at hfile
      exact congrArg File.position hfile
  | fork =>
    -- Only the refcounts change.
    cases hend with
    | away _ => exact (he.not_away rfl (by simp) (by simp) (by simp)).elim
    | back hr =>
      cases procFork_ok hk hcpu hr with
      | failed _ _ _ _ _ hfiles _ => exact hsame hfiles
      | done _ _ _ _ hfiles _ =>
        rw [hfiles, File.refs]
        split <;> rfl
  | exit =>
    cases hend with
    | back hr => exact absurd hr procExit_ne_ok
    | away hr =>
      obtain ⟨k₁, k₂, hclose, hbefore, hafter, -⟩ := procExit_closes hk hpar hr
      rw [show k'.files = k₂.files from hafter .files (by simp), closeFiles_position hclose,
        show k₁.files = k.files from hbefore .files (by simp)]
  | «open» path =>
    cases hend with
    | away _ => exact (he.not_away rfl (by simp) (by simp) (by simp)).elim
    | back hr =>
      cases procOpen_ok hr with
      | none h _ => exact hsame h
      | lost hi ho _ | opened hi ho _ _ => exact honly (freeFile_some hi) ho
  | close fd =>
    cases hend with
    | away _ => exact (he.not_away rfl (by simp) (by simp) (by simp)).elim
    | back hr =>
      cases procClose_ok hr with
      | none h _ _ => exact hsame h
      | closed _ hfrees _ => exact hfrees.position f
  | dup fd =>
    cases hend with
    | away _ => exact (he.not_away rfl (by simp) (by simp) (by simp)).elim
    | back hr =>
      cases procDup_ok hr with
      | none h _ => exact hsame h
      | copied _ hfiles _ _ => exact hupdate hfiles rfl
  | pipeattch pid fd =>
    cases hend with
    | away _ => exact (he.not_away rfl (by simp) (by simp) (by simp)).elim
    | back hr =>
      cases procPipeattch_ok hr with
      | none h _ => exact hsame h
      | back _ hfiles _ | attached _ _ hfiles _ _ => exact hupdate hfiles rfl
  | pipe pipefd =>
    cases hend with
    | away _ => exact (he.not_away rfl (by simp) (by simp) (by simp)).elim
    | back hr =>
      cases pipeOpen_ok hr with
      | noPipe h _ _ => exact hsame h
      | noFile _ _ h _ => exact hsame h
      | oneFile _ hi _ hfiles _ =>
        rw [hfiles, Function.update_of_ne (hne (freeFile_some hi))]
      | ends _ hi hj _ _ hfiles _ _ _ _ =>
        rw [hfiles, Function.update_of_ne (hne (nextFreeFile_some hj).2),
          Function.update_of_ne (hne (freeFile_some hi))]
  | _ => exact hother (by simp [Call.parts])

/-- Nor does a process that goes on, unless it is within a read through it. -/
theorem position_resume (h : (k.procs p).ctx.reads ≠ some f) :
    ((final (resume p k)).files f).position = (k.files f).position := by
  have hkeeps : ∀ call : Kont cfg, call.reads ≠ some f →
      Outcome.Keeps (fun k => k.files f) (resumeFrom p call) := by
    intro call hcall
    have hread : ∀ g n, g ≠ f →
        Outcome.Keeps (fun k => k.files f) (do syscallTail p (← readTail p g n) : KM cfg Unit) :=
      fun g n hg => (keeps_readTail hg).bind fun _ => keeps_file frame_syscallTail (Set.notMem_empty _)
    have hchildren : ∀ c : Kont cfg, Frame ({.pages} : Set Part) (checkExitedChildren p c) := fun c =>
      frame_checkExitedChildren (by simp)
    have hafter : ∀ c : Kont cfg, Frame ({.pages} : Set Part) (afterYield p c) := fun c =>
      frame_afterYield (by simp)
    have hpages : Part.files ∉ ({.pages} : Set Part) := by simp
    -- Only the two reads that can block end in a `proc_read` that moves the position.
    cases call with
    | pipeRead g i buf size =>
      refine (keeps_file (hafter _) hpages).bind fun _ => ?_
      refine (keeps_file (S := {Part.files}ᶜ) (frame_pipeReadLoopTop (by simp)) (by simp)).bind fun n => ?_
      exact hread g n fun hg => hcall (congrArg some hg)
    | uartRead g buf size =>
      refine (keeps_file (hafter _) hpages).bind fun _ => ?_
      refine (keeps_file (S := {.uart}) (frame_uartReadline (by simp)) (by simp)).bind fun n => ?_
      exact hread g n fun hg => hcall (congrArg some hg)
    | pipeWrite =>
      refine (keeps_file (hafter _) hpages).bind fun _ => ?_
      refine (keeps_file (S := {Part.files}ᶜ) (frame_pipeWriteResume (by simp) (by simp))
        (by simp)).bind fun n => ?_
      exact keeps_file (frame_writeTail.bind fun _ => frame_syscallTail) (Set.notMem_empty _)
    | forkret =>
      exact keeps_file (Frame.bind (Frame.of_rest fun _ => rfl) fun _ => frame_release) (Set.notMem_empty _)
    | timerTick => exact .pure
    | exited => exact keeps_file frame_syscallTail (Set.notMem_empty _)
    | waitChild =>
      refine keeps_file ((hchildren _).bind fun _ => Frame.get.bind fun k => ?_) hpages
      exact frame_record.bind fun _ => frame_syscallTail
    | waitCond | sleep => exact keeps_file ((hchildren _).bind fun _ => frame_syscallTail) hpages
  exact congrArg File.position (hkeeps _ h k)

/-- A read through `f` while it is open on a file does not block. -/
theorem procRead_away (hk : Calm p k) (h : OnFile f j s k) (hr : procRead p fd buf size k = .error .switch k') :
    (k'.procs p).ctx.reads ≠ some f := by
  rw [procRead] at hr
  rcases bind_eq_error.1 hr with hr | ⟨o, k₁, h₁, hr⟩
  · exact (SwitchesTo.of_still still_fileOf : SwitchesTo p (fun _ => False) _) k hk k' hr |>.elim
  obtain ⟨rfl, i, hi, ho⟩ := fileOf_ok h₁
  cases o with
  | none => cases hr
  | some g =>
    dsimp only at hr
    rw [get_bind_apply] at hr
    split at hr
    · cases hr
    by_cases hg : g = f
    · subst hg
      have hstill : SwitchesTo p (fun _ => False) (do
          readTail p g (← bifsRead g (k₁.files g).position (va2pa k₁ (k₁.procs p).upagetable buf)
            size) : KM cfg ℤ) :=
        .of_still (still_bifsRead.bind fun _ => still_readTail)
      refine (hstill k₁ hk k' ?_).elim
      rcases bind_eq_error.1 hr with hr | ⟨n, k₂, h₂, hr⟩
      · exact bind_error ((fsRead_eq _ _ _ _ h.read).symm.trans hr)
      · exact (bind_ok ((fsRead_eq _ _ _ _ h.read).symm.trans h₂)).trans hr
    · have hread : InRead p g k' :=
        (away_fsRead.bind yields_fsRead fun n => .of_still still_readTail) k₁ hk k' hr
      rw [hread.reads]
      exact fun hf => hg (Option.some.inj hf)

/-! ## Reads under way -/

/-- A read through `f` is blocked in the slot `q`: the process sleeps, or is ready
    to go on with it. -/
def BlockedRead (f : FileRef) (q : Slot cfg) (k : Kernel cfg) : Prop :=
  ((k.procs q).state = .sleeping ∨ (k.procs q).state = .ready) ∧ (k.procs q).ctx.reads = some f

instance (f : FileRef) (q : Slot cfg) (k : Kernel cfg) : Decidable (BlockedRead f q k) :=
  inferInstanceAs (Decidable (_ ∧ _))

/-- No process goes on with a read through `f`. What the process goes on with that is
    in user mode does not matter: it was in the kernel for the last time with it. -/
def NoneReads (f : FileRef) (m : Machine cfg) : Prop :=
  Within (fun q _ => m.mode = .user → m.k.cpuProc ≠ some q) (fun x => x.reads ≠ some f) m.k.core

/-- A process that has exited goes on with no read. -/
theorem gone_reads (h : Reach (machine cfg) free m) (hm : ∀ why, m.mode ≠ .halted why) :
    Within (fun _ x => x.isGone) (fun x => x.reads = none) m.k.core := by
  have hsleeping : ¬PState.sleeping.isGone := by simp [PState.isGone]
  refine kernel_of_reach_running (I := fun k => Within (fun _ x => x.isGone) (fun x => x.reads = none) k.core)
    (fun {mem k} hk => ?_) (fun hb hI _ hs => ?_) h hm
  · have hinit : Within (fun _ x => x.isGone) (fun x => x.reads = none) (Core.init cfg) := fun _ _ => rfl
    have hresult := boot_result cfg mem
    rw [boot, hk] at hresult
    rcases hresult with ⟨p, frame, frame', hc, -, -⟩ | ⟨e, he, -, -⟩
    · have hfresh : Within (fun _ x => x.isGone) (fun x => x.reads = none)
          (((Core.init cfg).newPid p).fresh p frame) := hinit.fresh .gone rfl
      have hframe := hfresh.update (q := p)
        (f := fun x => { x with trap := frame' }) (fun _ => rfl) fun _ => .inl rfl
      exact hc ▸ hframe
    · cases he
  · cases hs with
    | aside _ ha => exact hI.aside .gone Kont.reads_plain ha
    | plic _ _ _ hw => exact hI.wakes .gone hw
    | resume _ _ _ heff _ hcore _ =>
      rw [hcore]
      exact (hI.resume .gone (fun _ hp => absurd hp hsleeping) heff).after
    | @call p c how k₁ _ _ _ _ hend heff _ hcore =>
      have hhalt : how ≠ .halt := by cases hend <;> simp
      rw [hcore]
      exact (Within.call (k := (trap _).entry p) hI .gone Kont.reads_plain hhalt
        (fun _ hp => absurd hp hsleeping) heff).after

/-- Where no read through `f` is blocked, none goes on, unless it is that of the
    process in user mode. -/
theorem noneReads_of_not_blocked (h : Reach (machine cfg) free m) (hmode : m.mode = .user)
    (hun : ∀ q, ¬BlockedRead f q m.k) : NoneReads f m := by
  intro q hq
  have hat := (base_of_reach h).at_
  rw [hmode] at hat
  obtain ⟨p, hp, -⟩ := hat
  have hqp : q ≠ p := by
    rintro rfl
    exact hq hmode hp.cpu
  have hgone := gone_reads h (by simp [hmode]) q
  cases hstate : (m.k.core.procs q).state with
  | running => exact absurd hstate (hp.only q hqp)
  | sleeping => exact fun hreads => hun q ⟨.inl hstate, hreads⟩
  | ready => exact fun hreads => hun q ⟨.inr hstate, hreads⟩
  | zombie | available =>
    rw [hstate] at hgone
    rw [hgone (by simp [PState.isGone])]
    simp

/-- A process in user mode is interrupted, or makes a call: then it is back in user
    mode, or nobody is on the CPU. -/
theorem user_or_off {e : Event cfg} (hmode : m.mode = .user) (h : step e m = some m')
    (hm : ∀ why, m'.mode ≠ .halted why) : m'.mode = .user ∨ m'.k.cpuProc = none := by
  -- Code of a process ends in user mode, or by a switch to the scheduler.
  have hout : ∀ {γ : Type} (r : EStateM.Result (Stop cfg) (Kernel cfg) γ),
      (∀ why, (outcome r).mode ≠ .halted why) →
      (outcome r).mode = .user ∨ (outcome r).k.cpuProc = none := by
    intro γ r hr
    cases r with
    | ok a k => exact .inl rfl
    | error e k =>
      cases e with
      | switch =>
        rw [outcome] at hr ⊢
        cases hcpu : k.cpuProc with
        | none =>
          simp only [hcpu] at hr
          exact absurd rfl (hr .switch)
        | some p => exact .inr rfl
      | _ => exact absurd rfl (hr _)
  cases e with
  | exec hart stores | time ticks | overlay o =>
    simp only [step, hmode, Option.some.injEq] at h
    subst h
    exact .inl rfl
  | exception =>
    simp only [step, hmode, Option.some.injEq] at h
    subst h
    exact absurd rfl (hm .hang)
  | ecall =>
    simp only [step, hmode, Option.some.injEq] at h
    subst h
    rw [ecallStep] at hm ⊢
    cases hcpu : m.k.cpuProc with
    | none =>
      simp only [hcpu] at hm
      exact absurd rfl (hm .panic)
    | some p =>
      simp only [hcpu] at hm
      exact hout _ hm
  | tick =>
    simp only [step, hmode, Option.some.injEq] at h
    subst h
    rw [tickStep] at hm ⊢
    cases hcpu : m.k.cpuProc with
    | none => exact .inr hcpu
    | some p =>
      simp only [hcpu] at hm
      exact hout _ hm
  | plic received =>
    simp only [step, hmode, Option.some.injEq] at h
    subst h
    rw [plicStep] at hm ⊢
    cases hr : uartEnqueueChars received (trap m) with
    | ok a k => exact .inl hmode
    | error e k =>
      rw [hr] at hm
      exact absurd rfl (hm e)
  | kernel => simp [step, hmode] at h

/-! ## Runs -/

/-- The process on the CPU calls `read` through `f`: the address of the buffer, and
    its size. -/
def readThrough (f : FileRef) (m : Machine cfg) : Option (ℕ × ℕ) :=
  m.k.cpuProc.bind fun p =>
    match callOf (trap m) p with
    | some (.read fd buf size) =>
      if (∃ i : Fin maxProcFds, fd = i ∧ (m.k.procs p).files i = some f) ∧
        va2pa m.k (m.k.procs p).upagetable buf ≠ 0
      then some (va2pa m.k (m.k.procs p).upagetable buf, size)
      else none
    | _ => none

/-- What a call of `read` has returned in the buffer. -/
def chunk (m : Machine cfg) (buf : ℕ) : List UInt8 := loadBytes m.k.mem buf (m.hart.regs TrapFrame.a0)

/-- A run in which the file object `f` stays open on the file `j` with the text `s`:
    the sizes that are asked for in the calls of `read` through it, and the chunks
    that they return. -/
inductive ReadRun (f : FileRef) (j : Fin bifsMaxFiles) (s : List UInt8) (m₀ : Machine cfg) :
    List ℕ → List (List UInt8) → Machine cfg → Prop
  | start : ReadRun f j s m₀ [] [] m₀
  | read {sizes : List ℕ} {chunks : List (List UInt8)} {m m' : Machine cfg} {buf size : ℕ} :
      ReadRun f j s m₀ sizes chunks m → readThrough f m = some (buf, size) → step .ecall m = some m' →
      m'.mode = .user → ReadRun f j s m₀ (sizes ++ [size]) (chunks ++ [chunk m' buf]) m'
  | other {sizes : List ℕ} {chunks : List (List UInt8)} {m m' : Machine cfg} {e : Event cfg} :
      ReadRun f j s m₀ sizes chunks m → step e m = some m' → (e = .ecall → readThrough f m = none) →
      (∀ why, m'.mode ≠ .halted why) → OnFile f j s m'.k → ReadRun f j s m₀ sizes chunks m'

/-- The process on the CPU opens a file, and gets a descriptor of `f`. -/
structure Opening (f : FileRef) (m m' : Machine cfg) : Prop where
  user : m.mode = .user
  step : HobbyOs.step .ecall m = some m'
  returns : m'.mode = .user
  opens : ∃ p path fd, m.k.cpuProc = some p ∧ callOf (trap m) p = some (.open path) ∧
    (m.k.procs p).files fd = none ∧ (m'.k.procs p).files fd = some f

theorem readThrough_eq_some {size : ℕ} (h : readThrough f m = some (buf, size)) :
    ∃ p va, ∃ i : Fin maxProcFds, m.k.cpuProc = some p ∧ callOf (trap m) p = some (.read i va size) ∧
      (m.k.procs p).files i = some f ∧ buf = va2pa m.k (m.k.procs p).upagetable va ∧ buf ≠ 0 := by
  obtain ⟨p, hp, h⟩ := Option.bind_eq_some_iff.1 h
  split at h
  · rename_i fd va size' hc
    split at h
    · rename_i hcond
      obtain ⟨⟨i, rfl, hi⟩, hbuf⟩ := hcond
      cases h
      exact ⟨p, va, i, hp, hc, hi, rfl, hbuf⟩
    · cases h
  · cases h

theorem not_readsFile {c : Call} (h : readThrough f m = none) (hp : m.k.cpuProc = some p)
    (hc : callOf (trap m) p = some c) : ¬ReadsFile p ((trap m).entry p) f c := by
  intro hread
  cases c with
  | read fd buf size =>
    obtain ⟨i, hi, hfile, hbuf⟩ := hread
    rw [readThrough, hp, Option.bind_some, hc] at h
    dsimp only at h
    rw [if_pos ⟨⟨i, hi, hfile⟩, hbuf⟩] at h
    cases h
  | _ => exact hread

theorem reg_of_lt {n : ℕ} (hx : cfg.xlen = 32 ∨ cfg.xlen = 64) (h : n < 2 ^ 32) : cfg.reg n = n := by
  rw [Config.reg]
  rcases hx with hx | hx
  · rw [hx]
    omega
  · rw [hx]
    omega

/-- What `n` characters of the text leave. -/
theorem drop_min (s : List UInt8) (n : ℕ) : s.drop (min n s.length) = s.drop n := by
  rcases Nat.le_total n s.length with hle | hle
  · rw [min_eq_left hle]
  · rw [min_eq_right hle, List.drop_length, List.drop_eq_nil_of_le hle]

theorem min_add_length (s : List UInt8) (n size : ℕ) :
    min n s.length + ((s.drop n).take size).length = min (n + size) s.length := by
  rw [List.length_take, List.length_drop]
  omega

/-- Where the reads through `f` have come to. -/
structure ReadUpTo (f : FileRef) (j : Fin bifsMaxFiles) (s : List UInt8) (sizes : List ℕ)
    (chunks : List (List UInt8)) (m : Machine cfg) : Prop where
  reach : Reach (machine cfg) free m
  onFile : OnFile f j s m.k
  position : (m.k.files f).position = min sizes.sum s.length
  chunks : chunks.flatten = s.take sizes.sum
  noneReads : NoneReads f m

/-- What a call of `read` through `f` does. -/
structure Reads (f : FileRef) (m m' : Machine cfg) (buf : ℕ) (bytes : List UInt8) : Prop where
  kernel : ∃ p, m'.k = { ((trap m).entry p).delivered f buf bytes with trapFrame := m'.hart }
  result : m'.hart.regs TrapFrame.a0 = cfg.reg bytes.length

namespace ReadUpTo

variable {sizes : List ℕ} {chunks : List (List UInt8)}

theorem reading (h : ReadUpTo f j s sizes chunks m) (hr : readThrough f m = some (buf, size))
    (hs : step .ecall m = some m') (hu : m'.mode = .user) :
    Reads f m m' buf ((s.drop sizes.sum).take size) := by
  obtain ⟨p, va, i, hp, hc, hi, rfl, hbuf⟩ := readThrough_eq_some hr
  have hmode : m.mode = .user := by
    by_contra hne
    cases hm : m.mode with
    | user => exact hne hm
    | _ => simp [HobbyOs.step, hm] at hs
  simp only [HobbyOs.step, hmode, Option.some.injEq] at hs
  have hon : OnFile f j s ((trap m).entry p) :=
    ⟨h.onFile.inUse, h.onFile.fsFile, h.onFile.read, h.onFile.content⟩
  have hpos : (((trap m).entry p).files f).position = min sizes.sum s.length := h.position
  have hread := procRead_apply p size hon hi hbuf (hpos ▸ min_le_right _ _)
  rw [hpos, drop_min] at hread
  have hstep := ecallStep_eq hp hc hread
  rw [hs] at hstep
  rw [hstep] at hu
  rw [outcome_syscallTail hu] at hstep
  subst hstep
  exact ⟨⟨p, rfl⟩, by simp [TrapFrame.set]⟩

/-- A read. -/
theorem read (h : ReadUpTo f j s sizes chunks m) (hx : cfg.xlen = 32 ∨ cfg.xlen = 64)
    (hlen : s.length < 2 ^ 32)
    (hr : readThrough f m = some (buf, size)) (hs : step .ecall m = some m') (hu : m'.mode = .user) :
    ReadUpTo f j s (sizes ++ [size]) (chunks ++ [chunk m' buf]) m' := by
  have hreads := h.reading hr hs hu
  obtain ⟨p, hk⟩ := hreads.kernel
  have hsum : (sizes ++ [size]).sum = sizes.sum + size := by simp
  have hfile : m'.k.files f = { m.k.files f with
      position := u32 ((m.k.files f).position + ((s.drop sizes.sum).take size).length) } := by
    rw [hk]
    exact Function.update_self _ _ _
  -- Nothing wraps around: the file is shorter than 2^32.
  have hshort : ((s.drop sizes.sum).take size).length ≤ s.length := by
    rw [List.length_take, List.length_drop]
    omega
  refine ⟨h.reach.step trivial hs, ⟨?_, ?_, ?_, ?_⟩, ?_, ?_, ?_⟩
  · rw [hfile]
    exact h.onFile.inUse
  · rw [hfile]
    exact h.onFile.fsFile
  · rw [hfile]
    exact h.onFile.read
  · rw [hk]
    exact h.onFile.content
  · have hle : min sizes.sum s.length + ((s.drop sizes.sum).take size).length < 2 ^ 32 := by
      rw [min_add_length]
      exact (min_le_right _ _).trans_lt hlen
    rw [hfile, hsum, ← min_add_length]
    dsimp only
    rw [h.position]
    exact u32_add hle
  · have hchunk : chunk m' buf = (s.drop sizes.sum).take size := by
      have hreg : cfg.reg ((s.drop sizes.sum).take size).length = ((s.drop sizes.sum).take size).length :=
        reg_of_lt hx (hshort.trans_lt hlen)
      rw [chunk, hreads.result, hreg, hk]
      exact loadBytes_storeBytes _ _ _
    rw [List.flatten_append, h.chunks, hchunk, hsum, List.take_add]
    simp
  · intro q hq
    have hcpu := hq hu
    rw [hk] at hcpu ⊢
    exact h.noneReads q fun _ => hcpu

/-- Any other step. -/
theorem other {e : Event cfg} (h : ReadUpTo f j s sizes chunks m) (hs : step e m = some m')
    (he : e = .ecall → readThrough f m = none) (hm : ∀ why, m'.mode ≠ .halted why)
    (hon : OnFile f j s m'.k) :
    ReadUpTo f j s sizes chunks m' := by
  have hb := base_of_reach h.reach
  have hplain : ∀ x : Kont cfg, x.isPlain = true → x.reads ≠ some f := by
    intro x hx
    rw [x.reads_plain hx]
    simp
  have hfile : ∀ {k k' : Kernel cfg}, Part.files.Same k k' → (k'.files f).position = (k.files f).position :=
    fun hsame => congrArg (fun fs => (fs f).position) hsame
  -- The process in user mode stays on the CPU, or leaves it with something else to go on with.
  obtain ⟨hpos, hkept, hown⟩ : (m'.k.files f).position = (m.k.files f).position ∧
      Within (fun q _ => m.mode = .user → m.k.cpuProc ≠ some q) (fun x => x.reads ≠ some f) m'.k.core ∧
      ∀ q, m.mode = .user → m.k.cpuProc = some q →
        m'.k.core.cpuProc = some q ∨ (m'.k.core.procs q).ctx.reads ≠ some f := by
    have hmeant : Meant fun (q : Slot cfg) _ => m.mode = .user → m.k.cpuProc ≠ some q := .slots _
    have hstep := step_kernelStep hb hs hm
    generalize m'.k = k' at hstep
    cases hstep with
    | aside hsame ha =>
      refine ⟨hfile (hsame .files), h.noneReads.aside hmeant hplain ha, fun q hu hcpu => ?_⟩
      generalize k'.core = t at ha
      cases ha with
      | same | time | overlay => exact .inl hcpu
      | preempt hp =>
        obtain rfl := Option.some.inj (hcpu.symm.trans hp.cpu)
        exact .inr (by simp [Core.after, Kont.reads])
      | run hoff _ _ =>
        have hat := hb.at_
        rw [hu] at hat
        obtain ⟨p, hp, -⟩ := hat
        exact absurd hp.running (hoff p)
    | plic _ _ hsame hw =>
      exact ⟨hfile (hsame .files (by simp)), h.noneReads.wakes hmeant hw, fun q _ hcpu =>
        .inl (hw.rest.2.2.1.trans hcpu)⟩
    | @resume p how k₁ _ hp hmode hend heff hsame hcore _ =>
      have hreads : (m.k.procs p).ctx.reads ≠ some f := h.noneReads p fun hu => by
        rw [hmode] at hu
        cases hu
      have hfree : ∀ l ∈ others p, m.k.held l = false := by
        have hat := hb.at_
        rw [hmode] at hat
        exact hat.2.1
      have hcalm : Calm p m.k := ⟨hfree, by rw [hp.running]; decide⟩
      have hmoved : (k₁.files f).position = (m.k.files f).position := by
        have hresume := position_resume hreads
        cases hend with
        | back hr | away hr =>
          rw [hr] at hresume
          exact hresume
      refine ⟨(hfile (hsame .files)).trans hmoved, ?_, fun q hu => by rw [hmode] at hu; cases hu⟩
      rw [hcore]
      refine (h.noneReads.resume hmeant (fun hhow _ => ?_) heff).after
      subst hhow
      cases hend with
      | away hr =>
        show (k₁.procs p).ctx.reads ≠ some f
        rcases resume_blocks hcalm (hb.lineal p) hr with ⟨g, hg, hin⟩ | ⟨-, hin⟩
        · rw [hin.reads, ← hg]
          exact hreads
        · rw [hin.reads]
          simp
    | @call p c how k₁ _ hp hcalm hc hend heff hsame hcore =>
      have hentry : OnFile f j s ((trap m).entry p) :=
        ⟨h.onFile.inUse, h.onFile.fsFile, h.onFile.read, h.onFile.content⟩
      have hmoved :=
        position_call hcalm hp.cpu (hb.lineal p) hentry.inUse (not_readsFile (he rfl) hp.cpu hc) hend heff
      have hhalt : how ≠ .halt := by cases hend <;> simp
      have haway : how = .away → (k₁.core.procs p).ctx.reads ≠ some f := by
        rintro rfl
        cases hend with
        | away hr =>
          cases ht : c.isTransfer with
          | false =>
            rw [heff.reads_none ht]
            simp
          | true =>
            cases c with
            | read fd buf size => exact procRead_away hcalm hentry hr
            | write fd buf size =>
              show (k₁.procs p).ctx.reads ≠ some f
              rw [(away_procWrite _ hcalm _ hr).reads]
              simp
            | _ => cases ht
      refine ⟨(hfile (hsame .files)).trans hmoved, ?_, fun q _ hcpu => ?_⟩
      · rw [hcore]
        exact (Within.call (k := (trap m).entry p) h.noneReads hmeant hplain hhalt (fun hhow _ => haway hhow)
          heff).after
      · obtain rfl := Option.some.inj (hcpu.symm.trans hp.cpu)
        rw [hcore]
        cases how with
        | back => exact .inl ((Lawful.of_call heff).cpu.trans hp.cpu)
        | away => exact .inr (haway rfl)
        | halt => exact absurd rfl hhalt
  refine ⟨h.reach.step trivial hs, hon, hpos.trans h.position, h.chunks, fun q hq => ?_⟩
  by_cases huser : m.mode = .user ∧ m.k.cpuProc = some q
  · rcases hown q huser.1 huser.2 with hcpu | hreads
    · rcases user_or_off huser.1 hs hm with hmode | hoff
      · exact absurd hcpu (hq hmode)
      · exact absurd (hoff.symm.trans hcpu) (by simp)
    · exact hreads
  · exact hkept q fun hu hcpu => huser ⟨hu, hcpu⟩

theorem of_run (h : Reach (machine cfg) free m₀) (hx : cfg.xlen = 32 ∨ cfg.xlen = 64)
    (hlen : s.length < 2 ^ 32)
    (hon : OnFile f j s m₀.k) (hpos : (m₀.k.files f).position = 0) (hun : NoneReads f m₀)
    (hrun : ReadRun f j s m₀ sizes chunks m) :
    ReadUpTo f j s sizes chunks m := by
  induction hrun with
  | start => exact ⟨h, hon, by simpa using hpos, by simp, hun⟩
  | read _ hr hs hu ih => exact ih.read hx hlen hr hs hu
  | other _ hs he hm hon ih => exact ih.other hs he hm hon

end ReadUpTo

/-- A file object that was opened has not been read from. -/
theorem Opening.position {m m' : Machine cfg} (h : Reach (machine cfg) free m) (ho : Opening f m m') :
    (m'.k.files f).position = 0 := by
  obtain ⟨p, path, fd, hp, hc, hnone, hfd⟩ := ho.opens
  have hs := ho.step
  simp only [HobbyOs.step, ho.user, Option.some.injEq] at hs
  have hstep := step_kernelStep (base_of_reach h) ho.step (by simp [ho.returns])
  generalize m'.k = k' at hstep hfd ⊢
  cases hstep with
  | aside hsame _ =>
    have hfds : (k'.procs p).files = (m.k.procs p).files := hsame .fds p
    rw [hfds, hnone] at hfd
    cases hfd
  | @call p' c how k₁ _ hp' _ hc' hend heff hsame _ =>
    obtain rfl : p' = p := Option.some.inj (hp'.cpu.symm.trans hp)
    obtain rfl : c = .open path := Option.some.inj (hc'.symm.trans hc)
    cases hend with
    | away _ => exact (heff.not_away rfl (by simp) (by simp) (by simp)).elim
    | back hr =>
      have hfiles : k'.files = k₁.files := hsame .files
      have hfds : (k'.procs p').files = (k₁.procs p').files := hsame .fds p'
      rw [hfiles]
      exact procOpen_position hr hnone (hfds ▸ hfd)

/-- The reads of a file object partition the text of its file. From when it was
    opened, and while it stays open on a file that is not temporary, whatever
    processes read through it and whatever else happens, the chunks that the reads
    have returned make up as much of the text as they have asked for together;
    when that is all of it, a read returns nothing.

    No read is blocked through the file object when it is opened; and the position,
    which is a `uint32_t`, can count the characters of the text. -/
theorem reads_partition {m₁ : Machine cfg} {sizes : List ℕ} {chunks : List (List UInt8)}
    (h : Reach (machine cfg) free m) (hx : cfg.xlen = 32 ∨ cfg.xlen = 64) (ho : Opening f m m₀)
    (hon : OnFile f j s m₀.k) (hlen : s.length < 2 ^ 32) (hun : ∀ q, ¬BlockedRead f q m₀.k)
    (hrun : ReadRun f j s m₀ sizes chunks m₁) :
    chunks.flatten = s.take (min sizes.sum s.length) ∧
      ∀ buf size m', readThrough f m₁ = some (buf, size) → step .ecall m₁ = some m' →
      m'.mode = .user →
        s.length ≤ sizes.sum → m'.hart.regs TrapFrame.a0 = 0 := by
  have hnone : NoneReads f m₀ := noneReads_of_not_blocked (h.step trivial ho.step) ho.returns hun
  have hupto := ReadUpTo.of_run (h.step trivial ho.step) hx hlen hon (ho.position h) hnone hrun
  refine ⟨?_, fun buf size m' hr hs hu hend => ?_⟩
  · rw [hupto.chunks, ← List.take_eq_take_min]
  · rw [(hupto.reading hr hs hu).result, List.drop_eq_nil_of_le hend, List.take_nil]
    exact reg_of_lt hx (by decide : (0 : ℕ) < 2 ^ 32)

/-- The first process opens a file of the root directory. -/
def openReadme : List (Event .qemuE) :=
  [Event.kernel, .kernel,
    .exec (callRegs 0x80003ff0 5 0x80003e00 0 0) [(0x80003e00, ascii "/readme.txt" ++ [0])]]

/-- It reads from the file. -/
def readReadme (size : ℕ) : Event .qemuE := .exec (callRegs 0x80003ff0 3 3 0x80003e80 size) []

instance (f : FileRef) (j : Fin bifsMaxFiles) (s : List UInt8) (k : Kernel cfg) : Decidable (OnFile f j s k) :=
  decidable_of_iff ((k.files f).refcount ≠ 0 ∧ (k.files f).fsFile = .bifs j ∧ (k.files f).read = .bifs ∧
    content k j = some s) ⟨fun ⟨hu, hf, hr, hc⟩ => ⟨hu, hf, hr, hc⟩, fun ⟨hu, hf, hr, hc⟩ =>
    ⟨hu, hf, hr, hc⟩⟩

theorem callOf_open {m : Machine cfg} {p : Slot cfg} (hover : ¬stackOverflow ((trap m).entry p) p)
    (h : m.hart.regs TrapFrame.a7 = 5) : callOf (trap m) p = some (.open (m.hart.regs TrapFrame.a0)) := by
  rw [callOf, if_neg hover, decodeCall]
  dsimp only [trap]
  rw [h]
  rfl

/-- What is to be checked of a run in which the first process opens the file (`m₀`),
    reads from it twice (in `m₁` and in `m₂`), and is about to read again. -/
def ReadsReadme (f : FileRef) (m₀ m₁ m₂ m₃ : Machine .qemuE) : Prop :=
  (∀ q, ¬BlockedRead f q m₀.k) ∧ (∀ m ∈ [m₀, m₁, m₂, m₃], m.mode = .user ∧
    OnFile f 0 (ascii "Hello, I am File Zero.\n") m.k) ∧ readThrough f m₁ = some (0x80003e80, 5) ∧
    readThrough f m₂ = some (0x80003e80, 100) ∧ readThrough f m₃ = some (0x80003e80, 7)

instance (f : FileRef) (m₀ m₁ m₂ m₃ : Machine .qemuE) : Decidable (ReadsReadme f m₀ m₁ m₂ m₃) :=
  inferInstanceAs (Decidable (_ ∧ _))

/-- Two reads of a file of 23 characters. -/
theorem readme_partitioned : ∃ (m₃ m' : Machine .qemuE) (chunks : List (List UInt8)),
    chunks.flatten = (ascii "Hello, I am File Zero.\n").take (min [5, 100].sum 23) ∧
      step .ecall m₃ = some m' ∧ m'.hart.regs TrapFrame.a0 = 0 := by
  have h : ∃ m ∈ runFrom .qemuE openReadme, (m.mode = .user ∧ m.k.cpuProc = some ⟨0, by decide⟩ ∧
      m.hart.regs TrapFrame.a7 = 5 ∧
      ¬stackOverflow ((trap m).entry ⟨0, by decide⟩) ⟨0, by decide⟩ ∧
      (m.k.procs ⟨0, by decide⟩).files 3 = none) ∧ ∃ m₀ ∈ step .ecall m,
      (m₀.k.procs ⟨0, by decide⟩).files 3 = some (.ftable ⟨0, by decide⟩) ∧
      ∃ m₁ ∈ step (readReadme 5) m₀, ∃ m₁' ∈ step .ecall m₁, m₁'.mode = .user ∧
      ∃ m₂ ∈ step (readReadme 100) m₁', ∃ m₂' ∈ step .ecall m₂, m₂'.mode = .user ∧
      ∃ m₃ ∈ step (readReadme 7) m₂', ReadsReadme (.ftable ⟨0, by decide⟩) m₀ m₁ m₂ m₃ ∧
      ∃ m' ∈ step .ecall m₃, m'.mode = .user := by
    decide +kernel
  obtain ⟨m, hm, ⟨hmode, hcpu, ha7, hover, hnone⟩, m₀, hm₀, hfd, m₁, hm₁, m₁', hm₁',
    hmode₁', m₂, hm₂, m₂', hm₂', hmode₂',
    m₃, hm₃, ⟨hun, hall, hr₁, hr₂, hr₃⟩, m', hm', hmode'⟩ := h
  simp only [List.forall_mem_cons] at hall
  obtain ⟨⟨hmode₀, hon₀⟩, ⟨hmode₁, hon₁⟩, ⟨hmode₂, hon₂⟩,
    ⟨hmode₃, hon₃⟩, -⟩ := hall
  have hopen : Opening (.ftable ⟨0, by decide⟩) m m₀ :=
    ⟨hmode, hm₀, hmode₀, _, _, 3, hcpu, callOf_open hover ha7, hnone, hfd⟩
  have hrun₁ :=
    (ReadRun.start.other hm₁ (by simp [readReadme]) (by simp [hmode₁]) hon₁).read hr₁ hm₁' hmode₁'
  have hrun₂ :=
    (hrun₁.other hm₂ (by simp [readReadme]) (by simp [hmode₂]) hon₂).read hr₂ hm₂' hmode₂'
  have hrun := hrun₂.other hm₃ (by simp [readReadme]) (by simp [hmode₃]) hon₃
  obtain ⟨hchunks, hend⟩ :=
    reads_partition (reach_of_runFrom hm) (.inl rfl) hopen hon₀ (by decide) hun hrun
  exact ⟨m₃, m', _, hchunks, hm', hend _ _ m' hr₃ hm' hmode' (by decide)⟩

/-! ## A read that was blocked before -/

/-- The process on the CPU reads nothing through `f`. -/
def ReadsNothing (f : FileRef) (m : Machine cfg) : Event cfg → Prop
  | .ecall => readThrough f m = none
  | _ => True

instance (f : FileRef) (m : Machine cfg) : DecidablePred (ReadsNothing f m)
  | .ecall => inferInstanceAs (Decidable (_ = _))
  | .exec .. | .exception | .tick | .plic _ | .time _ | .overlay _ | .kernel => .isTrue trivial

/-- The kernel has not halted. -/
def Mode.runs : Mode cfg → Bool
  | .halted _ => false
  | _ => true

theorem Mode.runs_iff {mode : Mode cfg} : mode.runs = true ↔ ∀ why, mode ≠ .halted why := by
  cases mode <;> simp [Mode.runs]

instance (mode : Mode cfg) : Decidable (∀ why, mode ≠ .halted why) := decidable_of_iff _ Mode.runs_iff

/-- The machine after events that are no reads through `f`, if it stays open on the
    file `j`. -/
def runUnread (f : FileRef) (j : Fin bifsMaxFiles) (s : List UInt8) :
    List (Event cfg) → Machine cfg → Option (Machine cfg)
  | [], m => some m
  | e :: es, m => if ReadsNothing f m e then (step e m).bind fun m' =>
      if (∀ why, m'.mode ≠ .halted why) ∧ OnFile f j s m'.k then runUnread f j s es m' else none
    else none

theorem ReadRun.unread {sizes : List ℕ} {chunks : List (List UInt8)} {es : List (Event cfg)}
    (hrun : ReadRun f j s m₀ sizes chunks m) (h : runUnread f j s es m = some m') :
    ReadRun f j s m₀ sizes chunks m' := by
  induction es generalizing m with
  | nil =>
    cases h
    exact hrun
  | cons e es ih =>
    rw [runUnread] at h
    split at h
    · rename_i he
      obtain ⟨u, hu, h⟩ := Option.bind_eq_some_iff.1 h
      split at h
      · rename_i hon
        refine ih (hrun.other hu (fun hecall => ?_) hon.1 hon.2) h
        subst hecall
        exact he
      · cases h
    · cases h

/-- The first process forks a child and sleeps; the child forks another one, opens a
    pipe and exits, which closes the pipe. The other one exits and wakes the zombie,
    which reads from the descriptor that it no longer has, and blocks. -/
def zombieReads : List (Event .qemuE) :=
  [Event.kernel, .kernel] ++ calls 2 0 0 0 [] ++ calls 31 100 0 0 [] ++
    [Event.kernel, .kernel] ++ calls 2 0 0 0 [] ++ calls 29 0x80003c00 0 0 [] ++ calls 1 0 0 0 [] ++
    [Event.kernel, .kernel] ++ calls 1 0 0 0 [] ++ List.replicate 4 Event.kernel ++
    [Event.tick, .kernel, .kernel] ++ calls 3 3 0x80003c80 5 [] ++ List.replicate 5 Event.kernel

/-- A child of the first process is about to open a file. -/
def childOpens : List (Event .qemuE) :=
  zombieReads ++ calls 2 0 0 0 [] ++ [Event.tick, .kernel, .kernel, .kernel, .kernel] ++
    [Event.exec (callRegs 0x80003ff0 5 0x80003c00 0 0) [(0x80003c00, ascii "/readme.txt" ++ [0])]]

/-- The child opens a pipe, the one that was closed, and writes to it; the zombie gets
    the bytes, and the child is about to read from the file. -/
def childWrites : List (Event .qemuE) :=
  calls 29 0x80003c00 0 0 [] ++ calls 4 5 0x80003d00 5 [(0x80003d00, ascii "abcde")] ++
    [Event.tick, .kernel, .kernel, .kernel, .tick, .kernel, .kernel, .tick, .kernel, .kernel, .kernel] ++
    [Event.exec (callRegs 0x80003ff0 3 3 0x80003e00 5) []]

/-- A read that was blocked in a file object when it was closed moves the position of
    the file that it is opened on next. -/
theorem blocked_read_moves :
    ¬∀ (m m₀ m₁ : Machine .qemuE) (f : FileRef) (j : Fin bifsMaxFiles) (s : List UInt8)
    (sizes : List ℕ) (chunks : List (List UInt8)), Reach (machine .qemuE) free m → Opening f m m₀ →
    OnFile f j s m₀.k → s.length < 2 ^ 32 → ReadRun f j s m₀ sizes chunks m₁ →
    chunks.flatten = s.take (min sizes.sum s.length) ∧
      ∀ buf size m', readThrough f m₁ = some (buf, size) → step .ecall m₁ = some m' →
      m'.mode = .user →
        s.length ≤ sizes.sum → m'.hart.regs TrapFrame.a0 = 0 := by
  intro hall
  have h : ∃ m ∈ runFrom .qemuE childOpens, (m.mode = .user ∧ m.k.cpuProc = some ⟨3, by decide⟩ ∧
      m.hart.regs TrapFrame.a7 = 5 ∧
      ¬stackOverflow ((trap m).entry ⟨3, by decide⟩) ⟨3, by decide⟩ ∧
      (m.k.procs ⟨3, by decide⟩).files 3 = none) ∧ ∃ m₀ ∈ step .ecall m, m₀.mode = .user ∧
      (m₀.k.procs ⟨3, by decide⟩).files 3 = some (.ftable ⟨0, by decide⟩) ∧
      OnFile (.ftable ⟨0, by decide⟩) 0 (ascii "Hello, I am File Zero.\n") m₀.k ∧
      ∃ m₁ ∈ runUnread (.ftable ⟨0, by decide⟩) 0 (ascii "Hello, I am File Zero.\n") childWrites m₀,
        readThrough (.ftable ⟨0, by decide⟩) m₁ = some (0x80003e00, 5) ∧
        ∃ m₂ ∈ step .ecall m₁, m₂.mode = .user ∧ chunk m₂ 0x80003e00 = ascii ", I a" := by
    decide +kernel
  obtain ⟨m, hm, ⟨hmode, hcpu, ha7, hover, hnone⟩, m₀, hm₀, hmode₀, hfd, hon, m₁, hm₁, hr, m₂,
    hm₂, hmode₂, hchunk⟩ := h
  have hopen : Opening (.ftable ⟨0, by decide⟩) m m₀ :=
    ⟨hmode, hm₀, hmode₀, _, _, 3, hcpu, callOf_open hover ha7, hnone, hfd⟩
  have hrun := (ReadRun.start.unread hm₁).read hr hm₂ hmode₂
  have hflat := (hall _ _ _ _ _ _ _ _ (reach_of_runFrom hm) hopen hon (by decide) hrun).1
  rw [hchunk] at hflat
  exact absurd hflat (by decide)

end HobbyOs
