import HobbyOs.FileObjects
import HobbyOs.Fifo

/-!
# The accounts of a pipe

Whatever the bytes, their number is right: along every run of reads and writes
after `pipe_open`, also with writing ends closed, what a pipe has accepted less
what it has delivered is what there is in the ring.

* `Pipe.occupancy`: what there is in the ring, by the positions and the flag;
* `Balanced`: the books balance; every step that does not free the pipe keeps
  it so (`Balanced.move`);
* `readOffsets` and `writeOffsets`: where the copy loops touch the buffer. The
  running pointers go past the end of the ring, but stay in the page;
* `pipe_accounting`: all of it, for every state of a run.
-/

namespace HobbyOs

open Outcome Transition

variable {cfg : Config} {p : Slot cfg} {i : Fin maxPipes} {f : FileRef} {k k₀ k₁ k' : Kernel cfg}

/-! ## Offsets -/

/-- The offsets of the buffer that the copy loop of `pipe_read` reads. -/
def readOffsets (cfg : Config) (wpos : ℕ) : (size rbuf rpos : ℕ) → List ℕ
  | 0, _, _ => []
  | size + 1, rbuf, rpos =>
    if ringNext cfg rpos = wpos then [rbuf]
    else rbuf :: readOffsets cfg wpos size (rbuf + 1) (ringNext cfg rpos)

/-- The offsets of the buffer that the copy loop of `pipe_do_write` writes. -/
def writeOffsets (cfg : Config) (rpos : ℕ) : (nbytes wbuf wpos : ℕ) → List ℕ
  | 0, _, _ => []
  | nbytes + 1, wbuf, wpos =>
    if ringNext cfg wpos = rpos then [wbuf]
    else wbuf :: writeOffsets cfg rpos nbytes (wbuf + 1) (ringNext cfg wpos)

/-- The bytes of a read are those at its offsets. -/
theorem pipeReadLoop_offsets (page : ℕ → UInt8) (wpos size rbuf rpos : ℕ) :
    (pipeReadLoop cfg page wpos size rbuf rpos).1 = (readOffsets cfg wpos size rbuf rpos).map page := by
  induction size generalizing rbuf rpos with
  | zero => rfl
  | succ size ih =>
    rw [pipeReadLoop, readOffsets]
    split
    · rfl
    · simp [ih]

/-- A write changes the page at its offsets only. -/
theorem pipeWriteLoop_offsets (rpos : ℕ) (bs : List UInt8) (page : ℕ → UInt8) (wbuf wpos a : ℕ)
    (ha : a ∉ writeOffsets cfg rpos bs.length wbuf wpos) :
    (pipeWriteLoop cfg rpos bs page wbuf wpos).1 a = page a := by
  induction bs generalizing page wbuf wpos with
  | nil => rfl
  | cons b bs ih =>
    rw [List.length_cons, writeOffsets] at ha
    rw [pipeWriteLoop]
    split at ha
    · rename_i hnext
      have hne : a ≠ wbuf := by simpa using ha
      simp [hnext, hne]
    · rename_i hnext
      obtain ⟨hne, ha⟩ := not_or.1 fun h => ha (List.mem_cons.2 h)
      simp only [hnext, if_false]
      rw [ih _ _ _ ha, Function.update_of_ne hne]

/-- A copy goes from where it starts, and at most once round. -/
theorem readOffsets_lt {wpos rpos : ℕ} (hw : wpos < cfg.pipeBufSize) (hr : rpos < cfg.pipeBufSize)
    {size rbuf a : ℕ} (ha : a ∈ readOffsets cfg wpos size rbuf rpos) :
    a < rbuf + Ring.dist cfg.pipeBufSize rpos wpos := by
  have hnext : ∀ pos, ringNext cfg pos = Ring.next cfg.pipeBufSize pos := fun _ => rfl
  induction size generalizing rbuf rpos with
  | zero => cases ha
  | succ size ih =>
    have hpos := Ring.dist_pos (b := wpos) hr
    rw [readOffsets] at ha
    split at ha
    · obtain rfl := List.mem_singleton.1 ha
      omega
    · rename_i hne
      rw [hnext] at hne ha
      have hd := Ring.dist_next hr hw hne
      rcases List.mem_cons.1 ha with rfl | ha
      · omega
      · have := ih (Ring.next_lt hr) ha
        omega

/-- Both copy loops touch the same offsets, but for the roles of the positions. -/
theorem writeOffsets_eq (rpos nbytes wbuf wpos : ℕ) :
    writeOffsets cfg rpos nbytes wbuf wpos = readOffsets cfg rpos nbytes wbuf wpos := by
  induction nbytes generalizing wbuf wpos with
  | zero => rfl
  | succ nbytes ih => rw [writeOffsets, readOffsets, ih]

/-- Twice round is within a page. -/
theorem offset_lt_pageSize {pos pos' size a : ℕ} (h : pos < cfg.pipeBufSize) (h' : pos' < cfg.pipeBufSize)
    (ha : a ∈ readOffsets cfg pos' size pos pos) : a < cfg.pageSize := by
  have hlt := readOffsets_lt h' h ha
  have hle : Ring.dist cfg.pipeBufSize pos pos' ≤ cfg.pipeBufSize := Ring.dist_le h'
  have hsize : cfg.pipeBufSize * 4 ≤ cfg.pageSize := Nat.div_mul_le_self _ _
  omega

/-! ## The balance -/

/-- What there is in the ring: all of it, or what is between the positions. -/
def Pipe.occupancy (cfg : Config) (q : Pipe) : ℕ :=
  if q.bufFull then cfg.pipeBufSize else (q.wpos + cfg.pipeBufSize - q.rpos) % cfg.pipeBufSize

theorem Pipe.Ok.fill_eq_occupancy {q : Pipe} (h : q.Ok cfg) : q.fill cfg = q.occupancy cfg := by
  have hr := h.rpos
  have hw := h.wpos
  rw [Pipe.fill, Pipe.room, Pipe.occupancy]
  split
  · rfl
  · rw [Ring.dist]
    split
    · rw [Nat.mod_eq_of_lt (by omega)]
      omega
    · rcases Nat.eq_or_lt_of_le (Nat.le_of_not_lt ‹_›) with heq | hlt
      · simp [heq]
      · rw [show q.wpos + cfg.pipeBufSize - q.rpos = q.wpos - q.rpos + cfg.pipeBufSize by omega,
          Nat.add_mod_right, Nat.mod_eq_of_lt (by omega)]
        omega

theorem Pipe.Empty.occupancy {q : Pipe} (h : q.Empty) : q.occupancy cfg = 0 := by
  simp [Pipe.occupancy, h.1, h.2]

theorem Pipe.Ok.empty_of_occupancy {q : Pipe} (h : q.Ok cfg) (h0 : q.occupancy cfg = 0) : q.Empty := by
  by_contra hne
  have hfill := h.fill_eq hne
  have hpos := Ring.dist_pos (b := q.wpos) h.rpos
  rw [h.fill_eq_occupancy] at hfill
  omega

/-- What the pipe has accepted since it was opened is as much as what it has
    delivered and what is in the ring. -/
def Balanced (i : Fin maxPipes) (k₀ k : Kernel cfg) : Prop :=
  ∃ new, k.io = new ++ k₀.io ∧
    (acceptedBytes i new).length = (deliveredBytes i new).length + (k.pipes i).fill cfg

namespace Balanced

theorem of_ring (h : Balanced i k₀ k) (hp : (k'.pipes i).fill cfg = (k.pipes i).fill cfg)
    (hio : k'.io = k.io) : Balanced i k₀ k' := by
  obtain ⟨new, hnew, hb⟩ := h
  exact ⟨new, hio.trans hnew, by rw [hp, hb]⟩

theorem data (h : Balanced i k₀ k) (hd : k'.data = k.data) : Balanced i k₀ k' :=
  h.of_ring (by rw [show k'.pipes = k.pipes from congrArg Prod.fst hd]) (congrArg (·.2.2.1) hd)

theorem takes {m : ℕ} (h : Balanced i k₀ k) (ht : Takes i m k k') (hok : (k.pipes i).Ok cfg)
    (hne : ¬(k.pipes i).Empty) (hm : m ≤ (k.pipes i).fill cfg) : Balanced i k₀ k' := by
  obtain ⟨new, hnew, hb⟩ := h
  obtain ⟨buf, hio⟩ := ht.io
  refine ⟨_ :: _ :: new, by rw [hio, hnew]; rfl, ?_⟩
  simp only [acceptedBytes, deliveredBytes, if_true, List.length_append, List.length_map,
    List.length_range, hb, ht.fill hok hne hm]
  omega

theorem puts {bytes : List UInt8} {n : ℕ} (h : Balanced i k₀ k) (hok : (k.pipes i).Ok cfg)
    (hf : (k.pipes i).bufFull = false) (hlen : bytes.length = min n ((k.pipes i).room cfg))
    (hp : Puts i bytes (decide ((k.pipes i).room cfg ≤ n)) k k') : Balanced i k₀ k' := by
  obtain ⟨new, hnew, hb⟩ := h
  obtain ⟨buf, hio⟩ := hp.io
  refine ⟨_ :: _ :: new, by rw [hio, hnew]; rfl, ?_⟩
  simp only [acceptedBytes, deliveredBytes, if_true, List.length_append, hb,
    Puts.fill hok hf hlen hp]
  omega

theorem read {buf size : ℕ} {r : EStateM.Result (Stop cfg) (Kernel cfg) ℤ} (h : Balanced i k₀ k)
    (hok : (k.pipes i).Ok cfg) (hr : ReadResult p f i buf size k r) : Balanced i k₀ (settle p r) := by
  cases hr with
  | eof _ _ => exact h
  | sleep _ _ hm _ _ _ hd => exact h.data (hd.trans hm.data)
  | take hne ht => exact h.takes ht hok hne (min_le_right _ _)

theorem write {buf nbytes nwritten : ℕ} {r : EStateM.Result (Stop cfg) (Kernel cfg) ℤ}
    (h : Balanced i k₀ k) (hok : (k.pipes i).Ok cfg) (hr : WriteResult p f i buf nbytes nwritten k r) :
    Balanced i k₀ (settle p r) := by
  cases hr with
  | none _ _ => exact h
  | wait _ _ _ hd => exact h.data hd
  | put hf hlen hp hm _ => exact (h.puts hok hf hlen hp).data hm.data
  | putWait hf hlen hroom hp hm _ _ _ _ hd =>
    rw [← decide_eq_true hroom] at hp
    exact (h.puts hok hf hlen hp).data (hd.trans hm.data)

end Balanced

/-- The event does not free the pipe: it is not the close of the last reading
    end. -/
def KeepsPipe (k : Kernel cfg) : PipeEvent cfg → Prop
  | .close f => ¬((k.files f).readable = true ∧ (k.files f).refcount = 0)
  | _ => True

instance (k : Kernel cfg) (e : PipeEvent cfg) : Decidable (KeepsPipe k e) :=
  match e with
  | .close f => inferInstanceAs (Decidable ¬((k.files f).readable = true ∧ (k.files f).refcount = 0))
  | .read .. | .write .. | .goOn _ | .wake _ | .run _ | .tick _ | .user _ | .refs .. => .isTrue trivial

/-- Marking the sleepers of a pipe, within its lock, leaves all pipes alone. -/
theorem PipeReady.mark_data (hk : PipeReady i k) {u : Unit}
    (h : procMarkForWakeup (.pipe i) (k.setHeld (.pipe i) true) = .ok u k') : k'.data = k.data := by
  obtain ⟨k₁, hmark, hm, -⟩ := hk.mark
  rw [hmark] at h
  cases h
  exact hm.data

/-- Closing an end leaves the ring alone, unless it is the last to read from. -/
theorem pipeCloseFile_ring (hk : PipeReady i k) (hf : (k.files f).fsFile = .pipe i)
    (hkeep : ¬((k.files f).readable = true ∧ (k.files f).refcount = 0)) (h : pipeCloseFile f k = .ok () k') :
    (k'.pipes i).fill cfg = (k.pipes i).fill cfg ∧ k'.io = k.io := by
  rw [pipeCloseFile, get_bind_apply, hf] at h
  obtain ⟨-, t, ht, rfl⟩ := withLock_eq_ok.1 h
  rw [get_bind_apply] at ht
  have hsame : ∀ {k₁ : Kernel cfg}, (k₁.pipes i).fill cfg = (k.pipes i).fill cfg → k₁.io = k.io →
      t.data = k₁.data → (t.pipes i).fill cfg = (k.pipes i).fill cfg ∧ t.io = k.io := by
    intro k₁ hfill hio hd
    refine ⟨?_, Eq.trans (congrArg (·.2.2.1) hd) hio⟩
    rw [show t.pipes = k₁.pipes from congrArg Prod.fst hd, hfill]
  by_cases hr : (k.files f).readable = true
  · have hcount : ¬(k.files f).refcount = 0 := fun h0 => hkeep ⟨hr, h0⟩
    rw [if_pos (show ((k.setHeld (.pipe i) true).files f).readable = true from hr)] at ht
    obtain ⟨_, t₁, h₁, ht⟩ := bind_eq_ok.1 ht
    rw [if_neg (show ¬((k.setHeld (.pipe i) true).files f).refcount = 0 from hcount)] at ht
    cases ht
    exact hsame rfl rfl (hk.mark_data h₁)
  · rw [if_neg (show ¬((k.setHeld (.pipe i) true).files f).readable = true from hr)] at ht
    split at ht
    · by_cases hcount : (k.files f).refcount = 0
      · rw [if_pos (show ((k.setHeld (.pipe i) true).files f).refcount = 0 from hcount)] at ht
        -- The pipe is marked as closed for writing; then as below.
        have hk' : PipeReady i (k.setPipe i { k.pipes i with writeClosed := true }) := by
          refine ⟨hk.pipe, hk.procTable, hk.pagedMemory, hk.sleepers, ?_, ?_, ?_, ?_⟩
          · simpa [Kernel.setPipe] using hk.wf
          · simpa [Kernel.setPipe] using hk.ok.rpos
          · simpa [Kernel.setPipe] using hk.ok.wpos
          · simpa [Kernel.setPipe] using hk.ok.full
        refine hsame ?_ ?_ (hk'.mark_data ht)
        · simp [Kernel.setPipe, Pipe.fill, Pipe.room]
        · rfl
      · rw [if_neg (show ¬((k.setHeld (.pipe i) true).files f).refcount = 0 from hcount)] at ht
        exact hsame rfl rfl (hk.mark_data ht)
    · cases ht
      exact hsame rfl rfl rfl

/-- Every step that does not free the pipe keeps the balance. -/
theorem Balanced.step {e : PipeEvent cfg} (h : Balanced i k₀ k) (hk : PipeOrder i k) (he : KeepsPipe k e)
    (hs : pipeStep i e k = some k') : Balanced i k₀ k' := by
  cases pipeStep_move hk hs with
  | read _ _ hb hr => exact (h.data hb.data).read (hb.ready hk.ready).ok hr
  | write _ _ _ hb hr => exact (h.data hb.data).write (hb.ready hk.ready).ok hr
  | begins hb => exact h.data hb.data
  | @close f k' hc _ =>
    subst hc
    simp only [pipeStep, Option.ite_none_right_eq_some, Option.some.injEq] at hs
    obtain ⟨hf, rfl⟩ := hs
    obtain ⟨k₁, hclose, -⟩ := pipeCloseFile_result hk.ready hf
    obtain ⟨hfill, hio⟩ := pipeCloseFile_ring hk.ready hf he hclose
    rw [hclose]
    exact h.of_ring hfill hio
  | wake _ => exact h.data rfl
  | tick _ _ _ hd => exact h.data hd
  | aside _ _ hp _ hio => exact h.of_ring (by rw [hp]) hio

theorem balanced_of_opened (h : Opened i k) : Balanced i k k := by
  refine ⟨[], rfl, ?_⟩
  simp [acceptedBytes, deliveredBytes, Pipe.fill, Pipe.room, h.rpos, h.wpos, h.bufFull]

/-! ## What the calls return -/

/-- What `pipe_read` returns: as much as there is, up to the size asked for. -/
theorem pipeReadLoopTop_value (hok : (k.pipes i).Ok cfg) {buf size : ℕ} {r : ℤ}
    (h : pipeReadLoopTop p f i buf size k = .ok r k') :
    r = (min size ((k.pipes i).fill cfg) : ℕ) ∧ ((k.pipes i).Empty → (k.pipes i).writeClosed = true) := by
  obtain ⟨a, k₁, h₁, h⟩ := bind_eq_ok.1 h
  cases a with
  | none => cases h
  | some n =>
    cases h
    obtain ⟨-, t, ht, -⟩ := withLock_eq_ok.1 h₁
    rw [get_bind_apply] at ht
    by_cases hif : ((k.setHeld (.pipe i) true).pipes i).rpos = ((k.setHeld (.pipe i) true).pipes i).wpos ∧
        ((k.setHeld (.pipe i) true).pipes i).bufFull = false
    · have he : (k.pipes i).Empty := hif
      rw [if_pos hif] at ht
      -- An empty ring: 0 for one that is closed for writing, else the reader yields.
      cases hwc : (k.pipes i).writeClosed with
      | true =>
        rw [if_pos (show ((k.setHeld (.pipe i) true).pipes i).writeClosed = true from hwc)] at ht
        cases ht
        refine ⟨?_, fun _ => rfl⟩
        rw [hok.fill_eq_occupancy, he.occupancy, Nat.min_zero]
        rfl
      | false =>
        rw [if_neg (show ¬((k.setHeld (.pipe i) true).pipes i).writeClosed = true by
          simp [Kernel.setHeld, hwc])] at ht
        obtain ⟨_, t₁, -, ht⟩ := bind_eq_ok.1 ht
        cases ht
    · have he : ¬(k.pipes i).Empty := hif
      rw [if_neg hif] at ht
      obtain ⟨n, t₁, hn, ht⟩ := bind_eq_ok.1 ht
      cases ht
      obtain ⟨t₂, htake, -⟩ := pipeTake_apply (k := k.setHeld (.pipe i) true) hok he buf size
      rw [htake] at hn
      cases hn
      exact ⟨rfl, fun h => absurd h he⟩

/-! ## Opening -/

/-- A pipe that `pipe_open` has found: no flag of it was set, and its positions
    are at the start. -/
theorem pipeOpen_ring {pipefd : ℕ} (h : pipeOpen p pipefd k = .ok 0 k') :
    ∃ i, (k.pipes i).allocated = false ∧ (k'.pipes i).rpos = 0 ∧ (k'.pipes i).wpos = 0 ∧
      (k'.pipes i).bufFull = false ∧ (k'.pipes i).writeClosed = false ∧ (k'.pipes i).wf ≠ none := by
  rw [pipeOpen, get_bind_apply] at h
  obtain ⟨o, k₁, h₁, h⟩ := bind_eq_ok.1 h
  cases allocPipe_result h₁ with
  | noPage _ => cases h
  | noPipe _ => cases h
  | @pipe i j _ hflag =>
    obtain ⟨⟨halloc, hclosed⟩, hfull⟩ :
        ((k.pipes i).allocated = false ∧ (k.pipes i).writeClosed = false) ∧
        (k.pipes i).bufFull = false := by
      simpa only [Pipe.anyFlag, Bool.or_eq_false_iff] using hflag
    simp only [pipeEnds, modify_bind_apply] at h
    obtain ⟨r₀, k₂, h₂, h⟩ := bind_eq_ok.1 h
    obtain ⟨r₁, k₃, h₃, h⟩ := bind_eq_ok.1 h
    rcases fsAllocFile_twice h₂ h₃ with ⟨-, rfl, rfl, rfl⟩ | ⟨f0, -, -, rfl, rfl, rfl⟩ |
      ⟨f0, f1, -, -, rfl, rfl, rfl⟩
    · cases h
    · cases h
    · simp only [modify_bind_apply] at h
      obtain ⟨o0, k₄, hd0, h⟩ := bind_eq_ok.1 h
      obtain ⟨o1, k₅, hd1, h⟩ := bind_eq_ok.1 h
      obtain ⟨-, -, -, hp4⟩ := fdAlloc_takes hd0
      obtain ⟨-, -, -, hp5⟩ := fdAlloc_takes hd1
      -- With both descriptors, only their numbers are stored.
      have hpipes : k'.pipes = k₅.pipes := by
        cases o0 with
        | none => cases h
        | some fd0 =>
          cases o1 with
          | none => cases h
          | some fd1 =>
            simp only [release, modify_bind_apply, get_bind_apply] at h
            split at h
            · cases h
            · cases h
              rfl
      refine ⟨i, halloc, ?_⟩
      rw [hpipes, hp5, hp4]
      simp [Kernel.setPipe, Kernel.setFile, Kernel.setHeld, hclosed, hfull]

/-- After a `pipe_open` that succeeded, the pipe is open: from a state in which
    only processes' locks are held, and no process is in a call on a pipe that is
    not allocated. -/
theorem opened_of_pipeOpen {pipefd : ℕ} (hl : ∀ l, (∀ q, l ≠ .proc q) → k.held l = false)
    (hs : SleepersFree k) (hidle : ∀ i q, (k.pipes i).allocated = false → ¬InCall i q k)
    (h : pipeOpen p pipefd k = .ok 0 k') : ∃ i, Opened i k' := by
  have hstill : Still {l | ∀ q, l ≠ .proc q} (pipeOpen p pipefd) :=
    still_pipeOpen (by simp) (by simp) (by simp) (by simp)
  obtain ⟨hcore, hheld⟩ := hstill k.held hl k
  have hheld := hheld rfl
  rw [h] at hcore hheld
  have hcore : k'.core = k.core := hcore
  have hheld : k'.held = k.held := hheld
  have hprocs : ∀ q, (k'.procs q).state = (k.procs q).state ∧ (k'.procs q).ctx = (k.procs q).ctx := by
    intro q
    have := congrFun (congrArg Core.procs hcore) q
    exact ⟨congrArg PCore.state this, congrArg PCore.ctx this⟩
  -- The ring that `alloc_pipe` took was not in use, so nobody is in a call on it.
  obtain ⟨i, hfree, hr, hw, hf, hc, hwf⟩ := pipeOpen_ring h
  refine ⟨i, ⟨?_, ?_, ?_, ?_, hwf, ?_⟩, hr, hw, hf, hc, ?_⟩
  · rw [hheld]
    exact hl _ (by simp)
  · rw [hheld]
    exact hl _ (by simp)
  · rw [hheld]
    exact hl _ (by simp)
  · intro q hq
    rw [hcore] at hq
    rw [hheld]
    exact hs q hq
  · refine ⟨?_, ?_, fun _ => hr.trans hw.symm⟩
    · rw [hr]
      exact cfg.pipeBufSize_pos
    · rw [hw]
      exact cfg.pipeBufSize_pos
  · rintro q ⟨hstate, hcall⟩
    rw [(hprocs q).1] at hstate
    rw [(hprocs q).2] at hcall
    exact hidle i q hfree ⟨hstate, hcall⟩

/-- The accounts of the pipe `i` in the state `k`, since it was opened in `k₀`. -/
structure Accounting (i : Fin maxPipes) (k₀ k : Kernel cfg) : Prop where
  rpos : (k.pipes i).rpos < cfg.pipeBufSize
  wpos : (k.pipes i).wpos < cfg.pipeBufSize
  full : (k.pipes i).bufFull = true → (k.pipes i).rpos = (k.pipes i).wpos
  /-- Accepted less delivered is the occupancy. -/
  balance : ∃ new, k.io = new ++ k₀.io ∧
    (acceptedBytes i new).length = (deliveredBytes i new).length + (k.pipes i).occupancy cfg
  /-- `pipe_do_write` on a pipe that is not full takes what there is room for. -/
  accepts : (k.pipes i).bufFull = false → ∀ buf nbytes, ∃ k', pipeDoWrite i buf nbytes k =
    .ok (min nbytes (cfg.pipeBufSize - (k.pipes i).occupancy cfg)) k'
  /-- `pipe_read` returns what there is, from its start and after a wake-up. -/
  returns : ∀ p f buf size r k', pipeReadLoopTop p f i buf size k = .ok r k' →
    r = (min size ((k.pipes i).occupancy cfg) : ℕ)
  start : ∀ p f buf size, (k.files f).fsFile = .pipe i →
    pipeRead p f buf size k = pipeReadLoopTop p f i buf size k
  eof : ∀ p f buf size k', 0 < size → pipeReadLoopTop p f i buf size k = .ok 0 k' →
    (k.pipes i).occupancy cfg = 0 ∧ (k.pipes i).writeClosed = true
  /-- The `-ENOBUFS` branch of `pipe_write` is not taken. -/
  noBufs : ¬pipeAvailable cfg (k.pipes i) < 0
  reads : ∀ page size, (pipeReadLoop cfg page (k.pipes i).wpos size (k.pipes i).rpos (k.pipes i).rpos).1 =
      (readOffsets cfg (k.pipes i).wpos size (k.pipes i).rpos (k.pipes i).rpos).map page ∧
    ∀ a ∈ readOffsets cfg (k.pipes i).wpos size (k.pipes i).rpos (k.pipes i).rpos, a < cfg.pageSize
  writes : ∀ page bs,
      (∀ a ∉ writeOffsets cfg (k.pipes i).rpos bs.length (k.pipes i).wpos (k.pipes i).wpos,
      (pipeWriteLoop cfg (k.pipes i).rpos bs page (k.pipes i).wpos (k.pipes i).wpos).1 a = page a) ∧
    ∀ a ∈ writeOffsets cfg (k.pipes i).rpos bs.length (k.pipes i).wpos (k.pipes i).wpos, a < cfg.pageSize

/-- A pipe that is in order and balanced has its accounts right. -/
theorem Balanced.accounting (h : Balanced i k₀ k) (hok : (k.pipes i).Ok cfg) : Accounting i k₀ k := by
  have hocc := hok.fill_eq_occupancy
  refine ⟨hok.rpos, hok.wpos, hok.full, ?_, fun hf buf nbytes => ?_, fun p f buf size r k' hr => ?_,
    fun p f buf size hf => ?_, fun p f buf size k' hsize hr => ?_, (pipeAvailable_eq hok).1,
    fun page size => ⟨pipeReadLoop_offsets page _ _ _ _, fun a => offset_lt_pageSize hok.rpos hok.wpos⟩,
    fun page bs => ⟨fun a => pipeWriteLoop_offsets _ bs page _ _ a, fun a ha => ?_⟩⟩
  · rw [← hocc]
    exact h
  · obtain ⟨bytes, k', hwrite, hlen, -⟩ := pipeDoWrite_apply hok hf buf nbytes
    have hroom : (k.pipes i).room cfg = cfg.pipeBufSize - (k.pipes i).occupancy cfg := by
      have := hok.room_le
      rw [← hocc, Pipe.fill]
      omega
    exact ⟨k', by rw [hwrite, hlen, hroom]⟩
  · rw [← hocc]
    exact (pipeReadLoopTop_value hok hr).1
  · rw [pipeRead, get_bind_apply, hf]
  · obtain ⟨hval, hclosed⟩ := pipeReadLoopTop_value hok hr
    have hzero : (k.pipes i).occupancy cfg = 0 := by
      rw [← hocc]
      omega
    exact ⟨hzero, hclosed (hok.empty_of_occupancy hzero)⟩
  · rw [writeOffsets_eq] at ha
    exact offset_lt_pageSize hok.wpos hok.rpos ha

/-- The accounts of a pipe are right in every state after it was opened, for as
    long as it is not freed. -/
theorem pipe_accounting {k₀ k : Kernel cfg} (h₀ : Opened i k₀)
    (h : Path (pipeSystem cfg i) KeepsPipe k₀ k) : Accounting i k₀ k := by
  have hinv : PipeOrder i k ∧ Balanced i k₀ k := by
    refine h.induct (I := fun k => PipeOrder i k ∧ Balanced i k₀ k)
      ⟨h₀.order, balanced_of_opened h₀⟩ ?_
    intro u u' e hu he hs
    exact ⟨hu.1.move (pipeStep_move hu.1 hs), hu.2.step hu.1 he hs⟩
  exact hinv.2.accounting hinv.1.ready.ok

/-- A pipe that the first process opens, is filled, and read to its end after the
    writing end was closed. -/
def fillAndDrain : List (PipeEvent .qemuE) :=
  [writeFrom 0x80003c00 128, readTo 100, writeFrom 0x80003c00 90, .refs (.ftable 1) 0, .close (.ftable 1),
    readTo 64, readTo 64]

theorem fillAndDrain_accounting :
    ∃ k₁ k₀ k :
    Kernel .qemuE, pipeOpen ⟨0, by decide⟩ 0x80003d00 k₁ = .ok 0 k₀ ∧ Opened 0 k₀ ∧
      (k.pipes 0).writeClosed = true ∧ (k.pipes 0).wpos = 90 ∧ Accounting 0 k₀ k := by
  have h : ∃ m ∈ runFrom .qemuE [.kernel, .kernel],
      value (pipeOpen ⟨0, by decide⟩ 0x80003d00 m.k) = some 0 ∧
      Opened 0 (final (pipeOpen ⟨0, by decide⟩ 0x80003d00 m.k)) ∧
      ∃ k ∈ run KeepsPipe (pipeSystem .qemuE 0) fillAndDrain
          (final (pipeOpen ⟨0, by decide⟩ 0x80003d00 m.k)),
        (k.pipes 0).writeClosed = true ∧ (k.pipes 0).wpos = 90 := by
    decide +kernel
  obtain ⟨m, -, hopen, h₀, k, hrun, hclosed, hwpos⟩ := h
  obtain ⟨k₀, hk₀⟩ := value_eq_some hopen
  rw [hk₀] at h₀ hrun
  exact ⟨m.k, k₀, k, hk₀, h₀, hclosed, hwpos, pipe_accounting h₀ (.of_run _ hrun)⟩

end HobbyOs
