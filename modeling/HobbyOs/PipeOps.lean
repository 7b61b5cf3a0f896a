import HobbyOs.Lib.Ring
import HobbyOs.Mark
import HobbyOs.Effect

/-!
# Reading and writing a pipe

What `pipe_read`, `pipe_write` and `pipe_close_file` do, from a kernel in which
they can take their locks.

* The copy loops: how many bytes they copy and where the position in the ring is
  afterwards (`pipeReadLoop_eq`, `pipeWriteLoop_eq`). The bytes are those at the
  running pointer, which need not be those of the ring: it does not go back to
  the start of the buffer with the position.
* `ReadResult`, `WriteResult` and `CloseResult`: how a call ends, and what it has
  done to the pipe and to the processes that sleep on it.
-/

namespace HobbyOs

open Outcome

variable {cfg : Config} {α : Type} {p : Slot cfg} {i : Fin maxPipes} {f : FileRef}
  {k k' k₁ k₂ : Kernel cfg}

/-! ## The ring of a pipe -/

/-- The positions of a pipe are within its buffer, and its end is its start when
    it is full. -/
structure Pipe.Ok (cfg : Config) (q : Pipe) : Prop where
  rpos : q.rpos < cfg.pipeBufSize
  wpos : q.wpos < cfg.pipeBufSize
  full : q.bufFull = true → q.rpos = q.wpos

/-- There is nothing to read. -/
def Pipe.Empty (q : Pipe) : Prop := q.rpos = q.wpos ∧ q.bufFull = false

instance (q : Pipe) : Decidable q.Empty := inferInstanceAs (Decidable (_ ∧ _))

/-- How many bytes can be written. -/
def Pipe.room (cfg : Config) (q : Pipe) : ℕ :=
  if q.bufFull then 0 else Ring.dist cfg.pipeBufSize q.wpos q.rpos

/-- How many bytes can be read. -/
def Pipe.fill (cfg : Config) (q : Pipe) : ℕ := cfg.pipeBufSize - q.room cfg

/-- The bytes in the ring, from the next one to be read on. -/
def contents (k : Kernel cfg) (i : Fin maxPipes) : List UInt8 :=
  Ring.window (k.kmem (k.pipes i).buf) cfg.pipeBufSize (k.pipes i).rpos ((k.pipes i).fill cfg)

namespace Pipe.Ok

variable {q : Pipe}

theorem room_le (h : q.Ok cfg) : q.room cfg ≤ cfg.pipeBufSize := by
  rw [Pipe.room]
  split
  · exact Nat.zero_le _
  · exact Ring.dist_le h.rpos

/-- What there is ends where the next byte is written. -/
theorem fill_eq (h : q.Ok cfg) (hne : ¬q.Empty) :
    q.fill cfg = Ring.dist cfg.pipeBufSize q.rpos q.wpos := by
  rw [Pipe.fill, Pipe.room]
  split
  · rename_i hf
    simp [h.full hf]
  · rename_i hf
    have hpos : q.rpos ≠ q.wpos := fun hpos => hne ⟨hpos, by simpa using hf⟩
    have := Ring.dist_add_dist h.rpos h.wpos hpos
    omega

theorem add_fill_mod (h : q.Ok cfg) : (q.rpos + q.fill cfg) % cfg.pipeBufSize = q.wpos := by
  by_cases hne : q.Empty
  · have hroom : q.room cfg = cfg.pipeBufSize := by simp [Pipe.room, hne.1, hne.2]
    rw [Pipe.fill, hroom, Nat.sub_self, Nat.add_zero, Nat.mod_eq_of_lt h.rpos, hne.1]
  · rw [h.fill_eq hne]
    exact Ring.add_dist_mod h.rpos h.wpos

end Pipe.Ok

/-! ## The copy loops -/

/-- The copy loop of `pipe_read`. -/
theorem pipeReadLoop_eq (page : ℕ → UInt8) {wpos rpos : ℕ} (hw : wpos < cfg.pipeBufSize)
    (hr : rpos < cfg.pipeBufSize) (size rbuf : ℕ) :
    pipeReadLoop cfg page wpos size rbuf rpos =
      ((List.range (min size (Ring.dist cfg.pipeBufSize rpos wpos))).map fun j => page (rbuf + j),
        (rpos + min size (Ring.dist cfg.pipeBufSize rpos wpos)) % cfg.pipeBufSize) := by
  induction size generalizing rbuf rpos with
  | zero => simp [pipeReadLoop, Nat.mod_eq_of_lt hr]
  | succ size ih =>
    have hnext : ringNext cfg rpos = Ring.next cfg.pipeBufSize rpos := rfl
    rw [pipeReadLoop]
    split
    · rename_i h
      rw [hnext] at h
      have hd := (Ring.next_eq_iff hr hw).1 h
      simp [hd, hnext, Ring.next_eq_mod hr]
    · rename_i h
      rw [hnext] at h
      have hd := Ring.dist_next hr hw h
      simp only [hnext, ih (Ring.next_lt hr), hd]
      rw [Nat.add_min_add_right, List.range_succ_eq_map, Ring.next_eq_mod hr, Nat.mod_add_mod]
      simp [Function.comp_def, Nat.add_assoc, Nat.add_comm 1]

theorem storeBytes_nil (mem : ℕ → UInt8) (a : ℕ) : storeBytes mem a [] = mem := by
  funext x
  rw [storeBytes, if_neg (by simp)]

theorem storeBytes_cons (mem : ℕ → UInt8) (a : ℕ) (b : UInt8) (bs : List UInt8) :
    storeBytes mem a (b :: bs) = storeBytes (Function.update mem a b) (a + 1) bs := by
  funext x
  simp only [storeBytes, List.length_cons]
  rcases Nat.lt_trichotomy x a with hx | rfl | hx
  · rw [if_neg (by omega), if_neg (by omega), Function.update_of_ne hx.ne]
  · simp
  · by_cases hb : x < a + (bs.length + 1)
    · rw [if_pos ⟨hx.le, hb⟩, if_pos (by omega), show x - a = x - (a + 1) + 1 by omega,
        List.getD_cons_succ]
    · rw [if_neg (by omega), if_neg (by omega), Function.update_of_ne hx.ne']

/-- The copy loop of `pipe_do_write`. -/
theorem pipeWriteLoop_eq {wpos rpos : ℕ} (hw : wpos < cfg.pipeBufSize) (hr : rpos < cfg.pipeBufSize)
    (bs : List UInt8) (page : ℕ → UInt8) (wbuf : ℕ) :
    pipeWriteLoop cfg rpos bs page wbuf wpos =
      (storeBytes page wbuf (bs.take (Ring.dist cfg.pipeBufSize wpos rpos)),
        (wpos + min bs.length (Ring.dist cfg.pipeBufSize wpos rpos)) % cfg.pipeBufSize,
        decide (Ring.dist cfg.pipeBufSize wpos rpos ≤ bs.length),
        min bs.length (Ring.dist cfg.pipeBufSize wpos rpos)) := by
  induction bs generalizing page wbuf wpos with
  | nil =>
    have hpos := Ring.dist_pos (b := rpos) hw
    simp [pipeWriteLoop, storeBytes_nil, Nat.mod_eq_of_lt hw, hpos.ne']
  | cons b bs ih =>
    have hnext : ringNext cfg wpos = Ring.next cfg.pipeBufSize wpos := rfl
    rw [pipeWriteLoop]
    split
    · rename_i h
      rw [hnext] at h
      have hd := (Ring.next_eq_iff hw hr).1 h
      simp [hd, hnext, Ring.next_eq_mod hw, storeBytes_cons, storeBytes_nil]
    · rename_i h
      rw [hnext] at h
      have hd := Ring.dist_next hw hr h
      simp only [hnext, ih (Ring.next_lt hw), hd]
      rw [List.take_succ_cons, storeBytes_cons, List.length_cons, Nat.add_min_add_right,
        Ring.next_eq_mod hw, Nat.mod_add_mod]
      simp [Nat.add_assoc, Nat.add_comm 1]

/-! ## Taking and putting bytes -/

/-- The first `m` bytes are taken from the running pointer of a read on. -/
structure Takes (i : Fin maxPipes) (m : ℕ) (k k' : Kernel cfg) : Prop where
  core : k'.core = k.core
  held : k'.held = k.held
  files : k'.files = k.files
  kmem : k'.kmem = k.kmem
  pipe : k'.pipes i = { k.pipes i with
    rpos := ((k.pipes i).rpos + m) % cfg.pipeBufSize
    bufFull := (k.pipes i).bufFull && decide (m = 0) }
  io : ∃ buf, k'.io = .store buf m :: .delivered i ((List.range m).map fun j =>
    k.kmem (k.pipes i).buf ((k.pipes i).rpos + j)) :: k.io

/-- Bytes are put to the running pointer of a write on. -/
structure Puts (i : Fin maxPipes) (bytes : List UInt8) (full : Bool) (k k' : Kernel cfg) : Prop where
  core : k'.core = k.core
  held : k'.held = k.held
  files : k'.files = k.files
  kmem : k'.kmem = Function.update k.kmem (k.pipes i).buf
    (storeBytes (k.kmem (k.pipes i).buf) (k.pipes i).wpos bytes)
  pipe : k'.pipes i = { k.pipes i with
    wpos := ((k.pipes i).wpos + bytes.length) % cfg.pipeBufSize, bufFull := (k.pipes i).bufFull || full }
  io : ∃ buf, k'.io = .load buf bytes.length :: .accepted i bytes :: k.io

theorem pipeTake_apply (hok : (k.pipes i).Ok cfg) (hne : ¬(k.pipes i).Empty) (buf size : ℕ) :
    ∃ k', pipeTake i buf size k = .ok (min size ((k.pipes i).fill cfg) : ℕ) k' ∧
      Takes i (min size ((k.pipes i).fill cfg)) k k' := by
  rw [hok.fill_eq hne]
  have hloop := pipeReadLoop_eq (k.kmem (k.pipes i).buf) hok.wpos hok.rpos size (k.pipes i).rpos
  simp only [pipeTake, get_bind_apply, hloop, List.length_map, List.length_range]
  generalize min size (Ring.dist cfg.pipeBufSize (k.pipes i).rpos (k.pipes i).wpos) = m
  cases m with
  | zero =>
    refine ⟨_, rfl, rfl, rfl, rfl, rfl, ?_, buf, ?_⟩
    · simp [Kernel.setPipe]
    · rfl
  | succ m =>
    refine ⟨_, rfl, rfl, rfl, rfl, rfl, ?_, buf, ?_⟩
    · simp [Kernel.setPipe]
    · rfl

theorem length_loadBytes (mem : ℕ → UInt8) (a n : ℕ) : (loadBytes mem a n).length = n := by
  simp [loadBytes]

theorem pipeDoWrite_apply (hok : (k.pipes i).Ok cfg) (hnf : (k.pipes i).bufFull = false)
    (buf nbytes : ℕ) :
    ∃ bytes k', pipeDoWrite i buf nbytes k = .ok bytes.length k' ∧
      bytes.length = min nbytes ((k.pipes i).room cfg) ∧
      Puts i bytes (decide ((k.pipes i).room cfg ≤ nbytes)) k k' := by
  have hroom : (k.pipes i).room cfg = Ring.dist cfg.pipeBufSize (k.pipes i).wpos (k.pipes i).rpos := by
    simp [Pipe.room, hnf]
  rw [hroom]
  generalize hd : Ring.dist cfg.pipeBufSize (k.pipes i).wpos (k.pipes i).rpos = d
  have hloop := pipeWriteLoop_eq hok.wpos hok.rpos (loadBytes k.mem buf nbytes) (k.kmem (k.pipes i).buf)
    (k.pipes i).wpos
  rw [hd, length_loadBytes] at hloop
  have htake : (loadBytes k.mem buf nbytes).take d = loadBytes k.mem buf (min nbytes d) := by
    rw [loadBytes, ← List.map_take, List.take_range, min_comm]
    rfl
  refine ⟨(loadBytes k.mem buf nbytes).take d, ?_⟩
  have hlen : ((loadBytes k.mem buf nbytes).take d).length = min nbytes d := by
    rw [htake, length_loadBytes]
  simp only [pipeDoWrite, get_bind_apply, hloop, hlen]
  refine ⟨_, rfl, trivial, rfl, rfl, rfl, rfl, ?_, buf, ?_⟩
  · simp [Kernel.setPipe, hlen]
  · rw [hlen, htake]
    rfl

theorem Takes.ok {m : ℕ} (h : Takes i m k k') (hok : (k.pipes i).Ok cfg) :
    (k'.pipes i).Ok cfg where
  rpos := by
    rw [h.pipe]
    exact Nat.mod_lt _ cfg.pipeBufSize_pos
  wpos := by
    rw [h.pipe]
    exact hok.wpos
  full hf := by
    rw [h.pipe] at hf ⊢
    obtain ⟨hf', rfl⟩ : (k.pipes i).bufFull = true ∧ m = 0 := by simpa using hf
    simpa [Nat.mod_eq_of_lt hok.rpos] using hok.full hf'

theorem Puts.ok {bytes : List UInt8} {full : Bool} (h : Puts i bytes full k k')
    (hok : (k.pipes i).Ok cfg) (hnf : (k.pipes i).bufFull = false)
    (hfull : full = true → bytes.length = (k.pipes i).room cfg) : (k'.pipes i).Ok cfg where
  rpos := by
    rw [h.pipe]
    exact hok.rpos
  wpos := by
    rw [h.pipe]
    exact Nat.mod_lt _ cfg.pipeBufSize_pos
  full hf := by
    rw [h.pipe] at hf ⊢
    have hlen := hfull (by simpa [hnf] using hf)
    rw [Pipe.room, hnf] at hlen
    show (k.pipes i).rpos = ((k.pipes i).wpos + bytes.length) % _
    rw [hlen]
    exact (Ring.add_dist_mod hok.wpos hok.rpos).symm

/-! ## Calls -/

/-- The calls on the pipe find their locks free, and the pipe in order. -/
structure PipeReady (i : Fin maxPipes) (k : Kernel cfg) : Prop where
  pipe : k.held (.pipe i) = false
  procTable : k.held .procTable = false
  pagedMemory : k.held .pagedMemory = false
  sleepers : SleepersFree k
  wf : (k.pipes i).wf ≠ none
  ok : (k.pipes i).Ok cfg

/-- A mark from within the lock of the pipe. -/
theorem PipeReady.mark (h : PipeReady i k) : ∃ k₁, procMarkForWakeup (.pipe i) (k.setHeld (.pipe i) true) =
    .ok () k₁ ∧ Marks (k.setHeld (.pipe i) true) k₁ ∧ WakesAll (.pipe i) k k₁ := by
  refine procMarkForWakeup_marks ?_ ?_ (by simp)
  · exact (Kernel.setHeld_held_of_ne (by simp)).trans h.procTable
  · exact fun q hq => (Kernel.setHeld_held_of_ne (by simp)).trans (h.sleepers q hq)

/-- How an attempt of `pipe_read` ends. -/
inductive ReadResult (p : Slot cfg) (f : FileRef) (i : Fin maxPipes) (buf size : ℕ) (k : Kernel cfg) :
    EStateM.Result (Stop cfg) (Kernel cfg) ℤ → Prop
  | eof : (k.pipes i).Empty → (k.pipes i).writeClosed = true → ReadResult p f i buf size k (.ok 0 k)
  | sleep {k₁ k' : Kernel cfg} {frame : TrapFrame} : (k.pipes i).Empty →
      (k.pipes i).writeClosed = false → Marks k k₁ → WakesAll (.pipe i) k k₁ →
      k'.core = k₁.core.sleep p (fun x => { x with chan := .pipe i }) frame (.pipeRead f i buf size) →
      k'.held = k₁.held → k'.data = k₁.data → ReadResult p f i buf size k (.error .switch k')
  | take {n : ℤ} {k' : Kernel cfg} : ¬(k.pipes i).Empty →
      Takes i (min size ((k.pipes i).fill cfg)) k k' → ReadResult p f i buf size k (.ok n k')

theorem procYield_data (p : Slot cfg) (c : Chan cfg) (call : Kont cfg) (k : Kernel cfg) :
    ∃ k', (procYield p c call : KM cfg α) k = .error .switch k' ∧
      k'.core = k.core.sleep p (fun x => { x with chan := c }) k.trapFrame call ∧
      k'.held = k.held ∧ k'.data = k.data := by
  obtain ⟨k', h, hc, hh⟩ := procYield_apply (α := α) p c call k
  refine ⟨k', h, hc, hh, ?_⟩
  cases h
  rfl

theorem Takes.within {m : ℕ} {l : Lock cfg} (h : Takes i m (k.setHeld l true) k')
    (hl : k.held l = false) : Takes i m k (k'.setHeld l false) where
  core := h.core
  held := by
    show Function.update k'.held _ false = _
    rw [h.held]
    exact update_held_self hl
  files := h.files
  kmem := h.kmem
  pipe := h.pipe
  io := h.io

theorem pipeReadLoopTop_result (hk : PipeReady i k) (p : Slot cfg) (f : FileRef) (buf size : ℕ) :
    ReadResult p f i buf size k (pipeReadLoopTop p f i buf size k) := by
  by_cases hif : ((k.setHeld (.pipe i) true).pipes i).rpos = ((k.setHeld (.pipe i) true).pipes i).wpos ∧
      ((k.setHeld (.pipe i) true).pipes i).bufFull = false
  · have he : (k.pipes i).Empty := hif
    cases hwc : (k.pipes i).writeClosed with
    | true =>
      have htry : pipeReadTry i buf size k = .ok (some 0) k := by
        refine (withLock_apply (t := k.setHeld (.pipe i) true) hk.pipe ?_).trans
          (by rw [Kernel.setHeld_setHeld hk.pipe])
        rw [get_bind_apply, if_pos hif,
          if_pos (show ((k.setHeld (.pipe i) true).pipes i).writeClosed = true from hwc)]
        rfl
      rw [pipeReadLoopTop, bind_ok htry]
      exact .eof he hwc
    | false =>
      obtain ⟨k₁, hmark, hm, hall⟩ := hk.mark
      have htry : pipeReadTry i buf size k = .ok none (k₁.setHeld (.pipe i) false) := by
        refine withLock_apply hk.pipe ?_
        rw [get_bind_apply, if_pos hif,
          if_neg (show ¬((k.setHeld (.pipe i) true).pipes i).writeClosed = true by simp [Kernel.setHeld, hwc])]
        exact bind_ok hmark
      obtain ⟨k', hy, hc, hh, hd⟩ := procYield_data (α := ℤ) p (.pipe i) (.pipeRead f i buf size)
        (k₁.setHeld (.pipe i) false)
      rw [pipeReadLoopTop, bind_ok htry]
      show ReadResult p f i buf size k (procYield p (.pipe i) (.pipeRead f i buf size) _)
      rw [hy]
      exact .sleep he hwc (hm.within hk.pipe) hall hc hh hd
  · have he : ¬(k.pipes i).Empty := hif
    obtain ⟨k₁, ht, htk⟩ := pipeTake_apply (k := k.setHeld (.pipe i) true) hk.ok he buf size
    have htry : pipeReadTry i buf size k =
        .ok (some (min size ((k.pipes i).fill cfg) : ℕ)) (k₁.setHeld (.pipe i) false) := by
      refine withLock_apply hk.pipe ?_
      rw [get_bind_apply, if_neg hif]
      exact bind_ok ht
    rw [pipeReadLoopTop, bind_ok htry]
    exact .take he (htk.within hk.pipe)

/-- How an attempt of `pipe_write` ends, `nwritten` bytes of `nbytes` being
    written already. -/
inductive WriteResult (p : Slot cfg) (f : FileRef) (i : Fin maxPipes) (buf nbytes nwritten : ℕ)
    (k : Kernel cfg) : EStateM.Result (Stop cfg) (Kernel cfg) ℤ → Prop
  /-- There is nothing to do. -/
  | none {n : ℤ} : (k.pipes i).bufFull = true → nwritten = nbytes →
      WriteResult p f i buf nbytes nwritten k (.ok n k)
  /-- There is no room. -/
  | wait {k' : Kernel cfg} {frame : TrapFrame} : (k.pipes i).bufFull = true →
      k'.core = k.core.sleep p (fun x => { x with chan := .pipe i }) frame
        (.pipeWrite f i buf nbytes nwritten) →
      k'.held = k.held → k'.data = k.data →
      WriteResult p f i buf nbytes nwritten k (.error .switch k')
  | put {bytes : List UInt8} {k₁ k' : Kernel cfg} {n : ℤ} : (k.pipes i).bufFull = false →
      bytes.length = min (nbytes - nwritten) ((k.pipes i).room cfg) →
      Puts i bytes (decide ((k.pipes i).room cfg ≤ nbytes - nwritten)) k k₁ → Marks k₁ k' →
      (bytes ≠ [] → WakesAll (.pipe i) k₁ k') → WriteResult p f i buf nbytes nwritten k (.ok n k')
  /-- What there is room for is put, and then it waits. -/
  | putWait {bytes : List UInt8} {k₁ k₂ k' : Kernel cfg} {frame : TrapFrame} :
      (k.pipes i).bufFull = false → bytes.length = min (nbytes - nwritten) ((k.pipes i).room cfg) →
      (k.pipes i).room cfg ≤ nbytes - nwritten → Puts i bytes true k k₁ → Marks k₁ k₂ →
      WakesAll (.pipe i) k₁ k₂ → nwritten + bytes.length ≤ nbytes →
      k'.core = k₂.core.sleep p (fun x => { x with chan := .pipe i }) frame
        (.pipeWrite f i buf nbytes (nwritten + bytes.length)) →
      k'.held = k₂.held → k'.data = k₂.data →
      WriteResult p f i buf nbytes nwritten k (.error .switch k')

theorem Puts.within {bytes : List UInt8} {full : Bool} {l : Lock cfg}
    (h : Puts i bytes full (k.setHeld l true) k') (hl : k.held l = false) :
    Puts i bytes full k (k'.setHeld l false) where
  core := h.core
  held := by
    show Function.update k'.held _ false = _
    rw [h.held]
    exact update_held_self hl
  files := h.files
  kmem := h.kmem
  pipe := h.pipe
  io := h.io

/-- The room that `pipe_write` computes, as far as it matters. -/
theorem pipeAvailable_eq {q : Pipe} (hok : q.Ok cfg) :
    ¬pipeAvailable cfg q < 0 ∧ (0 < pipeAvailable cfg q ↔ q.bufFull = false) := by
  have hw := hok.wpos
  have hr := hok.rpos
  have hsize : cfg.pipeBufSize ≤ 1024 := Nat.div_le_div_right cfg.pageSize_le
  rw [pipeAvailable]
  split
  · simp [*]
  · rename_i hf
    -- The value is below twice the size of the buffer: it fits both types.
    have hfits : u32 (cfg.pipeBufSize - q.wpos + q.rpos) = cfg.pipeBufSize - q.wpos + q.rpos := by
      rw [u32]
      omega
    have hval : int32 (cfg.pipeBufSize - q.wpos + q.rpos) = (cfg.pipeBufSize - q.wpos + q.rpos : ℕ) := by
      rw [int32, Nat.mod_eq_of_lt (by omega), if_pos (by omega)]
    rw [hfits, hval]
    exact ⟨by omega, fun _ => by simpa using hf, fun _ => by omega⟩

/-- The end of an attempt of `pipe_write`, with `wr` bytes written in it. -/
def writeTryEnd (i : Fin maxPipes) (nbytes nwritten wr : ℕ) : KM cfg (ℤ ⊕ ℕ) := do
  if 0 < wr then procMarkForWakeup (.pipe i)
  if nwritten + wr = nbytes then return .inl (nwritten + wr : ℕ)
  else return .inr (nwritten + wr)

theorem writeTryEnd_apply (ht : k.held .procTable = false) (hs : SleepersFree k) (nbytes nwritten : ℕ)
    (bytes : List UInt8) :
    ∃ k', writeTryEnd i nbytes nwritten bytes.length k = .ok (if nwritten + bytes.length = nbytes
        then .inl (nwritten + bytes.length : ℕ) else .inr (nwritten + bytes.length)) k' ∧ Marks k k' ∧
      (bytes ≠ [] → WakesAll (.pipe i) k k') := by
  by_cases hb : 0 < bytes.length
  · obtain ⟨k', h, hm, hall⟩ := procMarkForWakeup_marks ht hs (c := .pipe i) (by simp)
    refine ⟨k', ?_, hm, fun _ => hall⟩
    rw [writeTryEnd, if_pos hb]
    refine (bind_ok h).trans ?_
    split <;> rfl
  · refine ⟨k, ?_, .refl, fun hne => absurd (List.length_pos_iff.2 hne) hb⟩
    rw [writeTryEnd, if_neg hb]
    show (if _ then _ else _ : KM cfg (ℤ ⊕ ℕ)) k = _
    split <;> rfl

/-- An attempt of `pipe_write` that finds the ring full. -/
theorem pipeWriteTry_full (hk : PipeReady i k) (hf : (k.pipes i).bufFull = true) (buf nbytes nwritten : ℕ) :
    pipeWriteTry i buf nbytes nwritten k =
      .ok (if nwritten = nbytes then .inl (nwritten : ℤ) else .inr nwritten) k := by
  obtain ⟨hneg, hpos⟩ := pipeAvailable_eq hk.ok
  refine (withLock_apply (t := k.setHeld (.pipe i) true) hk.pipe ?_).trans
    (by rw [Kernel.setHeld_setHeld hk.pipe])
  rw [get_bind_apply, if_neg (show ¬pipeAvailable cfg ((k.setHeld (.pipe i) true).pipes i) < 0 from hneg),
    if_neg (show ¬0 < pipeAvailable cfg ((k.setHeld (.pipe i) true).pipes i) from
      fun h => by simpa [hf] using hpos.1 h)]
  show writeTryEnd i nbytes nwritten 0 _ = _
  simp only [writeTryEnd, Nat.lt_irrefl, if_false, Nat.add_zero]
  split <;> rfl

/-- An attempt of `pipe_write` that finds room. -/
theorem pipeWriteTry_put (hk : PipeReady i k) (hf : (k.pipes i).bufFull = false) (buf nbytes nwritten : ℕ) :
    ∃ bytes k₁ k₂, bytes.length = min (nbytes - nwritten) ((k.pipes i).room cfg) ∧
      Puts i bytes (decide ((k.pipes i).room cfg ≤ nbytes - nwritten)) k k₁ ∧ Marks k₁ k₂ ∧
      (bytes ≠ [] → WakesAll (.pipe i) k₁ k₂) ∧
      pipeWriteTry i buf nbytes nwritten k = .ok (if nwritten + bytes.length = nbytes then
        .inl (nwritten + bytes.length : ℕ) else .inr (nwritten + bytes.length)) k₂ := by
  obtain ⟨hneg, hpos⟩ := pipeAvailable_eq hk.ok
  obtain ⟨bytes, k₁, hw, hlen, hp⟩ := pipeDoWrite_apply (k := k.setHeld (.pipe i) true) hk.ok hf
    (buf + nwritten) (nbytes - nwritten)
  obtain ⟨k₂, hend, hm, hall⟩ := writeTryEnd_apply (k := k₁) (i := i)
    (by rw [hp.held]; exact (Kernel.setHeld_held_of_ne (by simp)).trans hk.procTable)
    (by
      intro q hq
      rw [hp.core] at hq
      rw [hp.held]
      exact (Kernel.setHeld_held_of_ne (by simp)).trans (hk.sleepers q hq)) nbytes nwritten bytes
  refine ⟨bytes, _, k₂.setHeld (.pipe i) false, hlen, hp.within hk.pipe,
    ⟨hm.wakes, ?_, hm.data⟩, hall, ?_⟩
  · show Function.update k₂.held _ _ = Function.update k₁.held _ _
    rw [hm.held]
  · refine withLock_apply hk.pipe ?_
    rw [get_bind_apply, if_neg (show ¬pipeAvailable cfg ((k.setHeld (.pipe i) true).pipes i) < 0 from hneg),
      if_pos (show 0 < pipeAvailable cfg ((k.setHeld (.pipe i) true).pipes i) from hpos.2 hf)]
    exact (bind_ok hw).trans hend

theorem pipeWriteLoopTop_result (hk : PipeReady i k) (p : Slot cfg) (f : FileRef) (buf : ℕ)
    {nbytes nwritten : ℕ} (hle : nwritten ≤ nbytes) :
    WriteResult p f i buf nbytes nwritten k (pipeWriteLoopTop p f i buf nbytes nwritten k) := by
  cases hf : (k.pipes i).bufFull with
  | true =>
    have htry := pipeWriteTry_full hk hf buf nbytes nwritten
    rw [pipeWriteLoopTop, bind_ok htry]
    by_cases hdone : nwritten = nbytes
    · rw [if_pos hdone]
      exact .none hf hdone
    · rw [if_neg hdone]
      obtain ⟨k', hy, hc, hh, hd⟩ := procYield_data (α := ℤ) p (.pipe i)
        (.pipeWrite f i buf nbytes nwritten) k
      show WriteResult p f i buf nbytes nwritten k (procYield p (.pipe i) _ k)
      rw [hy]
      exact .wait hf hc hh hd
  | false =>
    obtain ⟨bytes, k₁, k₂, hlen, hp, hm, hall, htry⟩ := pipeWriteTry_put hk hf buf nbytes nwritten
    rw [pipeWriteLoopTop, bind_ok htry]
    by_cases hdone : nwritten + bytes.length = nbytes
    · rw [if_pos hdone]
      exact .put hf hlen hp hm hall
    · rw [if_neg hdone]
      have hpos : 0 < (k.pipes i).room cfg := by
        rw [Pipe.room, hf]
        exact Ring.dist_pos hk.ok.wpos
      have hroom : (k.pipes i).room cfg ≤ nbytes - nwritten := by omega
      have hne : bytes ≠ [] := by
        rw [← List.length_pos_iff]
        omega
      obtain ⟨k', hy, hc, hh, hd⟩ := procYield_data (α := ℤ) p (.pipe i)
        (.pipeWrite f i buf nbytes (nwritten + bytes.length)) k₂
      show WriteResult p f i buf nbytes nwritten k (procYield p (.pipe i) _ k₂)
      rw [hy]
      rw [decide_eq_true hroom] at hp
      exact .putWait hf hlen hroom hp hm (hall hne) (by omega) hc hh hd

/-- What closing an end of the pipe does: everyone who waits on it is woken. -/
structure Closes (i : Fin maxPipes) (k k' : Kernel cfg) : Prop where
  wakes : Wakes k.core k'.core
  all : WakesAll (.pipe i) k k'
  held : k'.held = k.held
  wf : (k'.pipes i).wf = (k.pipes i).wf
  ok : (k'.pipes i).Ok cfg

/-- `free_pipe`, with its lock free. -/
theorem freePipe_apply (hl : k.held .pagedMemory = false) :
    freePipe i k = .ok () (({ k with pages := dropPage (k.pipes i).buf k.pages } : Kernel cfg).setPipe i
      { k.pipes i with allocated := false, writeClosed := false, bufFull := false }) := by
  rw [freePipe, get_bind_apply]
  exact bind_ok (releasePage_apply hl _)

/-- The reading end is closed, within the lock of the pipe. -/
theorem closeReader_apply (hk : PipeReady i k) (refcount : ℕ) :
    ∃ k', (do
      procMarkForWakeup (.pipe i)
      if refcount = 0 then
        match ((← get).pipes i).wf with
        | none => throw .fault
        | some wf =>
          modify fun k => k.setFile wf { k.files wf with fsFile := .null }
          freePipe i : KM cfg Unit) (k.setHeld (.pipe i) true) = .ok () k' ∧
      Closes i (k.setHeld (.pipe i) true) k' := by
  obtain ⟨k₁, hmark, hm, hall⟩ := hk.mark
  have hpipes : k₁.pipes = k.pipes := congrArg Prod.fst hm.data
  rw [bind_ok hmark]
  by_cases hr : refcount = 0
  · obtain ⟨wf, hwf⟩ := Option.ne_none_iff_exists'.1 hk.wf
    rw [if_pos hr, get_bind_apply, hpipes, hwf]
    have hpm : k₁.held .pagedMemory = false := by
      rw [hm.held]
      exact (Kernel.setHeld_held_of_ne (by simp)).trans hk.pagedMemory
    refine ⟨_, freePipe_apply (k := k₁.setFile wf { k₁.files wf with fsFile := .null }) hpm,
      hm.wakes, hall,
      hm.held, ?_, ?_, ?_, ?_⟩
    · simp [Kernel.setPipe, Kernel.setFile, hpipes]
      rfl
    · simpa [Kernel.setPipe, Kernel.setFile, hpipes] using hk.ok.rpos
    · simpa [Kernel.setPipe, Kernel.setFile, hpipes] using hk.ok.wpos
    · simp [Kernel.setPipe, Kernel.setFile]
  · rw [if_neg hr]
    refine ⟨k₁, rfl, hm.wakes, hall, hm.held, by rw [hpipes]; rfl, by rw [hpipes]; exact hk.ok⟩

/-- The writing end is closed, within the lock of the pipe. -/
theorem closeWriter_apply (hk : PipeReady i k) (refcount : ℕ) :
    ∃ k', (do
      if refcount = 0 then
        modify fun k => k.setPipe i { k.pipes i with writeClosed := true }
      procMarkForWakeup (.pipe i) : KM cfg Unit) (k.setHeld (.pipe i) true) = .ok () k' ∧
      Closes i (k.setHeld (.pipe i) true) k' := by
  by_cases hr : refcount = 0
  · have hk' : PipeReady i (k.setPipe i { k.pipes i with writeClosed := true }) := by
      refine ⟨hk.pipe, hk.procTable, hk.pagedMemory, hk.sleepers, ?_, ?_, ?_, ?_⟩
      · simpa [Kernel.setPipe] using hk.wf
      · simpa [Kernel.setPipe] using hk.ok.rpos
      · simpa [Kernel.setPipe] using hk.ok.wpos
      · simpa [Kernel.setPipe] using hk.ok.full
    obtain ⟨k₁, hmark, hm, hall⟩ := hk'.mark
    have hpipe : k₁.pipes i = { k.pipes i with writeClosed := true } :=
      (congrFun (congrArg Prod.fst hm.data) i).trans (Function.update_self _ _ _)
    rw [if_pos hr]
    refine ⟨k₁, hmark, hm.wakes, hall, hm.held, ?_, ?_⟩
    · rw [hpipe]
      rfl
    · rw [hpipe]
      exact ⟨hk.ok.rpos, hk.ok.wpos, hk.ok.full⟩
  · obtain ⟨k₁, hmark, hm, hall⟩ := hk.mark
    have hpipe : k₁.pipes i = k.pipes i := congrFun (congrArg Prod.fst hm.data) i
    rw [if_neg hr]
    refine ⟨k₁, hmark, hm.wakes, hall, hm.held, ?_, ?_⟩
    · rw [hpipe]
      rfl
    · rw [hpipe]
      exact hk.ok

theorem Closes.within {l : Lock cfg} (h : Closes i (k.setHeld l true) k') (hl : k.held l = false) :
    Closes i k (k'.setHeld l false) where
  wakes := h.wakes
  all := h.all
  held := by
    show Function.update k'.held _ false = _
    rw [h.held]
    exact update_held_self hl
  wf := h.wf
  ok := h.ok

/-- `pipe_close_file`, of a file that is an end of the pipe. -/
theorem pipeCloseFile_result (hk : PipeReady i k) (hf : (k.files f).fsFile = .pipe i) :
    ∃ k', pipeCloseFile f k = .ok () k' ∧ (k' = k ∨ Closes i k k') := by
  rw [pipeCloseFile, get_bind_apply, hf]
  by_cases hr : (k.files f).readable = true
  · obtain ⟨k₁, h, hc⟩ := closeReader_apply hk (k.files f).refcount
    refine ⟨_, withLock_apply hk.pipe ?_, .inr (hc.within hk.pipe)⟩
    rw [get_bind_apply, if_pos (show ((k.setHeld (.pipe i) true).files f).readable = true from hr)]
    exact h
  · by_cases hw : (k.files f).writable = true
    · obtain ⟨k₁, h, hc⟩ := closeWriter_apply hk (k.files f).refcount
      refine ⟨_, withLock_apply hk.pipe ?_, .inr (hc.within hk.pipe)⟩
      rw [get_bind_apply, if_neg (show ¬((k.setHeld (.pipe i) true).files f).readable = true from hr),
        if_pos (show ((k.setHeld (.pipe i) true).files f).writable = true from hw)]
      exact h
    · refine ⟨_, withLock_apply (t := k.setHeld (.pipe i) true) hk.pipe ?_,
        .inl (Kernel.setHeld_setHeld hk.pipe)⟩
      rw [get_bind_apply, if_neg (show ¬((k.setHeld (.pipe i) true).files f).readable = true from hr),
        if_neg (show ¬((k.setHeld (.pipe i) true).files f).writable = true from hw)]
      rfl

end HobbyOs
