import HobbyOs.PipeRun
import HobbyOs.Base

/-!
# A pipe as a stream of bytes

What is read from a pipe should be what was written to it, in order. The copy
loops make it so as long as the running pointer of a copy stays in the buffer:
it goes on past the end where the position goes back to the start.

* `Straight`: the copy of a step ends by the end of the buffer;
* `Stream`: all that was accepted is what was delivered, and then what is in the
  ring. Straight steps keep it, and so the bytes delivered are the first of those
  accepted (`delivered_prefix_of_straight`).
-/

namespace HobbyOs

open Outcome Transition

variable {cfg : Config} {p : Slot cfg} {i : Fin maxPipes} {f : FileRef} {k k₀ k₁ k' : Kernel cfg}

/-- The bytes that the pipe has accepted, in order. -/
def acceptedBytes (i : Fin maxPipes) : List Io → List UInt8
  | [] => []
  | .accepted j bs :: es => acceptedBytes i es ++ if j = i then bs else []
  | _ :: es => acceptedBytes i es

/-- The bytes that the pipe has handed out, in order. -/
def deliveredBytes (i : Fin maxPipes) : List Io → List UInt8
  | [] => []
  | .delivered j bs :: es => deliveredBytes i es ++ if j = i then bs else []
  | _ :: es => deliveredBytes i es

/-- The event is not the closing of an end. -/
def PipeEvent.IsTransfer : PipeEvent cfg → Prop
  | .close _ => False
  | _ => True

/-- The copies of the step end by the end of the buffer. -/
def Straight (i : Fin maxPipes) (k : Kernel cfg) (e : PipeEvent cfg) : Prop :=
  (∀ n ∈ toRead i k e, (k.pipes i).rpos + min n ((k.pipes i).fill cfg) ≤ cfg.pipeBufSize) ∧
    ∀ n ∈ toWrite i k e, (k.pipes i).wpos + min n ((k.pipes i).room cfg) ≤ cfg.pipeBufSize

instance : DecidablePred (fun e : PipeEvent cfg => e.IsTransfer)
  | .close _ => .isFalse id
  | .read .. | .write .. | .goOn _ | .wake _ | .run _ | .tick _ | .user _ | .refs .. => .isTrue trivial

instance (i : Fin maxPipes) (k : Kernel cfg) (e : PipeEvent cfg) : Decidable (Straight i k e) :=
  inferInstanceAs (Decidable (_ ∧ _))

/-! ## The ring after a copy -/

/-- As much less is in the ring as was taken. -/
theorem Takes.fill {m : ℕ} (h : Takes i m k k') (hok : (k.pipes i).Ok cfg) (hne : ¬(k.pipes i).Empty)
    (hm : m ≤ (k.pipes i).fill cfg) : (k'.pipes i).fill cfg = (k.pipes i).fill cfg - m := by
  have hfill := hok.fill_eq hne
  have hle : (k.pipes i).fill cfg ≤ cfg.pipeBufSize := Nat.sub_le _ _
  rcases Nat.eq_zero_or_pos m with rfl | hpos
  · rw [h.pipe]
    simp [Pipe.fill, Pipe.room, Nat.mod_eq_of_lt hok.rpos]
  · have hroom : (k'.pipes i).room cfg =
        Ring.dist cfg.pipeBufSize (k.pipes i).wpos (((k.pipes i).rpos + m) % cfg.pipeBufSize) := by
      rw [h.pipe, Pipe.room]
      simp [hpos.ne']
    rw [Pipe.fill, hroom]
    rcases hm.eq_or_lt with rfl | hlt
    · rw [hok.add_fill_mod, Ring.dist_self]
      omega
    · have hd := Ring.dist_add_mod hok.rpos hok.wpos (hfill ▸ hlt)
      have hmod := Nat.mod_lt ((k.pipes i).rpos + m) cfg.pipeBufSize_pos
      have hpos' : ((k.pipes i).rpos + m) % cfg.pipeBufSize ≠ (k.pipes i).wpos := by
        intro heq
        rw [heq, Ring.dist_self] at hd
        omega
      have := Ring.dist_add_dist hmod hok.wpos hpos'
      omega

/-- What was taken was the start of the ring, if it is in one piece. -/
theorem Takes.contents {m : ℕ} (h : Takes i m k k') (hok : (k.pipes i).Ok cfg)
    (hne : ¬(k.pipes i).Empty) (hm : m ≤ (k.pipes i).fill cfg)
    (hs : (k.pipes i).rpos + m ≤ cfg.pipeBufSize) :
    contents k i = (List.range m).map (fun j => k.kmem (k.pipes i).buf ((k.pipes i).rpos + j)) ++
      contents k' i := by
  have hsplit : (k.pipes i).fill cfg = m + ((k.pipes i).fill cfg - m) := by omega
  rw [HobbyOs.contents, HobbyOs.contents, h.fill hok hne hm, h.kmem, hsplit, Ring.window_add,
    Ring.window_of_le hs, h.pipe, Ring.window_mod]
  simp

/-- As much more is in the ring as was put. -/
theorem Puts.fill {bytes : List UInt8} {n : ℕ} (hok : (k.pipes i).Ok cfg) (hf : (k.pipes i).bufFull = false)
    (hlen : bytes.length = min n ((k.pipes i).room cfg))
    (h : Puts i bytes (decide ((k.pipes i).room cfg ≤ n)) k k') :
    (k'.pipes i).fill cfg = (k.pipes i).fill cfg + bytes.length := by
  have hle := hok.room_le
  have hroom : (k.pipes i).room cfg = Ring.dist cfg.pipeBufSize (k.pipes i).wpos (k.pipes i).rpos := by
    simp [Pipe.room, hf]
  have hroom' : (k'.pipes i).room cfg = (k.pipes i).room cfg - bytes.length := by
    by_cases hn : (k.pipes i).room cfg ≤ n
    · rw [h.pipe, Pipe.room]
      simp [hn, hlen]
    · have hd := Ring.dist_add_mod hok.wpos hok.rpos (l := bytes.length) (by omega)
      rw [h.pipe, Pipe.room]
      simp only [hf, hn, decide_false, Bool.or_false, Bool.false_eq_true, if_false]
      rw [hd, hroom]
  rw [Pipe.fill, Pipe.fill, hroom']
  omega

theorem storeBytes_of_not_mem {mem : ℕ → UInt8} {a x : ℕ} {bs : List UInt8}
    (h : ∀ t < bs.length, x ≠ a + t) : storeBytes mem a bs x = mem x := by
  rw [storeBytes, if_neg fun hx => h (x - a) (by omega) (by omega)]

theorem map_storeBytes (mem : ℕ → UInt8) (a : ℕ) (bs : List UInt8) :
    (List.range bs.length).map (fun j => storeBytes mem a bs (a + j)) = bs := by
  refine List.ext_getElem (by simp) fun j hj _ => ?_
  have hj : j < bs.length := by simpa using hj
  simp [storeBytes, hj]

/-- What was put is the end of the ring, if it is in one piece. -/
theorem Puts.contents {bytes : List UInt8} {n : ℕ} (hok : (k.pipes i).Ok cfg)
    (hf : (k.pipes i).bufFull = false) (hlen : bytes.length = min n ((k.pipes i).room cfg))
    (h : Puts i bytes (decide ((k.pipes i).room cfg ≤ n)) k k')
    (hs : (k.pipes i).wpos + bytes.length ≤ cfg.pipeBufSize) :
    HobbyOs.contents k' i = HobbyOs.contents k i ++ bytes := by
  have hle := hok.room_le
  have hbuf : (k'.pipes i).buf = (k.pipes i).buf := by rw [h.pipe]
  have hrpos : (k'.pipes i).rpos = (k.pipes i).rpos := by rw [h.pipe]
  have hpage : k'.kmem (k.pipes i).buf =
      storeBytes (k.kmem (k.pipes i).buf) (k.pipes i).wpos bytes := by
    rw [h.kmem, Function.update_self]
  have hend := hok.add_fill_mod
  rw [HobbyOs.contents, HobbyOs.contents, h.fill hok hf hlen, hbuf, hrpos, hpage, Ring.window_add]
  congr 1
  · refine Ring.window_of_write (m := bytes.length) ?_ fun x _ hx => ?_
    · rw [Pipe.fill]
      omega
    · refine storeBytes_of_not_mem fun t ht => ?_
      have := hx t ht
      rwa [← Nat.mod_add_mod, hend, Nat.mod_eq_of_lt (by omega)] at this
  · rw [← Ring.window_mod, hend, Ring.window_of_le hs, map_storeBytes]

/-! ## The stream -/

/-- What the pipe has accepted since it was opened is what it has delivered, and
    then what is in the ring. -/
def Stream (i : Fin maxPipes) (k₀ k : Kernel cfg) : Prop :=
  ∃ new, k.io = new ++ k₀.io ∧ acceptedBytes i new = deliveredBytes i new ++ contents k i

theorem contents_congr (hp : k'.pipes = k.pipes) (hm : k'.kmem = k.kmem) : contents k' i = contents k i := by
  rw [contents, contents, hp, hm]

namespace Stream

theorem of_data (h : Stream i k₀ k) (hp : k'.pipes = k.pipes) (hm : k'.kmem = k.kmem)
    (hio : k'.io = k.io) : Stream i k₀ k' := by
  obtain ⟨new, hnew, hs⟩ := h
  exact ⟨new, hio.trans hnew, by rw [contents_congr hp hm, hs]⟩

theorem data (h : Stream i k₀ k) (hd : k'.data = k.data) : Stream i k₀ k' :=
  h.of_data (congrArg Prod.fst hd) (congrArg (·.2.1) hd) (congrArg (·.2.2.1) hd)

theorem takes {m : ℕ} (h : Stream i k₀ k) (ht : Takes i m k k') (hok : (k.pipes i).Ok cfg)
    (hne : ¬(k.pipes i).Empty) (hm : m ≤ (k.pipes i).fill cfg)
    (hs : (k.pipes i).rpos + m ≤ cfg.pipeBufSize) : Stream i k₀ k' := by
  obtain ⟨new, hnew, hstream⟩ := h
  obtain ⟨buf, hio⟩ := ht.io
  refine ⟨_ :: _ :: new, by rw [hio, hnew]; rfl, ?_⟩
  simp [acceptedBytes, deliveredBytes, hstream, ht.contents hok hne hm hs]

theorem puts {bytes : List UInt8} {n : ℕ} (h : Stream i k₀ k) (hok : (k.pipes i).Ok cfg)
    (hf : (k.pipes i).bufFull = false) (hlen : bytes.length = min n ((k.pipes i).room cfg))
    (hp : Puts i bytes (decide ((k.pipes i).room cfg ≤ n)) k k')
    (hs : (k.pipes i).wpos + bytes.length ≤ cfg.pipeBufSize) : Stream i k₀ k' := by
  obtain ⟨new, hnew, hstream⟩ := h
  obtain ⟨buf, hio⟩ := hp.io
  refine ⟨_ :: _ :: new, by rw [hio, hnew]; rfl, ?_⟩
  simp [acceptedBytes, deliveredBytes, hstream, Puts.contents hok hf hlen hp hs]

theorem read {buf size : ℕ} {r : EStateM.Result (Stop cfg) (Kernel cfg) ℤ} (h : Stream i k₀ k)
    (hok : (k.pipes i).Ok cfg)
    (hs : (k.pipes i).rpos + min size ((k.pipes i).fill cfg) ≤ cfg.pipeBufSize)
    (hr : ReadResult p f i buf size k r) : Stream i k₀ (settle p r) := by
  cases hr with
  | eof _ _ => exact h
  | sleep _ _ hm _ _ _ hd => exact h.data (hd.trans hm.data)
  | take hne ht => exact h.takes ht hok hne (min_le_right _ _) hs

theorem write {buf nbytes nwritten : ℕ} {r : EStateM.Result (Stop cfg) (Kernel cfg) ℤ}
    (h : Stream i k₀ k) (hok : (k.pipes i).Ok cfg)
    (hs : (k.pipes i).wpos + min (nbytes - nwritten) ((k.pipes i).room cfg) ≤ cfg.pipeBufSize)
    (hr : WriteResult p f i buf nbytes nwritten k r) : Stream i k₀ (settle p r) := by
  cases hr with
  | none _ _ => exact h
  | wait _ _ _ hd => exact h.data hd
  | put hf hlen hp hm _ => exact (h.puts hok hf hlen hp (hlen ▸ hs)).data hm.data
  | putWait hf hlen hroom hp hm _ _ _ _ hd =>
    rw [← decide_eq_true hroom] at hp
    exact (h.puts hok hf hlen hp (hlen ▸ hs)).data (hd.trans hm.data)

/-- A straight step keeps the stream. -/
theorem move {e : PipeEvent cfg} (h : Stream i k₀ k) (hk : PipeOrder i k) (he : e.IsTransfer)
    (hs : Straight i k e) (hm : PipeMove i k e k') : Stream i k₀ k' := by
  cases hm with
  | @read p f buf size k₁ r _ hsize hb hr =>
    have hpipes : k₁.pipes = k.pipes := congrArg Prod.fst hb.data
    refine (h.data hb.data).read (hb.ready hk.ready).ok ?_ hr
    rw [hpipes]
    exact hs.1 size hsize
  | @write p f buf nbytes nwritten k₁ r _ hsize hle hb hr =>
    have hpipes : k₁.pipes = k.pipes := congrArg Prod.fst hb.data
    refine (h.data hb.data).write (hb.ready hk.ready).ok ?_ hr
    rw [hpipes]
    exact hs.2 _ hsize
  | begins hb => exact h.data hb.data
  | close hc _ =>
    rw [hc] at he
    exact absurd he id
  | wake _ => exact h.data rfl
  | tick _ _ _ hd => exact h.data hd
  | aside _ _ hp hm hio => exact h.of_data hp hm hio

end Stream

theorem stream_of_opened (h : Opened i k) : Stream i k k := by
  refine ⟨[], rfl, ?_⟩
  simp [acceptedBytes, deliveredBytes, contents, Pipe.fill, Pipe.room, h.rpos, h.wpos, h.bufFull]

/-- In a run of straight reads and writes of a pipe, the bytes handed out are
    the first of the bytes accepted. -/
theorem delivered_prefix_of_straight {k₀ k : Kernel cfg} (h₀ : Opened i k₀)
    (h : Path (pipeSystem cfg i) (fun k e => e.IsTransfer ∧ Straight i k e) k₀ k) :
    ∃ new, k.io = new ++ k₀.io ∧ deliveredBytes i new <+: acceptedBytes i new := by
  have hinv : PipeOrder i k ∧ Stream i k₀ k := by
    refine h.induct (I := fun k => PipeOrder i k ∧ Stream i k₀ k) ⟨h₀.order, stream_of_opened h₀⟩ ?_
    intro u u' e hu hC hs
    have hm := pipeStep_move hu.1 hs
    exact ⟨hu.1.move hm, hu.2.move hu.1 hC.1 hC.2 hm⟩
  obtain ⟨new, hnew, hs⟩ := hinv.2
  exact ⟨new, hnew, _, hs.symm⟩

/-! ## Two runs -/

instance (q : Pipe) : Decidable (q.Ok cfg) :=
  decidable_of_iff (q.rpos < cfg.pipeBufSize ∧ q.wpos < cfg.pipeBufSize ∧
    (q.bufFull = true → q.rpos = q.wpos))
    ⟨fun h => ⟨h.1, h.2.1, h.2.2⟩, fun h => ⟨h.rpos, h.wpos, h.full⟩⟩

instance (k : Kernel cfg) : Decidable (SleepersFree k) := inferInstanceAs (Decidable (∀ _, _ → _))

instance (i : Fin maxPipes) (k : Kernel cfg) : Decidable (PipeReady i k) :=
  decidable_of_iff (k.held (.pipe i) = false ∧ k.held .procTable = false ∧ k.held .pagedMemory = false ∧
    SleepersFree k ∧ (k.pipes i).wf ≠ none ∧ (k.pipes i).Ok cfg)
    ⟨fun h => ⟨h.1, h.2.1, h.2.2.1, h.2.2.2.1, h.2.2.2.2.1, h.2.2.2.2.2⟩,
      fun h => ⟨h.pipe, h.procTable, h.pagedMemory, h.sleepers, h.wf, h.ok⟩⟩

instance (i : Fin maxPipes) (p : Slot cfg) (k : Kernel cfg) : Decidable (InCall i p k) :=
  inferInstanceAs (Decidable (_ ∧ _))

instance (i : Fin maxPipes) (k : Kernel cfg) : Decidable (Opened i k) :=
  decidable_of_iff (PipeReady i k ∧ (k.pipes i).rpos = 0 ∧ (k.pipes i).wpos = 0 ∧
    (k.pipes i).bufFull = false ∧ (k.pipes i).writeClosed = false ∧ ∀ p, ¬InCall i p k)
    ⟨fun h => ⟨h.1, h.2.1, h.2.2.1, h.2.2.2.1, h.2.2.2.2.1, h.2.2.2.2.2⟩,
      fun h => ⟨h.ready, h.rpos, h.wpos, h.bufFull, h.writeClosed, h.idle⟩⟩

/-- The kernel after the first process has called `pipe`. -/
def afterPipeCall : Option (Kernel .qemuE) :=
  (runFrom .qemuE [.kernel, .kernel, .exec (callRegs 0x80003ff0 29 0x80003f00 0 0) [], .ecall]).map (·.k)

/-- A write of `n` bytes, whose values are the last bytes of their addresses. -/
def writeFrom (buf n : ℕ) : PipeEvent .qemuE := .write ⟨0, by decide⟩ (.ftable ⟨1, by decide⟩) buf n

/-- A read of `n` bytes. -/
def readTo (n : ℕ) : PipeEvent .qemuE := .read ⟨0, by decide⟩ (.ftable ⟨0, by decide⟩) 0x80003e00 n

/-- Three bytes are written from one before the end of the buffer on, and read
    in two pieces. -/
def writeOverEnd : List (PipeEvent .qemuE) :=
  [.user fun a => a.toUInt8, writeFrom 0x80003c00 127, readTo 127, writeFrom 0x80003c80 3, readTo 1, readTo 2]

theorem writeOverEnd_reorders :
    ¬∀ k₀ k : Kernel .qemuE, Opened 0 k₀ →
      Path (pipeSystem .qemuE 0) (fun _ e => e.IsTransfer) k₀ k →
      ∃ new, k.io = new ++ k₀.io ∧ deliveredBytes 0 new <+: acceptedBytes 0 new := by
  have h : ∃ k₀ ∈ afterPipeCall, Opened 0 k₀ ∧ k₀.io.isEmpty ∧
      ∃ k ∈ run (fun _ e => e.IsTransfer) (pipeSystem .qemuE 0) writeOverEnd k₀,
        ¬deliveredBytes 0 k.io <+: acceptedBytes 0 k.io := by
    decide +kernel
  obtain ⟨k₀, -, h₀, hempty, k, hk, hne⟩ := h
  intro hall
  obtain ⟨new, hnew, hp⟩ := hall k₀ k h₀ (.of_run _ hk)
  rw [List.isEmpty_iff.1 hempty, List.append_nil] at hnew
  exact hne (hnew ▸ hp)

/-- The same bytes, but the second write ends with the buffer. -/
def writeToEnd : List (PipeEvent .qemuE) :=
  [.user fun a => a.toUInt8, writeFrom 0x80003c00 127, readTo 127, writeFrom 0x80003c80 1,
    writeFrom 0x80003c81 2, readTo 1, readTo 2]

theorem writeToEnd_in_order :
    ∃ k₀ k : Kernel .qemuE, Opened 0 k₀ ∧ ∃ new, k.io = new ++ k₀.io ∧
      (deliveredBytes 0 new).length = 130 ∧ deliveredBytes 0 new <+: acceptedBytes 0 new := by
  have h : ∃ k₀ ∈ afterPipeCall, Opened 0 k₀ ∧ k₀.io.isEmpty ∧
      ∃ k ∈ run (fun k e => e.IsTransfer ∧ Straight 0 k e) (pipeSystem .qemuE 0) writeToEnd k₀,
        (deliveredBytes 0 k.io).length = 130 := by
    decide +kernel
  obtain ⟨k₀, -, h₀, hempty, k, hk, hlen⟩ := h
  obtain ⟨new, hnew, hp⟩ := delivered_prefix_of_straight h₀ (.of_run _ hk)
  have hio : k.io = new := by rw [hnew, List.isEmpty_iff.1 hempty, List.append_nil]
  exact ⟨k₀, k, h₀, new, hnew, hio ▸ hlen, hp⟩

end HobbyOs
