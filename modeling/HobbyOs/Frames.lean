import HobbyOs.Parts
import HobbyOs.Machine

/-!
# The frames of the functions

For every function of the kernel, the parts it may change (`Parts`). The
hypotheses of a lemma name them; the lemmas of the functions that change no part
have none.
-/

namespace HobbyOs

open Outcome

variable {cfg : Config} {α β : Type} {S : Set Part}

/-! ## Primitives -/

theorem frame_store {a : ℕ} {bs : List UInt8} : Frame S (store a bs : KM cfg Unit) :=
  Frame.of_rest fun _ => rfl

theorem frame_setErrno {p : Slot cfg} {e : ℕ} : Frame S (setErrno p e) :=
  Frame.of_rest fun _ => rfl

theorem frame_readString {a : ℕ} : Frame S (readString a : KM cfg _) := by
  refine Frame.get.bind fun k => ?_
  split
  · exact Frame.pure
  · exact Frame.throw

theorem frame_modifyProc {q : Slot cfg} {f : Proc cfg → Proc cfg} (h : ∀ x, (f x).parts = x.parts) :
    Frame S (modifyProc q f) :=
  Frame.of_setProc_rest fun _ => h _

theorem frame_setState {q : Slot cfg} {new : PState} {site : Site cfg} :
    Frame S (setState q new site) := by
  refine Frame.modify fun k x _ => ?_
  refine (Part.same_setProc (k := k) (q := q) (y := { k.procs q with state := new }) ?_).trans ?_
  · cases x <;> simp [Part.SameProc]
  · cases x with
    | files | pages | pte | kmem | uart => rfl
    | handles | ends | dirs | bfiles => exact fun _ => rfl
    | bdata => exact fun _ => ⟨rfl, rfl⟩
    | ring => exact Part.same_ring rfl rfl
    | fds | procfs | stackPages => exact fun q => Part.SameProc.refl _

theorem frame_record {e : Ev cfg} : Frame S (record e) := Frame.of_rest fun _ => rfl

theorem frame_acquire {l : Lock cfg} : Frame S (acquire l) := by
  refine Frame.get.bind fun k => ?_
  split
  · exact Frame.throw
  · exact Frame.of_rest fun _ => rfl

theorem frame_release {l : Lock cfg} : Frame S (release l) := Frame.of_rest fun _ => rfl

theorem frame_withLock {l : Lock cfg} {m : KM cfg α} (hm : Frame S m) : Frame S (withLock l m) :=
  frame_acquire.bind fun _ => hm.bind fun _ => frame_release.bind fun _ => Frame.pure

/-! ## Pages and page tables -/

section

variable (hp : .pages ∈ S)
include hp

theorem frame_takePage {pid flags : ℕ} (i : Option (Fin cfg.numPages)) :
    Frame S (takePage pid flags i) := by
  cases i with
  | none => exact Frame.pure
  | some i =>
    refine Frame.bind (Frame.modify fun k x hx => ?_) fun _ => Frame.pure
    cases x with
    | pages => exact absurd hp hx
    | files | pte | kmem | uart => rfl
    | handles | ends | dirs | bfiles => exact fun _ => rfl
    | bdata => exact fun _ => ⟨rfl, rfl⟩
    | ring => exact Part.same_ring rfl rfl
    | fds | procfs | stackPages => exact fun q => Part.SameProc.refl _

theorem frame_allocatePage {pid flags : ℕ} : Frame S (allocatePage pid flags : KM cfg _) :=
  frame_withLock (Frame.get.bind fun k => frame_takePage hp (freePage k))

theorem frame_kalloc {pid : ℕ} : Frame S (kalloc pid : KM cfg _) := frame_allocatePage hp

theorem frame_releasePage {ptr : ℕ} : Frame S (releasePage ptr : KM cfg _) := by
  refine frame_withLock (Frame.modify fun k x hx => ?_)
  cases x with
  | pages => exact absurd hp hx
  | files | pte | kmem | uart => rfl
  | handles | ends | dirs | bfiles => exact fun _ => rfl
  | bdata => exact fun _ => ⟨rfl, rfl⟩
  | ring => exact Part.same_ring rfl rfl
  | fds | procfs | stackPages => exact fun q => Part.SameProc.refl _

theorem frame_freePageTableR (fuel level pt : ℕ) : Frame S (freePageTableR fuel level pt : KM cfg _) := by
  induction fuel generalizing level pt with
  | zero => exact Frame.throw
  | succ fuel ih =>
    refine (Frame.forM fun n => Frame.get.bind fun k => ?_).bind fun _ => ?_
    · dsimp only
      split
      · refine (ih _ _).bind fun _ => ?_
        split
        · exact frame_releasePage hp
        · exact Frame.pure
      · exact Frame.pure
    · split
      · exact Frame.get.bind fun k => frame_releasePage hp
      · exact Frame.pure

theorem frame_freePageTable {pt : ℕ} : Frame S (freePageTable pt : KM cfg _) := by
  unfold freePageTable
  split
  · exact (frame_freePageTableR hp _ _ _).bind fun _ => frame_releasePage hp
  · exact Frame.pure

end

theorem frame_copyPage {dst src : ℕ} : Frame S (copyPage dst src : KM cfg _) :=
  Frame.of_rest fun _ => rfl

/-- An update of the words of page tables. -/
theorem frame_modifyPte (ht : .pte ∈ S) {g : Kernel cfg → ℕ → ℕ} :
    Frame S (modifyGet fun k => (PUnit.unit, { k with pte := g k }) : KM cfg PUnit) := by
  refine Frame.modify fun k x hx => ?_
  cases x with
  | pte => exact absurd ht hx
  | files | pages | kmem | uart => rfl
  | handles | ends | dirs | bfiles => exact fun _ => rfl
  | bdata => exact fun _ => ⟨rfl, rfl⟩
  | ring => exact Part.same_ring rfl rfl
  | fds | procfs | stackPages => exact fun q => Part.SameProc.refl _

theorem frame_clearTable (ht : .pte ∈ S) {pt : ℕ} : Frame S (clearTable pt : KM cfg _) :=
  frame_modifyPte ht

theorem frame_setPte (ht : .pte ∈ S) {pt n e : ℕ} : Frame S (setPte pt n e : KM cfg _) :=
  frame_modifyPte ht

section

variable (hp : .pages ∈ S) (ht : .pte ∈ S)
include hp ht

theorem frame_mapPageLevel {pa va perm pid : ℕ} (level pt : ℕ) :
    Frame S (mapPageLevel pa va perm pid level pt : KM cfg _) := by
  induction level generalizing pt with
  | zero => exact frame_setPte ht
  | succ level ih =>
    refine Frame.get.bind fun k => ?_
    dsimp only
    split
    · refine (frame_kalloc hp).bind fun a => ?_
      split
      · exact Frame.throw
      · exact (frame_clearTable ht).bind fun _ => (frame_setPte ht).bind fun _ => ih _
    · exact ih _

theorem frame_mapPageSv39 {pt pa va perm pid : ℕ} :
    Frame S (mapPageSv39 pt pa va perm pid : KM cfg _) := by
  unfold mapPageSv39
  split
  · exact frame_mapPageLevel hp ht _ _
  · exact Frame.pure

theorem frame_mapRange {pt pa va perm pid n : ℕ} : Frame S (mapRange pt pa va perm pid n : KM cfg _) :=
  Frame.forM fun _ => frame_mapPageSv39 hp ht

theorem frame_initUserPageTable {pt pid : ℕ} : Frame S (initUserPageTable pt pid : KM cfg _) := by
  unfold initUserPageTable
  split
  · refine (frame_clearTable ht).bind fun _ => ?_
    refine (frame_mapPageSv39 hp ht).bind fun _ => ?_
    refine (frame_mapPageSv39 hp ht).bind fun _ => ?_
    refine (frame_mapPageSv39 hp ht).bind fun _ => ?_
    refine (frame_mapPageSv39 hp ht).bind fun _ => ?_
    exact (frame_mapRange hp ht).bind fun _ => frame_mapRange hp ht
  · exact Frame.pure

theorem frame_mapStack {pt sp pid : ℕ} : Frame S (mapStack pt sp pid : KM cfg _) :=
  (frame_mapPageSv39 hp ht).bind fun _ => frame_mapPageSv39 hp ht

theorem frame_copyPageTable {dst src pid : ℕ} : Frame S (copyPageTable dst src pid : KM cfg _) := by
  unfold copyPageTable
  dsimp only
  split
  · refine Frame.forM fun vpn2 => Frame.get.bind fun k => ?_
    split
    · refine Frame.forM fun vpn1 => Frame.get.bind fun k => ?_
      split
      · refine Frame.forM fun vpn0 => Frame.get.bind fun k => ?_
        split
        · exact frame_mapPageSv39 hp ht
        · exact Frame.pure
      · exact Frame.pure
    · exact Frame.pure
  · exact Frame.pure

end

/-! ## Scheduling -/

theorem frame_wake {p : Slot cfg} {site : Site cfg} : Frame S (wake p site) :=
  frame_setState.bind fun _ => frame_modifyProc fun _ => rfl

theorem frame_updateProcByChan {p : Slot cfg} {c : Chan cfg} : Frame S (updateProcByChan p c) := by
  refine Frame.bind (Frame.of_rest fun _ => rfl) fun _ => Frame.get.bind fun k => ?_
  dsimp only
  split
  · exact frame_wake
  · split
    · exact frame_wake
    · exact Frame.pure

theorem frame_procMarkForWakeup {c : Chan cfg} : Frame S (procMarkForWakeup c) := by
  refine frame_withLock (Frame.get.bind fun k => ?_)
  split
  · exact Frame.pure
  · refine Frame.forM fun q => Frame.get.bind fun k => ?_
    dsimp only
    split
    · exact frame_withLock frame_updateProcByChan
    · exact Frame.pure

theorem frame_checkExitedChildren (hp : .pages ∈ S) {p : Slot cfg} {call : Kont cfg} :
    Frame S (checkExitedChildren p call) := by
  refine (Frame.findSomeM fun q => Frame.get.bind fun k => ?_).bind fun _ => Frame.pure
  split
  · refine frame_withLock (Frame.get.bind fun k => ?_)
    dsimp only
    split
    · exact (frame_releasePage hp).bind fun _ => frame_setState.bind fun _ => Frame.pure
    · exact Frame.pure
  · exact Frame.pure

theorem frame_psleep {p : Slot cfg} {call : Kont cfg} : Frame S (psleep p call : KM cfg α) :=
  frame_setState.bind fun _ => Frame.get.bind fun _ =>
    Frame.bind (frame_modifyProc fun _ => rfl) fun _ => Frame.throw

theorem frame_procYield {p : Slot cfg} {c : Chan cfg} {call : Kont cfg} :
    Frame S (procYield p c call : KM cfg α) :=
  Frame.bind (frame_modifyProc fun _ => rfl) fun _ => frame_psleep

/-! ## Pipes -/

section

variable (hf : .files ∈ S) (hh : .handles ∈ S)
include hf hh

theorem frame_takeFile (i : Option (Fin maxFiles)) : Frame S (takeFile i : KM cfg _) := by
  cases i with
  | none => exact Frame.pure
  | some i => exact Frame.bind (Frame.of_setFile hf hh) fun _ => Frame.pure

theorem frame_fsAllocFile : Frame S (fsAllocFile : KM cfg _) :=
  frame_withLock (Frame.get.bind fun k => frame_takeFile hf hh (freeFile k))

end

/-- An update of the descriptors of a process. -/
theorem frame_modifyFiles (hd : .fds ∈ S) {p : Slot cfg}
    {g : Proc cfg → Fin maxProcFds → Option FileRef} :
    Frame S (modifyProc p fun x => { x with files := g x }) := by
  refine Frame.of_setProc fun k x hx => ?_
  cases x with
  | fds => exact absurd hd hx
  | procfs => exact ⟨rfl, rfl, rfl⟩
  | stackPages => exact ⟨rfl, rfl, rfl⟩
  | _ => trivial

theorem frame_fdAlloc (hd : .fds ∈ S) {p : Slot cfg} {f : FileRef} : Frame S (fdAlloc p f) := by
  refine Frame.get.bind fun k => ?_
  split
  · exact Frame.pure
  · exact Frame.bind (frame_modifyFiles hd) fun _ => Frame.pure

section

variable (he : .ends ∈ S) (hp : .pages ∈ S)
include he hp

theorem frame_allocPipe {pid : ℕ} : Frame S (allocPipe pid : KM cfg _) := by
  refine (frame_kalloc hp).bind fun buf => ?_
  split
  · exact Frame.pure
  refine frame_withLock (Frame.get.bind fun k => ?_)
  split
  · exact Frame.pure
  · refine Frame.bind (Frame.of_setPipe (.inl he) (.inr fun _ => rfl)) fun _ => frame_acquire.bind fun _ => ?_
    exact Frame.bind (Frame.of_setPipe (.inl he) (.inr fun _ => rfl)) fun _ => Frame.pure

theorem frame_freePipe {i : Fin maxPipes} (hr : .ring i ∈ S) : Frame S (freePipe i : KM cfg _) :=
  Frame.get.bind fun _ => (frame_releasePage hp).bind fun _ => Frame.of_setPipe (.inl he) (.inl hr)

variable (hf : .files ∈ S) (hh : .handles ∈ S)
include hf hh

theorem frame_pipeCloseFile (hr : ∀ i, .ring i ∈ S) {f : FileRef} :
    Frame S (pipeCloseFile f : KM cfg _) := by
  refine Frame.get.bind fun k => ?_
  split
  · exact Frame.pure
  · exact Frame.throw
  refine frame_withLock (Frame.get.bind fun k => ?_)
  dsimp only
  split
  · refine frame_procMarkForWakeup.bind fun _ => ?_
    split
    · refine Frame.get.bind fun k => ?_
      split
      · exact Frame.throw
      · exact Frame.bind (Frame.of_setFile hf hh) fun _ => frame_freePipe he hp (hr _)
    · exact Frame.pure
  · split
    · split
      · exact Frame.bind (Frame.of_setPipe (.inl he) (.inr fun _ => rfl)) fun _ => frame_procMarkForWakeup
      · exact frame_procMarkForWakeup
    · exact Frame.pure

variable (hd : .fds ∈ S)
include hd

omit hp in
/-- Once `pipe_open` has set the positions of the pipe, it leaves the rings alone. -/
theorem frame_pipeEnds_reset {p : Slot cfg} {i : Fin maxPipes} {pipefd : ℕ} {k : Kernel cfg} {x : Part}
    (hx : x ∉ S) :
    x.Same (k.setPipe i { k.pipes i with wpos := 0, rpos := 0 }) (final (pipeEnds p i pipefd k)) := by
  rw [pipeEnds, modify_bind_apply]
  refine Frame.here ?_ hx
  refine (frame_fsAllocFile hf hh).bind fun f0 => (frame_fsAllocFile hf hh).bind fun f1 => ?_
  have hfail : ∀ e, Frame S (do setErrno p e; release (.pipe i); return -1 : KM cfg ℤ) := fun e =>
    frame_setErrno.bind fun _ => frame_release.bind fun _ => Frame.pure
  split
  · refine Frame.bind (Frame.of_setFile hf hh) fun _ => Frame.bind (Frame.of_setFile hf hh) fun _ => ?_
    refine Frame.bind (Frame.of_setPipe (.inl he) (.inr fun _ => rfl)) fun _ => ?_
    refine (frame_fdAlloc hd).bind fun fd0 => (frame_fdAlloc hd).bind fun fd1 => ?_
    split
    · refine frame_release.bind fun _ => Frame.get.bind fun k => ?_
      dsimp only
      split
      · exact Frame.throw
      · exact frame_store.bind fun _ => Frame.pure
    · exact hfail _
  · exact hfail _

omit hp in
theorem frame_pipeEnds {p : Slot cfg} {i : Fin maxPipes} {pipefd : ℕ} (hr : .ring i ∈ S) :
    Frame S (pipeEnds p i pipefd) := by
  intro k x hx
  refine Part.Same.trans ?_ (frame_pipeEnds_reset he hf hh hd hx)
  exact Frame.of_setPipe (g := fun k => { k.pipes i with wpos := 0, rpos := 0 }) (.inl he) (.inl hr) k x hx

theorem frame_pipeOpen (hr : ∀ i, .ring i ∈ S) {p : Slot cfg} {pipefd : ℕ} :
    Frame S (pipeOpen p pipefd) := by
  refine Frame.get.bind fun k => (frame_allocPipe he hp).bind fun i => ?_
  split
  · exact frame_setErrno.bind fun _ => Frame.pure
  · exact frame_pipeEnds he hf hh hd (hr _)

end

theorem frame_pipeTake {i : Fin maxPipes} {buf size : ℕ} (hr : .ring i ∈ S) :
    Frame S (pipeTake i buf size : KM cfg _) := by
  refine Frame.get.bind fun k => frame_store.bind fun _ => ?_
  refine Frame.bind (Frame.of_setPipe (.inr fun _ => rfl) (.inl hr)) fun _ => ?_
  have hlog : ∀ (n : ℕ) bs, Frame S (do
      modify fun k => { k with io := .store buf n :: .delivered i bs :: k.io }
      return n : KM cfg ℤ) := fun n bs =>
    Frame.bind (Frame.of_log (fun _ => rfl) fun _ =>
      ⟨[.store buf n, .delivered i bs], rfl, by simp [Io.pipe, hr]⟩)
      fun _ => Frame.pure
  dsimp only
  split
  · exact Frame.bind (Frame.of_setPipe (.inr fun _ => rfl) (.inl hr)) fun _ => hlog _ _
  · exact hlog _ _

theorem frame_pipeReadLoopTop {p : Slot cfg} {f : FileRef} {i : Fin maxPipes} {buf size : ℕ}
    (hr : .ring i ∈ S) : Frame S (pipeReadLoopTop p f i buf size) := by
  have htry : Frame S (pipeReadTry i buf size : KM cfg _) := by
    refine frame_withLock (Frame.get.bind fun k => ?_)
    dsimp only
    split
    · split
      · exact Frame.pure
      · exact frame_procMarkForWakeup.bind fun _ => Frame.pure
    · exact (frame_pipeTake hr).bind fun _ => Frame.pure
  refine htry.bind fun r => ?_
  split
  · exact Frame.pure
  · exact frame_procYield

theorem frame_pipeRead {p : Slot cfg} {f : FileRef} {buf size : ℕ} (hr : ∀ i, .ring i ∈ S) :
    Frame S (pipeRead p f buf size) := by
  refine Frame.get.bind fun k => ?_
  split
  · exact Frame.throw
  · exact Frame.throw
  · exact frame_pipeReadLoopTop (hr _)

/-- An update of the contents of the kernel's pages. -/
theorem frame_modifyKmem (hm : .kmem ∈ S) {g : Kernel cfg → ℕ → ℕ → UInt8} :
    Frame S (modifyGet fun k => (PUnit.unit, { k with kmem := g k }) : KM cfg PUnit) := by
  refine Frame.modify fun k x hx => ?_
  cases x with
  | kmem => exact absurd hm hx
  | files | pages | pte | uart => rfl
  | handles | ends | dirs | bfiles => exact fun _ => rfl
  | bdata => exact fun _ => ⟨rfl, rfl⟩
  | ring => exact Part.same_ring rfl rfl
  | fds | procfs | stackPages => exact fun q => Part.SameProc.refl _

section

variable (hm : .kmem ∈ S)
include hm

theorem frame_pipeDoWrite {i : Fin maxPipes} {buf nbytes : ℕ} (hr : .ring i ∈ S) :
    Frame S (pipeDoWrite i buf nbytes : KM cfg _) := by
  refine Frame.get.bind fun k => ?_
  refine Frame.bind (frame_modifyKmem hm) fun _ => ?_
  refine Frame.bind (Frame.of_setPipe (.inr fun _ => rfl) (.inl hr)) fun _ => ?_
  refine Frame.bind (Frame.of_log (fun _ => rfl) fun _ => ⟨[_, _], rfl, ?_⟩) fun _ => Frame.pure
  simp [Io.pipe, hr]

omit hm in
/-- What `pipe_write` does after `pipe_do_write`. -/
theorem frame_writeEnd {i : Fin maxPipes} {nbytes nwritten wr : ℕ} : Frame S (do
    if 0 < wr then procMarkForWakeup (.pipe i)
    if nwritten + wr = nbytes then return .inl (nwritten + wr : ℕ) else return .inr (nwritten + wr) :
      KM cfg (ℤ ⊕ ℕ)) := by
  have hret : Frame S (if nwritten + wr = nbytes then Pure.pure (.inl (nwritten + wr : ℕ))
      else Pure.pure (.inr (nwritten + wr)) : KM cfg (ℤ ⊕ ℕ)) := by
    split
    · exact Frame.pure
    · exact Frame.pure
  dsimp only
  split
  · exact frame_procMarkForWakeup.bind fun _ => hret
  · exact hret

theorem frame_pipeWriteLoopTop {p : Slot cfg} {f : FileRef} {i : Fin maxPipes}
    {buf nbytes nwritten : ℕ} (hr : .ring i ∈ S) :
    Frame S (pipeWriteLoopTop p f i buf nbytes nwritten) := by
  have htry : Frame S (pipeWriteTry i buf nbytes nwritten : KM cfg _) := by
    refine frame_withLock (Frame.get.bind fun k => ?_)
    dsimp only
    split
    · exact Frame.pure
    split
    · exact (frame_pipeDoWrite hm hr).bind fun _ => frame_writeEnd
    · exact Frame.pure.bind fun _ => frame_writeEnd
  refine htry.bind fun r => ?_
  split
  · exact Frame.pure
  · exact frame_procYield

theorem frame_pipeWrite {p : Slot cfg} {f : FileRef} {buf nbytes : ℕ} (hr : ∀ i, .ring i ∈ S) :
    Frame S (pipeWrite p f buf nbytes) := by
  refine Frame.get.bind fun k => ?_
  split
  · exact Frame.pure
  · exact Frame.throw
  · exact frame_pipeWriteLoopTop hm (hr _)

theorem frame_pipeWriteResume {p : Slot cfg} {f : FileRef} {i : Fin maxPipes} {buf nbytes nwritten : ℕ}
    (hr : .ring i ∈ S) : Frame S (pipeWriteResume p f i buf nbytes nwritten) := by
  refine Frame.get.bind fun k => ?_
  split
  · exact Frame.pure
  · exact frame_pipeWriteLoopTop hm hr

end

/-! ## The console -/

/-- An update of the console, and of what no part is about, in which bytes are transferred. -/
theorem frame_modifyUart (hu : .uart ∈ S) {g : Kernel cfg → Kernel cfg}
    (h : ∀ k, { g k with uart0 := k.uart0, io := k.io }.parts = k.parts)
    (hl : ∀ k, ∃ new, (g k).io = new ++ k.io ∧ ∀ e ∈ new, e.pipe = none) :
    Frame S (modifyGet fun k => (PUnit.unit, g k) : KM cfg PUnit) := by
  refine Frame.modify fun k x hx => ?_
  have hsame : x.Same k { g k with uart0 := k.uart0, io := k.io } := Part.same_of_parts (h k)
  cases x with
  | uart => exact absurd hu hx
  | ring =>
    obtain ⟨new, hio, hnew⟩ := hl k
    exact ⟨hsame.1, new, hio, fun e he => by simp [hnew e he]⟩
  | _ => exact hsame

theorem frame_uartReadline (hu : .uart ∈ S) {p : Slot cfg} {f : FileRef} {buf bufsize : ℕ} :
    Frame S (uartReadline p f buf bufsize) := by
  refine Frame.get.bind fun k => ?_
  split
  · refine Frame.get.bind fun k => frame_store.bind fun _ => ?_
    refine Frame.bind (frame_modifyUart hu (fun _ => rfl) fun _ => ⟨[_], rfl, ?_⟩) fun _ => Frame.pure
    simp [Io.pipe]
  · exact frame_procYield

theorem frame_uartWrite {buf nbytes : ℕ} : Frame S (uartWrite buf nbytes : KM cfg _) :=
  Frame.bind (Frame.of_log (fun _ => rfl) fun _ => ⟨[.load buf nbytes], rfl, by simp [Io.pipe]⟩)
    fun _ => Frame.pure

theorem frame_uartEnqueueLoop (hu : .uart ∈ S) (chs : List UInt8) (wpos : ℕ) :
    Frame S (uartEnqueueLoop chs wpos : KM cfg _) := by
  induction chs generalizing wpos with
  | nil => exact Frame.pure
  | cons ch chs ih =>
    refine Frame.get.bind fun k => ?_
    dsimp only
    split
    · split
      · exact Frame.bind (frame_modifyUart hu (fun _ => rfl) fun _ => ⟨[], rfl, by simp⟩) fun _ => ih _
      · exact ih _
    · split
      · exact frame_procMarkForWakeup.bind fun _ => ih _
      · split
        · refine Frame.bind (frame_modifyUart hu (fun _ => rfl) fun _ => ⟨[], rfl, by simp⟩) fun _ => ?_
          refine frame_procMarkForWakeup.bind fun _ => ?_
          exact Frame.bind (frame_modifyUart hu (fun _ => rfl) fun _ => ⟨[], rfl, by simp⟩) fun _ => ih _
        · exact Frame.bind (frame_modifyUart hu (fun _ => rfl) fun _ => ⟨[], rfl, by simp⟩) fun _ => ih _

theorem frame_uartEnqueueChars (hu : .uart ∈ S) (received : List UInt8) :
    Frame S (uartEnqueueChars received : KM cfg _) :=
  Frame.get.bind fun _ => (frame_uartEnqueueLoop hu _ _).bind fun _ =>
    frame_modifyUart hu (fun _ => rfl) fun _ => ⟨[], rfl, by simp⟩

/-! ## The baked-in file system -/

theorem frame_bifsOpendir {parent : Fin bifsMaxDirs} {name : List UInt8} {start stop : ℕ} :
    Frame S (bifsOpendir parent name start stop : KM cfg _) := by
  refine Frame.findSomeM fun i => Frame.get.bind fun k => ?_
  dsimp only
  split
  · exact Frame.pure
  · split
    · exact Frame.throw
    · split
      · exact Frame.pure
      · exact Frame.pure

theorem frame_opendirLoop {path : List UInt8} {stop : ℕ} (turns : ℕ) (dir : Fin bifsMaxDirs)
    (prev pos : ℕ) : Frame S (opendirLoop path stop turns dir prev pos : KM cfg _) := by
  induction turns generalizing dir prev pos with
  | zero => exact Frame.pure
  | succ turns ih =>
    unfold opendirLoop
    split
    · refine frame_bifsOpendir.bind fun d => ?_
      cases d with
      | none => exact Frame.pure
      | some d => exact ih _ _ _
    · exact Frame.pure

theorem frame_bifsOpendirpath {path : List UInt8} {stop : ℕ} :
    Frame S (bifsOpendirpath path stop : KM cfg _) := by
  refine (frame_opendirLoop _ _ _ _).bind fun r => ?_
  split
  · exact Frame.pure
  · split
    · exact frame_bifsOpendir
    · exact Frame.pure

theorem frame_bifsOpen {path : List UInt8} : Frame S (bifsOpen path : KM cfg _) := by
  have hfile : ∀ {d : Fin bifsMaxDirs} {start stop : ℕ},
      Frame S (bifsOpenfile d path start stop : KM cfg _) := by
    intro d start stop
    refine Frame.findSomeM fun j => Frame.get.bind fun k => ?_
    dsimp only
    split
    · exact Frame.pure
    · split
      · exact Frame.throw
      · split
        · exact Frame.pure
        · exact Frame.pure
  unfold bifsOpen
  dsimp only
  split
  · exact Frame.pure
  · refine frame_bifsOpendirpath.bind fun d => ?_
    split
    · exact Frame.pure
    · refine hfile.bind fun j => ?_
      split
      · exact Frame.pure
      · exact Frame.pure

theorem frame_lsdirLoop {dirents size : ℕ} (es : List (Option (ℕ × Option (List UInt8)))) (n : ℕ) :
    Frame S (lsdirLoop dirents size es n : KM cfg _) := by
  induction es generalizing n with
  | nil => exact Frame.pure
  | cons e es ih =>
    unfold lsdirLoop
    split
    · exact Frame.pure
    · split
      · exact ih _
      · exact Frame.throw
      · split
        · exact Frame.throw
        · exact frame_store.bind fun _ => ih _

theorem frame_bifsRead {f : FileRef} {pos buf size : ℕ} :
    Frame S (bifsRead f pos buf size : KM cfg _) := by
  have hdeliver : ∀ bytes, Frame S (bifsRead.deliver buf bytes : KM cfg _) := fun bytes =>
    frame_store.bind fun _ => Frame.bind (Frame.of_log (fun _ => rfl) fun _ =>
      ⟨[.store buf bytes.length], rfl, by simp [Io.pipe]⟩) fun _ => Frame.pure
  refine Frame.get.bind fun k => ?_
  split
  · exact Frame.throw
  · exact Frame.throw
  · split
    · exact Frame.throw
    · split
      · exact Frame.throw
      · exact hdeliver _
    · exact hdeliver _

/-- An update of the directories. -/
theorem frame_modifyDirs (hs : .dirs ∈ S) {g : Kernel cfg → Fin bifsMaxDirs → BifsDir cfg} :
    Frame S (modifyGet fun k => (PUnit.unit, { k with dirs := g k }) : KM cfg PUnit) := by
  refine Frame.modify fun k x hx => ?_
  cases x with
  | dirs => exact absurd hs hx
  | files | pages | pte | kmem | uart => rfl
  | handles | ends | bfiles => exact fun _ => rfl
  | bdata => exact fun _ => ⟨rfl, rfl⟩
  | ring => exact Part.same_ring rfl rfl
  | fds | procfs | stackPages => exact fun q => Part.SameProc.refl _

theorem frame_bifsAllocateDir (hs : .dirs ∈ S) : Frame S (bifsAllocateDir : KM cfg _) := by
  refine Frame.get.bind fun k => ?_
  cases freeDir k with
  | none => exact Frame.pure
  | some i => exact Frame.bind (frame_modifyDirs hs) fun _ => Frame.pure

theorem frame_bifsMkdir (hs : .dirs ∈ S) {parentPath : List UInt8} {name : BifsName cfg} :
    Frame S (bifsMkdir parentPath name) := by
  refine frame_bifsOpendirpath.bind fun d => ?_
  split
  · exact Frame.pure
  · refine (frame_bifsAllocateDir hs).bind fun i => ?_
    split
    · exact Frame.pure
    · exact Frame.bind (frame_modifyDirs hs) fun _ => Frame.pure

theorem frame_bifsAllocateFile (hb : .bfiles ∈ S) : Frame S (bifsAllocateFile : KM cfg _) := by
  refine Frame.get.bind fun k => ?_
  cases freeBifsFile k with
  | none => exact Frame.pure
  | some j =>
    refine Frame.bind (Frame.of_bfile (.inl hb) (.inr fun k j' => ?_)) fun _ => Frame.pure
    by_cases h : j' = j
    · subst h
      simp
    · simp [h]

end HobbyOs
