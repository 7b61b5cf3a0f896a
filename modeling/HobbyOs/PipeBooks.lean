import HobbyOs.KernelStep
import HobbyOs.PipeAccounts

/-!
# The accounts of the pipes of the machine

`pipe_accounting` is about the calls on one pipe on their own. The accounts are
the same along the runs of the machine, where a read or a write is a part of a
system call, a call goes on by way of `check_exited_children`, and processes are
created and exit.

* `Books`: what code of the kernel, other than `pipe_open`, does to a pipe. It is
  a preorder, so that a call does what its parts do (`Evolves`);
* `Booked`: what a step does; `pipe_open` only takes a pipe that is not allocated;
* `machine_accounting`: the accounts of a pipe are right in every state of a run,
  from one in which it is empty, for as long as it stays allocated.
-/

namespace HobbyOs

open Outcome Transition

variable {cfg : Config} {α : Type} {p : Slot cfg} {i j : Fin maxPipes} {f : FileRef}
  {k k₁ k' : Kernel cfg} {m m₀ : Machine cfg} {e : Event cfg}

/-! ## Books -/

/-- What was in the ring, and what the pipe has accepted since, is what it has
    delivered and what is in the ring. -/
def InBalance (i : Fin maxPipes) (k k' : Kernel cfg) : Prop :=
  ∃ new, k'.io = new ++ k.io ∧ (k.pipes i).fill cfg + (acceptedBytes i new).length =
    (deliveredBytes i new).length + (k'.pipes i).fill cfg

/-- The pipe stays in order, and balances unless it is freed. -/
structure Books (i : Fin maxPipes) (k k' : Kernel cfg) : Prop where
  ok : (k.pipes i).Ok cfg → (k'.pipes i).Ok cfg
  kept : (k'.pipes i).allocated = true → (k.pipes i).allocated = true
  balances : (k.pipes i).Ok cfg → (k'.pipes i).allocated = true → InBalance i k k'

theorem acceptedBytes_append (i : Fin maxPipes) (new old : List Io) :
    acceptedBytes i (new ++ old) = acceptedBytes i old ++ acceptedBytes i new := by
  induction new with
  | nil => simp [acceptedBytes]
  | cons e new ih => cases e <;> simp [acceptedBytes, ih]

theorem deliveredBytes_append (i : Fin maxPipes) (new old : List Io) :
    deliveredBytes i (new ++ old) = deliveredBytes i old ++ deliveredBytes i new := by
  induction new with
  | nil => simp [deliveredBytes]
  | cons e new ih => cases e <;> simp [deliveredBytes, ih]

/-- Nothing is accepted or delivered that does not go through the pipe. -/
theorem transferred_nil {new : List Io} (h : ∀ e ∈ new, e.pipe ≠ some i) :
    acceptedBytes i new = [] ∧ deliveredBytes i new = [] := by
  induction new with
  | nil => exact ⟨rfl, rfl⟩
  | cons e new ih =>
    obtain ⟨he, hnew⟩ := List.forall_mem_cons.1 h
    obtain ⟨ha, hd⟩ := ih hnew
    cases e with
    | accepted q bs | delivered q bs =>
      have hq : q ≠ i := fun hq => he (congrArg some hq)
      simp [acceptedBytes, deliveredBytes, ha, hd, hq]
    | store | load => exact ⟨ha, hd⟩

theorem InBalance.trans (h : InBalance i k k₁) (h' : InBalance i k₁ k') : InBalance i k k' := by
  obtain ⟨new, hio, hb⟩ := h
  obtain ⟨new', hio', hb'⟩ := h'
  refine ⟨new' ++ new, by rw [hio', hio, List.append_assoc], ?_⟩
  rw [acceptedBytes_append, deliveredBytes_append, List.length_append, List.length_append]
  omega

theorem Pipe.Ok.congr {q q' : Pipe} (h : q.Ok cfg) (hq : q'.positions = q.positions) : q'.Ok cfg := by
  obtain ⟨hr, hw, hf⟩ : q'.rpos = q.rpos ∧ q'.wpos = q.wpos ∧ q'.bufFull = q.bufFull := by
    simpa [Pipe.positions] using hq
  exact ⟨hr ▸ h.rpos, hw ▸ h.wpos, fun hfull => by rw [hr, hw, h.full (hf ▸ hfull)]⟩

theorem Pipe.fill_congr {q q' : Pipe} (hq : q'.positions = q.positions) : q'.fill cfg = q.fill cfg := by
  obtain ⟨hr, hw, hf⟩ : q'.rpos = q.rpos ∧ q'.wpos = q.wpos ∧ q'.bufFull = q.bufFull := by
    simpa [Pipe.positions] using hq
  rw [Pipe.fill, Pipe.fill, Pipe.room, Pipe.room, hr, hw, hf]

/-- A ring that is left alone balances. -/
theorem InBalance.of_same (h : (Part.ring i).Same k k') : InBalance i k k' := by
  obtain ⟨hpos, new, hio, hnew⟩ := h
  obtain ⟨ha, hd⟩ := transferred_nil hnew
  refine ⟨new, hio, ?_⟩
  rw [ha, hd, Pipe.fill_congr hpos]
  simp

namespace Books

theorem of_same (h : (Part.ring i).Same k k') (he : (k'.pipes i).allocated = (k.pipes i).allocated) :
    Books i k k' where
  ok hok := hok.congr h.1
  kept halloc := he.symm.trans halloc
  balances _ _ := .of_same h

theorem trans (h : Books i k k₁) (h' : Books i k₁ k') : Books i k k' where
  ok hok := h'.ok (h.ok hok)
  kept halloc := h.kept (h'.kept halloc)
  balances hok halloc := (h.balances hok (h'.kept halloc)).trans (h'.balances (h.ok hok) halloc)

instance : IsPreorder (Kernel cfg) (Books i) where
  refl _ := of_same (.refl _) rfl
  trans _ _ _ := .trans

end Books

/-- Code that leaves the pipe alone keeps its books. -/
theorem Frame.books {m : KM cfg α} (hm : Frame {.ends, .ring i}ᶜ m) : Evolves (Books i) m := fun k =>
  .of_same (hm k _ (by simp)) (congrArg Ends.allocated (hm k .ends (by simp) i))

theorem books_withLock {l : Lock cfg} {m : KM cfg α} (hm : Evolves (Books i) m) :
    Evolves (Books i) (withLock l m) :=
  (frame_acquire.books).bind fun _ => hm.bind fun _ => (frame_release.books).bind fun _ => .pure

/-! ## Reading and writing -/

theorem books_pipeTake (buf size : ℕ) (hne : ¬(k.pipes j).Empty) :
    Books i k (final (pipeTake j buf size k)) := by
  by_cases hj : j = i
  · subst hj
    have hends : Part.ends.Same k (final (pipeTake j buf size k)) :=
      frame_pipeTake (S := {.ring j}) rfl k _ (by simp)
    refine ⟨fun hok => ?_, fun h => (congrArg Ends.allocated (hends j)).symm.trans h, fun hok _ => ?_⟩
    · obtain ⟨k', h, ht⟩ := pipeTake_apply hok hne buf size
      rw [h]
      exact ht.ok hok
    · obtain ⟨k', h, ht⟩ := pipeTake_apply hok hne buf size
      obtain ⟨a, hio⟩ := ht.io
      have hle : min size ((k.pipes j).fill cfg) ≤ (k.pipes j).fill cfg := min_le_right _ _
      rw [h]
      refine ⟨[_, _], hio, ?_⟩
      rw [final_ok, ht.fill hok hne hle]
      simp only [acceptedBytes, deliveredBytes, if_true, List.length_append, List.length_map,
        List.length_range, List.length_nil]
      omega
  · refine Frame.books (frame_pipeTake ?_) k
    simpa using hj

theorem books_pipeReadLoopTop {buf size : ℕ} : Evolves (Books i) (pipeReadLoopTop p f j buf size) := by
  have htry : Evolves (Books i) (pipeReadTry j buf size : KM cfg _) := by
    refine books_withLock fun k => ?_
    rw [get_bind_apply]
    by_cases he : (k.pipes j).rpos = (k.pipes j).wpos ∧ (k.pipes j).bufFull = false
    · rw [if_pos he]
      refine Frame.books ?_ k
      split
      · exact Frame.pure
      · exact frame_procMarkForWakeup.bind fun _ => Frame.pure
    · rw [if_neg he]
      exact Evolves.bind_apply (books_pipeTake buf size he) fun _ => .pure
  refine htry.bind fun r => ?_
  split
  · exact .pure
  · exact frame_procYield.books

theorem books_pipeDoWrite (buf nbytes : ℕ) (hroom : 0 < pipeAvailable cfg (k.pipes j)) :
    Books i k (final (pipeDoWrite j buf nbytes k)) := by
  by_cases hj : j = i
  · subst hj
    have hends : Part.ends.Same k (final (pipeDoWrite j buf nbytes k)) :=
      frame_pipeDoWrite (S := {.kmem, .ring j}) (by simp) (by simp) k _ (by simp)
    refine ⟨fun hok => ?_, fun h => (congrArg Ends.allocated (hends j)).symm.trans h, fun hok _ => ?_⟩
    · have hf := (pipeAvailable_eq hok).2.1 hroom
      obtain ⟨bytes, k', h, hlen, hp⟩ := pipeDoWrite_apply hok hf buf nbytes
      rw [h]
      refine hp.ok hok hf fun hfull => ?_
      rw [hlen, min_eq_right (of_decide_eq_true hfull)]
    · have hf := (pipeAvailable_eq hok).2.1 hroom
      obtain ⟨bytes, k', h, hlen, hp⟩ := pipeDoWrite_apply hok hf buf nbytes
      obtain ⟨a, hio⟩ := hp.io
      rw [h]
      refine ⟨[_, _], hio, ?_⟩
      rw [final_ok, Puts.fill hok hf hlen hp]
      simp only [acceptedBytes, deliveredBytes, if_true, List.length_append, List.length_nil]
      omega
  · refine Frame.books (frame_pipeDoWrite (by simp) ?_) k
    simpa using hj

theorem books_pipeWriteLoopTop {buf nbytes nwritten : ℕ} :
    Evolves (Books i) (pipeWriteLoopTop p f j buf nbytes nwritten) := by
  have htry : Evolves (Books i) (pipeWriteTry j buf nbytes nwritten : KM cfg _) := by
    refine books_withLock fun k => ?_
    rw [get_bind_apply]
    by_cases hbufs : pipeAvailable cfg (k.pipes j) < 0
    · dsimp only
      rw [if_pos hbufs]
      exact Frame.pure.books k
    dsimp only
    rw [if_neg hbufs]
    by_cases hroom : 0 < pipeAvailable cfg (k.pipes j)
    · rw [if_pos hroom]
      exact Evolves.bind_apply (books_pipeDoWrite _ _ hroom) fun _ => frame_writeEnd.books
    · rw [if_neg hroom]
      exact Frame.books (Frame.pure.bind fun _ => frame_writeEnd) k
  refine htry.bind fun r => ?_
  split
  · exact .pure
  · exact frame_procYield.books

theorem books_procRead {fd buf size : ℕ} : Evolves (Books i) (procRead p fd buf size) := by
  refine frame_fileOf.books.bind fun o => ?_
  split
  · exact (frame_setErrno.bind fun _ => Frame.pure).books
  refine Evolves.get.bind fun k => ?_
  dsimp only
  split
  · exact (frame_setErrno.bind fun _ => Frame.pure).books
  refine Evolves.bind (Evolves.get.bind fun k => ?_) fun _ => (frame_readTail (by simp)).books
  split
  · exact .pure
  · exact (frame_uartReadline (by simp)).books
  · exact frame_bifsRead.books
  · refine Evolves.get.bind fun k => ?_
    split
    · exact .throw
    · exact .throw
    · exact books_pipeReadLoopTop

theorem books_procWrite {fd buf nbytes : ℕ} : Evolves (Books i) (procWrite p fd buf nbytes) := by
  refine frame_fileOf.books.bind fun o => ?_
  split
  · exact (frame_setErrno.bind fun _ => Frame.pure).books
  refine Evolves.get.bind fun k => ?_
  dsimp only
  split
  · exact (frame_setErrno.bind fun _ => Frame.pure).books
  refine frame_writeSize.books.bind fun n =>
    Evolves.bind (Evolves.get.bind fun k => ?_) fun _ => frame_writeTail.books
  split
  · exact .pure
  · exact frame_uartWrite.books
  · exact .pure
  · refine Evolves.get.bind fun k => ?_
    split
    · exact .pure
    · exact .throw
    · exact books_pipeWriteLoopTop

/-! ## Closing -/

theorem books_freePipe : Evolves (Books i) (freePipe j : KM cfg Unit) := by
  refine Evolves.get.bind fun k => (frame_releasePage (by simp)).books.bind fun _ k => ?_
  set k' := k.setPipe j { k.pipes j with allocated := false, writeClosed := false, bufFull := false }
  show Books i k k'
  by_cases hj : j = i
  · subst hj
    have hfreed : k'.pipes j = { k.pipes j with allocated := false, writeClosed := false, bufFull := false } :=
      Function.update_self _ _ _
    refine ⟨fun hok => ?_, fun h => ?_, fun _ h => ?_⟩
    · rw [hfreed]
      exact ⟨hok.rpos, hok.wpos, nofun⟩
    · simp [hfreed] at h
    · simp [hfreed] at h
  · have hkept : k'.pipes i = k.pipes i := Function.update_of_ne (Ne.symm hj) _ _
    exact .of_same ⟨by rw [hkept], .of_eq rfl⟩ (by rw [hkept])

theorem books_pipeCloseFile : Evolves (Books i) (pipeCloseFile f : KM cfg Unit) := by
  refine Evolves.get.bind fun k => ?_
  split
  · exact .pure
  · exact .throw
  refine books_withLock (Evolves.get.bind fun k => ?_)
  dsimp only
  split
  · refine frame_procMarkForWakeup.books.bind fun _ => ?_
    split
    · refine Evolves.get.bind fun k => ?_
      split
      · exact .throw
      · exact (Frame.of_setFile (by simp) (by simp)).books.bind fun _ => books_freePipe
    · exact .pure
  · exact frame_closeWriter.books

theorem books_fsFreeFile : Evolves (Books i) (fsFreeFile f : KM cfg Unit) := by
  have htmp : Evolves (Books i) (freeTmpfile f : KM cfg Unit) :=
    (frame_freeTmpfile (by simp) (by simp) (by simp) (by simp)).books
  refine (Frame.of_setFile (by simp) (by simp)).books.bind fun _ => Evolves.get.bind fun k => ?_
  dsimp only
  split
  · exact books_pipeCloseFile.bind fun _ => htmp
  · exact htmp

theorem books_procClose {fd : ℕ} : Evolves (Books i) (procClose p fd) := by
  refine frame_fileOf.books.bind fun o => ?_
  split
  · exact (frame_setErrno.bind fun _ => Frame.pure).books
  · exact books_fsFreeFile.bind fun _ => ((frame_setFd (by simp)).bind fun _ => Frame.pure).books

theorem books_procExit : Evolves (Books i) (procExit p) := by
  refine Evolves.get.bind fun k => (frame_releasePage (by simp)).books.bind fun _ => ?_
  refine Evolves.get.bind fun k => ?_
  refine (frame_freePageTable (by simp)).books.bind fun _ => frame_setState.books.bind fun _ => ?_
  refine Evolves.get.bind fun k => ?_
  dsimp only
  split
  · exact .throw
  · refine frame_wakeParent.books.bind fun _ => Evolves.bind (Evolves.forM fun d => ?_) fun _ =>
      (frame_leaveTable (by simp) (by simp) _).books
    split
    · exact .pure
    · exact books_fsFreeFile

/-! ## Opening -/

/-- What a step does to a pipe: it stays in order, and balances if it was allocated and still is. -/
structure Booked (i : Fin maxPipes) (k k' : Kernel cfg) : Prop where
  ok : (k.pipes i).Ok cfg → (k'.pipes i).Ok cfg
  balances : (k.pipes i).Ok cfg → (k.pipes i).allocated = true → (k'.pipes i).allocated = true →
    InBalance i k k'

theorem Books.booked (h : Books i k k') : Booked i k k' := ⟨h.ok, fun hok _ => h.balances hok⟩

theorem Booked.of_ring (h : (Part.ring i).Same k k') : Booked i k k' :=
  ⟨fun hok => hok.congr h.1, fun _ _ _ => .of_same h⟩

/-- `pipe_open` takes a pipe that is not allocated, and leaves the others alone. -/
theorem booked_pipeOpen (pipefd : ℕ) : Booked i k (final (pipeOpen p pipefd k)) := by
  rw [pipeOpen, get_bind_apply]
  have halloc : (Part.ring i).Same k (final (allocPipe (k.procs p).pid k)) :=
    frame_allocPipe (S := {.ends, .pages}) (by simp) (by simp) k _ (by simp)
  cases hr : allocPipe (k.procs p).pid k with
  | error e k₁ =>
    rw [hr] at halloc
    rw [bind_error hr]
    exact .of_ring halloc
  | ok o k₁ =>
    rw [hr] at halloc
    rw [bind_ok hr]
    cases o with
    | none =>
      exact .of_ring <| halloc.trans <|
        (frame_setErrno.bind fun _ => Frame.pure) k₁ _ (Set.notMem_empty _)
    | some j =>
      cases allocPipe_result hr with
      | @pipe _ b _ hflag =>
        set k₁ := ((k.takePage b (k.procs p).pid).setPipe j
          { k.pipes j with allocated := true, buf := cfg.pagePtr b }).setHeld (.pipe j) true with hk₁
        have hend : (Part.ring i).Same (k₁.setPipe j { k₁.pipes j with wpos := 0, rpos := 0 })
            (final (pipeEnds p j pipefd k₁)) :=
          frame_pipeEnds_reset (S := {.ends, .files, .handles, .fds}) (by simp) (by simp) (by simp) (by simp)
            (by simp)
        by_cases hj : j = i
        · subst hj
          -- The opened ring itself: its account starts at this call.
          have hfree : (k.pipes j).allocated = false := by
            simp only [Pipe.anyFlag, Bool.or_eq_false_iff] at hflag
            exact hflag.1.1
          refine ⟨fun _ => Pipe.Ok.congr ⟨?_, ?_, fun _ => ?_⟩ hend.1, fun _ h _ => ?_⟩
          · simpa [Kernel.setPipe] using cfg.pipeBufSize_pos
          · simpa [Kernel.setPipe] using cfg.pipeBufSize_pos
          · simp [Kernel.setPipe]
          · rw [hfree] at h
            cases h
        · -- A ring other than the one that is reset.
          have hkept : (Part.ring i).Same k₁ (k₁.setPipe j { k₁.pipes j with wpos := 0, rpos := 0 }) :=
            ⟨by simp [Kernel.setPipe, Ne.symm hj], .of_eq rfl⟩
          exact .of_ring (halloc.trans (hkept.trans hend))

/-! ## Steps -/

theorem booked_runCall (c : Call) : Booked i k (final (runCall p c k)) := by
  cases c with
  | read => exact (books_procRead k).booked
  | write => exact (books_procWrite k).booked
  | close => exact (books_procClose k).booked
  | exit => exact (books_procExit k).booked
  | pipe pipefd => exact booked_pipeOpen pipefd
  | fork =>
    refine .of_ring ((frame_procFork (S := {.ring i}ᶜ) ?_ ?_ ?_ ?_ ?_ ?_ ?_ ?_ ?_ ?_) k _ ?_) <;> simp
  | _ => exact .of_ring (frame_runCall p _ k _ (by simp [Call.parts]))

theorem books_resume : Evolves (Books i) (resume p : KM cfg Unit) := by
  refine Evolves.get.bind fun k => ?_
  generalize (k.procs p).ctx = call
  -- Only a call that yielded on the ring itself goes on to move its bytes.
  by_cases hcall : call.yieldChan = some (.pipe i)
  · cases call with
    | pipeRead g j buf size =>
      refine (frame_afterYield (by simp)).books.bind fun _ => books_pipeReadLoopTop.bind fun n => ?_
      exact ((frame_readTail (by simp)).bind fun _ => frame_syscallTail).books
    | pipeWrite g j buf nbytes nwritten =>
      refine (frame_afterYield (by simp)).books.bind fun _ =>
        Evolves.bind (Evolves.get.bind fun k => ?_) fun n =>
        (frame_writeTail.bind fun _ => frame_syscallTail).books
      split
      · exact .pure
      · exact books_pipeWriteLoopTop
    | _ => simp [Kont.yieldChan] at hcall
  · refine (frame_resumeFrom (by simp) (by simp) (by simp) (fun j hj => ?_) fun _ _ _ _ => by simp).books
    have hne : j ≠ i := fun h => hcall (h ▸ hj)
    simpa using hne

/-- A step that the kernel does not halt in keeps the books of every pipe. -/
theorem booked_step (h : KernelStep m e k') : Booked i m.k k' := by
  -- Whatever the event does after its call leaves every part alone.
  have hafter : ∀ {k k₁ : Kernel cfg}, Booked i k k₁ → (∀ x : Part, x.Same k₁ k') →
      Booked i k k' := by
    intro k k₁ hk hsame
    refine ⟨fun hok => (hk.ok hok).congr (hsame (.ring i)).1, fun hok h h' => ?_⟩
    have halloc : (k₁.pipes i).allocated = true :=
      (congrArg Ends.allocated (hsame .ends i)).symm.trans h'
    exact (hk.balances hok h halloc).trans (.of_same (hsame _))
  have hended : ∀ {β : Type} {r : EStateM.Result (Stop cfg) (Kernel cfg) β} {how : How} {k₁ : Kernel cfg},
      Ended r how k₁ → final r = k₁ := by
    rintro _ _ _ _ (h | h) <;> rw [h] <;> rfl
  cases h with
  | aside hsame _ => exact .of_ring (hsame _)
  | plic _ _ hsame _ => exact .of_ring (hsame _ nofun)
  | @resume p _ _ _ _ _ hend _ hsame _ _ =>
    refine hafter ?_ hsame
    rw [← hended hend]
    exact (books_resume m.k).booked
  | @call p c _ k₁ _ _ _ _ hend _ hsame _ =>
    have hcall : Booked i ((trap m).entry p) k₁ := hended hend ▸ booked_runCall c
    exact hafter ⟨hcall.ok, hcall.balances⟩ hsame

/-! ## Runs -/

theorem books_kinit : Evolves (Books i) (kinit : KM cfg Unit) := by
  refine (frame_makeKernelPageTable (by simp) (by simp)).books.bind fun _ => Evolves.bind ?_ fun _ k => ?_
  · unfold assignInitProgram
    split
    · exact .throw
    · refine frame_allocProcess.books.bind fun q => ?_
      split
      · exact .throw
      · refine (frame_initProc (by simp) (by simp) (by simp) (by simp) (by simp) (by simp) (by simp)
          (by simp)).books.bind fun status => ?_
        dsimp only
        split
        · exact .throw
        · exact (frame_startInit _).books
  · refine ⟨fun hok => ⟨hok.rpos, hok.wpos, nofun⟩, fun h => ?_, fun _ h => ?_⟩
    · cases h
    · cases h

/-- The positions of a pipe are always within its buffer. -/
theorem pipe_ok_of_reach (h : Reach (machine cfg) free m) (hm : ∀ why, m.mode ≠ .halted why) :
    (m.k.pipes i).Ok cfg := by
  refine kernel_of_reach_running (I := fun k => (k.pipes i).Ok cfg) (fun {mem k} hk => ?_)
    (fun _ hok _ hs => (booked_step hs).ok hok) h hm
  have hbooks := books_kinit (i := i) (initKernel cfg mem)
  rw [hk] at hbooks
  exact hbooks.ok ⟨cfg.pipeBufSize_pos, cfg.pipeBufSize_pos, nofun⟩

/-- The accounts of a pipe are right in every state that the machine reaches from one in which it is empty, for
    as long as it stays allocated. -/
theorem machine_accounting (h₀ : Reach (machine cfg) free m₀) (hempty : (m₀.k.pipes i).Empty)
    (h : Path (machine cfg) (fun u _ => (u.k.pipes i).allocated = true) m₀ m)
    (halloc : (m.k.pipes i).allocated = true) (hm : ∀ why, m.mode ≠ .halted why) :
    Accounting i m₀.k m.k := by
  have hok₀ := pipe_ok_of_reach (i := i) h₀ (running_of_path h hm)
  have hinv : (m.k.pipes i).Ok cfg ∧ ((m.k.pipes i).allocated = true → InBalance i m₀.k m.k) := by
    refine kernel_of_path_running
      (I := fun k => (k.pipes i).Ok cfg ∧ ((k.pipes i).allocated = true → InBalance i m₀.k k))
      (base_of_reach h₀) (.inr ⟨hok₀, fun _ => .of_same (.refl _)⟩) (fun _ hI hC hs => ?_) h hm
    have hstep := booked_step (i := i) hs
    exact ⟨hstep.ok hI.1, fun h' => (hI.2 hC).trans (hstep.balances hI.1 hC h')⟩
  obtain ⟨new, hio, hnew⟩ := hinv.2 halloc
  rw [hok₀.fill_eq_occupancy, hempty.occupancy, Nat.zero_add] at hnew
  exact Balanced.accounting ⟨new, hio, hnew⟩ hinv.1

/-- The first process opens a pipe. -/
def opensFirstPipe : List (Event .qemuE) := [Event.kernel, .kernel] ++ calls 29 0x80003f00 0 0 []

/-- It forks and reads; the child writes more than there is room for, and goes on
    when the parent has read; it closes the writing end and exits, and the parent
    takes a part of what is left. -/
def childWritesAndExits : List (Event .qemuE) :=
  calls 2 0 0 0 [] ++ calls 3 3 0x80003e00 20 [] ++ [Event.kernel, .kernel] ++ calls 4 4 0x80003c00 200 [] ++
    List.replicate 5 Event.kernel ++ calls 3 3 0x80003e00 200 [] ++ calls 3 3 0x80003e00 10 [] ++
    [Event.kernel, .kernel] ++ calls 6 4 0 0 [] ++ calls 1 0 0 0 [] ++ List.replicate 5 Event.kernel

theorem childWritesAndExits_accounting : ∃ m₀ m : Machine .qemuE,
    (m₀.k.pipes 0).Empty ∧ (m.k.pipes 0).occupancy .qemuE = 62 ∧ m.k.numProcs = 1 ∧
    Accounting 0 m₀.k m.k := by
  have h : ∃ m₀ ∈ runFrom .qemuE opensFirstPipe, (m₀.k.pipes 0).Empty ∧
      ∃ m ∈ run (fun (u : Machine .qemuE) _ => (u.k.pipes 0).allocated = true) (machine .qemuE)
          childWritesAndExits m₀,
        (m.k.pipes 0).occupancy .qemuE = 62 ∧ m.k.numProcs = 1 ∧ (m.k.pipes 0).allocated = true ∧
          m.mode = .user := by
    decide +kernel
  obtain ⟨m₀, hrun, hempty, m, hpath, hocc, hprocs, halloc, hmode⟩ := h
  refine ⟨m₀, m, hempty, hocc, hprocs, ?_⟩
  exact machine_accounting (reach_of_runFrom hrun) hempty (.of_run _ hpath) halloc (by simp [hmode])

end HobbyOs
