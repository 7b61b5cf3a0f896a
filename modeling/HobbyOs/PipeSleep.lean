import HobbyOs.Fifo

/-!
# Who sleeps on a pipe

A reader that takes bytes does not wake writers, and a writer that waits has
not been told of a reader. That the two ends of a pipe do not wait for each
other rests on what both do before they sleep: a reader marks the pipe, and so
does a writer that has put bytes.

`Peaceful` is the invariant: a process asleep in `pipe_read` has found the pipe
empty and open, and nobody sleeps in `pipe_write` then.
-/

namespace HobbyOs

open Outcome Transition

variable {cfg : Config} {p : Slot cfg} {i : Fin maxPipes} {f : FileRef} {k k₀ k₁ k' : Kernel cfg}
  {s t : Core cfg}

/-- The process sleeps in `pipe_read`. -/
def AsleepReading (i : Fin maxPipes) (p : Slot cfg) (s : Core cfg) : Prop :=
  (s.procs p).state = .sleeping ∧ ∃ f buf size, (s.procs p).ctx = .pipeRead f i buf size

/-- The process sleeps in `pipe_write`. -/
def AsleepWriting (i : Fin maxPipes) (p : Slot cfg) (s : Core cfg) : Prop :=
  (s.procs p).state = .sleeping ∧ ∃ f buf nbytes nwritten,
    (s.procs p).ctx = .pipeWrite f i buf nbytes nwritten

/-- The process is in a call on the pipe, asleep or woken. -/
def OnPipe (i : Fin maxPipes) (p : Slot cfg) (s : Core cfg) : Prop :=
  ((s.procs p).state = .sleeping ∨ (s.procs p).state = .ready) ∧ (pipeCall i p (s.procs p).ctx).isSome

/-- Whoever sleeps in a call on the pipe can be woken by a mark. -/
structure Wakeable (i : Fin maxPipes) (s : Core cfg) : Prop where
  cond : ∀ q, OnPipe i q s → (s.procs q).cond.type = .chan
  chan : ∀ q, AsleepReading i q s ∨ AsleepWriting i q s → (s.procs q).chan = .pipe i

/-- Nobody sleeps in a call on the pipe. -/
def Nobody (i : Fin maxPipes) (s : Core cfg) : Prop :=
  ∀ q, ¬AsleepReading i q s ∧ ¬AsleepWriting i q s

/-- A reader sleeps only while the pipe is empty and open, and no writer does. -/
structure Peaceful (i : Fin maxPipes) (k : Kernel cfg) : Prop where
  wakeable : Wakeable i k.core
  readers : ∀ q, AsleepReading i q k.core → (k.pipes i).Empty ∧ (k.pipes i).writeClosed = false ∧
    ∀ r, ¬AsleepWriting i r k.core

theorem AsleepReading.onPipe {s : Core cfg} (h : AsleepReading i p s) : OnPipe i p s := by
  obtain ⟨hs, f, buf, size, hctx⟩ := h
  exact ⟨.inl hs, by simp [hctx, pipeCall]⟩

theorem AsleepWriting.onPipe {s : Core cfg} (h : AsleepWriting i p s) : OnPipe i p s := by
  obtain ⟨hs, f, buf, nbytes, nwritten, hctx⟩ := h
  exact ⟨.inl hs, by simp [hctx, pipeCall]⟩

theorem OnPipe.congr (h : t.procs p = s.procs p) : OnPipe i p t ↔ OnPipe i p s := by
  rw [OnPipe, OnPipe, h]

theorem AsleepReading.congr (h : t.procs p = s.procs p) : AsleepReading i p t ↔ AsleepReading i p s := by
  rw [AsleepReading, AsleepReading, h]

theorem AsleepWriting.congr (h : t.procs p = s.procs p) : AsleepWriting i p t ↔ AsleepWriting i p s := by
  rw [AsleepWriting, AsleepWriting, h]

/-! ## Changes of a core -/

/-- Processes are woken or run, and otherwise stay as they are. -/
structure Rouses (s t : Core cfg) : Prop where
  cond : ∀ q, (t.procs q).cond = (s.procs q).cond
  sleeping : ∀ q, (t.procs q).state = .sleeping → t.procs q = s.procs q
  /-- Nobody gets into a call on a pipe. -/
  onPipe : ∀ i q, OnPipe i q t → OnPipe i q s

theorem Wakes.rouses (h : Wakes s t) : Rouses s t where
  cond q := by
    rcases h.procs_eq q with h | ⟨-, h⟩ <;> rw [h]
  sleeping q hq := by
    refine (h.procs_eq q).resolve_right fun ⟨_, h⟩ => ?_
    simp [h] at hq
  onPipe i q hq := by
    rcases h.procs_eq q with h | ⟨hs, h⟩
    · exact (OnPipe.congr h).1 hq
    · refine ⟨.inl hs, ?_⟩
      have hctx := hq.2
      rwa [h] at hctx

theorem Begins.rouses (h : Begins p k k') : Rouses k.core k'.core where
  cond q := by
    by_cases hq : q = p
    · subst hq
      rw [h.own]
    · rw [h.procs q hq]
  sleeping q hq := by
    by_cases hqp : q = p
    · subst hqp
      simp [h.own] at hq
    · exact h.procs q hqp
  onPipe i q hq := by
    by_cases hqp : q = p
    · subst hqp
      simp [OnPipe, h.own] at hq
    · exact (OnPipe.congr (h.procs q hqp)).1 hq

namespace Rouses

theorem refl : Rouses s s := ⟨fun _ => rfl, fun _ _ => rfl, fun _ _ h => h⟩

/-- One process changes, and not by falling asleep or by getting into a call. -/
theorem of_one (hcond : (t.procs p).cond = (s.procs p).cond) (hs : (t.procs p).state ≠ .sleeping)
    (hon : ∀ i, OnPipe i p t → OnPipe i p s) (hothers : ∀ q ≠ p, t.procs q = s.procs q) :
    Rouses s t where
  cond q := by
    by_cases hq : q = p
    · rw [hq, hcond]
    · rw [hothers q hq]
  sleeping q hq := hothers q fun h => hs (h ▸ hq)
  onPipe i q hq := by
    by_cases hqp : q = p
    · subst hqp
      exact hon i hq
    · exact (OnPipe.congr (hothers q hqp)).1 hq

theorem wake (h : (s.procs p).state = .sleeping) {site : Site cfg} : Rouses s (s.setState p .ready site) := by
  refine of_one (p := p) (by simp) (by simp) (fun i hi => ⟨.inl h, ?_⟩) fun q hq => by simp [hq]
  simpa [OnPipe] using hi

theorem tick {site : Site cfg} :
    Rouses s ((s.setState p .ready site).update p fun x => { x with ctx := .timerTick }) :=
  of_one (p := p) (by simp) (by simp) (fun i hi => by simp [OnPipe, pipeCall] at hi) fun q hq => by simp [hq]

theorem reading (h : Rouses s t) {q : Slot cfg} (hq : AsleepReading i q t) : AsleepReading i q s :=
  (AsleepReading.congr (h.sleeping q hq.1)).1 hq

theorem writing (h : Rouses s t) {q : Slot cfg} (hq : AsleepWriting i q t) : AsleepWriting i q s :=
  (AsleepWriting.congr (h.sleeping q hq.1)).1 hq

theorem wakeable (h : Rouses s t) (hs : Wakeable i s) : Wakeable i t where
  cond q hq := h.cond q ▸ hs.cond q (h.onPipe i q hq)
  chan q hq := by
    have hsl : (t.procs q).state = .sleeping := hq.elim (·.1) (·.1)
    rw [h.sleeping q hsl]
    exact hs.chan q (hq.imp h.reading h.writing)

theorem peaceful (h : Rouses k.core k'.core) (hk : Peaceful i k) (hp : k'.pipes i = k.pipes i) :
    Peaceful i k' where
  wakeable := h.wakeable hk.wakeable
  readers q hq := by
    obtain ⟨hempty, hopen, hno⟩ := hk.readers q (h.reading hq)
    exact ⟨hp ▸ hempty, hp ▸ hopen, fun r hr => hno r (h.writing hr)⟩

end Rouses

/-- After everybody who can be woken by a mark has been woken, nobody sleeps. -/
theorem Wakeable.nobody (hs : Wakeable i k.core) (hn : k.core.numProcs ≠ 0) (hw : Wakes k.core k'.core)
    (hall : WakesAll (.pipe i) k k') : Nobody i k'.core := by
  have hawake : ∀ q, AsleepReading i q k'.core ∨ AsleepWriting i q k'.core → False := by
    intro q hq
    have hsl : (k'.core.procs q).state = .sleeping := hq.elim (·.1) (·.1)
    have hsame := hw.rouses.sleeping q hsl
    have hq' := hq.imp hw.rouses.reading hw.rouses.writing
    have hready := hall hn q ⟨hsame ▸ hsl, hs.chan q hq',
      hs.cond q (hq'.elim (·.onPipe) (·.onPipe))⟩
    rw [hsl] at hready
    cases hready
  exact fun q => ⟨fun h => hawake q (.inl h), fun h => hawake q (.inr h)⟩

theorem Wakeable.sleep {frame : TrapFrame} {call : Kont cfg} (hs : Wakeable i s)
    (hcond : (s.procs p).cond.type = .chan) :
    Wakeable i (s.sleep p (fun x => { x with chan := .pipe i }) frame call) := by
  have hother : ∀ q ≠ p, (s.sleep p (fun x => { x with chan := .pipe i }) frame call).procs q = s.procs q :=
    fun _ hq => Core.sleep_procs_of_ne hq
  refine ⟨fun q hq => ?_, fun q hq => ?_⟩
  · by_cases hqp : q = p
    · subst hqp
      simpa [Core.sleep] using hcond
    · have hsame := hother q hqp
      rw [hsame]
      exact hs.cond q ((OnPipe.congr hsame).1 hq)
  · by_cases hqp : q = p
    · subst hqp
      simp [Core.sleep]
    · have hsame := hother q hqp
      rw [hsame]
      exact hs.chan q (hq.imp (AsleepReading.congr hsame).1 (AsleepWriting.congr hsame).1)

/-! ## Steps -/

namespace Peaceful

theorem of_nobody (hw : Wakeable i k.core) (h : Nobody i k.core) : Peaceful i k :=
  ⟨hw, fun q hq => absurd hq (h q).1⟩

/-- A reader falls asleep, after everybody has been woken. -/
theorem sleep_reading {frame : TrapFrame} {buf size : ℕ} (hw : Wakeable i k.core)
    (hcond : (k.core.procs p).cond.type = .chan) (hn : Nobody i k.core) (he : (k.pipes i).Empty)
    (hopen : (k.pipes i).writeClosed = false)
    (hc : k'.core = k.core.sleep p (fun x => { x with chan := .pipe i }) frame (.pipeRead f i buf size))
    (hd : k'.data = k.data) : Peaceful i (k'.setHeld (.proc p) false) := by
  have hpipes : k'.pipes = k.pipes := congrArg Prod.fst hd
  refine ⟨show Wakeable i k'.core from hc ▸ hw.sleep hcond, fun q _ =>
    ⟨hpipes ▸ he, hpipes ▸ hopen, fun r hr => ?_⟩⟩
  replace hr : AsleepWriting i r k'.core := hr
  rw [hc] at hr
  by_cases hrp : r = p
  · subst hrp
    simp [AsleepWriting, Core.sleep] at hr
  · exact (hn r).2 ((AsleepWriting.congr (Core.sleep_procs_of_ne hrp)).1 hr)

/-- A writer falls asleep, while no reader sleeps. -/
theorem sleep_writing {frame : TrapFrame} {buf nbytes nwritten : ℕ} (hw : Wakeable i k.core)
    (hcond : (k.core.procs p).cond.type = .chan) (hn : ∀ q, ¬AsleepReading i q k.core)
    (hc : k'.core = k.core.sleep p (fun x => { x with chan := .pipe i }) frame
      (.pipeWrite f i buf nbytes nwritten)) : Peaceful i (k'.setHeld (.proc p) false) := by
  refine ⟨show Wakeable i k'.core from hc ▸ hw.sleep hcond, fun q hq => ?_⟩
  replace hq : AsleepReading i q k'.core := hq
  rw [hc] at hq
  by_cases hqp : q = p
  · subst hqp
    simp [AsleepReading, Core.sleep] at hq
  · exact absurd ((AsleepReading.congr (Core.sleep_procs_of_ne hqp)).1 hq) (hn q)

theorem no_reader (hk : Peaceful i k) (h : ¬(k.pipes i).Empty) (q : Slot cfg) :
    ¬AsleepReading i q k.core := fun hq => h (hk.readers q hq).1

theorem read {buf size : ℕ} {r : EStateM.Result (Stop cfg) (Kernel cfg) ℤ} (hk : Peaceful i k)
    (hn : k.core.numProcs ≠ 0) (hcond : (k.core.procs p).cond.type = .chan)
    (h : ReadResult p f i buf size k r) : Peaceful i (settle p r) := by
  cases h with
  | eof _ _ => exact hk
  | @sleep k₁ k' _ he hopen hm hall hc hh hd =>
    have hpipes : k₁.pipes = k.pipes := congrArg Prod.fst hm.data
    exact sleep_reading (hm.wakes.rouses.wakeable hk.wakeable) (by rwa [hm.wakes.rouses.cond])
      (hk.wakeable.nobody hn hm.wakes hall) (hpipes ▸ he) (hpipes ▸ hopen) hc hd
  | @take _ k' hne ht =>
    refine ⟨show Wakeable i k'.core from ht.core ▸ hk.wakeable, fun q hq => ?_⟩
    exact absurd (ht.core ▸ hq) (hk.no_reader hne q)

theorem write {buf nbytes nwritten : ℕ} {r : EStateM.Result (Stop cfg) (Kernel cfg) ℤ}
    (hk : Peaceful i k) (hn : k.core.numProcs ≠ 0) (hcond : (k.core.procs p).cond.type = .chan)
    (hok : (k.pipes i).Ok cfg) (h : WriteResult p f i buf nbytes nwritten k r) :
    Peaceful i (settle p r) := by
  cases h with
  | none _ _ => exact hk
  | wait hf hc _ _ =>
    refine sleep_writing hk.wakeable hcond (hk.no_reader fun he => ?_) hc
    simp [he.2] at hf
  | @put bytes k₁ k' _ hf hlen hp hm hall =>
    have hw : Wakeable i k₁.core := hp.core ▸ hk.wakeable
    by_cases hb : bytes = []
    -- nothing was put: the pipe is as it was
    · have hroom : 0 < (k.pipes i).room cfg := by
        rw [Pipe.room, hf]
        exact Ring.dist_pos hok.wpos
      have hpipe : k₁.pipes i = k.pipes i := by
        rw [hp.pipe, hb]
        rw [hb, List.length_nil] at hlen
        have hn : ¬(k.pipes i).room cfg ≤ nbytes - nwritten := by omega
        simp [hn, Nat.mod_eq_of_lt hok.wpos]
      have hpipe' : k'.pipes i = k.pipes i := (congrFun (congrArg Prod.fst hm.data) i).trans hpipe
      have hr : Rouses k.core k'.core := hp.core ▸ hm.wakes.rouses
      exact hr.peaceful hk hpipe'
    · exact of_nobody (hm.wakes.rouses.wakeable hw) (hw.nobody (by rwa [hp.core]) hm.wakes (hall hb))
  | @putWait bytes k₁ k₂ k' _ hf _ _ hp hm hall _ hc _ _ =>
    have hw : Wakeable i k₁.core := hp.core ▸ hk.wakeable
    refine sleep_writing (hm.wakes.rouses.wakeable hw) ?_ (fun q => (hw.nobody ?_ hm.wakes hall q).1) hc
    · rw [hm.wakes.rouses.cond, hp.core]
      exact hcond
    · rwa [hp.core]

end Peaceful

/-- Whoever begins a call on the pipe waits for a channel. -/
def ByChan (k : Kernel cfg) : PipeEvent cfg → Prop
  | .read p .. | .write p .. => (k.procs p).cond.type = .chan
  | _ => True

instance (k : Kernel cfg) : DecidablePred (ByChan k)
  | .read .. | .write .. => inferInstanceAs (Decidable (_ = _))
  | .close _ | .goOn _ | .wake _ | .run _ | .tick _ | .user _ | .refs .. => .isTrue trivial

theorem Caller.cond {e : PipeEvent cfg} (h : Caller i k p e) (hw : Wakeable i k.core) (he : ByChan k e) :
    (k.core.procs p).cond.type = .chan := by
  cases h with
  | read | write => exact he
  | goOn hin => exact hw.cond p hin

namespace Peaceful

/-- Every step keeps the peace, while marks wake processes. -/
theorem move {e : PipeEvent cfg} (h : Peaceful i k) (hk : PipeOrder i k)
    (he : ByChan k e) (hn : k.numProcs ≠ 0)
    (hm : PipeMove i k e k') : Peaceful i k' := by
  have hbegins : ∀ {p k₁}, Begins p k k₁ → Peaceful i k₁ := fun hb =>
    hb.rouses.peaceful h (congrFun (congrArg Prod.fst hb.data) i)
  have hcond : ∀ {p k₁}, Caller i k p e → Begins p k k₁ → (k₁.core.procs p).cond.type = .chan := by
    intro p k₁ hc hb
    rw [hb.rouses.cond]
    exact hc.cond h.wakeable he
  have hprocs : ∀ {p k₁}, Begins p k k₁ → k₁.core.numProcs ≠ 0 :=
    fun hb heq => hn (hb.numProcs.symm.trans heq)
  cases hm with
  | read hc _ hb hr => exact (hbegins hb).read (hprocs hb) (hcond hc hb) hr
  | write hc _ _ hb hr => exact (hbegins hb).write (hprocs hb) (hcond hc hb) (hb.ready hk.ready).ok hr
  | begins hb => exact hbegins hb
  | close _ hc => exact of_nobody (hc.wakes.rouses.wakeable h.wakeable) (h.wakeable.nobody hn hc.wakes hc.all)
  | wake hs => exact Rouses.peaceful (Kernel.setState_core _ _ _ _ ▸ .wake hs) h rfl
  | @tick p k' _ hc _ hd =>
    refine Rouses.peaceful (hc ▸ ?_) h (congrFun (congrArg Prod.fst hd) i)
    exact .tick
  | aside hc _ hp _ _ => exact Rouses.peaceful (hc ▸ .refl) h (congrFun hp i)

end Peaceful

theorem peaceful_of_opened (h : Opened i k) : Peaceful i k := by
  have hnobody : Nobody i k.core := fun q =>
    ⟨fun hq => h.idle q hq.onPipe, fun hq => h.idle q hq.onPipe⟩
  refine .of_nobody ⟨fun q hq => absurd hq (h.idle q), fun q hq => ?_⟩ hnobody
  exact absurd hq (not_or.2 ⟨(hnobody q).1, (hnobody q).2⟩)

/-- The two ends of a pipe, used by processes that wait for a channel, never wait for
    each other, as long as processes are counted: a process sleeps in `pipe_read`
    only while the pipe is empty and open, and none sleeps in `pipe_write` then.

    Where `num_procs` is zero, `proc_mark_for_wakeup` wakes nobody. -/
theorem pipe_ends_not_deadlocked {k₀ k : Kernel cfg} (h₀ : Opened i k₀)
    (h : Path (pipeSystem cfg i) (fun k e => ByChan k e ∧ k.numProcs ≠ 0) k₀ k) :
    (∀ p, AsleepReading i p k.core → (k.pipes i).Empty ∧ (k.pipes i).writeClosed = false) ∧
      ¬∃ p q, AsleepReading i p k.core ∧ AsleepWriting i q k.core := by
  have hinv : PipeOrder i k ∧ Peaceful i k := by
    refine h.induct (I := fun k => PipeOrder i k ∧ Peaceful i k) ⟨h₀.order, peaceful_of_opened h₀⟩ ?_
    intro u u' e hu hC hs
    have hm := pipeStep_move hu.1 hs
    exact ⟨hu.1.move hm, hu.2.move hu.1 hC.1 hC.2 hm⟩
  constructor
  · intro p hp
    obtain ⟨he, hopen, -⟩ := hinv.2.readers p hp
    exact ⟨he, hopen⟩
  · rintro ⟨p, q, hp, hq⟩
    exact (hinv.2.readers p hp).2.2 q hq

/-- The kernel after the first process has called `pipe` and then `fork`. -/
def afterPipeAndFork : Option (Kernel .qemuE) :=
  (runFrom .qemuE [.kernel, .kernel, .exec (callRegs 0x80003ff0 29 0x80003f00 0 0) [], .ecall,
    .exec (callRegs 0x80003ff0 2 0 0 0) [], .ecall]).map (·.k)

/-- The parent reads, and the child writes more than there is room for, while
    the parent has been woken and reads again. -/
def parentReadsChild : List (PipeEvent .qemuE) :=
  [readTo 20, .run ⟨1, by decide⟩, .write ⟨1, by decide⟩ (.ftable 1) 0x80003c00 200,
    .goOn ⟨0, Config.qemuE_maxProcs_pos⟩, readTo 200, readTo 20]

theorem parentReadsChild_not_deadlocked :
    ∃ k₀ k :
    Kernel .qemuE, Opened 0 k₀ ∧ AsleepReading 0 ⟨0, by decide⟩ k.core ∧ (k.pipes 0).Empty ∧
      ¬AsleepWriting 0 ⟨1, by decide⟩ k.core := by
  have h : ∃ k₀ ∈ afterPipeAndFork, Opened 0 k₀ ∧
      ∃ k ∈ run (fun k e => ByChan k e ∧ k.numProcs ≠ 0) (pipeSystem .qemuE 0) parentReadsChild k₀,
        (k.procs ⟨0, by decide⟩).state = .sleeping ∧
        (k.procs ⟨0, by decide⟩).ctx = .pipeRead (.ftable ⟨0, by decide⟩) 0 0x80003e00 20 := by
    decide +kernel
  obtain ⟨k₀, -, h₀, k, hk, hs, hctx⟩ := h
  have hreads : AsleepReading 0 ⟨0, by decide⟩ k.core := ⟨hs, _, _, _, hctx⟩
  obtain ⟨he, hno⟩ := pipe_ends_not_deadlocked h₀ (.of_run _ hk)
  exact ⟨k₀, k, h₀, hreads, (he _ hreads).1, fun hw => hno ⟨_, _, hreads, hw⟩⟩

/-- The first process forks a child that forks two and exits; they exit too, each
    after it has run again, and each makes it ready, to exit once more. So there are
    more exits than forks; the first process opens a pipe and forks. -/
def exitsAgain : List (Event .qemuE) :=
  [Event.kernel, .kernel] ++ calls 2 0 0 0 [] ++ calls 31 100 0 0 [] ++ [Event.kernel, .kernel] ++
    calls 2 0 0 0 [] ++ calls 2 0 0 0 [] ++ calls 1 0 0 0 [] ++ [Event.kernel, .kernel] ++ calls 1 0 0 0 [] ++
    [Event.kernel, .kernel, .tick, .kernel, .kernel, .kernel, .tick, .kernel, .kernel] ++ calls 1 0 0 0 [] ++
    [Event.kernel, .kernel, .kernel] ++ calls 1 0 0 0 [] ++ [Event.kernel, .kernel, .kernel] ++
    calls 31 100 0 0 [] ++ [Event.kernel, .kernel] ++ calls 1 0 0 0 [] ++ List.replicate 5 Event.kernel ++
    calls 29 0x80003f00 0 0 [] ++ calls 2 0 0 0 []

/-- The parent reads, and sleeps; the child writes, and wakes nobody. -/
theorem uncounted_reader_sleeps :
    ¬∀ (m : Machine .qemuE) (k : Kernel .qemuE), Reach (machine .qemuE) free m → Opened 0 m.k →
      Path (pipeSystem .qemuE 0) ByChan m.k k →
      (∀ p, AsleepReading 0 p k.core → (k.pipes 0).Empty ∧ (k.pipes 0).writeClosed = false) ∧
        ¬∃ p q, AsleepReading 0 p k.core ∧ AsleepWriting 0 q k.core := by
  have h : ∃ m ∈ runFrom .qemuE exitsAgain, Opened 0 m.k ∧
      ∃ k ∈ run ByChan (pipeSystem .qemuE 0)
        [readTo 20, .run ⟨1, by decide⟩, .write ⟨1, by decide⟩ (.ftable 1) 0x80003c00 5] m.k,
        (k.procs ⟨0, by decide⟩).state = .sleeping ∧
        (k.procs ⟨0, by decide⟩).ctx = .pipeRead (.ftable ⟨0, by decide⟩) 0 0x80003e00 20 ∧
          ¬(k.pipes 0).Empty := by
    decide +kernel
  obtain ⟨m, hm, h₀, k, hk, hs, hctx, hne⟩ := h
  intro hall
  exact hne ((hall m k (reach_of_runFrom hm) h₀ (.of_run _ hk)).1 _ ⟨hs, _, _, _, hctx⟩).1

end HobbyOs
