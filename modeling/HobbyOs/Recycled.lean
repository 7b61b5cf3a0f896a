import HobbyOs.FileCalls
import HobbyOs.KernelStep
import HobbyOs.Lookup

/-!
# Recycled slots

A process that `proc_fork` makes gets a slot that another one may have had. What
the child is like, field by field (`Newborn`): everything is set that the
scheduler and the wake-up code read, but for `chan` and `wakeup_time`, which are
those of the last process in the slot.

* `SameButFree`: two kernels that differ in free slots only;
* `newborns_alike_iff`: from two such kernels, `proc_fork` makes the same child
  if and only if the two fields are the same in the slot it takes.
-/

namespace HobbyOs

open Outcome Transition

variable {cfg : Config} {p q : Slot cfg} {k k' k₁ k₂ : Kernel cfg} {m : Machine cfg}

/-! ## The child -/

/-- The child of `p` that is in the slot `q` of `k'`, made from `k`. -/
structure Newborn (p q : Slot cfg) (k k' : Kernel cfg) : Prop where
  state : (k'.procs q).state = .ready
  cond : (k'.procs q).cond = ⟨.chan, noPid, 0⟩
  nscheds : (k'.procs q).nscheds = 0
  parent : (k'.procs q).parent = some p
  files : (k'.procs q).files = (k.procs p).files
  ctx : (k'.procs q).ctx = .forkret
  trap : ∃ i, freePage k = some i ∧ (k'.procs q).trap =
    childTrap { k.procs p with stackPage := cfg.pagePtr i } { k.procs p with trap := k.trapFrame }
  /-- The fields that `init_proc` does not set. -/
  chan : (k'.procs q).chan = (k.procs q).chan
  wakeupTime : (k'.procs q).wakeupTime = (k.procs q).wakeupTime

/-- The registers of the child depend on its stack page only. -/
theorem childTrap_congr {x x' y y' : Proc cfg} (hx : x.stackPage = x'.stackPage) (ht : y.trap = y'.trap)
    (hy : y.stackPage = y'.stackPage) : childTrap x y = childTrap x' y' := by
  simp only [childTrap, reoffsetUserStack, hx, ht, hy]

/-- The stack pages after `init_proc` in the slot `q`. -/
structure InitsStack (q : Slot cfg) (k k' : Kernel cfg) : Prop where
  own : ∃ i, freePage k = some i ∧ (k'.procs q).stackPage = cfg.pagePtr i
  others : ∀ r ≠ q, (k'.procs r).stackPage = (k.procs r).stackPage

theorem initProcPages_stack {sp ksp : ℕ} (h : initProcPages q k = .ok (some (sp, ksp)) k') :
    (∃ i, freePage k = some i ∧ sp = cfg.pagePtr i) ∧
      ∀ r, (k'.procs r).stackPage = (k.procs r).stackPage := by
  cases initProcPages_ok h with
  | noMmu _ hi _ => exact ⟨⟨_, hi, rfl⟩, fun _ => rfl⟩
  | @mmu i _ _ k₁ _ _ hi _ _ htable hstack =>
    refine ⟨⟨i, hi, rfl⟩, fun r => ?_⟩
    have hkept : (k'.procs r).stackPage = (k₁.procs r).stackPage :=
      (Frame.same (x := .stackPages) (frame_mapStack (by simp) (by simp)) hstack r).1
    refine hkept.trans
      (((Frame.same (x := .stackPages) (frame_initUserPageTable (by simp) (by simp)) htable r).1).trans ?_)
    by_cases hr : r = q
    · subst hr
      simp [Kernel.takeTable, Kernel.setProc, Kernel.takePage]
    · simp [Kernel.takeTable, Kernel.setProc, Kernel.takePage, hr]

theorem fillProc_stack {pc sp ksp : ℕ} {name : Option (List UInt8)} {status : ℤ}
    (h : fillProc q pc name sp ksp k = .ok status k') :
    (k'.procs q).stackPage = sp ∧ ∀ r ≠ q, (k'.procs r).stackPage = (k.procs r).stackPage := by
  rw [fillProc, get_bind_apply] at h
  simp only [modifyProc, setState, store, modify_bind_apply] at h
  obtain ⟨status, t, h₁, h⟩ := bind_eq_ok.1 h
  have hsame₁ : Part.stackPages.Same _ t :=
    Frame.same (frame_initProcfsFiles (by simp) (by simp) (by simp) (by simp)) h₁
  have hsame : ∀ r, (k'.procs r).stackPage = (t.procs r).stackPage := by
    split at h
    · cases h
      exact fun _ => rfl
    · obtain ⟨_, t', h₂, h⟩ := bind_eq_ok.1 h
      obtain ⟨-, u, hu, rfl⟩ := withLock_eq_ok.1 h₂
      cases hu
      cases h
      exact fun _ => rfl
  refine ⟨(hsame q).trans ((hsame₁ q).1.trans ?_), fun r hr => (hsame r).trans ((hsame₁ r).1.trans ?_)⟩
  · simp [Kernel.setState, Kernel.setProc, freshProc]
  · simp [Kernel.setState, Kernel.setProc, hr]

/-- `init_proc`, when it succeeds: the stack of the process is the first free page. -/
theorem initProc_stack {pc : ℕ} {name : Option (List UInt8)} (h : initProc q pc name k = .ok 0 k') :
    InitsStack q k k' := by
  obtain ⟨n, t, h₁, h⟩ := bind_eq_ok.1 h
  obtain ⟨-, u, hu, rfl⟩ := withLock_eq_ok.1 h₁
  cases hu
  simp only [modifyProc, modify_bind_apply] at h
  obtain ⟨o, t, h₂, h⟩ := bind_eq_ok.1 h
  cases o with
  | none => cases h
  | some pages =>
    obtain ⟨⟨i, hi, hsp⟩, hstack⟩ := initProcPages_stack h₂
    obtain ⟨hown, hothers⟩ := fillProc_stack h
    refine ⟨⟨i, hi, hown.trans hsp⟩, fun r hr => ?_⟩
    rw [hothers r hr, hstack r]
    simp [Kernel.setProc, Kernel.setHeld, hr]

/-- The second half of `proc_fork`, when it returns: the registers of the child. -/
theorem forkChild_trap {r : ℤ} (hqp : q ≠ p) (h : forkChild p q k = .ok r k') :
    (k'.procs q).trap = childTrap (k.procs q) (k.procs p) := by
  rw [forkChild, modify_bind_apply] at h
  obtain ⟨_, t, h₁, h⟩ := bind_eq_ok.1 h
  simp only [release, record, modify_bind_apply, get_bind_apply, pure_apply, EStateM.Result.ok.injEq] at h
  obtain ⟨-, rfl⟩ := h
  have hstack : Part.stackPages.Same _ t :=
    Frame.same (frame_copyProcess (by simp) (by simp) (by simp) (by simp) (by simp)) h₁
  have hcore := (still_copyProcess (L := {.pagedMemory}) rfl).core_eq h₁
  have htrap : (t.core.procs p).trap = (k.core.procs p).trap := by
    rw [hcore, Kernel.core_procs, Kernel.core_procs]
    simp [Kernel.setProc, hqp.symm]
  refine Eq.trans ?_ (childTrap_congr (x := t.procs q) (y := t.procs p) ((hstack q).1.trans ?_) htrap
    ((hstack p).1.trans ?_))
  · simp [Kernel.setHeld, Kernel.setProc]
  · simp [Kernel.setProc]
  · simp [Kernel.setProc, hqp.symm]

/-- `proc_fork`, when it succeeds. -/
theorem procFork_newborn {r : ℤ} (hk : Calm p k) (hcpu : k.core.cpuProc = some p)
    (h : procFork p k = .ok r k') (hr : r ≠ -1) (hq : freeSlot k = some q) : Newborn p q k k' := by
  obtain ⟨q', status, t, hslot, hinit, hend⟩ := procFork_halves hk hcpu h
  obtain rfl : q' = q := Option.some.inj (hslot.symm.trans hq)
  obtain ⟨hqp, -⟩ := freeSlot_ne hcpu hslot
  rcases hend with ⟨-, hr', -⟩ | ⟨rfl, hchild⟩
  · exact absurd hr' hr
  -- `init_proc` fills the slot, and then `proc_fork` copies the descriptors, the frame
  -- and the parent.
  have hlock : ∀ l ∈ ({.procTable, .pagedMemory} : Set (Lock cfg)), (k.forking p q').held l = false := by
    rintro l (rfl | rfl)
    · simpa [Kernel.forking, Kernel.setHeld] using hk.free _ (by simp)
    · simpa [Kernel.forking, Kernel.setHeld] using hk.free _ (by simp)
  have hres := initProc_result (k := k.forking p q') (q := q') (hlock _ (by simp)) (hlock _ (by simp))
    k.trapFrame.pc none
  rw [hinit] at hres
  obtain ⟨frame, hc, hh⟩ : ∃ frame,
      t.core = (((k.forking p q').core.newPid q').fresh q' frame).counted ∧
      t.held = (k.forking p q').held := by
    cases hres with
    | short hs | full hs => exact absurd rfl hs
    | done hc hh _ => exact ⟨_, hc, hh⟩
  have hforking : (k.forking p q').core = k.core.update p fun x => { x with trap := k.trapFrame } :=
    Kernel.setProc_core_of rfl
  have hstack := initProc_stack hinit
  have htrap := forkChild_trap hqp hchild
  have hfiles : (k'.procs q').files = (k.procs p).files := by
    rw [(forkChild_files hqp hchild).own, (initProc_fds hinit).1.others p hqp.symm]
    simp [Kernel.forking, Kernel.setHeld, Kernel.setProc]
  rcases forkChild_result (p := p) (q := q') (by rw [hh]; exact hlock _ (by simp)) with
    ⟨frame', t', h', hc', -⟩ | ⟨e, t', h', -, -⟩
  · rw [hchild] at h'
    cases h'
    have hcore : k'.core.procs q' = _ := congrArg (fun s => s.procs q') hc'
    rw [hc, hforking] at hcore
    -- Each field is the last that was written to it; nothing writes `chan` and
    -- `wakeup_time`.
    have hfield : ∀ {β : Type} (f : PCore cfg → β), f (k'.core.procs q') = f _ :=
      fun f => congrArg f hcore
    refine ⟨hfield PCore.state |>.trans ?_, hfield PCore.cond |>.trans ?_, hfield PCore.nscheds |>.trans ?_,
      hfield PCore.parent |>.trans ?_, hfiles, hfield PCore.ctx |>.trans ?_, ?_, hfield PCore.chan |>.trans ?_,
      hfield PCore.wakeupTime |>.trans ?_⟩
    · simp [Core.newPid, Core.fresh, Core.counted, Core.adopted]
    · simp [Core.newPid, Core.fresh, Core.counted, Core.adopted]
    · simp [Core.newPid, Core.fresh, Core.counted, Core.adopted]
    · simp [Core.newPid, Core.fresh, Core.counted, Core.adopted]
    · simp [Core.newPid, Core.fresh, Core.counted, Core.adopted]
    · obtain ⟨i, hi, hsp⟩ := hstack.own
      refine ⟨i, hi, htrap.trans (childTrap_congr hsp ?_ ?_)⟩
      · have hparent : t.core.procs p = _ := congrArg (fun s => s.procs p) hc
        rw [hforking] at hparent
        refine (congrArg PCore.trap hparent).trans ?_
        simp [Core.newPid, Core.fresh, Core.counted, hqp.symm]
      · refine (hstack.others p hqp.symm).trans ?_
        simp [Kernel.forking, Kernel.setHeld, Kernel.setProc]
    · simp [Core.newPid, Core.fresh, Core.counted, Core.adopted, hqp, Kernel.core_procs]
    · simp [Core.newPid, Core.fresh, Core.counted, Core.adopted, hqp, Kernel.core_procs]
  · rw [hchild] at h'
    cases h'

/-! ## Two kernels -/

/-- The kernels have the same free slots, and differ in their contents only. (What
    is recorded of the past does not count.) -/
structure SameButFree (k₁ k₂ : Kernel cfg) : Prop where
  free : ∀ q, (k₂.procs q).state = .available ↔ (k₁.procs q).state = .available
  procs : ∀ q, (k₁.procs q).state ≠ .available → k₂.procs q = k₁.procs q
  rest : { k₂ with procs := k₁.procs, log := k₁.log, io := k₁.io } = k₁

/-- The processes are the same to the scheduler and the wake-up code. -/
structure SchedAlike (x y : Proc cfg) : Prop where
  state : x.state = y.state
  chan : x.chan = y.chan
  cond : x.cond = y.cond
  wakeupTime : x.wakeupTime = y.wakeupTime
  nscheds : x.nscheds = y.nscheds
  parent : x.parent = y.parent
  files : x.files = y.files
  trap : x.trap = y.trap
  ctx : x.ctx = y.ctx

namespace SameButFree

theorem cpuProc (h : SameButFree k₁ k₂) : k₂.cpuProc = k₁.cpuProc := by
  have hcpu := congrArg Kernel.cpuProc h.rest
  exact hcpu

theorem trapFrame (h : SameButFree k₁ k₂) : k₂.trapFrame = k₁.trapFrame := by
  have hframe := congrArg Kernel.trapFrame h.rest
  exact hframe

theorem freePage (h : SameButFree k₁ k₂) : freePage k₂ = freePage k₁ := by
  have hpages := congrArg Kernel.pages h.rest
  rw [HobbyOs.freePage, show k₂.pages = k₁.pages from hpages]
  rfl

theorem freeSlot (h : SameButFree k₁ k₂) : freeSlot k₂ = freeSlot k₁ := by
  simp only [HobbyOs.freeSlot, h.cpuProc, h.free]

end SameButFree

/-- Two children that differ at most in what their slots had left. -/
theorem Newborn.alike_iff {k₁' k₂' : Kernel cfg} (h : SameButFree k₁ k₂)
    (hp : (k₁.procs p).state ≠ .available)
    (h₁ : Newborn p q k₁ k₁') (h₂ : Newborn p q k₂ k₂') :
    SchedAlike (k₁'.procs q) (k₂'.procs q) ↔
      (k₁.procs q).chan = (k₂.procs q).chan ∧ (k₁.procs q).wakeupTime = (k₂.procs q).wakeupTime := by
  constructor
  · intro halike
    rw [← h₁.chan, ← h₂.chan, ← h₁.wakeupTime, ← h₂.wakeupTime]
    exact ⟨halike.chan, halike.wakeupTime⟩
  · rintro ⟨hchan, htime⟩
    have hparent := h.procs p hp
    obtain ⟨i, hi, htrap₁⟩ := h₁.trap
    obtain ⟨j, hj, htrap₂⟩ := h₂.trap
    obtain rfl : i = j := Option.some.inj (hi.symm.trans (h.freePage.symm.trans hj))
    refine ⟨h₁.state.trans h₂.state.symm, ?_, h₁.cond.trans h₂.cond.symm, ?_,
      h₁.nscheds.trans h₂.nscheds.symm,
      h₁.parent.trans h₂.parent.symm, ?_, ?_, h₁.ctx.trans h₂.ctx.symm⟩
    · rw [h₁.chan, h₂.chan, hchan]
    · rw [h₁.wakeupTime, h₂.wakeupTime, htime]
    · rw [h₁.files, h₂.files, hparent]
    · rw [htrap₁, htrap₂, hparent, h.trapFrame]

/-- From two states reached that differ in free slots only, `proc_fork` makes the
    same child, when it succeeds, if and only if `chan` and `wakeup_time` are the
    same in the slot that it takes. -/
theorem newborns_alike_iff {m₁ m₂ : Machine cfg} {r₁ r₂ : ℤ} {k₁' k₂' : Kernel cfg}
    (h₁ : Reach (machine cfg) Transition.free m₁) (h₂ : Reach (machine cfg) Transition.free m₂)
    (hmode₁ : m₁.mode = .user) (hmode₂ : m₂.mode = .user) (hp : m₁.k.cpuProc = some p)
    (hsame : SameButFree ((trap m₁).entry p) ((trap m₂).entry p))
    (hq : freeSlot ((trap m₁).entry p) = some q)
    (hf₁ : procFork p ((trap m₁).entry p) = .ok r₁ k₁') (hr₁ : r₁ ≠ -1)
    (hf₂ : procFork p ((trap m₂).entry p) = .ok r₂ k₂') (hr₂ : r₂ ≠ -1) :
    SchedAlike (k₁'.procs q) (k₂'.procs q) ↔
      (m₁.k.procs q).chan = (m₂.k.procs q).chan ∧ (m₁.k.procs q).wakeupTime =
        (m₂.k.procs q).wakeupTime := by
  have hp₂ : m₂.k.cpuProc = some p := hsame.cpuProc.trans hp
  obtain ⟨hcalm₁, hrunning⟩ := calm_of_reach h₁ hmode₁ hp
  have hn₁ := procFork_newborn hcalm₁ hp hf₁ hr₁ hq
  have hn₂ :=
    procFork_newborn (calm_of_reach h₂ hmode₂ hp₂).1 hp₂ hf₂ hr₂ (hsame.freeSlot.trans hq)
  have hlive : (((trap m₁).entry p).procs p).state ≠ .available := by
    rw [show (((trap m₁).entry p).procs p).state = .running from hrunning]
    decide
  have halike := Newborn.alike_iff hsame hlive hn₁ hn₂
  exact halike

/-! ## Two runs -/

/-- The kernel once `proc_pipeattch` has attached the file to `q`. -/
def Kernel.attach (k : Kernel cfg) (q : Slot cfg) (f : FileRef) : Kernel cfg :=
  let k' := k.setFile f { k.files f with refcount := u32 ((k.files f).refcount + 1) }
  k'.setProc q { k'.procs q with
    files := Function.update (k'.procs q).files 1 (some f), chan := (k'.files f).fsFile.chan }

theorem attachPipe_apply {f : FileRef} (hl : k.held (.proc q) = false) (hnone : (k.procs q).files 1 = none) :
    attachPipe p q f k = .ok 0 (k.setProc q { k.procs q with
      files := Function.update (k.procs q).files 1 (some f), chan := (k.files f).fsFile.chan }) := by
  rw [attachPipe, bind_ok (acquire_ok hl), get_bind_apply,
    if_neg
    (by rw [show ((k.setHeld (.proc q) true).procs q).files 1 = none from hnone]; exact Bool.false_ne_true),
    modify_bind_apply, release, modify_bind_apply]
  have hheld := Kernel.setHeld_setHeld (k := k.setProc q { k.procs q with
      files := Function.update (k.procs q).files 1 (some f), chan := (k.files f).fsFile.chan }) hl
  exact congrArg (EStateM.Result.ok 0) hheld

theorem procPipeattch_apply {pid : ℕ} {i : Fin maxProcFds} {f : FileRef} (hl : k.held (.proc p) = false)
    (hf : (k.procs p).files i = some f) (hq : findProcByPid k pid = some q) (hlq : k.held (.proc q) = false)
    (hnone : (k.procs q).files 1 = none) : procPipeattch p pid i k = .ok 0 (k.attach q f) := by
  have hi : 0 ≤ (i : ℤ) ∧ (i : ℤ).toNat < maxProcFds := ⟨Int.natCast_nonneg _, by simp⟩
  have hfile : ((k.setHeld (.proc p) true).procs p).files ⟨(i : ℤ).toNat, hi.2⟩ = some f := hf
  rw [procPipeattch_eq, bind_ok (acquire_ok hl), bind_ok (fileOf_apply hi), hfile]
  dsimp only
  rw [attachFile, modify_bind_apply, release, modify_bind_apply, get_bind_apply,
    findProcByPid_congr (k := k) (by rfl), hq]
  have hheld := Kernel.setHeld_setHeld (l := .proc p)
    (k := k.setFile f { k.files f with refcount := u32 ((k.files f).refcount + 1) }) hl
  exact (congrArg (attachPipe p q f) hheld).trans (attachPipe_apply hlq hnone)

/-- A system call that returns `ret`. -/
theorem ecallStep_apply {c : Call} {ret : ℤ} (hp : m.k.cpuProc = some p)
    (hover : ¬stackOverflow ((trap m).entry p) p) (hc : decodeCall cfg m.hart = some c)
    (hr : runCall p c ((trap m).entry p) = .ok ret k')
    (hmagic : loadWord k'.mem (k'.procs p).magic 4 = procMagicStackSentinel) :
    (ecallStep m).k = { k' with trapFrame := k'.trapFrame.set TrapFrame.a0 (cfg.reg ret) } ∧
      (ecallStep m).mode = .user := by
  rw [ecallStep_eq hp (if_neg hover |>.trans hc) hr, syscallTail, modify_bind_apply, get_bind_apply,
    if_neg (not_not.2 hmagic)]
  exact ⟨rfl, rfl⟩

/-- The machine with the registers of a call of `proc_pipeattch`. -/
def attaching (m : Machine cfg) (pid : ℕ) : Machine cfg :=
  { m with hart := callRegs 0x80003ff0 39 pid 4 0 }

/-- The machine after a call of `proc_pipeattch`, about to call `proc_fork`. -/
def attached (m : Machine cfg) (pid : ℕ) : Machine cfg :=
  { ecallStep (attaching m pid) with hart := callRegs 0x80003ff0 2 0 0 0 }

/-- The call of `proc_pipeattch` by `p` finds the slot `q`, and can attach the
    file to it. -/
def CanAttach (m : Machine cfg) (p q : Slot cfg) (pid : ℕ) : Prop :=
  ¬stackOverflow ((trap (attaching m pid)).entry p) p ∧ m.k.held (.proc q) = false ∧
    findProcByPid m.k pid = some q ∧ (m.k.procs q).files 1 = none ∧
    (m.k.procs q).state = .available ∧ q ≠ p ∧
    loadWord ((trap m).entry p).mem (m.k.procs p).magic 4 = procMagicStackSentinel

theorem CanAttach.kernel {m : Machine cfg} {p q : Slot cfg} {f : FileRef} {pid : ℕ}
    (h : CanAttach m p q pid) (hp : m.k.cpuProc = some p) (hl : m.k.held (.proc p) = false)
    (hf : (m.k.procs p).files 4 = some f)
    (hc : decodeCall cfg (callRegs 0x80003ff0 39 pid 4 0) = some (.pipeattch pid 4)) :
    (attached m pid).mode = .user ∧ (attached m pid).k =
      { ((trap (attaching m pid)).entry p).attach q f with trapFrame := (attached m pid).k.trapFrame } := by
  obtain ⟨hover, hlq, hq, hnone, -, hqp, hmagic⟩ := h
  have hr : runCall p (.pipeattch pid 4) ((trap (attaching m pid)).entry p) =
      .ok 0 (((trap (attaching m pid)).entry p).attach q f) :=
    procPipeattch_apply (i := 4) hl hf hq hlq hnone
  have hproc : (((trap (attaching m pid)).entry p).attach q f).procs p = m.k.procs p :=
    Function.update_of_ne hqp.symm _ _
  have hmagic : loadWord (((trap (attaching m pid)).entry p).attach q f).mem
      ((((trap (attaching m pid)).entry p).attach q f).procs p).magic 4 = procMagicStackSentinel := by
    rw [hproc]
    exact hmagic
  obtain ⟨hk, hmode⟩ := ecallStep_apply (m := attaching m pid) hp hover hc hr hmagic
  refine ⟨hmode, ?_⟩
  show (ecallStep (attaching m pid)).k = _
  rw [show (attached m pid).k = (ecallStep (attaching m pid)).k from rfl, hk]

instance (m : Machine cfg) (p q : Slot cfg) (pid : ℕ) : Decidable (CanAttach m p q pid) :=
  inferInstanceAs (Decidable (_ ∧ _))

theorem reach_attached {m : Machine cfg} {pid : ℕ} (h : Reach (machine cfg) free m) (hmode : m.mode = .user)
    (hmode' : (attached m pid).mode = .user) : Reach (machine cfg) free (attached m pid) := by
  have hregs : Reach (machine cfg) free (attaching m pid) := by
    refine h.step (e := .exec (callRegs 0x80003ff0 39 pid 4 0) []) trivial ?_
    simp [machine, step, hmode, attaching]
  have hecall : Reach (machine cfg) free (ecallStep (attaching m pid)) := by
    refine hregs.step (e := .ecall) trivial ?_
    simp [machine, step, show (attaching m pid).mode = .user from hmode]
  refine hecall.step (e := .exec (callRegs 0x80003ff0 2 0 0 0) []) trivial ?_
  simp [machine, step, show (ecallStep (attaching m pid)).mode = .user from hmode', attached]

/-- The kernel in which `proc_fork` is called, after the file was attached to `q`;
    both calls have cleared `errno`. -/
def forkEntry (k : Kernel cfg) (p q : Slot cfg) (f : FileRef) : Kernel cfg :=
  let perrno := (k.procs p).perrno
  let zero := bytesOfWord 0 (cfg.regSz)
  { k.attach q f with
    mem := storeBytes (storeBytes k.mem perrno zero) perrno zero
    trapFrame := { callRegs 0x80003ff0 2 0 0 0 with pc := cfg.reg 4 } }

theorem entry_attached {m : Machine cfg} {p q : Slot cfg} {f : FileRef} {pid : ℕ} (hqp : q ≠ p)
    (hk : (attached m pid).k = { ((trap (attaching m pid)).entry p).attach q f with
      trapFrame := (attached m pid).k.trapFrame }) :
    (trap (attached m pid)).entry p = forkEntry m.k p q f := by
  have htrap : trap (attached m pid) =
      { ((trap (attaching m pid)).entry p).attach q f with trapFrame := callRegs 0x80003ff0 2 0 0 0 } := by
    rw [trap, hk]
    rfl
  have hproc : (((trap (attaching m pid)).entry p).attach q f).procs p = m.k.procs p :=
    Function.update_of_ne hqp.symm _ _
  rw [htrap, Kernel.entry]
  dsimp only
  rw [hproc]
  rfl

theorem forkEntry_procs {k : Kernel cfg} {p q r : Slot cfg} {f : FileRef} (hr : r ≠ q) :
    (forkEntry k p q f).procs r = k.procs r := Function.update_of_ne hr _ _

theorem forkEntry_state {k : Kernel cfg} {p q r : Slot cfg} {f : FileRef} :
    ((forkEntry k p q f).procs r).state = (k.procs r).state := by
  by_cases hr : r = q
  · subst hr
    simp [forkEntry, Kernel.attach, Kernel.setProc, Kernel.setFile]
  · rw [forkEntry_procs hr]

/-- The kernel does not depend on the slot that the file was attached to, but for
    the slot. -/
theorem forkEntry_sameButFree {k : Kernel cfg} {p q₁ q₂ : Slot cfg} {f : FileRef}
    (h₁ : (k.procs q₁).state = .available) (h₂ : (k.procs q₂).state = .available) :
    SameButFree (forkEntry k p q₁ f) (forkEntry k p q₂ f) where
  free r := by rw [forkEntry_state, forkEntry_state]
  procs r hr := by
    rw [forkEntry_state] at hr
    have hr₁ : r ≠ q₁ := fun h => hr (h ▸ h₁)
    have hr₂ : r ≠ q₂ := fun h => hr (h ▸ h₂)
    rw [forkEntry_procs hr₁, forkEntry_procs hr₂]
  rest := rfl

/-- A call of `proc_fork` by `p`, after it has attached the file to `q`. -/
structure ForksAttached (m : Machine cfg) (p q : Slot cfg) (f : FileRef) (pid : ℕ) : Prop where
  reach : Reach (machine cfg) free (attached m pid)
  user : (attached m pid).mode = .user
  cpu : (attached m pid).k.cpuProc = some p
  entry : (trap (attached m pid)).entry p = forkEntry m.k p q f
  available : (m.k.procs q).state = .available

theorem CanAttach.forksAttached {m : Machine cfg} {p q : Slot cfg} {f : FileRef} {pid : ℕ}
    (h : CanAttach m p q pid) (hr : Reach (machine cfg) free m) (hmode : m.mode = .user)
    (hp : m.k.cpuProc = some p) (hl : m.k.held (.proc p) = false) (hf : (m.k.procs p).files 4 = some f)
    (hc : decodeCall cfg (callRegs 0x80003ff0 39 pid 4 0) = some (.pipeattch pid 4)) :
    ForksAttached m p q f pid := by
  obtain ⟨hmode', hk⟩ := h.kernel hp hl hf hc
  obtain ⟨-, -, -, -, havail, hqp, -⟩ := h
  exact ⟨reach_attached hr hmode hmode', hmode', by rw [hk]; exact hp, entry_attached hqp hk, havail⟩

theorem ForksAttached.sameButFree {m : Machine cfg} {p q₁ q₂ : Slot cfg} {f : FileRef} {pid₁ pid₂ : ℕ}
    (h₁ : ForksAttached m p q₁ f pid₁) (h₂ : ForksAttached m p q₂ f pid₂) :
    SameButFree ((trap (attached m pid₁)).entry p) ((trap (attached m pid₂)).entry p) := by
  rw [h₁.entry, h₂.entry]
  exact forkEntry_sameButFree h₁.available h₂.available

/-- The first process opens a pipe and forks three times; its children exit, two of
    them without an output, and it waits for them; then it forks a fourth one, and
    sleeps. -/
def threeChildren : List (Event .qemuE) :=
  [Event.kernel, .kernel] ++ calls 29 0x80003f00 0 0 [] ++ calls 2 0 0 0 [] ++ calls 2 0 0 0 [] ++
    calls 2 0 0 0 [] ++ calls 7 0 0 0 [] ++ [Event.kernel, .kernel] ++ calls 1 0 0 0 [] ++
      [Event.kernel, .kernel] ++
    calls 6 1 0 0 [] ++ calls 1 0 0 0 [] ++ [Event.kernel, .kernel] ++ calls 6 1 0 0 [] ++ calls 1 0 0 0 [] ++
    List.replicate 3 Event.kernel ++ calls 7 0 0 0 [] ++ calls 7 0 0 0 [] ++ calls 2 0 0 0 [] ++
    calls 31 100 0 0 [] ++ [Event.kernel, .kernel]

/-- The fourth child attaches the pipe to one or to the other of the free slots, and
    forks into the first of them. -/
theorem attached_newborns_differ :
    ¬∀ (m₁ m₂ : Machine .qemuE) (p q : Slot .qemuE) (r₁ r₂ : ℤ) (k₁' k₂' : Kernel .qemuE),
      Reach (machine .qemuE) free m₁ → Reach (machine .qemuE) free m₂ →
      m₁.mode = .user → m₂.mode = .user →
      m₁.k.cpuProc = some p → SameButFree ((trap m₁).entry p) ((trap m₂).entry p) →
      freeSlot ((trap m₁).entry p) = some q →
      procFork p ((trap m₁).entry p) = .ok r₁ k₁' → r₁ ≠ -1 →
      procFork p ((trap m₂).entry p) = .ok r₂ k₂' → r₂ ≠ -1 →
      SchedAlike (k₁'.procs q) (k₂'.procs q) := by
  have h : ∃ m ∈ runFrom .qemuE threeChildren, m.mode = .user ∧ m.k.cpuProc = some ⟨1, by decide⟩ ∧
      m.k.held (.proc ⟨1, by decide⟩) = false ∧
      (m.k.procs ⟨1, by decide⟩).files 4 = some (.ftable 1) ∧
      CanAttach m ⟨1, by decide⟩ ⟨2, by decide⟩ 2 ∧
        CanAttach m ⟨1, by decide⟩ ⟨3, by decide⟩ 3 ∧
      freeSlot (forkEntry m.k ⟨1, by decide⟩ ⟨2, by decide⟩ (.ftable 1)) = some ⟨2, by decide⟩ ∧
      value (procFork ⟨1, by decide⟩ (forkEntry m.k ⟨1, by decide⟩ ⟨2, by decide⟩ (.ftable 1))) =
        some 5 ∧
      value (procFork ⟨1, by decide⟩ (forkEntry m.k ⟨1, by decide⟩ ⟨3, by decide⟩ (.ftable 1))) =
        some 5 ∧
      ((final
          (procFork ⟨1, by decide⟩ (forkEntry m.k ⟨1, by decide⟩ ⟨2, by decide⟩ (.ftable 1)))).procs
          ⟨2, by decide⟩).chan ≠
        ((final
          (procFork ⟨1, by decide⟩ (forkEntry m.k ⟨1, by decide⟩ ⟨3, by decide⟩ (.ftable 1)))).procs
          ⟨2, by decide⟩).chan := by
    decide +kernel
  obtain ⟨m, hm, hmode, hp, hl, hf, ha₁, ha₂, hq, hv₁, hv₂, hchan⟩ := h
  intro hall
  have hr := reach_of_runFrom hm
  have h₁ := ha₁.forksAttached hr hmode hp hl hf rfl
  have h₂ := ha₂.forksAttached hr hmode hp hl hf rfl
  have hsame := h₁.sameButFree h₂
  obtain ⟨k₁', hf₁⟩ := value_eq_some hv₁
  obtain ⟨k₂', hf₂⟩ := value_eq_some hv₂
  rw [hf₁, hf₂] at hchan
  rw [← h₁.entry] at hf₁ hq
  rw [← h₂.entry] at hf₂
  have halike := hall _ _ ⟨1, by decide⟩ ⟨2, by decide⟩ 5 5 k₁' k₂' h₁.reach h₂.reach
    h₁.user h₂.user h₁.cpu hsame
    hq hf₁ (by decide) hf₂ (by decide)
  exact hchan halike.chan

/-- The events of a process on the board that makes a call. -/
def boardCalls (number arg : ℕ) : List (Event .hifive1Revb) :=
  [Event.exec (callRegs 0x80003ff0 number arg 0 0) [], .ecall]

/-- The first process opens a pipe and forks a child, which forks two; they exit
    without an output, and so do the two that it forks next. The first process forks
    another child, which runs when the first child has waited for three of its own. -/
def grandchildren : List (Event .hifive1Revb) :=
  [Event.kernel, .kernel] ++ boardCalls 29 0x80003f00 ++ boardCalls 2 0 ++ [Event.tick, .kernel, .kernel] ++
    boardCalls 2 0 ++ boardCalls 2 0 ++ boardCalls 31 100 ++ [Event.kernel, .kernel] ++
    boardCalls 6 1 ++ boardCalls 1 0 ++ [Event.kernel, .kernel] ++ boardCalls 6 1 ++ boardCalls 1 0 ++
    List.replicate 7 Event.kernel ++ [Event.tick, .kernel, .kernel] ++ boardCalls 2 0 ++ boardCalls 2 0 ++
    [Event.tick, .kernel, .kernel] ++ boardCalls 6 1 ++ boardCalls 1 0 ++ [Event.kernel, .kernel, .kernel] ++
    boardCalls 6 1 ++ boardCalls 1 0 ++ List.replicate 6 Event.kernel ++ boardCalls 2 0 ++
    [Event.tick, .kernel, .kernel] ++ boardCalls 7 0 ++ boardCalls 7 0 ++ boardCalls 7 0 ++
    [Event.tick] ++ List.replicate 5 Event.kernel

/-- This child attaches the pipe to one or to the other of two free slots, and forks
    into a third one. -/
theorem attached_newborns_alike : ∃ (m₁ m₂ : Machine .hifive1Revb) (p q r : Slot .hifive1Revb)
    (k₁' k₂' : Kernel .hifive1Revb), (((trap m₁).entry p).procs r).chan ≠
      (((trap m₂).entry p).procs r).chan ∧
      procFork p ((trap m₁).entry p) = .ok 7 k₁' ∧ procFork p ((trap m₂).entry p) = .ok 7 k₂' ∧
      SchedAlike (k₁'.procs q) (k₂'.procs q) := by
  have h : ∃ m ∈ runFrom .hifive1Revb grandchildren, m.mode = .user ∧
      m.k.cpuProc = some ⟨5, by decide⟩ ∧
      m.k.held (.proc ⟨5, by decide⟩) = false ∧
      (m.k.procs ⟨5, by decide⟩).files 4 = some (.ftable 1) ∧
      CanAttach m ⟨5, by decide⟩ ⟨3, by decide⟩ 3 ∧
        CanAttach m ⟨5, by decide⟩ ⟨4, by decide⟩ 5 ∧
      freeSlot (forkEntry m.k ⟨5, by decide⟩ ⟨3, by decide⟩ (.ftable 1)) = some ⟨2, by decide⟩ ∧
      value (procFork ⟨5, by decide⟩ (forkEntry m.k ⟨5, by decide⟩ ⟨3, by decide⟩ (.ftable 1))) =
        some 7 ∧
      value (procFork ⟨5, by decide⟩ (forkEntry m.k ⟨5, by decide⟩ ⟨4, by decide⟩ (.ftable 1))) =
        some 7 ∧
      ((forkEntry m.k ⟨5, by decide⟩ ⟨3, by decide⟩ (.ftable 1)).procs ⟨3, by decide⟩).chan ≠
        ((forkEntry m.k ⟨5, by decide⟩ ⟨4, by decide⟩ (.ftable 1)).procs ⟨3, by decide⟩).chan := by
    decide +kernel
  obtain ⟨m, hm, hmode, hp, hl, hf, ha₁, ha₂, hq, hv₁, hv₂, hchan⟩ := h
  have hr := reach_of_runFrom hm
  have h₁ := ha₁.forksAttached hr hmode hp hl hf rfl
  have h₂ := ha₂.forksAttached hr hmode hp hl hf rfl
  obtain ⟨k₁', hf₁⟩ := value_eq_some hv₁
  obtain ⟨k₂', hf₂⟩ := value_eq_some hv₂
  -- neither call of `proc_pipeattch` has touched the slot that is taken
  have hsame : (((trap (attached m 3)).entry ⟨5, by decide⟩).procs ⟨2, by decide⟩) =
      (((trap (attached m 5)).entry ⟨5, by decide⟩).procs ⟨2, by decide⟩) := by
    rw [h₁.entry, h₂.entry, forkEntry_procs (by decide), forkEntry_procs (by decide)]
  rw [← h₁.entry] at hf₁ hq hchan
  rw [← h₂.entry] at hf₂ hchan
  refine ⟨attached m 3, attached m 5, _, ⟨2, by decide⟩, _, k₁', k₂', hchan, hf₁, hf₂, ?_⟩
  exact (newborns_alike_iff h₁.reach h₂.reach h₁.user h₂.user h₁.cpu (h₁.sameButFree h₂) hq hf₁
    (by decide) hf₂
    (by decide)).2 ⟨congrArg (·.chan) hsame, congrArg (·.wakeupTime) hsame⟩

end HobbyOs
