import HobbyOs.Step

/-!
# The first process

`kinit` from the initialised tables on, by its effect on the core: the first
process is created in some slot and is ready, with all locks free
(`boot_result`); or the kernel has halted on the way (`Halfway`).
-/

namespace HobbyOs

open Outcome

variable {cfg : Config} {p : Slot cfg} {k : Kernel cfg}

theorem still_makeKernelPageTable {L : Set (Lock cfg)} (hp : .pagedMemory ∈ L) :
    Still L (makeKernelPageTable : KM cfg Unit) := by
  rw [makeKernelPageTable]
  split
  · refine (still_kalloc hp).bind fun pt => ?_
    cases pt with
    | none => exact Still.throw trivial
    | some pt =>
      refine still_clearTable.bind fun _ => ?_
      refine (Still.forM fun _ => still_mapRange hp).bind fun _ => ?_
      refine (Still.forM fun _ => still_mapPageSv39 hp).bind fun _ => ?_
      exact Still.forM fun _ => still_mapPageSv39 hp
  · exact Still.pure _

theorem still_injectLoop {L : Set (Lock cfg)} (ss : List (List UInt8)) (bottom newArgv : ℕ) :
    Still L (injectLoop ss bottom newArgv : KM cfg ℕ) := by
  induction ss generalizing bottom newArgv with
  | nil => exact still_store.bind fun _ => Still.pure _
  | cons s ss ih => exact still_store.bind fun _ => still_store.bind fun _ => ih _ _

theorem reframes_injectArgv {argv : List (List UInt8)} : Reframes p (injectArgv p argv) := by
  refine Still.get.reframes.bind fun k => (still_injectLoop _ _ _).reframes.bind fun bottom => ?_
  exact Reframes.modify (fun k => ⟨_, Kernel.setProc_core_of rfl⟩) fun _ => rfl

theorem reframes_injectScript (name : List UInt8) : Reframes p (injectScript p name) := by
  rw [injectScript]
  split
  · exact (Still.pure _).reframes
  · exact reframes_injectArgv

/-- The core of a kernel that has booted, with its first process in the slot `p`. -/
def Core.booted (s : Core cfg) (p : Slot cfg) (frame frame' : TrapFrame) : Core cfg :=
  { ((((s.newPid p).fresh p frame).counted.update p fun x =>
      { x with trap := frame' }).record (.created s.pidCounter)) with cpuProc := some p }

/-- The core of the kernel before it boots. -/
def Core.init (cfg : Config) : Core cfg where
  procs _ := (zeroProc cfg).toPCore
  numProcs := 0
  pidCounter := 0
  cpuProc := none
  now := 0
  overlay _ := (0, 0)
  log := []

/-- The core of a kernel that has halted while it booted. -/
inductive Halfway : Core cfg → Prop
  | init : Halfway (Core.init cfg)
  | pid {p : Slot cfg} : Halfway ((Core.init cfg).newPid p)
  | fresh {p : Slot cfg} {frame : TrapFrame} : Halfway (((Core.init cfg).newPid p).fresh p frame)
  | counted {p : Slot cfg} {frame frame' : TrapFrame} :
      Halfway ((((Core.init cfg).newPid p).fresh p frame).counted.update p fun x => { x with trap := frame' })

theorem Halfway.parent {s : Core cfg} (h : Halfway s) (q : Slot cfg) : (s.procs q).parent = none := by
  cases h with
  | init => rfl
  | @pid p | @fresh p | @counted p =>
    by_cases hq : q = p
    · subst hq
      simp [Core.newPid, Core.fresh, Core.counted, Core.init, zeroProc]
    · simp [Core.newPid, Core.fresh, Core.counted, Core.init, zeroProc, hq]

/-- The first process is set up, and counted as the one on the CPU. -/
theorem startInit_result (name : List UInt8) (hk : ∀ l ∈ others p, k.held l = false) :
    (∃ k' frame, startInit p name k = .ok () k' ∧
      k'.core = { (k.core.update p fun x => { x with trap := frame }).record
        (.created (k.core.procs p).uid) with cpuProc := some p } ∧ ∀ l, k'.held l = false) ∨
    ∃ e k' frame, startInit p name k = .error e k' ∧ e.isHalt ∧
      k'.core = k.core.update p fun x => { x with trap := frame } := by
  obtain ⟨⟨frame, hc⟩, hend⟩ := reframes_injectScript (p := p) name k
  have hend := hend hk
  rw [startInit]
  cases hr : injectScript p name k with
  | error e k' =>
    rw [hr] at hc hend
    exact .inr ⟨e, k', frame, bind_error hr, hend, hc⟩
  | ok a k' =>
    rw [hr] at hc hend
    rw [bind_ok hr]
    have hc : k'.core = k.core.update p fun x => { x with trap := frame } := hc
    refine .inl ⟨_, frame, rfl, ?_, ?_⟩
    · have huid : (k'.procs p).uid = (k.core.procs p).uid := by
        rw [← Kernel.core_procs, hc]
        simp
      rw [← huid, ← hc]
      rfl
    · intro l
      by_cases hl : l = .proc p
      · subst hl
        exact Function.update_self _ _ _
      · exact (Function.update_of_ne hl _ _).trans (hend l hl)

/-- How `assign_init_program` may end, from the kernel before it boots. -/
theorem assignInitProgram_result (hc : k.core = Core.init cfg) (hfree : ∀ l, k.held l = false) :
    (∃ k' p frame frame', assignInitProgram k = .ok () k' ∧
      k'.core = (Core.init cfg).booted p frame frame' ∧ ∀ l, k'.held l = false) ∨
    ∃ e k', assignInitProgram k = .error e k' ∧ e.isHalt ∧ Halfway k'.core := by
  rw [assignInitProgram]
  cases findUserProgram (ascii "sh") with
  | none => exact .inr ⟨.panic, k, rfl, trivial, hc ▸ .init⟩
  | some prog =>
    dsimp only
    rw [bind_ok (allocProcess_apply (hfree _) fun q _ => hfree _)]
    cases hs : freeSlot k with
    | none => exact .inr ⟨.panic, k, rfl, trivial, hc ▸ .init⟩
    | some p =>
      dsimp only
      have hinit := initProc_result (k := k.setHeld (.proc p) true) (q := p)
        (by simpa [Kernel.setHeld] using hfree _) (by simpa [Kernel.setHeld] using hfree _)
        (cfg.usrVirt (cfg.entry prog.1)) (some prog.2)
      revert hinit
      generalize hr : initProc p (cfg.usrVirt (cfg.entry prog.1)) (some prog.2)
        (k.setHeld (.proc p) true) = r
      intro hinit
      -- Each failure of `init_proc` leaves the core at one of the states of `Halfway`.
      cases hinit with
      | short hs hc' _ =>
        rw [bind_ok hr, if_pos hs]
        exact .inr ⟨.panic, _, rfl, trivial, by rw [hc', Kernel.setHeld_core, hc]; exact .pid⟩
      | full hs hc' _ _ =>
        rw [bind_ok hr, if_pos hs]
        exact .inr ⟨.panic, _, rfl, trivial, by rw [hc', Kernel.setHeld_core, hc]; exact .fresh⟩
      | @done k' frame hc' hh' _ =>
        rw [bind_ok hr, if_neg (by simp)]
        have hothers : ∀ l ∈ others p, k'.held l = false := fun l hl => by
          rw [hh']
          exact (Function.update_of_ne hl _ _).trans (hfree l)
        rcases startInit_result prog.2 hothers with ⟨k'', frame', h, hc'', hh''⟩ |
          ⟨e, k'', frame', h, he, hc''⟩
        · refine .inl ⟨k'', p, frame, frame', h, ?_, hh''⟩
          have huid : (k'.core.procs p).uid = (Core.init cfg).pidCounter := by
            rw [hc', Kernel.setHeld_core, hc]
            simp [Core.counted, Core.fresh, Core.newPid]
          rw [hc'', huid, hc', Kernel.setHeld_core, hc]
          rfl
        · exact .inr ⟨e, k'', h, he, by rw [hc'', hc', Kernel.setHeld_core, hc]; exact .counted⟩
      | halt he hc' =>
        refine .inr ⟨_, _, bind_error hr, he, ?_⟩
        rw [Kernel.setHeld_core, hc] at hc'
        rcases hc' with hc' | ⟨frame, hc'⟩
        · exact hc' ▸ .pid
        · exact hc' ▸ .fresh

/-- The machine has booted, or the kernel has halted. -/
theorem boot_result (cfg : Config) (mem : ℕ → UInt8) :
    (∃ p frame frame', (boot cfg mem).k.core = (Core.init cfg).booted p frame frame' ∧
      (∀ l, (boot cfg mem).k.held l = false) ∧ (boot cfg mem).mode = .sched 0 (-1) false) ∨
    ∃ e, (boot cfg mem).mode = .halted e ∧ e.isHalt ∧ Halfway (boot cfg mem).k.core := by
  rw [boot, kinit]
  rcases (still_makeKernelPageTable (L := {.pagedMemory}) rfl).result (k := initKernel cfg mem)
    (by simp [initKernel]) with ⟨_, k₁, h₁, hc₁, hh₁⟩ | ⟨e, k₁, h₁, he, hc₁⟩
  · rw [bind_ok h₁]
    rcases assignInitProgram_result (k := k₁) (hc₁.trans rfl) (fun l => by rw [hh₁]; rfl) with
      ⟨k₂, p, frame, frame', h₂, hc₂, hh₂⟩ | ⟨e, k₂, h₂, he, hc₂⟩
    · rw [bind_ok h₂]
      exact .inl ⟨p, frame, frame', hc₂, hh₂, rfl⟩
    · rw [bind_error h₂]
      exact .inr ⟨e, rfl, he, hc₂⟩
  · rw [bind_error h₁]
    refine .inr ⟨e, rfl, he, ?_⟩
    exact (show Halfway k₁.core from (hc₁.trans rfl : k₁.core = Core.init cfg) ▸ .init)

end HobbyOs
