import Mathlib.Data.Set.Function
import HobbyOs.Entries
import HobbyOs.Memory

/-!
# Unique pids

`alloc_pid` counts, and `pid_counter` has 32 bits: it comes to pids again that
processes still have. It also counts where no process is made, so the processes
need not be many for this.

* `TakesFreshPid`: what a system call must not do for this;
* `pids_unique`: then the slots that are not free have different pids, in every
  state reached.
-/

namespace HobbyOs

open Outcome Transition

variable {cfg : Config} {p q r : Slot cfg} {k k' : Kernel cfg} {s t u : Core cfg} {m m' : Machine cfg}

/-! ## Slots in use -/

/-- The slots that are not free. -/
def Core.taken (s : Core cfg) : Set (Slot cfg) := {q | (s.procs q).state ≠ .available}

@[simp] theorem Core.mem_taken : q ∈ s.taken ↔ (s.procs q).state ≠ .available := Iff.rfl

/-- The slots that are not free have different pids. -/
def UniquePids (s : Core cfg) : Prop := s.taken.InjOn fun q => (s.procs q).pid

/-- No slot but those in `A` is taken, and those that stay taken keep their pids. -/
def KeepsPids (A : Set (Slot cfg)) (s t : Core cfg) : Prop :=
  ∀ q ∉ A, q ∈ t.taken → q ∈ s.taken ∧ (t.procs q).pid = (s.procs q).pid

namespace KeepsPids

variable {A : Set (Slot cfg)}

theorem refl : KeepsPids A s s := fun _ _ h => ⟨h, rfl⟩

theorem trans (h : KeepsPids A s t) (h' : KeepsPids A t u) : KeepsPids A s u := by
  intro q hA hq
  obtain ⟨hq, hpid⟩ := h' q hA hq
  obtain ⟨hq, hpid'⟩ := h q hA hq
  exact ⟨hq, hpid.trans hpid'⟩

theorem of_eq (hp : t.procs = s.procs) : KeepsPids A s t := by
  intro q _ hq
  rw [Core.mem_taken, hp] at hq
  exact ⟨hq, by rw [hp]⟩

/-- A process changes that is in `A`, or keeps its state and its pid. -/
theorem update {f : PCore cfg → PCore cfg} (hf : q ∉ A → (f (s.procs q)).state = (s.procs q).state ∧
    (f (s.procs q)).pid = (s.procs q).pid) : KeepsPids A s (s.update q f) := by
  intro r hA hr
  by_cases hrq : r = q
  · subst hrq
    simpa [(hf hA).1, (hf hA).2] using hr
  · simpa [hrq] using hr

/-- The state of a slot changes that is in `A`, or not free, or becomes free. -/
theorem setState {new : PState} {site : Site cfg} (hq : q ∉ A → new ≠ .available → q ∈ s.taken) :
    KeepsPids A s (s.setState q new site) := by
  intro r hA hr
  by_cases hrq : r = q
  · subst hrq
    refine ⟨hq hA ?_, by simp⟩
    simpa using hr
  · simpa [hrq] using hr

theorem wakes (h : Wakes s t) : KeepsPids A s t := by
  intro q _ hq
  rcases h.procs_eq q with heq | ⟨hs, heq⟩
  · rw [Core.mem_taken, heq] at hq
    exact ⟨hq, by rw [heq]⟩
  · exact ⟨by simp [hs], by rw [heq]⟩

theorem reaps {call : Kont cfg} {pid : ℤ} (h : Reaps p call s t pid) : KeepsPids A s t := by
  cases h with
  | none _ => exact refl
  | one _ _ => exact setState fun _ hne => absurd rfl hne

theorem sleep {f : PCore cfg → PCore cfg} {frame : TrapFrame} {call : Kont cfg} (hp : p ∈ s.taken)
    (hf : (f (s.procs p)).state = (s.procs p).state ∧ (f (s.procs p)).pid = (s.procs p).pid) :
    KeepsPids A s (s.sleep p f frame call) := by
  intro q _ hq
  by_cases hqp : q = p
  · subst hqp
    exact ⟨hp, by simp [hf.2]⟩
  · rw [Core.mem_taken, Core.sleep_procs_of_ne hqp] at hq
    exact ⟨hq, by rw [Core.sleep_procs_of_ne hqp]⟩

end KeepsPids

namespace UniquePids

theorem keeps (h : UniquePids s) (hk : KeepsPids ∅ s t) : UniquePids t := by
  intro p hp q hq hpq
  obtain ⟨hp, hpid⟩ := hk p (by simp) hp
  obtain ⟨hq, hqid⟩ := hk q (by simp) hq
  exact h hp hq (hpid.symm.trans (hpq.trans hqid))

/-- The slot `q` may be taken, with a pid that no other slot in use has. -/
theorem take (h : UniquePids s) (hk : KeepsPids {q} s t)
    (hq : q ∈ t.taken → ∀ r ∈ s.taken, r ≠ q → (s.procs r).pid ≠ (t.procs q).pid) :
    UniquePids t := by
  have hother : ∀ r ∈ t.taken, r ≠ q → q ∈ t.taken → (t.procs r).pid ≠ (t.procs q).pid := by
    intro r hr hrq hqt
    obtain ⟨hr, hpid⟩ := hk r hrq hr
    rw [hpid]
    exact hq hqt r hr hrq
  intro a ha b hb hab
  have hab : (t.procs a).pid = (t.procs b).pid := hab
  by_cases haq : a = q
  · subst haq
    by_contra hne
    exact hother b hb (Ne.symm hne) ha hab.symm
  by_cases hbq : b = q
  · subst hbq
    exact absurd hab (hother a ha haq hb)
  · obtain ⟨ha, haid⟩ := hk a haq ha
    obtain ⟨hb, hbid⟩ := hk b hbq hb
    exact h ha hb (haid.symm.trans (hab.trans hbid))

end UniquePids

/-! ## A fork without pages -/

/-- `init_proc` without enough pages: all it does to the core is to take a pid. -/
theorem initProc_short (ht : k.held .procTable = false) (h : countFreePages k < pagesNeeded cfg) (pc : ℕ)
    (name : Option (List UInt8)) :
    (∃ k', initProc q pc name k = .ok (-ENOMEM) k' ∧ k'.core = k.core.newPid q) ∨
      ∃ e k', initProc q pc name k = .error e k' ∧ k'.core = k.core.newPid q := by
  rw [initProc, bind_ok (allocPid_apply ht)]
  have hrun : ∀ f : Unit → KM cfg ℤ, (modifyProc q (fun x => { x with
      pid := k.pidCounter % 2 ^ 32, uid := k.pidCounter, forker := none }) >>= f)
        { k with pidCounter := k.pidCounter + 1 } = f () (k.newPid q) := fun f => rfl
  rw [hrun]
  have hcore := (still_initProcPages (L := {.pagedMemory}) rfl (q := q) (fun _ => false) (fun _ _ => rfl)
    (k.newPid q)).1
  have hcount : countFreePages (k.newPid q) = countFreePages k := countFreePages_congr rfl
  cases hr : initProcPages q (k.newPid q) with
  | error e k₁ =>
    rw [hr] at hcore
    exact .inr ⟨e, k₁, bind_error hr, Eq.trans hcore Kernel.newPid_core⟩
  | ok o k₁ =>
    rw [hr] at hcore
    cases o with
    | none => exact .inl ⟨k₁, bind_ok hr, Eq.trans hcore Kernel.newPid_core⟩
    | some o =>
      have := initProcPages_needs hr
      omega

/-- A fork without enough pages makes no process. -/
theorem procFork_short (hk : Calm p k) (hcpu : k.core.cpuProc = some p) (h : countFreePages k < pagesNeeded cfg)
    (r : Slot cfg) : ((final (procFork p k)).core.procs r).state = (k.core.procs r).state := by
  have hfree : ∀ q, k.cpuProc ≠ some q → k.held (.proc q) = false := fun q hq =>
    hk.free _ (by rintro ⟨⟩; exact hq hcpu)
  have hcore : (k.setProc p { k.procs p with trap := k.trapFrame }).core =
      k.core.update p fun x => { x with trap := k.trapFrame } := Kernel.setProc_core_of rfl
  rw [procFork_apply (hk.free .procTable (by simp)) hfree]
  cases freeSlot k with
  | none =>
    show ((k.setProc p { k.procs p with trap := k.trapFrame }).core.procs r).state = _
    rw [hcore]
    by_cases hr : r = p
    · subst hr
      simp
    · simp [hr]
  | some q =>
    -- Both ways out of `init_proc` leave the core as it was, but for the new pid.
    have hstate : ∀ k₁ : Kernel cfg, k₁.core = (k.forking p q).core.newPid q →
        (k₁.core.procs r).state = (k.core.procs r).state := by
      intro k₁ hk₁
      rw [hk₁, show (k.forking p q).core = _ from hcore]
      exact Core.numbered_state r
    have hlock : (k.forking p q).held .procTable = false := by
      simpa [Kernel.forking, Kernel.setHeld] using hk.free .procTable (by simp)
    have hshort : countFreePages (k.forking p q) < pagesNeeded cfg := by
      have hcount : countFreePages (k.forking p q) = countFreePages k := countFreePages_congr rfl
      rwa [hcount]
    show ((final (forkTail p q k.trapFrame.pc (k.forking p q))).core.procs r).state = _
    rw [forkTail]
    rcases initProc_short (q := q) hlock hshort k.trapFrame.pc
      none with ⟨k₁, h₁, hc⟩ | ⟨e, k₁, h₁, hc⟩
    · rw [bind_ok h₁, if_pos (by decide)]
      exact hstate k₁ hc
    · rw [bind_error h₁]
      exact hstate k₁ hc

/-! ## Steps -/

/-- A call that gives a slot no pid that another slot in use has: `fork`, if there
    are pages for a process; and `exit`, which makes a parent ready that may have
    been freed long ago. -/
def TakesFreshPid (p : Slot cfg) (k : Kernel cfg) : Call → Prop
  | .fork => pagesNeeded cfg ≤ countFreePages k →
      ∀ q, (k.procs q).state ≠ .available → (k.procs q).pid ≠ k.pidCounter % 2 ^ 32
  | .exit => ∀ r ∈ (k.procs p).parent, (k.procs r).state = .available →
      ∀ q ≠ r, (k.procs q).state ≠ .available → (k.procs q).pid ≠ (k.procs r).pid
  | _ => True

instance (p : Slot cfg) (k : Kernel cfg) : DecidablePred (TakesFreshPid p k)
  | .fork => inferInstanceAs (Decidable (_ → ∀ _, _))
  | .exit => inferInstanceAs (Decidable (∀ r ∈ _, _))
  | .read .. | .write .. | .open _ | .close _ | .wait _ | .execv .. | .getpid | .dup _ | .pipe _ | .sysinfo _
  | .sleep _ | .plist .. | .pinfo .. | .pgalloc | .pgfree _ | .gpio .. | .detach | .isopen _ | .pipeattch ..
  | .lsdir .. => .isTrue trivial

namespace UniquePids

theorem forks {how : How} (h : UniquePids s) (hf : Forks k p q s how t)
    (hfresh : (t.procs q).state ≠ .available →
      ∀ r ∈ s.taken, (s.procs r).pid ≠ s.pidCounter % 2 ^ 32) :
    UniquePids t := by
  refine h.take (q := q) (fun r hr hrt => ?_) fun hqt r hr _ => ?_
  · rw [Core.mem_taken, hf.procs_of_ne hr] at hrt
    exact ⟨hrt, by rw [hf.procs_of_ne hr]⟩
  · have hpid : (t.procs q).pid = s.pidCounter % 2 ^ 32 := by
      cases hf <;> simp [Core.newPid, Core.fresh, Core.counted, Core.adopted]
    rw [hpid]
    exact hfresh hqt r hr

/-- The process exits, and makes its parent ready. -/
theorem exits {site : Site cfg} (h : UniquePids s) (hs : p ∈ s.taken)
    (hr : (s.procs r).state = .available → ∀ q ≠ r, q ∈ s.taken →
      (s.procs q).pid ≠ (s.procs r).pid) :
    UniquePids ((s.setState p .zombie .exit).setState r .ready site) := by
  have hpid : (((s.setState p .zombie .exit).setState r .ready site).procs r).pid = (s.procs r).pid := by
    by_cases hrp : r = p
    · subst hrp
      simp
    · simp [hrp]
  refine h.take (q := r) (.trans (.setState fun _ _ => hs) (.setState fun hA => absurd rfl hA)) fun _
    q hq hqr => ?_
  rw [hpid]
  by_cases ha : (s.procs r).state = .available
  · exact hr ha q hqr hq
  · exact fun heq => hqr (h hq ha heq)

theorem call {c : Call} {how : How} (h : UniquePids k.core) (hk : Calm p k)
    (hs : OnCpu p k.core) (hl : Lineal k.core)
    (hend : final (runCall p c k) = k') (he : CallEffect p k c how k'.core) (hc : TakesFreshPid p k c) :
    UniquePids k'.core := by
  have hp : p ∈ k.core.taken := by simp [hs.running]
  generalize ht : k'.core = t at he
  cases he with
  | quiet _ hw => exact h.keeps (.wakes hw)
  | frame _ => exact h.keeps (.update fun _ => ⟨rfl, rfl⟩)
  | @yield _ t ch _ call htr hw hch =>
    have hpt : p ∈ t.taken := by
      rw [Core.mem_taken, hw.procs_of_ne_sleeping] <;> simp [hs.running]
    exact h.keeps ((KeepsPids.wakes hw).trans (.sleep hpt ⟨rfl, rfl⟩))
  | sleep => exact h.keeps (.sleep hp ⟨rfl, rfl⟩)
  | waited hr _ => exact h.keeps ((KeepsPids.reaps hr).trans (.of_eq rfl))
  | @wait cond t pid frame hr hpid =>
    have hpt : p ∈ t.taken := by
      rw [Core.mem_taken, hr.procs_self (hl p)]
      exact hp
    exact h.keeps ((KeepsPids.reaps hr).trans (.sleep hpt ⟨rfl, rfl⟩))
  | waitCond => exact h.keeps (.sleep hp ⟨rfl, rfl⟩)
  | @fork q how frame t hqp hq hf =>
    have hframe : UniquePids (k.core.update p fun x => { x with trap := frame }) :=
      h.keeps (.update fun _ => ⟨rfl, rfl⟩)
    refine hframe.forks hf fun hqt r hr => ?_
    -- A fork that leaves the slot taken had the pages, and then its pid is fresh.
    have hpages : pagesNeeded cfg ≤ countFreePages k := by
      by_contra hpages
      have hsame := procFork_short hk hs.cpu (not_le.1 hpages) q
      have hfork : final (procFork p k) = k' := hend
      rw [hfork, ht, hq] at hsame
      exact hqt hsame
    by_cases hrp : r = p
    · subst hrp
      rw [Core.update_procs_self]
      exact hc hpages r hp
    · rw [Core.mem_taken, Core.update_procs_of_ne _ _ hrp] at hr
      rw [Core.update_procs_of_ne _ _ hrp]
      exact hc hpages r hr
  | orphan hpar => exact h.keeps (.setState fun _ _ => hp)
  | @exiting r _ hpar hw => exact (h.exits hp (hc r hpar)).keeps (.wakes hw)
  | @exited r t hpar hw =>
    have hexit := (h.exits hp (hc r hpar)).keeps (.wakes hw)
    have hctx :=
      hexit.keeps (.update (q := p) (f := fun x => { x with ctx := .exited }) fun _ => ⟨rfl, rfl⟩)
    exact hctx.keeps (.of_eq rfl)
  | detached _ _ => exact h.keeps (.update fun _ => ⟨rfl, rfl⟩)
  | @detachedWake r _ hsl =>
    refine h.keeps
      (.trans (.update (q := p) (f := fun x => { x with parent := none }) fun _ => ⟨rfl, rfl⟩) ?_)
    refine .setState fun _ _ => ?_
    by_cases hrp : r = p
    · subst hrp
      simpa using hp
    · simp [hrp, hsl]
  | attached _ => exact h.keeps (.update fun _ => ⟨rfl, rfl⟩)

theorem resume {how : How} (h : UniquePids s) (hs : OnCpu p s) (hl : Lineal s) (he : ResumeEffect p s how t) :
    UniquePids t := by
  cases he with
  | same _ => exact h
  | waited _ _ hr => exact h.keeps ((KeepsPids.reaps hr).trans (.of_eq rfl))
  | reaped _ _ hr hw => exact h.keeps ((KeepsPids.reaps hr).trans (.wakes hw))
  | @yield t u _ _ _ _ _ _ hr hw _ =>
    have hp : t.procs p = s.procs p := hr.procs_self (hl p)
    have hp' : p ∈ u.taken := by
      rw [Core.mem_taken, hw.procs_of_ne_sleeping] <;> simp [hp, hs.running]
    exact h.keeps (((KeepsPids.reaps hr).trans (.wakes hw)).trans (.sleep hp' ⟨rfl, rfl⟩))

theorem after {how : How} (h : UniquePids t) : UniquePids (t.after how) := by
  cases how <;> exact h.keeps (.of_eq rfl)

theorem run (h : UniquePids s) (hready : ((s.awaken p).procs p).state = .ready)
    (hw : Wakes ((s.awaken p).run p) t) : UniquePids t := by
  have hawake : KeepsPids ∅ s (s.awaken p) := by
    rw [Core.awaken]
    split
    · rename_i hdue
      exact .setState fun _ _ => by simp [hdue.1]
    · exact .refl
  have hrun : KeepsPids ∅ (s.awaken p) ((s.awaken p).run p) := by
    have hset : KeepsPids ∅ (s.awaken p) ((s.awaken p).setState p .running .scheduler) :=
      .setState fun _ _ => by simp [hready]
    exact (hset.trans (.update (q := p) (f := fun x => { x with nscheds := (x.nscheds + 1) % 2 ^ 64 })
      fun _ => ⟨rfl, rfl⟩)).trans
      (.of_eq rfl)
  exact h.keeps ((hawake.trans hrun).trans (.wakes hw))

/-- A step that gives a slot no pid that another slot in use has. -/
theorem step {e : Event cfg} (h : UniquePids m.k.core) (hb : Base m) (hC : OnCall TakesFreshPid m e)
    (hstep : step e m = some m') : UniquePids m'.k.core := by
  by_cases hecall : e = .ecall
  · subst hecall
    cases hmode : m.mode with
    | user =>
      simp only [HobbyOs.step, hmode, Option.some.injEq] at hstep
      have hcall := ecall_callStep hb hmode
      rw [hstep] at hcall
      generalize m'.k.core = t at hcall
      cases hcall with
      | none => exact h
      | @call p c how k₁ hp hcalm hc hend he _ =>
        exact (UniquePids.call (k := (trap m).entry p) h hcalm hp hb.lineal hend he (hC p hp.cpu c hc)).after
    | idle | sched | switched | halted => simp [HobbyOs.step, hmode] at hstep
  have hcore := (step_stepped hb hstep).core
  generalize m'.k.core = t at hcore
  cases hcore with
  | same => exact h
  | time | overlay => exact h.keeps (.of_eq rfl)
  | plic hw => exact h.keeps (.wakes hw)
  | @preempt p hp =>
    have hready : KeepsPids ∅ m.k.core (m.k.core.setState p .ready .sched) :=
      .setState fun _ _ => by simp [hp.running]
    exact ((h.keeps hready).keeps (.update fun _ => ⟨rfl, rfl⟩)).after
  | call => exact absurd rfl hecall
  | run _ hready hw => exact h.run hready hw
  | resume hp _ he => exact (h.resume hp hb.lineal he).after

end UniquePids

/-- Only one slot is taken. -/
theorem UniquePids.of_single (h : ∀ q ∈ s.taken, q = p) : UniquePids s :=
  fun _ ha _ hb _ => (h _ ha).trans (h _ hb).symm

theorem uniquePids_halfway (h : Halfway s) : UniquePids s := by
  cases h with
  | init => exact fun _ ha => absurd rfl ha
  | @pid p | @fresh p | @counted p =>
    refine .of_single (p := p) fun q hq => ?_
    by_contra hqp
    simp [Core.newPid, Core.fresh, Core.counted, Core.init, zeroProc, hqp] at hq

theorem uniquePids_booted (p : Slot cfg) (frame frame' : TrapFrame) :
    UniquePids ((Core.init cfg).booted p frame frame') :=
  (uniquePids_halfway (@Halfway.counted cfg p frame frame')).keeps (.of_eq rfl)

/-- In every state of a run whose calls give no pid that another slot in use has,
    the slots that are not free have different pids. -/
theorem pids_unique (h : Reach (machine cfg) (OnCall TakesFreshPid) m) (hpq : p ≠ q)
    (hp : (m.k.procs p).state ≠ .available) (hq : (m.k.procs q).state ≠ .available) :
    (m.k.procs p).pid ≠ (m.k.procs q).pid := by
  have hunique : UniquePids m.k.core :=
    core_of_reach uniquePids_booted (fun _ => uniquePids_halfway) (fun hb hI hC hstep => hI.step hb hC hstep) h
  exact fun heq => hpq (hunique hp hq heq)

/-! ## Forks that fail

Without a free page every fork fails, and takes a pid. Nothing else is different
after each of these forks, so they may go on for as long as it takes.
-/

/-- `init_proc` without a free page. -/
theorem initProc_starved (ht : k.held .procTable = false) (hp : k.held .pagedMemory = false)
    (h : freePage k = none) (pc : ℕ) (name : Option (List UInt8)) :
    initProc q pc name k = .ok (-ENOMEM) (k.newPid q) := by
  rw [initProc, bind_ok (allocPid_apply ht)]
  have hnone : freePage (k.newPid q) = none := h
  have hpages : initProcPages q (k.newPid q) = .ok none (k.newPid q) := by
    rw [initProcPages, get_bind_apply, bind_ok ((kalloc_apply (k := k.newPid q) hp _).trans (by rw [hnone]))]
    rfl
  exact bind_ok hpages

/-- The kernel after a fork without a free page, by `p` into the slot `q`. -/
def Kernel.failFork (k : Kernel cfg) (p q : Slot cfg) : Kernel cfg :=
  { k.newPid q with mem := storeBytes k.mem (k.procs p).perrno (bytesOfWord ENOMEM cfg.regSz) }

theorem Kernel.newPid_perrno : ((k.newPid q).procs p).perrno = (k.procs p).perrno := by
  by_cases hpq : p = q
  · subst hpq
    simp [Kernel.newPid, Kernel.setProc]
  · simp [Kernel.newPid, Kernel.setProc, hpq]

/-- `proc_fork` without a free page, from where the slot is found. -/
theorem forkTail_starved {pc : ℕ} (hfree : ∀ l, k.held l = false) (h : freePage k = none) :
    forkTail p q pc (k.setHeld (.proc q) true) = .ok (-1) (k.failFork p q) := by
  have hinit := initProc_starved (k := k.setHeld (.proc q) true) (q := q) (hfree _) (hfree _) h pc none
  rw [forkTail, bind_ok hinit, if_pos (by decide)]
  show EStateM.Result.ok (-1) (Kernel.setHeld { (k.newPid q).setHeld (.proc q) true with
    mem := storeBytes k.mem ((k.newPid q).procs p).perrno _ } (.proc q) false) = _
  rw [Kernel.newPid_perrno]
  exact congrArg _ (Kernel.setHeld_setHeld (k := k.failFork p q) (hfree _))

/-- `proc_fork` without a free page. -/
theorem procFork_starved (hfree : ∀ l, k.held l = false) (hslot : freeSlot k = some q)
    (h : freePage k = none) :
    procFork p k = .ok (-1) ((k.setProc p { k.procs p with trap := k.trapFrame }).failFork p q) := by
  rw [procFork_apply (hfree _) fun _ _ => hfree _, hslot]
  exact forkTail_starved (k := k.setProc p { k.procs p with trap := k.trapFrame }) hfree h

/-- The process `p` forks with the registers `regs`, into the slot `q`, and there is
    no free page. -/
structure Starves (m : Machine cfg) (p q : Slot cfg) (regs : TrapFrame) : Prop where
  mode : m.mode = .user
  cpu : m.k.cpuProc = some p
  locks : ∀ l, m.k.held l = false
  slot : freeSlot m.k = some q
  pages : freePage m.k = none
  call : decodeCall cfg regs = some .fork
  stack : (m.k.procs p).stackPage ≤ va2pa m.k (m.k.procs p).upagetable (regs.regs TrapFrame.sp)
  magic : loadWord m.k.mem (m.k.procs p).magic 4 = procMagicStackSentinel
  apart : (m.k.procs p).perrno + cfg.regSz ≤ (m.k.procs p).magic ∨
    (m.k.procs p).magic + 4 ≤ (m.k.procs p).perrno

/-- The machine after forks that have failed: the last one took the pid `n`. -/
def starved (m : Machine cfg) (p q : Slot cfg) (regs : TrapFrame) (n : ℕ) : Machine cfg :=
  let frame := { regs with pc := cfg.reg (regs.pc + 4) }
  let k := { m.k with
    procs := Function.update (Function.update m.k.procs p { m.k.procs p with trap := frame }) q
      { m.k.procs q with pid := n % 2 ^ 32, uid := n, forker := none }
    pidCounter := n + 1
    mem := storeBytes (storeBytes m.k.mem (m.k.procs p).perrno (bytesOfWord 0 cfg.regSz)) (m.k.procs p).perrno
      (bytesOfWord ENOMEM cfg.regSz)
    trapFrame := frame.set TrapFrame.a0 (cfg.reg (-1)) }
  ⟨k, k.trapFrame, .user⟩

theorem starved_proc {regs : TrapFrame} {n : ℕ} (hpq : p ≠ q) : (starved m p q regs n).k.procs p =
    { m.k.procs p with trap := { regs with pc := cfg.reg (regs.pc + 4) } } := by
  simp [starved, hpq]

/-- The stores of `errno` leave the sentinel alone. -/
theorem starved_magic {regs : TrapFrame} {n : ℕ} (h : Starves m p q regs) (hpq : p ≠ q) :
    loadWord (starved m p q regs n).k.mem ((starved m p q regs n).k.procs p).magic 4 =
      procMagicStackSentinel := by
  have hapart := h.apart
  rw [starved_proc hpq, ← h.magic]
  refine (loadWord_storeBytes ?_).trans (loadWord_storeBytes ?_)
  · rw [length_bytesOfWord]
    exact hapart.symm
  · rw [length_bytesOfWord]
    exact hapart.symm

theorem failFork_starved (regs : TrapFrame) (hpq : p ≠ q) :
    { ((((trap { m with hart := regs }).entry p).setProc p
      { ((trap { m with hart := regs }).entry p).procs p with
      trap := ((trap { m with hart := regs }).entry p).trapFrame }).failFork p q) with
      trapFrame := TrapFrame.set { regs with pc := cfg.reg (regs.pc + 4) } TrapFrame.a0 (cfg.reg (-1)) } =
      (starved m p q regs m.k.pidCounter).k := by
  simp only [starved, Kernel.failFork, Kernel.newPid, Kernel.setProc, Kernel.entry, trap, Function.update_self,
    Function.update_of_ne hpq.symm]

theorem syscall_starved {regs : TrapFrame} (h : Starves m p q regs) (hpq : p ≠ q) :
    syscall p (trap { m with hart := regs }) = .ok () (starved m p q regs m.k.pidCounter).k := by
  generalize hk : trap { m with hart := regs } = k
  have hrun : syscall p k = (do
      if stackOverflow (← get) p then throw .hang
      syscallTail p (← dispatch p) : KM cfg Unit) (k.entry p) := rfl
  have hcall : dispatch p (k.entry p) = procFork p (k.entry p) := by
    rw [dispatch, get_bind_apply, show decodeCall cfg (k.entry p).trapFrame = some .fork from hk ▸ h.call]
    rfl
  have hfork := procFork_starved (p := p) (q := q) (k := k.entry p) (fun l => by subst hk; exact h.locks l)
    (by subst hk; exact h.slot) (by subst hk; exact h.pages)
  have hstack : ¬stackOverflow (k.entry p) p := by
    subst hk
    exact not_lt.2 h.stack
  rw [hrun, get_bind_apply, if_neg hstack]
  show (dispatch p >>= syscallTail p) (k.entry p) = _
  rw [bind_ok (hcall.trans hfork), syscallTail, modify_bind_apply]
  subst hk
  refine (congrArg (fun k => EStateM.run _ k) (failFork_starved regs hpq)).trans ?_
  show (get >>= _ : KM cfg Unit) _ = _
  rw [get_bind_apply, if_neg (not_not.2 (starved_magic h hpq))]
  rfl

/-- One fork that fails. -/
theorem fork_starved {regs : TrapFrame} (h : Starves m p q regs) (hpq : p ≠ q) :
    run free (machine cfg) [.exec regs [], .ecall] m = some (starved m p q regs m.k.pidCounter) := by
  have hexec : step (.exec regs []) m = some { m with hart := regs } := by
    simp only [step, h.mode]
    rfl
  have hecall : step .ecall { m with hart := regs } = some (ecallStep { m with hart := regs }) := by
    simp only [step, h.mode]
  have hsyscall : syscall p (trap { m with hart := regs }) = .ok () (starved m p q regs m.k.pidCounter).k :=
    syscall_starved h hpq
  have hstep : ecallStep { m with hart := regs } = starved m p q regs m.k.pidCounter := by
    rw [ecallStep, show ({ m with hart := regs } : Machine cfg).k.cpuProc = some p from h.cpu]
    dsimp only
    rw [hsyscall]
    rfl
  simp only [run, free, if_true, machine, hexec, hecall, Option.bind_some, hstep]

theorem Starves.again {regs : TrapFrame} {n : ℕ} (h : Starves m p q regs) (hpq : p ≠ q) :
    Starves (starved m p q regs n) p q regs where
  mode := rfl
  cpu := h.cpu
  locks := h.locks
  slot := by
    rw [← h.slot]
    refine freeSlot_congr rfl fun r => ?_
    by_cases hrq : r = q
    · subst hrq
      simp [starved]
    by_cases hrp : r = p
    · subst hrp
      simp [starved, hrq]
    · simp [starved, hrq, hrp]
  pages := h.pages
  call := h.call
  stack := by
    rw [starved_proc hpq]
    exact h.stack
  magic := starved_magic h hpq
  apart := by
    rw [starved_proc hpq]
    exact h.apart

/-- Another fork only changes the pid. -/
theorem starved_starved {regs : TrapFrame} {n n' : ℕ} (hpq : p ≠ q) :
    starved (starved m p q regs n) p q regs n' = starved m p q regs n' := by
  have hmem : ∀ (mem : ℕ → UInt8) (a : ℕ), storeBytes (storeBytes (storeBytes (storeBytes mem a
      (bytesOfWord 0 cfg.regSz)) a (bytesOfWord ENOMEM cfg.regSz)) a (bytesOfWord 0 cfg.regSz)) a
      (bytesOfWord ENOMEM cfg.regSz) = storeBytes (storeBytes mem a (bytesOfWord 0 cfg.regSz)) a
        (bytesOfWord ENOMEM cfg.regSz) := by
    intro mem a
    have hlen : ∀ v w, (bytesOfWord v cfg.regSz).length = (bytesOfWord w cfg.regSz).length := by simp
    rw [storeBytes_storeBytes (hlen _ _), storeBytes_storeBytes (hlen _ _), storeBytes_storeBytes (hlen _ _)]
  have hprocs : (starved (starved m p q regs n) p q regs n').k.procs = (starved m p q regs n').k.procs := by
    funext r
    by_cases hrq : r = q
    · subst hrq
      simp [starved]
    by_cases hrp : r = p
    · subst hrp
      simp [starved, hrq]
    · simp [starved, hrq, hrp]
  simp only [starved, Function.update_self, Function.update_of_ne hpq] at hprocs ⊢
  rw [hprocs, hmem]

/-- Forks that fail, one after the other. -/
theorem path_starved {regs : TrapFrame} {n : ℕ} (h : Starves m p q regs) (hpq : p ≠ q) (j : ℕ) :
    Path (machine cfg) free (starved m p q regs n) (starved m p q regs (n + j)) := by
  induction j with
  | zero => exact .refl
  | succ j ih =>
    have hfork := fork_starved (h.again (n := n + j) hpq) hpq
    rw [starved_starved hpq] at hfork
    exact ih.trans (.of_run free hfork)

/-! ## Two runs -/

/-- The first process takes all pages, -/
def takeAllPages : List (Event .qemuE) :=
  [Event.kernel, .kernel] ++ (List.replicate 16 (calls 34 0 0 0 [])).flatten

/-- and is left with none to fork. -/
def starving : Machine .qemuE := (runFrom .qemuE takeAllPages).get (by decide +kernel)

/-- It gives two pages back, and forks once more. -/
def forkAtLast : List (Event .qemuE) :=
  calls 35 0x80002000 0 0 [] ++ calls 35 0x80002200 0 0 [] ++ calls 2 0 0 0 []

theorem starves_starving :
    Starves starving ⟨0, by decide⟩ ⟨1, by decide⟩ (callRegs 0x80003ff0 2 0 0 0) := by
  have hlocks : ∀ l, starving.k.held l = false := by
    intro l
    cases l with
    | proc q =>
      revert q
      decide +kernel
    | pipe i =>
      revert i
      decide +kernel
    | _ => decide +kernel
  refine ⟨?_, ?_, hlocks, ?_, ?_, rfl, ?_, ?_, ?_⟩ <;> decide +kernel

/-- Forks that fail use up the pids: the last one makes a process with the pid of
    the first process. -/
theorem starving_pid_again :
    ¬∀ (m : Machine .qemuE) (p q : Slot .qemuE), Reach (machine .qemuE) free m → p ≠ q →
      (m.k.procs p).state ≠ .available → (m.k.procs q).state ≠ .available →
      (m.k.procs p).pid ≠ (m.k.procs q).pid := by
  have h : ∃ m ∈ run free (machine .qemuE) forkAtLast
      (starved starving ⟨0, by decide⟩ ⟨1, by decide⟩ (callRegs 0x80003ff0 2 0 0 0) (2 ^ 32 - 1)),
      (m.k.procs ⟨0, by decide⟩).state ≠ .available ∧
        (m.k.procs ⟨1, by decide⟩).state ≠ .available ∧
      (m.k.procs ⟨0, by decide⟩).pid = (m.k.procs ⟨1, by decide⟩).pid := by
    decide +kernel
  obtain ⟨m, hm, h₀, h₁, hpid⟩ := h
  have hne : (⟨0, by decide⟩ : Slot .qemuE) ≠ ⟨1, by decide⟩ := by decide
  have hstarving : Reach (machine .qemuE) free starving := reach_of_runFrom (Option.some_get _).symm
  have hfirst := hstarving.path (.of_run free (fork_starved starves_starving hne))
  have hcount : starving.k.pidCounter = 1 := by decide +kernel
  rw [hcount] at hfirst
  have hforks := hfirst.path (path_starved starves_starving hne (2 ^ 32 - 2))
  rw [show 1 + (2 ^ 32 - 2) = 2 ^ 32 - 1 by omega] at hforks
  have hlast := hforks.path (.of_run free hm)
  exact fun hall => hall m _ _ hlast hne h₀ h₁ hpid

theorem two_pids_unique :
    ∃ m : Machine .qemuE, (m.k.procs ⟨0, by decide⟩).state ≠ .available ∧
    (m.k.procs ⟨1, by decide⟩).state ≠ .available ∧
      (m.k.procs ⟨0, by decide⟩).pid ≠ (m.k.procs ⟨1, by decide⟩).pid := by
  have h : ∃ m ∈ run (OnCall TakesFreshPid) (machine .qemuE) ([Event.kernel, .kernel] ++ calls 2 0 0 0 [])
      (boot .qemuE fun _ => 0), (m.k.procs ⟨0, by decide⟩).state ≠ .available ∧
      (m.k.procs ⟨1, by decide⟩).state ≠ .available := by
    decide +kernel
  obtain ⟨m, hm, h₀, h₁⟩ := h
  exact ⟨m, h₀, h₁, pids_unique (Reach.of_run _ ⟨_, rfl⟩ hm) (by decide) h₀ h₁⟩

end HobbyOs
