import Mathlib.Logic.Relation
import HobbyOs.KernelStep

/-!
# Moves of processes

What a step of the machine does to the states of the slots and to the kinship of
processes, in small pieces (`Move`). A step that the kernel does not halt in is a
sequence of moves (`KernelStep.moves`), so that an invariant has to be checked
for one move at a time (`Moves.invariant`).

Some moves are made on behalf of a *deed* of a process: it exits, it frees a
child, it forks. A rule `R` says which deeds are done in which states; the
conditions on runs are such rules, checked where the deed begins (`Does`).
-/

namespace HobbyOs

open Outcome Transition

variable {cfg : Config} {p q r : Slot cfg} {k k' : Kernel cfg} {s t u : Core cfg} {m : Machine cfg}

/-- The state of a process, and its kinship. -/
def PCore.kin (x : PCore cfg) := (x.state, x.pid, x.parent, x.uid, x.forker)

/-- The states of the slots and the kinship of the processes are the same. -/
structure Alike (s t : Core cfg) : Prop where
  state : ∀ q, (t.procs q).state = (s.procs q).state
  pid : ∀ q, (t.procs q).pid = (s.procs q).pid
  parent : ∀ q, (t.procs q).parent = (s.procs q).parent
  uid : ∀ q, (t.procs q).uid = (s.procs q).uid
  forker : ∀ q, (t.procs q).forker = (s.procs q).forker
  pidCounter : t.pidCounter = s.pidCounter
  log : t.log = s.log

namespace Alike

theorem of_procs (h : t.procs = s.procs) (hn : t.pidCounter = s.pidCounter) (hlog : t.log = s.log) :
    Alike s t where
  state q := by rw [h]
  pid q := by rw [h]
  parent q := by rw [h]
  uid q := by rw [h]
  forker q := by rw [h]
  pidCounter := hn
  log := hlog

theorem update {f : PCore cfg → PCore cfg} (hf : ∀ x, (f x).kin = x.kin) : Alike s (s.update q f) := by
  have hr : ∀ r, ((s.update q f).procs r).kin = (s.procs r).kin := by
    intro r
    by_cases hrq : r = q
    · subst hrq
      simp [hf]
    · simp [hrq]
  simp only [PCore.kin, Prod.mk.injEq] at hr
  exact ⟨fun r => (hr r).1, fun r => (hr r).2.1, fun r => (hr r).2.2.1, fun r => (hr r).2.2.2.1,
    fun r => (hr r).2.2.2.2, rfl, rfl⟩

theorem after {how : How} : Alike s (s.after how) := by
  cases how with
  | away => exact .of_procs rfl rfl rfl
  | back | halt => exact .of_procs rfl rfl rfl

end Alike

/-! ## Moves -/

/-- What a process does that matters to others. -/
inductive Deed (cfg : Config)
  /-- `p` exits. -/
  | exit (p : Slot cfg)
  /-- `p` frees the process in `q`, within the call that `call` is the wait of. -/
  | reap (p q : Slot cfg) (call : Kont cfg)
  /-- `p` forks. -/
  | fork (p : Slot cfg)
  /-- `p` forks, and there is no room in `/proc` for the process in `q`. -/
  | half (p q : Slot cfg)

/-- A move, where the deeds obey the rule `R`. -/
inductive Move (R : Core cfg → Deed cfg → Prop) (s : Core cfg) : Core cfg → Prop
  | alike {t : Core cfg} : Alike s t → Move R s t
  | wake {q : Slot cfg} {site : Site cfg} :
      (s.procs q).state = .sleeping → Move R s (s.setState q .ready site)
  | run {q : Slot cfg} : (s.procs q).state = .ready → Move R s (s.setState q .running .scheduler)
  | leave {p : Slot cfg} {new : PState} {site : Site cfg} :
      s.cpuProc = some p → (s.procs p).state = .running →
      new = .ready ∨ new = .sleeping → Move R s (s.setState p new site)
  | exit {p r : Slot cfg} : R s (.exit p) → s.cpuProc = some p → (s.procs p).state = .running →
      (s.procs p).parent = some r → r ≠ p → (s.procs r).state ≠ .running →
      Move R s ((s.setState p .zombie .exit).setState r .ready (.exitParent (s.procs p).uid (s.procs p).forker))
  | reap {p q : Slot cfg} {call : Kont cfg} : R s (.reap p q call) → (s.procs q).parent = some p →
      (s.procs q).state = .zombie → (call = .waitChild → int32 (s.procs q).pid < 0) →
      Move R s (s.setState q .available (.reap call))
  /-- A wait frees a child and returns its pid. -/
  | deliver {p q : Slot cfg} : R s (.reap p q .waitChild) → s.cpuProc = some p →
      (s.procs q).parent = some p →
      (s.procs q).state = .zombie →
      Move R s
        ((s.setState q .available (.reap .waitChild)).record (.waited (s.procs p).uid (int32 (s.procs q).pid)))
  /-- A wait returns that found no child. -/
  | waited {uid : ℕ} : Move R s (s.record (.waited uid (-1)))
  | number {p q : Slot cfg} {t : Core cfg} : Alike s t → R s (.fork p) → (s.procs q).state = .available →
      Move R s (t.newPid q)
  | half {p q : Slot cfg} {t : Core cfg} {frame : TrapFrame} :
      Alike s t → R s (.fork p) → R s (.half p q) →
      (s.procs q).state = .available → Move R s ((t.newPid q).fresh q frame)
  | created {p q : Slot cfg} {t : Core cfg} {frame frame' : TrapFrame} :
      Alike s t → R s (.fork p) → q ≠ p →
      (s.procs p).state = .running → (s.procs q).state = .available →
      Move R s (((((t.newPid q).fresh q frame).counted.adopted p q).update q fun x =>
        { x with trap := frame' }).record (.created t.pidCounter))
  | detach {p : Slot cfg} : Move R s (s.update p fun x => { x with parent := none })

/-- A sequence of moves. -/
def Moves (R : Core cfg → Deed cfg → Prop) : Core cfg → Core cfg → Prop :=
  Relation.ReflTransGen (Move R)

namespace Moves

variable {R : Core cfg → Deed cfg → Prop}

theorem refl : Moves R s s := Relation.ReflTransGen.refl

theorem of_move (h : Move R s t) : Moves R s t := Relation.ReflTransGen.single h

theorem trans (h : Moves R s t) (h' : Moves R t u) : Moves R s u := Relation.ReflTransGen.trans h h'

theorem alike (h : Alike s t) : Moves R s t := of_move (.alike h)

/-- What one move keeps, a sequence of moves keeps. -/
theorem invariant {I : Core cfg → Prop} (h : Moves R s t) (hs : I s)
    (hmove : ∀ {u v}, I u → Move R u v → I v) :
    I t := by
  induction h with
  | refl => exact hs
  | tail _ hm ih => exact hmove ih hm

theorem wakes (h : Wakes s t) : Moves R s t := by
  refine h.induct (I := Moves R s) refl fun {u q site} hu hs _ _ => hu.trans ?_
  have hwake : Moves R u (u.setState q .ready site) := of_move (.wake hs)
  exact hwake.trans (alike (.update fun _ => rfl))

theorem after {how : How} (h : Moves R s t) : Moves R s (t.after how) := h.trans (alike .after)

/-- A process that runs falls asleep. -/
theorem sleep {f : PCore cfg → PCore cfg} {frame : TrapFrame} {call : Kont cfg}
    (hf : Alike s (s.update p f)) (hcpu : s.cpuProc = some p) (hp : (s.procs p).state = .running) :
    Moves R s (s.sleep p f frame call) := by
  have hleave : Moves R (s.update p f) ((s.update p f).setState p .sleeping .psleep) :=
    of_move (.leave hcpu ((hf.state p).trans hp) (.inr rfl))
  exact ((alike hf).trans hleave).trans (alike (.update fun _ => rfl))

/-- A child is freed in any call but `proc_wait(NULL)`. -/
theorem reaps {call : Kont cfg} {pid : ℤ} (h : Reaps p call s t pid) (hcall : call = .waitChild → pid < 0)
    (hR : ∀ q, (s.procs q).parent = some p → (s.procs q).state = .zombie → R s (.reap p q call)) :
    Moves R s t := by
  cases h with
  | none _ => exact refl
  | one hpar hz => exact of_move (.reap (hR _ hpar hz) hpar hz hcall)

/-- A `proc_wait(NULL)` returns. -/
theorem delivers {pid : ℤ} (h : Reaps p .waitChild s t pid) (hcpu : s.cpuProc = some p)
    (hR : ∀ q, (s.procs q).parent = some p → (s.procs q).state = .zombie → R s (.reap p q .waitChild)) :
    Moves R s (t.record (.waited (s.procs p).uid pid)) := by
  cases h with
  | none _ => exact of_move .waited
  | one hpar hz => exact of_move (.deliver (hR _ hpar hz) hcpu hpar hz)

theorem forks {how : How} (ha : Alike s t) (hR : R s (.fork p)) (hq : q ≠ p)
    (hp : (s.procs p).state = .running)
    (hav : (s.procs q).state = .available) (hhow : how ≠ .halt)
    (hhalf : ¬ProcfsRoom k q (k.pidCounter % 2 ^ 32) → R s (.half p q)) (h : Forks k p q t how u) :
    Moves R s u := by
  cases h with
  | pid _ => exact of_move (.number ha hR hav)
  | full hroom => exact of_move (.half ha hR (hhalf hroom) hav)
  | fresh | adopted => exact absurd rfl hhow
  | created => exact of_move (.created ha hR hq hp hav)

end Moves

/-! ## Steps -/

/-- The deeds of a step, where they begin. -/
inductive Does (m : Machine cfg) : Event cfg → Deed cfg → Prop
  | exit {p : Slot cfg} : m.k.cpuProc = some p → callOf (trap m) p = some .exit → Does m .ecall (.exit p)
  | fork {p : Slot cfg} : m.k.cpuProc = some p → callOf (trap m) p = some .fork → Does m .ecall (.fork p)
  | half {p q : Slot cfg} : m.k.cpuProc = some p → callOf (trap m) p = some .fork →
      (m.k.procs q).state = .available → ¬ProcfsRoom ((trap m).entry p) q (m.k.pidCounter % 2 ^ 32) →
      Does m .ecall (.half p q)
  | wait {p q : Slot cfg} {cond : ℕ} : m.k.cpuProc = some p → callOf (trap m) p = some (.wait cond) →
      (m.k.procs q).parent = some p → (m.k.procs q).state = .zombie → Does m .ecall (.reap p q .waitChild)
  | resume {p q : Slot cfg} : m.mode = .switched p → (m.k.procs p).ctx.isPlain = false →
      (m.k.procs q).parent = some p → (m.k.procs q).state = .zombie →
      Does m .kernel (.reap p q (m.k.procs p).ctx)

section

variable {R : Core cfg → Deed cfg → Prop}

theorem Aside.moves (h : Aside m t) : Moves R m.k.core t := by
  cases h with
  | same => exact .refl
  | time | overlay => exact .alike (.of_procs rfl rfl rfl)
  | @preempt p hp =>
    have hleave : Moves R m.k.core (m.k.core.setState p .ready .sched) :=
      .of_move (.leave hp.cpu hp.running (.inl rfl))
    refine Moves.after (hleave.trans ?_)
    exact .alike (.update fun _ => rfl)
  | @run p t _ hready hw =>
    have hawaken : Moves R m.k.core (m.k.core.awaken p) := by
      rw [Core.awaken]
      split
      · rename_i hdue
        exact .of_move (.wake hdue.1)
      · exact .refl
    have hrun : Moves R (m.k.core.awaken p) ((m.k.core.awaken p).run p) := by
      refine Moves.trans (.of_move (.run hready)) (.alike ?_)
      have h : Alike ((m.k.core.awaken p).setState p .running .scheduler)
          (((m.k.core.awaken p).setState p .running .scheduler).update p fun x =>
            { x with nscheds := (x.nscheds + 1) % 2 ^ 64 }) :=
        .update fun _ => rfl
      exact ⟨h.state, h.pid, h.parent, h.uid, h.forker, h.pidCounter, h.log⟩
    exact (hawaken.trans hrun).trans (.wakes hw)

theorem ResumeEffect.moves {how : How} (h : ResumeEffect p s how t) (hp : OnCpu p s) (hl : Lineal s)
    (hR : ∀ q, (s.procs q).parent = some p → (s.procs q).state = .zombie →
      R s (.reap p q (s.procs p).ctx)) :
    Moves R s t := by
  cases h with
  | same _ => exact .refl
  | waited _ hctx hr =>
    rw [hctx] at hR
    exact .delivers hr hp.cpu hR
  | reaped _ hctx hr hw => exact (Moves.reaps hr (fun h => absurd h hctx) hR).trans (.wakes hw)
  | @yield t u _ ch ch' _ _ hch hr hw _ =>
    have hctx : (s.procs p).ctx ≠ .waitChild := by
      intro h
      rw [h] at hch
      cases hch
    have hlaw : Lawful p s u := (Lawful.of_reaps hr).trans (.of_wakes hw)
    have hrun : (u.procs p).state = .running := by
      have hself := hr.procs_self (hl p)
      rw [hw.procs_of_ne_sleeping (by simp [hself, hp.running]), hself, hp.running]
    refine ((Moves.reaps hr (fun h => absurd h hctx) hR).trans (.wakes hw)).trans (.sleep ?_ ?_ hrun)
    · exact .update fun _ => rfl
    · rw [hlaw.cpu, hp.cpu]

theorem CallEffect.moves {c : Call} {how : How} (h : CallEffect p k c how t) (hhow : how ≠ .halt)
    (hp : OnCpu p k.core) (hl : Lineal k.core) (hexit : c = .exit → R k.core (.exit p))
    (hfork : c = .fork → R k.core (.fork p))
    (hhalf : ∀ q, c = .fork → (k.core.procs q).state = .available →
      ¬ProcfsRoom k q (k.pidCounter % 2 ^ 32) → R k.core (.half p q))
    (hwait : ∀ q cond, c = .wait cond → (k.core.procs q).parent = some p →
      (k.core.procs q).state = .zombie →
      R k.core (.reap p q .waitChild)) : Moves R k.core t := by
  -- Each effect is a few moves one after the other; what is neither a state nor a
  -- number of a process is no move.
  cases h with
  | quiet _ hw => exact .wakes hw
  | frame _ => exact .alike (.update fun _ => rfl)
  | @yield _ t _ _ _ _ hw _ =>
    refine (Moves.wakes hw).trans (.sleep ?_ ?_ ?_)
    · exact .update fun _ => rfl
    · rw [hw.rest.2.2.1, hp.cpu]
    · rw [hw.procs_of_ne_sleeping (by simp [hp.running]), hp.running]
  | sleep =>
    exact .sleep (.update fun _ => rfl) hp.cpu hp.running
  | waited hr _ => exact .delivers hr hp.cpu fun q => hwait q _ rfl
  | wait hr hpid =>
    refine (Moves.reaps hr (fun _ => hpid) fun q => hwait q _ rfl).trans (.sleep ?_ ?_ ?_)
    · exact .update fun _ => rfl
    · rw [(Lawful.of_reaps hr).cpu, hp.cpu]
    · rw [hr.procs_self (hl p), hp.running]
  | waitCond =>
    exact .sleep (.update fun _ => rfl) hp.cpu hp.running
  | @fork q _ frame _ hq hav hf =>
    refine Moves.forks (k := k) ?_ (hfork rfl) hq hp.running hav hhow (hhalf q rfl hav) hf
    exact .update fun _ => rfl
  | orphan | exiting => exact absurd rfl hhow
  | @exited r u hr hw =>
    have hrp : r ≠ p := fun h => hl p (h ▸ hr)
    have hmove := Move.exit (hexit rfl) hp.cpu hp.running hr hrp (hp.only r hrp)
    refine ((Moves.of_move hmove).trans (.wakes hw)).trans (.alike ?_)
    have h : Alike u (u.update p fun x => { x with ctx := .exited }) :=
      .update fun _ => rfl
    exact ⟨h.state, h.pid, h.parent, h.uid, h.forker, h.pidCounter, h.log⟩
  | detached _ _ => exact .of_move .detach
  | @detachedWake r hr hs =>
    have hrp : r ≠ p := fun h => hl p (h ▸ hr)
    exact (Moves.of_move .detach).trans (.of_move (.wake (by simpa [hrp] using hs)))
  | attached _ => exact .alike (.update fun _ => rfl)

/-- A step that the kernel does not halt in is a sequence of moves, with the deeds
    it begins with. -/
theorem KernelStep.moves {e : Event cfg} (hb : Base m) (hR : ∀ d, Does m e d → R m.k.core d)
    (h : KernelStep m e k') : Moves R m.k.core k'.core := by
  cases h with
  | aside _ ha => exact ha.moves
  | plic _ _ _ hw => exact .wakes hw
  | @resume p how k₁ _ hp hmode _ he _ hcore hplain =>
    cases hx : (m.k.procs p).ctx.isPlain with
    | true =>
      rw [hplain hx]
      exact .refl
    | false =>
      rw [hcore]
      exact (he.moves hp hb.lineal fun q hq hz => hR _ (.resume hmode hx hq hz)).after
  | @call p c how k₁ _ hp _ hc hend he _ hcore =>
    rw [hcore]
    refine Moves.after (CallEffect.moves (k := (trap m).entry p) he ?_ hp hb.lineal ?_ ?_ ?_ ?_)
    · cases hend <;> simp
    · rintro rfl
      exact hR _ (.exit hp.cpu hc)
    · rintro rfl
      exact hR _ (.fork hp.cpu hc)
    · rintro q rfl hav hroom
      exact hR _ (.half hp.cpu hc hav hroom)
    · rintro q cond rfl hq hz
      exact hR _ (.wait hp.cpu hc hq hz)

end

/-- What holds of the core that has booted, and is kept by every move, holds in
    every state reached in which the kernel has not halted. -/
theorem moves_of_reach_running {C : Machine cfg → Event cfg → Prop} {R : Core cfg → Deed cfg → Prop}
    {I : Core cfg → Prop} (hboot : ∀ p frame frame', I ((Core.init cfg).booted p frame frame'))
    (hR : ∀ {m e d}, C m e → Does m e d → R m.k.core d) (hmove : ∀ {s t}, I s → Move R s t → I t)
    (h : Reach (machine cfg) C m) (hm : ∀ why, m.mode ≠ .halted why) : I m.k.core := by
  refine kernel_of_reach_running (I := fun k => I k.core) (fun {mem k} hk => ?_) (fun hb hI hC hs => ?_) h hm
  · have hresult := boot_result cfg mem
    rw [boot, hk] at hresult
    rcases hresult with ⟨p, frame, frame', hc, -, -⟩ | ⟨e, he, -, -⟩
    · exact hc ▸ hboot p frame frame'
    · cases he
  · exact (hs.moves hb fun d => hR hC).invariant hI hmove

end HobbyOs
