import HobbyOs.Moves

/-!
# Parents

A process points to the slot of the process that has forked it, and nothing
updates this pointer when that process exits, is freed, or makes room for
another one. As long as no process exits that has children left, the pointer
leads to the very process that has forked it (`Family`), and an exit finds its
parent (`exit_finds_parent`).
-/

namespace HobbyOs

open Outcome Transition

variable {cfg : Config} {p q r : Slot cfg} {k : Kernel cfg} {s t : Core cfg} {m : Machine cfg} {z : Bool}
  {R : Core cfg → Deed cfg → Prop}

/-- The slot counts as that of a child: with its process, or with what is left of
    it (`z`). -/
def PState.counts (z : Bool) : PState → Prop
  | .available => False
  | .zombie => z = true
  | .ready | .running | .sleeping => True

instance (z : Bool) : DecidablePred (PState.counts z)
  | .available => .isFalse id
  | .zombie => inferInstanceAs (Decidable (_ = _))
  | .ready | .running | .sleeping => .isTrue trivial

instance : DecidablePred PState.isGone := fun _ => inferInstanceAs (Decidable (_ ∨ _))

theorem PState.counts_of_not_gone {x : PState} (h : ¬x.isGone) : x.counts z := by
  cases x with
  | available => exact absurd (.inr rfl) h
  | zombie => exact absurd (.inl rfl) h
  | ready | running | sleeping => trivial

/-- A child knows the process that has forked it, and this process lives: unless
    it is the first process, has detached, or was left unfinished. -/
def Family (z : Bool) (s : Core cfg) : Prop :=
  ∀ q, (s.procs q).state.counts z → (s.procs q).forker = none ∨ (s.procs q).parent = none ∨
    ∃ r, (s.procs q).parent = some r ∧ (s.procs q).forker = some (s.procs r).uid ∧
    ¬(s.procs r).state.isGone

/-- The process was forked, and has no children left. -/
def Childless (z : Bool) (s : Core cfg) (p : Slot cfg) : Prop :=
  (s.procs p).forker ≠ none ∧ ∀ q, (s.procs q).state.counts z → (s.procs q).parent ≠ some p

instance (z : Bool) (s : Core cfg) (p : Slot cfg) : Decidable (Childless z s p) :=
  inferInstanceAs (Decidable (_ ∧ _))

namespace Family

/-- The parent of a process that was forked and has not detached. -/
theorem parent_of (h : Family z s) (hp : ¬(s.procs p).state.isGone) (hforker : (s.procs p).forker ≠ none)
    (hr : (s.procs p).parent = some r) :
    (s.procs p).forker = some (s.procs r).uid ∧ ¬(s.procs r).state.isGone := by
  rcases h p (PState.counts_of_not_gone hp) with hn | hn | ⟨r', hr', hf, hg⟩
  · exact absurd hn hforker
  · rw [hr] at hn
    cases hn
  · rw [hr] at hr'
    cases hr'
    exact ⟨hf, hg⟩

/-- Only states change: no child is added, and no parent of one goes. -/
theorem of_state (h : Family z s) (hparent : ∀ q, (t.procs q).parent = (s.procs q).parent)
    (huid : ∀ q, (t.procs q).uid = (s.procs q).uid) (hforker : ∀ q, (t.procs q).forker = (s.procs q).forker)
    (hcounts : ∀ q, (t.procs q).state.counts z → (s.procs q).state.counts z)
    (hgone : ∀ q r, (t.procs q).state.counts z → (s.procs q).parent = some r →
      (t.procs r).state.isGone →
      (s.procs r).state.isGone) : Family z t := by
  intro q hq
  rw [hparent, hforker]
  rcases h q (hcounts q hq) with hn | hn | ⟨r, hr, hf, hg⟩
  · exact .inl hn
  · exact .inr (.inl hn)
  · exact .inr (.inr ⟨r, hr, by rw [huid, hf], fun hr' => hg (hgone q r hq hr hr')⟩)

theorem alike (h : Family z s) (ha : Alike s t) : Family z t :=
  h.of_state ha.parent ha.uid ha.forker (fun q hq => by rwa [← ha.state q]) fun q r _ _ hr => by
    rwa [← ha.state r]

/-- The state of one process changes: from one that counts, and not to one of a
    process that is gone, unless it was gone or has no children. -/
theorem setState {new : PState} {site : Site cfg} (h : Family z s)
    (hcounts : new.counts z → (s.procs q).state.counts z)
    (hgone : new.isGone → (s.procs q).state.isGone ∨
      ∀ x, ((s.setState q new site).procs x).state.counts z → (s.procs x).parent ≠ some q) :
    Family z (s.setState q new site) := by
  have hproj : ∀ {β : Type} (g : PCore cfg → β), (∀ x : PCore cfg, g { x with state := new } = g x) →
      ∀ r,
      g ((s.setState q new site).procs r) = g (s.procs r) := by
    intro β g hg r
    by_cases hr : r = q
    · subst hr
      simp [hg]
    · simp [hr]
  refine h.of_state (hproj _ fun _ => rfl) (hproj _ fun _ => rfl) (hproj _ fun _ => rfl) (fun r hr => ?_)
    fun x r hx hpar hr => ?_
  · by_cases hrq : r = q
    · subst hrq
      exact hcounts (by simpa using hr)
    · simpa [hrq] using hr
  · by_cases hrq : r = q
    · subst hrq
      exact (hgone (by simpa using hr)).resolve_right fun hno => hno x hx hpar
    · simpa [hrq] using hr

/-- A process that is gone is replaced by another one. -/
theorem replace (h : Family z s) (hq : (s.procs q).state.isGone)
    (hsame : ∀ x ≠ q, (t.procs x).kin = (s.procs x).kin)
    (hnew : (t.procs q).state.counts z → (t.procs q).forker = none ∨
      ∃ r, r ≠ q ∧ (t.procs q).parent = some r ∧ (t.procs q).forker = some (s.procs r).uid ∧
        ¬(s.procs r).state.isGone) : Family z t := by
  simp only [PCore.kin, Prod.mk.injEq] at hsame
  intro x hx
  by_cases hxq : x = q
  · subst hxq
    rcases hnew hx with hn | ⟨r, hr, hpar, hf, hg⟩
    · exact .inl hn
    · obtain ⟨hst, -, -, huid, -⟩ := hsame r hr
      exact .inr (.inr ⟨r, hpar, by rw [huid, hf], by rwa [hst]⟩)
  · obtain ⟨hst, -, hpar, -, hfork⟩ := hsame x hxq
    rw [hst] at hx
    rw [hpar, hfork]
    rcases h x hx with hn | hn | ⟨r, hr, hf, hg⟩
    · exact .inl hn
    · exact .inr (.inl hn)
    · have hrq : r ≠ q := fun hrq => hg (hrq ▸ hq)
      obtain ⟨hst', -, -, huid', -⟩ := hsame r hrq
      exact .inr (.inr ⟨r, hr, by rw [huid', hf], by rwa [hst']⟩)

theorem number (h : Family z s) (hq : (s.procs q).state = .available) : Family z (s.newPid q) := by
  refine h.replace (.inr hq) (fun x hx => ?_) fun _ => .inl ?_
  · simp [Core.newPid, hx]
  · simp [Core.newPid]

theorem half {frame : TrapFrame} (h : Family z s) (hq : (s.procs q).state = .available) :
    Family z ((s.newPid q).fresh q frame) := by
  refine h.replace (.inr hq) (fun x hx => ?_) fun _ => .inl ?_
  · simp [Core.newPid, Core.fresh, hx]
  · simp [Core.newPid, Core.fresh]

theorem created {frame frame' : TrapFrame} {uid : ℕ} (h : Family z s) (hqp : q ≠ p)
    (hp : (s.procs p).state = .running) (hq : (s.procs q).state = .available) :
    Family z (((((s.newPid q).fresh q frame).counted.adopted p q).update q fun x =>
      { x with trap := frame' }).record (.created uid)) := by
  refine h.replace (.inr hq) (fun x hx => ?_) fun _ => .inr ⟨p, hqp.symm, ?_, ?_, ?_⟩
  · simp [Core.newPid, Core.fresh, Core.counted, Core.adopted, hx]
  · simp [Core.adopted]
  · simp [Core.newPid, Core.fresh, Core.counted, Core.adopted, hqp.symm]
  · simp [hp, PState.isGone]

/-- A process exits that has no children left, and its parent is made ready. -/
theorem exit {site : Site cfg} (h : Family z s) (hc : Childless z s p) (hp : (s.procs p).state = .running)
    (hr : (s.procs p).parent = some r) (hrp : r ≠ p) :
    Family z ((s.setState p .zombie .exit).setState r .ready site) := by
  have hlive : ¬(s.procs r).state.isGone := (h.parent_of (by simp [hp, PState.isGone]) hc.1 hr).2
  have hzombie : Family z (s.setState p .zombie .exit) := by
    refine h.setState (fun _ => by rw [hp]; trivial) fun _ => .inr fun x hx hpar => ?_
    by_cases hxp : x = p
    · subst hxp
      rw [hr] at hpar
      cases hpar
      exact hrp rfl
    · exact hc.2 x (by simpa [hxp] using hx) hpar
  refine hzombie.setState (fun _ => ?_) fun hgone => ?_
  · rw [Core.setState_procs_of_ne _ _ _ hrp]
    exact PState.counts_of_not_gone hlive
  · rcases hgone with hgone | hgone <;> cases hgone

theorem detach (h : Family z s) : Family z (s.update p fun x => { x with parent := none }) := by
  intro q hq
  by_cases hqp : q = p
  · subst hqp
    exact .inr (.inl (by simp))
  · simp only [Core.update_procs_of_ne _ _ hqp] at hq ⊢
    rcases h q hq with hn | hn | ⟨r, hr, hf, hg⟩
    · exact .inl hn
    · exact .inr (.inl hn)
    · refine .inr (.inr ⟨r, hr, ?_, ?_⟩)
      all_goals
        by_cases hrp : r = p
        · subst hrp
          simpa using ‹_›
        · simpa [hrp] using ‹_›

theorem move (hR : ∀ {s p}, R s (.exit p) → Childless z s p) (h : Family z s) (hm : Move R s t) :
    Family z t := by
  cases hm with
  | alike ha => exact h.alike ha
  | wake hq | run hq => exact h.setState (fun _ => by rw [hq]; trivial) (by simp [PState.isGone])
  | leave _ hp hnew =>
    refine h.setState (fun _ => by rw [hp]; trivial) fun hgone => ?_
    rcases hnew with rfl | rfl <;> simp [PState.isGone] at hgone
  | exit hd _ hp hr hrp _ => exact h.exit (hR hd) hp hr hrp
  | reap _ _ hz _ => exact h.setState (fun hc => hc.elim) fun _ => .inl (.inl hz)
  | @deliver p q _ _ _ hz =>
    have hfreed : Family z (s.setState q .available (.reap .waitChild)) :=
      h.setState (fun hc => hc.elim) fun _ => .inl (.inl hz)
    exact hfreed
  | waited => exact h
  | @number p q t ha _ hq => exact (h.alike ha).number (by rw [ha.state, hq])
  | @half p q t _ ha _ _ hq => exact (h.alike ha).half (by rw [ha.state, hq])
  | created ha _ hqp hp hq => exact (h.alike ha).created hqp (by rw [ha.state, hp]) (by rw [ha.state, hq])
  | detach => exact h.detach

theorem booted (p : Slot cfg) (frame frame' : TrapFrame) :
    Family z ((Core.init cfg).booted p frame frame') := by
  intro q _
  by_cases hq : q = p
  · subst hq
    simp [Core.booted, Core.newPid, Core.fresh, Core.counted]
  · simp [Core.booted, Core.newPid, Core.fresh, Core.counted, Core.init, zeroProc, hq]

end Family

/-! ## Exits -/

/-- The call is `proc_exit`. -/
def Call.isExit : Call → Bool
  | .exit => true
  | _ => false

theorem Call.eq_exit {c : Option Call} (h : c.map Call.isExit = some true) : c = some .exit := by
  cases c with
  | none => cases h
  | some c =>
    cases c with
    | exit => rfl
    | _ => cases h

/-- An exit of `p` finds the process that has forked it, alive; or it leaves all
    other processes alone. -/
def ExitFindsParent (p : Slot cfg) (k : Kernel cfg) : Prop :=
  (∃ r, (k.procs p).parent = some r ∧ ¬(k.procs r).state.isGone ∧
    (k.procs p).forker = some (k.procs r).uid) ∨
    ∃ k', procExit p k = .error .switch k' ∧ ∀ q ≠ p, k'.procs q = k.procs q

/-- A process exits only if it was forked and has not detached, and none of its
    children is left. -/
def Outlived (p : Slot cfg) (k : Kernel cfg) : Call → Prop
  | .exit => (k.procs p).parent ≠ none ∧ Childless false k.core p
  | _ => True

instance (p : Slot cfg) (k : Kernel cfg) : DecidablePred (Outlived p k)
  | .exit => inferInstanceAs (Decidable (_ ∧ _))
  | .fork | .read .. | .write .. | .open _ | .close _ | .wait _ | .execv .. | .getpid | .dup _ | .pipe _
  | .sysinfo _ | .sleep _ | .plist .. | .pinfo .. | .pgalloc | .pgfree _ | .gpio .. | .detach | .isopen _
  | .pipeattch .. | .lsdir .. => .isTrue trivial

/-- The rule that no process exits with a child left. -/
def outlivedRule (s : Core cfg) : Deed cfg → Prop
  | .exit p => Childless false s p
  | _ => True

theorem family_of_reach {C : Machine cfg → Event cfg → Prop} (hC : ∀ {m e}, C m e → OnCall Outlived m e)
    (h : Reach (machine cfg) C m) (hm : ∀ why, m.mode ≠ .halted why) : Family false m.k.core := by
  refine moves_of_reach_running (R := outlivedRule) Family.booted (fun {m e d} he hd => ?_)
    (fun hs hm => hs.move (fun h => h) hm) h hm
  cases hd with
  | exit hp hc => exact (hC he _ hp _ hc).2
  | fork | half | wait | resume => trivial

/-- In a run in which no process exits before its children, every exit finds its
    parent. -/
theorem exit_finds_parent (h : Reach (machine cfg) (OnCall Outlived) m) (hmode : m.mode = .user)
    (hC : OnCall Outlived m .ecall) (hp : m.k.cpuProc = some p) (hc : callOf (trap m) p = some .exit) :
    ExitFindsParent p ((trap m).entry p) := by
  have hfamily : Family false m.k.core := family_of_reach (fun h => h) h (by simp [hmode])
  have hat := (base_of_reach h).at_
  rw [hmode] at hat
  obtain ⟨p', hp', -⟩ := hat
  obtain rfl : p' = p := Option.some.inj (hp'.cpu.symm.trans hp)
  obtain ⟨hpar, hchild⟩ := hC p' hp .exit hc
  obtain ⟨r, hr⟩ := Option.ne_none_iff_exists'.1 hpar
  obtain ⟨hforker, hlive⟩ := hfamily.parent_of (by simp [hp'.running, PState.isGone]) hchild.1 hr
  exact .inl ⟨r, hr, hlive, hforker⟩

/-- The first process forks and sleeps; its child forks a second one. -/
def twoGenerations : List (Event .qemuE) :=
  [Event.kernel, .kernel] ++ calls 2 0 0 0 [] ++ calls 31 1000 0 0 [] ++ [Event.kernel, .kernel] ++
    calls 2 0 0 0 []

/-- The child exits before its own child, which makes it ready again. -/
theorem orphan_wakes_zombie :
    ¬∀ (m : Machine .qemuE) p, Reach (machine .qemuE) free m → m.mode = .user → m.k.cpuProc = some p →
      callOf (trap m) p = some .exit → ExitFindsParent p ((trap m).entry p) := by
  have h : ∃ m ∈ runFrom .qemuE (twoGenerations ++ calls 1 0 0 0 [] ++ [Event.kernel, .kernel] ++
        [.exec (callRegs 0x80003ff0 1 0 0 0) []]),
      m.mode = .user ∧ m.k.cpuProc = some ⟨2, by decide⟩ ∧
        (callOf (trap m) ⟨2, by decide⟩).map Call.isExit = some true ∧
        (((trap m).entry ⟨2, by decide⟩).procs ⟨2, by decide⟩).parent = some ⟨1, by decide⟩ ∧
        (((trap m).entry ⟨2, by decide⟩).procs ⟨1, by decide⟩).state = .zombie ∧
        ((final (procExit ⟨2, by decide⟩ ((trap m).entry ⟨2, by decide⟩))).procs
          ⟨1, by decide⟩).state = .ready := by
    decide +kernel
  obtain ⟨m, hm, hmode, hp, hc, hpar, hz, hready⟩ := h
  intro hall
  rcases hall m _ (reach_of_runFrom hm) hmode hp
    (Call.eq_exit hc) with ⟨r, hr, hlive, -⟩ | ⟨k', hk', hsame⟩
  · rw [hpar] at hr
    cases hr
    exact hlive (.inl hz)
  · rw [hk'] at hready
    have hzombie := congrArg (fun x => x.state) (hsame ⟨1, by decide⟩ (by decide))
    exact absurd (hready.symm.trans (hzombie.trans hz)) (by decide)

/-- The second child exits, and then the first. -/
theorem twoGenerations_find_parent : ∃ (m : Machine .qemuE) (p : Slot .qemuE),
    Reach (machine .qemuE) (OnCall Outlived) m ∧ callOf (trap m) p = some .exit ∧
      ExitFindsParent p ((trap m).entry p) := by
  have h : ∃ m ∈ run (OnCall Outlived) (machine .qemuE) (twoGenerations ++ calls 31 1000 0 0 [] ++
        [Event.kernel, .kernel] ++ [Event.exec (callRegs 0x80003ff0 1 0 0 0) []]) (boot .qemuE fun _ => 0),
      m.mode = .user ∧ m.k.cpuProc = some ⟨2, by decide⟩ ∧ OnCall Outlived m .ecall ∧
        (callOf (trap m) ⟨2, by decide⟩).map Call.isExit = some true := by
    decide +kernel
  obtain ⟨m, hm, hmode, hp, hC, hc⟩ := h
  have hr : Reach (machine .qemuE) (OnCall Outlived) m := Reach.of_run _ ⟨_, rfl⟩ hm
  exact ⟨m, _, hr, Call.eq_exit hc, exit_finds_parent hr hmode hC hp (Call.eq_exit hc)⟩

end HobbyOs
