import HobbyOs.Base

/-!
# Lives

A process lives from when `init_proc` has made it ready until it calls
`proc_exit` (`Alive`). The `state` of its slot does not tell: an exit makes the
parent of a process ready, whether it has exited itself or not. The log does,
with the `uid` that tells the processes of a slot apart.

Only `fork` and `exit` change which processes live: no other step begins or ends
a life (`SameLives`).
-/

namespace HobbyOs

open Outcome Transition

variable {cfg : Config} {p q : Slot cfg} {k : Kernel cfg} {s t u : Core cfg} {m m' : Machine cfg}

/-- `init_proc` makes the process `uid` in the slot `q` ready. -/
def Ev.isInit (q : Slot cfg) (uid : ℕ) : Ev cfg → Bool
  | .change ⟨r, old, _, .initProc, _, _⟩ => r = q ∧ old.uid = uid
  | _ => false

/-- The process `uid` in the slot `q` calls `proc_exit`. -/
def Ev.isExit (q : Slot cfg) (uid : ℕ) : Ev cfg → Bool
  | .change ⟨r, old, _, .exit, _, _⟩ => r = q ∧ old.uid = uid
  | _ => false

/-- The process in the slot has been made ready, and has not exited. -/
def Alive (s : Core cfg) (q : Slot cfg) : Prop :=
  s.log.any (Ev.isInit q (s.procs q).uid) = true ∧ s.log.any (Ev.isExit q (s.procs q).uid) = false

instance (s : Core cfg) (q : Slot cfg) : Decidable (Alive s q) := inferInstanceAs (Decidable (_ ∧ _))

/-- The lives that the log tells of are of processes that have got their uid. -/
def Numbered (s : Core cfg) : Prop :=
  ∀ q uid, s.log.any (Ev.isInit q uid) = true ∨ s.log.any (Ev.isExit q uid) = true → uid < s.pidCounter

/-- No life begins or ends. -/
structure SameLives (s t : Core cfg) : Prop where
  pidCounter : t.pidCounter = s.pidCounter
  uid : ∀ q, (t.procs q).uid = (s.procs q).uid
  inits : ∀ q uid, t.log.any (Ev.isInit q uid) = s.log.any (Ev.isInit q uid)
  exits : ∀ q uid, t.log.any (Ev.isExit q uid) = s.log.any (Ev.isExit q uid)

namespace SameLives

theorem refl : SameLives s s := ⟨rfl, fun _ => rfl, fun _ _ => rfl, fun _ _ => rfl⟩

theorem trans (h : SameLives s t) (h' : SameLives t u) : SameLives s u :=
  ⟨h'.pidCounter.trans h.pidCounter, fun q => (h'.uid q).trans (h.uid q),
    fun q uid => (h'.inits q uid).trans (h.inits q uid), fun q uid => (h'.exits q uid).trans (h.exits q uid)⟩

theorem alive (h : SameLives s t) : Alive t q ↔ Alive s q := by
  rw [Alive, Alive, h.uid, h.inits, h.exits]

theorem numbered (h : SameLives s t) (hs : Numbered s) : Numbered t := by
  intro q uid
  rw [h.inits, h.exits, h.pidCounter]
  exact hs q uid

theorem update {f : PCore cfg → PCore cfg} (hf : ∀ x, (f x).uid = x.uid) : SameLives s (s.update q f) := by
  refine ⟨rfl, fun r => ?_, fun _ _ => rfl, fun _ _ => rfl⟩
  by_cases hr : r = q
  · subst hr
    simp [hf]
  · simp [hr]

/-- A site that is neither the beginning nor the end of a life. -/
theorem setState {new : PState} {site : Site cfg} (hi : site ≠ .initProc) (he : site ≠ .exit) :
    SameLives s (s.setState q new site) := by
  refine ⟨rfl, fun r => ?_, fun r uid => ?_, fun r uid => ?_⟩
  · by_cases hr : r = q
    · subst hr
      simp
    · simp [hr]
  · cases site with
    | initProc => exact absurd rfl hi
    | _ => simp [Ev.isInit]
  · cases site with
    | exit => exact absurd rfl he
    | _ => simp [Ev.isExit]

theorem waited {uid : ℕ} {ret : ℤ} : SameLives s (s.record (.waited uid ret)) :=
  ⟨rfl, fun _ => rfl, fun _ _ => by simp [Ev.isInit], fun _ _ => by simp [Ev.isExit]⟩

theorem created {uid : ℕ} : SameLives s (s.record (.created uid)) :=
  ⟨rfl, fun _ => rfl, fun _ _ => by simp [Ev.isInit], fun _ _ => by simp [Ev.isExit]⟩

theorem wakes (h : Wakes s t) : SameLives s t := by
  refine h.induct (I := SameLives s) refl fun hu _ _ hsite => hu.trans ?_
  refine (setState ?_ ?_).trans (update fun _ => rfl)
  · rcases hsite with ⟨rfl, -⟩ | ⟨o, -, rfl, -⟩ <;> simp
  · rcases hsite with ⟨rfl, -⟩ | ⟨o, -, rfl, -⟩ <;> simp

theorem sleep {f : PCore cfg → PCore cfg} {frame : TrapFrame} {call : Kont cfg}
    (hf : ∀ x, (f x).uid = x.uid) : SameLives s (s.sleep q f frame call) :=
  ((update hf).trans (setState (by simp) (by simp))).trans (update fun _ => rfl)

theorem reaps {call : Kont cfg} {pid : ℤ} (h : Reaps p call s t pid) : SameLives s t := by
  cases h with
  | none _ => exact refl
  | one _ _ => exact setState (by simp) (by simp)

/-- No call but `fork` and `exit` begins or ends a life. -/
theorem call {c : Call} {how : How} (h : CallEffect p k c how t) (hf : c ≠ .fork) (he : c ≠ .exit) :
    SameLives k.core t := by
  cases h with
  | quiet _ hw => exact wakes hw
  | frame _ => exact update fun _ => rfl
  | yield _ hw _ => exact (wakes hw).trans (sleep fun _ => rfl)
  | sleep => exact sleep fun _ => rfl
  | waited hr _ => exact (reaps hr).trans waited
  | wait hr _ => exact (reaps hr).trans (sleep fun _ => rfl)
  | waitCond => exact sleep fun _ => rfl
  | fork => exact absurd rfl hf
  | orphan | exiting | exited => exact absurd rfl he
  | detached _ _ => exact update fun _ => rfl
  | detachedWake _ _ =>
    refine trans ?_ (setState (by simp) (by simp))
    exact update fun _ => rfl
  | attached _ => exact update fun _ => rfl

theorem resume {how : How} (h : ResumeEffect p s how t) : SameLives s t := by
  cases h with
  | same _ => exact refl
  | waited _ _ hr => exact (reaps hr).trans waited
  | reaped _ _ hr hw => exact (reaps hr).trans (wakes hw)
  | yield _ hr hw _ => exact ((reaps hr).trans (wakes hw)).trans (sleep fun _ => rfl)

theorem after {how : How} (h : SameLives s t) : SameLives s (t.after how) := by
  cases how with
  | away => exact ⟨h.pidCounter, h.uid, h.inits, h.exits⟩
  | back | halt => exact h

theorem run (hw : Wakes ((s.awaken p).run p) t) : SameLives s t := by
  have hawaken : SameLives s (s.awaken p) := by
    rw [Core.awaken]
    split
    · exact setState (by simp) (by simp)
    · exact refl
  have hrun : SameLives (s.awaken p) ((s.awaken p).run p) := by
    have hset : SameLives (s.awaken p) ((s.awaken p).setState p .running .scheduler) :=
      setState (by simp) (by simp)
    have h := hset.trans (update (q := p) (f := fun x => { x with nscheds := (x.nscheds + 1) % 2 ^ 64 })
      fun _ => rfl)
    exact ⟨h.pidCounter, h.uid, h.inits, h.exits⟩
  exact (hawaken.trans hrun).trans (wakes hw)

end SameLives

/-! ## Birth and death -/

/-- The slot `q` has got a new uid; `born` says whether the process lives. -/
structure Birth (q : Slot cfg) (born : Bool) (s t : Core cfg) : Prop where
  pidCounter : t.pidCounter = s.pidCounter + 1
  uid_self : (t.procs q).uid = s.pidCounter
  uid : ∀ r ≠ q, (t.procs r).uid = (s.procs r).uid
  inits : ∀ r uid, t.log.any (Ev.isInit r uid) =
    (decide (born = true ∧ q = r ∧ s.pidCounter = uid) || s.log.any (Ev.isInit r uid))
  exits : ∀ r uid, t.log.any (Ev.isExit r uid) = s.log.any (Ev.isExit r uid)

/-- The process in the slot `p` has exited. -/
structure Death (p : Slot cfg) (s t : Core cfg) : Prop where
  pidCounter : t.pidCounter = s.pidCounter
  uid : ∀ r, (t.procs r).uid = (s.procs r).uid
  inits : ∀ r uid, t.log.any (Ev.isInit r uid) = s.log.any (Ev.isInit r uid)
  exits : ∀ r uid, t.log.any (Ev.isExit r uid) =
    (decide (p = r ∧ (s.procs p).uid = uid) || s.log.any (Ev.isExit r uid))

theorem Numbered.alive_lt (h : Numbered s) (hq : Alive s q) : (s.procs q).uid < s.pidCounter :=
  h q _ (.inl hq.1)

namespace Birth

variable {born : Bool}

theorem trans (h : Birth q born s t) (h' : SameLives t u) : Birth q born s u :=
  ⟨h'.pidCounter.trans h.pidCounter, (h'.uid q).trans h.uid_self, fun r hr => (h'.uid r).trans (h.uid r hr),
    fun r uid => (h'.inits r uid).trans (h.inits r uid), fun r uid => (h'.exits r uid).trans (h.exits r uid)⟩

theorem of_same (h : SameLives s t) (h' : Birth q born t u) : Birth q born s u where
  pidCounter := by rw [h'.pidCounter, h.pidCounter]
  uid_self := by rw [h'.uid_self, h.pidCounter]
  uid r hr := (h'.uid r hr).trans (h.uid r)
  inits r uid := by rw [h'.inits, h.inits, h.pidCounter]
  exits r uid := (h'.exits r uid).trans (h.exits r uid)

/-- The process in the slot lives if it was born. -/
theorem alive_self (h : Birth q born s t) (hs : Numbered s) : Alive t q ↔ born = true := by
  have hold : ∀ e, s.log.any (Ev.isInit q s.pidCounter) = true ∨
      s.log.any (Ev.isExit q s.pidCounter) = true →
      e := fun e he => absurd (hs q _ he) (Nat.lt_irrefl _)
  have hi : s.log.any (Ev.isInit q s.pidCounter) = false := by
    by_contra hi
    exact hold False (.inl (by simpa using hi))
  have hx : s.log.any (Ev.isExit q s.pidCounter) = false := by
    by_contra hx
    exact hold False (.inr (by simpa using hx))
  rw [Alive, h.uid_self, h.inits, h.exits, hi, hx]
  simp

theorem alive_of_ne (h : Birth q born s t) {r : Slot cfg} (hr : r ≠ q) : Alive t r ↔ Alive s r := by
  rw [Alive, Alive, h.uid r hr, h.inits, h.exits]
  simp [hr.symm]

theorem numbered (h : Birth q born s t) (hs : Numbered s) : Numbered t := by
  intro r uid
  rw [h.inits, h.exits, h.pidCounter]
  rintro (hi | hx)
  · rcases Bool.or_eq_true_iff.1 hi with hi | hi
    · have := of_decide_eq_true hi
      omega
    · have := hs r uid (.inl hi)
      omega
  · have := hs r uid (.inr hx)
    omega

theorem newPid : Birth q false s (s.newPid q) where
  pidCounter := rfl
  uid_self := by simp [Core.newPid]
  uid r hr := by simp [Core.newPid, hr]
  inits r uid := by simp [Core.newPid]
  exits r uid := rfl

theorem fresh {frame : TrapFrame} : Birth q true s ((s.newPid q).fresh q frame) where
  pidCounter := rfl
  uid_self := by simp [Core.newPid, Core.fresh]
  uid r hr := by simp [Core.newPid, Core.fresh, hr]
  inits r uid := by simp [Core.newPid, Core.fresh, Ev.isInit]
  exits r uid := by simp [Core.newPid, Core.fresh, Ev.isExit]

/-- A process that is counted, and has its parent. -/
theorem adopted {frame : TrapFrame} : Birth q true s (((s.newPid q).fresh q frame).counted.adopted p q) :=
  (Birth.mk rfl fresh.uid_self fresh.uid fresh.inits fresh.exits :
    Birth q true s ((s.newPid q).fresh q frame).counted).trans (.update fun _ => rfl)

theorem created {frame frame' : TrapFrame} {uid : ℕ} : Birth q true s
    (((((s.newPid q).fresh q frame).counted.adopted p q).update q fun x =>
      { x with trap := frame' }).record (.created uid)) := by
  refine trans ?_ .created
  exact adopted.trans (.update fun _ => rfl)

end Birth

namespace Death

theorem trans (h : Death p s t) (h' : SameLives t u) : Death p s u :=
  ⟨h'.pidCounter.trans h.pidCounter, fun r => (h'.uid r).trans (h.uid r),
    fun r uid => (h'.inits r uid).trans (h.inits r uid), fun r uid => (h'.exits r uid).trans (h.exits r uid)⟩

theorem not_alive_self (h : Death p s t) : ¬Alive t p := by
  rw [Alive, h.uid, h.exits]
  simp

theorem alive_of_ne (h : Death p s t) {r : Slot cfg} (hr : r ≠ p) : Alive t r ↔ Alive s r := by
  rw [Alive, Alive, h.uid r, h.inits, h.exits]
  simp [hr.symm]

theorem numbered (h : Death p s t) (hs : Numbered s) (hp : Alive s p) : Numbered t := by
  intro r uid
  rw [h.inits, h.exits, h.pidCounter]
  rintro (hi | hx)
  · exact hs r uid (.inl hi)
  · rcases Bool.or_eq_true_iff.1 hx with hx | hx
    · obtain ⟨-, rfl⟩ := of_decide_eq_true hx
      exact hs.alive_lt hp
    · exact hs r uid (.inr hx)

theorem exit : Death p s (s.setState p .zombie .exit) where
  pidCounter := rfl
  uid r := by
    by_cases hr : r = p
    · subst hr
      simp
    · simp [hr]
  inits r uid := by simp [Ev.isInit]
  exits r uid := by simp [Ev.isExit]

/-- The parent is made ready, and the files are closed. -/
theorem exiting {r : Slot cfg} {child : ℕ} {forker : Option ℕ}
    (hw : Wakes ((s.setState p .zombie .exit).setState r .ready (.exitParent child forker)) t) :
    Death p s t := by
  refine trans (trans exit ?_) (.wakes hw)
  exact .setState (by simp) (by simp)

theorem exited (h : Death p s t) {n : ℤ} :
    Death p s { t.update p fun x => { x with ctx := .exited } with numProcs := n } := by
  have hctx : Death p s (t.update p fun x => { x with ctx := .exited }) := h.trans (.update fun _ => rfl)
  exact ⟨hctx.pidCounter, hctx.uid, hctx.inits, hctx.exits⟩

/-- An `exit` that goes away ends the life of its process. -/
theorem call (h : CallEffect p k .exit .away t) : Death p k.core t := by
  cases h with
  | quiet h _ | frame h => exact absurd rfl h
  | yield ht _ _ => cases ht
  | exited _ hw => exact (exiting hw).exited

end Death

/-! ## The states of the slots -/

/-- `check_exited_children` frees a process. -/
def Ev.isReap : Ev cfg → Bool
  | .change ⟨_, _, _, .reap _, _, _⟩ => true
  | _ => false

/-- No process has been freed so far. -/
def NoReap (s : Core cfg) : Prop := s.log.any Ev.isReap = false

instance (s : Core cfg) : Decidable (NoReap s) := inferInstanceAs (Decidable (_ = _))

theorem noReap_setState {new : PState} {site : Site cfg} (hs : ∀ call, site ≠ .reap call) :
    NoReap (s.setState q new site) ↔ NoReap s := by
  have hreap : Ev.isReap
      (.change ⟨q, s.procs q, new, site, s.cpuProc.map fun c => (s.procs c).uid, s.now⟩) = false := by
    cases site with
    | reap call => exact absurd rfl (hs call)
    | _ => rfl
  rw [NoReap, NoReap, Core.setState_log, List.any_cons, hreap, Bool.false_or]

/-- There is no process in the slot, or it has exited: as far as its state tells. -/
def PState.isGone (x : PState) : Prop := x = .zombie ∨ x = .available

/-- No process is gone that was not, but for the one in `x`; and as long as no
    zombie is freed, no slot becomes available. -/
structure Ages (x : Option (Slot cfg)) (s t : Core cfg) : Prop where
  gone : ∀ q, some q ≠ x → (t.procs q).state.isGone → (s.procs q).state.isGone
  available : NoReap t → ∀ q, (t.procs q).state = .available → (s.procs q).state = .available
  noReap : NoReap t → NoReap s

namespace Ages

variable {x : Option (Slot cfg)}

theorem refl : Ages x s s := ⟨fun _ _ h => h, fun _ _ h => h, id⟩

theorem trans (h : Ages x s t) (h' : Ages none t u) : Ages x s u where
  gone q hq hu := h.gone q hq (h'.gone q (by simp) hu)
  available hu q hq := h.available (h'.noReap hu) q (h'.available hu q hq)
  noReap hu := h.noReap (h'.noReap hu)

theorem update {f : PCore cfg → PCore cfg} (hf : ∀ x, (f x).state = x.state) : Ages x s (s.update q f) := by
  have hstate : ∀ r, ((s.update q f).procs r).state = (s.procs r).state := by
    intro r
    by_cases hr : r = q
    · subst hr
      simp [hf]
    · simp [hr]
  exact ⟨fun r _ h => hstate r ▸ h, fun _ r h => hstate r ▸ h, id⟩

theorem setState {new : PState} {site : Site cfg} (hg : ¬new.isGone ∨ new = .zombie ∧ x = some q)
    (hs : ∀ call, site ≠ .reap call) : Ages x s (s.setState q new site) := by
  refine ⟨fun r hr hgone => ?_, fun _ r h => ?_, (noReap_setState hs).1⟩
  · by_cases hrq : r = q
    · subst hrq
      rcases hg with hg | ⟨-, rfl⟩
      · exact absurd (by simpa using hgone) hg
      · exact absurd rfl hr
    · simpa [hrq] using hgone
  · by_cases hrq : r = q
    · subst hrq
      rcases hg with hg | ⟨rfl, -⟩
      · exact absurd (.inr (by simpa using h)) hg
      · simp at h
    · simpa [hrq] using h

theorem record {e : Ev cfg} (he : e.isReap = false) : Ages x s (s.record e) :=
  ⟨fun _ _ h => h, fun _ _ h => h, by simp [NoReap, he]⟩

theorem wakes (h : Wakes s t) : Ages x s t := by
  refine h.induct (I := Ages x s) refl fun hu _ _ hsite => hu.trans ?_
  refine (setState (.inl (by simp [PState.isGone])) ?_).trans (update fun _ => rfl)
  rcases hsite with ⟨rfl, -⟩ | ⟨o, -, rfl, -⟩ <;> simp

theorem sleep {f : PCore cfg → PCore cfg} {frame : TrapFrame} {call : Kont cfg}
    (hf : ∀ x, (f x).state = x.state) : Ages x s (s.sleep q f frame call) := by
  refine ((update hf).trans (setState (.inl ?_) ?_)).trans (update fun _ => rfl)
  · simp [PState.isGone]
  · simp

theorem reaps {call : Kont cfg} {pid : ℤ} (h : Reaps p call s t pid) : Ages x s t := by
  cases h with
  | none _ => exact refl
  | @one q _ hz =>
    have hreap : ¬NoReap (s.setState q .available (.reap call)) := by simp [NoReap, Ev.isReap]
    refine ⟨fun r _ hr => ?_, fun h => absurd h hreap, fun h => absurd h hreap⟩
    by_cases hrq : r = q
    · subst hrq
      exact .inl hz
    · simpa [hrq] using hr

theorem newPid : Ages x s (s.newPid q) := by
  have h := update (x := x) (s := s) (q := q)
    (f := fun x => { x with pid := s.pidCounter % 2 ^ 32, uid := s.pidCounter, forker := none }) fun _ => rfl
  exact ⟨h.gone, h.available, h.noReap⟩

theorem fresh {frame : TrapFrame} : Ages x s (s.fresh q frame) := by
  refine trans ?_ (setState (.inl (by simp [PState.isGone])) (by simp))
  exact update fun _ => rfl

theorem forks {how : How} (h : Forks k p q s how t) : Ages x s t := by
  have hcounted : ∀ {frame}, Ages x s (((s.newPid q).fresh q frame).counted.adopted p q) := by
    intro frame
    have h : Ages x s ((s.newPid q).fresh q frame) := newPid.trans fresh
    have h' : Ages x s ((s.newPid q).fresh q frame).counted := ⟨h.gone, h.available, h.noReap⟩
    exact h'.trans (update fun _ => rfl)
  cases h with
  | pid _ => exact newPid
  | full _ => exact newPid.trans fresh
  | fresh => exact newPid.trans fresh
  | adopted => exact hcounted
  | created =>
    refine trans ?_ (record rfl)
    exact hcounted.trans (update fun _ => rfl)

theorem exit (h : Ages none (s.setState p .zombie .exit) t) : Ages (some p) s t :=
  trans (setState (.inr ⟨rfl, rfl⟩) (by simp)) h

/-- No call but `exit` makes a process go. -/
theorem call {c : Call} {how : How} (h : CallEffect p k c how t) (hx : c = .exit → x = some p) :
    Ages x k.core t := by
  have hparent : ∀ {r : Slot cfg}, Ages none (k.core.setState p .zombie .exit)
      ((k.core.setState p .zombie .exit).setState r .ready
        (.exitParent (k.core.procs p).uid (k.core.procs p).forker)) :=
    setState (.inl (by simp [PState.isGone])) (by simp)
  cases h with
  | quiet _ hw => exact wakes hw
  | frame _ => exact update fun _ => rfl
  | yield _ hw _ => exact (wakes hw).trans (sleep fun _ => rfl)
  | sleep => exact sleep fun _ => rfl
  | waited hr _ => exact (reaps hr).trans (record rfl)
  | wait hr _ => exact (reaps hr).trans (sleep fun _ => rfl)
  | waitCond => exact sleep fun _ => rfl
  | fork _ _ hf =>
    refine trans ?_ (forks hf)
    exact update fun _ => rfl
  | orphan _ => exact hx rfl ▸ exit refl
  | exiting _ hw => exact hx rfl ▸ exit (hparent.trans (wakes hw))
  | exited _ hw =>
    rw [hx rfl]
    have h := (exit (hparent.trans (wakes hw))).trans
      (update (q := p) (f := fun x => { x with ctx := .exited }) fun _ => rfl)
    exact ⟨h.gone, h.available, h.noReap⟩
  | detached _ _ => exact update fun _ => rfl
  | detachedWake _ _ =>
    refine trans ?_ (setState (.inl (by simp [PState.isGone])) (by simp))
    exact update fun _ => rfl
  | attached _ => exact update fun _ => rfl

theorem resume {how : How} (h : ResumeEffect p s how t) : Ages none s t := by
  cases h with
  | same _ => exact refl
  | waited _ _ hr => exact (reaps hr).trans (record rfl)
  | reaped _ _ hr hw => exact (reaps hr).trans (wakes hw)
  | yield _ hr hw _ => exact ((reaps hr).trans (wakes hw)).trans (sleep fun _ => rfl)

theorem after {how : How} (h : Ages x s t) : Ages x s (t.after how) := by
  cases how with
  | away => exact ⟨h.gone, h.available, h.noReap⟩
  | back | halt => exact h

theorem run (hw : Wakes ((s.awaken p).run p) t) : Ages none s t := by
  have hawaken : Ages none s (s.awaken p) := by
    rw [Core.awaken]
    split
    · exact setState (.inl (by simp [PState.isGone])) (by simp)
    · exact refl
  have hset : Ages none (s.awaken p) ((s.awaken p).setState p .running .scheduler) :=
    setState (.inl (by simp [PState.isGone])) (by simp)
  have h := hset.trans (update (q := p) (f := fun x => { x with nscheds := (x.nscheds + 1) % 2 ^ 64 })
    fun _ => rfl)
  have hrun : Ages none (s.awaken p) ((s.awaken p).run p) := ⟨h.gone, h.available, h.noReap⟩
  exact (hawaken.trans hrun).trans (wakes hw)

end Ages

/-! ## What holds of lives -/

/-- The lives that the log tells of, and the states of the slots. -/
structure Living (s : Core cfg) : Prop where
  numbered : Numbered s
  /-- A process that lives is in its slot. -/
  standing : ∀ q, Alive s q → ¬(s.procs q).state.isGone
  /-- As long as no process has been freed, an available slot was never used. -/
  unused : NoReap s → ∀ q, (s.procs q).state = .available → ∀ uid, s.log.any (Ev.isInit q uid) = false

/-- What a `fork` does to the slot it has found. -/
theorem Forks.birth {how : How} (h : Forks k p q s how t) :
    ∃ born, Birth q born s t ∧ (born = true → (t.procs q).state = .ready) := by
  cases h with
  | pid _ => exact ⟨false, .newPid, by simp⟩
  | full _ => exact ⟨true, .fresh, fun _ => by simp [Core.fresh]⟩
  | fresh => exact ⟨true, .fresh, fun _ => by simp [Core.fresh]⟩
  | adopted => exact ⟨true, .adopted, fun _ => by simp [Core.fresh, Core.adopted, Core.counted]⟩
  | created => exact ⟨true, .created, fun _ => by simp [Core.fresh, Core.adopted, Core.counted]⟩

namespace Living

theorem same (hs : Living s) (h : SameLives s t) (ha : Ages none s t) : Living t where
  numbered := h.numbered hs.numbered
  standing q hq hgone := hs.standing q (h.alive.1 hq) (ha.gone q (by simp) hgone)
  unused ht q hq uid := by
    rw [h.inits]
    exact hs.unused (ha.noReap ht) q (ha.available ht q hq) uid

theorem birth {born : Bool} (hs : Living s) (h : Birth q born s t) (ha : Ages none s t)
    (hready : born = true → (t.procs q).state = .ready) : Living t where
  numbered := h.numbered hs.numbered
  standing r hr hgone := by
    by_cases hrq : r = q
    · subst hrq
      rw [hready ((h.alive_self hs.numbered).1 hr)] at hgone
      rcases hgone with hgone | hgone <;> cases hgone
    · exact hs.standing r ((h.alive_of_ne hrq).1 hr) (ha.gone r (by simp) hgone)
  unused ht r hr uid := by
    rw [h.inits, hs.unused (ha.noReap ht) r (ha.available ht r hr) uid, Bool.or_false, decide_eq_false_iff_not]
    rintro ⟨hborn, rfl, -⟩
    rw [hready hborn] at hr
    cases hr

theorem death (hs : Living s) (h : Death p s t) (ha : Ages (some p) s t) (hp : Alive s p) : Living t where
  numbered := h.numbered hs.numbered hp
  standing r hr hgone := by
    by_cases hrp : r = p
    · subst hrp
      exact h.not_alive_self hr
    · exact hs.standing r ((h.alive_of_ne hrp).1 hr) (ha.gone r (by simpa using hrp) hgone)
  unused ht q hq uid := by
    rw [h.inits]
    exact hs.unused (ha.noReap ht) q (ha.available ht q hq) uid

/-- A call, where a process that exits lives. -/
theorem call {c : Call} {how : How} (hs : Living k.core) (hp : c = .exit → Alive k.core p)
    (h : CallEffect p k c how t) : Living t := by
  cases c with
  | fork =>
    cases h with
    | quiet _ hw => exact hs.same (.wakes hw) (.wakes hw)
    | frame _ => exact hs.same (.update fun _ => rfl) (.update fun _ => rfl)
    | yield ht _ _ => cases ht
    | @fork q _ frame _ _ _ hf =>
      have hframe : Living (k.core.update p fun x => { x with trap := frame }) :=
        hs.same (.update fun _ => rfl) (.update fun _ => rfl)
      obtain ⟨born, hb, hready⟩ := hf.birth
      exact hframe.birth hb (.forks hf) hready
  | exit =>
    have ha : Ages (some p) k.core t := .call h fun _ => rfl
    cases h with
    | quiet _ hw => exact hs.same (.wakes hw) (.wakes hw)
    | frame _ => exact hs.same (.update fun _ => rfl) (.update fun _ => rfl)
    | yield ht _ _ => cases ht
    | orphan _ => exact hs.death .exit ha (hp rfl)
    | exiting _ hw => exact hs.death (.exiting hw) ha (hp rfl)
    | exited _ hw => exact hs.death (Death.exiting hw).exited ha (hp rfl)
  | _ => exact hs.same (.call h nofun nofun) (.call h nofun)

end Living

/-- The lives when the machine boots: that of the first process. -/
theorem living_booted (p : Slot cfg) (frame frame' : TrapFrame) :
    Living ((Core.init cfg).booted p frame frame') := by
  have hinit : Living (Core.init cfg) := ⟨by simp [Numbered, Core.init], by simp [Alive, Core.init],
    by simp [Core.init]⟩
  have hfresh : Living (((Core.init cfg).newPid p).fresh p frame) :=
    hinit.birth .fresh (Ages.newPid.trans .fresh) fun _ => by simp [Core.fresh]
  have hcounted : Living (((Core.init cfg).newPid p).fresh p frame).counted :=
    ⟨hfresh.numbered, hfresh.standing, hfresh.unused⟩
  have hframe : Living ((((Core.init cfg).newPid p).fresh p frame).counted.update p fun x =>
      { x with trap := frame' }) := hcounted.same (.update fun _ => rfl) (.update fun _ => rfl)
  have hcreated : Living (((((Core.init cfg).newPid p).fresh p frame).counted.update p fun x =>
      { x with trap := frame' }).record (.created (Core.init cfg).pidCounter)) :=
    hframe.same .created (.record rfl)
  exact ⟨hcreated.numbered, hcreated.standing, hcreated.unused⟩

end HobbyOs
