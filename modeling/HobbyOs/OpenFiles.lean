import HobbyOs.FileCalls
import HobbyOs.KernelStep

/-!
# Open files stay in use

The `refcount` of an entry of `ftable`, and the descriptors of the processes that
live. As long as calls are made by processes that live, the count is at least
the number of these descriptors (`open_files_counted`): no entry is given away
that a process has open.

The count may be ahead of the descriptors. A call that fails may leave an entry
in use for good; and `proc_pipeattch` gives a descriptor to a process that has
exited, which nothing closes. It can do so at most twice for each slot before a
process has been freed (`budget`); later on, the count itself must not be too
high (`Orderly`).
-/

namespace HobbyOs

open Outcome Transition References

variable {cfg : Config} {p q : Slot cfg} {k k' : Kernel cfg} {f g : FileRef} {m m' : Machine cfg} {b b' : ℕ}

/-! ## References -/

/-- The entries of `ftable`. -/
def entries : Set FileRef := Set.range .ftable

/-- The descriptors of the process in the slot, if it lives. -/
def openFds (k : Kernel cfg) (q : Slot cfg) : Fin maxProcFds → Option FileRef :=
  if Alive k.core q then (k.procs q).files else fun _ => none

/-- The `refcount` of a file object. -/
def refcounts (k : Kernel cfg) (f : FileRef) : ℕ := (k.files f).refcount

theorem openFds_of_alive (h : Alive k.core q) : openFds k q = (k.procs q).files := if_pos h

theorem openFds_of_dead (h : ¬Alive k.core q) : openFds k q = fun _ => none := if_neg h

/-- The descriptors of all processes, when only those of `p` are changed. -/
theorem openFds_eq_update (halive : ∀ r ≠ p, Alive k'.core r ↔ Alive k.core r)
    (hfds : ∀ r ≠ p, (k'.procs r).files = (k.procs r).files) :
    openFds k' = Function.update (openFds k) p (openFds k' p) := by
  funext r
  by_cases hr : r = p
  · subst hr
    simp
  · simp only [Function.update_of_ne hr, openFds, halive r hr, hfds r hr]

theorem openFds_congr (halive : ∀ r, Alive k'.core r ↔ Alive k.core r)
    (hfds : Part.fds.Same k k') : openFds k' = openFds k := by
  funext r
  simp only [openFds, halive r, show (k'.procs r).files = (k.procs r).files from hfds r]

theorem stdFds_count (hf : f ∈ entries) : count stdFds f = 0 := by
  obtain ⟨i, rfl⟩ := hf
  by_contra hne
  obtain ⟨j, hj⟩ := exists_of_count_pos (Nat.pos_of_ne_zero hne)
  simp only [stdFds] at hj
  split_ifs at hj <;> cases hj

/-! ## Arithmetic of the counters -/

/-! ## What may be lost -/

/-- A process has been in the slot. -/
def Used (s : Core cfg) (q : Slot cfg) : Prop := ∃ uid, s.log.any (Ev.isInit q uid) = true

theorem SameLives.used {s t : Core cfg} (h : SameLives s t) : Used t q ↔ Used s q := by
  simp only [Used, h.inits]

open Classical in
/-- How often a descriptor may have been given to the slot while no process lived
    in it, as long as no process has been freed. -/
noncomputable def lost (k : Kernel cfg) (q : Slot cfg) : ℕ :=
  (if Used k.core q then 1 else 0) + if ¬Alive k.core q ∧ (k.procs q).files 1 ≠ none then 1 else 0

/-- The same for all slots. -/
noncomputable def budget (k : Kernel cfg) : ℕ := ∑ q, lost k q

theorem lost_le : lost k q ≤ 2 := by
  rw [lost]
  split_ifs <;> omega

theorem budget_le : budget k ≤ 16 := by
  have h := Finset.sum_le_card_nsmul Finset.univ (lost k) 2 fun q _ => lost_le
  have hprocs := cfg.maxProcs_le
  have hcard : (Finset.univ : Finset (Slot cfg)).card • 2 = 2 * cfg.maxProcs := by
    rw [Finset.card_univ, Fintype.card_fin]
    exact Nat.mul_comm _ _
  rw [hcard] at h
  exact h.trans (by omega)

/-- The descriptor of a process that does not live is not closed. -/
theorem lost_mono (hused : Used k.core q → Used k'.core q)
    (hdead : ¬Alive k.core q → (k.procs q).files 1 ≠ none →
      ¬Alive k'.core q ∧ (k'.procs q).files 1 ≠ none) :
    lost k q ≤ lost k' q := by
  classical
  rw [lost, lost]
  refine Nat.add_le_add ?_ ?_
  · split_ifs with h h'
    · exact le_rfl
    · exact absurd (hused h) h'
    · exact Nat.zero_le _
    · exact le_rfl
  · split_ifs with h h'
    · exact le_rfl
    · exact absurd (hdead h.1 h.2) h'
    · exact Nat.zero_le _
    · exact le_rfl

/-- A process that does not live gets a descriptor. -/
theorem lost_lt (hl : SameLives k.core k'.core) (hq : ¬Alive k.core q) (hnone : (k.procs q).files 1 = none)
    (hsome : (k'.procs q).files 1 ≠ none) : lost k q < lost k' q := by
  have hdead := hl.alive.not.2 hq
  by_cases hu : Used k.core q
  · simp [lost, hu, hl.used.2 hu, hnone, hdead, hsome]
  · simp [lost, hu, hl.used.not.2 hu, hnone, hdead, hsome]

/-- Only descriptors of `p` change, as long as it lives, and the counters of the file objects in `S` follow. -/
structure Recounts (S : Set FileRef) (p : Slot cfg) (k k' : Kernel cfg) : Prop where
  fds : openFds k' = Function.update (openFds k) p (openFds k' p)
  counts : ∀ g ∈ S, refcounts k' g + count (openFds k p) g = refcounts k g + count (openFds k' p) g

namespace Recounts

variable {S : Set FileRef} {base : FileRef → ℕ}

theorem bounded (h : Recounts S p k k') (hb : Bounded S b (refcounts k) (openFds k)) :
    Bounded S b (refcounts k') (openFds k') := by
  rw [h.fds]
  exact hb.replace h.counts

theorem exact (h : Recounts S p k k') (hb : Exact S base (refcounts k) (openFds k)) :
    Exact S base (refcounts k') (openFds k') := by
  rw [h.fds]
  exact hb.replace h.counts

/-- The process lives. -/
theorem of_alive (hl : SameLives k.core k'.core) (hp : Alive k.core p)
    (hfds : ∀ r ≠ p, (k'.procs r).files = (k.procs r).files)
    (hrc : ∀ g ∈ S, refcounts k' g + count (k.procs p).files g = refcounts k g +
      count (k'.procs p).files g) :
    Recounts S p k k' where
  fds := openFds_eq_update (fun _ _ => hl.alive) hfds
  counts g hg := by
    rw [openFds_of_alive hp, openFds_of_alive (hl.alive.2 hp)]
    exact hrc g hg

theorem same (hl : SameLives k.core k'.core) (hh : ∀ g ∈ S, refcounts k' g = refcounts k g)
    (hf : Part.fds.Same k k') :
    Recounts S p k k' where
  fds := by rw [openFds_congr (fun _ => hl.alive) hf, Function.update_eq_self]
  counts g hg := by rw [openFds_congr (fun _ => hl.alive) hf, hh g hg]

end Recounts

/-- The counters of `ftable` are those of the descriptors of the processes that
    live, or ahead of these by at most `b`. -/
structure Tallied (b : ℕ) (k : Kernel cfg) : Prop where
  pos : 1 ≤ b
  le : b ≤ 2 ^ 31
  bounded : Bounded entries b (refcounts k) (openFds k)
  within : NoReap k.core → b ≤ 1 + budget k

namespace Tallied

/-- The counters are far from the end of their range. -/
theorem lt (h : Tallied b k) (hf : f ∈ entries) : refcounts k f + 8 < 2 ^ 32 := by
  have hle := h.bounded.le hf
  have hb := h.le
  have hprocs := cfg.maxProcs_le
  simp only [Fintype.card_fin] at hle
  have hmul : cfg.maxProcs * maxProcFds ≤ 8 * maxProcFds := Nat.mul_le_mul_right _ hprocs
  simp only [maxProcFds] at hle hmul
  omega

/-- The counters follow the descriptors, and nothing is lost. -/
theorem keep (h : Tallied b k) (hb : Bounded entries b (refcounts k') (openFds k'))
    (hreap : NoReap k'.core → NoReap k.core) (hlost : NoReap k'.core → ∀ q, lost k q ≤ lost k' q) :
    Tallied b k' where
  pos := h.pos
  le := h.le
  bounded := hb
  within hk := (h.within (hreap hk)).trans (Nat.add_le_add_left (Finset.sum_le_sum fun q _ => hlost hk q) 1)

/-- The same for a step in which no life begins or ends, and no descriptor of a
    process that does not live is closed. -/
theorem keep_same (h : Tallied b k) (hl : SameLives k.core k'.core) (ha : Ages none k.core k'.core)
    (hfds : ∀ q, ¬Alive k.core q → (k.procs q).files 1 ≠ none → (k'.procs q).files 1 ≠ none)
    (hb : Bounded entries b (refcounts k') (openFds k')) : Tallied b k' :=
  h.keep hb ha.noReap fun _ q => lost_mono hl.used.2 fun hd hf => ⟨hl.alive.not.2 hd, hfds q hd hf⟩

/-- Neither counters nor descriptors change. -/
theorem same (h : Tallied b k) (hl : SameLives k.core k'.core) (ha : Ages none k.core k'.core)
    (hh : Part.handles.Same k k') (hf : Part.fds.Same k k') : Tallied b k' := by
  refine h.keep_same hl ha (fun q _ hq => ?_) ?_
  · rwa [show (k'.procs q).files = (k.procs q).files from hf q]
  · rw [openFds_congr (fun _ => hl.alive) hf,
      show refcounts k' = refcounts k from funext fun f => congrArg Handle.refcount (hh f)]
    exact h.bounded

/-- The descriptors of `p`, which lives, are replaced, and the counters follow. -/
theorem replace (h : Tallied b k) (hl : SameLives k.core k'.core) (ha : Ages none k.core k'.core)
    (hp : Alive k.core p) (hfds : ∀ r ≠ p, (k'.procs r).files = (k.procs r).files)
    (hrc : Recounts entries p k k') : Tallied b k' := by
  refine h.keep_same hl ha (fun q hq hne => ?_) (hrc.bounded h.bounded)
  rwa [hfds q fun hqp => hq (hqp ▸ hp)]

/-- An entry that was not in use is taken, and gets no descriptor. -/
theorem take (h : Tallied b k) (hl : SameLives k.core k'.core) (ha : Ages none k.core k'.core)
    (hfds : Part.fds.Same k k') (h0 : refcounts k f = 0)
    (hrc : ∀ g ∈ entries, refcounts k' g = refcounts k g + if g = f then 1 else 0) : Tallied b k' := by
  refine h.keep_same hl ha (fun q _ hq => ?_) ?_
  · rwa [show (k'.procs q).files = (k.procs q).files from hfds q]
  · rw [openFds_congr (fun _ => hl.alive) hfds]
    refine h.bounded.leak le_rfl ?_ hrc
    have := h.pos
    omega

end Tallied

/-! ## Calls -/

theorem freeFile_refcount {i : Fin maxFiles} (h : freeFile k = some i) : refcounts k (.ftable i) = 0 :=
  freeFile_some h

/-- The entry that was taken is counted once. -/
theorem OnlyFile.refcounts_eq {i : Fin maxFiles} (hi : freeFile k = some i)
    (h : OnlyFile (.ftable i) (Function.update k.files (.ftable i) (k.files (.ftable i)).taken) k'.files)
    (g : FileRef) : refcounts k' g = refcounts k g + if g = .ftable i then 1 else 0 := by
  by_cases hg : g = .ftable i
  · subst hg
    rw [if_pos rfl, freeFile_refcount hi]
    refine h.refcount.trans ?_
    simp [File.taken]
  · rw [if_neg hg, refcounts, h.others g hg, Function.update_of_ne hg]
    rfl

/-- A reference is dropped, and no other. -/
theorem Frees.refcount (h : Frees f k k') (g : FileRef) :
    (k'.files g).refcount = if g = f then (k.files f).dropped.refcount else (k.files g).refcount := by
  cases h with
  | plain _ hfiles _ =>
    rw [hfiles]
    by_cases hg : g = f
    · subst hg
      simp
    · simp [hg]
  | @last i w files _ _ hw hfiles _ =>
    have hrc : ∀ g, (files g).refcount = if g = f then (k.files f).dropped.refcount
        else (k.files g).refcount := by
      intro g
      rw [hw]
      by_cases hgw : g = w
      · subst hgw
        by_cases hg : g = f
        · subst hg
          simp
        · simp [hg]
      · by_cases hg : g = f
        · subst hg
          simp [hgw]
        · simp [hg, hgw]
    rw [hfiles]
    by_cases hg : g = f
    · subst hg
      simpa using hrc g
    · simpa [hg] using hrc g

theorem handles_same (h : k'.files = k.files) : Part.handles.Same k k' := fun f => by rw [h]

/-- An entry that was not in use is taken, for a descriptor of `p` if there is
    one left. -/
theorem bounded_takes {D : Slot cfg → Fin maxProcFds → Option FileRef} {rc rc' : FileRef → ℕ}
    {fds fds' : Fin maxProcFds → Option FileRef} {o : Option (Fin maxProcFds)} (h : Bounded entries b rc D)
    (hb : 1 ≤ b) (h0 : rc f = 0) (hp : D p = fds) (ht : TakesFd f fds o fds')
    (hrc : ∀ g ∈ entries, rc' g = rc g + if g = f then 1 else 0) :
    Bounded entries b rc' (Function.update D p fds') := by
  cases ht with
  | none _ =>
    rw [← hp, Function.update_eq_self]
    exact h.leak le_rfl (by omega) hrc
  | some hi =>
    refine h.replace fun g hg => ?_
    rw [hrc g hg, hp, count_fill hi]
    omega

section

variable (h : Tallied b k) (hl : SameLives k.core k'.core) (ha : Ages none k.core k'.core)

include h

/-- The counter of a file that a process has open. -/
theorem Tallied.retained (hf : f ∈ entries) : (k.files f).retained.refcount = refcounts k f + 1 := by
  have hlt := h.lt hf
  exact u32_add (i := 1) (by rw [← refcounts]; omega)

include hl ha

theorem Tallied.opens (hp : Alive k.core p) (ho : Opens p k k') : Tallied b k' := by
  cases ho with
  | none hfiles hfds => exact h.same hl ha (handles_same hfiles) hfds
  | lost hi honly hfds => exact h.take hl ha hfds (freeFile_refcount hi) fun g _ => honly.refcounts_eq hi g
  | @opened i fd hi honly hfd hset =>
    refine h.replace hl ha hp hset.others (.of_alive hl hp hset.others fun g _ => ?_)
    rw [honly.refcounts_eq hi, hset.own, count_fill hfd]
    omega

omit ha in
/-- A descriptor is closed: the counter of its file object goes down. -/
theorem Tallied.recounts_closes (hp : Alive k.core p) (hc : ClosesFd p k k') : Recounts entries p k k' := by
  cases hc with
  | none hfiles hfds _ => exact .same hl (fun g _ => by rw [refcounts, hfiles, ← refcounts]) hfds
  | @closed fd f hfd hfree hset =>
    refine .of_alive hl hp hset.others fun g hg => ?_
    have hclear := count_clear hfd g
    rw [hset.own, refcounts, hfree.refcount]
    by_cases hgf : g = f
    · subst hgf
      have hpos : 0 < refcounts k g := h.bounded.pos hg (i := fd) (by rwa [openFds_of_alive hp])
      have hdrop : (k.files g).dropped.refcount = refcounts k g - 1 :=
        u32_pred ((Nat.le_add_right _ 8).trans_lt (h.lt hg)) hpos
      rw [if_pos rfl] at hclear ⊢
      omega
    · rw [if_neg hgf] at hclear ⊢
      exact congrArg _ hclear.symm

theorem Tallied.closes (hp : Alive k.core p) (hc : ClosesFd p k k') : Tallied b k' := by
  have hrc := h.recounts_closes hl hp hc
  cases hc with
  | none hfiles hfds _ => exact h.same hl ha (handles_same hfiles) hfds
  | closed _ _ hset => exact h.replace hl ha hp hset.others hrc

omit ha in
/-- A descriptor is copied: the counter goes up. -/
theorem Tallied.recounts_dups (hp : Alive k.core p) (hd : Dups p k k') : Recounts entries p k k' := by
  cases hd with
  | none hfiles hfds => exact .same hl (fun g _ => by rw [refcounts, hfiles, ← refcounts]) hfds
  | @copied i fd f hi hfiles hfd hset =>
    refine .of_alive hl hp hset.others fun g hg => ?_
    rw [hset.own, count_fill hfd, refcounts, hfiles]
    by_cases hgf : g = f
    · subst hgf
      rw [Function.update_self, h.retained hg, if_pos rfl]
      omega
    · rw [Function.update_of_ne hgf, if_neg hgf]
      rfl

theorem Tallied.dups (hp : Alive k.core p) (hd : Dups p k k') : Tallied b k' := by
  have hrc := h.recounts_dups hl hp hd
  cases hd with
  | none hfiles hfds => exact h.same hl ha (handles_same hfiles) hfds
  | copied _ _ _ hset => exact h.replace hl ha hp hset.others hrc

/-- A reference was taken and given back, or given to a process. -/
theorem Tallied.attaches {pid : ℕ} {fd : ℤ} (hc : Attaches p pid fd k k')
    (hguard : ∀ t ∈ attachTarget p k pid fd,
      Alive k.core t.1 ∨ NoReap k.core ∨ (k.files t.2).refcount < 2 ^ 31) : ∃ b', Tallied b' k' := by
  cases hc with
  | none hfiles hfds => exact ⟨b, h.same hl ha (handles_same hfiles) hfds⟩
  | @back i f hi hfiles hfds =>
    refine ⟨b, h.keep_same hl ha (fun q _ hq => ?_) ?_⟩
    · rwa [show (k'.procs q).files = (k.procs q).files from hfds q]
    · rw [openFds_congr (fun _ => hl.alive) hfds]
      have hrc : ∀ g ∈ entries, refcounts k' g = refcounts k g := by
        intro g hg
        rw [refcounts, hfiles]
        by_cases hgf : g = f
        · subst hgf
          have hlt := h.lt hg
          have hret := h.retained hg
          rw [Function.update_self]
          -- The reference is taken before the search, and given back when that fails.
          refine (u32_pred (n := (k.files g).retained.refcount) ?_ ?_).trans ?_
          all_goals
            rw [hret]
            omega
        · rw [Function.update_of_ne hgf]
          rfl
      exact fun g hg => by rw [hrc g hg]; exact h.bounded g hg
  | @attached q i f htarget hi hfiles hnone hset =>
    have hrc : ∀ g ∈ entries, refcounts k' g = refcounts k g + if g = f then 1 else 0 := by
      intro g hg
      rw [refcounts, hfiles]
      by_cases hgf : g = f
      · subst hgf
        rw [Function.update_self, h.retained hg, if_pos rfl]
      · rw [Function.update_of_ne hgf, if_neg hgf]
        rfl
    by_cases hq : Alive k.core q
    · refine ⟨b, h.replace hl ha hq hset.others (.of_alive hl hq hset.others fun g hg => ?_)⟩
      rw [hset.own, count_fill hnone, hrc g hg]
      omega
    · -- The descriptor is lost: nobody lives to close it.
      have hopen : openFds k' = openFds k := by
        rw [openFds_eq_update (fun r _ => hl.alive) hset.others, openFds_of_dead (hl.alive.not.2 hq),
          ← openFds_of_dead hq, Function.update_eq_self]
      have hdead : ∀ r, ¬Alive k.core r → (k.procs r).files 1 ≠ none →
          (k'.procs r).files 1 ≠ none := by
        intro r _ hr
        by_cases hrq : r = q
        · subst hrq
          exact absurd hnone hr
        · rwa [hset.others r hrq]
      -- A slot without a process can lose its descriptor 1, and that only once.
      have hmore : budget k < budget k' := by
        refine Finset.sum_lt_sum (fun r _ => lost_mono hl.used.2 fun hr hne =>
          ⟨hl.alive.not.2 hr, hdead r hr hne⟩) ⟨q, Finset.mem_univ q, lost_lt hl hq hnone ?_⟩
        rw [hset.own]
        simp
      by_cases hf : f ∈ entries
      · have hbound := (h.bounded f hf).2
        -- While nobody has been reaped, the bound grows with what is lost, and there
        -- are few slots; afterwards it is that of the guard.
        by_cases hreap : NoReap k.core
        · have hb := h.within hreap
          have hle := budget_le (k := k)
          refine ⟨b + 1, by omega, by omega, ?_, fun _ => by omega⟩
          rw [hopen]
          exact h.bounded.leak (Nat.le_succ b) (by omega) hrc
        · have hlt := ((hguard _ htarget).resolve_left hq).resolve_left hreap
          refine ⟨2 ^ 31, by omega, le_rfl, ?_, fun hk' => absurd (ha.noReap hk') hreap⟩
          rw [hopen]
          exact h.bounded.leak h.le (Nat.lt_add_right _ hlt) hrc
      · refine ⟨b, h.keep_same hl ha hdead ?_⟩
        rw [hopen]
        intro g hg
        rw [hrc g hg, if_neg (by rintro rfl; exact hf hg)]
        exact h.bounded g hg

theorem Tallied.pipes (hp : Alive k.core p) {r : ℤ} (ho : PipeOpens p k k' r) : Tallied b k' := by
  cases ho with
  | noPipe hfiles hfds _ => exact h.same hl ha (handles_same hfiles) hfds
  | noFile _ _ hfiles hfds => exact h.same hl ha (handles_same hfiles) hfds
  | @oneFile i f0 _ hf0 _ hfiles hfds =>
    refine h.take hl ha hfds (freeFile_refcount hf0) fun g _ => ?_
    rw [refcounts, hfiles]
    by_cases hg : g = .ftable f0
    · subst hg
      rw [Function.update_self, if_pos rfl, freeFile_refcount hf0]
      rfl
    · rw [Function.update_of_ne hg, if_neg hg]
      rfl
  | @ends i f0 f1 o0 o1 fds r _ hf0 hf1 _ _ hfiles ht0 ht1 hothers _ =>
    obtain ⟨hne, hzero⟩ := nextFreeFile_some hf1
    have hne : FileRef.ftable f1 ≠ .ftable f0 := by simpa using hne
    have hzero : refcounts k (.ftable f1) = 0 := hzero
    refine h.keep_same hl ha (fun q hq hnone => ?_) ?_
    · rwa [hothers q fun hqp => hq (hqp ▸ hp)]
    -- One entry after the other is taken.
    have h₀ : Bounded entries b (fun g => refcounts k g + if g = .ftable f0 then 1 else 0)
        (Function.update (openFds k) p fds) :=
      bounded_takes h.bounded h.pos (freeFile_refcount hf0) (openFds_of_alive hp) ht0 fun _ _ => rfl
    have h₁ : Bounded entries b (refcounts k') (Function.update (openFds k) p (k'.procs p).files) := by
      rw [← Function.update_idem]
      refine bounded_takes h₀ h.pos (by simpa [hne] using hzero) (Function.update_self _ _ _) ht1
        fun g _ => ?_
      rw [refcounts, hfiles]
      by_cases hg1 : g = .ftable f1
      · subst hg1
        simp [hne, File.writingEnd, File.taken, hzero]
      · by_cases hg0 : g = .ftable f0
        · subst hg0
          have := freeFile_refcount hf0
          simp [hne.symm, File.readingEnd, File.taken, this]
        · simp [hg0, hg1, refcounts]
    rw [openFds_eq_update (fun r _ => hl.alive) hothers, openFds_of_alive (hl.alive.2 hp)]
    exact h₁

end

/-! ### Fork -/

/-- A slot that is filled in was never used, if no process has been freed: what
    was given to it is accounted for. -/
theorem lost_birth {born : Bool} (hs : Living k.core) (hb : Birth q born k.core k'.core)
    (hq : (k.core.procs q).state = .available) (hr : NoReap k.core)
    (hone : born = false → (k'.procs q).files 1 = none → (k.procs q).files 1 = none)
    (hfds : ∀ r ≠ q, (k'.procs r).files = (k.procs r).files) (r : Slot cfg) : lost k r ≤ lost k' r := by
  have hused : Used k.core r → Used k'.core r := by
    rintro ⟨uid, huid⟩
    exact ⟨uid, by rw [hb.inits, huid, Bool.or_true]⟩
  by_cases hrq : r = q
  · subst hrq
    have hnot : ¬Used k.core r := fun ⟨uid, huid⟩ => by
      rw [hs.unused hr r hq uid] at huid
      cases huid
    cases born with
    | true =>
      have hyes : Used k'.core r := ⟨k.core.pidCounter, by simp [hb.inits]⟩
      simp only [lost, if_neg hnot, if_pos hyes]
      split_ifs <;> omega
    | false => exact lost_mono hused fun _ h =>
      ⟨(hb.alive_self hs.numbered).not.2 (by simp), mt (hone rfl) h⟩
  · refine lost_mono hused fun hd h => ⟨(hb.alive_of_ne hrq).not.2 hd, ?_⟩
    rwa [hfds r hrq]

theorem count_stdFds_or {fds : Fin maxProcFds → Option FileRef} (hf : f ∈ entries)
    (h : fds = stdFds ∨ fds = fun _ => none) : count fds f = 0 := by
  rcases h with rfl | rfl
  · exact stdFds_count hf
  · exact count_none

/-- A process is made, if one is: the counters follow its descriptors. -/
theorem Birth.recounts {born : Bool} (hs : Living k.core) (hcpu : k.core.cpuProc = some p)
    (hslot : freeSlot k = some q)
    (hb : Birth q born k.core k'.core) (hfds : ∀ r ≠ q, (k'.procs r).files = (k.procs r).files)
    (hrc : ∀ g ∈ entries, refcounts k' g = refcounts k g + if born then count (k'.procs q).files g else 0) :
    Recounts entries q k k' := by
  have hdead : ¬Alive k.core q := fun hal => hs.standing q hal (.inr (freeSlot_ne hcpu hslot).2)
  refine ⟨openFds_eq_update (fun r hr => hb.alive_of_ne hr) hfds, fun g hg => ?_⟩
  rw [openFds_of_dead hdead, count_none, Nat.add_zero, hrc g hg]
  cases born with
  | true => rw [openFds_of_alive ((hb.alive_self hs.numbered).2 rfl), if_pos rfl]
  | false => rw [openFds_of_dead ((hb.alive_self hs.numbered).not.2 (by simp)), count_none, if_neg (by simp)]

/-- The counters follow the descriptors of the child, if there is one. -/
theorem Tallied.recounts_forks (h : Tallied b k) (hs : Living k.core) (hcpu : k.core.cpuProc = some p)
    (hf : ForksFiles p k k') : ∃ q, freeSlot k = some q ∧ Recounts entries q k k' := by
  cases hf with
  | @failed q born hslot hb hstd _ hfds hfiles _ =>
    refine ⟨q, hslot, hb.recounts hs hcpu hslot hfds fun g hg => ?_⟩
    rw [refcounts, hfiles, ← refcounts]
    split_ifs with hborn
    · rw [hstd hborn, stdFds_count hg, Nat.add_zero]
    · rfl
  | @done q hslot hb hown hfds hfiles _ =>
    refine ⟨q, hslot, hb.recounts hs hcpu hslot hfds fun g hg => ?_⟩
    rw [if_pos rfl, hown, refcounts, hfiles, File.refs]
    split_ifs with h0
    · rw [h0]
      rfl
    · have hlt := h.lt hg
      have hle : count (k.procs p).files g ≤ 8 := count_le
      exact u32_add (by rw [← refcounts]; omega)

theorem Tallied.forks (h : Tallied b k) (hs : Living k.core) (ha : Ages none k.core k'.core)
    (hcpu : k.core.cpuProc = some p) (hf : ForksFiles p k k') : Tallied b k' := by
  obtain ⟨_, -, hrc⟩ := h.recounts_forks hs hcpu hf
  refine h.keep (hrc.bounded h.bounded) ha.noReap fun hk' r => ?_
  cases hf with
  | failed hslot hb _ hone hfds _ _ =>
    exact lost_birth hs hb (freeSlot_ne hcpu hslot).2 (ha.noReap hk') (fun _ => hone) hfds r
  | done hslot hb _ hfds _ _ =>
    exact lost_birth hs hb (freeSlot_ne hcpu hslot).2 (ha.noReap hk') (by simp) hfds r

/-! ### Exit -/

/-- `proc_exit` has closed the descriptors but for those in `l`. -/
structure Closing (files : Fin maxProcFds → Option FileRef) (rc : FileRef → ℕ) (l : List (Fin maxProcFds))
    (k : Kernel cfg) : Prop where
  nodup : l.Nodup
  refcounts : ∀ g ∈ entries, HobbyOs.refcounts k g + count (without files l) g = rc g

variable {files : Fin maxProcFds → Option FileRef} {rc : FileRef → ℕ}

/-- One descriptor is closed. -/
theorem Closing.close {i : Fin maxProcFds} {l : List (Fin maxProcFds)}
    (hlow : ∀ g ∈ entries, count files g ≤ rc g) (hhigh : ∀ g ∈ entries, rc g < 2 ^ 32)
    (h : Closing files rc (i :: l) k) (hi : files i = some f) (hf : Frees f k k') : Closing files rc l k' := by
  obtain ⟨hil, hnodup⟩ := List.nodup_cons.1 h.nodup
  refine ⟨hnodup, fun g hg => ?_⟩
  have hrc := h.refcounts g hg
  have hcount := count_without (E := files) hil g
  have hle : count (without files l) g ≤ rc g := count_without_le.trans (hlow g hg)
  rw [hi] at hcount
  rw [HobbyOs.refcounts, hf.refcount]
  by_cases hgf : g = f
  · subst hgf
    rw [if_pos rfl] at hcount
    have hlt := hhigh g hg
    have hdrop : (k.files g).dropped.refcount = HobbyOs.refcounts k g - 1 :=
      u32_pred (by rw [← HobbyOs.refcounts]; omega) (by rw [← HobbyOs.refcounts]; omega)
    rw [if_pos rfl, hdrop]
    omega
  · rw [if_neg (by simpa using Ne.symm hgf)] at hcount
    rw [if_neg hgf]
    rw [HobbyOs.refcounts] at hrc
    omega

theorem Closing.skip {i : Fin maxProcFds} {l : List (Fin maxProcFds)} (h : Closing files rc (i :: l) k)
    (hi : files i = none) : Closing files rc l k := by
  obtain ⟨hil, hnodup⟩ := List.nodup_cons.1 h.nodup
  refine ⟨hnodup, fun g hg => ?_⟩
  have hcount := count_without (E := files) hil g
  rw [hi] at hcount
  simp only [reduceCtorEq, if_false, Nat.add_zero] at hcount
  rw [← hcount]
  exact h.refcounts g hg

/-- The references that are dropped while the files of a process are closed. -/
theorem closeFiles_refcounts (hlow : ∀ g ∈ entries, count files g ≤ refcounts k g)
    (hhigh : ∀ g ∈ entries, refcounts k g < 2 ^ 32) (h : closeFiles files k = .ok () k') :
    ∀ g ∈ entries, refcounts k' g + count files g = refcounts k g := by
  have hloop : Triple (Closing files (refcounts k) (List.finRange maxProcFds)) (closeFiles files : KM cfg Unit)
      (fun _ => Closing files (refcounts k) []) fun _ _ => True := by
    refine Triple.forM (fun i l t ht => ?_) _
    cases hi : files i with
    | none => exact ht.skip hi
    | some f =>
      dsimp only
      cases hr : fsFreeFile f t with
      | ok a t' => exact ht.close hlow hhigh hi (fsFreeFile_ok hr)
      | error e t' => trivial
  have hend := hloop.of_ok ⟨List.nodup_finRange _, fun g _ => ?_⟩ h
  · simpa using hend.refcounts
  · rw [without_all (fun i => List.mem_finRange i), count_none]
    rfl

/-- `proc_exit` closes the files, but leaves the table of descriptors. -/
theorem exit_fds (he : procExit p k = .error .switch k') (r : Slot cfg) :
    (k'.procs r).files = (k.procs r).files := by
  have hfds := frame_runCall p .exit k .fds (by simp [Call.parts])
  rw [show runCall p .exit k = _ from he] at hfds
  exact hfds r

/-- The counters follow the descriptors of the process that exits. -/
theorem Tallied.recounts_exits (h : Tallied b k) (hk : Calm p k) (hpar : (k.core.procs p).parent ≠ some p)
    (hp : Alive k.core p) (hd : Death p k.core k'.core) (he : procExit p k = .error .switch k') :
    Recounts entries p k k' := by
  obtain ⟨k₁, k₂, hclose, hbefore, hafter, -⟩ := procExit_closes hk hpar he
  have hrc₁ : refcounts k₁ = refcounts k := by
    funext f
    rw [refcounts, show k₁.files = k.files from hbefore .files (by simp)]
    rfl
  have hrc₂ : refcounts k' = refcounts k₂ := by
    funext f
    rw [refcounts, show k'.files = k₂.files from hafter .files (by simp)]
    rfl
  have hopen : openFds k p = (k.procs p).files := openFds_of_alive hp
  have hrc := closeFiles_refcounts ?_ ?_ hclose
  · refine ⟨openFds_eq_update (fun r hr => hd.alive_of_ne hr) fun r _ => exit_fds he r, fun g hg => ?_⟩
    rw [hopen, openFds_of_dead hd.not_alive_self, count_none, hrc₂, hrc g hg, hrc₁]
    rfl
  · intro g hg
    rw [hrc₁, ← hopen]
    exact count_le_total.trans (h.bounded g hg).1
  · intro g hg
    have := h.lt hg
    rw [hrc₁]
    omega

theorem Tallied.exits (h : Tallied b k) (hk : Calm p k) (hpar : (k.core.procs p).parent ≠ some p)
    (hp : Alive k.core p) (hd : Death p k.core k'.core) (ha : Ages (some p) k.core k'.core)
    (he : procExit p k = .error .switch k') : Tallied b k' := by
  refine h.keep ((h.recounts_exits hk hpar hp hd he).bounded h.bounded) ha.noReap fun _ r =>
    lost_mono ?_ fun hr hne => ⟨?_, ?_⟩
  · rintro ⟨uid, huid⟩
    exact ⟨uid, by rw [hd.inits, huid]⟩
  · by_cases hrp : r = p
    · subst hrp
      exact hd.not_alive_self
    · exact (hd.alive_of_ne hrp).not.2 hr
  · rwa [exit_fds he r]

/-! ## Runs -/

/-- The process that a call gives a descriptor to, and the file object. -/
def handed (p : Slot cfg) (k : Kernel cfg) : Call → Option (Slot cfg × FileRef)
  | .pipeattch pid fd => attachTarget p k pid fd
  | _ => none

/-- The call is made by a process that lives. A descriptor is given to a process
    that does not, only before a process has been freed, or while the counter of
    the file object is in the lower half of its range. -/
def Orderly (p : Slot cfg) (k : Kernel cfg) (c : Call) : Prop :=
  Alive k.core p ∧ ∀ t ∈ handed p k c, Alive k.core t.1 ∨ NoReap k.core ∨
    (k.files t.2).refcount < 2 ^ 31

instance (p : Slot cfg) (k : Kernel cfg) (c : Call) : Decidable (Orderly p k c) :=
  inferInstanceAs (Decidable (_ ∧ _))

/-- What holds in every state reached. -/
structure Tidy (k : Kernel cfg) : Prop where
  living : Living k.core
  tallied : ∃ b, Tallied b k

theorem Tallied.call {c : Call} {how : How} (h : Tallied b k) (hs : Living k.core) (hk : Calm p k)
    (hcpu : k.core.cpuProc = some p) (hpar : (k.core.procs p).parent ≠ some p) (ho : Orderly p k c)
    (hend : Ended (runCall p c k) how k') (he : CallEffect p k c how k'.core) : ∃ b', Tallied b' k' := by
  obtain ⟨hp, hguard⟩ := ho
  have hsame : c ≠ .fork → c ≠ .exit → SameLives k.core k'.core := fun hf hx => .call he hf hx
  have hages : c ≠ .exit → Ages none k.core k'.core := fun hx => .call he fun h => absurd h hx
  -- The calls that leave file objects and descriptors alone.
  have hother : Part.handles ∉ c.parts → Part.fds ∉ c.parts → c ≠ .fork → c ≠ .exit →
      ∃ b', Tallied b' k' := by
    intro hh hf hne hnx
    refine ⟨b, h.same (hsame hne hnx) (hages hnx) ?_ ?_⟩
    · exact hend.same (frame_runCall p c) hh
    · exact hend.same (frame_runCall p c) hf
  cases c with
  | fork =>
    cases hend with
    | back hr => exact ⟨b, h.forks hs (hages (by simp)) hcpu (procFork_ok hk hcpu hr)⟩
    | away _ => exact (he.not_away rfl (by simp) (by simp) (by simp)).elim
  | exit =>
    cases hend with
    | back hr => exact absurd hr procExit_ne_ok
    | away hr => exact ⟨b, h.exits hk hpar hp (.call he) (.call he fun _ => rfl) hr⟩
  | «open» path =>
    cases hend with
    | back hr => exact ⟨b, h.opens (hsame (by simp) (by simp)) (hages (by simp)) hp (procOpen_ok hr)⟩
    | away _ => exact (he.not_away rfl (by simp) (by simp) (by simp)).elim
  | close fd =>
    cases hend with
    | back hr => exact ⟨b, h.closes (hsame (by simp) (by simp)) (hages (by simp)) hp (procClose_ok hr)⟩
    | away _ => exact (he.not_away rfl (by simp) (by simp) (by simp)).elim
  | dup fd =>
    cases hend with
    | back hr => exact ⟨b, h.dups (hsame (by simp) (by simp)) (hages (by simp)) hp (procDup_ok hr)⟩
    | away _ => exact (he.not_away rfl (by simp) (by simp) (by simp)).elim
  | pipe pipefd =>
    cases hend with
    | back hr => exact ⟨b, h.pipes (hsame (by simp) (by simp)) (hages (by simp)) hp (pipeOpen_ok hr)⟩
    | away _ => exact (he.not_away rfl (by simp) (by simp) (by simp)).elim
  | pipeattch pid fd =>
    cases hend with
    | back hr => exact h.attaches (hsame (by simp) (by simp)) (hages (by simp)) (procPipeattch_ok hr) hguard
    | away _ => exact (he.not_away rfl (by simp) (by simp) (by simp)).elim
  | _ => exact hother (by simp [Call.parts]) (by simp [Call.parts]) (by simp) (by simp)

/-- A step that no call is made in. -/
theorem Tidy.same (h : Tidy k) (hl : SameLives k.core k'.core) (ha : Ages none k.core k'.core)
    (hh : Part.handles.Same k k') (hf : Part.fds.Same k k') : Tidy k' :=
  let ⟨b, hb⟩ := h.tallied; ⟨h.living.same hl ha, b, hb.same hl ha hh hf⟩

theorem Tidy.step {e : Event cfg} (hb : Base m) (h : Tidy m.k) (hC : OnCall Orderly m e)
    (hs : KernelStep m e k') : Tidy k' := by
  cases hs with
  | aside hsame ha => exact h.same ha.sameLives ha.ages (hsame .handles) (hsame .fds)
  | plic _ _ hsame hw => exact h.same (.wakes hw) (.wakes hw) (hsame .handles nofun) (hsame .fds nofun)
  | resume _ _ hend he hsame hcore _ =>
    refine h.same ?_ ?_ ((same_resumed hend (by simp [resumeParts])).trans (hsame .handles))
      ((same_resumed hend (by simp [resumeParts])).trans (hsame .fds))
    · rw [hcore]
      exact .after (.resume he)
    · rw [hcore]
      exact .after (.resume he)
  | @call p c how k₁ _ hp hcalm hc hend he hsame hcore =>
    have hentry : Tidy ((trap m).entry p) := h.same .refl .refl (fun _ => rfl) fun _ => rfl
    obtain ⟨b, hb'⟩ := hentry.tallied
    have horderly := hC p hp.cpu c hc
    have hcall : Tidy k₁ := ⟨hentry.living.call (fun _ => horderly.1) he,
      hb'.call hentry.living hcalm hp.cpu (hb.lineal p) horderly hend he⟩
    refine hcall.same ?_ ?_ (hsame .handles) (hsame .fds)
    · rw [hcore]
      exact .after .refl
    · rw [hcore]
      exact .after .refl

theorem tidy_boot {mem : ℕ → UInt8} (h : kinit (initKernel cfg mem) = .ok () k) : Tidy k := by
  obtain ⟨k₁, p, pc, name, k₂, h₁, h₂, hsame, -⟩ := kinit_ok (fun _ => rfl) h
  have hliving : Living k.core := by
    have hboot := boot_result cfg mem
    rw [boot, h] at hboot
    rcases hboot with ⟨p, frame, frame', hc, -, -⟩ | ⟨e, he, -, -⟩
    · exact hc ▸ living_booted p frame frame'
    · cases he
  have hfiles : k.files = initFile := by
    rw [show k.files = k₂.files from hsame .files rfl]
    refine (Frame.same_files (frame_initProc (by simp) (by simp) (by simp) (by simp) (by simp) (by simp)
      (by simp) (by simp)) h₂).trans ?_
    exact (Frame.same_files (frame_makeKernelPageTable (by simp) (by simp)) h₁).trans rfl
  -- Only the first process has descriptors, the three standard ones.
  have hfds : ∀ q, (k.procs q).files = stdFds ∨ (k.procs q).files = fun _ => none := by
    intro q
    rw [show (k.procs q).files = (k₂.procs q).files from hsame .fds rfl q]
    obtain ⟨hfds₂, hown⟩ := initProc_fds h₂
    by_cases hq : q = p
    · subst hq
      exact .inl (hown rfl)
    · refine .inr ((hfds₂.others q hq).trans ?_)
      exact (Frame.same_fds (frame_makeKernelPageTable (by simp) (by simp)) h₁ q).trans rfl
  refine ⟨hliving, 1, le_rfl, by decide, fun f hf => ?_, fun _ => Nat.le_add_right _ _⟩
  have hcount : ∀ q, count (openFds k q) f = 0 := by
    intro q
    rw [openFds]
    split
    · exact count_stdFds_or hf (hfds q)
    · exact count_none
  have htotal : total (openFds k) f = 0 := Finset.sum_eq_zero fun q _ => hcount q
  obtain ⟨i, rfl⟩ := hf
  have hzero : refcounts k (.ftable i) = 0 := by
    rw [refcounts, hfiles]
    rfl
  omega

/-- In every state that is reached with calls of processes that live. -/
theorem tidy_of_reach (h : Reach (machine cfg) (OnCall Orderly) m) (hm : ∀ why, m.mode ≠ .halted why) :
    Tidy m.k :=
  kernel_of_reach_running tidy_boot (fun hb hI hC hs => hI.step hb hC hs) h hm

/-! ## Runs of calls on files

Without a call that waits, nobody is freed: such runs are orderly. -/

/-- The calls that are about open files, with `fork` and `exit`. -/
def Call.isFileCall : Call → Bool
  | .open _ | .close _ | .dup _ | .pipe _ | .pipeattch .. | .fork | .exit => true
  | _ => false

/-- The call is one of those, made by a process that lives. -/
def FileCall (p : Slot cfg) (k : Kernel cfg) (c : Call) : Prop := c.isFileCall = true ∧ Alive k.core p

instance (p : Slot cfg) (k : Kernel cfg) (c : Call) : Decidable (FileCall p k c) :=
  inferInstanceAs (Decidable (_ ∧ _))

/-- No process waits in a call, and none has been freed. -/
structure Unblocked (s : Core cfg) : Prop where
  noReap : NoReap s
  plain : ∀ q, (s.procs q).ctx.isPlain = true

namespace Unblocked

variable {s t : Core cfg}

theorem update {f : PCore cfg → PCore cfg} (h : Unblocked s)
    (hf : ∀ x, (f x).ctx = x.ctx ∨ (f x).ctx.isPlain = true) :
    Unblocked (s.update q f) := by
  refine ⟨h.noReap, fun r => ?_⟩
  by_cases hr : r = q
  · subst hr
    rcases hf (s.procs r) with he | he
    · simpa [he] using h.plain r
    · simpa using he
  · simpa [hr] using h.plain r

theorem setState {new : PState} {site : Site cfg} (h : Unblocked s) (hs : ∀ call, site ≠ .reap call) :
    Unblocked (s.setState q new site) := by
  refine ⟨(noReap_setState hs).2 h.noReap, fun r => ?_⟩
  by_cases hr : r = q
  · subst hr
    simpa using h.plain r
  · simpa [hr] using h.plain r

theorem created {uid : ℕ} (h : Unblocked s) : Unblocked (s.record (.created uid)) :=
  ⟨h.noReap, h.plain⟩

theorem wakes (h : Unblocked s) (hw : Wakes s t) : Unblocked t := by
  refine hw.induct (I := Unblocked) h fun hu _ _ hsite => ?_
  refine (hu.setState ?_).update fun _ => .inl rfl
  rcases hsite with ⟨rfl, -⟩ | ⟨o, -, rfl, -⟩ <;> simp

theorem fresh {frame : TrapFrame} (h : Unblocked s) : Unblocked ((s.newPid q).fresh q frame) := by
  have hpid := h.update (q := q)
    (f := fun x => { x with pid := s.pidCounter % 2 ^ 32, uid := s.pidCounter, forker := none }) fun _ =>
      .inl rfl
  have hnew : Unblocked (s.newPid q) := ⟨hpid.noReap, hpid.plain⟩
  exact (hnew.update fun _ => .inr rfl).setState (by simp)

theorem forks {how : How} (h : Unblocked s) (hf : Forks k p q s how t) : Unblocked t := by
  have hadopted : ∀ {frame}, Unblocked (((s.newPid q).fresh q frame).counted.adopted p q) := by
    intro frame
    have hcounted : Unblocked ((s.newPid q).fresh q frame).counted := ⟨h.fresh.noReap, h.fresh.plain⟩
    exact hcounted.update fun _ => .inl rfl
  cases hf with
  | pid _ =>
    have hpid := h.update (q := q)
      (f := fun x => { x with pid := s.pidCounter % 2 ^ 32, uid := s.pidCounter, forker := none }) fun _ =>
        .inl rfl
    exact ⟨hpid.noReap, hpid.plain⟩
  | full _ | fresh => exact h.fresh
  | adopted => exact hadopted
  | created =>
    refine Unblocked.created ?_
    exact hadopted.update fun _ => .inl rfl

theorem exiting {r : Slot cfg} {child : ℕ} {forker : Option ℕ} (h : Unblocked s)
    (hw : Wakes ((s.setState p .zombie .exit).setState r .ready (.exitParent child forker)) t) : Unblocked t :=
  ((h.setState (by simp)).setState (by simp)).wakes hw

theorem call {c : Call} {how : How} (h : Unblocked k.core) (hc : c.isFileCall = true)
    (he : CallEffect p k c how t) : Unblocked t := by
  cases he with
  | quiet _ hw => exact h.wakes hw
  | frame _ => exact h.update fun _ => .inl rfl
  | yield ht _ _ => cases c <;> simp_all [Call.isFileCall, Call.isTransfer]
  | sleep | waited | wait | waitCond | detached | detachedWake => cases hc
  | @fork q _ frame _ _ _ hf =>
    have hframe : Unblocked (k.core.update p fun x => { x with trap := frame }) := h.update fun _ => .inl rfl
    exact hframe.forks hf
  | orphan _ => exact h.setState (by simp)
  | exiting _ hw => exact h.exiting hw
  | exited _ hw =>
    have hlast := (h.exiting hw).update (q := p) (f := fun x => { x with ctx := .exited }) fun _ => .inr rfl
    exact ⟨hlast.noReap, hlast.plain⟩
  | attached _ => exact h.update fun _ => .inl rfl

theorem after {how : How} (h : Unblocked s) : Unblocked (s.after how) := by
  cases how with
  | away => exact ⟨h.noReap, h.plain⟩
  | back | halt => exact h

theorem run (h : Unblocked s) (hw : Wakes ((s.awaken p).run p) t) : Unblocked t := by
  have hawaken : Unblocked (s.awaken p) := by
    rw [Core.awaken]
    split
    · exact h.setState (by simp)
    · exact h
  have hset : Unblocked ((s.awaken p).setState p .running .scheduler) := hawaken.setState (by simp)
  have hcount :=
    hset.update (q := p) (f := fun x => { x with nscheds := (x.nscheds + 1) % 2 ^ 64 }) fun _ => .inl rfl
  have hrun : Unblocked ((s.awaken p).run p) := ⟨hcount.noReap, hcount.plain⟩
  exact hrun.wakes hw

theorem booted (p : Slot cfg) (frame frame' : TrapFrame) :
    Unblocked ((Core.init cfg).booted p frame frame') := by
  have hinit : Unblocked (Core.init cfg) := ⟨rfl, fun _ => rfl⟩
  have hcounted : Unblocked (((Core.init cfg).newPid p).fresh p frame).counted :=
    ⟨hinit.fresh.noReap, hinit.fresh.plain⟩
  have hframe : Unblocked ((((Core.init cfg).newPid p).fresh p frame).counted.update p fun x =>
      { x with trap := frame' }) := hcounted.update fun _ => .inl rfl
  have hcreated : Unblocked (((((Core.init cfg).newPid p).fresh p frame).counted.update p fun x =>
      { x with trap := frame' }).record (.created (Core.init cfg).pidCounter)) := hframe.created
  exact ⟨hcreated.noReap, hcreated.plain⟩

end Unblocked

theorem unblocked_step {e : Event cfg} (hb : Base m) (h : Unblocked m.k.core) (hC : OnCall FileCall m e)
    (hs : step e m = some m') : Unblocked m'.k.core := by
  have hcore := (step_stepped hb hs).core
  generalize ht : m'.k.core = t at hcore ⊢
  cases hcore with
  | same => exact h
  | time | overlay => exact ⟨h.noReap, h.plain⟩
  | plic hw => exact h.wakes hw
  | preempt _ =>
    refine Unblocked.after ?_
    exact (h.setState (by simp)).update fun _ => .inr rfl
  | call hp he =>
    cases he with
    | none _ => exact h.after
    | call hc he => exact (Unblocked.call (k := (trap m).entry _) h (hC _ hp.cpu _ hc).1 he).after
  | run _ _ hw => exact h.run hw
  | @resume p _ _ hp hmode _ =>
    simp only [step, hmode, Option.some.injEq] at hs
    subst hs
    rw [← ht, resume_core (h.plain p)]
    exact h

/-- Runs of calls on files are orderly. -/
theorem orderly_of_fileCalls (h : Reach (machine cfg) (OnCall FileCall) m) :
    Reach (machine cfg) (OnCall Orderly) m := by
  refine h.strengthen fun {u u' e} hu hC hs => ?_
  cases e with
  | ecall =>
    have hrunning : ∀ why, u.mode ≠ .halted why := by
      intro why hmode
      simp [machine, step, hmode] at hs
    have hu :=
      core_of_reach_running Unblocked.booted (fun hb hI hC hs => unblocked_step hb hI hC hs) hu hrunning
    exact fun p hp c hc => ⟨(hC p hp c hc).2, fun t _ => .inr (.inl hu.noReap)⟩
  | _ => trivial

/-- As long as calls are made by processes that live, no entry of `ftable` is given
    away that such a process has open: the `refcount` is at least the number of
    descriptors. Each call of the run is one of those on files, or nobody has got
    the last of the references that its counter can hold (`Orderly`). -/
theorem open_files_counted
    (h : Reach (machine cfg) (OnCall FileCall) m ∨ Reach (machine cfg) (OnCall Orderly) m)
    (hm : ∀ why, m.mode ≠ .halted why) :
    (∀ i, total (openFds m.k) (.ftable i) ≤ (m.k.files (.ftable i)).refcount) ∧
      ∀ k f k', (∀ i, (m.k.files (.ftable i)).refcount ≤ (k.files (.ftable i)).refcount) →
        fsAllocFile (k : Kernel cfg) = .ok (some f) k' →
        ∀ q, Alive m.k.core q → ∀ fd, (m.k.procs q).files fd ≠ some f := by
  obtain ⟨b, hb⟩ := (tidy_of_reach (h.elim orderly_of_fileCalls id) hm).tallied
  refine ⟨fun i => (hb.bounded _ ⟨i, rfl⟩).1, fun k f k' hle halloc q hq fd hfd => ?_⟩
  rcases fsAllocFile_ok halloc with ⟨-, hf, -⟩ | ⟨i, hi, hf, -⟩
  · cases hf
  · cases hf
    have hzero : (m.k.files (.ftable i)).refcount = 0 :=
      Nat.le_zero.1 ((hle i).trans (freeFile_some hi).le)
    exact hb.bounded.ne_some ⟨i, rfl⟩ hzero q fd (by rwa [openFds_of_alive hq])

/-- The first process opens a pipe, copies its writing end, opens a file, forks,
    and closes the reading end. -/
def forksWithPipe : List (Event .qemuE) :=
  [Event.kernel, .kernel] ++ calls 29 0x80003d00 0 0 [] ++ calls 28 4 0 0 [] ++
    calls 5 0x80003d00 0 0 [(0x80003d00, ascii "/readme.txt" ++ [0])] ++ calls 2 0 0 0 [] ++ calls 6 3 0 0 []

theorem forksWithPipe_counted : ∃ m : Machine .qemuE, Reach (machine .qemuE) (OnCall FileCall) m ∧
    total (openFds m.k) (.ftable 1) = 4 ∧ total (openFds m.k) (.ftable 1) ≤
      (m.k.files (.ftable 1)).refcount := by
  have h : ∃ m ∈ run (OnCall FileCall) (machine .qemuE) forksWithPipe (boot .qemuE fun _ => 0),
      m.mode = .user ∧ total (openFds m.k) (.ftable 1) = 4 := by
    decide +kernel
  obtain ⟨m, hm, hmode, htotal⟩ := h
  have hr : Reach (machine .qemuE) (OnCall FileCall) m := Reach.of_run _ ⟨_, rfl⟩ hm
  exact ⟨m, hr, htotal, (open_files_counted (.inl hr) (by simp [hmode])).1 1⟩

end HobbyOs
