import HobbyOs.OpenFiles

/-!
# Files in use

What a call does to the file objects that are in use, whichever process makes it. The
processes other than the caller keep their descriptors, but for a child that is born;
the counters follow the descriptors, and nobody is handed a descriptor of a file in
use but what the caller had (`call_files`). `proc_pipeattch`, which is about handing
over, is left out.
-/

namespace HobbyOs

open Outcome Transition References

variable {cfg : Config} {p q s : Slot cfg} {k k' : Kernel cfg} {f g : FileRef} {m m' : Machine cfg} {b : ℕ}

/-- The entries of `ftable` that are in use. -/
def inUse (k : Kernel cfg) : Set FileRef := {f | f ∈ entries ∧ refcounts k f ≠ 0}

/-- What an entry that was not in use is taken for, is not about the ones in use. -/
theorem ne_of_inUse (hf : f ∈ inUse k) (hg : refcounts k g = 0) : f ≠ g := by
  rintro rfl
  exact hf.2 hg

theorem count_takesFd {fds fds' : Fin maxProcFds → Option FileRef} {o : Option (Fin maxProcFds)}
    (h : TakesFd f fds o fds') : count fds' g = count fds g + if g = f then o.isSome.toNat else 0 := by
  cases h with
  | none _ => simp
  | some hi => rw [count_fill hi, Option.isSome_some, Bool.toNat_true]

theorem used_takesFd {fds fds' : Fin maxProcFds → Option FileRef} {o : Option (Fin maxProcFds)}
    {i : Fin maxProcFds}
    (h : TakesFd f fds o fds') (hi : fds' i = some g) (hg : g ≠ f) : fds i = some g := by
  cases h with
  | none _ => exact hi
  | @some j hj =>
    by_cases hij : i = j
    · subst hij
      exact absurd (by simpa using hi.symm) hg
    · rwa [Function.update_of_ne hij] at hi

/-- The counters after `pipe_open` when there were two files. -/
theorem refcounts_ends {i : Fin maxPipes} {f0 f1 : Fin maxFiles} (hf0 : freeFile k = some f0)
    (hf1 : nextFreeFile k f0 = some f1)
    (hfiles : k'.files = Function.update (Function.update k.files (.ftable f0)
      ((k.files (.ftable f0)).readingEnd i)) (.ftable f1) ((k.files (.ftable f1)).writingEnd i)) (g : FileRef) :
    refcounts k' g = refcounts k g + (if g = .ftable f0 then 1 else 0) + if g = .ftable f1 then 1 else 0 := by
  obtain ⟨hne, hzero⟩ := nextFreeFile_some hf1
  have hne : FileRef.ftable f1 ≠ .ftable f0 := by simpa using hne
  have hzero : refcounts k (.ftable f1) = 0 := hzero
  rw [refcounts, hfiles]
  by_cases hg1 : g = .ftable f1
  · subst hg1
    simp [hne, File.writingEnd, File.taken, hzero]
  · by_cases hg0 : g = .ftable f0
    · subst hg0
      have := freeFile_refcount hf0
      simp [hne.symm, File.readingEnd, File.taken, this]
    · simp [hg0, hg1, refcounts]

/-- A pipe is opened: the counters follow the two descriptors. -/
theorem recounts_pipes (hl : SameLives k.core k'.core) (hp : Alive k.core p) (ho : PipeOpens p k k' 0) :
    Recounts entries p k k' := by
  generalize hr : (0 : ℤ) = r at ho
  cases ho with
  | noPipe | noFile | oneFile => cases hr
  | @ends i f0 f1 o0 o1 fds r _ hf0 hf1 _ _ hfiles ht0 ht1 hothers hres =>
    obtain ⟨-, h0, h1⟩ := hres.resolve_right fun hfail => by
      rw [hfail.1] at hr
      cases hr
    refine .of_alive hl hp hothers fun g _ => ?_
    rw [refcounts_ends hf0 hf1 hfiles, count_takesFd ht1, count_takesFd ht0, h0, h1, Bool.toNat_true]
    omega

/-! ## What a call does -/

/-- What a call of `p` does to the files in use: it changes the descriptors in the slot `s`, of the caller or
    of a child that is born. -/
structure CallFiles (p s : Slot cfg) (k k' : Kernel cfg) : Prop where
  slot : s = p ∨ ¬Alive k.core s
  recounts : Recounts (inUse k) s k k'
  used : ∀ f ∈ inUse k, ∀ i, openFds k' s i = some f → ∃ i', openFds k p i' = some f
  alive : ∀ q ≠ p, Alive k.core q → Alive k'.core q

namespace CallFiles

/-- A call that no life begins or ends in. -/
theorem of_sameLives (hl : SameLives k.core k'.core) (hp : Alive k.core p) (hrc : Recounts (inUse k) p k k')
    (hused : ∀ f ∈ inUse k, ∀ i, (k'.procs p).files i = some f →
      ∃ i', (k.procs p).files i' = some f) :
    CallFiles p p k k' where
  slot := .inl rfl
  recounts := hrc
  used f hf i hi := by
    rw [openFds_of_alive (hl.alive.2 hp)] at hi
    rw [openFds_of_alive hp]
    exact hused f hf i hi
  alive q _ hq := hl.alive.2 hq

theorem same (hl : SameLives k.core k'.core) (hp : Alive k.core p) (hh : Part.handles.Same k k')
    (hf : Part.fds.Same k k') : CallFiles p p k k' := by
  refine of_sameLives hl hp (.same hl (fun g _ => congrArg Handle.refcount (hh g)) hf) fun f _ i hi =>
    ⟨i, ?_⟩
  rwa [← show (k'.procs p).files = (k.procs p).files from hf p]

theorem opens (hl : SameLives k.core k'.core) (hp : Alive k.core p) (ho : Opens p k k') :
    CallFiles p p k k' := by
  have hrc : ∀ {i : Fin maxFiles}, freeFile k = some i →
      OnlyFile (.ftable i) (Function.update k.files (.ftable i) (k.files (.ftable i)).taken) k'.files →
      ∀ g ∈ inUse k, refcounts k' g = refcounts k g := by
    intro i hi honly g hg
    rw [honly.refcounts_eq hi, if_neg (ne_of_inUse hg (freeFile_refcount hi)), Nat.add_zero]
  cases ho with
  | none hfiles hfds => exact same hl hp (handles_same hfiles) hfds
  | lost hi honly hfds =>
    refine of_sameLives hl hp (.same hl (hrc hi honly) hfds) fun f _ i hi => ⟨i, ?_⟩
    rwa [← show (k'.procs p).files = (k.procs p).files from hfds p]
  | @opened i fd hi honly hfd hset =>
    have ht : TakesFd (.ftable i) (k.procs p).files (some fd) (k'.procs p).files := hset.own ▸ .some hfd
    refine of_sameLives hl hp (.of_alive hl hp hset.others fun g hg => ?_) fun f hf j hj =>
      ⟨j, used_takesFd ht hj (ne_of_inUse hf (freeFile_refcount hi))⟩
    rw [hrc hi honly g hg, count_takesFd ht, if_neg (ne_of_inUse hg (freeFile_refcount hi)), Nat.add_zero]

theorem closes (h : Tallied b k) (hl : SameLives k.core k'.core) (hp : Alive k.core p) (hc : ClosesFd p k k') :
    CallFiles p p k k' := by
  have hrc := h.recounts_closes hl hp hc
  refine of_sameLives hl hp ⟨hrc.fds, fun g hg => hrc.counts g hg.1⟩ fun f _ i hi => ?_
  cases hc with
  | none _ hfds _ => exact ⟨i, by rwa [← show (k'.procs p).files = (k.procs p).files from hfds p]⟩
  | @closed fd _ _ _ hset =>
    rw [hset.own] at hi
    by_cases hifd : i = fd
    · simp [hifd] at hi
    · exact ⟨i, by rwa [Function.update_of_ne hifd] at hi⟩

theorem dups (h : Tallied b k) (hl : SameLives k.core k'.core) (hp : Alive k.core p) (hd : Dups p k k') :
    CallFiles p p k k' := by
  have hrc := h.recounts_dups hl hp hd
  refine of_sameLives hl hp ⟨hrc.fds, fun g hg => hrc.counts g hg.1⟩ fun f _ i hi => ?_
  cases hd with
  | none _ hfds => exact ⟨i, by rwa [← show (k'.procs p).files = (k.procs p).files from hfds p]⟩
  | @copied j fd f' hj _ _ hset =>
    rw [hset.own] at hi
    by_cases hifd : i = fd
    · subst hifd
      obtain rfl : f' = f := by simpa using hi
      exact ⟨j, hj⟩
    · exact ⟨i, by rwa [Function.update_of_ne hifd] at hi⟩

theorem pipes {r : ℤ} (hl : SameLives k.core k'.core) (hp : Alive k.core p) (ho : PipeOpens p k k' r) :
    CallFiles p p k k' := by
  cases ho with
  | noPipe hfiles hfds _ | noFile _ _ hfiles hfds => exact same hl hp (handles_same hfiles) hfds
  | @oneFile i f0 _ hf0 _ hfiles hfds =>
    refine of_sameLives hl hp (.same hl (fun g hg => ?_) hfds) fun f _ i hi => ⟨i, ?_⟩
    · rw [refcounts, hfiles, Function.update_of_ne (ne_of_inUse hg (freeFile_refcount hf0)), ← refcounts]
    · rwa [← show (k'.procs p).files = (k.procs p).files from hfds p]
  | @ends i f0 f1 o0 o1 fds r _ hf0 hf1 _ _ hfiles ht0 ht1 hothers _ =>
    have h0 : ∀ g ∈ inUse k, g ≠ .ftable f0 := fun g hg => ne_of_inUse hg (freeFile_refcount hf0)
    have h1 : ∀ g ∈ inUse k, g ≠ .ftable f1 := fun g hg => ne_of_inUse hg (nextFreeFile_some hf1).2
    refine of_sameLives hl hp (.of_alive hl hp hothers fun g hg => ?_) fun f hf i hi =>
      ⟨i, used_takesFd ht0 (used_takesFd ht1 hi (h1 f hf)) (h0 f hf)⟩
    simp only [refcounts_ends hf0 hf1 hfiles, count_takesFd ht1, count_takesFd ht0,
      if_neg (h0 g hg), if_neg (h1 g hg),
      Nat.add_zero]

theorem forks (h : Tallied b k) (hs : Living k.core) (hcpu : k.core.cpuProc = some p) (hp : Alive k.core p)
    (hf : ForksFiles p k k') : ∃ s, freeSlot k = some s ∧ CallFiles p s k k' := by
  obtain ⟨s, hslot, hrc⟩ := h.recounts_forks hs hcpu hf
  have hdead : ¬Alive k.core s := fun hal => hs.standing s hal (.inr (freeSlot_ne hcpu hslot).2)
  refine ⟨s, hslot, .inr hdead, ⟨hrc.fds, fun g hg => hrc.counts g hg.1⟩,
    fun f hf' i hi => ?_, fun q _ hq => ?_⟩
  · cases hf with
    | @failed q born hslot' hb hstd _ _ _ _ =>
      obtain rfl : q = s := Option.some.inj (hslot'.symm.trans hslot)
      by_cases hborn : born = true
      · rw [openFds_of_alive ((hb.alive_self hs.numbered).2 hborn), hstd hborn] at hi
        exact absurd (count_pos hi) (by rw [stdFds_count hf'.1]; exact lt_irrefl 0)
      · rw [openFds_of_dead ((hb.alive_self hs.numbered).not.2 hborn)] at hi
        cases hi
    | @done q hslot' hb hown _ _ _ =>
      obtain rfl : q = s := Option.some.inj (hslot'.symm.trans hslot)
      rw [openFds_of_alive ((hb.alive_self hs.numbered).2 rfl), hown] at hi
      exact ⟨i, by rwa [openFds_of_alive hp]⟩
  · have hqs : q ≠ s := fun h => hdead (h ▸ hq)
    cases hf with
    | failed hslot' hb | done hslot' hb =>
      obtain rfl := Option.some.inj (hslot'.symm.trans hslot)
      exact (hb.alive_of_ne hqs).2 hq

theorem exits (h : Tallied b k) (hk : Calm p k) (hpar : (k.core.procs p).parent ≠ some p)
    (hp : Alive k.core p)
    (hd : Death p k.core k'.core) (he : procExit p k = .error .switch k') : CallFiles p p k k' := by
  have hrc := h.recounts_exits hk hpar hp hd he
  refine ⟨.inl rfl, ⟨hrc.fds, fun g hg => hrc.counts g hg.1⟩, fun f _ i hi => ?_,
    fun q hq => (hd.alive_of_ne hq).2⟩
  rw [openFds_of_dead hd.not_alive_self] at hi
  cases hi

end CallFiles

/-- What a call of a process that lives does to the files in use. -/
theorem call_files {c : Call} {how : How} (h : Tallied b k) (hs : Living k.core) (hk : Calm p k)
    (hcpu : k.core.cpuProc = some p) (hpar : (k.core.procs p).parent ≠ some p) (hp : Alive k.core p)
    (hc : ∀ pid fd, c ≠ .pipeattch pid fd) (hend : Ended (runCall p c k) how k')
    (he : CallEffect p k c how k'.core) : ∃ s, CallFiles p s k k' := by
  have hsame : c ≠ .fork → c ≠ .exit → SameLives k.core k'.core := fun hf hx => .call he hf hx
  have hother : Part.handles ∉ c.parts → Part.fds ∉ c.parts → c ≠ .fork → c ≠ .exit →
      ∃ s, CallFiles p s k k' :=
    fun hh hf hne hnx =>
      ⟨p, .same (hsame hne hnx) hp (hend.same (frame_runCall p c) hh) (hend.same (frame_runCall p c) hf)⟩
  cases c with
  | fork =>
    cases hend with
    | back hr =>
      obtain ⟨s, -, hs⟩ := CallFiles.forks h hs hcpu hp (procFork_ok hk hcpu hr)
      exact ⟨s, hs⟩
    | away _ => exact (he.not_away rfl (by simp) (by simp) (by simp)).elim
  | exit =>
    cases hend with
    | back hr => exact absurd hr procExit_ne_ok
    | away hr => exact ⟨p, .exits h hk hpar hp (.call he) hr⟩
  | «open» path =>
    cases hend with
    | back hr => exact ⟨p, .opens (hsame (by simp) (by simp)) hp (procOpen_ok hr)⟩
    | away _ => exact (he.not_away rfl (by simp) (by simp) (by simp)).elim
  | close fd =>
    cases hend with
    | back hr => exact ⟨p, .closes h (hsame (by simp) (by simp)) hp (procClose_ok hr)⟩
    | away _ => exact (he.not_away rfl (by simp) (by simp) (by simp)).elim
  | dup fd =>
    cases hend with
    | back hr => exact ⟨p, .dups h (hsame (by simp) (by simp)) hp (procDup_ok hr)⟩
    | away _ => exact (he.not_away rfl (by simp) (by simp) (by simp)).elim
  | pipe pipefd =>
    cases hend with
    | back hr => exact ⟨p, .pipes (hsame (by simp) (by simp)) hp (pipeOpen_ok hr)⟩
    | away _ => exact (he.not_away rfl (by simp) (by simp) (by simp)).elim
  | pipeattch pid fd => exact absurd rfl (hc pid fd)
  | _ => exact hother (by simp [Call.parts]) (by simp [Call.parts]) (by simp) (by simp)

end HobbyOs
