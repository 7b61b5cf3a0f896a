import HobbyOs.Argv
import HobbyOs.Failures

/-!
# Locks across system calls

All locks but that of the process on the CPU are free when user code runs, and
when a process is switched out. What a call may leave held when it returns is
the lock of its own process: `proc_execv` does it when it fails, and
`proc_pipeattch` when there is no file at the descriptor.

* `runCall_held_iff`: when the locks that are held at the return of a call are
  those that were held at its start;
* `locks_balanced_iff`: the same of `syscall`, and of the calls that block.
-/

namespace HobbyOs

open Outcome Transition

variable {cfg : Config} {α : Type} {p q : Slot cfg} {k k' : Kernel cfg} {m m' : Machine cfg} {n : ℤ}

/-! ## Code that gives its locks back -/

/-- When it returns, `c` holds the locks that it held before. -/
abbrev Balances (c : KM cfg α) : Prop := Restores (fun k : Kernel cfg => k.held) c

theorem balances_withLock {l : Lock cfg} {c : KM cfg α} (h : Balances c) : Balances (withLock l c) := by
  intro k a k' hlock
  obtain ⟨hl, t, hbody, rfl⟩ := withLock_eq_ok.1 hlock
  have ht : t.held = (k.setHeld l true).held := h _ _ _ hbody
  exact (congrArg (fun H : Lock cfg → Bool => Function.update H l false) ht).trans (update_held_self hl)

/-- Code that takes no lock. -/
theorem balances_of_still {c : KM cfg α} (h : Still ∅ c) : Balances c := by
  intro k a k' hc
  rcases h.result (k := k) (by simp) with ⟨_, _, hok, -, hheld⟩ | ⟨_, _, herr, -, -⟩
  · cases hc.symm.trans hok
    exact hheld
  · cases hc.symm.trans herr

theorem balances_kalloc {pid : ℕ} : Balances (kalloc pid : KM cfg _) := by
  refine balances_withLock (Restores.get.bind fun k => ?_)
  exact balances_of_still (still_takePage _)

theorem balances_releasePage {ptr : ℕ} : Balances (releasePage ptr : KM cfg _) :=
  balances_withLock (.modify fun _ => rfl)

/-! ## Calls that return -/

theorem balances_procOpen {path : ℕ} : Balances (procOpen p path) := by
  have hfsOpen : ∀ (f : FileRef) (s : List UInt8), Balances (fsOpen p f s) := by
    intro f s
    refine (balances_of_still still_bifsOpen).bind fun r => ?_
    cases r with
    | inl e => exact .pure
    | inr j =>
      refine Restores.bind (.modify fun _ => rfl) fun _ => Restores.get.bind fun k => ?_
      split
      · refine Restores.get.bind fun k => balances_kalloc.bind fun page => ?_
        cases page with
        | none => exact Restores.bind (.modify fun _ => rfl) fun _ => .pure
        | some page =>
          refine Restores.bind (.modify fun _ => rfl) fun _ => Restores.get.bind fun k => ?_
          split
          · refine Restores.bind (.modify fun _ => rfl) fun _ => ?_
            exact Restores.bind (.modify fun _ => rfl) fun _ => .pure
          · refine Restores.bind (.modify fun _ => rfl) fun _ =>
              Restores.bind (.modify fun _ => rfl) fun _ => ?_
            exact Restores.bind (.modify fun _ => rfl) fun _ => .pure
      · exact Restores.bind (.modify fun _ => rfl) fun _ => .pure
  refine Restores.get.bind fun k => ?_
  dsimp only
  split
  · exact balances_of_still (still_setErrno.bind fun _ => Still.pure _)
  refine Restores.bind
    (balances_withLock (Restores.get.bind fun k => balances_of_still (still_takeFile _))) fun f => ?_
  cases f with
  | none => exact balances_of_still (still_setErrno.bind fun _ => Still.pure _)
  | some f =>
    -- Inside the lock, each way out comes back to its release.
    refine balances_withLock ((balances_of_still still_fdAlloc).bind fun fd => ?_)
    cases fd with
    | none => exact balances_of_still (still_setErrno.bind fun _ => Still.pure _)
    | some fd =>
      refine (balances_of_still still_readString).bind fun s => (hfsOpen f s).bind fun status => ?_
      split
      · exact balances_of_still (still_setFd.bind fun _ => still_setErrno.bind fun _ => Still.pure _)
      · exact .pure

theorem balances_procDetach : Balances (procDetach p) := by
  refine Restores.get.bind fun k => ?_
  dsimp only
  split
  · exact .pure
  · refine Restores.bind (balances_withLock (.modify fun _ => rfl)) fun _ => ?_
    refine Restores.bind (balances_withLock (Restores.get.bind fun k => ?_)) fun _ => .pure
    split
    · exact .modify fun _ => rfl
    · exact .pure

theorem balances_procWait {cond : ℕ} : Balances (procWait p cond) := by
  have hpsleep : ∀ call : Kont cfg, Balances (psleep p call : KM cfg ℤ) := by
    intro call
    refine Restores.bind (.modify fun _ => rfl) fun _ => Restores.get.bind fun k => ?_
    exact Restores.bind (.modify fun _ => rfl) fun _ => .throw
  have hreap : ∀ q, Balances (reapSlot p .waitChild q) := by
    intro q
    refine Restores.get.bind fun k => ?_
    split
    · refine balances_withLock (Restores.get.bind fun k => ?_)
      dsimp only
      split
      · exact balances_releasePage.bind fun _ => Restores.bind (.modify fun _ => rfl) fun _ => .pure
      · exact .pure
    · exact .pure
  refine Restores.get.bind fun k => ?_
  dsimp only
  split
  · rw [procWaitByCond]
    split
    · exact balances_of_still (still_setErrno.bind fun _ => Still.pure _)
    refine Restores.get.bind fun k => ?_
    split
    · exact balances_of_still (still_setErrno.bind fun _ => Still.pure _)
    · exact Restores.bind (.modify fun _ => rfl) fun _ => hpsleep _
  · refine Restores.bind ((Restores.findSomeM hreap).bind fun _ => .pure) fun pid => ?_
    split
    · exact Restores.get.bind fun k => Restores.bind (.modify fun _ => rfl) fun _ => .pure
    · exact hpsleep _

/-- `proc_exit` does not return. -/
theorem procExit_not_ok : procExit p k ≠ .ok n k' := by
  intro h
  rw [procExit, get_bind_apply] at h
  obtain ⟨_, k₁, _, h⟩ := bind_eq_ok.1 h
  rw [get_bind_apply] at h
  obtain ⟨_, k₂, _, h⟩ := bind_eq_ok.1 h
  obtain ⟨_, k₃, _, h⟩ := bind_eq_ok.1 h
  rw [get_bind_apply] at h
  cases hparent : (k₃.procs p).parent with
  | none =>
    rw [hparent] at h
    cases h
  | some r =>
    rw [hparent] at h
    obtain ⟨_, k₄, _, h⟩ := bind_eq_ok.1 h
    obtain ⟨_, k₅, _, h⟩ := bind_eq_ok.1 h
    rw [leaveTable] at h
    cases hdir : (k₃.procs p).procfsDir with
    | none =>
      rw [hdir] at h
      cases h
    | some d =>
    cases hfile : (k₃.procs p).procfsNameFile with
    | none =>
      rw [hdir, hfile] at h
      cases h
    | some j =>
      rw [hdir, hfile] at h
      obtain ⟨_, _, _, h⟩ := bind_eq_ok.1 h
      obtain ⟨_, _, _, h⟩ := bind_eq_ok.1 h
      obtain ⟨_, _, _, h⟩ := bind_eq_ok.1 h
      obtain ⟨_, _, _, h⟩ := bind_eq_ok.1 h
      cases h

/-- `proc_fork` gives the lock of the child back. -/
theorem procFork_held (hk : Calm p k) (hcpu : k.core.cpuProc = some p) (h : procFork p k = .ok n k') :
    k'.held = k.held := by
  obtain ⟨q, status, k₁, hslot, hinit, hend⟩ := procFork_halves hk hcpu h
  obtain ⟨hqp, -⟩ := freeSlot_ne hcpu hslot
  have hfree : k.held (.proc q) = false := hk.free _ (proc_mem_others.2 hqp)
  have hheld : (k.forking p q).held = Function.update k.held (.proc q) true := rfl
  have ht : (k.forking p q).held .procTable = false := by
    rw [hheld, Function.update_of_ne (by simp)]
    exact hk.free _ (by simp)
  have hp : (k.forking p q).held .pagedMemory = false := by
    rw [hheld, Function.update_of_ne (by simp)]
    exact hk.free _ (by simp)
  have hres := initProc_result ht hp (q := q) k.trapFrame.pc none
  rw [hinit] at hres
  have hkept : k₁.held = (k.forking p q).held := by
    cases hres with
    | short _ _ hh => exact hh
    | full _ _ hh _ => exact hh
    | done _ hh _ => exact hh
  rcases hend with ⟨-, -, mem, rfl⟩ | ⟨-, hfork⟩
  · show Function.update k₁.held (.proc q) false = k.held
    rw [hkept, hheld]
    exact update_held_self hfree
  · rcases forkChild_result (p := p) (q := q)
      (hkept ▸ hp) with ⟨frame, k₂, hok, -, hh⟩ | ⟨e, k₂, herr, -⟩
    · cases hfork.symm.trans hok
      rw [hh, hkept, hheld]
      exact update_held_self hfree
    · cases hfork.symm.trans herr

/-! ## Calls that may keep a lock -/

/-- A call that is about to return gives back the lock of its process: `proc_execv`
    finds what it looks for, and `proc_pipeattch` finds a file. -/
def GivesBack (p : Slot cfg) (k : Kernel cfg) : Call → Prop
  | .execv filename _ => FindsProgram p k filename
  | .pipeattch _ fd => ∀ h : InFiles fd, (k.procs p).files ⟨fd.toNat, h.2⟩ ≠ none
  | _ => True

/-- All locks but those that were held. -/
theorem held_ne_of_kept (hl : k.held (.proc p) = false)
    (h : k'.held = Function.update k.held (.proc p) true) : k'.held ≠ k.held := by
  intro heq
  have hown := congrFun h (.proc p)
  rw [heq, hl, Function.update_self] at hown
  cases hown

theorem procExecv_held_iff (hk : Calm p k) {filename argv : ℕ} (h : procExecv p filename argv k = .ok n k') :
    k'.held = k.held ↔ FindsProgram p k filename := by
  obtain ⟨hl, ⟨hno, -, hkept⟩ | ⟨hfinds, j, prog, hj, hexec⟩⟩ := procExecv_returns h
  · exact iff_of_false (held_ne_of_kept hl hkept) hno
  · refine iff_of_true (funext fun l => ?_) hfinds
    obtain ⟨argc, r, k₂, -, -, hstarts, -⟩ := execProgram_ok hexec
    by_cases hown : l = .proc p
    · rw [hown, hl, hstarts.released]
    · -- The other locks are free before and after every call.
      have hres := procExecv_result hk filename argv
      rw [h] at hres
      cases hres with
      | back _ hfree _ => rw [hfree l hown, hk.free l hown]

theorem balances_attachPipe {f : FileRef} : Balances (attachPipe p q f) := by
  intro k a k' h
  cases hl : k.held (.proc q) with
  | true =>
    rw [attachPipe, bind_error (acquire_deadlock hl)] at h
    cases h
  | false =>
    obtain ⟨_, _, hok, hheld, -⟩ := attachPipe_result (p := p) (f := f) hl
    cases h.symm.trans hok
    exact hheld

/-- With the file there, `proc_pipeattch` gives the lock of its process back. -/
theorem attachFile_held {pid : ℕ} {f : FileRef} (h : attachFile p pid f k = .ok n k') :
    k'.held = Function.update k.held (.proc p) false := by
  rw [attachFile, modify_bind_apply, release, modify_bind_apply, get_bind_apply] at h
  cases hfind : findProcByPid (((k.setFile f { k.files f with
      refcount := u32 ((k.files f).refcount + 1) })).setHeld (.proc p) false) pid with
  | none =>
    rw [hfind] at h
    cases h
    rfl
  | some q =>
    rw [hfind] at h
    exact balances_attachPipe _ _ _ h

theorem procPipeattch_held_iff {pid : ℕ} {fd : ℤ} (h : procPipeattch p pid fd k = .ok n k') :
    k'.held = k.held ↔ ∀ hfd : InFiles fd, (k.procs p).files ⟨fd.toNat, hfd.2⟩ ≠ none := by
  rw [procPipeattch_eq] at h
  cases hl : k.held (.proc p) with
  | true =>
    rw [bind_error (acquire_deadlock hl)] at h
    cases h
  | false =>
  rw [bind_ok (acquire_ok hl)] at h
  by_cases hfd : InFiles fd
  · rw [bind_ok (fileOf_apply hfd)] at h
    cases hfile : (k.procs p).files ⟨fd.toNat, hfd.2⟩ with
    | none =>
      rw [show ((k.setHeld (.proc p) true).procs p).files ⟨fd.toNat, hfd.2⟩ = none from hfile] at h
      cases h
      exact iff_of_false (held_ne_of_kept hl rfl) fun hall => hall hfd hfile
    | some f =>
      rw [show ((k.setHeld (.proc p) true).procs p).files ⟨fd.toNat, hfd.2⟩ = some f from hfile] at h
      refine iff_of_true ?_ fun _ => by simp [hfile]
      exact (attachFile_held h).trans (update_held_self hl)
  · rw [bind_error (fileOf_outOfBounds hfd)] at h
    cases h

/-- When a call returns, the locks are as they were, but for the two calls that may
    keep the lock of their process. -/
theorem runCall_held_iff (hk : Calm p k) (hcpu : k.core.cpuProc = some p) {c : Call}
    (h : runCall p c k = .ok n k') : k'.held = k.held ↔ GivesBack p k c := by
  have hstill : ∀ {c : KM cfg ℤ}, Still (others p) c → c k = .ok n k' → k'.held = k.held := by
    intro c hc hok
    rcases hc.result hk.free with ⟨_, _, h', -, hheld⟩ | ⟨_, _, h', -, -⟩
    · cases hok.symm.trans h'
      exact hheld
    · cases hok.symm.trans h'
  have hyields : ∀ {c : KM cfg ℤ}, Yields p c → c k = .ok n k' → k'.held = k.held := by
    intro c hc hok
    have hres := hc k hk
    rw [hok] at hres
    cases hres with
    | ok _ hheld => exact hheld
  cases c with
  | execv filename argv => exact procExecv_held_iff hk h
  | pipeattch pid fd => exact procPipeattch_held_iff h
  | exit => exact absurd h procExit_not_ok
  | fork => exact iff_of_true (procFork_held hk hcpu h) trivial
  | read fd buf size => exact iff_of_true (hyields yields_procRead h) trivial
  | write fd buf size => exact iff_of_true (hyields yields_procWrite h) trivial
  | «open» path => exact iff_of_true (balances_procOpen _ _ _ h) trivial
  | close fd =>
    exact iff_of_true (hyields (.of_quiet (quiet_procClose (by simp) (by simp) (by simp))) h) trivial
  | wait cond => exact iff_of_true (balances_procWait _ _ _ h) trivial
  | getpid => exact iff_of_true (hstill (Still.get.bind fun _ => Still.pure _) h) trivial
  | dup fd => exact iff_of_true (hstill still_procDup h) trivial
  | pipe fds => exact iff_of_true (hstill (still_pipeOpen (by simp) (by simp) (by simp) (by simp)) h) trivial
  | sysinfo info => exact iff_of_true (hstill (still_procSysinfo (by simp) (by simp)) h) trivial
  | sleep ms => cases h
  | plist pids size => exact iff_of_true (hstill (still_procPlist (by simp)) h) trivial
  | pinfo pid pinfo => exact iff_of_true (hstill (still_procPinfo (by simp) (by simp)) h) trivial
  | pgalloc => exact iff_of_true (hstill (still_procPgalloc (by simp)) h) trivial
  | pgfree page => exact iff_of_true (hstill (still_procPgfree (by simp)) h) trivial
  | gpio pin enable value => exact iff_of_true (hstill (Still.pure _) h) trivial
  | detach => exact iff_of_true (balances_procDetach _ _ _ h) trivial
  | isopen fd => exact iff_of_true (hstill still_procIsopen h) trivial
  | lsdir dir dirents size => exact iff_of_true (hstill still_procLsdir h) trivial

/-! ## System calls -/

/-- A system call that returned made a call of the kernel that did, or none. -/
theorem syscall_ok (h : syscall p k = .ok () k') :
    (callOf k p = none ∧ k'.held = k.held) ∨
      ∃ c n k₁, callOf k p = some c ∧ runCall p c (k.entry p) = .ok n k₁ ∧ k'.held = k₁.held := by
  have hrun : syscall p k = (do
      if stackOverflow (← get) p then throw .hang
      syscallTail p (← dispatch p) : KM cfg Unit) (k.entry p) := rfl
  rw [hrun, get_bind_apply] at h
  by_cases ho : stackOverflow (k.entry p) p
  · rw [if_pos ho] at h
    cases h
  · rw [if_neg ho] at h
    obtain ⟨n, k₁, hdispatch, htail⟩ := bind_eq_ok.1 h
    have hheld : k'.held = k₁.held := balances_of_still (still_syscallTail n) _ _ _ htail
    rw [dispatch, get_bind_apply] at hdispatch
    rw [callOf, if_neg ho]
    cases hcall : decodeCall cfg k.trapFrame with
    | none =>
      have hnone : decodeCall cfg (k.entry p).trapFrame = none := hcall
      rw [hnone] at hdispatch
      cases hdispatch
      exact .inl ⟨rfl, hheld⟩
    | some c =>
      have hsome : decodeCall cfg (k.entry p).trapFrame = some c := hcall
      rw [hsome] at hdispatch
      exact .inr ⟨c, n, k₁, rfl, hdispatch, hheld⟩

/-- A system call returns with the locks that it was entered with, if and only if
    it gives back the lock of its process. When it blocks, the other locks are as
    they were, and so they are whenever the process runs again. -/
theorem locks_balanced_iff (h : Reach (machine cfg) free m) (hmode : m.mode = .user)
    (hp : m.k.cpuProc = some p) :
    (∀ k', syscall p (trap m) = .ok () k' →
      (k'.held = m.k.held ↔ ∀ c ∈ callOf (trap m) p, GivesBack p ((trap m).entry p) c)) ∧
    (∀ k', syscall p (trap m) = .error .switch k' → ∀ l ≠ .proc p, k'.held l = m.k.held l) ∧
    ∀ m', Reach (machine cfg) free m' → m'.mode = .user → m'.k.cpuProc = some p →
      ∀ l ≠ .proc p, m'.k.held l = m.k.held l := by
  have hat := (base_of_reach h).at_
  rw [hmode] at hat
  obtain ⟨p', hp', hfree⟩ := hat
  obtain rfl : p' = p := Option.some.inj (hp'.cpu.symm.trans hp)
  have hcalm : Calm p' (trap m) := by
    refine ⟨hfree, ?_⟩
    rw [show (trap m).core = m.k.core from rfl, hp'.running]
    decide
  -- In user mode all locks but that of the process are free, whatever happened before.
  refine ⟨fun k' hk' => ?_, fun k' hk' l hl => ?_, fun m' hm' hmode' hp'' l hl => ?_⟩
  · rcases syscall_ok hk' with ⟨hnone, hheld⟩ | ⟨c, n, k₁, hc, hrun, hheld⟩
    · rw [hnone]
      exact iff_of_true hheld (by simp)
    · rw [hheld, hc]
      simp only [Option.mem_def, Option.some.injEq, forall_eq']
      exact runCall_held_iff (k := (trap m).entry p') ⟨hcalm.free, hcalm.awake⟩ hp'.cpu hrun
  · have hres := syscall_result hcalm hp'.cpu ((base_of_reach h).lineal p')
    rw [hk'] at hres
    cases hres with
    | away _ hothers _ => rw [hothers l hl, hfree l hl]
    | halt he _ _ _ => cases he
  · have hat' := (base_of_reach hm').at_
    rw [hmode'] at hat'
    obtain ⟨q, hq, hfree'⟩ := hat'
    obtain rfl : q = p' := Option.some.inj (hq.cpu.symm.trans hp'')
    rw [hfree' l hl, hfree l hl]

/-- The first process is about to run a program that is not there. -/
def runNothing : List (Event .qemuE) :=
  [Event.kernel, .kernel, .exec (callRegs 0x80003ff0 11 0x80001c20 0x80001c10 0)
    [(0x80001c20, ascii "nothing" ++ [0])]]

theorem failed_execv_keeps_lock :
    ¬∀ (m : Machine .qemuE) (p : Slot .qemuE) (k' : Kernel .qemuE), Reach (machine .qemuE) free m →
      m.mode = .user → m.k.cpuProc = some p → syscall p (trap m) = .ok () k' → k'.held = m.k.held := by
  obtain ⟨m, hm, hmode, hcpu, hret, hfree, hkept⟩ : ∃ m ∈ runFrom .qemuE runNothing, m.mode = .user ∧
      m.k.cpuProc = some ⟨0, by decide⟩ ∧ value (syscall ⟨0, by decide⟩ (trap m)) = some () ∧
      m.k.held (.proc ⟨0, by decide⟩) = false ∧
      (final (syscall ⟨0, by decide⟩ (trap m))).held (.proc ⟨0, by decide⟩) = true := by
    decide +kernel
  obtain ⟨k', hret⟩ := value_eq_some hret
  intro hall
  rw [hret, final_ok, hall m _ k' (reach_of_runFrom hm) hmode hcpu hret, hfree] at hkept
  cases hkept

/-- It is about to ask for its pid. -/
def askPid : List (Event .qemuE) := [.kernel, .kernel, .exec (callRegs 0x80003ff0 20 0 0 0) []]

theorem getpid_balanced : ∃ (m : Machine .qemuE) (k' : Kernel .qemuE), Reach (machine .qemuE) free m ∧
    syscall ⟨0, by decide⟩ (trap m) = .ok () k' ∧ k'.held = m.k.held := by
  obtain ⟨m, hm, hmode, hcpu, hret, hcall⟩ : ∃ m ∈ runFrom .qemuE askPid, m.mode = .user ∧
      m.k.cpuProc = some ⟨0, by decide⟩ ∧ value (syscall ⟨0, by decide⟩ (trap m)) = some () ∧
      (callOf (trap m) ⟨0, by decide⟩).map (fun c => c matches .getpid) = some true := by
    decide +kernel
  obtain ⟨k', hret⟩ := value_eq_some hret
  refine ⟨m, k', reach_of_runFrom hm, hret,
    ((locks_balanced_iff (reach_of_runFrom hm) hmode hcpu).1 k' hret).2 fun c hc => ?_⟩
  rw [Option.mem_def.1 hc] at hcall
  cases c <;> first | trivial | cases hcall

end HobbyOs
