import HobbyOs.InUse
import HobbyOs.Memory
import HobbyOs.Wiring

/-!
# A pipeline on the machine

The machine on which a shell starts a chain of commands: some of its processes, the
shell and the children it forks, run the code of `traverse` (`shell.c`), and the others
run any code. The events are those of the machine; so timer interrupts and the
scheduler decide how the processes of the pipeline take turns.

* `pipeline`: a process of the pipeline makes the calls of its code, and goes on with
  what is in its registers and in its memory then, also when a `pipe` or a `fork` fails.
  A process that is done, in the shell with `traverse` and in a child with all up to
  `execv`, may call what it likes; it leaves the pipeline when it opens or closes files,
  forks or exits.
* `Started`: the shell and its children at any moment. `Joined`: the counters of the
  ends of the pipes, as long as no child has left the pipeline.
* `pipeline_wired`: in every run in which no `pipe` and no `fork` of the chain has failed
  and nobody calls `pipeattch`, for every order in which the processes take turns, the
  commands are joined by the pipes, and none holds an end but the two it should.
-/

namespace HobbyOs.Shell

open Outcome Transition References

variable {cfg : Config} {p q s : Slot cfg} {k k' : Kernel cfg} {m' : Machine cfg} {c : Option Call}

/-! ## The system -/

/-- The machine, with the code of the processes of the pipeline, the commands of the children by
    depth, and the ends of the pipes, as the shell was given them; and whether one of the calls
    for them has failed. -/
structure World (cfg : Config) where
  m : Machine cfg
  code : Slot cfg → Option (Code (Option Fd))
  command : Slot cfg → Option ℕ
  ends : Ends
  failed : Bool

/-- `uint32_t pid = fork()`: `-1`, or a number. -/
def forkAnswer (a0 : ℕ) : Option ℕ := if a0 % 2 ^ 32 = noPid then none else some (a0 % 2 ^ 32)

/-- A word as a descriptor. -/
def fdOf (n : ℕ) : Option Fd := (List.finRange maxProcFds).find? fun fd => fd.val = n

/-- `pipefd` of the process, after `pipe`. -/
def readPipefd (k : Kernel cfg) (p : Slot cfg) (pipefd : ℕ) : Option (Fd × Fd) :=
  let pa := va2pa k (k.procs p).upagetable pipefd
  (fdOf (loadWord k.mem pa 4)).bind fun fd0 => (fdOf (loadWord k.mem (pa + 4) 4)).map fun fd1 => (fd0, fd1)

/-- The file objects of two descriptors. -/
def filesAt (T : Fds) (pipefd : Fd × Fd) : Option (FileRef × FileRef) :=
  (T pipefd.1).bind fun r => (T pipefd.2).map fun e => (r, e)

/-- The code has come to its end, or to `execv`. -/
def Code.isOver {α : Type} : Code α → Bool
  | .ret _ | .execv _ => true
  | _ => false

namespace World

variable (w : World cfg)

/-- The process `p` goes on with `code`. -/
def goesOn (m' : Machine cfg) (p : Slot cfg) (code : Option (Code (Option Fd))) : World cfg :=
  { w with m := m', code := Function.update w.code p code }

/-- The shell has made the pipe of the command at `depth`. -/
def pipes (m' : Machine cfg) (p : Slot cfg) (depth : ℕ) (code : Code (Option Fd)) (pipefd : Fd × Fd) :
    World cfg :=
  { w.goesOn m' p (some code) with ends := Function.update w.ends depth (filesAt (m'.k.procs p).files pipefd) }

/-- `pipe` or `fork` has returned `-1`. -/
def fails (m' : Machine cfg) (p : Slot cfg) (code : Code (Option Fd)) : World cfg :=
  { w.goesOn m' p (some code) with failed := true }

/-- The shell has forked the process `q` for the command at `depth`, which goes on with what is in
    its own `a0`. When its number is `0` after all, the shell takes itself for the child. -/
def forks (m' : Machine cfg) (p q : Slot cfg) (depth pid : ℕ) (next : Option ℕ → Code (Option Fd)) :
    World cfg where
  m := m'
  code := Function.update (Function.update w.code p (some (next (some pid)))) q
    (some (next (forkAnswer ((m'.k.procs q).trap.regs TrapFrame.a0))))
  command := Function.update w.command q (some depth)
  ends := w.ends
  failed := w.failed || pid = 0

/-- The process `p` has made the call `c`, or one that there is not. -/
def call (m' : Machine cfg) (p : Slot cfg) (c : Option Call) : Option (World cfg) :=
  match w.code p with
  | none => some { w with m := m' }
  | some (.ret _) | some (.execv _) =>
    some (if c.any Call.isFileCall then w.goesOn m' p none else { w with m := m' })
  | some (.close fd next) =>
    match c with
    | some (.close n) => if n = fd ∧ m'.mode = .user then some (w.goesOn m' p (some next)) else none
    | _ => none
  | some (.dup fd next) =>
    match c with
    | some (.dup n) => if n = fd ∧ m'.mode = .user then some (w.goesOn m' p (some next)) else none
    | _ => none
  | some (.pipe depth next) =>
    match c with
    | some (.pipe pipefd) =>
      if m'.mode = .user then
        if m'.hart.regs TrapFrame.a0 = cfg.reg (-1) then some (w.fails m' p (next none))
        else (readPipefd m'.k p pipefd).map fun fds => w.pipes m' p depth (next (some fds)) fds
      else none
    | _ => none
  | some (.fork depth next) =>
    match c with
    | some .fork =>
      if m'.mode = .user then
        match forkAnswer (m'.hart.regs TrapFrame.a0), freeSlot w.m.k with
        | none, _ => some (w.fails m' p (next none))
        | some pid, some q => some (w.forks m' p q depth pid next)
        | some _, none => none
      else none
    | _ => none
  | some (.prints _ next) =>
    match c with
    | some (.write fd _ _) => if fd = 1 then some (w.goesOn m' p (some next)) else none
    | _ => none
  | some .null => none

/-- The machine has moved to `m'`. -/
def next (e : Event cfg) (m' : Machine cfg) : Option (World cfg) :=
  match e with
  | .ecall =>
    match w.m.k.cpuProc with
    | none => some { w with m := m' }
    | some p => w.call m' p (callOf (trap w.m) p)
  | _ => some { w with m := m' }

end World

/-- `pipeattch`, by which a process gets a descriptor from another one. -/
def isAttach : Call → Bool
  | .pipeattch _ _ => true
  | _ => false

/-- The call is made by a process that lives, and is not `pipeattch`. -/
def Unattached (p : Slot cfg) (k : Kernel cfg) (c : Call) : Prop := Alive k.core p ∧ isAttach c = false

instance (p : Slot cfg) (k : Kernel cfg) (c : Call) : Decidable (Unattached p k c) :=
  inferInstanceAs (Decidable (_ ∧ _))

/-- The process `p` is about to start the chain, with the descriptors `T₀`, just the standard ones. -/
structure Begins (chain : List (List String)) (p : Slot cfg) (T₀ : Fds) (w : World cfg) : Prop where
  reach : Reach (machine cfg) (OnCall Orderly) w.m
  running : ∀ why, w.m.mode ≠ .halted why
  alive : Alive w.m.k.core p
  files : (w.m.k.procs p).files = T₀
  std : ∀ fd, T₀ fd ≠ none ↔ fd < 3
  code : w.code = Function.update (fun _ => none) p (some (Code.traverse chain 0))
  ends : w.ends = fun _ => none
  ok : w.failed = false

/-- The system of a pipeline. -/
def pipeline (cfg : Config) : System (World cfg) (Event cfg) where
  init := {w | ∃ chain p T₀, Begins chain p T₀ w}
  step e w := (step e w.m).bind (w.next e)

/-! ## Steps -/

/-- What a call does to the pipeline. -/
inductive Moves (w : World cfg) (m' : Machine cfg) (p : Slot cfg) : Option Call → World cfg → Prop
  /-- The process is not of the pipeline. -/
  | other {c : Option Call} : w.code p = none → Moves w m' p c { w with m := m' }
  | finished {c : Option Call} {code : Code (Option Fd)} : w.code p = some code → code.isOver = true →
      c.any Call.isFileCall = false → Moves w m' p c { w with m := m' }
  | leaves {c : Option Call} {code : Code (Option Fd)} : w.code p = some code → code.isOver = true →
      c.any Call.isFileCall = true → Moves w m' p c (w.goesOn m' p none)
  | close {fd : Fd} {next : Code (Option Fd)} : w.code p = some (.close fd next) → m'.mode = .user →
      Moves w m' p (some (.close fd)) (w.goesOn m' p (some next))
  | dup {fd : Fd} {next : Code (Option Fd)} : w.code p = some (.dup fd next) → m'.mode = .user →
      Moves w m' p (some (.dup fd)) (w.goesOn m' p (some next))
  | pipe {depth pipefd : ℕ} {next : Option (Fd × Fd) → Code (Option Fd)} {fds : Fd × Fd} :
      w.code p = some (.pipe depth next) → m'.mode = .user → m'.hart.regs TrapFrame.a0 ≠ cfg.reg (-1) →
      readPipefd m'.k p pipefd = some fds →
      Moves w m' p (some (.pipe pipefd)) (w.pipes m' p depth (next (some fds)) fds)
  | fork {depth pid : ℕ} {next : Option ℕ → Code (Option Fd)} {q : Slot cfg} :
      w.code p = some (.fork depth next) → m'.mode = .user →
        forkAnswer (m'.hart.regs TrapFrame.a0) = some pid →
      pid ≠ 0 → freeSlot w.m.k = some q → Moves w m' p (some .fork) (w.forks m' p q depth pid next)
  | prints {fd buf size : ℕ} {text : String} {next : Code (Option Fd)} :
      w.code p = some (.prints text next) →
      Moves w m' p (some (.write fd buf size)) (w.goesOn m' p (some next))
  | fails {c : Option Call} {w' : World cfg} : w'.m = m' → w'.failed = true → Moves w m' p c w'

theorem World.moves {w w' : World cfg} (h : w.call m' p c = some w') : Moves w m' p c w' := by
  rw [World.call] at h
  -- The branches of `World.call`, one for each kind of code that the process has.
  split at h
  · rename_i hcode
    cases h
    exact .other hcode
  · rename_i a hcode
    cases h
    split_ifs with hc
    · exact .leaves hcode rfl hc
    · exact .finished hcode rfl (by simpa using hc)
  · rename_i a hcode
    cases h
    split_ifs with hc
    · exact .leaves hcode rfl hc
    · exact .finished hcode rfl (by simpa using hc)
  · rename_i fd next hcode
    split at h
    · split_ifs at h with hn
      obtain ⟨rfl, huser⟩ := hn
      cases h
      exact .close hcode huser
    · cases h
  · rename_i fd next hcode
    split at h
    · split_ifs at h with hn
      obtain ⟨rfl, huser⟩ := hn
      cases h
      exact .dup hcode huser
    · cases h
  · rename_i depth next hcode
    split at h
    · split_ifs at h with huser ha0
      · cases h
        exact .fails rfl rfl
      · obtain ⟨fds, hfds, rfl⟩ := Option.map_eq_some_iff.1 h
        exact .pipe hcode huser ha0 hfds
    · cases h
  · rename_i depth next hcode
    split at h
    · split_ifs at h with huser
      split at h
      · cases h
        exact .fails rfl rfl
      · rename_i pid q hpid hq
        cases h
        by_cases h0 : pid = 0
        · exact .fails rfl (by simp [World.forks, h0])
        · exact .fork hcode huser hpid h0 hq
      · cases h
    · cases h
  · rename_i text next hcode
    split at h
    · split_ifs at h
      cases h
      exact .prints hcode
    · cases h
  · cases h

/-! ## Files and lives -/

/-- Lives, descriptors and counters are as they were. -/
structure SameFiles (k k' : Kernel cfg) : Prop where
  alive : ∀ q, Alive k'.core q ↔ Alive k.core q
  fds : ∀ q, (k'.procs q).files = (k.procs q).files
  counts : refcounts k' = refcounts k

namespace SameFiles

theorem of_same (hl : SameLives k.core k'.core) (hh : Part.handles.Same k k') (hf : Part.fds.Same k k') :
    SameFiles k k' :=
  ⟨fun _ => hl.alive, hf, funext fun f => congrArg Handle.refcount (hh f)⟩

theorem openFds_eq (h : SameFiles k k') : openFds k' = openFds k := by
  funext q
  simp only [openFds, h.alive, h.fds]

theorem inUse_eq (h : SameFiles k k') : inUse k' = inUse k := by
  simp only [inUse, h.counts]

/-- A call without an effect on files. -/
theorem quiet (h : SameFiles k k') : CallFiles p p k k' where
  slot := .inl rfl
  recounts := ⟨by rw [h.openFds_eq, Function.update_eq_self], fun g _ => by rw [h.counts, h.openFds_eq]⟩
  used f _ i hi := ⟨i, by rwa [h.openFds_eq] at hi⟩
  alive q _ hq := (h.alive q).2 hq

/-- What a call does, when it is entered and left without an effect on files. -/
theorem callFiles {k₀ k₁ : Kernel cfg} (h₀ : SameFiles k k₀) (h : CallFiles p s k₀ k₁)
    (h₁ : SameFiles k₁ k') :
    CallFiles p s k k' where
  slot := h.slot.imp_right fun hs => (h₀.alive s).not.1 hs
  recounts := by
    have hrc := h.recounts
    rw [h₀.inUse_eq] at hrc
    refine ⟨?_, fun g hg => ?_⟩
    · rw [h₁.openFds_eq, hrc.fds, h₀.openFds_eq, Function.update_self]
    · have hg := hrc.counts g hg
      rwa [← h₁.counts, ← h₁.openFds_eq, h₀.counts, h₀.openFds_eq] at hg
  used f hf i hi := by
    rw [h₁.openFds_eq] at hi
    rw [← h₀.inUse_eq] at hf
    have hused := h.used f hf i hi
    rwa [h₀.openFds_eq] at hused
  alive q hq hal := (h₁.alive q).2 (h.alive q hq ((h₀.alive q).2 hal))

end SameFiles

/-- Where the call was entered. -/
theorem sameFiles_entry {m : Machine cfg} : SameFiles m.k ((trap m).entry p) :=
  ⟨fun _ => .rfl, fun _ => rfl, rfl⟩

/-- The processes other than the caller keep what they have open. -/
theorem fds_of_callFiles (h : CallFiles p s k k') (hq : Alive k.core q) (hqp : q ≠ p) :
    (k'.procs q).files = (k.procs q).files := by
  have hqs : q ≠ s := by
    rintro rfl
    exact h.slot.elim hqp fun hd => hd hq
  have hopen := congrFun h.recounts.fds q
  rwa [Function.update_of_ne hqs, openFds_of_alive hq, openFds_of_alive (h.alive q hqp hq)] at hopen

/-! ## Calls -/

/-- A call that has come to an end: what it has left of files is what there is afterwards. -/
theorem sameFiles_ended {m : Machine cfg} {c : Call} {how : How} {k₁ : Kernel cfg}
    (h : CallEnds m p c how k₁) :
    SameFiles k₁ (ecallStep m).k := by
  refine .of_same ?_ (h.same .handles) (h.same .fds)
  rw [h.core]
  exact .after .refl

theorem tidy_entry {m : Machine cfg} (h : Tidy m.k) : Tidy ((trap m).entry p) :=
  h.same .refl .refl (fun _ => rfl) fun _ => rfl

/-- What a call of a process that lives does to the files in use. -/
theorem callFiles_of_callEnds {m : Machine cfg} {c : Call} {how : How} {k₁ : Kernel cfg}
    (hb : Base m) (ht : Tidy m.k)
    (h : CallEnds m p c how k₁) (hc : Unattached p ((trap m).entry p) c) :
    ∃ s, CallFiles p s m.k (ecallStep m).k := by
  obtain ⟨b, htallied⟩ := (tidy_entry (p := p) ht).tallied
  have hattach : ∀ pid fd, c ≠ .pipeattch pid fd := by
    rintro pid fd rfl
    exact absurd hc.2 (by simp [isAttach])
  obtain ⟨s, hs⟩ := call_files htallied (tidy_entry ht).living h.calm h.onCpu.cpu (hb.lineal p) hc.1
    hattach h.ended h.effect
  exact ⟨s, sameFiles_entry.callFiles hs (sameFiles_ended h)⟩

/-- A call that is not about files leaves these alone. -/
theorem sameFiles_of_quiet {m : Machine cfg} {c : Call} {how : How} {k₁ : Kernel cfg}
    (h : CallEnds m p c how k₁)
    (hc : c.isFileCall = false) : SameFiles m.k (ecallStep m).k := by
  have hparts : Part.handles ∉ c.parts ∧ Part.fds ∉ c.parts := by
    cases c <;> simp_all [Call.isFileCall, Call.parts]
  have hfork : c ≠ .fork := by
    rintro rfl
    cases hc
  have hexit : c ≠ .exit := by
    rintro rfl
    cases hc
  have hl : SameLives ((trap m).entry p).core k₁.core := .call h.effect hfork hexit
  have hquiet : SameFiles ((trap m).entry p) k₁ :=
    .of_same hl (h.ended.same (frame_runCall p c) hparts.1) (h.ended.same (frame_runCall p c) hparts.2)
  have hend := sameFiles_ended h
  exact ⟨fun q => (hend.alive q).trans (hquiet.alive q), fun q => (hend.fds q).trans (hquiet.fds q),
    hend.counts.trans hquiet.counts⟩

/-- A step that no call is made in leaves files alone. -/
theorem sameFiles_of_aside {m : Machine cfg} {e : Event cfg} (hs : KernelStep m e k')
    (he : ∀ p, e = .ecall → m.k.cpuProc = some p → callOf (trap m) p = none) : SameFiles m.k k' := by
  cases hs with
  | aside hsame ha => exact .of_same ha.sameLives (hsame .handles) (hsame .fds)
  | plic _ _ hsame hw => exact .of_same (.wakes hw) (hsame .handles (by simp)) (hsame .fds (by simp))
  | resume _ _ hend he' hsame hcore _ =>
    refine .of_same ?_ ((same_resumed hend (by simp [resumeParts])).trans (hsame .handles))
      ((same_resumed hend (by simp [resumeParts])).trans (hsame .fds))
    rw [hcore]
    exact .after (.resume he')
  | call hp _ hc _ _ _ _ =>
    rw [he _ rfl hp.cpu] at hc
    cases hc

/-! ### The calls of the pipeline -/

/-- `-1` in a register. -/
theorem forkAnswer_neg_one (hx : 32 ≤ cfg.xlen) : forkAnswer (cfg.reg (-1)) = none := by
  have hmod : cfg.reg (-1) % 2 ^ 32 = noPid := by
    have hdvd : ((2 : ℤ) ^ 32) ∣ 2 ^ cfg.xlen := pow_dvd_pow 2 hx
    have hpos : (0 : ℤ) < 2 ^ cfg.xlen := Int.pow_pos (by decide)
    have hnat : ((cfg.reg (-1) : ℕ) : ℤ) = -1 % 2 ^ cfg.xlen :=
      Int.toNat_of_nonneg (Int.emod_nonneg _ hpos.ne')
    have hint : ((cfg.reg (-1) : ℕ) : ℤ) % 2 ^ 32 = -1 % 2 ^ 32 := by rw [hnat, Int.emod_emod_of_dvd _ hdvd]
    show cfg.reg (-1) % 2 ^ 32 = 2 ^ 32 - 1
    omega
  rw [forkAnswer, if_pos hmod]

theorem fdOf_val (fd : Fd) : fdOf fd = some fd :=
  Outcome.find_finRange_eq_some.2 ⟨by simp, fun y hy => by simpa [Fin.ext_iff] using hy.ne⟩

/-- What the process reads when two words have been stored. -/
theorem readPipefd_stored {pipefd : ℕ} {fd0 fd1 : Fd} {mem : ℕ → UInt8}
    (hmem : k.mem = storeBytes mem (va2pa k (k.procs p).upagetable pipefd)
      (bytesOfWord fd0 4 ++ bytesOfWord fd1 4)) :
    readPipefd k p pipefd = some (fd0, fd1) := by
  have hstored :=
    stored_storeBytes mem (va2pa k (k.procs p).upagetable pipefd) (bytesOfWord fd0 4 ++ bytesOfWord fd1 4)
  rw [← hmem] at hstored
  have hsecond := hstored.right.loadWord
  rw [length_bytesOfWord] at hsecond
  have hsmall : ∀ fd : Fd, fd.val % 256 ^ 4 = fd.val := fun fd =>
    Nat.mod_eq_of_lt (fd.isLt.trans (by decide))
  rw [readPipefd, hstored.left.loadWord, hsecond, hsmall, hsmall, fdOf_val, fdOf_val]
  rfl

/-- The pipe with the ends `r` and `e` was opened on the descriptors `fds`. -/
structure NewPipe (p : Slot cfg) (k k' : Kernel cfg) (fds : Fd × Fd) (r e : FileRef) : Prop where
  table : Fds.openPipe (k.procs p).files (some (r, e)) = (some fds, (k'.procs p).files)
  ne : r ≠ e
  reading : r ∈ entries ∧ refcounts k r = 0
  writing : e ∈ entries ∧ refcounts k e = 0
  recounts : Recounts entries p k k'
  alive : Alive k'.core p
  call : CallFiles p p k k'

theorem newPipe {m : Machine cfg} {pipefd : ℕ} {fds : Fd × Fd} (hb : Base m) (hmode : m.mode = .user)
    (hcpu : m.k.cpuProc = some p) (hcall : callOf (trap m) p = some (.pipe pipefd)) (hp : Alive m.k.core p)
    (huser : (ecallStep m).mode = .user) (ha0 : (ecallStep m).hart.regs TrapFrame.a0 ≠ cfg.reg (-1))
    (hfds : readPipefd (ecallStep m).k p pipefd = some fds) :
    ∃ r e, NewPipe p m.k (ecallStep m).k fds r e := by
  obtain ⟨ret, k₁, hends, hrun, heq⟩ := ecall_returned hb hmode hcpu hcall huser
  have hrun : pipeOpen p pipefd ((trap m).entry p) = .ok ret k₁ := hrun
  have hl : SameLives ((trap m).entry p).core k₁.core := .call hends.effect (by simp) (by simp)
  obtain ⟨a, ha, htable, htells⟩ := pipeOpen_fds hrun
  have hopens := pipeOpen_ok hrun
  rcases ho : Fds.openPipe (((trap m).entry p).procs p).files a with ⟨o, T'⟩
  rw [ho] at htable htells
  cases htells with
  | failed =>
    rw [heq] at ha0
    exact absurd (by simp [TrapFrame.set]) ha0
  | @opened fd0 fd1 mem _ hmem =>
    -- What the shell reads from memory is what `pipe_open` has stored there.
    have hread : readPipefd (ecallStep m).k p pipefd = some (fd0, fd1) := by
      rw [heq]
      exact readPipefd_stored hmem
    obtain rfl : (fd0, fd1) = fds := Option.some.inj (hread.symm.trans hfds)
    cases a with
    | none => cases ho
    | some x =>
      obtain ⟨f0, f1, hf0, hf1, rfl⟩ := ha x rfl
      obtain ⟨hne, hzero⟩ := nextFreeFile_some hf1
      have hsame : SameFiles k₁ (ecallStep m).k := sameFiles_ended hends
      have hrc := recounts_pipes hl hp hopens
      refine ⟨_, _, ?_, by
        simpa using hne.symm, ⟨⟨f0, rfl⟩, freeFile_refcount hf0⟩,
        ⟨⟨f1, rfl⟩, hzero⟩, ?_, ?_, ?_⟩
      · rw [hsame.fds, ← htable]
        exact ho
      · refine ⟨?_, fun g hg => ?_⟩
        · rw [hsame.openFds_eq, hrc.fds, Function.update_self]
          rfl
        · rw [hsame.counts, hsame.openFds_eq]
          exact hrc.counts g hg
      · exact (hsame.alive p).2 (hl.alive.2 hp)
      · exact sameFiles_entry.callFiles (.pipes hl hp hopens) hsame

/-- The child `q` of `p` was made. -/
structure NewChild (p q : Slot cfg) (k k' : Kernel cfg) : Prop where
  parent : Alive k'.core p
  dead : ¬Alive k.core q
  alive : Alive k'.core q
  fds : (k'.procs q).files = (k.procs p).files
  a0 : (k'.procs q).trap.regs TrapFrame.a0 = 0
  call : CallFiles p q k k'

theorem newChild {m : Machine cfg} {pid : ℕ} (hx : 32 ≤ cfg.xlen) (hb : Base m) (ht : Tidy m.k)
    (hmode : m.mode = .user)
    (hcpu : m.k.cpuProc = some p) (hcall : callOf (trap m) p = some .fork) (hp : Alive m.k.core p)
    (huser : (ecallStep m).mode = .user) (hpid : forkAnswer ((ecallStep m).hart.regs TrapFrame.a0) = some pid)
    (hslot : freeSlot m.k = some q) : NewChild p q m.k (ecallStep m).k := by
  obtain ⟨ret, k₁, hends, hrun, heq⟩ := ecall_returned hb hmode hcpu hcall huser
  have hrun : procFork p ((trap m).entry p) = .ok ret k₁ := hrun
  have hret : ret ≠ -1 := by
    rintro rfl
    rw [heq, show (k₁.trapFrame.set TrapFrame.a0 (cfg.reg (-1))).regs TrapFrame.a0 = cfg.reg (-1) by
      simp [TrapFrame.set],
      forkAnswer_neg_one hx] at hpid
    cases hpid
  have hslot' : freeSlot ((trap m).entry p) = some q := hslot
  have htidy := tidy_entry (p := p) ht
  obtain ⟨b, htallied⟩ := htidy.tallied
  obtain ⟨q', hq', hbirth, hcopies, ha0⟩ := procFork_done hends.calm hends.onCpu.cpu hrun hret
  obtain rfl : q = q' := Option.some.inj (hslot'.symm.trans hq')
  obtain ⟨s, hs, hfiles⟩ :=
    CallFiles.forks htallied htidy.living hends.onCpu.cpu hp (procFork_ok hends.calm hends.onCpu.cpu hrun)
  obtain rfl : q = s := Option.some.inj (hslot'.symm.trans hs)
  have hsame := sameFiles_ended hends
  refine ⟨?_, fun hal => ?_, (hsame.alive q).2 ((hbirth.alive_self htidy.living.numbered).2 rfl), ?_, ?_,
    sameFiles_entry.callFiles hfiles hsame⟩
  · exact (hsame.alive p).2 ((hbirth.alive_of_ne (freeSlot_ne hends.onCpu.cpu hslot').1.symm).2 hp)
  · exact ht.living.standing q hal (.inr (freeSlot_ne hends.onCpu.cpu hslot').2)
  · rw [hsame.fds]
    exact hcopies.own
  · rw [heq]
    exact ha0

/-! ## The processes of the pipeline -/

/-- The shell, and the children for the commands from `todo` on. -/
structure Started (chain : List (List String)) (p : Slot cfg) (T₀ : Fds) (w : World cfg) (todo : ℕ) :
    Prop where
  lives : ∀ q, w.code q ≠ none → Alive w.m.k.core q
  shell : ∀ c ∈ w.code p, Safe chain T₀ c (w.m.k.procs p).files w.ends todo
  gone : w.code p = none → todo = 0
  child : ∀ q ≠ p, ∀ c ∈ w.code q, ∃ d ∈ w.command q, ∃ args,
    todo ≤ d ∧ chain[d]? = some args ∧
    Piped w.ends chain.length d ∧ c.exec (w.m.k.procs q).files =
    some (wiring T₀ w.ends chain.length d, args)
  single : ∀ q ≠ p, ∀ q' ≠ p, w.code q ≠ none → w.code q' ≠ none →
    w.command q = w.command q' → q = q'
  range : ∀ d, w.ends d ≠ none → 0 < d ∧ d < chain.length

/-- The reading end of the pipe at a depth, or the writing end. -/
def endAt (ends : Ends) (x : ℕ × Bool) : Option FileRef := (ends x.1).map fun e => if x.2 then e.2 else e.1

/-- The file object is an end of a pipe. -/
def IsEnd (ends : Ends) (f : FileRef) : Prop := ∃ x, endAt ends x = some f

/-- The ends of the pipes, and their counters. -/
structure Joined (T₀ : Fds) (w : World cfg) : Prop where
  counted : Exact {f | IsEnd w.ends f} (fun _ => 0) (refcounts w.m.k) (openFds w.m.k)
  entry : ∀ f, IsEnd w.ends f → f ∈ entries
  distinct : ∀ x y f, endAt w.ends x = some f → endAt w.ends y = some f → x = y
  std : ∀ fd f, T₀ fd = some f → ¬IsEnd w.ends f
  outside : ∀ q, w.code q = none → ∀ i f, openFds w.m.k q i = some f → ¬IsEnd w.ends f

/-- No child has left the pipeline. -/
def Whole (chain : List (List String)) (p : Slot cfg) (w : World cfg) (todo : ℕ) : Prop :=
  ∀ d, todo ≤ d → d < chain.length → ∃ q ≠ p, w.command q = some d ∧ w.code q ≠ none

variable {chain : List (List String)} {T₀ : Fds} {w w' : World cfg} {todo depth : ℕ} {f : FileRef}

/-- While there are commands to start, the shell has what they will need. -/
theorem Safe.keeps {α : Type} {code : Code α} {T : Fds} {ends : Ends}
    (h : Safe chain T₀ code T ends todo) (htodo : todo ≠ 0) :
    Keeps T₀ ends todo T := by
  cases code with
  | ret => exact absurd h.1 htodo
  | close | dup | pipe | fork => exact h.1
  | null | execv | prints => exact h.elim

namespace Started

theorem same (h : Started chain p T₀ w todo) (hs : SameFiles w.m.k m'.k) :
    Started chain p T₀ { w with m := m' } todo where
  lives q hq := (hs.alive q).2 (h.lives q hq)
  shell c hc := by
    rw [hs.fds]
    exact h.shell c hc
  gone := h.gone
  child q hq c hc := by
    rw [hs.fds]
    exact h.child q hq c hc
  single := h.single
  range := h.range

/-- Each end of a pipe is held by a process of the pipeline, the shell or the child that it is for. -/
theorem held (h : Started chain p T₀ w todo) (hw : Whole chain p w todo) (hf : IsEnd w.ends f) :
    ∃ q i, Alive w.m.k.core q ∧ (w.m.k.procs q).files i = some f := by
  obtain ⟨⟨d, writing⟩, hx⟩ := hf
  obtain ⟨⟨r, e⟩, hends, hend⟩ := Option.map_eq_some_iff.1 hx
  obtain ⟨hd0, hdn⟩ := h.range d (by simp [hends])
  -- A child that is started has what it will have at its `execv`.
  have hchild : ∀ d' i, todo ≤ d' → d' < chain.length →
      wiring T₀ w.ends chain.length d' i = some f →
      ∃ q i, Alive w.m.k.core q ∧ (w.m.k.procs q).files i = some f := by
    intro d' i hd' hdn' hi
    obtain ⟨q, hqp, hcommand, hcode⟩ := hw d' hd' hdn'
    obtain ⟨c, hc⟩ := Option.ne_none_iff_exists'.1 hcode
    obtain ⟨d'', hd'', args, -, -, -, hexec⟩ := h.child q hqp c hc
    obtain rfl : d'' = d' := Option.some.inj (hd''.symm.trans hcommand)
    obtain ⟨j, hj⟩ := Code.exec_subset hexec hi
    exact ⟨q, j, h.lives q hcode, hj⟩
  -- The shell has the others.
  have hshell : todo ≠ 0 → ∃ c, w.code p = some c ∧ Keeps T₀ w.ends todo (w.m.k.procs p).files := by
    intro htodo
    obtain ⟨c, hc⟩ := Option.ne_none_iff_exists'.1 fun hc => htodo (h.gone hc)
    exact ⟨c, hc, (h.shell c hc).keeps htodo⟩
  cases writing with
  | false =>
    obtain rfl : r = f := hend
    by_cases hd : d < todo
    · obtain ⟨c, hc, hkeeps⟩ := hshell (by omega)
      obtain ⟨i, hi⟩ := hkeeps.reading d r e hends hd
      exact ⟨p, i, h.lives p (by simp [hc]), hi⟩
    · refine hchild d 0 (not_lt.1 hd) hdn ?_
      rw [wiring_zero, if_neg hd0.ne', hends]
      rfl
  | true =>
    obtain rfl : e = f := hend
    by_cases hd : todo ≠ 0 ∧ d ≤ todo
    · obtain ⟨c, hc, hkeeps⟩ := hshell hd.1
      obtain ⟨i, hi⟩ := hkeeps.writing d r e hends hd.2
      exact ⟨p, i, h.lives p (by simp [hc]), hi⟩
    · refine hchild (d - 1) 1 (by omega) (by omega) ?_
      rw [wiring_one, Nat.sub_add_cancel hd0, if_neg hdn.ne, hends]
      rfl

/-- The processes that stay in the pipeline are as they were, when another process makes a call. -/
theorem dropped (h : Started chain p T₀ w todo) (hc : CallFiles s q w.m.k m'.k)
    {code : Slot cfg → Option (Code (Option Fd))}
    (hcode : ∀ r, code r ≠ none → r ≠ s ∧ code r = w.code r)
    (hgone : code p = none → todo = 0) : Started chain p T₀ { w with m := m', code := code } todo := by
  have hlives : ∀ r, code r ≠ none → Alive w.m.k.core r := fun r hr => h.lives r ((hcode r hr).2 ▸ hr)
  have hfds : ∀ r, code r ≠ none → (m'.k.procs r).files = (w.m.k.procs r).files := fun r hr =>
    fds_of_callFiles hc (hlives r hr) (hcode r hr).1
  refine ⟨fun r hr => hc.alive r (hcode r hr).1 (hlives r hr), fun c hc' => ?_, hgone, fun r hr c hc' => ?_,
    fun r hr r' hr' hcr hcr' => ?_, h.range⟩
  · have hne : code p ≠ none := Option.ne_none_iff_exists'.2 ⟨c, hc'⟩
    rw [hfds p hne]
    exact h.shell c ((hcode p hne).2 ▸ hc')
  · have hne : code r ≠ none := Option.ne_none_iff_exists'.2 ⟨c, hc'⟩
    rw [hfds r hne]
    exact h.child r hr c ((hcode r hne).2 ▸ hc')
  · exact h.single r hr r' hr' ((hcode r hcr).2 ▸ hcr) ((hcode r' hcr').2 ▸ hcr')

/-- A process of the pipeline goes on with its code, where pipes may be made for commands to be started. -/
theorem goesOn (h : Started chain p T₀ w todo) (hc : CallFiles s q w.m.k m'.k)
    {code next : Code (Option Fd)} {ends : Ends}
    (hcode : w.code s = some code) (halive : Alive m'.k.core s) (hsame : p ≠ s → ends = w.ends)
    (hends : ∀ d, todo ≤ d → ends d = w.ends d)
    (hrange : ∀ d, ends d ≠ none → 0 < d ∧ d < chain.length)
    (hshell : p = s → Safe chain T₀ next (m'.k.procs s).files ends todo)
    (hchild : p ≠ s → code.exec (w.m.k.procs s).files = next.exec (m'.k.procs s).files) :
    Started chain p T₀ { w.goesOn m' s (some next) with ends := ends } todo := by
  -- Only the code of `s` changes: what is left of the others is their descriptors and
  -- ends.
  have hself : Function.update w.code s (some next) s = some next := Function.update_self ..
  have hother : ∀ r ≠ s, Function.update w.code s (some next) r = w.code r :=
    fun r hr => Function.update_of_ne hr _ _
  have hne : ∀ r, Function.update w.code s (some next) r ≠ none → w.code r ≠ none := by
    intro r hr
    by_cases hrs : r = s
    · subst hrs
      simp [hcode]
    · rwa [hother r hrs] at hr
  refine ⟨fun r hr => ?_, fun c hc' => ?_, fun hnone => ?_, fun r hr c hc' => ?_, fun r hr r' hr' hcr hcr' =>
    h.single r hr r' hr' (hne r hcr) (hne r' hcr'), hrange⟩
  · by_cases hrs : r = s
    · exact hrs ▸ halive
    · exact hc.alive r hrs (h.lives r (hne r hr))
  · change Function.update w.code s (some next) p = some c at hc'
    by_cases hps : p = s
    · rw [hps, hself] at hc'
      cases hc'
      exact hps ▸ hshell hps
    · rw [hother p hps] at hc'
      show Safe chain T₀ c (m'.k.procs p).files ends todo
      rw [fds_of_callFiles hc (h.lives p (by simp [hc'])) hps, hsame hps]
      exact h.shell c hc'
  · refine h.gone ?_
    change Function.update w.code s (some next) p = none at hnone
    by_cases hps : p = s
    · rw [hps, hself] at hnone
      cases hnone
    · rwa [hother p hps] at hnone
  · change Function.update w.code s (some next) r = some c at hc'
    -- The pipes of a child that has been started are not among those still to be made.
    have hchild' : ∀ {d args}, todo ≤ d → Piped w.ends chain.length d →
        c.exec (m'.k.procs r).files = some (wiring T₀ w.ends chain.length d, args) →
        Piped ends chain.length d ∧ c.exec (m'.k.procs r).files =
          some (wiring T₀ ends chain.length d, args) := by
      intro d args hd hpiped hexec
      have h0 := hends d hd
      have h1 := hends (d + 1) (Nat.le_succ_of_le hd)
      rw [Piped, wiring_congr h0 h1, h0, h1]
      exact ⟨hpiped, hexec⟩
    by_cases hrs : r = s
    · rw [hrs, hself] at hc'
      cases hc'
      obtain ⟨d, hd, args, htodo, hargs, hpiped, hexec⟩ := h.child r hr code (hrs ▸ hcode)
      obtain ⟨hpiped, hexec⟩ :=
        hchild' htodo hpiped (by rw [hrs, ← hchild (hrs ▸ hr.symm), ← hrs, hexec])
      exact ⟨d, hd, args, htodo, hargs, hpiped, hexec⟩
    · rw [hother r hrs] at hc'
      obtain ⟨d, hd, args, htodo, hargs, hpiped, hexec⟩ := h.child r hr c hc'
      rw [← fds_of_callFiles hc (h.lives r (by simp [hc'])) hrs] at hexec
      obtain ⟨hpiped, hexec⟩ := hchild' htodo hpiped hexec
      exact ⟨d, hd, args, htodo, hargs, hpiped, hexec⟩

/-- The ends of the pipes are in use. -/
theorem inUse (h : Started chain p T₀ w todo) (hw : Whole chain p w todo)
    (hj : Joined T₀ w) (ht : Tidy w.m.k) :
    ∀ f, IsEnd w.ends f → f ∈ HobbyOs.inUse w.m.k := by
  intro f hf
  obtain ⟨q, i, hq, hi⟩ := h.held hw hf
  obtain ⟨b, hb⟩ := ht.tallied
  exact ⟨hj.entry f hf, (hb.bounded.pos (hj.entry f hf) (i := i) (by rwa [openFds_of_alive hq])).ne'⟩

end Started

namespace Joined

theorem same (h : Joined T₀ w) (hs : SameFiles w.m.k m'.k) : Joined T₀ { w with m := m' } where
  counted := by
    rw [hs.counts, hs.openFds_eq]
    exact h.counted
  entry := h.entry
  distinct := h.distinct
  std := h.std
  outside := by
    rw [hs.openFds_eq]
    exact h.outside

variable {code : Slot cfg → Option (Code (Option Fd))} {command : Slot cfg → Option ℕ}

/-- The counters after a call, with what it leaves to processes outside of the pipeline. -/
theorem called (h : Joined T₀ w) (hc : CallFiles s q w.m.k m'.k)
    (huse : ∀ f, IsEnd w.ends f → f ∈ HobbyOs.inUse w.m.k)
    (hout : ∀ r, code r = none → ∀ i f, openFds m'.k r i = some f → ¬IsEnd w.ends f) :
    Joined T₀ { w with m := m', code := code, command := command } where
  counted := by
    have hrc : Recounts {f | IsEnd w.ends f} q w.m.k m'.k :=
      ⟨hc.recounts.fds, fun g hg => hc.recounts.counts g (huse g hg)⟩
    exact hrc.exact h.counted
  entry := h.entry
  distinct := h.distinct
  std := h.std
  outside := hout

/-- The caller is outside of the pipeline afterwards, and has none of the ends. -/
theorem dropped (h : Joined T₀ w) (hc : CallFiles s q w.m.k m'.k)
    (huse : ∀ f, IsEnd w.ends f → f ∈ HobbyOs.inUse w.m.k)
    (hnone : ∀ r, code r = none → r = s ∨ w.code r = none)
    (hs : ∀ i f, openFds w.m.k s i = some f → ¬IsEnd w.ends f) :
    Joined T₀ { w with m := m', code := code } := by
  refine h.called hc huse fun r hr i f hi hf => ?_
  by_cases hrq : r = q
  · subst hrq
    obtain ⟨j, hj⟩ := hc.used f (huse f hf) i hi
    exact hs j f hj hf
  · rw [hc.recounts.fds, Function.update_of_ne hrq] at hi
    rcases hnone r hr with rfl | hr
    · exact hs i f hi hf
    · exact h.outside r hr i f hi hf

/-- The slot whose descriptors change is in the pipeline. -/
theorem kept (h : Joined T₀ w) (hc : CallFiles s q w.m.k m'.k)
    (huse : ∀ f, IsEnd w.ends f → f ∈ HobbyOs.inUse w.m.k)
    (hnone : ∀ r, code r = none → r ≠ q ∧ w.code r = none) :
    Joined T₀ { w with m := m', code := code, command := command } := by
  refine h.called hc huse fun r hr i f hi => ?_
  obtain ⟨hrq, hr⟩ := hnone r hr
  rw [hc.recounts.fds, Function.update_of_ne hrq] at hi
  exact h.outside r hr i f hi

end Joined

/-! ### New pipes -/

/-- The code of a process that makes a pipe or forks is that of the shell. -/
theorem shell_of_exec {code : Code (Option Fd)} (h : Started chain p T₀ w todo) (hcode : w.code s = some code)
    (hexec : ∀ T, code.exec T = none) : p = s := by
  by_contra hps
  obtain ⟨d, -, args, -, -, -, hsome⟩ := h.child s (Ne.symm hps) code hcode
  rw [hexec] at hsome
  cases hsome

theorem endAt_update {ends : Ends} {r e : FileRef} (x : ℕ × Bool) :
    endAt (Function.update ends depth (some (r, e))) x = if x.1 = depth then
      some (if x.2 then e else r) else endAt ends x := by
  by_cases hx : x.1 = depth
  · simp [endAt, hx]
  · simp [endAt, hx]

/-- The ends of a new pipe, and the others. -/
theorem isEnd_update {ends : Ends} {r e : FileRef} (hf : IsEnd (Function.update ends depth (some (r, e))) f) :
    f = r ∨ f = e ∨ IsEnd ends f := by
  obtain ⟨x, hx⟩ := hf
  rw [endAt_update] at hx
  split_ifs at hx with h1 h2
  · exact .inr (.inl (Option.some.inj hx).symm)
  · exact .inl (Option.some.inj hx).symm
  · exact .inr (.inr ⟨x, hx⟩)

/-- The pipes with a new one: its ends were free, so they are none of the others, and nobody had them. -/
theorem Joined.pipes (h : Joined T₀ w) {fds : Fd × Fd} {r e : FileRef}
    {code : Slot cfg → Option (Code (Option Fd))}
    (ht : Tidy w.m.k) (hn : NewPipe p w.m.k m'.k fds r e)
    (huse : ∀ f, IsEnd w.ends f → f ∈ HobbyOs.inUse w.m.k)
    (hT₀ : ∀ fd f, T₀ fd = some f → openFds w.m.k p fd = some f)
    (hnone : ∀ q, code q = none → q ≠ p ∧ w.code q = none) :
    Joined T₀ { w with m := m', code := code, ends := Function.update w.ends depth (some (r, e)) } := by
  obtain ⟨b, hb⟩ := ht.tallied
  -- Nobody had an entry that was free.
  have hfree : ∀ {f}, f = r ∨ f = e → f ∈ entries ∧ refcounts w.m.k f = 0 ∧ ∀ q i,
      openFds w.m.k q i ≠ some f := by
    rintro f (rfl | rfl)
    · exact ⟨hn.reading.1, hn.reading.2, hb.bounded.ne_some hn.reading.1 hn.reading.2⟩
    · exact ⟨hn.writing.1, hn.writing.2, hb.bounded.ne_some hn.writing.1 hn.writing.2⟩
  have hold : ∀ {f}, f = r ∨ f = e → ¬IsEnd w.ends f := fun hf hend => (huse _ hend).2 (hfree hf).2.1
  have hnew : ∀ {f}, IsEnd (Function.update w.ends depth (some (r, e))) f → (f = r ∨ f = e) ∨
      IsEnd w.ends f := fun hf =>
    or_assoc.2 (isEnd_update hf)
  refine ⟨?_, fun f hf => ?_, fun x y f hx hy => ?_, fun fd f hfd hf => ?_, fun q hq i f hi hf => ?_⟩
  · have hbefore : Exact {f | IsEnd (Function.update w.ends depth (some (r, e))) f}
        (fun _ => 0) (refcounts w.m.k)
        (openFds w.m.k) := by
      intro f hf
      rcases hnew hf with hf | hf
      · have hle := (hb.bounded f (hfree hf).1).1
        have hzero := (hfree hf).2.1
        show refcounts w.m.k f = 0 + total (openFds w.m.k) f
        omega
      · exact h.counted f hf
    have hrc : Recounts {f | IsEnd (Function.update w.ends depth (some (r, e))) f} p w.m.k m'.k :=
      ⟨hn.recounts.fds, fun g hg => hn.recounts.counts g <|
        (hnew hg).elim (fun hg => (hfree hg).1) (h.entry g)⟩
    exact hrc.exact hbefore
  · exact (hnew hf).elim (fun hf => (hfree hf).1) (h.entry f)
  · rw [endAt_update] at hx hy
    have hside : ∀ {b : Bool}, some (if b then e else r) = some f → f = r ∨ f = e := by
      intro b hb
      cases b with
      | false => exact .inl (Option.some.inj hb).symm
      | true => exact .inr (Option.some.inj hb).symm
    by_cases hxd : x.1 = depth
    · rw [if_pos hxd] at hx
      by_cases hyd : y.1 = depth
      · rw [if_pos hyd] at hy
        have heq := Option.some.inj (hx.trans hy.symm)
        refine Prod.ext (hxd.trans hyd.symm) ?_
        cases hx2 : x.2 with
        | false =>
          cases hy2 : y.2 with
          | false => rfl
          | true => exact absurd (by simpa [hx2, hy2] using heq) hn.ne
        | true =>
          cases hy2 : y.2 with
          | false => exact absurd (by simpa [hx2, hy2] using heq.symm) hn.ne
          | true => rfl
      · rw [if_neg hyd] at hy
        exact absurd ⟨y, hy⟩ (hold (hside hx))
    · rw [if_neg hxd] at hx
      by_cases hyd : y.1 = depth
      · rw [if_pos hyd] at hy
        exact absurd ⟨x, hx⟩ (hold (hside hy))
      · rw [if_neg hyd] at hy
        exact h.distinct x y f hx hy
  · rcases hnew hf with hf | hf
    · exact (hfree hf).2.2 p fd (hT₀ fd f hfd)
    · exact h.std fd f hfd hf
  · obtain ⟨hqp, hq⟩ := hnone q hq
    rw [hn.recounts.fds, Function.update_of_ne hqp] at hi
    rcases hnew hf with hf | hf
    · exact (hfree hf).2.2 q i hi
    · exact h.outside q hq i f hi hf

/-! ## What a step keeps -/

/-- The shell and its children, with the pipes as long as none has left. -/
def Wired (chain : List (List String)) (p : Slot cfg) (T₀ : Fds) (w : World cfg) : Prop :=
  ∃ todo, Started chain p T₀ w todo ∧ (Whole chain p w todo → Joined T₀ w)

theorem Whole.of_subset (h : Whole chain p w' todo) (hcode : ∀ q, w'.code q ≠ none → w.code q ≠ none)
    (hcommand : w'.command = w.command) : Whole chain p w todo := fun d hd hdn =>
  let ⟨q, hq, hqd, hqc⟩ := h d hd hdn; ⟨q, hq, hcommand ▸ hqd, hcode q hqc⟩

namespace Wired

theorem same (h : Wired chain p T₀ w) (hs : SameFiles w.m.k m'.k) :
    Wired chain p T₀ { w with m := m' } := by
  obtain ⟨todo, hstarted, hjoined⟩ := h
  exact ⟨todo, hstarted.same hs, fun hw => (hjoined hw).same hs⟩

/-- A process that is not of the pipeline makes a call. -/
theorem other (h : Wired chain p T₀ w) (ht : Tidy w.m.k) (hs : w.code s = none)
    (hc : CallFiles s q w.m.k m'.k) :
    Wired chain p T₀ { w with m := m' } := by
  obtain ⟨todo, hstarted, hjoined⟩ := h
  refine ⟨todo, hstarted.dropped hc (fun r hr => ⟨?_, rfl⟩) hstarted.gone, fun hw => ?_⟩
  · rintro rfl
    exact hr hs
  · have hj := hjoined hw
    exact hj.dropped hc (hstarted.inUse hw hj ht) (fun r hr => .inr hr) (hj.outside s hs)

/-- A process leaves the pipeline. Of the ends, the shell has none when it is done. -/
theorem leaves (h : Wired chain p T₀ w) (ht : Tidy w.m.k) {code : Code (Option Fd)}
    (hcode : w.code s = some code)
    (hover : code.isOver = true) (hc : CallFiles s q w.m.k m'.k) : Wired chain p T₀ (w.goesOn m' s none) := by
  obtain ⟨todo, hstarted, hjoined⟩ := h
  have hne : ∀ r, Function.update w.code s none r ≠ none →
      r ≠ s ∧ Function.update w.code s none r = w.code r := by
    intro r hr
    have hrs : r ≠ s := by
      rintro rfl
      simp at hr
    exact ⟨hrs, Function.update_of_ne hrs _ _⟩
  have hdone : p = s → todo = 0 ∧ (w.m.k.procs s).files = T₀ := by
    rintro rfl
    have hsafe := hstarted.shell code hcode
    cases code with
    | ret a => exact hsafe
    | execv args => exact hsafe.elim
    | null | prints | close | dup | pipe | fork => cases hover
  refine ⟨todo, hstarted.dropped hc hne fun hnone => ?_, fun hw => ?_⟩
  · by_cases hps : p = s
    · exact (hdone hps).1
    · exact hstarted.gone ((Function.update_of_ne hps _ _).symm.trans hnone)
  · have hbefore : Whole chain p w todo := hw.of_subset (fun r hr => (hne r hr).2 ▸ hr) rfl
    have hj := hjoined hbefore
    refine hj.dropped hc (hstarted.inUse hbefore hj ht) (fun r hr => ?_) fun i f hi => ?_
    · by_cases hrs : r = s
      · exact .inl hrs
      · exact .inr ((Function.update_of_ne hrs _ _).symm.trans hr)
    · by_cases hps : p = s
      · have hlives := hstarted.lives s (by simp [hcode])
        rw [openFds_of_alive hlives, (hdone hps).2] at hi
        exact hj.std i f hi
      · -- A child that leaves cannot be missed.
        obtain ⟨d, hd, args, htodo, hargs, -⟩ := hstarted.child s (Ne.symm hps) code hcode
        obtain ⟨r, hrp, hrd, hr⟩ := hw d htodo (List.getElem?_eq_some_iff.1 hargs).1
        obtain ⟨hrs, hrcode⟩ := hne r hr
        have hrcommand : w.command r = w.command s := hrd.trans (Option.mem_def.1 hd).symm
        exact absurd (hstarted.single r hrp s (Ne.symm hps) (hrcode ▸ hr) (by simp [hcode]) hrcommand) hrs

/-- A process goes on with its code. -/
theorem goesOn (h : Wired chain p T₀ w) (ht : Tidy w.m.k) (hc : CallFiles s s w.m.k m'.k)
    {code next : Code (Option Fd)}
    (hcode : w.code s = some code) (halive : Alive m'.k.core s)
    (hshell : ∀ {ends todo}, Safe chain T₀ code (w.m.k.procs s).files ends todo →
      Safe chain T₀ next (m'.k.procs s).files ends todo)
    (hchild : code.exec (w.m.k.procs s).files = next.exec (m'.k.procs s).files) :
    Wired chain p T₀ (w.goesOn m' s (some next)) := by
  obtain ⟨todo, hstarted, hjoined⟩ := h
  refine ⟨todo, ?_, fun hw => ?_⟩
  · refine hstarted.goesOn hc hcode halive (fun _ => rfl) (fun _ _ => rfl) hstarted.range
      (fun hps => ?_) fun _ => hchild
    subst hps
    exact hshell (hstarted.shell code hcode)
  have hother : ∀ r ≠ s, Function.update w.code s (some next) r = w.code r :=
    fun r hr => Function.update_of_ne hr _ _
  have hbefore : Whole chain p w todo := by
    refine hw.of_subset (fun r hr => ?_) rfl
    by_cases hrs : r = s
    · simp [hrs, hcode]
    · rwa [← hother r hrs]
  have hj := hjoined hbefore
  refine hj.kept hc (hstarted.inUse hbefore hj ht) fun r hr => ?_
  have hrs : r ≠ s := by
    rintro rfl
    simp at hr
  exact ⟨hrs, (hother r hrs).symm.trans hr⟩

/-- The shell makes a pipe. -/
theorem pipes (h : Wired chain p T₀ w) (ht : Tidy w.m.k) (hT₀ : ∀ fd, T₀ fd ≠ none ↔ fd < 3)
    {next : Option (Fd × Fd) → Code (Option Fd)} {fds : Fd × Fd} {r e : FileRef}
    (hcode : w.code s = some (.pipe depth next)) (hn : NewPipe s w.m.k m'.k fds r e) :
    Wired chain p T₀ (w.pipes m' s depth (next (some fds)) fds) := by
  obtain ⟨todo, hstarted, hjoined⟩ := h
  obtain rfl := shell_of_exec hstarted hcode fun _ => rfl
  obtain ⟨hkeeps, rfl, hd0, hdn, hnext⟩ := hstarted.shell _ hcode
  have hends : filesAt (m'.k.procs p).files fds = some (r, e) := by
    obtain ⟨-, -, hji, hT⟩ := Fds.openPipe_some hn.table
    rw [filesAt, hT, Function.update_of_ne hji.symm, Function.update_self, Function.update_self]
    rfl
  rw [World.pipes, hends]
  refine ⟨depth + 1, hstarted.goesOn hn.call hcode hn.alive (fun hp => absurd rfl hp)
    (fun d hd => ?_) (fun d hd => ?_)
    (fun _ => hnext _ _ _ hn.table) (fun hp => absurd rfl hp), fun hw => ?_⟩
  · exact Function.update_of_ne (by omega) _ _
  · by_cases hdd : d = depth
    · subst hdd
      exact ⟨Nat.pos_of_ne_zero hd0, hdn⟩
    · rw [Function.update_of_ne hdd] at hd
      exact hstarted.range d hd
  · have hother : ∀ q ≠ p, Function.update w.code p (some (next (some fds))) q = w.code q :=
      fun q hq => Function.update_of_ne hq _ _
    have hbefore : Whole chain p w (depth + 1) := by
      refine hw.of_subset (fun q hq => ?_) rfl
      by_cases hqp : q = p
      · simp [hqp, hcode]
      · exact hother q hqp ▸ hq
    have hj := hjoined hbefore
    refine hj.pipes ht hn (hstarted.inUse hbefore hj ht) (fun fd f hfd => ?_) fun q hq => ?_
    · rw [openFds_of_alive (hstarted.lives p (by simp [hcode])),
        hkeeps.std fd ((hT₀ fd).1 (by simp [hfd])), hfd]
    · have hqp : q ≠ p := by
        rintro rfl
        simp [World.goesOn] at hq
      exact ⟨hqp, (hother q hqp).symm.trans hq⟩

/-- The shell forks. -/
theorem forks (h : Wired chain p T₀ w) (ht : Tidy w.m.k) {next : Option ℕ → Code (Option Fd)} {pid : ℕ}
    (hcode : w.code s = some (.fork depth next)) (hpid : pid ≠ 0) (hn : NewChild s q w.m.k m'.k) :
    Wired chain p T₀ (w.forks m' s q depth pid next) := by
  obtain ⟨todo, hstarted, hjoined⟩ := h
  obtain rfl := shell_of_exec hstarted hcode fun _ => rfl
  obtain ⟨hkeeps, rfl, hpiped, ⟨args, hargs, hexec⟩, hnext⟩ := hstarted.shell _ hcode
  have hp := hstarted.lives p (by simp [hcode])
  -- The slot is fresh: no process of the pipeline is in it.
  have hqcode : w.code q = none := by
    by_contra hne
    exact hn.dead (hstarted.lives q hne)
  have hpq : p ≠ q := by
    rintro rfl
    exact hn.dead hp
  -- The shell keeps its descriptors, and the child gets copies of them.
  have hfds : (m'.k.procs p).files = (w.m.k.procs p).files := by
    have hopen := congrFun hn.call.recounts.fds p
    rwa [Function.update_of_ne hpq, openFds_of_alive hp, openFds_of_alive hn.parent] at hopen
  have hzero : forkAnswer ((m'.k.procs q).trap.regs TrapFrame.a0) = some 0 := by
    rw [hn.a0]
    rfl
  have hok : (w.failed || decide (pid = 0)) = w.failed := by simp [hpid]
  rw [World.forks, hzero, hok]
  have hchildCode : Function.update (Function.update w.code p (some (next (some pid)))) q
      (some (next (some 0))) q =
      some (next (some 0)) := Function.update_self ..
  have hshellCode : Function.update (Function.update w.code p (some (next (some pid)))) q
      (some (next (some 0))) p =
      some (next (some pid)) := (Function.update_of_ne hpq _ _).trans (Function.update_self ..)
  have hother : ∀ r, r ≠ p → r ≠ q →
      Function.update (Function.update w.code p (some (next (some pid)))) q
      (some (next (some 0))) r = w.code r :=
    fun r hrp hrq => (Function.update_of_ne hrq _ _).trans (Function.update_of_ne hrp _ _)
  refine ⟨depth, ⟨fun r hr => ?_, fun c hc => ?_, fun hnone => ?_, fun r hr c hc => ?_,
    fun r hr r' hr' hcr hcr' hcommand => ?_,
    hstarted.range⟩, fun hw => ?_⟩
  · by_cases hrq : r = q
    · exact hrq ▸ hn.alive
    · by_cases hrp : r = p
      · exact hrp ▸ hn.parent
      · exact hn.call.alive r hrp (hstarted.lives r ((hother r hrp hrq).symm.trans_ne hr))
  · obtain rfl : next (some pid) = c := Option.some.inj (hshellCode.symm.trans hc)
    show Safe chain T₀ _ (m'.k.procs p).files w.ends depth
    rw [hfds]
    exact hnext pid hpid
  · exact absurd (hshellCode.symm.trans hnone) (by simp)
  · by_cases hrq : r = q
    · subst hrq
      obtain rfl : next (some 0) = c := Option.some.inj (hchildCode.symm.trans hc)
      refine ⟨depth, Function.update_self .., args, le_rfl, hargs, hpiped, ?_⟩
      show _ = some (wiring T₀ w.ends chain.length depth, args)
      rw [hn.fds, hexec]
    · have hcr : w.code r = some c := (hother r hr hrq).symm.trans hc
      obtain ⟨d, hd, args, htodo, hargs, hpiped, hexec⟩ := hstarted.child r hr c hcr
      refine ⟨d, (Function.update_of_ne hrq _ _).trans hd, args, Nat.le_of_succ_le htodo, hargs, hpiped, ?_⟩
      show c.exec (m'.k.procs r).files = _
      rw [fds_of_callFiles hn.call (hstarted.lives r (by simp [hcr])) hr, hexec]
  · -- The commands of the other children are further to the right.
    have hne : ∀ t ≠ p, t ≠ q → w.code t ≠ none → w.command t ≠ some depth := by
      intro t ht htq hct htd
      obtain ⟨c, hc⟩ := Option.ne_none_iff_exists'.1 hct
      obtain ⟨d, hd, -, htodo, -⟩ := hstarted.child t ht c hc
      obtain rfl : d = depth := Option.some.inj ((Option.mem_def.1 hd).symm.trans htd)
      exact absurd htodo (Nat.not_succ_le_self d)
    have hself : Function.update w.command q (some depth) q = some depth := Function.update_self ..
    have hcommand' : ∀ t ≠ q, Function.update w.command q (some depth) t = w.command t :=
      fun t ht => Function.update_of_ne ht _ _
    change Function.update w.command q (some depth) r = Function.update w.command q (some depth) r' at hcommand
    by_cases hrq : r = q
    · by_cases hrq' : r' = q
      · exact hrq.trans hrq'.symm
      · rw [hrq, hself, hcommand' r' hrq'] at hcommand
        exact absurd hcommand.symm (hne r' hr' hrq' ((hother r' hr' hrq').symm.trans_ne hcr'))
    · by_cases hrq' : r' = q
      · rw [hrq', hself, hcommand' r hrq] at hcommand
        exact absurd hcommand (hne r hr hrq ((hother r hr hrq).symm.trans_ne hcr))
      · rw [hcommand' r hrq, hcommand' r' hrq'] at hcommand
        exact hstarted.single r hr r' hr' ((hother r hr hrq).symm.trans_ne hcr)
          ((hother r' hr' hrq').symm.trans_ne hcr') hcommand
  · -- The commands further right were started before, as none of them is in the new
    -- slot.
    have hbefore : Whole chain p w (depth + 1) := by
      intro d hd hdn
      obtain ⟨r, hr, hrd, hrc⟩ := hw d (Nat.le_of_succ_le hd) hdn
      have hrq : r ≠ q := by
        rintro rfl
        change Function.update w.command r (some depth) r = some d at hrd
        rw [Function.update_self] at hrd
        cases hrd
        exact absurd hd (Nat.not_succ_le_self depth)
      exact ⟨r, hr, (Function.update_of_ne hrq _ _).symm.trans hrd, (hother r hr hrq).symm.trans_ne hrc⟩
    have hj := hjoined hbefore
    refine hj.kept hn.call (hstarted.inUse hbefore hj ht) fun r hr => ?_
    have hrq : r ≠ q := by
      rintro rfl
      exact absurd (hchildCode.symm.trans hr) (by simp)
    have hrp : r ≠ p := by
      rintro rfl
      exact absurd (hshellCode.symm.trans hr) (by simp)
    exact ⟨hrq, (hother r hrp hrq).symm.trans hr⟩

end Wired

/-- What holds in every run. -/
structure Wires (chain : List (List String)) (p : Slot cfg) (T₀ : Fds) (w : World cfg) : Prop where
  base : Base w.m
  tidy : Tidy w.m.k
  wired : w.failed = false → Wired chain p T₀ w

theorem World.call_m {w w' : World cfg} (h : w.call m' p c = some w') : w'.m = m' := by
  cases World.moves h with
  | fails hm _ => exact hm
  | _ => rfl

/-- What has failed has failed. -/
theorem World.next_failed {w w' : World cfg} {e : Event cfg} (h : w.next e m' = some w')
    (hok : w'.failed = false) :
    w.failed = false := by
  have hcall : ∀ {p c}, w.call m' p c = some w' → w.failed = false := by
    intro p c hcall
    cases World.moves hcall with
    | fork => exact (Bool.or_eq_false_iff.1 hok).1
    | fails _ hfailed => cases hok.symm.trans hfailed
    | _ => exact hok
  cases e with
  | ecall =>
    rw [World.next] at h
    split at h
    · cases h
      exact hok
    · exact hcall h
  | _ =>
    cases h
    exact hok

theorem World.next_m {w w' : World cfg} {e : Event cfg} (h : w.next e m' = some w') : w'.m = m' := by
  cases e with
  | ecall =>
    rw [World.next] at h
    split at h
    · cases h
      rfl
    · exact World.call_m h
  | _ =>
    cases h
    rfl

theorem orderly_of_unattached {c : Call} (h : Unattached p k c) : Orderly p k c := by
  refine ⟨h.1, fun t ht => ?_⟩
  cases c with
  | pipeattch => cases h.2
  | _ => cases ht

/-- A call of the process `s`, whether it is of the pipeline or not. -/
theorem Wired.call {c : Call} (hx : 32 ≤ cfg.xlen) (hT₀ : ∀ fd, T₀ fd ≠ none ↔ fd < 3)
    (h : Wired chain p T₀ w) (hb : Base w.m)
    (ht : Tidy w.m.k) (hmode : w.m.mode = .user) (hcpu : w.m.k.cpuProc = some s)
    (hcall : callOf (trap w.m) s = some c)
    (hc : Unattached s ((trap w.m).entry s) c) (hm : ∀ why, (ecallStep w.m).mode ≠ .halted why)
    (hmoves : Moves w (ecallStep w.m) s (some c) w') (hok : w'.failed = false) : Wired chain p T₀ w' := by
  obtain ⟨how, k₁, hends⟩ := ecall_callEnds hb hmode hcpu hcall hm
  have hal : Alive w.m.k.core s := hc.1
  obtain ⟨b, htallied⟩ := (tidy_entry (p := s) ht).tallied
  -- A call of the pipeline is followed by its code; one of another process is any
  -- call.
  cases hmoves with
  | other hcode =>
    obtain ⟨q, hq⟩ := callFiles_of_callEnds hb ht hends hc
    exact h.other ht hcode hq
  | finished _ _ hquiet => exact h.same (sameFiles_of_quiet hends (by simpa using hquiet))
  | leaves hcode hover _ =>
    obtain ⟨q, hq⟩ := callFiles_of_callEnds hb ht hends hc
    exact h.leaves ht hcode hover hq
  | @close fd next hcode huser =>
    obtain ⟨ret, k₂, hends, hrun, -⟩ := ecall_returned hb hmode hcpu hcall huser
    have hl : SameLives ((trap w.m).entry s).core k₂.core := .call hends.effect (by simp) (by simp)
    have hsame := sameFiles_ended hends
    have hfds : ((ecallStep w.m).k.procs s).files = Fds.close (((trap w.m).entry s).procs s).files fd :=
      (hsame.fds s).trans (procClose_fds hrun)
    refine h.goesOn ht (sameFiles_entry.callFiles (.closes htallied hl hal (procClose_ok hrun)) hsame) hcode
      ((hsame.alive s).2 (hl.alive.2 hal)) (fun hsafe => ?_) ?_
    · rw [hfds]
      exact hsafe.2
    · rw [hfds]
      rfl
  | @dup fd next hcode huser =>
    obtain ⟨ret, k₂, hends, hrun, -⟩ := ecall_returned hb hmode hcpu hcall huser
    have hl : SameLives ((trap w.m).entry s).core k₂.core := .call hends.effect (by simp) (by simp)
    have hsame := sameFiles_ended hends
    have hfds : ((ecallStep w.m).k.procs s).files = Fds.dup (((trap w.m).entry s).procs s).files fd :=
      (hsame.fds s).trans (procDup_fds hrun)
    refine h.goesOn ht (sameFiles_entry.callFiles (.dups htallied hl hal (procDup_ok hrun)) hsame) hcode
      ((hsame.alive s).2 (hl.alive.2 hal)) (fun hsafe => ?_) ?_
    · rw [hfds]
      exact hsafe.2
    · rw [hfds]
      rfl
  | pipe hcode huser ha0 hfds =>
    obtain ⟨r, e, hn⟩ := newPipe hb hmode hcpu hcall hal huser ha0 hfds
    exact h.pipes ht hT₀ hcode hn
  | fork hcode huser hpid hne hslot =>
    exact h.forks ht hcode hne (newChild hx hb ht hmode hcpu hcall hal huser hpid hslot)
  | prints hcode =>
    have hquiet := sameFiles_of_quiet hends rfl
    refine h.goesOn ht hquiet.quiet hcode ((hquiet.alive s).2 hal) (fun hsafe => hsafe.elim) ?_
    rw [hquiet.fds]
    rfl
  | fails _ hfailed => cases hok.symm.trans hfailed

theorem Wires.step {e : Event cfg} (hx : 32 ≤ cfg.xlen) (hT₀ : ∀ fd, T₀ fd ≠ none ↔ fd < 3)
    (h : Wires chain p T₀ w)
    (hC : OnCall Unattached w.m e) (hs : (pipeline cfg).step e w = some w')
    (hm : ∀ why, w'.m.mode ≠ .halted why) :
    Wires chain p T₀ w' := by
  obtain ⟨m', hstep, hnext⟩ := Option.bind_eq_some_iff.1 hs
  rw [World.next_m hnext] at hm
  have hkernel := step_kernelStep h.base hstep hm
  have horderly : OnCall Orderly w.m e := by
    cases e with
    | ecall => exact fun s hs c hc => orderly_of_unattached (hC s hs c hc)
    | _ => trivial
  suffices w'.failed = false → Wired chain p T₀ w' by
    rw [← World.next_m hnext] at hstep hkernel
    exact ⟨(step_stepped h.base hstep).base, h.tidy.step h.base horderly hkernel, this⟩
  intro hok
  have hwired := h.wired (World.next_failed hnext hok)
  -- Without a call, the processes are as they were.
  have haside : (∀ s, e = .ecall → w.m.k.cpuProc = some s → callOf (trap w.m) s = none) →
      Wired chain p T₀ { w with m := m' } := fun he => hwired.same (sameFiles_of_aside hkernel he)
  cases e with
  | ecall =>
    cases hmode : w.m.mode with
    | user =>
      obtain ⟨s, hp, -⟩ : ∃ s, OnCpu s w.m.k.core ∧ _ := by
        have hat := h.base.at_
        rwa [hmode] at hat
      have hcpu : w.m.k.cpuProc = some s := hp.cpu
      obtain rfl : ecallStep w.m = m' := by simpa [HobbyOs.step, hmode] using hstep
      simp only [World.next, hcpu] at hnext
      have hmoves := World.moves hnext
      cases hcall : callOf (trap w.m) s with
      | none =>
        rw [hcall] at hmoves
        have hnone := haside fun t _ ht => Option.some.inj (hcpu.symm.trans ht) ▸ hcall
        cases hmoves with
        | other | finished => exact hnone
        | leaves _ _ hfile => cases hfile
        | fails _ hfailed => cases hok.symm.trans hfailed
      | some c =>
        rw [hcall] at hmoves
        exact hwired.call hx hT₀ h.base h.tidy hmode hcpu hcall (hC s hcpu c hcall) hm hmoves hok
    | sched | switched | idle | halted => simp [HobbyOs.step, hmode] at hstep
  | _ =>
    cases hnext
    exact haside (by simp)

/-! ## Runs -/

theorem Begins.wires {w₀ : World cfg} (h : Begins chain p T₀ w₀) (hne : chain ≠ []) :
    Wires chain p T₀ w₀ := by
  have hself : w₀.code p = some (Code.traverse chain 0) := by
    rw [h.code]
    exact Function.update_self ..
  have hother : ∀ q ≠ p, w₀.code q = none := by
    intro q hq
    rw [h.code]
    exact Function.update_of_ne hq _ _
  have hend : ∀ f, ¬IsEnd w₀.ends f := by
    rintro f ⟨x, hx⟩
    rw [h.ends] at hx
    cases hx
  refine ⟨base_of_reach h.reach, tidy_of_reach h.reach h.running, fun _ =>
    ⟨chain.length, ⟨fun q hq => ?_, fun c hc => ?_, fun hnone => ?_,
    fun q hq c hc => ?_, fun q hq _ _ hcode => absurd (hother q hq) hcode, fun d hd =>
    absurd (by rw [h.ends]) hd⟩, fun _ =>
    ⟨fun f hf => absurd hf (hend f), fun f hf => absurd hf (hend f), fun x _ f hx =>
      absurd ⟨x, hx⟩ (hend f),
      fun _ f _ => hend f, fun _ _ _ f _ => hend f⟩⟩⟩
  · by_cases hqp : q = p
    · exact hqp ▸ h.alive
    · exact absurd (hother q hqp) hq
  · obtain rfl : Code.traverse chain 0 = c := Option.some.inj (hself.symm.trans hc)
    rw [h.files, h.ends]
    exact safe_traverse hne h.std
  · rw [hself] at hnone
    cases hnone
  · rw [Option.mem_def, hother q hq] at hc
    cases hc

/-- The kernel has halted, or all is well. -/
theorem wires_of_path {w₀ : World cfg} (hx : 32 ≤ cfg.xlen) (hne : chain ≠ [])
    (h₀ : Begins chain p T₀ w₀)
    (h : Path (pipeline cfg) (fun w e => OnCall Unattached w.m e) w₀ w)
    (hm : ∀ why, w.m.mode ≠ .halted why) :
    Wires chain p T₀ w := by
  have hinv : (∃ why, w.m.mode = .halted why) ∨ Wires chain p T₀ w := by
    refine h.induct (I := fun w => (∃ why, w.m.mode = .halted why) ∨ Wires chain p T₀ w)
      (.inr (h₀.wires hne)) ?_
    intro u u' e hu hC hs
    obtain ⟨m', hstep, hnext⟩ := Option.bind_eq_some_iff.1 hs
    by_cases hhalt : ∃ why, u'.m.mode = .halted why
    · exact .inl hhalt
    · refine .inr ((hu.resolve_left ?_).step hx h₀.std hC hs fun why hwhy => hhalt ⟨why, hwhy⟩)
      rintro ⟨why, hwhy⟩
      rw [← World.next_m hnext] at hstep
      exact hhalt ⟨why, halted_step hwhy hstep⟩
  exact hinv.resolve_left fun ⟨why, h⟩ => hm why h

/-- The command and the descriptor that an end of a pipe is for. -/
def place (x : ℕ × Bool) : ℕ × Fd := if x.2 then (x.1 - 1, 1) else (x.1, 0)

/-- Of all the commands, just one has the end. -/
theorem Joined.wiring_eq {x : ℕ × Bool} {d n : ℕ} {fd : Fd} (h : Joined T₀ w)
    (hx : endAt w.ends x = some f)
    (hfd : wiring T₀ w.ends n d fd = some f) : (d, fd) = place x := by
  by_cases h3 : fd < 3
  · have hstd : T₀ fd ≠ some f := fun hT => h.std fd f hT ⟨x, hx⟩
    rcases lt_three_iff.1 h3 with rfl | rfl | rfl
    · rw [wiring_zero] at hfd
      split_ifs at hfd with hd
      · exact absurd hfd hstd
      · rw [← h.distinct (d, false) x f (by simpa [endAt] using hfd) hx]
        rfl
    · rw [wiring_one] at hfd
      split_ifs at hfd with hd
      · exact absurd hfd hstd
      · rw [← h.distinct (d + 1, true) x f (by simpa [endAt] using hfd) hx]
        rfl
    · rw [wiring_two] at hfd
      exact absurd hfd hstd
  · rw [wiring_rest h3] at hfd
    cases hfd

/-- That command has it. -/
theorem wiring_place {ends : Ends} {x : ℕ × Bool} {n : ℕ} (hx : endAt ends x = some f)
    (h0 : 0 < x.1) (hn : x.1 < n) :
    wiring T₀ ends n (place x).1 (place x).2 = some f := by
  obtain ⟨d, b⟩ := x
  cases b with
  | false =>
    show wiring T₀ ends n d 0 = some f
    rw [wiring_zero, if_neg (Nat.pos_iff_ne_zero.1 h0)]
    exact hx
  | true =>
    have hd : d - 1 + 1 = d := Nat.sub_add_cancel h0
    show wiring T₀ ends n (d - 1) 1 = some f
    rw [wiring_one, hd, if_neg (Nat.ne_of_lt hn)]
    exact hx

/-- Just the standard descriptors are open at the `execv`. -/
theorem wiring_ne_none {ends : Ends} {n d : ℕ} {fd : Fd} (hT₀ : ∀ fd, T₀ fd ≠ none ↔ fd < 3)
    (h : Piped ends n d) :
    wiring T₀ ends n d fd ≠ none ↔ fd < 3 := by
  refine ⟨fun hne => not_not.1 fun h3 => hne (wiring_rest h3), fun h3 => ?_⟩
  rcases lt_three_iff.1 h3 with rfl | rfl | rfl
  · rw [wiring_zero]
    split_ifs with hd
    · exact (hT₀ 0).2 h3
    · simpa using h.1 hd
  · rw [wiring_one]
    split_ifs with hd
    · exact (hT₀ 1).2 h3
    · simpa using h.2 hd
  · rw [wiring_two]
    exact (hT₀ 2).2 h3

/-- The machine `m`, on which the first process is about to start a chain of two commands. -/
def startsTwo (m : Machine .qemuE) : World .qemuE where
  m := m
  code := Function.update (fun _ => none) ⟨0, Config.qemuE_maxProcs_pos⟩
    (some (Code.traverse [["cat"], ["wc"]] 0))
  command := fun _ => none
  ends := fun _ => none
  failed := false

/-- The shell makes the pipe and forks twice; then each of the children runs up to `execv`. -/
def pipesTwo : List (Event .qemuE) :=
  calls 29 0x80003d00 0 0 [] ++ calls 2 0 0 0 [] ++ calls 6 3 0 0 [] ++ calls 2 0 0 0 [] ++ calls 6 4 0 0 [] ++
    [.tick, .kernel, .kernel] ++ calls 6 0 0 0 [] ++ calls 28 3 0 0 [] ++
      calls 6 3 0 0 [] ++ calls 6 4 0 0 [] ++
    [.tick, .kernel, .kernel] ++ calls 6 1 0 0 [] ++ calls 28 4 0 0 [] ++ calls 6 4 0 0 []

end HobbyOs.Shell
