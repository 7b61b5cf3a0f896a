import Mathlib.Data.Finset.Card
import HobbyOs.FileCalls
import HobbyOs.Shell

/-!
# The shell's descriptors

`traverse` (`shell.c`) starts the commands of a chain, the last one first. A command
other than the first gets a pipe; the shell keeps the writing end for the command to
the left, which it hands up as the result.

* The calls act on the descriptors of the caller, as those of the kernel do
  (`pipeOpen_fds`, `procClose_fds`, `procDup_fds`, `procFork_fds`). What they find of
  the rest of the system is in their answers.
* A traversal that returns leaves the descriptors as they were if and only if no
  command finds its pipe missing with something already taken for it: the writing end
  of the pipe to its right, or the only descriptor there was
  (`traverse_restores_iff`).
-/

namespace HobbyOs

/-- `proc->files`: the descriptors of a process. -/
abbrev Fds : Type := Fin maxProcFds → Option FileRef

namespace Fds

variable {T : Fds} {f g : FileRef} {i : Fin maxProcFds}

/-- `fd_alloc`: the descriptor, if there is one, and the table with it. -/
def alloc (T : Fds) (f : FileRef) : Option (Fin maxProcFds) × Fds :=
  match (List.finRange maxProcFds).find? fun i => (T i).isNone with
  | none => (none, T)
  | some i => (some i, Function.update T i (some f))

/-- What `pipe_open` does to the table, given the two files, if there are a pipe, a page and
    files for it. When only one descriptor is left, the reading end takes it. -/
def openPipe (T : Fds) : Option (FileRef × FileRef) → Option (Fin maxProcFds × Fin maxProcFds) × Fds
  | none => (none, T)
  | some (f0, f1) =>
    let (fd0, T) := T.alloc f0
    let (fd1, T) := T.alloc f1
    match fd0, fd1 with
    | some fd0, some fd1 => (some (fd0, fd1), T)
    | _, _ => (none, T)

/-- What `proc_close` does to the table. -/
def close (T : Fds) (fd : Fin maxProcFds) : Fds := Function.update T fd none

/-- What `proc_dup` does to the table. -/
def dup (T : Fds) (fd : Fin maxProcFds) : Fds :=
  match T fd with
  | none => T
  | some f => (T.alloc f).2

/-- The number of descriptors that are not in use. -/
def free (T : Fds) : ℕ := (Finset.univ.filter fun i => (T i).isNone).card

/-- A descriptor less, once one is taken. -/
theorem free_update (hi : T i = none) : Fds.free (Function.update T i (some f)) + 1 = T.free := by
  have herase : (Finset.univ.filter fun j => (Function.update T i (some f) j).isNone) =
      (Finset.univ.filter fun j => (T j).isNone).erase i := by
    ext j
    by_cases hj : j = i
    · subst hj
      simp
    · simp [hj]
  rw [free, herase, Finset.card_erase_add_one (by simp [hi]), free]

theorem free_eq_zero : T.free = 0 ↔ ∀ i, T i ≠ none := by
  simp [free, Finset.filter_eq_empty_iff]

/-- `fd_alloc` fails on a full table only. -/
theorem alloc_cases (T : Fds) (f : FileRef) :
    (T.free = 0 ∧ T.alloc f = (none, T)) ∨
      ∃ i, T i = none ∧ T.alloc f = (some i, Function.update T i (some f)) := by
  cases hi : (List.finRange maxProcFds).find? fun i => (T i).isNone with
  | none =>
    refine .inl ⟨free_eq_zero.2 fun i hn => ?_, by rw [alloc, hi]⟩
    simpa [hn] using List.find?_eq_none.1 hi i (List.mem_finRange i)
  | some i => exact .inr ⟨i, by simpa using List.find?_some hi, by rw [alloc, hi]⟩

/-- What `pipe_open` may leave. -/
inductive Opened (T : Fds) (a : Option (FileRef × FileRef)) :
    Option (Fin maxProcFds × Fin maxProcFds) × Fds → Prop
  | none : a = none ∨ T.free = 0 → Opened T a (none, T)
  /-- The reading end has the last descriptor. -/
  | one {i : Fin maxProcFds} {f : FileRef} : a ≠ none → T.free = 1 → T i = none →
      Opened T a (none, Function.update T i (some f))
  | both {i j : Fin maxProcFds} {f g : FileRef} :
      a ≠ none → 2 ≤ T.free → T i = none → T j = none → j ≠ i →
      Opened T a (some (i, j), Function.update (Function.update T i (some f)) j (some g))

theorem openPipe_opened (T : Fds) (a : Option (FileRef × FileRef)) : Opened T a (T.openPipe a) := by
  match a with
  | none => exact .none (.inl rfl)
  | some (f0, f1) =>
    rcases alloc_cases T f0 with ⟨hfull, h0⟩ | ⟨i, hi, h0⟩
    · have h1 : T.alloc f1 = (none, T) := by
        rcases alloc_cases T f1 with ⟨-, h1⟩ | ⟨i, hi, -⟩
        · exact h1
        · exact absurd hi (free_eq_zero.1 hfull i)
      simp only [openPipe, h0, h1]
      exact .none (.inr hfull)
    · have hless := free_update (f := f0) hi
      rcases alloc_cases (Function.update T i (some f0)) f1 with ⟨hfull, h1⟩ | ⟨j, hj, h1⟩
      · simp only [openPipe, h0, h1]
        exact .one nofun (by omega) hi
      · simp only [openPipe, h0, h1]
        have hji : j ≠ i := by
          rintro rfl
          simp at hj
        have hless' := free_update (f := f1) hj
        exact .both nofun (by omega) hi (by simpa [hji] using hj) hji

end Fds

/-! ## The calls of the kernel -/

section

open Outcome

variable {cfg : Config} {p : Slot cfg} {k k' : Kernel cfg} {f : FileRef} {r : ℤ}

theorem fdAlloc_fds {fd : Option (Fin maxProcFds)} (h : fdAlloc p f k = .ok fd k') :
    Fds.alloc (k.procs p).files f = (fd, (k'.procs p).files) := by
  rw [fdAlloc, get_bind_apply] at h
  rw [Fds.alloc]
  cases hi : (List.finRange maxProcFds).find? fun i => ((k.procs p).files i).isNone with
  | none =>
    rw [hi] at h
    cases h
    rfl
  | some i =>
    rw [hi] at h
    cases h
    simp [Kernel.setProc]

/-- What the caller of `pipe_open` is told of the descriptors. -/
inductive TellsPipe (p : Slot cfg) (pipefd : ℕ) (k' : Kernel cfg) :
    Option (Fin maxProcFds × Fin maxProcFds) → ℤ → Prop
  | failed : TellsPipe p pipefd k' none (-1)
  | opened {fd0 fd1 : Fin maxProcFds} {mem : ℕ → UInt8} : va2pa k' (k'.procs p).upagetable pipefd ≠ 0 →
      k'.mem = storeBytes mem (va2pa k' (k'.procs p).upagetable pipefd)
        (bytesOfWord fd0 4 ++ bytesOfWord fd1 4) → TellsPipe p pipefd k' (some (fd0, fd1)) 0

/-- The two files that `pipe_open` takes. -/
def FreshPair (k : Kernel cfg) (e : FileRef × FileRef) : Prop :=
  ∃ f0 f1, freeFile k = some f0 ∧ nextFreeFile k f0 = some f1 ∧ e = (.ftable f0, .ftable f1)

/-- `pipe_open` from where there is a pipe: with a file too few, the table is left alone. -/
theorem pipeEnds_fds {i : Fin maxPipes} {pipefd : ℕ} (h : pipeEnds p i pipefd k = .ok r k') :
    ∃ a, (∀ e ∈ a, FreshPair k e) ∧ (Fds.openPipe (k.procs p).files a).2 = (k'.procs p).files ∧
      TellsPipe p pipefd k' (Fds.openPipe (k.procs p).files a).1 r := by
  rw [pipeEnds, modify_bind_apply] at h
  obtain ⟨r₀, k₁, h₀, h⟩ := bind_eq_ok.1 h
  obtain ⟨r₁, k₂, h₁, h⟩ := bind_eq_ok.1 h
  -- A file object is missing, or both ends get one and the descriptors are taken.
  rcases fsAllocFile_twice h₀ h₁ with ⟨-, rfl, rfl, rfl⟩ | ⟨f0, -, -, rfl, rfl, rfl⟩ |
    ⟨f0, f1, hf0, hf1, rfl, rfl, rfl⟩
  · cases h
    exact ⟨none, by simp, rfl, .failed⟩
  · cases h
    exact ⟨none, by simp, rfl, .failed⟩
  · simp only [modify_bind_apply] at h
    obtain ⟨o0, k₄, hd0, h⟩ := bind_eq_ok.1 h
    obtain ⟨o1, k₅, hd1, h⟩ := bind_eq_ok.1 h
    have ha0 := fdAlloc_fds hd0
    have ha1 := fdAlloc_fds hd1
    simp only [Kernel.setFile, Kernel.setPipe] at ha0
    refine ⟨some (.ftable f0, .ftable f1), by rintro _ ⟨⟩; exact ⟨f0, f1, hf0, hf1, rfl⟩, ?_⟩
    simp only [Fds.openPipe, ha0, ha1]
    cases o0 with
    | none =>
      cases h
      exact ⟨rfl, .failed⟩
    | some fd0 =>
      cases o1 with
      | none =>
        cases h
        exact ⟨rfl, .failed⟩
      | some fd1 =>
        simp only [release, modify_bind_apply, get_bind_apply] at h
        split at h
        · cases h
        · rename_i hpa
          cases h
          exact ⟨rfl, .opened hpa rfl⟩

/-- `pipe_open` does to the caller's descriptors what `Fds.openPipe` says. -/
theorem pipeOpen_fds {pipefd : ℕ} (h : pipeOpen p pipefd k = .ok r k') :
    ∃ a, (∀ e ∈ a, FreshPair k e) ∧ (Fds.openPipe (k.procs p).files a).2 = (k'.procs p).files ∧
      TellsPipe p pipefd k' (Fds.openPipe (k.procs p).files a).1 r := by
  rw [pipeOpen, get_bind_apply] at h
  obtain ⟨o, k₁, h₁, h⟩ := bind_eq_ok.1 h
  obtain ⟨hfiles, hprocs, -⟩ := allocPipe_ok h₁
  have hnew : ∀ e, FreshPair k₁ e ↔ FreshPair k e :=
    fun e => by simp only [FreshPair, freeFile, nextFreeFile, hfiles]
  rw [← hprocs]
  cases o with
  | none =>
    cases h
    exact ⟨none, by simp, rfl, .failed⟩
  | some i =>
    obtain ⟨a, ha, htable⟩ := pipeEnds_fds h
    exact ⟨a, fun e he => (hnew e).1 (ha e he), htable⟩

/-- `proc_close` closes the descriptor. -/
theorem procClose_fds {fd : Fin maxProcFds} (h : procClose p fd k = .ok r k') :
    (k'.procs p).files = Fds.close (k.procs p).files fd := by
  obtain ⟨o, k₁, h₁, h⟩ := bind_eq_ok.1 h
  obtain ⟨rfl, i, hi, ho⟩ := fileOf_ok h₁
  obtain rfl : fd = i := Fin.ext (by omega)
  cases o with
  | none =>
    cases h
    rw [Fds.close, ← ho, Function.update_eq_self]
  | some f =>
    obtain ⟨_, k₂, h₂, h⟩ := bind_eq_ok.1 h
    obtain ⟨_, k₃, h₃, h⟩ := bind_eq_ok.1 h
    cases h
    have hfds : (k₂.procs p).files = (k₁.procs p).files :=
      Frame.same_fds (frame_fsFreeFile (by simp) (by simp) (by simp) (by simp) (by simp) (by simp)) h₂ p
    obtain ⟨-, j, hj, hset⟩ := setFd_ok h₃
    obtain rfl : fd = j := Fin.ext hj
    rw [hset.own, hfds, Fds.close]

/-- `proc_dup` takes the first descriptor that is not in use. -/
theorem procDup_fds {fd : Fin maxProcFds} (h : procDup p fd k = .ok r k') :
    (k'.procs p).files = Fds.dup (k.procs p).files fd := by
  obtain ⟨o, k₁, h₁, h⟩ := bind_eq_ok.1 h
  obtain ⟨rfl, i, hi, ho⟩ := fileOf_ok h₁
  obtain rfl : fd = i := Fin.ext (by omega)
  cases o with
  | none =>
    cases h
    simp only [Fds.dup, ho]
  | some f =>
    obtain ⟨o', k₂, h₂, h⟩ := bind_eq_ok.1 h
    have ha := fdAlloc_fds h₂
    simp only [Fds.dup, ho, ha]
    cases o' <;> cases h <;> rfl

/-- `proc_fork` leaves the parent's descriptors alone, and if there is a child it has the same. -/
theorem procFork_fds (hk : Calm p k) (hcpu : k.core.cpuProc = some p) (h : procFork p k = .ok r k') :
    (k'.procs p).files = (k.procs p).files ∧
      (r ≠ -1 → ∃ q, freeSlot k = some q ∧ (k'.procs q).files = (k.procs p).files) := by
  refine ⟨?_, fun hr => ?_⟩
  · cases procFork_ok hk hcpu h with
    | failed hslot _ _ _ hothers => exact hothers p (freeSlot_ne hcpu hslot).1.symm
    | done hslot _ _ hothers => exact hothers p (freeSlot_ne hcpu hslot).1.symm
  · obtain ⟨q, hslot, -, hcopies, -⟩ := procFork_done hk hcpu h hr
    exact ⟨q, hslot, hcopies.own⟩

end

namespace Shell

open Outcome

/-! ## Starting the commands -/

/-- What the system has for a command: the two files of its pipe, if there is room for a pipe;
    and what `fork` returns, if it succeeds, which is `0` in the child. -/
structure Answers where
  pipe : Option (FileRef × FileRef)
  fork : Option ℕ

/-- A process of the shell: its descriptors, and what it has printed. -/
structure Session where
  fds : Fds
  printed : List String

/-- What a process may leave the shell's code by: `execv`, after which it runs the words' program
    or exits, or an access through a null pointer. -/
inductive Exit
  | execv (args : List String)
  | null

/-- The shell's code, on its descriptors. -/
abbrev FdM (α : Type) : Type := EStateM Exit Session α

/-- `prints`. -/
def prints (text : String) : FdM Unit := modify fun s => { s with printed := s.printed ++ [text] }

/-- `close`, of a descriptor unless it is `-1`. -/
def closeIf (fd : Option (Fin maxProcFds)) : FdM Unit :=
  match fd with
  | none => return ()
  | some fd => modify fun s => { s with fds := s.fds.close fd }

/-- `dup`. -/
def dup (fd : Fin maxProcFds) : FdM Unit := modify fun s => { s with fds := s.fds.dup fd }

/-- `pipe`: the two descriptors, or `-1`. -/
def pipe (a : Option (FileRef × FileRef)) : FdM (Option (Fin maxProcFds × Fin maxProcFds)) := do
  let s ← get
  let (o, fds) := s.fds.openPipe a
  set { s with fds }
  return o

/-- The descriptor `fd` in place of `std`, the standard input or output, unless it is `-1`. -/
def replace (std : Fin maxProcFds) (fd : Option (Fin maxProcFds)) : FdM Unit := do
  match fd with
  | none => return ()
  | some fd =>
    closeIf (some std)
    dup fd
    closeIf (some fd)

/-- What the child does. -/
def child (args : List String) (pipefd : Option (Fin maxProcFds × Fin maxProcFds))
    (rightPipeW : Option (Fin maxProcFds)) : FdM Unit := do
  replace 0 (pipefd.map Prod.fst)
  closeIf (pipefd.map Prod.snd)
  replace 1 rightPipeW
  throw (.execv args)

/-- The branches on what `fork` returned. -/
def branch (args : List String) (fork : Option ℕ) (pipefd : Option (Fin maxProcFds × Fin maxProcFds))
    (rightPipeW : Option (Fin maxProcFds)) : FdM Unit :=
  match fork with
  | none => prints "ERROR: fork!\n"
  | some 0 => child args pipefd rightPipeW
  | some _ => return ()

/-- `traverse` from the `fork` on. -/
def spawn (args : List String) (fork : Option ℕ) (pipefd : Option (Fin maxProcFds × Fin maxProcFds))
    (rightPipeW : Option (Fin maxProcFds)) : FdM (Option (Fin maxProcFds)) := do
  branch args fork pipefd rightPipeW
  closeIf (pipefd.map Prod.fst)
  closeIf rightPipeW
  return pipefd.map Prod.snd

/-- `traverse` once the chain to the right is started. -/
def start (args : List String) (a : Answers) (depth : ℕ) (rightPipeW : Option (Fin maxProcFds)) :
    FdM (Option (Fin maxProcFds)) := do
  if depth > 0 then
    match ← pipe a.pipe with
    | none =>
      prints "ERROR: pipe=-1\n"
      return none
    | some pipefd => spawn args a.fork (some pipefd) rightPipeW
  else spawn args a.fork none rightPipeW

/-- `traverse`: the writing end of the pipe of the command, or `-1`. The chain is the list of the
    commands' words, and the answers are by depth. -/
def traverse (answers : ℕ → Answers) : (chain : List (List String)) → (depth : ℕ) →
    FdM (Option (Fin maxProcFds))
  | [], _ => throw .null
  | args :: next, depth => do
    let rightPipeW ← (if next = [] then pure none else traverse answers next (depth + 1) : FdM _)
    start args (answers depth) depth rightPipeW

/-! ## What a traversal leaves -/

/-- The command gets its pipe, where `free` descriptors are not in use before the traversal: the
    shell holds one end of the pipe to the right meanwhile. -/
def piped (answers : ℕ → Answers) (free : ℕ) : List (List String) → (depth : ℕ) → Bool
  | [], _ => false
  | _ :: next, depth =>
    0 < depth && (answers depth).pipe.isSome && (piped answers free next (depth + 1)).toNat + 2 ≤ free

/-- The first command of the chain has its pipe if it needs one; or else neither has the one to
    its right, and there is not just one descriptor for the two ends. -/
def CleanAt (answers : ℕ → Answers) (free : ℕ) (chain : List (List String)) (depth : ℕ) : Prop :=
  depth = 0 ∨ piped answers free chain depth = true ∨
    piped answers free chain.tail (depth + 1) = false ∧ ((answers depth).pipe = none ∨ free ≠ 1)

/-- No command of the chain fails to get its pipe with something taken for it. -/
def Clean (answers : ℕ → Answers) (free : ℕ) : List (List String) → (depth : ℕ) → Prop
  | [], _ => True
  | args :: next, depth => Clean answers free next (depth + 1) ∧ CleanAt answers free (args :: next) depth

/-- Of the table `T` the shell has kept just the descriptor it hands up. -/
inductive Hands (T : Fds) : Option (Fin maxProcFds) → Fds → Prop
  | nothing : Hands T none T
  | fd {w : Fin maxProcFds} {f : FileRef} : T w = none → Hands T (some w) (Function.update T w (some f))

/-- A descriptor that nobody is told of is in use. -/
def Leaks (T : Fds) (r : Option (Fin maxProcFds)) (T' : Fds) : Prop :=
  ∃ i, T i = none ∧ T' i ≠ none ∧ r ≠ some i

section

variable {answers : ℕ → Answers} {chain next : List (List String)} {args : List String} {depth free : ℕ}
  {s s' : Session} {T T' T₁ : Fds} {r : Option (Fin maxProcFds)}

theorem Hands.free_eq (h : Hands T r T') : T'.free + r.isSome.toNat = T.free := by
  cases h with
  | nothing => rfl
  | fd hw => exact Fds.free_update hw

/-- What is in use stays in use, but for what is handed up. -/
theorem Hands.eq_none (h : Hands T r T') {i : Fin maxProcFds} (hi : T' i = none) : T i = none := by
  cases h with
  | nothing => exact hi
  | @fd w f hw =>
    by_cases hiw : i = w
    · exact hiw ▸ hw
    · simpa [hiw] using hi

/-- The child does not return. -/
theorem child_not_ok {pipefd : Option (Fin maxProcFds × Fin maxProcFds)} {w : Option (Fin maxProcFds)} :
    child args pipefd w s ≠ .ok () s' := by
  intro h
  obtain ⟨_, _, -, h⟩ := bind_eq_ok.1 h
  obtain ⟨_, _, -, h⟩ := bind_eq_ok.1 h
  obtain ⟨_, _, -, h⟩ := bind_eq_ok.1 h
  cases h

/-- The table without a descriptor, unless it is `-1`. -/
def without (T : Fds) (fd : Option (Fin maxProcFds)) : Fds := fd.elim T T.close

theorem closeIf_apply (fd : Option (Fin maxProcFds)) :
    closeIf fd s = .ok () { s with fds := without s.fds fd } := by
  cases fd <;> rfl

/-- `traverse` from the `fork` on, when it returns. -/
theorem spawn_ok {fork : Option ℕ} {pipefd : Option (Fin maxProcFds × Fin maxProcFds)}
    {w : Option (Fin maxProcFds)} (h : spawn args fork pipefd w s = .ok r s') :
    r = pipefd.map Prod.snd ∧ s'.fds = without (without s.fds (pipefd.map Prod.fst)) w := by
  obtain ⟨_, s₁, h₁, h⟩ := bind_eq_ok.1 h
  have hfds : s₁.fds = s.fds := by
    unfold branch at h₁
    split at h₁
    · cases h₁
      rfl
    · exact absurd h₁ child_not_ok
    · cases h₁
      rfl
  rw [bind_ok (closeIf_apply _), bind_ok (closeIf_apply _)] at h
  cases h
  exact ⟨rfl, by rw [hfds]⟩

/-- What starting a command may leave of the table `T₁`, with the writing end `w` of the pipe to
    its right. -/
inductive Starts (a : Answers) (depth : ℕ) (w : Option (Fin maxProcFds)) (T₁ : Fds) :
    Option (Fin maxProcFds) → Fds → Prop
  | first : depth = 0 → Starts a depth w T₁ none (without T₁ w)
  | noPipe : 0 < depth → a.pipe = none ∨ T₁.free = 0 → Starts a depth w T₁ none T₁
  | oneEnd {i : Fin maxProcFds} {f : FileRef} :
      0 < depth → a.pipe ≠ none → T₁.free = 1 → T₁ i = none →
      Starts a depth w T₁ none (Function.update T₁ i (some f))
  | piped {j : Fin maxProcFds} {g : FileRef} :
      0 < depth → a.pipe ≠ none → 2 ≤ T₁.free → T₁ j = none →
      Starts a depth w T₁ (some j) (without (Function.update T₁ j (some g)) w)

theorem start_starts {a : Answers} {w : Option (Fin maxProcFds)} (h : start args a depth w s = .ok r s') :
    Starts a depth w s.fds r s'.fds := by
  rw [start] at h
  split at h
  · rename_i hd
    obtain ⟨o, s₁, h₁, h⟩ := bind_eq_ok.1 h
    have hopened := Fds.openPipe_opened s.fds a.pipe
    rw [pipe, get_bind_apply] at h₁
    cases ho : s.fds.openPipe a.pipe with
    | mk o' fds =>
      rw [ho] at h₁ hopened
      cases h₁
      cases hopened with
      | none hn =>
        cases h
        exact .noPipe hd hn
      | one ha hone hi =>
        cases h
        exact .oneEnd hd ha hone hi
      | @both i j f g ha htwo hi hj hji =>
        obtain ⟨rfl, hfds⟩ := spawn_ok h
        -- The shell closes the reading end, and keeps the writing end.
        have hclosed : Fds.close (Function.update (Function.update s.fds i (some f)) j (some g)) i =
            Function.update s.fds j (some g) := by
          rw [Fds.close, Function.update_comm hji.symm, Function.update_idem, ← hi,
            Function.update_eq_self_iff]
          simp [hji.symm]
        rw [hfds]
        simp only [Option.map_some, without, Option.elim_some, hclosed]
        exact .piped hd ha htwo hj
  · obtain ⟨rfl, hfds⟩ := spawn_ok h
    rw [hfds]
    exact .first (by omega)

theorem without_of_ne {i : Fin maxProcFds} (h : r ≠ some i) : without T r i = T i := by
  cases r with
  | none => rfl
  | some w =>
    have hiw : i ≠ w := fun hi => h (congrArg some hi.symm)
    simp [without, Fds.close, hiw]

theorem Hands.without_eq (h : Hands T r T') : without T' r = T := by
  cases h with
  | nothing => rfl
  | fd hw => simp [without, Fds.close, ← hw]

/-- What is handed up does not matter to the other descriptors. -/
theorem Hands.without_update (h : Hands T r T') {j : Fin maxProcFds} {g : FileRef} (hj : T' j = none) :
    without (Function.update T' j (some g)) r = Function.update T j (some g) := by
  cases h with
  | nothing => rfl
  | @fd w f hw =>
    have hjw : j ≠ w := by
      rintro rfl
      simp at hj
    rw [without, Option.elim_some, Fds.close, Function.update_comm hjw, Function.update_idem, ← hw,
      Function.update_eq_self]

/-- A leak stays, whatever is started next. -/
theorem Leaks.starts {a : Answers} {w : Option (Fin maxProcFds)} (h : Leaks T w T₁)
    (hs : Starts a depth w T₁ r T') : Leaks T r T' := by
  obtain ⟨i, hi, hused, hwi⟩ := h
  refine ⟨i, hi, ?_⟩
  have hne : ∀ {j : Fin maxProcFds}, T₁ j = none → i ≠ j := by
    rintro j hj rfl
    exact hused hj
  cases hs with
  | first => exact ⟨by rwa [without_of_ne hwi], nofun⟩
  | noPipe => exact ⟨hused, nofun⟩
  | oneEnd _ _ _ hj => exact ⟨by rwa [Function.update_of_ne (hne hj)], nofun⟩
  | piped _ _ _ hj =>
    refine ⟨by rwa [without_of_ne hwi, Function.update_of_ne (hne hj)], fun h => ?_⟩
    exact hne hj (Option.some.inj h).symm

/-- Where nothing has leaked, a command that is started as it should leaves nothing but what it
    hands up; else there is a leak. -/
theorem Hands.starts {w : Option (Fin maxProcFds)} (args : List String) (h : Hands T w T₁)
    (hw : w.isSome = piped answers T.free next (depth + 1))
    (hs : Starts (answers depth) depth w T₁ r T') :
    (CleanAt answers T.free (args :: next) depth ∧ Hands T r T' ∧
      r.isSome = piped answers T.free (args :: next) depth) ∨
    (¬CleanAt answers T.free (args :: next) depth ∧ Leaks T r T') := by
  have hfree := h.free_eq
  simp only [CleanAt, piped, List.tail_cons, ← hw, Bool.and_eq_true, decide_eq_true_eq,
    Option.isSome_iff_ne_none]
  -- Whether there is a leak depends on whether a pipe is handed in and on the outcome
  -- of `pipe`.
  cases hs with
  | first hd =>
    subst hd
    refine .inl ⟨.inl rfl, ?_, rfl⟩
    rw [h.without_eq]
    exact .nothing
  | noPipe hd hnone =>
    cases h with
    | nothing =>
      refine .inl ⟨.inr (.inr ⟨rfl, hnone.imp_right fun hfull => by omega⟩), .nothing, ?_⟩
      rcases hnone with hnone | hfull
      · simp [hnone]
      · simp [hfull]
    | fd hwi =>
      -- The end that was handed in stays open, as the shell returns before it closes
      -- it.
      refine .inr ⟨?_, _, hwi, by simp, nofun⟩
      rintro (rfl | ⟨⟨-, ha⟩, htwo⟩ | ⟨hn, -⟩)
      · exact absurd hd (lt_irrefl 0)
      · rcases hnone with hnone | hfull
        · exact ha hnone
        · simp only [Option.isSome_some, Bool.toNat_true] at htwo hfree
          omega
      · cases hn
  | oneEnd hd ha hone hi =>
    refine .inr ⟨?_, _, h.eq_none hi, by simp, nofun⟩
    rintro (rfl | ⟨-, htwo⟩ | ⟨hn, hor⟩)
    · exact absurd hd (lt_irrefl 0)
    · omega
    · rcases hor with hnone | hne
      · exact ha hnone
      · rw [hn, Bool.toNat_false] at hfree
        omega
  | piped hd ha htwo hj =>
    refine .inl ⟨.inr (.inl ⟨⟨hd, ha⟩, by omega⟩), ?_, ?_⟩
    · rw [h.without_update hj]
      exact .fd (h.eq_none hj)
    · have hpiped : w.isSome.toNat + 2 ≤ T.free := by omega
      simp [hd, Option.isSome_iff_ne_none, ha, hpiped]

/-- What a traversal leaves. -/
theorem traverse_result (hne : chain ≠ []) (h : traverse answers chain depth s = .ok r s') :
    (Clean answers s.fds.free chain depth ∧ Hands s.fds r s'.fds ∧
      r.isSome = piped answers s.fds.free chain depth) ∨
    (¬Clean answers s.fds.free chain depth ∧ Leaks s.fds r s'.fds) := by
  induction chain generalizing depth s s' r with
  | nil => exact absurd rfl hne
  | cons args next ih =>
    rw [traverse] at h
    obtain ⟨w, s₁, h₁, h⟩ := bind_eq_ok.1 h
    have hs := start_starts h
    have hright : (Clean answers s.fds.free next (depth + 1) ∧ Hands s.fds w s₁.fds ∧
          w.isSome = piped answers s.fds.free next (depth + 1)) ∨
        (¬Clean answers s.fds.free next (depth + 1) ∧ Leaks s.fds w s₁.fds) := by
      split at h₁
      · rename_i hnil
        cases h₁
        subst hnil
        exact .inl ⟨trivial, .nothing, rfl⟩
      · rename_i hcons
        exact ih hcons h₁
    rcases hright with ⟨hclean, hands, hw⟩ | ⟨hclean, hleaks⟩
    · rcases hands.starts args hw hs with ⟨hat, hands, hr⟩ | ⟨hat, hleaks⟩
      · exact .inl ⟨⟨hclean, hat⟩, hands, hr⟩
      · exact .inr ⟨fun hc => hat hc.2, hleaks⟩
    · exact .inr ⟨fun hc => hclean hc.1, hleaks.starts hs⟩

/-- A traversal that returns leaves the shell's descriptors as they were if and only if no command
    failed to get its pipe with something taken for it. -/
theorem traverse_restores_iff (hne : chain ≠ []) (h : traverse answers chain 0 s = .ok r s') :
    s'.fds = s.fds ↔ Clean answers s.fds.free chain 0 := by
  rcases traverse_result hne h with ⟨hclean, hands, hr⟩ | ⟨hclean, i, hi, hused, -⟩
  · have hnone : r = none := by
      cases chain with
      | nil => exact absurd rfl hne
      | cons args next => simpa [piped] using hr
    rw [hnone] at hands
    generalize s'.fds = T' at hands
    cases hands
    exact ⟨fun _ => hclean, fun _ => rfl⟩
  · refine ⟨fun heq => ?_, fun h => absurd h hclean⟩
    rw [heq] at hused
    exact absurd hi hused

/-- In the shell, `fork` does not return `0`. -/
theorem spawn_returns {fork : Option ℕ} {pipefd : Option (Fin maxProcFds × Fin maxProcFds)}
    {w : Option (Fin maxProcFds)} (hfork : fork ≠ some 0) (s : Session) :
    ∃ r s', spawn args fork pipefd w s = .ok r s' := by
  have hb : ∃ s₁, branch args fork pipefd w s = .ok () s₁ := by
    match fork, hfork with
    | none, _ => exact ⟨_, rfl⟩
    | some (n + 1), _ => exact ⟨_, rfl⟩
  obtain ⟨s₁, hb⟩ := hb
  rw [spawn, bind_ok hb, bind_ok (closeIf_apply _), bind_ok (closeIf_apply _)]
  exact ⟨_, _, rfl⟩

theorem start_returns {a : Answers} {w : Option (Fin maxProcFds)} (hfork : a.fork ≠ some 0) (s : Session) :
    ∃ r s', start args a depth w s = .ok r s' := by
  rw [start]
  split
  · rw [bind_ok (show pipe a.pipe s = .ok (s.fds.openPipe a.pipe).1
      { s with fds := (s.fds.openPipe a.pipe).2 } from rfl)]
    cases (s.fds.openPipe a.pipe).1 with
    | none => exact ⟨_, _, rfl⟩
    | some pipefd => exact spawn_returns hfork _
  · exact spawn_returns hfork _

/-- In the shell, a traversal returns. -/
theorem traverse_returns (hfork : ∀ d, (answers d).fork ≠ some 0) (hne : chain ≠ []) (s : Session) :
    ∃ r s', traverse answers chain depth s = .ok r s' := by
  induction chain generalizing depth s with
  | nil => exact absurd rfl hne
  | cons args next ih =>
    rw [traverse]
    split
    · rw [bind_ok (show (pure none : FdM (Option (Fin maxProcFds))) s = .ok none s from rfl)]
      exact start_returns (hfork depth) s
    · rename_i hcons
      obtain ⟨w, s₁, h₁⟩ := ih hcons s
      rw [bind_ok h₁]
      exact start_returns (hfork depth) s₁

/-- The shell as it starts. -/
def shellSession : Session := ⟨stdFds, []⟩

/-- The last command gets its pipe, and there is none for the second one. -/
def onePipe (depth : ℕ) : Answers where
  pipe := if depth = 2 then some (.ftable 0, .ftable 1) else none
  fork := some (4 + depth)

/-- Three commands. -/
def threeCommands : List (List String) := [["cat"], ["cat"], ["cat"]]

/-- The writing end of the pipe of the last command stays open in the shell. -/
theorem traverse_onePipe_leaks :
    ∃ r s', traverse onePipe threeCommands 0 shellSession = .ok r s' ∧ s'.fds ≠ shellSession.fds := by
  refine ⟨none, _, rfl, fun h => ?_⟩
  have h4 := congrFun h 4
  revert h4
  decide

/-- Of two commands, the second has no pipe: nothing is left. -/
theorem traverse_onePipe_restores :
    ∃ r s', traverse onePipe (threeCommands.take 2) 0 shellSession = .ok r s' ∧
      s'.fds = shellSession.fds := by
  have hne : threeCommands.take 2 ≠ [] := by decide
  obtain ⟨r, s', h⟩ : ∃ r s', traverse onePipe (threeCommands.take 2) 0 shellSession = .ok r s' :=
    traverse_returns (by simp [onePipe]) hne _
  exact ⟨r, s', h,
    (traverse_restores_iff hne h).2 ⟨⟨trivial, .inr (.inr ⟨rfl, .inl rfl⟩)⟩, .inl rfl⟩⟩

end

end Shell

end HobbyOs
