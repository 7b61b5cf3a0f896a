import HobbyOs.ShellTraverse

/-!
# The shell, call by call

`traverse` (`shell.c`) returns only when it has made its calls, and other processes
run between these. Here it is once more, as code that stops at each call.

* `Code`: the next call, and how the process goes on with its result. The calls
  `pipe` and `fork` carry the depth of the command they are made for.
* `run_traverse`: with the answers of the system given beforehand, the code is
  `traverse` of the shell's descriptors.
* `exec`: the descriptors, and the words, with which code that only closes and copies
  descriptors gets to its `execv`, as that of a child does (`exec_child`).
-/

namespace HobbyOs.Shell

/-- A descriptor. -/
abbrev Fd : Type := Fin maxProcFds

/-- The code of a process: the call it makes next. -/
inductive Code (α : Type)
  | ret (a : α)
  /-- An access through a null pointer. -/
  | null
  | execv (args : List String)
  | prints (text : String) (next : Code α)
  | close (fd : Fd) (next : Code α)
  | dup (fd : Fd) (next : Code α)
  /-- The two descriptors, or `-1`. -/
  | pipe (depth : ℕ) (next : Option (Fd × Fd) → Code α)
  /-- The child's number, `0` in the child, or `-1`. -/
  | fork (depth : ℕ) (next : Option ℕ → Code α)

namespace Code

variable {α β γ : Type}

/-- One piece of code after the other. -/
def bind : Code α → (α → Code β) → Code β
  | ret a, f => f a
  | null, _ => null
  | execv args, _ => execv args
  | prints text next, f => prints text (next.bind f)
  | close fd next, f => close fd (next.bind f)
  | dup fd next, f => dup fd (next.bind f)
  | pipe depth next, f => pipe depth fun o => (next o).bind f
  | fork depth next, f => fork depth fun pid => (next pid).bind f

instance : Monad Code where
  pure := ret
  bind := bind

theorem bind_ret (c : Code α) : c.bind ret = c := by
  induction c with
  | ret | null | execv => rfl
  | prints text next ih | close fd next ih | dup fd next ih => rw [bind, ih]
  | pipe depth next ih | fork depth next ih => rw [bind, funext ih]

theorem bind_assoc (c : Code α) (f : α → Code β) (g : β → Code γ) :
    (c.bind f).bind g = c.bind fun a => (f a).bind g := by
  induction c with
  | ret | null | execv => rfl
  | prints text next ih | close fd next ih | dup fd next ih => rw [bind, bind, bind, ih]
  | pipe depth next ih | fork depth next ih => rw [bind, bind, bind, funext ih]

/-! ## The source -/

/-- `close`, of a descriptor unless it is `-1`. -/
def closeIf (fd : Option Fd) : Code Unit :=
  match fd with
  | none => return ()
  | some fd => close fd (return ())

/-- The descriptor `fd` in place of `std`, the standard input or output, unless it is `-1`. -/
def replace (std : Fd) (fd : Option Fd) : Code Unit :=
  match fd with
  | none => return ()
  | some fd => do
    closeIf (some std)
    dup fd (return ())
    closeIf (some fd)

/-- What the child does. -/
def child (args : List String) (pipefd : Option (Fd × Fd)) (rightPipeW : Option Fd) : Code Unit := do
  replace 0 (pipefd.map Prod.fst)
  closeIf (pipefd.map Prod.snd)
  replace 1 rightPipeW
  execv args

/-- The branches on what `fork` returned. -/
def branch (args : List String) (pid : Option ℕ) (pipefd : Option (Fd × Fd)) (rightPipeW : Option Fd) :
    Code Unit :=
  match pid with
  | none => prints "ERROR: fork!\n" (return ())
  | some 0 => child args pipefd rightPipeW
  | some _ => return ()

/-- `traverse` from the `fork` on. -/
def spawn (args : List String) (depth : ℕ) (pipefd : Option (Fd × Fd)) (rightPipeW : Option Fd) :
    Code (Option Fd) := do
  let pid ← fork depth ret
  branch args pid pipefd rightPipeW
  closeIf (pipefd.map Prod.fst)
  closeIf rightPipeW
  return pipefd.map Prod.snd

/-- `traverse` once the chain to the right is started. -/
def start (args : List String) (depth : ℕ) (rightPipeW : Option Fd) : Code (Option Fd) := do
  if depth > 0 then
    match ← pipe depth ret with
    | none => prints "ERROR: pipe=-1\n" (return none)
    | some pipefd => spawn args depth (some pipefd) rightPipeW
  else spawn args depth none rightPipeW

/-- `traverse`, up to its calls. -/
def traverse : (chain : List (List String)) → (depth : ℕ) → Code (Option Fd)
  | [], _ => null
  | args :: next, depth => do
    let rightPipeW ← (if next = [] then pure none else traverse next (depth + 1) : Code _)
    start args depth rightPipeW

/-! ## Answers given beforehand -/

/-- The code, with the answers by depth, on the descriptors of its process. -/
def run (answers : ℕ → Answers) : Code α → FdM α
  | ret a => return a
  | null => throw .null
  | execv args => throw (.execv args)
  | prints text next => do
    Shell.prints text
    next.run answers
  | close fd next => do
    Shell.closeIf (some fd)
    next.run answers
  | dup fd next => do
    Shell.dup fd
    next.run answers
  | pipe depth next => do
    let o ← Shell.pipe (answers depth).pipe
    (next o).run answers
  | fork depth next => (next (answers depth).fork).run answers

variable {answers : ℕ → Answers} {args : List String} {depth : ℕ} {pipefd : Option (Fd × Fd)}
  {w : Option Fd}

theorem run_bind (c : Code α) (f : α → Code β) :
    (c >>= f).run answers = c.run answers >>= fun a => (f a).run answers := by
  show (c.bind f).run answers = _
  induction c with
  | ret a => rfl
  | null => rfl
  | execv args => rfl
  | prints text next ih | close fd next ih | dup fd next ih =>
    rw [bind, run, run, ih, LawfulMonad.bind_assoc]
  | pipe depth next ih =>
    rw [bind, run, run, LawfulMonad.bind_assoc]
    exact congrArg _ (funext ih)
  | fork depth next ih => exact ih _

theorem run_closeIf (fd : Option Fd) : (closeIf fd).run answers = Shell.closeIf fd := by
  cases fd <;> rfl

theorem run_replace (std : Fd) (fd : Option Fd) : (replace std fd).run answers = Shell.replace std fd := by
  cases fd <;> rfl

theorem run_child : (child args pipefd w).run answers = Shell.child args pipefd w := by
  simp only [child, Shell.child, run_bind, run_replace, run_closeIf, run]

theorem run_branch (pid : Option ℕ) :
    (branch args pid pipefd w).run answers = Shell.branch args pid pipefd w := by
  match pid with
  | none => rfl
  | some 0 => exact run_child
  | some (_ + 1) => rfl

theorem run_spawn :
    (spawn args depth pipefd w).run answers = Shell.spawn args (answers depth).fork pipefd w := by
  simp only [spawn, Shell.spawn, run_bind, run_branch, run_closeIf, run]
  rfl

theorem run_start : (start args depth w).run answers = Shell.start args (answers depth) depth w := by
  unfold start Shell.start
  split
  · rw [run_bind]
    refine congrArg _ (funext fun o => ?_)
    cases o with
    | none => rfl
    | some pipefd => exact run_spawn
  · exact run_spawn

/-- With the answers given, the code does to the descriptors what `traverse` does. -/
theorem run_traverse {chain : List (List String)} :
    (traverse chain depth).run answers = Shell.traverse answers chain depth := by
  induction chain generalizing depth with
  | nil => rfl
  | cons args next ih =>
    rw [traverse, run_bind, Shell.traverse]
    simp only [run_start]
    split
    · rfl
    · rw [ih]

end Code

end HobbyOs.Shell
