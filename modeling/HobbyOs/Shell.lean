import Mathlib.Logic.Function.Basic
import HobbyOs.Config
import HobbyOs.Lib.Hoare

/-!
# The shell

How the shell (`shell.c`) makes commands of a line. A command has a buffer of its
own for the characters of its words, and pointers into it; the commands of a line
are chained. They are taken from a pool of slots, from its end.

A pointer to a character is the slot of the buffer and an offset. An access past
the end of an array, or through a null pointer, is an error.
-/

namespace HobbyOs.Shell

open Outcome

/-! ## Commands -/

/-- `ARGV_BUF_SIZE`. -/
abbrev argvBufSize : ℕ := 4

/-- `CMD_BUF_SIZE`. -/
abbrev cmdBufSize : ℕ := 32

/-- `cmd_t`, in a pool of `n`. -/
structure Cmd (n : ℕ) where
  buf : ℕ → UInt8
  args : ℕ → Option (Fin n × ℕ)
  next : Option (Fin n)

/-- `cmdbuf_t`: the slots, and the number of those that are free. -/
structure CmdBuf (n : ℕ) where
  pool : Fin n → Cmd n
  count : ℕ

/-- What user code must not do. -/
inductive Fault
  | null
  | outOfBounds

/-- The shell's code, on the pool. -/
abbrev SM (n : ℕ) (α : Type) : Type := EStateM Fault (CmdBuf n) α

variable {n : ℕ}

/-- The pool with a slot replaced. -/
def CmdBuf.set (b : CmdBuf n) (i : Fin n) (c : Cmd n) : CmdBuf n :=
  { b with pool := Function.update b.pool i c }

/-- `dst->buf[i] = c`. -/
def setChar (dst : Fin n) (i : ℕ) (c : UInt8) : SM n Unit :=
  if i < cmdBufSize then
    modify fun b => b.set dst { b.pool dst with buf := Function.update (b.pool dst).buf i c }
  else throw .outOfBounds

/-- `dst->args[i] = p`. -/
def setArg (dst : Fin n) (i : ℕ) (p : Option (Fin n × ℕ)) : SM n Unit :=
  if i < argvBufSize then
    modify fun b => b.set dst { b.pool dst with args := Function.update (b.pool dst).args i p }
  else throw .outOfBounds

/-- `dst->args[i][0]`. -/
def argHead (dst : Fin n) (i : ℕ) : SM n UInt8 := do
  if i < argvBufSize then
    let b ← get
    match (b.pool dst).args i with
    | none => throw .null
    | some (j, off) => if off < cmdBufSize then return (b.pool j).buf off else throw .outOfBounds
  else throw .outOfBounds

/-! ## The pool -/

/-- `sh_init_cmd`. -/
def initCmd (c : Cmd n) : Cmd n where
  buf := Function.update c.buf 0 0
  args i := if i < argvBufSize then none else c.args i
  next := none

/-- `sh_init_cmd_slots`, on memory that may hold anything. -/
def initCmdSlots (slots : Fin n → Cmd n) : CmdBuf n := ⟨fun i => initCmd (slots i), n⟩

/-- `sh_alloc_cmd`. -/
def allocCmd : SM n (Option (Fin n)) := do
  let b ← get
  if b.count = 0 then return none
  modify fun b => { b with count := b.count - 1 }
  if h : b.count - 1 < n then return some ⟨b.count - 1, h⟩ else throw .outOfBounds

/-- The loop of `sh_free_cmd_chain`. A chain is not longer than the pool. -/
def freeCmdLoop : (turns : ℕ) → Option (Fin n) → SM n Unit
  | 0, _ | _, none => return ()
  | turns + 1, some i => do
    modify fun b => { b with count := b.count + 1 }
    let next := ((← get).pool i).next
    modify fun b => b.set i (initCmd (b.pool i))
    freeCmdLoop turns next

/-- `sh_free_cmd_chain`. -/
def freeCmdChain (chain : Option (Fin n)) : SM n Unit := freeCmdLoop n chain

/-! ## Parsing -/

/-- The separators. -/
abbrev space : UInt8 := 32
abbrev bar : UInt8 := 124

/-- `while (*input == ' ') input++`. -/
def skipSpaces (input : List UInt8) : List UInt8 := input.dropWhile (· = space)

/-- The loop of `parse_command`, with the rest of the input, and with `buf` as an
    offset into the buffer of `dst`. Each turn moves on in the input, so its length
    bounds their number. -/
def parseCommandLoop (dst : Fin n) : (turns : ℕ) → (input : List UInt8) → (buf argc : ℕ) →
    SM n (List UInt8 × ℕ × ℕ)
  | 0, input, buf, argc => return (input, buf, argc)
  | _, [], buf, argc => return ([], buf, argc)
  | turns + 1, c :: rest, buf, argc => do
    if c = bar then return (c :: rest, buf, argc)
    setChar dst buf c
    if c = space then
      setChar dst buf 0
      let rest := skipSpaces rest
      setArg dst (argc + 1) (some (dst, buf + 1))
      if argc + 1 > argvBufSize - 1 then return (rest, buf + 1, argc + 1)
      parseCommandLoop dst turns rest (buf + 1) (argc + 1)
    else
      if argc > argvBufSize - 1 then return (rest, buf + 1, argc)
      parseCommandLoop dst turns rest (buf + 1) argc

/-- `parse_command`: where in the input it stopped. -/
def parseCommand (input : List UInt8) (dst : Fin n) : SM n (List UInt8) := do
  let input := skipSpaces input
  setArg dst 0 (some (dst, 0))
  let (input, buf, argc) ← parseCommandLoop dst (input.length + 1) input 0 0
  setChar dst buf 0
  let argc := if (← argHead dst argc) ≠ 0 then argc + 1 else argc
  setArg dst argc none
  return input

/-- The loop of `parse`, at the command `tail`. Each turn moves past a separator. -/
def parseLoop : (turns : ℕ) → (input : List UInt8) → (tail : Fin n) → SM n Unit
  | 0, _, _ => return ()
  | turns + 1, input, tail => do
    match ← parseCommand input tail with
    | [] => return ()
    | _ :: input =>
      match ← allocCmd with
      | none => return ()
      | some next =>
        modify fun b => b.set tail { b.pool tail with next := some next }
        parseLoop turns input next

/-- `parse`: the first command. -/
def parse (input : List UInt8) : SM n (Option (Fin n)) := do
  match ← allocCmd with
  | none => return none
  | some head =>
    parseLoop (input.length + 1) input head
    return some head

end HobbyOs.Shell
