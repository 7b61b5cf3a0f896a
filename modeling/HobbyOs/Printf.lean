import HobbyOs.Bakedinfs
import HobbyOs.Lib.Hoare

/-!
# Formatted output

`PRINTF_IMPL` and `PRINT_RADIX_IMPL` (`printf-macro.h`), and the functions that are
made of them: `kprintfvec`, which sends the characters to the UART, and
`ksprintfvec` and `printfvecbuf`, which store them to a buffer. The last bytes of
the buffer are the area where numbers are converted.

Memory is by the distance from `buf`. Strings (the format, and those that arguments
point to) are elsewhere. To read the format past its terminator, or through a pointer
that was not set, is an error.
-/

namespace HobbyOs.Printf

open Outcome

/-! ## State -/

/-- `DIGIT_BUF_SZ`. -/
abbrev digitBufSize : ℕ := 21

/-- The characters of a C string, without its terminator. -/
abbrev CStr : Type := {chars : List UInt8 // 0 ∉ chars}

/-- Where `_PRINTF_WRITE_CHAR` puts a character. -/
inductive Sink
  | uart
  | buf
  deriving DecidableEq

/-- The memory, what was sent to the UART, and at which indices something was stored to `buf`. -/
structure Output where
  mem : ℤ → UInt8
  sent : List UInt8
  stores : List ℕ

/-- What the code must not do. -/
inductive Fault
  | pastEnd
  | uninitialised

abbrev PM (α : Type) : Type := EStateM Fault Output α

/-- The variables that `PRINTF_IMPL` finds in the function it is expanded in: `digit_buf` is a
    distance from `buf`. -/
structure Front where
  sink : Sink
  bufsize : ℤ
  digitBuf : ℤ
  nargs : ℕ

/-- A character is written. -/
def Output.put (s : Output) (f : Front) (dsti : ℕ) (c : UInt8) : Output :=
  match f.sink with
  | .uart => { s with sent := s.sent ++ [c] }
  | .buf => { s with mem := Function.update s.mem dsti c, stores := s.stores ++ [dsti] }

/-- `_PRINTF_WRITE_CHAR`. -/
def write (f : Front) (dsti : ℕ) (c : UInt8) : PM Unit := modify fun s => s.put f dsti c

/-! ## Numbers -/

/-- A digit. -/
def digitByte (digit : ℕ) : UInt8 := if digit > 9 then (97 + (digit - 10)).toUInt8 else (48 + digit).toUInt8

/-- The loop of `PRINT_RADIX_IMPL`, with `left` for `dsti + 1`: the memory, and `dsti + 1` after it. -/
def radixLoop (radix : ℕ) (buf : ℤ) : (left num : ℕ) → (mem : ℤ → UInt8) → (ℤ → UInt8) × ℕ
  | 0, _, mem => (mem, 0)
  | left + 1, num, mem =>
    if num = 0 then (mem, left + 1)
    else radixLoop radix buf left (num / radix) (Function.update mem (buf + left) (digitByte (num % radix)))

/-- `PRINT_RADIX_IMPL` with a `size` of `DIGIT_BUF_SZ`, where `neg` is `-num` in the type of `num`:
    the memory, and where in `buf` the number starts. -/
def printRadixImpl (num neg : ℤ) (radix : ℕ) (buf : ℤ) (mem : ℤ → UInt8) : (ℤ → UInt8) × ℤ :=
  let mem := Function.update mem (buf + 20) 0
  if num = 0 then (Function.update mem (buf + 19) 48, 19)
  else if num < 0 then
    let (mem, dsti) := radixLoop radix buf 20 neg.toNat mem
    (Function.update mem (buf + (dsti - 1)) 45, dsti - 1)
  else
    let (mem, dsti) := radixLoop radix buf 20 num.toNat mem
    (mem, dsti)

variable {w : ℕ}

/-- `kprint_radix` and `print_radix`. -/
def printRadix (num : BitVec w) (radix : ℕ) (buf : ℤ) (mem : ℤ → UInt8) : (ℤ → UInt8) × ℤ :=
  printRadixImpl num.toInt (-num).toInt radix buf mem

/-- `kprint_radixu` and `print_radixu`. -/
def printRadixu (num : BitVec w) (radix : ℕ) (buf : ℤ) (mem : ℤ → UInt8) : (ℤ → UInt8) × ℤ :=
  printRadixImpl num.toNat (-num).toNat radix buf mem

/-! ## Formats -/

/-- What `tmp` points to: the rest of a string elsewhere, or memory at a distance from `buf`. -/
inductive Tmp
  | text (chars : List UInt8)
  | digits (off : ℤ)

/-- `*tmp`. -/
def Tmp.head (mem : ℤ → UInt8) : Tmp → UInt8
  | .text chars => chars.headD 0
  | .digits off => mem off

/-- `tmp + 1`. -/
def Tmp.next : Tmp → Tmp
  | .text chars => .text chars.tail
  | .digits off => .digits (off + 1)

/-- The loop that writes what `tmp` points to: whether it returned, and `dsti`. It returns when
    `dsti` gets to `bufsize`, which bounds the number of turns. -/
def copyLoop (f : Front) : (turns : ℕ) → Tmp → (dsti : ℕ) → PM (Bool × ℕ)
  | 0, _, dsti => return (true, dsti)
  | turns + 1, tmp, dsti => do
    let c := tmp.head (← get).mem
    if c = 0 then return (false, dsti)
    write f dsti c
    if f.bufsize ≤ (dsti + 1 : ℕ) then return (true, dsti + 1)
    copyLoop f turns tmp.next (dsti + 1)

/-- A number is converted. -/
def convertNumber (f : Front) (print : ℤ → (ℤ → UInt8) → (ℤ → UInt8) × ℤ) : PM Tmp := do
  let s ← get
  let (mem, off) := print f.digitBuf s.mem
  set { s with mem }
  return .digits (f.digitBuf + off)

/-- The characters that start a conversion and that name one. -/
abbrev percent : UInt8 := 37
abbrev charC : UInt8 := 99
abbrev charD : UInt8 := 100
abbrev charP : UInt8 := 112
abbrev charX : UInt8 := 120
abbrev charS : UInt8 := 115

/-- The `switch`: `tmp` and `dsti`. Without a case for the character, `tmp` is not set. -/
def convert (f : Front) (str : BitVec w → CStr) (c : UInt8) (arg : BitVec w) (dsti : ℕ) :
    PM (Tmp × ℕ) := do
  if c = charC then
    let cb := UInt8.ofBitVec (arg.setWidth 8)
    return (.text (if cb = 0 then [] else [cb]), dsti)
  else if c = charD then return (← convertNumber f (printRadix arg 10), dsti)
  else if c = charP then
    write f dsti 48
    write f (dsti + 1) 120
    return (← convertNumber f (printRadixu arg 16), dsti + 2)
  else if c = charX then return (← convertNumber f (printRadix arg 16), dsti)
  else if c = charS then return (.text (str arg).1, dsti)
  else throw .uninitialised

/-- `fmt[i]`. -/
def charOf (fmt : CStr) (i : ℕ) : PM UInt8 :=
  if i ≤ fmt.1.length then return fmt.1.getD i 0 else throw .pastEnd

/-- Where a turn of the loop leaves `srci`, `argnum` and `dsti`, and whether it returned. -/
structure Turn where
  returned : Bool
  srci : ℕ
  argnum : ℕ
  dsti : ℕ

/-- The end of a turn. -/
def finish (f : Front) (srci argnum dsti : ℕ) : Turn := ⟨f.bufsize ≤ dsti, srci, argnum, dsti⟩

/-- A turn of the loop, at the character `c`. -/
def turn (f : Front) (str : BitVec w → CStr) (fmt : CStr) (args : ℕ → BitVec w) (c : UInt8)
    (srci argnum dsti : ℕ) :
    PM Turn := do
  if c = percent ∧ argnum < f.nargs then
    let c ← charOf fmt (srci + 1)
    if c = percent then
      write f dsti percent
      return finish f (srci + 2) argnum (dsti + 1)
    let (tmp, dsti) ← convert f str c (args argnum) dsti
    let (returned, dsti) ← copyLoop f (f.bufsize.toNat + 1) tmp dsti
    if returned then return ⟨true, srci + 2, argnum + 1, dsti⟩
    return finish f (srci + 2) (argnum + 1) dsti
  else
    write f dsti c
    return finish f (srci + 1) argnum (dsti + 1)

/-- The loop of `PRINTF_IMPL`. Each turn moves on in the format: one more than there are characters
    would be past its end. -/
def formatLoop (f : Front) (str : BitVec w → CStr) (fmt : CStr) (args : ℕ → BitVec w) :
    (turns srci argnum dsti : ℕ) → PM ℕ
  | 0, _, _, _ => throw .pastEnd
  | turns + 1, srci, argnum, dsti => do
    let c ← charOf fmt srci
    if c = 0 then return dsti
    let t ← turn f str fmt args c srci argnum dsti
    if t.returned then return t.dsti
    formatLoop f str fmt args turns t.srci t.argnum t.dsti

/-- `PRINTF_IMPL`. -/
def printf (f : Front) (str : BitVec w → CStr) (fmt : CStr) (args : ℕ → BitVec w) : PM ℕ :=
  formatLoop f str fmt args (fmt.1.length + 1) 0 0 0

/-! ## The front ends -/

/-- The variables of `kprintfvec`. Its `digit_buf` is not part of a buffer. -/
def kprintFront (cfg : Config) : Front where
  sink := .uart
  bufsize := cfg.pageSize
  digitBuf := 0
  nargs := 7

/-- The variables of `ksprintfvec`. The size is unsigned. -/
def ksprintFront (size : BitVec w) : Front where
  sink := .buf
  bufsize := (size - BitVec.ofNat w digitBufSize).toNat
  digitBuf := size.toNat - digitBufSize
  nargs := 7

/-- The variables of `printfvecbuf`. The size is an `int`. -/
def printFront (nargs : ℕ) (size : BitVec 32) : Front where
  sink := .buf
  bufsize := (size - BitVec.ofNat 32 digitBufSize).toInt
  digitBuf := (size - BitVec.ofNat 32 digitBufSize).toInt
  nargs := nargs

/-- `kprintfvec`. -/
def kprintfvec (cfg : Config) (str : BitVec w → CStr) (fmt : CStr) (args : ℕ → BitVec w) : PM ℕ :=
  printf (kprintFront cfg) str fmt args

/-- `ksprintfvec`. -/
def ksprintfvec (size : BitVec w) (str : BitVec w → CStr) (fmt : CStr) (args : ℕ → BitVec w) : PM ℕ :=
  printf (ksprintFront size) str fmt args

/-- `printfvecbuf`. -/
def printfvecbuf (nargs : ℕ) (size : BitVec 32) (str : BitVec w → CStr) (fmt : CStr)
    (args : ℕ → BitVec w) : PM ℕ :=
  printf (printFront nargs size) str fmt args

end HobbyOs.Printf
