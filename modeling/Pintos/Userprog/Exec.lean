import Pintos.Userprog.Arguments

/-!
# `exec`

`exec` of `userprog/syscall.c` with the stores of `strlcpy`, of `process_exec` and of `argument_stack`, and where they
go: to an element of `parse`, to the page of `file_copy`, or to the page of the stack. A store to any other place ends
the run, since what follows it is undefined. `argument_stack` moves down from `USER_STACK`, so that only the page of the
stack is in its reach.
-/

namespace Pintos.Exec

open Function LittleEndian ByteMemory

/-- Why a run does not get to its end. -/
inductive Stop
  | outOfFuel
  | outside
  deriving DecidableEq, Repr

/-- A part of the code that makes no stores. -/
def loops {α : Type} : Option α → Except Stop α
  | some a => .ok a
  | none => .error .outOfFuel

/-- A part of the code without loops over a string. -/
def stores {α : Type} : Option α → Except Stop α
  | some a => .ok a
  | none => .error .outside

/-- A byte of the page of `file_copy`, or of the page that `setup_stack` maps. -/
def InPages (page a : Nat) : Prop := (page ≤ a ∧ a < page + PGSIZE) ∨ InStackPage a

instance (page a : Nat) : Decidable (InPages page a) := inferInstanceAs (Decidable (_ ∨ _))

def poke (page : Nat) (m : Memory) (a : Nat) (b : Byte) : Except Stop Memory :=
  if InPages page a then .ok (update m a b) else .error .outside

/-! ## `lib/string.c` -/

def memcpy (page : Nat) (m : Memory) (dst src : Nat) : Nat → Except Stop Memory
  | 0 => .ok m
  | size + 1 => do
    let m ← poke page m dst (m src)
    memcpy page m (dst + 1) (src + 1) size

def strlcpy (page fuel : Nat) (m : Memory) (dst src size : Nat) : Except Stop (Memory × Nat) := do
  let srcLen ← loops (strlen m fuel src)
  if size > 0 then do
    let dstLen := if srcLen < size - 1 then srcLen else size - 1
    let m ← memcpy page m dst src dstLen
    let m ← poke page m (dst + dstLen) 0
    .ok (m, srcLen)
  else .ok (m, srcLen)

def strtokR (page fuel : Nat) (m : Memory) (s : Option Nat) (delimiters : List Byte) (savePtr : Nat) :
    Except Stop (Option Nat × Nat × Memory) := do
  let s ← loops (skipDelimiters m delimiters fuel (s.getD savePtr))
  if m s = 0 then .ok (none, s, m)
  else do
    let token := s
    let s ← loops (skipToken m delimiters fuel s)
    if m s ≠ 0 then do
      let m ← poke page m s 0
      .ok (some token, s + 1, m)
    else .ok (some token, s, m)

/-! ## `userprog/process.c` -/

/-- The loop of `process_exec`. The next token goes to `parse[count]`. -/
def parseArgs (page fuel : Nat) :
    Nat → Memory → Option Nat → Nat → List Nat → Except Stop (List Nat × Memory)
  | 0, _, _, _, _ => .error .outOfFuel
  | n + 1, m, s, savePtr, parse => do
    let (token, savePtr, m) ← strtokR page fuel m s [0x20] savePtr
    match token with
    | none => .ok (parse, m)
    | some token =>
      if parse.length < PARSE_SIZE then parseArgs page fuel n m none savePtr (parse ++ [token]) else .error .outside

/-- The first loop of `argument_stack`, for the first `i` arguments. -/
def copyArgs (fuel : Nat) : Nat → Memory → List Nat → Nat → Except Stop (Memory × List Nat × Nat)
  | 0, m, parse, rsp => .ok (m, parse, rsp)
  | i + 1, m, parse, rsp => do
    let len ← loops (strlen m fuel (parse.getD i 0))
    let (m, rsp) ← stores (copyArg (parse.getD i 0) (len + 1) m rsp)
    copyArgs fuel i m (parse.set i rsp) rsp

def argumentStack (fuel : Nat) (m : Memory) (parse : List Nat) (rsp : Nat) : Except Stop (Memory × List Nat × Nat) := do
  let (m, parse, rsp) ← copyArgs fuel parse.length m parse rsp
  let padding := (toInt32 (rsp % 2 ^ 32)).tmod 8
  let (m, rsp) ← stores (padStack padding.toNat m rsp)
  let m ← stores (pokePtr m (rsp - 8) 0)
  let (m, rsp) ← stores (pushPtrs parse parse.length m (rsp - 8))
  let m ← stores (pokePtr m (rsp - 8) 0)
  .ok (m, parse, rsp - 8)

/-- What `process_cleanup` and `load` do with the memory. `load` is `none` where it returns false. -/
structure Loader where
  cleanup : Memory → Memory
  load : Option (Memory → Memory)

/-- `process_exec`, with `none` where it returns −1, and the memory and the registers of `do_iret` elsewhere. -/
def processExec (page fuel : Nat) (loader : Loader) (m : Memory) (fileName : Nat) :
    Except Stop (Option (Memory × ExecRegs)) := do
  let (parse, m) ← parseArgs page fuel fuel (loader.cleanup m) (some fileName) 0 []
  match loader.load with
  | none => .ok none
  | some load => do
    let (m, _, rsp) ← argumentStack fuel (load m) parse USER_STACK.toNat
    .ok (some (m, { rsp := rsp, rdi := parse.length, rsi := rsp + 8 }))

/-! ## `userprog/syscall.c` -/

/-- `exec` of a string that `check_address` lets through, with the page that `palloc_get_page` returns. The result is
`none` where it calls `exit (-1)`. -/
def exec (fuel : Nat) (loader : Loader) (fileCopy : Option Nat) (m : Memory) (file : Nat) :
    Except Stop (Option (Memory × ExecRegs)) :=
  match fileCopy with
  | none => .ok none
  | some page => do
    -- `PAL_ZERO`
    let m := putBytes m page (List.replicate PGSIZE 0)
    let len ← loops (strlen m fuel file)
    let (m, _) ← strlcpy page fuel m page file (len + 1)
    processExec page fuel loader m page

end Pintos.Exec
