import Pintos.Lib.ByteMemory
import Pintos.Vm.Vm

/-!
# Arguments of a program

`strtok_r` of `lib/string.c`, and what `process_exec` and `argument_stack` of `userprog/process.c` do with the
command line. The result is `none` where a loop runs out of fuel, where `parse` overflows, and where a byte is
stored outside the page of the stack.
-/

namespace Pintos

open Function LittleEndian ByteMemory

/-! ## `lib/string.c` -/

/-- Whether `strchr` finds the character. -/
def strchr : List Byte → Byte → Bool
  | [], c => c = 0
  | d :: rest, c => if d = c then true else strchr rest c

def strlen (m : Memory) : Nat → Nat → Option Nat
  | 0, _ => none
  | fuel + 1, p => if m p = 0 then some 0 else (strlen m fuel (p + 1)).map (· + 1)

/-- The first loop of `strtok_r`: the address of the first character that is no delimiter, or of the end. -/
def skipDelimiters (m : Memory) (delimiters : List Byte) : Nat → Nat → Option Nat
  | 0, _ => none
  | fuel + 1, s =>
    if strchr delimiters (m s) then
      if m s = 0 then some s else skipDelimiters m delimiters fuel (s + 1)
    else some s

/-- The second loop of `strtok_r`. -/
def skipToken (m : Memory) (delimiters : List Byte) : Nat → Nat → Option Nat
  | 0, _ => none
  | fuel + 1, s => if strchr delimiters (m s) then some s else skipToken m delimiters fuel (s + 1)

/-- `strtok_r`, with the token, `*save_ptr` and the memory. -/
def strtokR (fuel : Nat) (m : Memory) (s : Option Nat) (delimiters : List Byte) (savePtr : Nat) :
    Option (Option Nat × Nat × Memory) := do
  let s ← skipDelimiters m delimiters fuel (s.getD savePtr)
  if m s = 0 then some (none, s, m)
  else do
    let token := s
    let s ← skipToken m delimiters fuel s
    if m s ≠ 0 then some (some token, s + 1, update m s 0) else some (some token, s, m)

/-! ## `process_exec` -/

/-- The length of `parse`. -/
def PARSE_SIZE : Nat := 64

/-- The loop of `process_exec`, with the tokens that are in `parse` already. -/
def parseArgs (fuel : Nat) : Nat → Memory → Option Nat → Nat → List Nat → Option (List Nat × Memory)
  | 0, _, _, _, _ => none
  | n + 1, m, s, savePtr, parse => do
    let (token, savePtr, m) ← strtokR fuel m s [0x20] savePtr
    match token with
    | none => some (parse, m)
    | some token => if parse.length < PARSE_SIZE then parseArgs fuel n m none savePtr (parse ++ [token]) else none

/-! ## `argument_stack` -/

/-- An address of the page that `setup_stack` maps. -/
def InStackPage (a : Nat) : Prop := USER_STACK.toNat - PGSIZE ≤ a ∧ a < USER_STACK.toNat

instance (a : Nat) : Decidable (InStackPage a) := inferInstanceAs (Decidable (_ ∧ _))

/-- A byte is stored at `*rsp`. -/
def pokeByte (m : Memory) (rsp : Nat) (b : Byte) : Option Memory :=
  if InStackPage rsp then some (update m rsp b) else none

/-- A pointer is stored at `*rsp`. -/
def pokePtr (m : Memory) (rsp ptr : Nat) : Option Memory :=
  if InStackPage rsp ∧ InStackPage (rsp + 7) then some (putBytes m rsp (leBytes 8 ptr)) else none

/-- The inner loop of the first loop: the first `n` bytes at `src` are copied, the last one first. -/
def copyArg (src : Nat) : Nat → Memory → Nat → Option (Memory × Nat)
  | 0, m, rsp => some (m, rsp)
  | n + 1, m, rsp => do
    let m ← pokeByte m (rsp - 1) (m (src + n))
    copyArg src n m (rsp - 1)

/-- The first loop, for the first `i` arguments. -/
def copyArgs (fuel : Nat) : Nat → Memory → List Nat → Nat → Option (Memory × List Nat × Nat)
  | 0, m, parse, rsp => some (m, parse, rsp)
  | i + 1, m, parse, rsp => do
    let len ← strlen m fuel (parse.getD i 0)
    let (m, rsp) ← copyArg (parse.getD i 0) (len + 1) m rsp
    copyArgs fuel i m (parse.set i rsp) rsp

/-- The loop of the padding. -/
def padStack : Nat → Memory → Nat → Option (Memory × Nat)
  | 0, m, rsp => some (m, rsp)
  | n + 1, m, rsp => do
    let m ← pokeByte m (rsp - 1) 0
    padStack n m (rsp - 1)

/-- The last loop, for the first `i` pointers. -/
def pushPtrs (parse : List Nat) : Nat → Memory → Nat → Option (Memory × Nat)
  | 0, m, rsp => some (m, rsp)
  | i + 1, m, rsp => do
    let m ← pokePtr m (rsp - 8) (parse.getD i 0)
    pushPtrs parse i m (rsp - 8)

/-- `argument_stack`, with the memory, `parse` and `rsp` after it. -/
def argumentStack (fuel : Nat) (m : Memory) (parse : List Nat) (rsp : Nat) : Option (Memory × List Nat × Nat) := do
  let (m, parse, rsp) ← copyArgs fuel parse.length m parse rsp
  let padding := (toInt32 (rsp % 2 ^ 32)).tmod 8
  let (m, rsp) ← padStack padding.toNat m rsp
  let m ← pokePtr m (rsp - 8) 0
  let (m, rsp) ← pushPtrs parse parse.length m (rsp - 8)
  let m ← pokePtr m (rsp - 8) 0
  some (m, parse, rsp - 8)

/-- The registers that `process_exec` sets. -/
structure ExecRegs where
  rsp : Nat
  rdi : Nat
  rsi : Nat
  deriving DecidableEq, Repr

/-- What `process_exec` does with the command line, where `load` maps the page of the stack. -/
def processExecArgs (fuel : Nat) (load : Memory → Memory) (m : Memory) (fileName : Nat) : Option (Memory × ExecRegs) := do
  let (parse, m) ← parseArgs fuel fuel m (some fileName) 0 []
  let (m, _, rsp) ← argumentStack fuel (load m) parse USER_STACK.toNat
  some (m, { rsp := rsp, rdi := parse.length, rsi := rsp + 8 })

end Pintos
