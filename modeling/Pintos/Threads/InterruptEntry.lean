import Pintos.Threads.Switch

/-!
# `threads/intr-stubs.S`

The code that every interrupt and exception runs before `intr_handler`, and behind it.
-/

namespace Pintos

open X86

/-- The vectors whose `STUB` is of type `REAL`: their error code is that of the processor. -/
def stubReal (vec : Nat) : Bool := [0x08, 0x0a, 0x0b, 0x0d, 0x0e, 0x11, 0x18, 0x1a, 0x1b, 0x1d, 0x1e].contains vec

/-- `intrNN_stub`, up to the jump. -/
def intrStub (vec : Nat) : List Instr :=
  (if stubReal vec then [] else [.push (.imm 0)]) ++ [.push (.imm (BitVec.ofNat 64 vec))]

/-- `intr_entry` up to the call of `intr_handler`. -/
def intrEntry (next : BitVec 64) : List Instr :=
  [.sub 16 .rsp,
   .storeSeg .ds 8 .rsp,
   .storeSeg .es 0 .rsp,
   .sub 120 .rsp,
   .store .rax 112 .rsp,
   .store .rbx 104 .rsp,
   .store .rcx 96 .rsp,
   .store .rdx 88 .rsp,
   .store .rbp 80 .rsp,
   .store .rdi 72 .rsp,
   .store .rsi 64 .rsp,
   .store .r8 56 .rsp,
   .store .r9 48 .rsp,
   .store .r10 40 .rsp,
   .store .r11 32 .rsp,
   .store .r12 24 .rsp,
   .store .r13 16 .rsp,
   .store .r14 8 .rsp,
   .store .r15 0 .rsp,
   .cld,
   .mov (.imm (SEL_KDSEG.setWidth 64)) .rax,
   .movSeg .rax .ds,
   .movSeg .rax .es,
   .movSeg .rax .ss,
   .movSeg .rax .fs,
   .movSeg .rax .gs,
   .mov (.reg .rsp) .rdi,
   .call next]

/-- `intr_entry` behind the call. -/
def intrExit : List Instr :=
  [.mov (.mem 0 .rsp) .r15,
   .mov (.mem 8 .rsp) .r14,
   .mov (.mem 16 .rsp) .r13,
   .mov (.mem 24 .rsp) .r12,
   .mov (.mem 32 .rsp) .r11,
   .mov (.mem 40 .rsp) .r10,
   .mov (.mem 48 .rsp) .r9,
   .mov (.mem 56 .rsp) .r8,
   .mov (.mem 64 .rsp) .rsi,
   .mov (.mem 72 .rsp) .rdi,
   .mov (.mem 80 .rsp) .rbp,
   .mov (.mem 88 .rsp) .rdx,
   .mov (.mem 96 .rsp) .rcx,
   .mov (.mem 104 .rsp) .rbx,
   .mov (.mem 112 .rsp) .rax,
   .add 120 .rsp,
   .loadSeg 8 .rsp .ds,
   .loadSeg 0 .rsp .es,
   .add 32 .rsp,
   .iretq]

/-- The exceptions for which the processor pushes an error code: `#DF`, `#TS`, `#NP`, `#SS`, `#GP`, `#PF` and
`#AC`, and those of control protection and of virtual machines. -/
def pushesCode (vec : Nat) : Bool := [8, 10, 11, 12, 13, 14, 17, 21, 29, 30].contains vec

/-- What comes with an interrupt or an exception. -/
structure Interrupt where
  vec : Nat
  /-- The error code, where the processor pushes one. -/
  code : BitVec 64
  /-- `rsp0` of the task state segment. -/
  rsp0 : BitVec 64
  /-- Whether the gate leaves interrupts on. -/
  trap : Bool
  /-- The address of the stub. -/
  gate : BitVec 64

/-- From the interrupt to `intr_handler`. -/
def Interrupt.enter (i : Interrupt) (next : BitVec 64) (s : State) : State :=
  run (intrStub i.vec ++ intrEntry next)
    (interrupt i.rsp0 (if pushesCode i.vec then some i.code else none) SEL_KCSEG i.trap i.gate s)

end Pintos
