import Pintos.Lib.X86
import Pintos.Threads.Vaddr

/-!
# The context switch

`thread_launch` and `do_iret` of `threads/thread.c` instruction by instruction, with `struct intr_frame` of
`include/threads/interrupt.h`, and what `thread_create` puts into the frame of a new thread.

The compiler chooses the operands `%0` and `%1`, and what `do_iret` does before its instructions: they are
parameters. `off` is the offset of `tf` in `struct thread`.

A thread is known by the address of its page. `suspended` is history: how each thread that does not run is to go
on, and the memory as it was when it stopped.
-/

namespace Pintos

open ByteMemory X86

/-- The offset of a register in `struct intr_frame`. -/
def frameOffset : Reg → Nat
  | .r15 => 0
  | .r14 => 8
  | .r13 => 16
  | .r12 => 24
  | .r11 => 32
  | .r10 => 40
  | .r9 => 48
  | .r8 => 56
  | .rsi => 64
  | .rdi => 72
  | .rbp => 80
  | .rdx => 88
  | .rcx => 96
  | .rbx => 104
  | .rax => 112
  | .rsp => 176

/-- `sizeof (struct intr_frame)`. -/
def FRAME_SIZE : Nat := 192

/-- The frame at `a` has the registers of `c`. It has no place for `fs` and `gs`. -/
structure FrameHas (m : Memory) (a : Nat) (c : Cpu) : Prop where
  reg : ∀ r, load64 m (a + frameOffset r) = c.reg r
  es : load16 m (a + 120) = c.seg .es
  ds : load16 m (a + 128) = c.seg .ds
  rip : load64 m (a + 152) = c.rip
  cs : load16 m (a + 160) = c.seg .cs
  rflags : load64 m (a + 168) = c.rflags
  ss : load16 m (a + 184) = c.seg .ss

def SEL_KCSEG : BitVec 16 := 0x08
def SEL_KDSEG : BitVec 16 := 0x10

/-- The instructions of `thread_launch`. `next` and `outIret` are the addresses of its labels. -/
def threadLaunch (next outIret : BitVec 64) (tfCur tf : Operand) : List Instr :=
  [.push (.reg .rax), .push (.reg .rbx), .push (.reg .rcx),
   .mov tfCur .rax,
   .mov tf .rcx,
   .store .r15 0 .rax,
   .store .r14 8 .rax,
   .store .r13 16 .rax,
   .store .r12 24 .rax,
   .store .r11 32 .rax,
   .store .r10 40 .rax,
   .store .r9 48 .rax,
   .store .r8 56 .rax,
   .store .rsi 64 .rax,
   .store .rdi 72 .rax,
   .store .rbp 80 .rax,
   .store .rdx 88 .rax,
   .pop .rbx,
   .store .rbx 96 .rax,
   .pop .rbx,
   .store .rbx 104 .rax,
   .pop .rbx,
   .store .rbx 112 .rax,
   .add 120 .rax,
   .storeSeg .es 0 .rax,
   .storeSeg .ds 8 .rax,
   .add 32 .rax,
   .call next,
   .pop .rbx,
   .add (outIret - next) .rbx,
   .store .rbx 0 .rax,
   .storeSeg .cs 8 .rax,
   .pushfq,
   .pop .rbx,
   .store .rbx 16 .rax,
   .store .rsp 24 .rax,
   .storeSeg .ss 32 .rax,
   .mov (.reg .rcx) .rdi,
   .call outIret]

/-- The instructions of `do_iret`. -/
def doIret (tf : Operand) : List Instr :=
  [.mov tf .rsp,
   .mov (.mem 0 .rsp) .r15,
   .mov (.mem 8 .rsp) .r14,
   .mov (.mem 16 .rsp) .r13,
   .mov (.mem 24 .rsp) .r12,
   .mov (.mem 32 .rsp) .r11,
   .mov (.mem 40 .rsp) .r10,
   .mov (.mem 48 .rsp) .r9,
   .mov (.mem 56 .rsp) .r8,
   .mov (.mem 64 .rsp) .rsi,
   .mov (.mem 72 .rsp) .rdi,
   .mov (.mem 80 .rsp) .rbp,
   .mov (.mem 88 .rsp) .rdx,
   .mov (.mem 96 .rsp) .rcx,
   .mov (.mem 104 .rsp) .rbx,
   .mov (.mem 112 .rsp) .rax,
   .add 120 .rsp,
   .loadSeg 8 .rsp .ds,
   .loadSeg 0 .rsp .es,
   .add 32 .rsp,
   .iretq]

/-- `running_thread`. -/
def runningThread (s : State) : Nat := (s.reg .rsp).toNat / PGSIZE * PGSIZE

/-- The page of a new thread, zeroed, with the frame that `init_thread` and `thread_create` write. -/
def threadCreate (m : Memory) (off page : Nat) (kernelThread function aux : BitVec 64) : Memory :=
  let tf := page + off
  let m : Memory := fun x => if page ≤ x ∧ x < page + PGSIZE then 0 else m x
  let m := store64 m (tf + 176) (BitVec.ofNat 64 (page + PGSIZE - 8))
  let m := store64 m (tf + 152) kernelThread
  let m := store64 m (tf + 72) function
  let m := store64 m (tf + 64) aux
  let m := store16 m (tf + 128) SEL_KDSEG
  let m := store16 m (tf + 120) SEL_KDSEG
  let m := store16 m (tf + 184) SEL_KDSEG
  let m := store16 m (tf + 160) SEL_KCSEG
  store64 m (tf + 168) FLAG_IF

/-- How a new thread starts. -/
def newCpu (page : Nat) (kernelThread function aux : BitVec 64) : Cpu where
  reg
    | .rsp => BitVec.ofNat 64 (page + PGSIZE - 8)
    | .rdi => function
    | .rsi => aux
    | _ => 0
  seg
    | .cs => SEL_KCSEG
    | .fs => 0
    | .gs => 0
    | _ => SEL_KDSEG
  rip := kernelThread
  rflags := FLAG_IF

/-- The flags that `thread_launch` finds behind its additions. -/
def launchFlags (flags b next outIret : BitVec 64) : BitVec 64 :=
  addFlags (addFlags (addFlags flags b 120) (b + 120) 32) next (outIret - next)

/-- How a thread that runs `thread_launch` goes on. -/
def suspendedCpu (c : Cpu) (b next outIret : BitVec 64) : Cpu :=
  { c with rip := outIret, rflags := launchFlags c.rflags b next outIret &&& 0xfcffff }

structure Suspended where
  cpu : Cpu
  mem : Memory

structure SwitchSys where
  state : State
  suspended : Nat → Option Suspended

/-- One execution of `thread_launch`. -/
structure Launch where
  /-- `th` -/
  page : Nat
  next : BitVec 64
  outIret : BitVec 64
  tfCur : Operand
  tf : Operand
  /-- The operand of `do_iret`, and the state at its first instruction. -/
  tf' : Operand
  entered : State

inductive SwitchAction where
  /-- The running thread does something else. -/
  | run (s : State)
  /-- `thread_create`. -/
  | create (page : Nat) (kernelThread function aux : BitVec 64)
  /-- The page of a thread is given back. -/
  | free (page : Nat)
  | launch (l : Launch)

namespace SwitchSys

def step (off : Nat) (s : SwitchSys) : SwitchAction → Except Empty SwitchSys
  | .run s' => .ok { s with state := s' }
  | .create page kernelThread function aux =>
    let m := threadCreate s.state.mem off page kernelThread function aux
    .ok ⟨{ s.state with mem := m }, Function.update s.suspended page (some ⟨newCpu page kernelThread function aux, m⟩)⟩
  | .free page => .ok { s with suspended := Function.update s.suspended page none }
  | .launch l =>
    let cur := runningThread s.state
    let cpu := suspendedCpu s.state.toCpu (BitVec.ofNat 64 (cur + off)) l.next l.outIret
    .ok ⟨X86.run (doIret l.tf') l.entered,
      Function.update (Function.update s.suspended cur (some ⟨cpu, s.state.mem⟩)) l.page none⟩

/-- Nobody but a thread itself writes its frame and the live part of its stack. -/
def Respects (off : Nat) (s : SwitchSys) (m : Memory) : Prop :=
  ∀ p z, s.suspended p = some z → ∀ x, (p + off ≤ x ∧ x < p + off + FRAME_SIZE) ∨
    ((z.cpu.reg .rsp).toNat ≤ x ∧ x < p + PGSIZE) → m x = s.state.mem x

/-- What the compiler and the rest of the kernel answer for: `thread_launch` runs on a thread that is suspended,
with `room` bytes of stack left, and its operands are what they stand for. -/
structure Launches (off room : Nat) (s : SwitchSys) (l : Launch) : Prop where
  suspended : s.suspended l.page ≠ none
  stack : runningThread s.state + off + FRAME_SIZE + room ≤ (s.state.reg .rsp).toNat
  tfCur : l.tfCur.Stable s.state [.rsp]
  tfCur_eq : s.state.value l.tfCur = BitVec.ofNat 64 (runningThread s.state + off)
  tf : l.tf.Stable s.state [.rsp, .rax]
  tf_eq : s.state.value l.tf = BitVec.ofNat 64 (l.page + off)
  entered : ∀ x, x + room < (s.state.reg .rsp).toNat ∨ (s.state.reg .rsp).toNat ≤ x + 8 →
    l.entered.mem x = (X86.run (threadLaunch l.next l.outIret l.tfCur l.tf) s.state).mem x
  tf'_eq : l.entered.value l.tf' = (X86.run (threadLaunch l.next l.outIret l.tfCur l.tf) s.state).reg .rdi

def Proper (off room : Nat) (s : SwitchSys) : SwitchAction → Prop
  | .run s' => s.Respects off s'.mem ∧ runningThread s' = runningThread s.state ∧ ValidFlags s'.rflags
  | .create page _ _ _ =>
    page % PGSIZE = 0 ∧ page + PGSIZE < 2 ^ 64 ∧ page ≠ runningThread s.state ∧ s.suspended page = none
  | .free page => page ≠ runningThread s.state
  | .launch l => s.Launches off room l

end SwitchSys

end Pintos
