import Pintos.Threads.Switch

/-!
# `userprog/syscall-entry.S`

The code that every system call runs before `syscall_handler`, and behind it, with the registers that
`syscall_init` sets up; and how `fork` hands the frame to the child.
-/

namespace Pintos

open ByteMemory X86

def SEL_UDSEG : BitVec 16 := 0x1b
def SEL_UCSEG : BitVec 16 := 0x23

/-- The upper part of `MSR_STAR`. -/
def starUser : BitVec 16 := SEL_UCSEG - 0x10

/-- `MSR_SYSCALL_MASK`. -/
def syscallMask : BitVec 64 := FLAG_IF ||| 0x100 ||| FLAG_DF ||| 0x3000 ||| 0x40000 ||| 0x4000

/-- The addresses that `syscall_entry` uses. -/
structure SyscallVars where
  temp1 : Nat
  temp2 : Nat
  /-- The variable `tss` of `userprog/tss.c`. -/
  tss : BitVec 64
  syscallHandler : BitVec 64
  /-- The address behind the call. -/
  next : BitVec 64

/-- `syscall_entry` up to the call of `syscall_handler`. -/
def syscallEntry (v : SyscallVars) : List Instr :=
  [.storeVar .rbx v.temp1,
   .storeVar .r12 v.temp2,
   .mov (.reg .rsp) .rbx,
   .mov (.imm v.tss) .r12,
   .mov (.mem 0 .r12) .r12,
   .mov (.mem 4 .r12) .rsp,
   .push (.imm (SEL_UDSEG.setWidth 64)),
   .push (.reg .rbx),
   .push (.reg .r11),
   .push (.imm (SEL_UCSEG.setWidth 64)),
   .push (.reg .rcx),
   .sub 16 .rsp,
   .push (.imm (SEL_UDSEG.setWidth 64)),
   .push (.imm (SEL_UDSEG.setWidth 64)),
   .push (.reg .rax),
   .mov (.var v.temp1) .rbx,
   .push (.reg .rbx),
   .push (.imm 0),
   .push (.reg .rdx),
   .push (.reg .rbp),
   .push (.reg .rdi),
   .push (.reg .rsi),
   .push (.reg .r8),
   .push (.reg .r9),
   .push (.reg .r10),
   .push (.imm 0),
   .mov (.var v.temp2) .r12,
   .push (.reg .r12),
   .push (.reg .r13),
   .push (.reg .r14),
   .push (.reg .r15),
   .mov (.reg .rsp) .rdi,
   .bts 9 .r11,
   .unlessNb .sti,
   .mov (.imm v.syscallHandler) .r12,
   .call v.next]

/-- `syscall_entry` behind the call. -/
def syscallExit : List Instr :=
  [.pop .r15,
   .pop .r14,
   .pop .r13,
   .pop .r12,
   .pop .r11,
   .pop .r10,
   .pop .r9,
   .pop .r8,
   .pop .rsi,
   .pop .rdi,
   .pop .rbp,
   .pop .rdx,
   .pop .rcx,
   .pop .rbx,
   .pop .rax,
   .add 32 .rsp,
   .pop .rcx,
   .add 8 .rsp,
   .pop .r11,
   .pop .rsp,
   .sysretq starUser]

/-- From `syscall` in user code, with the address behind it, to `syscall_handler`. -/
def enterSyscall (v : SyscallVars) (entry back : BitVec 64) (s : State) : State :=
  run (syscallEntry v) (syscall back SEL_KCSEG entry syscallMask s)

/-- `memcpy (dst, src, sizeof (struct intr_frame))`, with which `process_fork` and `__do_fork` begin. -/
def memcpyFrame (m : Memory) (dst src : Nat) : Memory :=
  putBytes m dst ((List.range FRAME_SIZE).map fun k => m (src + k))

/-- `if_` of `__do_fork`. -/
def doForkFrame (m : Memory) (if_ parentIf : Nat) : Memory :=
  store64 (memcpyFrame m if_ parentIf) (if_ + 112) 0

end Pintos
