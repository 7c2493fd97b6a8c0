import Pintos.Properties.ContextSwitch
import Pintos.Userprog.SyscallEntry

/-!
# System calls

What `syscall_handler` finds in its frame, and how the process goes on.
-/

namespace Pintos

open ByteMemory X86 LittleEndian Function

variable {s s' : State} {v : SyscallVars} {a T : Nat} {c : Cpu} {m m' : Memory}

/-! ## The way back -/

/-- `sysretq` brings the frame into the processor: `rcx` and `r11` are lost. -/
structure SysReturned (c : Cpu) (s s' : State) : Prop where
  reg : ∀ r, r ≠ .rcx → r ≠ .r11 → s'.reg r = c.reg r
  rcx : s'.reg .rcx = c.rip
  r11 : s'.reg .r11 = c.rflags
  rip : s'.rip = c.rip
  rflags : s'.rflags = c.rflags &&& 0x3c7fd7 ||| 2
  cs : s'.seg .cs = SEL_UCSEG
  ss : s'.seg .ss = SEL_UDSEG
  seg : ∀ g, g ≠ .cs → g ≠ .ss → s'.seg g = s.seg g
  mem : s'.mem = s.mem

theorem run_syscallExit (hrsp : (s.reg .rsp).toNat = a) (hroom : a + FRAME_SIZE < 2 ^ 64) (h : FrameHas s.mem a c)
    (hrun : run syscallExit s = s') : SysReturned c s s' := by
  unfold FRAME_SIZE at hroom
  have hcode : syscallExit = ((gpRegisters.map Prod.fst).map .pop) ++
      [.add 32 .rsp, .pop .rcx, .add 8 .rsp, .pop .r11, .pop .rsp, .sysretq starUser] := rfl
  rw [hcode, run_append] at hrun
  generalize hs₁ : run ((gpRegisters.map Prod.fst).map .pop) s = s₁ at hrun
  obtain ⟨honly, htop, hpops⟩ := run_pops (by decide) (by decide)
    (by rw [hrsp]; have : (gpRegisters.map Prod.fst).length = 15 := rfl; omega) hs₁
  have hlen : (gpRegisters.map Prod.fst).length = 15 := rfl
  rw [hrsp, hlen] at htop
  rw [hrsp] at hpops
  -- Each register comes from its place in the frame.
  have hplace : ∀ p ∈ gpRegisters, ∃ k : Fin (gpRegisters.map Prod.fst).length,
      (gpRegisters.map Prod.fst).get k = p.1 ∧ p.2 = 8 * k.val := by decide
  have hreg : ∀ r, r ≠ .rsp → s₁.reg r = c.reg r := by
    intro r hr
    obtain ⟨k, hk, hoff⟩ := hplace _ (mem_gpRegisters hr)
    have hpop := hpops k.val k.isLt
    rw [← hoff, h.reg r] at hpop
    rw [← hpop]
    exact congrArg s₁.reg hk.symm
  have hmem₁ : s₁.mem = s.mem := honly.mem
  have h152 : (s₁.reg .rsp + 32).toNat = a + 152 := by bv_omega
  have h168 : (s₁.reg .rsp + 32 + 8 + 8).toNat = a + 168 := by bv_omega
  have h176 : (s₁.reg .rsp + 32 + 8 + 8 + 8).toNat = a + 176 := by bv_omega
  subst hrun
  simp only [run_cons, run_nil, exec, State.setReg, update_self, ne_eq, reduceCtorEq, not_false_eq_true,
    update_of_ne, hmem₁, h152, h168, h176, h.rip, h.rflags]
  constructor
  · intro r hcx h11
    by_cases hr : r = .rsp
    · subst hr
      simp only [update_self]
      exact h.reg .rsp
    · simp only [update_of_ne hr, update_of_ne hcx, update_of_ne h11]
      exact hreg r hr
  · simp
  · simp
  · rfl
  · rfl
  · simp [starUser, SEL_UCSEG]
  · simp [starUser, SEL_UCSEG, SEL_UDSEG]
  · intro g hcs hss
    simp only [update_of_ne hss, update_of_ne hcs]
    exact congrFun honly.seg g
  · rfl

/-! ## The way in -/

/-- The variables of `syscall_entry` do not overlap each other and the `200` bytes below `T`, the top of the kernel
stack. -/
structure SyscallVars.Apart (v : SyscallVars) (m : Memory) (T : Nat) : Prop where
  rsp0 : (load64 m (load64 m v.tss.toNat + 4).toNat).toNat = T
  room : 200 ≤ T
  temps : v.temp1 + 8 ≤ v.temp2 ∨ v.temp2 + 8 ≤ v.temp1
  tss : ∀ t ∈ [v.temp1, v.temp2], ∀ x ∈ [v.tss.toNat, (load64 m v.tss.toNat + 4).toNat], x + 8 ≤ t ∨ t + 8 ≤ x
  stack : ∀ t ∈ [v.temp1, v.temp2], t + 8 ≤ T - 200 ∨ T ≤ t

/-- `syscall_entry` saves two registers and takes the kernel stack. -/
structure OnKernelStack (v : SyscallVars) (T : Nat) (s s' : State) : Prop where
  rsp : (s'.reg .rsp).toNat = T
  rbx : s'.reg .rbx = s.reg .rsp
  reg : ∀ r, r ≠ .rsp → r ≠ .rbx → r ≠ .r12 → s'.reg r = s.reg r
  temp1 : load64 s'.mem v.temp1 = s.reg .rbx
  temp2 : load64 s'.mem v.temp2 = s.reg .r12
  other : ∀ x, (x < v.temp1 ∨ v.temp1 + 8 ≤ x) → (x < v.temp2 ∨ v.temp2 + 8 ≤ x) → s'.mem x = s.mem x
  seg : s'.seg = s.seg
  rflags : s'.rflags = s.rflags

theorem run_kernelStack (h : v.Apart s.mem T)
    (hrun : run [.storeVar .rbx v.temp1, .storeVar .r12 v.temp2, .mov (.reg .rsp) .rbx, .mov (.imm v.tss) .r12,
      .mov (.mem 0 .r12) .r12, .mov (.mem 4 .r12) .rsp] s = s') : OnKernelStack v T s s' := by
  have htss : ∀ x ∈ [v.tss.toNat, (load64 s.mem v.tss.toNat + 4).toNat],
      load64 (store64 (store64 s.mem v.temp1 (s.reg .rbx)) v.temp2 (s.reg .r12)) x = load64 s.mem x := by
    intro x hx
    rw [load64_store64_of_ne (h.tss v.temp2 (by simp) x hx), load64_store64_of_ne (h.tss v.temp1 (by simp) x hx)]
  have hptr := htss v.tss.toNat (by simp)
  have hzero : (v.tss + 0).toNat = v.tss.toNat := by bv_omega
  have hrsp0 := htss (load64 s.mem v.tss.toNat + 4).toNat (by simp)
  subst hrun
  simp only [run_cons, run_nil, exec, State.setReg, State.value, State.addr, update_self, hzero, hptr,
    hrsp0]
  have htemps := h.temps
  constructor
  · simp only [update_self]
    exact h.rsp0
  · simp
  · intro r hrsp hrbx hr12
    simp only [update_of_ne hrsp, update_of_ne hr12, update_of_ne hrbx]
  · rw [load64_store64_of_ne (by omega), load64_store64]
  · rw [load64_store64]
  · intro x h₁ h₂
    exact (store64_of_ne h₂).trans (store64_of_ne h₁)
  · rfl
  · rfl

/-- The processor that the process shows to `syscall_handler`: `rcx` and `r11` are not in the frame. -/
def callCpu (back : BitVec 64) (s : State) : Cpu where
  reg
    | .rcx => 0
    | .r11 => 0
    | r => s.reg r
  seg
    | .cs => SEL_UCSEG
    | _ => SEL_UDSEG
  rip := back
  rflags := s.rflags

/-- The words of the frame below and above the place of `error_code` and `vec_no`, the lowest first. -/
def lowWords (v : SyscallVars) (s : State) : List (BitVec 64) :=
  [s.reg .r15, s.reg .r14, s.reg .r13, load64 s.mem v.temp2, 0, s.reg .r10, s.reg .r9, s.reg .r8, s.reg .rsi,
    s.reg .rdi, s.reg .rbp, s.reg .rdx, 0, load64 s.mem v.temp1, s.reg .rax, SEL_UDSEG.setWidth 64,
    SEL_UDSEG.setWidth 64]

def highWords (s : State) : List (BitVec 64) :=
  [s.reg .rcx, SEL_UCSEG.setWidth 64, s.reg .r11, s.reg .rbx, SEL_UDSEG.setWidth 64]

/-- The pushes of `syscall_entry`. -/
structure FramePushed (v : SyscallVars) (T : Nat) (s s' : State) : Prop where
  stack : ∃ gap : List Byte, gap.length = 16 ∧
    Pushes s.mem T (toBytes (lowWords v s) ++ (gap ++ toBytes (highWords s))) s'.mem (T - 192)
  rsp : (s'.reg .rsp).toNat = T - 192
  r11 : s'.reg .r11 = s.reg .r11
  seg : s'.seg = s.seg
  rflags : ∀ n, arithFlags.getLsbD n = false → s'.rflags.getLsbD n = s.rflags.getLsbD n

theorem run_syscallPushes (hrsp : (s.reg .rsp).toNat = T) (hroom : 200 ≤ T)
    (htemp : ∀ t ∈ [v.temp1, v.temp2], t + 8 ≤ T - 200 ∨ T ≤ t)
    (hrun : run ([Operand.imm (SEL_UDSEG.setWidth 64), .reg .rbx, .reg .r11, .imm (SEL_UCSEG.setWidth 64),
        .reg .rcx].map .push ++ (.sub 16 .rsp :: ([Operand.imm (SEL_UDSEG.setWidth 64), .imm (SEL_UDSEG.setWidth 64),
        .reg .rax].map .push ++ (.mov (.var v.temp1) .rbx :: ([Operand.reg .rbx, .imm 0, .reg .rdx, .reg .rbp, .reg .rdi,
        .reg .rsi, .reg .r8, .reg .r9, .reg .r10, .imm 0].map .push ++ (.mov (.var v.temp2) .r12 ::
        [Operand.reg .r12, .reg .r13, .reg .r14, .reg .r15].map .push)))))) s = s') : FramePushed v T s s' := by
  rw [run_append, run_cons, run_append, run_cons, run_append, run_cons] at hrun
  have hlt := (s.reg .rsp).isLt
  -- The part above the gap.
  have hp₁ := run_pushes (s := s) (l := [.imm (SEL_UDSEG.setWidth 64), .reg .rbx, .reg .r11,
    .imm (SEL_UCSEG.setWidth 64), .reg .rcx]) (by simp [Operand.Plain]) (by rw [hrsp]; simp; omega)
  generalize run _ s = s₁ at hrun hp₁
  have hrsp₁ : (s₁.reg .rsp).toNat + 40 = T := hp₁.rsp.trans hrsp
  -- The gap.
  have hsub : ((exec (.sub 16 .rsp) s₁).reg .rsp).toNat = T - 56 := by
    have hreg : (exec (.sub 16 .rsp) s₁).reg .rsp = s₁.reg .rsp - 16 := s₁.setReg_self .rsp _
    rw [hreg]
    bv_omega
  have hreg₁ : ∀ r, r ≠ .rsp → (exec (.sub 16 .rsp) s₁).reg r = s.reg r := fun r hr =>
    (State.setReg_of_ne hr).trans (hp₁.reg r hr)
  have hmem₁ : (exec (.sub 16 .rsp) s₁).mem = s₁.mem := rfl
  have hseg₁ : (exec (.sub 16 .rsp) s₁).seg = s.seg := hp₁.seg
  have hfl₁ : ∀ n, arithFlags.getLsbD n = false → (exec (.sub 16 .rsp) s₁).rflags.getLsbD n = s.rflags.getLsbD n :=
    fun n hn => by
      rw [← hp₁.rflags]
      exact setArith_other hn
  generalize exec (.sub 16 .rsp) s₁ = t₁ at hrun hsub hreg₁ hmem₁ hseg₁ hfl₁
  -- The three parts below it.
  have hp₂ := run_pushes (s := t₁) (l := [.imm (SEL_UDSEG.setWidth 64), .imm (SEL_UDSEG.setWidth 64), .reg .rax])
    (by simp [Operand.Plain]) (by rw [hsub]; simp; omega)
  generalize run _ t₁ = s₂ at hrun hp₂
  have hrsp₂ : (s₂.reg .rsp).toNat + 24 = T - 56 := hp₂.rsp.trans hsub
  have htemp₂ : ∀ t ∈ [v.temp1, v.temp2], load64 s₂.mem t = load64 s.mem t := by
    intro t ht
    have hapart := htemp t ht
    refine load64_congr fun i hi => ?_
    rw [hp₂.other _ (by omega), hmem₁, hp₁.other _ (by omega)]
  generalize ht₂ : exec (.mov (.var v.temp1) .rbx) s₂ = t₂ at hrun
  have hrbx₂ : t₂.reg .rbx = load64 s.mem v.temp1 := by
    rw [← ht₂, ← htemp₂ v.temp1 (by simp)]
    exact s₂.setReg_self .rbx _
  have hreg₂ : ∀ r, r ≠ .rbx → t₂.reg r = s₂.reg r := fun r hr => by
    rw [← ht₂]
    exact State.setReg_of_ne hr
  have hmem₂ : t₂.mem = s₂.mem := by rw [← ht₂]; rfl
  have hseg₂ : t₂.seg = s₂.seg := by rw [← ht₂]; rfl
  have hfl₂ : t₂.rflags = s₂.rflags := by rw [← ht₂]; rfl
  have hp₃ := run_pushes (s := t₂) (l := [.reg .rbx, .imm 0, .reg .rdx, .reg .rbp, .reg .rdi, .reg .rsi, .reg .r8,
    .reg .r9, .reg .r10, .imm 0]) (by simp [Operand.Plain]) (by rw [hreg₂ _ (by decide)]; simp; omega)
  generalize run _ t₂ = s₃ at hrun hp₃
  have hrsp₃ : (s₃.reg .rsp).toNat + 80 = T - 80 := by
    have := hp₃.rsp
    rw [hreg₂ _ (by decide)] at this
    simp only [List.map_cons, List.map_nil, List.length_cons, List.length_nil] at this
    omega
  generalize ht₃ : exec (.mov (.var v.temp2) .r12) s₃ = t₃ at hrun
  have hr12₃ : t₃.reg .r12 = load64 s.mem v.temp2 := by
    have hapart := htemp v.temp2 (by simp)
    have hkept : load64 s₃.mem v.temp2 = load64 s₂.mem v.temp2 := by
      refine load64_congr fun i hi => ?_
      rw [hp₃.other _ (by rw [hreg₂ _ (by decide)]; omega), hmem₂]
    rw [← ht₃, ← htemp₂ v.temp2 (by simp), ← hkept]
    exact s₃.setReg_self .r12 _
  have hreg₃ : ∀ r, r ≠ .r12 → t₃.reg r = s₃.reg r := fun r hr => by
    rw [← ht₃]
    exact State.setReg_of_ne hr
  have hmem₃ : t₃.mem = s₃.mem := by rw [← ht₃]; rfl
  have hseg₃ : t₃.seg = s₃.seg := by rw [← ht₃]; rfl
  have hfl₃ : t₃.rflags = s₃.rflags := by rw [← ht₃]; rfl
  have hp₄ := run_pushes (s := t₃) (l := [.reg .r12, .reg .r13, .reg .r14, .reg .r15]) (by simp [Operand.Plain])
    (by rw [hreg₃ _ (by decide)]; simp; omega)
  generalize run _ t₃ = s₄ at hrun hp₄
  subst hrun
  -- The registers that are pushed are those of the process.
  have hkept : ∀ r, r ≠ .rsp → r ≠ .rbx → r ≠ .r12 → t₃.reg r = s.reg r := by
    intro r hrsp hrbx hr12
    rw [hreg₃ r hr12, hp₃.reg r hrsp, hreg₂ r hrbx, hp₂.reg r hrsp, hreg₁ r hrsp]
  have hkept₂ : ∀ r, r ≠ .rsp → r ≠ .rbx → t₂.reg r = s.reg r := by
    intro r hrsp hrbx
    rw [hreg₂ r hrbx, hp₂.reg r hrsp, hreg₁ r hrsp]
  have hstack₁ := hp₁.stack
  rw [hrsp, show (s₁.reg .rsp).toNat = T - 40 by omega] at hstack₁
  have hgap := pushes_skip s₁.mem (show 16 ≤ T - 40 by omega)
  rw [show T - 40 - 16 = T - 56 by omega] at hgap
  have hstack₂ := hp₂.stack
  rw [hsub, hmem₁, show (s₂.reg .rsp).toNat = T - 80 by omega] at hstack₂
  have hstack₃ := hp₃.stack
  rw [hreg₂ _ (by decide), hmem₂, show (s₂.reg .rsp).toNat = T - 80 by omega,
    show (s₃.reg .rsp).toNat = T - 160 by omega] at hstack₃
  have hrsp₄ : (s₄.reg .rsp).toNat = T - 192 := by
    have := hp₄.rsp
    rw [hreg₃ _ (by decide)] at this
    simp only [List.map_cons, List.map_nil, List.length_cons, List.length_nil] at this
    omega
  have hstack₄ := hp₄.stack
  rw [hreg₃ _ (by decide), hmem₃, show (s₃.reg .rsp).toNat = T - 160 by omega, hrsp₄] at hstack₄
  refine ⟨⟨(List.range 16).map fun k => s₁.mem (T - 56 + k), by simp, ?_⟩, hrsp₄, ?_, ?_, fun n hn => ?_⟩
  · have hall := (((hstack₁.trans hgap).trans hstack₂).trans hstack₃).trans hstack₄
    have hlow : lowWords v s = ([Operand.reg .r12, .reg .r13, .reg .r14, .reg .r15].map t₃.value).reverse ++
        (([Operand.reg .rbx, .imm 0, .reg .rdx, .reg .rbp, .reg .rdi, .reg .rsi, .reg .r8, .reg .r9, .reg .r10,
        .imm 0].map t₂.value).reverse ++ ([Operand.imm (SEL_UDSEG.setWidth 64), .imm (SEL_UDSEG.setWidth 64),
        .reg .rax].map t₁.value).reverse) := by
      simp only [lowWords, List.map_cons, List.map_nil, List.reverse_cons, List.reverse_nil, List.nil_append,
        List.cons_append, State.value, hr12₃, hrbx₂, hkept _ (show Reg.r13 ≠ .rsp by decide) (by decide) (by decide),
        hkept _ (show Reg.r14 ≠ .rsp by decide) (by decide) (by decide),
        hkept _ (show Reg.r15 ≠ .rsp by decide) (by decide) (by decide),
        hkept₂ _ (show Reg.rdx ≠ .rsp by decide) (by decide), hkept₂ _ (show Reg.rbp ≠ .rsp by decide) (by decide),
        hkept₂ _ (show Reg.rdi ≠ .rsp by decide) (by decide), hkept₂ _ (show Reg.rsi ≠ .rsp by decide) (by decide),
        hkept₂ _ (show Reg.r8 ≠ .rsp by decide) (by decide), hkept₂ _ (show Reg.r9 ≠ .rsp by decide) (by decide),
        hkept₂ _ (show Reg.r10 ≠ .rsp by decide) (by decide), hreg₁ _ (show Reg.rax ≠ .rsp by decide)]
    have hhigh : highWords s = ([Operand.imm (SEL_UDSEG.setWidth 64), .reg .rbx, .reg .r11,
        .imm (SEL_UCSEG.setWidth 64), .reg .rcx].map s.value).reverse := rfl
    rw [hlow, hhigh, toBytes_append, toBytes_append, List.append_assoc, List.append_assoc]
    exact hall
  · rw [hp₄.reg _ (by decide), hkept _ (by decide) (by decide) (by decide)]
  · rw [hp₄.seg, hseg₃, hp₃.seg, hseg₂, hp₂.seg, hseg₁]
  · rw [hp₄.rflags, hfl₃, hp₃.rflags, hfl₂, hp₂.rflags, hfl₁ n hn]

/-- The end of `syscall_entry`: the frame is the argument, and interrupts come back if they were on. -/
structure HandlerCalled (v : SyscallVars) (T : Nat) (s s' : State) : Prop where
  rdi : s'.reg .rdi = s.reg .rsp
  rsp : (s'.reg .rsp).toNat = T - 200
  next : load64 s'.mem (T - 200) = v.next
  other : ∀ x, x < T - 200 ∨ T - 192 ≤ x → s'.mem x = s.mem x
  seg : s'.seg = s.seg
  interrupts : s.rflags.getLsbD 9 = false → s'.rflags.getLsbD 9 = (s.reg .r11).getLsbD 9
  rflags : ∀ n, n ≠ 0 → n ≠ 9 → s'.rflags.getLsbD n = s.rflags.getLsbD n

/-- `btsq`, and the jump behind it. -/
theorem carry_flagBit (x : BitVec 64) (b : Bool) : (x &&& ~~~FLAG_CF ||| flagBit b 0) &&& FLAG_CF = 0 ↔ b = false := by
  have hoff : ~~~FLAG_CF &&& FLAG_CF = 0#64 := by decide
  rw [BitVec.and_or_distrib_right, BitVec.and_assoc, hoff, BitVec.and_zero, BitVec.zero_or]
  cases b <;> decide

theorem getLsbD_flagBit (x : BitVec 64) (b : Bool) {n : Nat} (hn : n ≠ 0) :
    (x &&& ~~~FLAG_CF ||| flagBit b 0).getLsbD n = x.getLsbD n := by
  have hbit : (flagBit b 0).getLsbD n = false := by
    cases b
    · simp [flagBit]
    · simp [flagBit, hn]
  rw [BitVec.getLsbD_or, hbit, Bool.or_false, BitVec.getLsbD_and, BitVec.getLsbD_not]
  by_cases hlt : n < 64
  · simp [FLAG_CF, hlt, hn]
  · rw [BitVec.getLsbD_of_ge _ _ (by omega), Bool.false_and]

theorem run_callHandler (hrsp : (s.reg .rsp).toNat = T - 192) (hroom : 200 ≤ T)
    (hrun : run [.mov (.reg .rsp) .rdi, .bts 9 .r11, .unlessNb .sti, .mov (.imm v.syscallHandler) .r12, .call v.next] s =
      s') : HandlerCalled v T s s' := by
  simp only [run_cons, run_nil] at hrun
  generalize ht : exec (.bts 9 .r11) (exec (.mov (.reg .rsp) .rdi) s) = t at hrun
  have hmem : t.mem = s.mem := by rw [← ht]; rfl
  have hseg : t.seg = s.seg := by rw [← ht]; rfl
  have hreg : ∀ r, r ≠ .rdi → r ≠ .r11 → t.reg r = s.reg r := fun r hrdi hr11 => by
    rw [← ht]
    exact (update_of_ne hr11 _ _).trans (update_of_ne hrdi _ _)
  have hrdi : t.reg .rdi = s.reg .rsp := by
    rw [← ht]
    simp [exec, State.setReg, State.value]
  have hflags : t.rflags = s.rflags &&& ~~~FLAG_CF ||| flagBit ((s.reg .r11).getLsbD 9) 0 := by rw [← ht]; rfl
  clear ht
  -- Whether interrupts come back, nothing but the flags changes.
  obtain ⟨u, hu, hureg, hummem, huseg, huIF, hufl⟩ : ∃ u, exec (.unlessNb .sti) t = u ∧ u.reg = t.reg ∧ u.mem = t.mem ∧
      u.seg = t.seg ∧ (s.rflags.getLsbD 9 = false → u.rflags.getLsbD 9 = (s.reg .r11).getLsbD 9) ∧
      ∀ n, n ≠ 0 → n ≠ 9 → u.rflags.getLsbD n = s.rflags.getLsbD n := by
    refine ⟨_, rfl, ?_⟩
    unfold exec
    have hcarry := carry_flagBit s.rflags ((s.reg .r11).getLsbD 9)
    rw [← hflags] at hcarry
    by_cases hIF : (s.reg .r11).getLsbD 9 = false
    · rw [if_pos (hcarry.mpr hIF), hflags]
      refine ⟨rfl, rfl, rfl, fun h => ?_, fun n h0 h9 => getLsbD_flagBit _ _ h0⟩
      rw [getLsbD_flagBit _ _ (by decide), h, hIF]
    · rw [if_neg (mt hcarry.mp hIF)]
      refine ⟨rfl, rfl, rfl, fun _ => ?_, fun n h0 h9 => ?_⟩
      · rw [Bool.not_eq_false] at hIF
        rw [hIF]
        simp [exec, FLAG_IF]
      · show (t.rflags ||| FLAG_IF).getLsbD n = _
        have hbit : FLAG_IF.getLsbD n = false := by
          by_cases hlt : n < 64
          · have hall : ∀ k : Fin 64, k.val ≠ 9 → FLAG_IF.getLsbD k = false := by decide
            exact hall ⟨n, hlt⟩ h9
          · exact BitVec.getLsbD_of_ge _ _ (by omega)
        rw [BitVec.getLsbD_or, hbit, Bool.or_false, hflags, getLsbD_flagBit _ _ h0]
  rw [hu] at hrun
  have hrspu : u.reg .rsp = s.reg .rsp := by rw [hureg, hreg _ (by decide) (by decide)]
  subst hrun
  generalize hw : exec (.mov (.imm v.syscallHandler) .r12) u = w
  have hrspw : w.reg .rsp = s.reg .rsp := by rw [← hw]; exact (State.setReg_of_ne (by decide)).trans hrspu
  have hrdiw : w.reg .rdi = s.reg .rsp := by
    rw [← hw, ← hrdi, ← hureg]
    exact State.setReg_of_ne (by decide)
  have hmemw : w.mem = s.mem := by rw [← hw, ← hmem, ← hummem]; rfl
  have hsegw : w.seg = s.seg := by rw [← hw, ← hseg, ← huseg]; rfl
  have hflw : w.rflags = u.rflags := by rw [← hw]; rfl
  have hpushed := pushed_pushWord (s := w) (by rw [hrspw]; omega) v.next
  have htop := hpushed.rsp
  have hword := hpushed.word 0 (by simp)
  rw [hrspw, List.length_singleton] at htop
  rw [hrspw, show (s.reg .rsp).toNat - 8 * (0 + 1) = T - 200 by omega] at hword
  show HandlerCalled v T s (w.pushWord v.next)
  refine ⟨?_, by omega, hword, fun x hx => ?_, hpushed.seg.trans hsegw, fun h => ?_, fun n h0 h9 => ?_⟩
  · rw [hpushed.reg .rdi (by decide), hrdiw]
  · rw [hpushed.other x (by rw [hrspw]; omega), hmemw]
  · rw [hpushed.rflags, hflw, huIF h]
  · rw [hpushed.rflags, hflw, hufl n h0 h9]

/-! ## The frame of a system call -/

/-- What `syscall_handler` finds when the process in `s` makes a system call: its argument is a frame with the
registers of the process. -/
structure AtHandler (v : SyscallVars) (T : Nat) (back : BitVec 64) (s s' : State) : Prop where
  rdi : (s'.reg .rdi).toNat = T - 192
  rsp : (s'.reg .rsp).toNat = T - 200
  next : load64 s'.mem (T - 200) = v.next
  frame : FrameHas s'.mem (T - 192) (callCpu back s)
  interrupts : s'.rflags.getLsbD 9 = s.rflags.getLsbD 9
  direction : s'.rflags.getLsbD 10 = false
  seg : ∀ g, g ≠ .cs → g ≠ .ss → s'.seg g = s.seg g
  other : ∀ x, x < T - 200 ∨ T ≤ x → (x < v.temp1 ∨ v.temp1 + 8 ≤ x) → (x < v.temp2 ∨ v.temp2 + 8 ≤ x) →
    s'.mem x = s.mem x

/-- The words that `syscall_entry` pushes are the frame. -/
theorem FramePushed.frame {back : BitVec 64} {s₀ s₁ : State} (h : FramePushed v T s₁ s')
    (hreg : ∀ r, r ≠ .rsp → r ≠ .rbx → r ≠ .r12 → r ≠ .rcx → r ≠ .r11 → s₁.reg r = s₀.reg r)
    (hrbx : load64 s₁.mem v.temp1 = s₀.reg .rbx) (hr12 : load64 s₁.mem v.temp2 = s₀.reg .r12)
    (hrsp : s₁.reg .rbx = s₀.reg .rsp) (hrcx : s₁.reg .rcx = back) (hr11 : s₁.reg .r11 = s₀.rflags) :
    FrameHas s'.mem (T - 192) (callCpu back s₀) := by
  obtain ⟨gap, hgap, hstack⟩ := h.stack
  obtain ⟨hlow, hrest⟩ := holds_append.mp hstack.bytes
  obtain ⟨-, hhigh⟩ := holds_append.mp hrest
  have hlen : (lowWords v s₁).length = 17 := rfl
  rw [length_toBytes, hgap, hlen] at hhigh
  have hlow' : ∀ i (hi : i < 17), load64 s'.mem (T - 192 + 8 * i) = (lowWords v s₁)[i] := fun i hi =>
    load64_of_holds hlow hi
  have hhigh' : ∀ i (hi : i < 5), load64 s'.mem (T - 192 + (152 + 8 * i)) = (highWords s₁)[i] := fun i hi => by
    have hword := load64_of_holds hhigh (i := i) hi
    rwa [show T - 192 + 8 * 17 + 16 + 8 * i = T - 192 + (152 + 8 * i) by omega] at hword
  constructor
  · intro r
    cases r
    case rsp => exact (hhigh' 3 (by decide)).trans hrsp
    case rbx => exact (hlow' 13 (by decide)).trans hrbx
    case r12 => exact (hlow' 3 (by decide)).trans hr12
    case rcx => exact hlow' 12 (by decide)
    case r11 => exact hlow' 4 (by decide)
    case rax => exact (hlow' 14 (by decide)).trans (hreg _ (by decide) (by decide) (by decide) (by decide) (by decide))
    case rdx => exact (hlow' 11 (by decide)).trans (hreg _ (by decide) (by decide) (by decide) (by decide) (by decide))
    case rbp => exact (hlow' 10 (by decide)).trans (hreg _ (by decide) (by decide) (by decide) (by decide) (by decide))
    case rdi => exact (hlow' 9 (by decide)).trans (hreg _ (by decide) (by decide) (by decide) (by decide) (by decide))
    case rsi => exact (hlow' 8 (by decide)).trans (hreg _ (by decide) (by decide) (by decide) (by decide) (by decide))
    case r8 => exact (hlow' 7 (by decide)).trans (hreg _ (by decide) (by decide) (by decide) (by decide) (by decide))
    case r9 => exact (hlow' 6 (by decide)).trans (hreg _ (by decide) (by decide) (by decide) (by decide) (by decide))
    case r10 => exact (hlow' 5 (by decide)).trans (hreg _ (by decide) (by decide) (by decide) (by decide) (by decide))
    case r13 => exact (hlow' 2 (by decide)).trans (hreg _ (by decide) (by decide) (by decide) (by decide) (by decide))
    case r14 => exact (hlow' 1 (by decide)).trans (hreg _ (by decide) (by decide) (by decide) (by decide) (by decide))
    case r15 => exact (hlow' 0 (by decide)).trans (hreg _ (by decide) (by decide) (by decide) (by decide) (by decide))
  · rw [load16_eq, hlow' 15 (by decide)]
    rfl
  · rw [load16_eq, hlow' 16 (by decide)]
    rfl
  · exact (hhigh' 0 (by decide)).trans hrcx
  · rw [load16_eq, hhigh' 1 (by decide)]
    rfl
  · exact (hhigh' 2 (by decide)).trans hr11
  · rw [load16_eq, hhigh' 4 (by decide)]
    rfl

theorem atHandler_enter (entry back : BitVec 64) (h : v.Apart s.mem T) :
    AtHandler v T back s (enterSyscall v entry back s) := by
  have hroom := h.room
  obtain ⟨s₀, hs₀⟩ : ∃ s₀, syscall back SEL_KCSEG entry syscallMask s = s₀ := ⟨_, rfl⟩
  have hmem₀ : s₀.mem = s.mem := by rw [← hs₀]; rfl
  have hreg₀ : ∀ r, r ≠ .rcx → r ≠ .r11 → s₀.reg r = s.reg r := fun r hcx h11 => by
    rw [← hs₀]
    exact (update_of_ne h11 _ _).trans (update_of_ne hcx _ _)
  have hrcx₀ : s₀.reg .rcx = back := by rw [← hs₀]; simp [syscall]
  have hr11₀ : s₀.reg .r11 = s.rflags := by rw [← hs₀]; simp [syscall]
  have hseg₀ : ∀ g, g ≠ .cs → g ≠ .ss → s₀.seg g = s.seg g := fun g hcs hss => by
    rw [← hs₀]
    exact (update_of_ne hss _ _).trans (update_of_ne hcs _ _)
  have hfl₀ : s₀.rflags = s.rflags &&& ~~~syscallMask := by rw [← hs₀]; rfl
  have hIF₀ : s₀.rflags.getLsbD 9 = false := by
    rw [hfl₀, BitVec.getLsbD_and, show (~~~syscallMask).getLsbD 9 = false by decide, Bool.and_false]
  have hDF₀ : s₀.rflags.getLsbD 10 = false := by
    rw [hfl₀, BitVec.getLsbD_and, show (~~~syscallMask).getLsbD 10 = false by decide, Bool.and_false]
  have hdef : enterSyscall v entry back s = run (syscallEntry v) s₀ := by rw [← hs₀]; rfl
  rw [hdef]
  -- The three parts of the code.
  rw [← hmem₀] at h
  clear hs₀ hdef
  have hcode : syscallEntry v = [.storeVar .rbx v.temp1, .storeVar .r12 v.temp2, .mov (.reg .rsp) .rbx,
      .mov (.imm v.tss) .r12, .mov (.mem 0 .r12) .r12, .mov (.mem 4 .r12) .rsp] ++
      (([Operand.imm (SEL_UDSEG.setWidth 64), .reg .rbx, .reg .r11, .imm (SEL_UCSEG.setWidth 64),
        .reg .rcx].map .push ++ (.sub 16 .rsp :: ([Operand.imm (SEL_UDSEG.setWidth 64), .imm (SEL_UDSEG.setWidth 64),
        .reg .rax].map .push ++ (.mov (.var v.temp1) .rbx :: ([Operand.reg .rbx, .imm 0, .reg .rdx, .reg .rbp, .reg .rdi,
        .reg .rsi, .reg .r8, .reg .r9, .reg .r10, .imm 0].map .push ++ (.mov (.var v.temp2) .r12 ::
        [Operand.reg .r12, .reg .r13, .reg .r14, .reg .r15].map .push)))))) ++
      [.mov (.reg .rsp) .rdi, .bts 9 .r11, .unlessNb .sti, .mov (.imm v.syscallHandler) .r12, .call v.next]) := rfl
  rw [hcode, run_append, run_append]
  generalize hs₁ : run _ s₀ = s₁
  generalize hs₂ : run _ s₁ = s₂
  generalize hs₃ : run _ s₂ = s₃
  have hstack := run_kernelStack h hs₁
  have hpushed := run_syscallPushes hstack.rsp hroom h.stack hs₂
  have hcalled := run_callHandler hpushed.rsp hroom hs₃
  have hframe : FrameHas s₂.mem (T - 192) (callCpu back s) := by
    refine hpushed.frame (fun r hrsp hrbx hr12 hcx h11 => ?_) ?_ ?_ ?_ ?_ ?_
    · rw [hstack.reg r hrsp hrbx hr12, hreg₀ r hcx h11]
    · rw [hstack.temp1, hreg₀ _ (by decide) (by decide)]
    · rw [hstack.temp2, hreg₀ _ (by decide) (by decide)]
    · rw [hstack.rbx, hreg₀ _ (by decide) (by decide)]
    · rw [hstack.reg _ (by decide) (by decide) (by decide), hrcx₀]
    · rw [hstack.reg _ (by decide) (by decide) (by decide), hr11₀]
  have hflags : ∀ n, arithFlags.getLsbD n = false → s₂.rflags.getLsbD n = s₀.rflags.getLsbD n := fun n hn => by
    rw [hpushed.rflags n hn, hstack.rflags]
  refine ⟨by rw [hcalled.rdi, hpushed.rsp], hcalled.rsp, hcalled.next, ?_, ?_, ?_, fun g hcs hss => ?_,
    fun x hx h₁ h₂ => ?_⟩
  · exact hframe.congr fun x hle _ => hcalled.other x (.inr hle)
  · rw [hcalled.interrupts (by rw [hflags 9 (by decide), hIF₀]), hpushed.r11,
      hstack.reg _ (by decide) (by decide) (by decide), hr11₀]
  · rw [hcalled.rflags 10 (by decide) (by decide), hflags 10 (by decide), hDF₀]
  · rw [hcalled.seg, hpushed.seg, hstack.seg, hseg₀ g hcs hss]
  · obtain ⟨gap, -, hpushes⟩ := hpushed.stack
    rw [hcalled.other x (by omega), hpushes.others x (by omega), hstack.other x h₁ h₂, hmem₀]

/-- The processor with a result in `rax`. -/
def resultCpu (c : Cpu) (result : BitVec 64) : Cpu := { c with reg := update c.reg .rax result }

@[simp] theorem resultCpu_rax (c : Cpu) (result : BitVec 64) : (resultCpu c result).reg .rax = result := by
  simp [resultCpu]

theorem resultCpu_reg {back result : BitVec 64} {r : Reg} (hax : r ≠ .rax) (hcx : r ≠ .rcx) (h11 : r ≠ .r11) :
    (resultCpu (callCpu back s) result).reg r = s.reg r := by
  cases r <;> simp_all [resultCpu, callCpu]

/-- `f->R.rax = result`. -/
theorem FrameHas.result {result : BitVec 64} (h : FrameHas m a c)
    (heq : ∀ x, a ≤ x → x < a + FRAME_SIZE → (x < a + 112 ∨ a + 120 ≤ x) → m' x = m x)
    (hrax : load64 m' (a + 112) = result) : FrameHas m' a (resultCpu c result) := by
  have hoff : ∀ r, r ≠ .rax → frameOffset r + 8 ≤ 112 ∨ 120 ≤ frameOffset r ∧ frameOffset r + 8 ≤ FRAME_SIZE := by
    intro r hr
    cases r <;> first | exact absurd rfl hr | decide
  have h64 : ∀ n, n + 8 ≤ 112 ∨ 120 ≤ n ∧ n + 8 ≤ FRAME_SIZE → load64 m' (a + n) = load64 m (a + n) := fun n hn =>
    load64_congr fun i hi => heq _ (by omega) (by unfold FRAME_SIZE at *; omega) (by omega)
  have h16 : ∀ n, 120 ≤ n ∧ n + 8 ≤ FRAME_SIZE → load16 m' (a + n) = load16 m (a + n) := fun n hn => by
    rw [load16_eq, load16_eq, h64 n (.inr hn)]
  constructor
  · intro r
    by_cases hr : r = .rax
    · subst hr
      simpa [resultCpu, frameOffset] using hrax
    · rw [h64 _ (hoff r hr), h.reg r]
      exact (update_of_ne hr _ _).symm
  · rw [h16 _ (by decide), h.es]
    rfl
  · rw [h16 _ (by decide), h.ds]
    rfl
  · rw [h64 _ (by decide), h.rip]
    rfl
  · rw [h16 _ (by decide), h.cs]
    rfl
  · rw [h64 _ (by decide), h.rflags]
    rfl
  · rw [h16 _ (by decide), h.ss]
    rfl

theorem FrameHas.memcpy {b : Nat} (h : FrameHas m a c) : FrameHas (memcpyFrame m b a) b c := by
  have hbyte : ∀ x, x < FRAME_SIZE → memcpyFrame m b a (b + x) = m (a + x) := by
    intro x hx
    have hholds := holds_putBytes m b ((List.range FRAME_SIZE).map fun k => m (a + k)) x (by simpa using hx)
    rwa [List.getElem_map, List.getElem_range] at hholds
  have hoff : ∀ r, frameOffset r + 8 ≤ FRAME_SIZE := by
    intro r
    cases r <;> decide
  have h64 : ∀ n, n + 8 ≤ FRAME_SIZE → load64 (memcpyFrame m b a) (b + n) = load64 m (a + n) := fun n hn => by
    unfold load64 loadLe
    congr 2
    refine List.map_congr_left fun i hi => ?_
    rw [Nat.add_assoc, Nat.add_assoc, hbyte _ (by have := List.mem_range.mp hi; omega)]
  have h16 : ∀ n, n + 8 ≤ FRAME_SIZE → load16 (memcpyFrame m b a) (b + n) = load16 m (a + n) := fun n hn => by
    rw [load16_eq, load16_eq, h64 n hn]
  constructor
  · intro r
    rw [h64 _ (hoff r), h.reg r]
  · rw [h16 _ (by decide), h.es]
  · rw [h16 _ (by decide), h.ds]
  · rw [h64 _ (by decide), h.rip]
  · rw [h16 _ (by decide), h.cs]
  · rw [h64 _ (by decide), h.rflags]
  · rw [h16 _ (by decide), h.ss]

/-- A process goes on behind its system call; `rcx` and `r11` are lost. -/
structure CallReturned (back result : BitVec 64) (s s' : State) : Prop where
  reg : ∀ r, r ≠ .rax → r ≠ .rcx → r ≠ .r11 → s'.reg r = s.reg r
  rax : s'.reg .rax = result
  rip : s'.rip = back
  rflags : s'.rflags = s.rflags
  cs : s'.seg .cs = SEL_UCSEG
  ss : s'.seg .ss = SEL_UDSEG

/-- The handler comes back: it has written `rax` in its frame, and nothing else. -/
structure HandlerDone (T : Nat) (result : BitVec 64) (s s' : State) : Prop where
  rsp : (s'.reg .rsp).toNat = T - 192
  frame : ∀ x, T - 192 ≤ x → x < T → (x < T - 192 + 112 ∨ T - 192 + 120 ≤ x) → s'.mem x = s.mem x
  rax : load64 s'.mem (T - 192 + 112) = result

theorem callReturned {entry back result : BitVec 64} {t : State} (h : v.Apart s.mem T) (hflags : ValidFlags s.rflags)
    (ht : HandlerDone T result (enterSyscall v entry back s) t) :
    CallReturned back result s (run syscallExit t) := by
  have hroom := h.room
  have hT : T < 2 ^ 64 := by
    rw [← h.rsp0]
    exact BitVec.isLt _
  have hhandler := atHandler_enter entry back h
  have hframe : FrameHas t.mem (T - 192) (resultCpu (callCpu back s) result) :=
    hhandler.frame.result (fun x hle hlt => ht.frame x hle (by unfold FRAME_SIZE at hlt; omega)) ht.rax
  have hret := run_syscallExit ht.rsp (by unfold FRAME_SIZE; omega) hframe rfl
  refine ⟨fun r hax hcx h11 => ?_, ?_, hret.rip, hret.rflags.trans hflags.returned, hret.cs, hret.ss⟩
  · rw [hret.reg r hcx h11, resultCpu_reg hax hcx h11]
  · rw [hret.reg _ (by decide) (by decide), resultCpu_rax]

/--
**A system call is a function call.** `syscall_handler` runs on the kernel stack, with interrupts on where the process
has them on, and finds the registers of the process in its frame. Behind `syscall`, the process goes on with the
result in `rax`, and with all other registers but `rcx` and `r11`.
-/
theorem system_call_transparent (entry back : BitVec 64) (h : v.Apart s.mem T) (hflags : ValidFlags s.rflags) :
    AtHandler v T back s (enterSyscall v entry back s) ∧
      ∀ result t, HandlerDone T result (enterSyscall v entry back s) t → CallReturned back result s (run syscallExit t) :=
  ⟨atHandler_enter entry back h, fun _ _ ht => callReturned h hflags ht⟩

/-- The variables of a kernel whose stack ends at `0x101000`. -/
def someVars : SyscallVars where
  temp1 := 0x7000
  temp2 := 0x7008
  tss := 0x5000
  syscallHandler := 0x8000
  next := 0x9000

/-- A process in that kernel. -/
def caller : State where
  reg
    | .rax => 2
    | .rsp => 0x47480000
    | _ => 5
  seg
    | .cs => SEL_UCSEG
    | _ => SEL_UDSEG
  rip := 0x400100
  rflags := 0x202
  mem := store64 (store64 (fun _ => 0) 0x5000 0x6000) 0x6004 0x101000

theorem apart_caller : someVars.Apart caller.mem 0x101000 := by
  have htss : load64 caller.mem 0x5000 = 0x6000 := by
    unfold caller
    rw [load64_store64_of_ne (by decide), load64_store64]
  have hptr : (load64 caller.mem someVars.tss.toNat + 4).toNat = 0x6004 := by
    show (load64 caller.mem 0x5000 + 4).toNat = 0x6004
    rw [htss]
    rfl
  refine ⟨?_, by decide, by decide, ?_, by decide⟩
  · rw [hptr]
    show (load64 (store64 _ 0x6004 0x101000) 0x6004).toNat = 0x101000
    rw [load64_store64]
    rfl
  · rw [hptr]
    decide

theorem validFlags_caller : ValidFlags caller.rflags := by
  unfold ValidFlags
  decide

/-- The handler that writes `3`. -/
def answered : State :=
  let s := enterSyscall someVars 0x4000 0x400102 caller
  { s.setReg .rsp (BitVec.ofNat 64 (0x101000 - 192)) with mem := store64 s.mem (0x101000 - 192 + 112) 3 }

theorem handlerDone_answered : HandlerDone 0x101000 3 (enterSyscall someVars 0x4000 0x400102 caller) answered := by
  refine ⟨?_, fun x _ _ hx => store64_of_ne ?_, load64_store64 _ _ _⟩
  · unfold answered
    rw [State.setReg_self]
    rfl
  · omega

/-- The process gets its `3`. -/
theorem system_call_transparent_caller : AtHandler someVars 0x101000 0x400102 caller
    (enterSyscall someVars 0x4000 0x400102 caller) ∧ CallReturned 0x400102 3 caller (run syscallExit answered) := by
  obtain ⟨hat, hret⟩ := system_call_transparent 0x4000 0x400102 apart_caller validFlags_caller
  exact ⟨hat, hret 3 answered handlerDone_answered⟩

/-- What stands between `fork` in the parent and `do_iret` in the child: the frame is copied into `parent_if` and from
there to `if_`, and no one else writes there. -/
structure ForkFrames (T parentIf if_ : Nat) (s : State) (tf : Operand) (s' : State) : Prop where
  copied : ∃ m₁ m₂ : Memory, (∀ x, T - 192 ≤ x → x < T → m₁ x = s.mem x) ∧
    (∀ x, parentIf ≤ x → x < parentIf + FRAME_SIZE → m₂ x = memcpyFrame m₁ parentIf (T - 192) x) ∧
    ∀ x, if_ ≤ x → x < if_ + FRAME_SIZE → s'.mem x = doForkFrame m₂ if_ parentIf x
  tf : (s'.value tf).toNat = if_
  room : if_ + FRAME_SIZE < 2 ^ 64

/-- The child of that process, whose identifier is `3`. -/
def forkedChild : State :=
  let s := enterSyscall someVars 0x4000 0x400102 caller
  { s.setReg .rdi 0x104f00 with mem := doForkFrame (memcpyFrame s.mem 0x102100 (0x101000 - 192)) 0x104f00 0x102100 }

end Pintos
