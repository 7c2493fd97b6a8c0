import Pintos.Lib.Machine
import Pintos.Threads.Switch

/-!
# The context switch

What the instructions of `thread_launch` and `do_iret` do, and what follows for threads that are switched in any
order.

* `run_threadLaunch`, `run_doIret` — a processor goes into a frame, and comes out of it
* `SwitchOk` — the state of a run
* `context_switch_transparent` — a thread goes on as it was left
* `new_thread_starts` — a new thread starts with its function
-/

namespace Pintos

open ByteMemory X86 LittleEndian Function
open Machine (Reach)

variable {s s' : State} {c : Cpu} {m m' : Memory} {a : Nat} {v : BitVec 64}

/-! ## Frames -/

/-- The registers in the order of `struct gp_registers`. -/
def gpRegisters : List (Reg × Nat) :=
  [(.r15, 0), (.r14, 8), (.r13, 16), (.r12, 24), (.r11, 32), (.r10, 40), (.r9, 48), (.r8, 56), (.rsi, 64), (.rdi, 72),
   (.rbp, 80), (.rdx, 88), (.rcx, 96), (.rbx, 104), (.rax, 112)]

theorem mem_gpRegisters {r : Reg} (hr : r ≠ .rsp) : (r, frameOffset r) ∈ gpRegisters := by
  cases r <;> first | exact absurd rfl hr | decide

theorem FrameHas.congr (h : FrameHas m a c) (heq : ∀ x, a ≤ x → x < a + FRAME_SIZE → m' x = m x) : FrameHas m' a c := by
  have hoff : ∀ r, frameOffset r + 8 ≤ FRAME_SIZE := by
    intro r
    cases r <;> decide
  have h64 : ∀ n, n + 8 ≤ FRAME_SIZE → load64 m' (a + n) = load64 m (a + n) := fun n hn =>
    load64_congr fun i hi => heq _ (by omega) (by omega)
  have h16 : ∀ n, n + 8 ≤ FRAME_SIZE → load16 m' (a + n) = load16 m (a + n) := fun n hn =>
    load16_congr fun i hi => heq _ (by omega) (by omega)
  constructor
  · intro r
    rw [h64 _ (hoff r), h.reg r]
  · rw [h16 _ (by decide), h.es]
  · rw [h16 _ (by decide), h.ds]
  · rw [h64 _ (by decide), h.rip]
  · rw [h16 _ (by decide), h.cs]
  · rw [h64 _ (by decide), h.rflags]
  · rw [h16 _ (by decide), h.ss]

/-- The processor is as in `c`, but for `fs` and `gs`. -/
structure SameCpu (s : State) (c : Cpu) : Prop where
  reg : s.reg = c.reg
  seg : ∀ g, g ≠ .fs → g ≠ .gs → s.seg g = c.seg g
  rip : s.rip = c.rip
  rflags : s.rflags = c.rflags &&& 0x3d7fd5 ||| 2

/-! ## `do_iret` -/

/-- The instructions that bring a frame into the processor. -/
def restoreFrame : List Instr :=
  (gpRegisters.map fun p => .mov (.mem (BitVec.ofNat 64 p.2) .rsp) p.1) ++
    [.add 120 .rsp, .loadSeg 8 .rsp .ds, .loadSeg 0 .rsp .es, .add 32 .rsp, .iretq]

theorem run_restoreFrame (hrsp : s.reg .rsp = v) (hroom : v.toNat + FRAME_SIZE < 2 ^ 64)
    (h : FrameHas s.mem v.toNat c) (hrun : run restoreFrame s = s') : SameCpu s' c ∧ s'.mem = s.mem := by
  rw [restoreFrame, run_append] at hrun
  generalize hs₁ : run _ s = s₁ at hrun
  obtain ⟨honly, hloads⟩ := run_loads (by decide) (by decide)
    (fun p hp => by
      rw [hrsp]
      have : p.2 < FRAME_SIZE := by revert p; decide
      omega) hs₁
  have hrsp₁ : s₁.reg .rsp = v := (honly.reg .rsp (by decide)).trans hrsp
  have hmem₁ : s₁.mem = s.mem := honly.mem
  have hds : (v + 120 + 8).toNat = v.toNat + 128 := by unfold FRAME_SIZE at hroom; bv_omega
  have hes : (v + 120 + 0).toNat = v.toNat + 120 := by unfold FRAME_SIZE at hroom; bv_omega
  have htop : (v + 120 + 32).toNat = v.toNat + 152 := by unfold FRAME_SIZE at hroom; bv_omega
  subst hrun
  simp only [run_cons, run_nil, exec, State.setReg, State.setSeg, State.addr, update_self, hrsp₁, hmem₁, hds, hes, htop]
  refine ⟨⟨?_, ?_, ?_, ?_⟩, trivial⟩
  · funext r
    by_cases hr : r = .rsp
    · subst hr
      simp only [update_self]
      exact h.reg .rsp
    · have hload := hloads _ (mem_gpRegisters hr)
      simp only [update_of_ne hr]
      rw [hload, hrsp]
      exact h.reg r
  · intro g hfs hgs
    cases g with
    | cs => exact h.cs
    | ss => exact h.ss
    | ds => exact h.ds
    | es => exact h.es
    | fs => exact absurd rfl hfs
    | gs => exact absurd rfl hgs
  · exact h.rip
  · exact congrArg (· &&& 0x3d7fd5 ||| 2) h.rflags

/-- **`do_iret` puts the frame into the processor**, and leaves the memory alone. -/
theorem run_doIret {tf : Operand} (hv : s.value tf = v) (hroom : v.toNat + FRAME_SIZE < 2 ^ 64)
    (h : FrameHas s.mem v.toNat c) (hrun : run (doIret tf) s = s') : SameCpu s' c ∧ s'.mem = s.mem := by
  have hrsp : (s.setReg .rsp (s.value tf)).reg .rsp = v := (s.setReg_self .rsp _).trans hv
  exact run_restoreFrame (s := s.setReg .rsp (s.value tf)) hrsp hroom h hrun

/-! ## `thread_launch` -/

/-- A word of the stack goes to the frame. -/
theorem run_popStore {n : Nat} (hn : (s.reg .rax).toNat + n < 2 ^ 64)
    (hrun : run [.pop .rbx, .store .rbx (BitVec.ofNat 64 n) .rax] s = s') :
    s'.mem = storeAll s.mem (s.reg .rax).toNat [(n, load64 s.mem (s.reg .rsp).toNat)] ∧
      s'.reg .rsp = s.reg .rsp + 8 ∧ s'.reg .rax = s.reg .rax ∧ s'.reg .rcx = s.reg .rcx ∧ s'.seg = s.seg ∧
      s'.rflags = s.rflags := by
  subst hrun
  have haddr := addr_eq hn
  unfold State.addr at haddr
  simp [exec, State.setReg, State.addr, storeAll, haddr]

/-- What `thread_launch` has pushed goes to the frame. -/
theorem run_popStores {b : BitVec 64} {R : Nat} (hrax : s.reg .rax = b) (hrsp : (s.reg .rsp).toNat + 24 = R)
    (hroom : b.toNat + FRAME_SIZE + 24 ≤ R) (hR : R < 2 ^ 64)
    (hrun : run [.pop .rbx, .store .rbx 96 .rax, .pop .rbx, .store .rbx 104 .rax, .pop .rbx, .store .rbx 112 .rax] s =
      s') :
    s'.mem = storeAll s.mem b.toNat
        [(96, load64 s.mem (R - 24)), (104, load64 s.mem (R - 16)), (112, load64 s.mem (R - 8))] ∧
      (s'.reg .rsp).toNat = R ∧ s'.reg .rax = b ∧ s'.reg .rcx = s.reg .rcx ∧ s'.seg = s.seg ∧ s'.rflags = s.rflags := by
  unfold FRAME_SIZE at hroom
  have hcode : run ([.pop .rbx, .store .rbx (BitVec.ofNat 64 96) .rax] ++
      ([.pop .rbx, .store .rbx (BitVec.ofNat 64 104) .rax] ++ [.pop .rbx, .store .rbx (BitVec.ofNat 64 112) .rax])) s =
      s' := hrun
  rw [run_append, run_append] at hcode
  generalize h₁ : run [.pop .rbx, .store .rbx (BitVec.ofNat 64 96) .rax] s = s₁ at hcode
  generalize h₂ : run [.pop .rbx, .store .rbx (BitVec.ofNat 64 104) .rax] s₁ = s₂ at hcode
  obtain ⟨hmem₁, hrsp₁, hrax₁, hrcx₁, hseg₁, hfl₁⟩ := run_popStore (by rw [hrax]; omega) h₁
  rw [hrax] at hmem₁ hrax₁
  obtain ⟨hmem₂, hrsp₂, hrax₂, hrcx₂, hseg₂, hfl₂⟩ := run_popStore (by rw [hrax₁]; omega) h₂
  rw [hrax₁] at hmem₂ hrax₂
  obtain ⟨hmem₃, hrsp₃, hrax₃, hrcx₃, hseg₃, hfl₃⟩ := run_popStore (by rw [hrax₂]; omega) hcode
  rw [hrax₂] at hmem₃ hrax₃
  have h24 : (s.reg .rsp).toNat = R - 24 := by omega
  have h16 : (s₁.reg .rsp).toNat = R - 16 := by bv_omega
  have h8 : (s₂.reg .rsp).toNat = R - 8 := by bv_omega
  have h0 : (s'.reg .rsp).toNat = R := by bv_omega
  have hw₂ : load64 s₁.mem (R - 16) = load64 s.mem (R - 16) := by
    rw [hmem₁]
    exact load64_storeAll_of_ne (by simp; omega)
  have hw₃ : load64 s₂.mem (R - 8) = load64 s.mem (R - 8) := by
    rw [hmem₂, hmem₁, ← storeAll_append]
    exact load64_storeAll_of_ne (by simp; omega)
  refine ⟨?_, h0, hrax₃, (hrcx₃.trans hrcx₂).trans hrcx₁, (hseg₃.trans hseg₂).trans hseg₁,
    (hfl₃.trans hfl₂).trans hfl₁⟩
  rw [h24] at hmem₁
  rw [h16, hw₂] at hmem₂
  rw [h8, hw₃] at hmem₃
  rw [hmem₃, hmem₂, hmem₁, ← storeAll_append, ← storeAll_append]
  rfl

/-- The first part of `thread_launch`: three registers are pushed, twelve go to the frame. -/
theorem run_launchPush {tfCur tf : Operand} {b : BitVec 64} {R : Nat} (hcur : tfCur.Stable s [.rsp])
    (hbv : s.value tfCur = b) (hnext : tf.Stable s [.rsp, .rax]) (hv : s.value tf = v)
    (hrsp : (s.reg .rsp).toNat = R) (hroom : b.toNat + FRAME_SIZE + 24 ≤ R)
    (hrun : run ([Operand.reg .rax, .reg .rbx, .reg .rcx].map .push ++ ([.mov tfCur .rax, .mov tf .rcx] ++
      (gpRegisters.take 12).map fun p => .store p.1 (BitVec.ofNat 64 p.2) .rax)) s = s') :
    (∃ m, s'.mem = storeAll m b.toNat ((gpRegisters.take 12).map fun p => (p.2, s.reg p.1)) ∧
        (∀ x, x < R - 24 ∨ R ≤ x → m x = s.mem x) ∧ load64 m (R - 24) = s.reg .rcx ∧ load64 m (R - 16) = s.reg .rbx ∧
        load64 m (R - 8) = s.reg .rax) ∧
      s'.reg .rax = b ∧ s'.reg .rcx = v ∧ (s'.reg .rsp).toNat + 24 = R ∧ s'.seg = s.seg ∧ s'.rflags = s.rflags := by
  have hR : R < 2 ^ 64 := hrsp ▸ (s.reg .rsp).isLt
  rw [run_append, run_append] at hrun
  have hp := run_pushes (s := s) (l := [.reg .rax, .reg .rbx, .reg .rcx]) (by simp [Operand.Plain])
    (by rw [hrsp]; simp; omega)
  generalize run ([Operand.reg .rax, .reg .rbx, .reg .rcx].map .push) s = s₁ at hrun hp
  have hrsp₁ : (s₁.reg .rsp).toNat + 24 = R := hp.rsp.trans hrsp
  have hrcx : load64 s₁.mem (R - 24) = s.reg .rcx := by simpa [hrsp, State.value] using hp.word 2 (by simp)
  have hrbx : load64 s₁.mem (R - 16) = s.reg .rbx := by simpa [hrsp, State.value] using hp.word 1 (by simp)
  have hrax : load64 s₁.mem (R - 8) = s.reg .rax := by simpa [hrsp, State.value] using hp.word 0 (by simp)
  -- The pushes change neither operand.
  have hb₁ : s₁.value tfCur = b := by
    rw [hcur.value (fun r hr => hp.reg r (by simpa using hr)) fun x hx => hp.other x (.inr hx), hbv]
  have hreg₂ : ∀ r, r ∉ [Reg.rsp, .rax] → (s₁.setReg .rax b).reg r = s.reg r := by
    intro r hr
    simp only [List.mem_cons, List.not_mem_nil, or_false, not_or] at hr
    rw [State.setReg_of_ne hr.2, hp.reg r hr.1]
  have hv₂ : (s₁.setReg .rax b).value tf = v := (hnext.value hreg₂ fun x hx => hp.other x (.inr hx)).trans hv
  simp only [run_cons, run_nil, exec, hb₁, hv₂] at hrun
  generalize hs₃ : (s₁.setReg .rax b).setReg .rcx v = s₃ at hrun
  have hrax₃ : s₃.reg .rax = b := by simp [← hs₃, State.setReg]
  have hrsp₃ : s₃.reg .rsp = s₁.reg .rsp := by simp [← hs₃, State.setReg]
  have hmem₃ : s₃.mem = s₁.mem := by rw [← hs₃]; rfl
  have hother : ∀ r, r ≠ .rsp → r ≠ .rax → r ≠ .rcx → s₃.reg r = s.reg r := by
    intro r h₁ h₂ h₃
    rw [← hs₃, State.setReg_of_ne h₃, State.setReg_of_ne h₂, hp.reg r h₁]
  have hwords : (gpRegisters.take 12).map (fun p => (p.2, s₃.reg p.1)) =
      (gpRegisters.take 12).map fun p => (p.2, s.reg p.1) := by
    refine List.map_congr_left fun p hp => ?_
    rw [hother p.1 (by revert p; decide) (by revert p; decide) (by revert p; decide)]
  rw [run_stores (fun p hp => by
    have : p.2 < FRAME_SIZE := by revert p; decide
    rw [hrax₃]
    omega), hrax₃, hwords, hmem₃] at hrun
  subst hrun
  refine ⟨⟨s₁.mem, rfl, fun x hx => hp.other x (by omega), hrcx, hrbx, hrax⟩, hrax₃, ?_, ?_, ?_, ?_⟩
  · rw [← hs₃]
    exact State.setReg_self _ .rcx v
  · rw [← hrsp₁, ← hrsp₃]
  · rw [← hs₃]
    exact hp.seg
  · rw [← hs₃]
    exact hp.rflags

/-- The instructions of `thread_launch` up to `addq`. -/
def launchSave (tfCur tf : Operand) : List Instr :=
  ([Operand.reg .rax, .reg .rbx, .reg .rcx].map .push ++ ([.mov tfCur .rax, .mov tf .rcx] ++
      (gpRegisters.take 12).map fun p => .store p.1 (BitVec.ofNat 64 p.2) .rax)) ++
    [.pop .rbx, .store .rbx 96 .rax, .pop .rbx, .store .rbx 104 .rax, .pop .rbx, .store .rbx 112 .rax]

/-- The instructions from there on. -/
def launchRest (next outIret : BitVec 64) : List Instr :=
  [.add 120 .rax, .storeSeg .es 0 .rax, .storeSeg .ds 8 .rax, .add 32 .rax, .call next, .pop .rbx,
    .add (outIret - next) .rbx, .store .rbx 0 .rax, .storeSeg .cs 8 .rax, .pushfq, .pop .rbx, .store .rbx 16 .rax,
    .store .rsp 24 .rax, .storeSeg .ss 32 .rax, .mov (.reg .rcx) .rdi, .call outIret]

theorem threadLaunch_eq (next outIret : BitVec 64) (tfCur tf : Operand) :
    threadLaunch next outIret tfCur tf = launchSave tfCur tf ++ launchRest next outIret := rfl

/-- The general registers go to the frame. -/
theorem run_launchSave {tfCur tf : Operand} {b : BitVec 64} {R : Nat} (hcur : tfCur.Stable s [.rsp])
    (hbv : s.value tfCur = b) (hnext : tf.Stable s [.rsp, .rax]) (hv : s.value tf = v)
    (hrsp : (s.reg .rsp).toNat = R) (hroom : b.toNat + FRAME_SIZE + 24 ≤ R)
    (hrun : run (launchSave tfCur tf) s = s') :
    (∃ m, s'.mem = storeAll m b.toNat (gpRegisters.map fun p => (p.2, s.reg p.1)) ∧
        ∀ x, x < R - 24 ∨ R ≤ x → m x = s.mem x) ∧
      s'.reg .rax = b ∧ s'.reg .rcx = v ∧ s'.reg .rsp = s.reg .rsp ∧ s'.seg = s.seg ∧ s'.rflags = s.rflags := by
  have hR : R < 2 ^ 64 := hrsp ▸ (s.reg .rsp).isLt
  rw [launchSave, run_append] at hrun
  generalize hs₁ : run (_ ++ _) s = s₁ at hrun
  obtain ⟨⟨m, hmem₁, hothers, hrcx, hrbx, hrax⟩, hrax₁, hrcx₁, hrsp₁, hseg₁, hfl₁⟩ :=
    run_launchPush hcur hbv hnext hv hrsp hroom hs₁
  obtain ⟨hmem', hrsp', hrax', hrcx', hseg', hfl'⟩ := run_popStores hrax₁ hrsp₁ hroom hR hrun
  -- The twelve stores do not reach the stack.
  have hapart : ∀ n, R ≤ n + 24 → load64 s₁.mem n = load64 m n := by
    intro n hn
    rw [hmem₁]
    refine load64_storeAll_of_ne fun w hw => ?_
    obtain ⟨p, hp, rfl⟩ := List.mem_map.mp hw
    have : p.2 + 8 ≤ FRAME_SIZE := by
      clear hw
      revert p
      decide
    right
    show b.toNat + p.2 + 8 ≤ n
    omega
  rw [hapart _ (by omega), hapart _ (by omega), hapart _ (by omega), hrcx, hrbx, hrax, hmem₁, ← storeAll_append] at hmem'
  exact ⟨⟨m, hmem', hothers⟩, hrax', hrcx'.trans hrcx₁, by bv_omega, hseg'.trans hseg₁, hfl'.trans hfl₁⟩

/-- The last part of `thread_launch`: what is not a general register goes to the frame. -/
theorem run_launchRest {next outIret b : BitVec 64} {R : Nat} (hrax : s.reg .rax = b) (hrsp : (s.reg .rsp).toNat = R)
    (hb : b.toNat + FRAME_SIZE < 2 ^ 64) (hR : 8 ≤ R)
    (hrun : run (launchRest next outIret) s = s') :
    s'.mem = store64 (store16 (store64 (store64 (store64 (store16 (store64 (store64 (store16 (store16 s.mem
        (b.toNat + 120) (s.seg .es)) (b.toNat + 128) (s.seg .ds)) (R - 8) next) (b.toNat + 152) outIret)
        (b.toNat + 160) (s.seg .cs)) (R - 8) (launchFlags s.rflags b next outIret &&& 0xfcffff)) (b.toNat + 168)
        (launchFlags s.rflags b next outIret &&& 0xfcffff)) (b.toNat + 176) (s.reg .rsp)) (b.toNat + 184) (s.seg .ss))
        (R - 8) outIret ∧
      s'.reg .rdi = s.reg .rcx ∧ s'.reg .rsp = s.reg .rsp - 8 ∧ s'.seg = s.seg := by
  unfold FRAME_SIZE at hb
  have h120 : (b + 120 + 0).toNat = b.toNat + 120 := by bv_omega
  have h128 : (b + 120 + 8).toNat = b.toNat + 128 := by bv_omega
  have h152 : (b + 120 + 32 + 0).toNat = b.toNat + 152 := by bv_omega
  have h160 : (b + 120 + 32 + 8).toNat = b.toNat + 160 := by bv_omega
  have h168 : (b + 120 + 32 + 16).toNat = b.toNat + 168 := by bv_omega
  have h176 : (b + 120 + 32 + 24).toNat = b.toNat + 176 := by bv_omega
  have h184 : (b + 120 + 32 + 32).toNat = b.toNat + 184 := by bv_omega
  have hdown : (s.reg .rsp - 8).toNat = R - 8 := by bv_omega
  have hup : s.reg .rsp - 8 + 8 = s.reg .rsp := by bv_omega
  have hout : next + (outIret - next) = outIret := by bv_omega
  subst hrun
  simp only [launchRest, run_cons, run_nil, exec, State.setReg, State.addr, State.pushWord, State.value, update_self,
    hrax, hdown, hup, hout, ne_eq, reduceCtorEq, not_false_eq_true, update_of_ne, h120, h128, h152, h160, h168, h176,
    h184, load64_store64]
  exact ⟨rfl, trivial, trivial, trivial⟩

/-- **`thread_launch` saves the processor** in the frame of the thread that runs, up to the call of `do_iret`. -/
theorem run_threadLaunch {next outIret b : BitVec 64} {tfCur tf : Operand} (hcur : tfCur.Stable s [.rsp])
    (hbv : s.value tfCur = b) (hnext : tf.Stable s [.rsp, .rax]) (hv : s.value tf = v)
    (hroom : b.toNat + FRAME_SIZE + 24 ≤ (s.reg .rsp).toNat)
    (hrun : run (threadLaunch next outIret tfCur tf) s = s') :
    FrameHas s'.mem b.toNat (suspendedCpu s.toCpu b next outIret) ∧ s'.reg .rdi = v ∧
      s'.reg .rsp = s.reg .rsp - 8 ∧ s'.seg = s.seg ∧
      ∀ x, x < b.toNat ∨ b.toNat + FRAME_SIZE ≤ x → x < (s.reg .rsp).toNat - 24 ∨ (s.reg .rsp).toNat ≤ x →
        s'.mem x = s.mem x := by
  rw [threadLaunch_eq, run_append] at hrun
  generalize hs₁ : run (launchSave tfCur tf) s = s₁ at hrun
  obtain ⟨⟨m, hmem₁, hothers⟩, hrax, hrcx, hrsp, hseg, hfl⟩ := run_launchSave hcur hbv hnext hv rfl hroom hs₁
  have hR := (s.reg .rsp).isLt
  generalize hRe : (s.reg .rsp).toNat = R at *
  obtain ⟨hmem, hrdi, hrsp', hseg'⟩ := run_launchRest hrax (by rw [hrsp, hRe]) (by omega) (by omega) hrun
  rw [hrsp] at hmem hrsp'
  rw [hseg] at hmem hseg'
  rw [hfl] at hmem
  unfold FRAME_SIZE at *
  refine ⟨?_, hrdi.trans hrcx, hrsp', hseg', fun x hx hx' => ?_⟩
  · rw [hmem]
    constructor
    · intro r
      by_cases hr : r = .rsp
      · subst hr
        simp (disch := omega) only [frameOffset, load64_store64_of_ne, load64_store16_of_ne, load64_store64]
        rfl
      · have hoff : frameOffset r + 8 ≤ 120 := by revert hr; cases r <;> decide
        simp (disch := omega) only [load64_store64_of_ne, load64_store16_of_ne]
        rw [hmem₁]
        have hapart : gpRegisters.Pairwise fun p q => p.2 + 8 ≤ q.2 ∨ q.2 + 8 ≤ p.2 := by decide
        exact load64_storeAll (List.pairwise_map.mpr hapart) (w := (frameOffset r, s.reg r)) (List.mem_map_of_mem (mem_gpRegisters hr))
    all_goals
      simp (disch := omega) only [load64_store64_of_ne, load64_store16_of_ne, load16_store64_of_ne, load16_store16_of_ne,
        load64_store64, load16_store16]
      rfl
  · have hword : ∀ p ∈ gpRegisters, p.2 + 8 ≤ 192 := by decide
    rw [hmem]
    simp (disch := omega) only [store64_of_ne, store16_of_ne]
    rw [hmem₁, storeAll_of_ne, hothers x (by omega)]
    intro w hw
    obtain ⟨p, hp, rfl⟩ := List.mem_map.mp hw
    have := hword p hp
    dsimp only
    omega

/-! ## Threads -/

/-- Two pages. -/
theorem pages_apart {p q : Nat} (hp : p % PGSIZE = 0) (hq : q % PGSIZE = 0) (hne : p ≠ q) :
    p + PGSIZE ≤ q ∨ q + PGSIZE ≤ p := by
  unfold PGSIZE at *
  omega

theorem runningThread_eq {p : Nat} (hp : p % PGSIZE = 0) (hle : p ≤ (s.reg .rsp).toNat)
    (hlt : (s.reg .rsp).toNat < p + PGSIZE) : runningThread s = p := by
  unfold runningThread PGSIZE at *
  omega

theorem runningThread_spec (s : State) : runningThread s % PGSIZE = 0 ∧ runningThread s ≤ (s.reg .rsp).toNat ∧
    (s.reg .rsp).toNat < runningThread s + PGSIZE := by
  unfold runningThread PGSIZE
  omega

/-- What is kept for a thread that does not run. -/
structure KeptThread (off : Nat) (m : Memory) (p : Nat) (z : Suspended) : Prop where
  page : p % PGSIZE = 0
  frame : FrameHas m (p + off) z.cpu
  below : p + off + FRAME_SIZE ≤ (z.cpu.reg .rsp).toNat
  above : (z.cpu.reg .rsp).toNat < p + PGSIZE
  stack : ∀ x, (z.cpu.reg .rsp).toNat ≤ x → x < p + PGSIZE → m x = z.mem x
  flags : ValidFlags (z.cpu.rflags &&& 0x3d7fd5 ||| 2)

/-- The state of a run. -/
structure SwitchOk (off : Nat) (s : SwitchSys) : Prop where
  running : s.suspended (runningThread s.state) = none
  flags : ValidFlags s.state.rflags
  kept : ∀ p z, s.suspended p = some z → KeptThread off s.state.mem p z

variable {off room p q : Nat} {z : Suspended} {t t' : SwitchSys}

theorem KeptThread.congr (h : KeptThread off m p z)
    (heq : ∀ x, (p + off ≤ x ∧ x < p + off + FRAME_SIZE) ∨ ((z.cpu.reg .rsp).toNat ≤ x ∧ x < p + PGSIZE) → m' x = m x) :
    KeptThread off m' p z :=
  ⟨h.page, h.frame.congr fun x hle hlt => heq x (.inl ⟨hle, hlt⟩), h.below, h.above,
    fun x hle hlt => (heq x (.inr ⟨hle, hlt⟩)).trans (h.stack x hle hlt), h.flags⟩

/-- Where only another page changes, all is kept. -/
theorem KeptThread.other_page (h : KeptThread off m p z) (hq : q % PGSIZE = 0) (hne : p ≠ q)
    (heq : ∀ x, x < q ∨ q + PGSIZE ≤ x → m' x = m x) : KeptThread off m' p z := by
  have hpages := pages_apart h.page hq hne
  have hbelow := h.below
  have habove := h.above
  refine h.congr fun x hx => heq x ?_
  omega

theorem validFlags_launch (h : ValidFlags v) (b next outIret : BitVec 64) :
    ValidFlags (launchFlags v b next outIret) := ((h.add _ _).add _ _).add _ _

theorem launchFlags_other {n : Nat} (hn : arithFlags.getLsbD n = false) (b next outIret : BitVec 64) :
    (launchFlags v b next outIret).getLsbD n = v.getLsbD n :=
  (addFlags_other hn _ _).trans ((addFlags_other hn _ _).trans (addFlags_other hn _ _))

/-- How a thread goes on: with its registers, and with its stack. -/
structure Resumed (p : Nat) (z : Suspended) (s : State) : Prop where
  cpu : SameCpu s z.cpu
  stack : ∀ x, (z.cpu.reg .rsp).toNat ≤ x → x < p + PGSIZE → s.mem x = z.mem x

/-- **A switch.** The thread that is launched goes on as it was, and the one that ran is kept. -/
theorem SwitchOk.launch {l : Launch} (h : SwitchOk off t) (hl : t.Launches off room l) (hroom : 24 ≤ room)
    (hs : t.step off (.launch l) = .ok t') :
    ∃ z, t.suspended l.page = some z ∧ Resumed l.page z t'.state ∧ SwitchOk off t' := by
  obtain ⟨z, hz⟩ := Option.ne_none_iff_exists'.mp hl.suspended
  have hk := h.kept _ _ hz
  obtain ⟨hpage, hle, hlt⟩ := runningThread_spec t.state
  have hR := (t.state.reg .rsp).isLt
  have hZ := (z.cpu.reg .rsp).isLt
  have hstack := hl.stack
  have hbelow := hk.below
  have hne : l.page ≠ runningThread t.state := by
    intro he
    rw [he, h.running] at hz
    cases hz
  have hcur := hl.tfCur_eq
  generalize hp : runningThread t.state = p at *
  have hb : (BitVec.ofNat 64 (p + off)).toNat = p + off := by
    rw [BitVec.toNat_ofNat, Nat.mod_eq_of_lt (by omega)]
  have hv : (BitVec.ofNat 64 (l.page + off)).toNat = l.page + off := by
    rw [BitVec.toNat_ofNat, Nat.mod_eq_of_lt (by omega)]
  have hentered := hl.entered
  have htf := hl.tf'_eq
  generalize hmid : X86.run (threadLaunch l.next l.outIret l.tfCur l.tf) t.state = mid at hentered htf
  obtain ⟨hframe, hrdi, -, -, hmem⟩ := run_threadLaunch hl.tfCur hcur hl.tf hl.tf_eq (by rw [hb]; omega) hmid
  rw [hb] at hframe hmem
  -- The changes are all in the page of the thread that ran.
  have hother : ∀ x, x < p ∨ p + PGSIZE ≤ x → l.entered.mem x = t.state.mem x := by
    intro x hx
    unfold FRAME_SIZE at *
    rw [hentered x (by omega), hmem x (by omega) (by omega)]
  have hk' : KeptThread off l.entered.mem l.page z := hk.other_page hpage hne hother
  obtain ⟨hsame, hmem'⟩ := run_doIret (htf.trans hrdi) (by rw [hv]; omega) (by rw [hv]; exact hk'.frame) rfl
  cases hs
  rw [hp]
  have hrsp' := congrFun hsame.reg .rsp
  refine ⟨z, hz, ⟨hsame, fun x hle hlt => ?_⟩, ⟨?_, ?_, fun q y hy => ?_⟩⟩
  · exact (congrFun hmem' x).trans (hk'.stack x hle hlt)
  · have hrun : runningThread (X86.run (doIret l.tf') l.entered) = l.page :=
      runningThread_eq hk.page (by rw [hrsp']; omega) (by rw [hrsp']; exact hk.above)
    show update (update t.suspended p _) l.page none (runningThread (X86.run (doIret l.tf') l.entered)) = none
    rw [hrun, update_self]
  · show ValidFlags (X86.run (doIret l.tf') l.entered).rflags
    rw [hsame.rflags]
    exact hk.flags
  · show KeptThread off (X86.run (doIret l.tf') l.entered).mem q y
    rw [hmem']
    dsimp only at hy
    by_cases hqp : q = l.page
    · subst hqp
      rw [update_self] at hy
      cases hy
    · rw [update_of_ne hqp] at hy
      by_cases hqc : q = p
      · subst hqc
        rw [update_self] at hy
        cases hy
        refine ⟨hpage, hframe.congr fun x hle hlt => hentered x ?_, ?_, hlt, fun x hle' hlt' => ?_, ?_⟩
        · omega
        · show q + off + FRAME_SIZE ≤ (t.state.reg .rsp).toNat
          omega
        · have hle'' : (t.state.reg .rsp).toNat ≤ x := hle'
          rw [hentered x (by omega), hmem x (by omega) (.inr hle'')]
        · have hvalid := validFlags_launch h.flags (BitVec.ofNat 64 (q + off)) l.next l.outIret
          show ValidFlags ((_ &&& 0xfcffff) &&& 0x3d7fd5 ||| 2)
          rw [hvalid.pushed, hvalid.popped]
          exact hvalid
      · rw [update_of_ne hqc] at hy
        exact (h.kept q y hy).other_page hpage hqc hother

theorem SwitchOk.run {s : State} (h : SwitchOk off t) (hmem : t.Respects off s.mem)
    (hrun : runningThread s = runningThread t.state) (hfl : ValidFlags s.rflags) : SwitchOk off { t with state := s } :=
  ⟨by rw [hrun]; exact h.running, hfl, fun p z hz => (h.kept p z hz).congr fun x hx => hmem p z hz x hx⟩

theorem SwitchOk.free (h : SwitchOk off t) (p : Nat) :
    SwitchOk off { t with suspended := update t.suspended p none } := by
  refine ⟨?_, h.flags, fun q z hz => ?_⟩
  · by_cases hp : runningThread t.state = p
    · subst hp
      exact update_self _ _ _
    · exact (update_of_ne hp _ _).trans h.running
  · by_cases hq : q = p
    · subst hq
      dsimp only at hz
      rw [update_self] at hz
      cases hz
    · dsimp only at hz
      rw [update_of_ne hq] at hz
      exact h.kept q z hz

/-- The frame of a new thread. -/
theorem frameHas_threadCreate {kernelThread function aux : BitVec 64} (hroom : off + FRAME_SIZE ≤ PGSIZE - 8) :
    FrameHas (threadCreate m off p kernelThread function aux) (p + off) (newCpu p kernelThread function aux) := by
  unfold FRAME_SIZE PGSIZE at hroom
  generalize hm : (fun x => if p ≤ x ∧ x < p + PGSIZE then 0 else m x : Memory) = m₀
  have hzero : ∀ n, n + 8 ≤ FRAME_SIZE → load64 m₀ (p + off + n) = 0 := by
    intro n hn
    unfold FRAME_SIZE at hn
    have hbytes : ∀ i, i < 8 → m₀ (p + off + n + i) = 0 := fun i hi => by
      rw [← hm]
      exact if_pos (by unfold PGSIZE; omega)
    rw [load64, loadLe_zero hbytes]
    rfl
  unfold threadCreate
  rw [hm]
  dsimp only
  constructor
  · intro r
    cases r
    case rsp =>
      simp (disch := omega) only [frameOffset, load64_store64_of_ne, load64_store16_of_ne, load64_store64]
      rfl
    case rdi =>
      simp (disch := omega) only [frameOffset, load64_store64_of_ne, load64_store16_of_ne, load64_store64]
      rfl
    case rsi =>
      simp (disch := omega) only [frameOffset, load64_store64_of_ne, load64_store16_of_ne, load64_store64]
      rfl
    all_goals
      simp (disch := omega) only [frameOffset, load64_store64_of_ne, load64_store16_of_ne]
      exact hzero _ (by decide)
  all_goals
    simp (disch := omega) only [load64_store64_of_ne, load64_store16_of_ne, load16_store64_of_ne, load16_store16_of_ne,
      load64_store64, load16_store16]
    rfl

theorem threadCreate_other {kernelThread function aux : BitVec 64} (hroom : off + FRAME_SIZE ≤ PGSIZE - 8) {x : Nat}
    (hx : x < p ∨ p + PGSIZE ≤ x) : threadCreate m off p kernelThread function aux x = m x := by
  unfold FRAME_SIZE at hroom
  have hpg : PGSIZE = 4096 := rfl
  unfold threadCreate
  simp (disch := omega) only [store64_of_ne, store16_of_ne]
  exact if_neg (by omega)

theorem SwitchOk.create {kernelThread function aux : BitVec 64} (h : SwitchOk off t)
    (hroom : off + FRAME_SIZE ≤ PGSIZE - 8) (hp : p % PGSIZE = 0) (hlt : p + PGSIZE < 2 ^ 64)
    (hne : p ≠ runningThread t.state) (hs : t.step off (.create p kernelThread function aux) = .ok t') :
    SwitchOk off t' := by
  have hpg : PGSIZE = 4096 := rfl
  cases hs
  refine ⟨(update_of_ne (Ne.symm hne) _ _).trans h.running, h.flags, fun q z hz => ?_⟩
  dsimp only at hz ⊢
  by_cases hq : q = p
  · subst hq
    rw [update_self] at hz
    cases hz
    have htop : (BitVec.ofNat 64 (q + PGSIZE - 8)).toNat = q + PGSIZE - 8 := by
      rw [BitVec.toNat_ofNat, Nat.mod_eq_of_lt (by omega)]
    refine ⟨hp, frameHas_threadCreate hroom, ?_, ?_, fun _ _ _ => rfl, ?_⟩
    · show q + off + FRAME_SIZE ≤ (BitVec.ofNat 64 (q + PGSIZE - 8)).toNat
      omega
    · show (BitVec.ofNat 64 (q + PGSIZE - 8)).toNat < q + PGSIZE
      omega
    · show ValidFlags (FLAG_IF &&& 0x3d7fd5 ||| 2)
      unfold ValidFlags
      decide
  · rw [update_of_ne hq] at hz
    exact (h.kept q z hz).other_page hp hq fun x hx => threadCreate_other hroom hx

/-- **What one step keeps.** -/
theorem SwitchOk.step {a : SwitchAction} (h : SwitchOk off t) (hlayout : off + FRAME_SIZE ≤ PGSIZE - 8) (hroom : 24 ≤ room)
    (ha : t.Proper off room a) (hs : t.step off a = .ok t') : SwitchOk off t' := by
  cases a with
  | run s =>
    cases hs
    exact h.run ha.1 ha.2.1 ha.2.2
  | create page kernelThread function aux => exact h.create hlayout ha.1 ha.2.1 ha.2.2.1 hs
  | free page =>
    cases hs
    exact h.free page
  | launch l =>
    obtain ⟨z, -, -, h'⟩ := h.launch ha hroom hs
    exact h'

/-- Only the initial thread is there. -/
def SwitchSys.boot (s : State) : SwitchSys := ⟨s, fun _ => none⟩

theorem SwitchOk.reach {s : State} (hlayout : off + FRAME_SIZE ≤ PGSIZE - 8) (hroom : 24 ≤ room) (hs : ValidFlags s.rflags)
    (h : Reach (SwitchSys.step off) (SwitchSys.Proper off room) (.boot s) t) : SwitchOk off t :=
  h.invariant ⟨rfl, hs, fun _ _ hz => by cases hz⟩ fun _ _ _ hi ha hst => hi.step hlayout hroom ha hst

/-- A step that neither launches a thread nor gives its page back. -/
def SwitchAction.Leaves (p : Nat) : SwitchAction → Prop
  | .run _ => True
  | .create _ _ _ _ => True
  | .free page => page ≠ p
  | .launch l => l.page ≠ p

/-- A step that the rest of the kernel makes while the thread sleeps. -/
def SwitchSys.Around (off room p : Nat) (t : SwitchSys) (a : SwitchAction) : Prop := t.Proper off room a ∧ a.Leaves p

/-- While others run, it stays known how a thread goes on. -/
theorem suspended_around {a : SwitchAction} (h : SwitchOk off t) (ha : t.Around off room p a)
    (hs : t.step off a = .ok t') (hz : t.suspended p = some z) : t'.suspended p = some z := by
  obtain ⟨hproper, hleaves⟩ := ha
  cases a with
  | run s =>
    cases hs
    exact hz
  | create page kernelThread function aux =>
    cases hs
    refine (update_of_ne ?_ _ _).trans hz
    rintro rfl
    rw [hproper.2.2.2] at hz
    cases hz
  | free page =>
    cases hs
    exact (update_of_ne (Ne.symm hleaves) _ _).trans hz
  | launch l =>
    cases hs
    refine (update_of_ne (Ne.symm hleaves) _ _).trans ((update_of_ne ?_ _ _).trans hz)
    rintro rfl
    rw [h.running] at hz
    cases hz

/-- A thread that was left as `z` goes on so when it is launched. -/
theorem resumed_of_around {l : Launch} (hlayout : off + FRAME_SIZE ≤ PGSIZE - 8) (hroom : 24 ≤ room)
    {t₁ t₂ t₃ : SwitchSys} (h : SwitchOk off t₁) (hz : t₁.suspended l.page = some z)
    (hrun : Reach (SwitchSys.step off) (SwitchSys.Around off room l.page) t₁ t₂) (hl : t₂.Launches off room l)
    (hs : t₂.step off (.launch l) = .ok t₃) : Resumed l.page z t₃.state := by
  have hkeeps : SwitchOk off t₂ ∧ t₂.suspended l.page = some z := by
    refine hrun.invariant (I := fun t => SwitchOk off t ∧ t.suspended l.page = some z) ⟨h, hz⟩ fun t a t' hi ha hst => ?_
    exact ⟨hi.1.step hlayout hroom ha.1 hst, suspended_around hi.1 ha hst hi.2⟩
  obtain ⟨z', hz', hresumed, -⟩ := hkeeps.1.launch hl hroom hs
  rw [hkeeps.2, Option.some.injEq] at hz'
  rw [hz']
  exact hresumed

/-- A thread goes on behind its `thread_launch`: all its registers but `fs` and `gs` are as they were, the flags but
for those of the last addition, and so is its stack. -/
structure Continues (page : Nat) (outIret : BitVec 64) (s s' : State) : Prop where
  reg : s'.reg = s.reg
  seg : ∀ g, g ≠ .fs → g ≠ .gs → s'.seg g = s.seg g
  rip : s'.rip = outIret
  rflags : ∀ n, arithFlags.getLsbD n = false → s'.rflags.getLsbD n = s.rflags.getLsbD n
  stack : ∀ x, (s.reg .rsp).toNat ≤ x → x < page + PGSIZE → s'.mem x = s.mem x

/--
**A thread that gives up the processor goes on as it was left**, whatever other threads run, start, switch and end
until it is launched again: `thread_launch` and `do_iret` are correct for any operands, any layout and any prologue
that keep within `room` bytes of its stack.
-/
theorem context_switch_transparent {s₀ : State} {l₀ l : Launch} {t₀ t₁ t₂ t₃ : SwitchSys}
    (hlayout : off + FRAME_SIZE ≤ PGSIZE - 8) (hroom : 24 ≤ room) (hflags : ValidFlags s₀.rflags)
    (h : Reach (SwitchSys.step off) (SwitchSys.Proper off room) (.boot s₀) t₀)
    (hl₀ : t₀.Launches off room l₀) (hs₀ : t₀.step off (.launch l₀) = .ok t₁)
    (hrun : Reach (SwitchSys.step off) (SwitchSys.Around off room (runningThread t₀.state)) t₁ t₂)
    (hl : t₂.Launches off room l) (hpage : l.page = runningThread t₀.state) (hs : t₂.step off (.launch l) = .ok t₃) :
    Continues (runningThread t₀.state) l₀.outIret t₀.state t₃.state := by
  have hok := SwitchOk.reach hlayout hroom hflags h
  obtain ⟨-, -, -, hok₁⟩ := hok.launch hl₀ hroom hs₀
  have hne : runningThread t₀.state ≠ l₀.page := by
    intro he
    exact hl₀.suspended (he ▸ hok.running)
  have hz : t₁.suspended l.page = some ⟨suspendedCpu t₀.state.toCpu
      (BitVec.ofNat 64 (runningThread t₀.state + off)) l₀.next l₀.outIret, t₀.state.mem⟩ := by
    cases hs₀
    rw [hpage]
    exact (update_of_ne hne _ _).trans (update_self _ _ _)
  rw [← hpage] at hrun ⊢
  obtain ⟨hcpu, hstack⟩ := resumed_of_around hlayout hroom hok₁ hz hrun hl hs
  refine ⟨hcpu.reg, hcpu.seg, hcpu.rip, fun n hn => ?_, hstack⟩
  have hvalid := validFlags_launch hok.flags (BitVec.ofNat 64 (runningThread t₀.state + off)) l₀.next l₀.outIret
  rw [hcpu.rflags]
  show ((launchFlags _ _ _ _ &&& 0xfcffff) &&& 0x3d7fd5 ||| 2).getLsbD n = _
  rw [hvalid.pushed, hvalid.popped, launchFlags_other hn]

/-- A launch with the operands in `rdi` and `rsi`, and without a prologue of `do_iret`. -/
def launchBy (t : SwitchSys) (page : Nat) : Launch where
  page := page
  next := 0x2000
  outIret := 0x2040
  tfCur := .reg .rdi
  tf := .reg .rsi
  tf' := .reg .rdi
  entered := X86.run (threadLaunch 0x2000 0x2040 (.reg .rdi) (.reg .rsi)) t.state

theorem launches_by (hz : t.suspended p ≠ none)
    (hstack : runningThread t.state + off + FRAME_SIZE + room ≤ (t.state.reg .rsp).toNat)
    (hrdi : t.state.reg .rdi = BitVec.ofNat 64 (runningThread t.state + off))
    (hrsi : t.state.reg .rsi = BitVec.ofNat 64 (p + off)) : t.Launches off room (launchBy t p) where
  suspended := hz
  stack := hstack
  tfCur := by simp [launchBy, Operand.Stable]
  tfCur_eq := hrdi
  tf := by simp [launchBy, Operand.Stable]
  tf_eq := hrsi
  entered _ _ := rfl
  tf'_eq := rfl

/-- A thread in the page `0x100000` that is about to launch that in `0x101000`. -/
def launching : State where
  reg
    | .rsp => 0x100fa0
    | .rdi => 0x100400
    | .rsi => 0x101400
    | .rbx => 7
    | _ => 0
  seg _ := SEL_KDSEG
  rip := 0
  rflags := 0x2
  mem _ := 0

/-- A new thread launches the first one again. -/
theorem context_switch_transparent_two : ∃ s, s.reg .rbx = 7 ∧ Continues 0x100000 0x2040
    { launching with mem := threadCreate (fun _ => 0) 0x400 0x101000 0x3000 0x101400 0x100400 } s := by
  let t₀ : SwitchSys := ⟨{ launching with mem := threadCreate (fun _ => 0) 0x400 0x101000 0x3000 0x101400 0x100400 },
    update (fun _ => none) 0x101000 (some ⟨newCpu 0x101000 0x3000 0x101400 0x100400,
      threadCreate (fun _ => 0) 0x400 0x101000 0x3000 0x101400 0x100400⟩)⟩
  have hrunning : runningThread t₀.state = 0x100000 := by decide
  have hreach : Reach (SwitchSys.step 0x400) (SwitchSys.Proper 0x400 24) (.boot launching) t₀ := by
    refine .tail (a := .create 0x101000 0x3000 0x101400 0x100400) .refl ⟨by decide, by decide, by decide, rfl⟩ rfl
  have hflags : ValidFlags launching.rflags := by
    unfold ValidFlags
    decide
  have hok : SwitchOk 0x400 t₀ := SwitchOk.reach (by decide) (by decide) hflags hreach
  have hl₀ : t₀.Launches 0x400 24 (launchBy t₀ 0x101000) := by
    refine launches_by ?_ ?_ ?_ ?_
    · intro h
      cases h
    · rw [hrunning]
      decide
    · rw [hrunning]
      decide
    · decide
  obtain ⟨t₁, hs₀⟩ : ∃ t₁, t₀.step 0x400 (.launch (launchBy t₀ 0x101000)) = .ok t₁ := ⟨_, rfl⟩
  obtain ⟨z, hz, hres, hok₁⟩ := hok.launch hl₀ (by decide) hs₀
  have hnew : t₀.suspended 0x101000 = some ⟨newCpu 0x101000 0x3000 0x101400 0x100400,
      threadCreate (fun _ => 0) 0x400 0x101000 0x3000 0x101400 0x100400⟩ := by
    simp only [t₀, update_self]
  obtain rfl := Option.some.inj (hz.symm.trans hnew)
  have hreg := hres.cpu.reg
  have hrunning₁ : runningThread t₁.state = 0x101000 :=
    runningThread_eq (by decide) (by rw [hreg]; decide) (by rw [hreg]; decide)
  have hl : t₁.Launches 0x400 24 (launchBy t₁ 0x100000) := by
    refine launches_by ?_ ?_ ?_ ?_
    · cases hs₀
      show update (update t₀.suspended (runningThread t₀.state) _) 0x101000 none 0x100000 ≠ none
      rw [hrunning, update_of_ne (by decide), update_self]
      exact Option.some_ne_none _
    · rw [hrunning₁, hreg]
      decide
    · rw [hrunning₁, hreg]
      decide
    · rw [hreg]
      decide
  obtain ⟨t₂, hs⟩ : ∃ t₂, t₁.step 0x400 (.launch (launchBy t₁ 0x100000)) = .ok t₂ := ⟨_, rfl⟩
  have hcont := context_switch_transparent (by decide) (by decide) hflags hreach hl₀ hs₀ .refl hl hrunning.symm hs
  rw [hrunning] at hcont
  refine ⟨t₂.state, ?_, hcont⟩
  rw [hcont.reg]
  rfl

/-- **A new thread starts in `kernel_thread`** with its function and its argument, on an empty stack, with interrupts
on. -/
theorem new_thread_starts {s₀ : State} {l : Launch} {t₀ t₁ t₂ t₃ : SwitchSys} {kernelThread function aux : BitVec 64}
    (hlayout : off + FRAME_SIZE ≤ PGSIZE - 8) (hroom : 24 ≤ room) (hflags : ValidFlags s₀.rflags)
    (h : Reach (SwitchSys.step off) (SwitchSys.Proper off room) (.boot s₀) t₀)
    (hc : t₀.Proper off room (.create l.page kernelThread function aux))
    (hs₀ : t₀.step off (.create l.page kernelThread function aux) = .ok t₁)
    (hrun : Reach (SwitchSys.step off) (SwitchSys.Around off room l.page) t₁ t₂)
    (hl : t₂.Launches off room l) (hs : t₂.step off (.launch l) = .ok t₃) :
    SameCpu t₃.state (newCpu l.page kernelThread function aux) := by
  have hok := SwitchOk.reach hlayout hroom hflags h
  have hok₁ := hok.step hlayout hroom hc hs₀
  have hz : t₁.suspended l.page = some ⟨newCpu l.page kernelThread function aux,
      threadCreate t₀.state.mem off l.page kernelThread function aux⟩ := by
    cases hs₀
    exact update_self _ _ _
  exact (resumed_of_around hlayout hroom hok₁ hz hrun hl hs).cpu


end Pintos
