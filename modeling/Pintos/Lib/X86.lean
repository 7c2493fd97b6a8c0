import Pintos.Lib.ByteMemory

/-!
# A part of the x86-64 instruction set

The instructions that save and restore the registers of a processor in 64-bit mode, at privilege level 0.
Nothing here is about one program. Code is a list of instructions: the addresses that calls push are operands.
Addresses do not wrap around, and every address is mapped.

* `exec`, `run` — one instruction, and some
* `run_stores`, `run_loads` — many registers go to memory, and come back
* `run_pushes` — the words on a stack
* `ValidFlags` — what can stand in `rflags` between two instructions
-/

namespace X86

open ByteMemory LittleEndian Function

inductive Reg where
  | rax | rbx | rcx | rdx | rbp | rsp | rsi | rdi | r8 | r9 | r10 | r11 | r12 | r13 | r14 | r15
  deriving DecidableEq

inductive Seg where
  | cs | ds | es | fs | gs | ss
  deriving DecidableEq

structure Cpu where
  reg : Reg → BitVec 64
  seg : Seg → BitVec 16
  rip : BitVec 64
  rflags : BitVec 64

structure State extends Cpu where
  mem : Memory

def load64 (m : Memory) (a : Nat) : BitVec 64 := BitVec.ofNat 64 (loadLe m a 8)

def load16 (m : Memory) (a : Nat) : BitVec 16 := BitVec.ofNat 16 (loadLe m a 2)

def store64 (m : Memory) (a : Nat) (v : BitVec 64) : Memory := putBytes m a (leBytes 8 v.toNat)

def store16 (m : Memory) (a : Nat) (v : BitVec 16) : Memory := putBytes m a (leBytes 2 v.toNat)

/-- A source operand. -/
inductive Operand where
  | reg (r : Reg)
  | imm (v : BitVec 64)
  /-- `off(%base)` -/
  | mem (off : BitVec 64) (base : Reg)
  /-- A variable, by its address. -/
  | var (a : Nat)
  deriving DecidableEq

inductive Instr where
  | mov (src : Operand) (dst : Reg)
  /-- `movq %src, off(%base)` -/
  | store (src : Reg) (off : BitVec 64) (base : Reg)
  /-- `movq %src, var` -/
  | storeVar (src : Reg) (a : Nat)
  /-- `movw off(%base), %dst` -/
  | loadSeg (off : BitVec 64) (base : Reg) (dst : Seg)
  /-- `movw %src, off(%base)` -/
  | storeSeg (src : Seg) (off : BitVec 64) (base : Reg)
  /-- `movw %src, %dst`, from the low word of a register. -/
  | movSeg (src : Reg) (dst : Seg)
  | push (src : Operand)
  | pop (dst : Reg)
  | pushfq
  | add (v : BitVec 64) (dst : Reg)
  | sub (v : BitVec 64) (dst : Reg)
  /-- `btsq $bit, %dst` -/
  | bts (bit : Nat) (dst : Reg)
  /-- `jnb` over one instruction. -/
  | unlessNb (i : Instr)
  | cld
  | sti
  /-- `call`, with the address of the next instruction. What is called is the code that follows. -/
  | call (next : BitVec 64)
  | iretq
  /-- `sysretq`, with what is in the upper part of the `STAR` register. -/
  | sysretq (star : BitVec 16)

/-! ## Flags -/

/-- `CF`, `PF`, `AF`, `ZF`, `SF` and `OF`. -/
def arithFlags : BitVec 64 := 0x8d5

/-- The flags that stand between two instructions: all but that for resuming, that of the virtual mode and the
fixed ones. -/
def allFlags : BitVec 64 := 0x3c7fd5

def FLAG_CF : BitVec 64 := 0x1
def FLAG_IF : BitVec 64 := 0x200
def FLAG_DF : BitVec 64 := 0x400

/-- What `rflags` is between two instructions. -/
def ValidFlags (v : BitVec 64) : Prop := v &&& allFlags ||| 2 = v

def flagBit (b : Bool) (n : Nat) : BitVec 64 := if b then 1 <<< n else 0

def parity (v : BitVec 64) : Bool := ((List.range 8).countP fun n => v.getLsbD n) % 2 = 0

/-- The arithmetic flags where `x` and `y` gave `r`, with these carry and overflow flags. -/
def setArith (v x y r : BitVec 64) (carry overflow : Bool) : BitVec 64 :=
  v &&& ~~~arithFlags ||| (flagBit carry 0 ||| flagBit (parity r) 2 ||| flagBit ((x ^^^ y ^^^ r).getLsbD 4) 4 |||
    flagBit (r = 0) 6 ||| flagBit r.msb 7 ||| flagBit overflow 11) &&& arithFlags

/-- The flags after `x + y`. -/
def addFlags (v x y : BitVec 64) : BitVec 64 :=
  let r := x + y
  setArith v x y r (r < x) (x.msb = y.msb && r.msb != x.msb)

/-- The flags after `x - y`. -/
def subFlags (v x y : BitVec 64) : BitVec 64 :=
  let r := x - y
  setArith v x y r (x < y) (x.msb != y.msb && r.msb != x.msb)

/-! ## Instructions -/

namespace State

def setReg (s : State) (r : Reg) (v : BitVec 64) : State := { s with reg := update s.reg r v }

def setSeg (s : State) (g : Seg) (v : BitVec 16) : State := { s with seg := update s.seg g v }

/-- The address `off(%base)`. -/
def addr (s : State) (off : BitVec 64) (base : Reg) : Nat := (s.reg base + off).toNat

def value (s : State) : Operand → BitVec 64
  | .reg r => s.reg r
  | .imm v => v
  | .mem off base => load64 s.mem (s.addr off base)
  | .var a => load64 s.mem a

def pushWord (s : State) (v : BitVec 64) : State :=
  let rsp := s.reg .rsp - 8
  { s.setReg .rsp rsp with mem := store64 s.mem rsp.toNat v }

@[simp] theorem setReg_self (s : State) (r : Reg) (v : BitVec 64) : (s.setReg r v).reg r = v := by
  simp only [setReg, update_self]

theorem setReg_of_ne {s : State} {r r' : Reg} {v : BitVec 64} (h : r' ≠ r) : (s.setReg r v).reg r' = s.reg r' := by
  simp only [setReg, update_of_ne h]

end State

def exec : Instr → State → State
  | .mov src dst, s => s.setReg dst (s.value src)
  | .store src off base, s => { s with mem := store64 s.mem (s.addr off base) (s.reg src) }
  | .storeVar src a, s => { s with mem := store64 s.mem a (s.reg src) }
  | .loadSeg off base dst, s => s.setSeg dst (load16 s.mem (s.addr off base))
  | .storeSeg src off base, s => { s with mem := store16 s.mem (s.addr off base) (s.seg src) }
  | .movSeg src dst, s => s.setSeg dst ((s.reg src).setWidth 16)
  | .push src, s => s.pushWord (s.value src)
  | .pop dst, s => (s.setReg .rsp (s.reg .rsp + 8)).setReg dst (load64 s.mem (s.reg .rsp).toNat)
  | .pushfq, s => s.pushWord (s.rflags &&& 0xfcffff)
  | .add v dst, s => { s.setReg dst (s.reg dst + v) with rflags := addFlags s.rflags (s.reg dst) v }
  | .sub v dst, s => { s.setReg dst (s.reg dst - v) with rflags := subFlags s.rflags (s.reg dst) v }
  | .bts n dst, s =>
    let x := s.reg dst
    { s.setReg dst (x ||| 1 <<< n) with rflags := s.rflags &&& ~~~FLAG_CF ||| flagBit (x.getLsbD n) 0 }
  | .unlessNb i, s => if s.rflags &&& FLAG_CF = 0 then s else exec i s
  | .cld, s => { s with rflags := s.rflags &&& ~~~FLAG_DF }
  | .sti, s => { s with rflags := s.rflags ||| FLAG_IF }
  | .call next, s => s.pushWord next
  | .iretq, s =>
    let a := (s.reg .rsp).toNat
    { s with
      reg := update s.reg .rsp (load64 s.mem (a + 24))
      seg := update (update s.seg .cs (load16 s.mem (a + 8))) .ss (load16 s.mem (a + 32))
      rip := load64 s.mem a
      rflags := load64 s.mem (a + 16) &&& 0x3d7fd5 ||| 2 }
  | .sysretq star, s =>
    { s with
      seg := update (update s.seg .cs ((star + 16) ||| 3)) .ss ((star + 8) ||| 3)
      rip := s.reg .rcx
      rflags := s.reg .r11 &&& 0x3c7fd7 ||| 2 }

def run (is : List Instr) (s : State) : State := is.foldl (fun s i => exec i s) s

/-- `syscall` in code of level 3, with the address behind it and the model-specific registers. -/
def syscall (next : BitVec 64) (star : BitVec 16) (lstar fmask : BitVec 64) (s : State) : State :=
  { s with
    reg := update (update s.reg .rcx next) .r11 s.rflags
    seg := update (update s.seg .cs (star &&& 0xfffc)) .ss (star + 8)
    rip := lstar
    rflags := s.rflags &&& ~~~fmask }

/-- The top of the stack on which the processor takes an interrupt. `rsp0` is that in the task state segment. -/
def interruptTop (rsp0 : BitVec 64) (s : State) : BitVec 64 :=
  (if s.seg .cs &&& 3 ≠ 0 then rsp0 else s.reg .rsp) &&& ~~~0xf

/-- What the processor pushes for an interrupt. -/
def interruptWords (code : Option (BitVec 64)) (s : State) : List (BitVec 64) :=
  [(s.seg .ss).setWidth 64, s.reg .rsp, s.rflags, (s.seg .cs).setWidth 64, s.rip] ++ code.toList

/-- The processor takes an interrupt: `code` is the error code where there is one, and a trap gate leaves interrupts
on. -/
def interrupt (rsp0 : BitVec 64) (code : Option (BitVec 64)) (cs : BitVec 16) (trap : Bool) (gate : BitVec 64)
    (s : State) : State :=
  (interruptWords code s).foldl State.pushWord
    { s.setReg .rsp (interruptTop rsp0 s) with
      seg := update (if s.seg .cs &&& 3 ≠ 0 then update s.seg .ss 0 else s.seg) .cs cs
      rip := gate
      rflags := s.rflags &&& ~~~(0x14100 ||| if trap then 0 else FLAG_IF) }

/-! ## Memory -/

variable {m : Memory} {a b k : Nat} {v : BitVec 64}

theorem loadLe_congr {m' : Memory} (h : ∀ i, i < k → m' (a + i) = m (a + i)) : loadLe m' a k = loadLe m a k := by
  unfold loadLe
  congr 1
  refine List.map_congr_left fun i hi => h i (List.mem_range.mp hi)

theorem loadLe_zero (h : ∀ i, i < k → m (a + i) = 0) : loadLe m a k = 0 := by
  have hbytes : (List.range k).map (fun i => m (a + i)) = List.replicate k 0 := by
    rw [List.eq_replicate_iff, List.length_map, List.length_range]
    refine ⟨rfl, fun b hb => ?_⟩
    obtain ⟨i, hi, rfl⟩ := List.mem_map.mp hb
    exact h i (List.mem_range.mp hi)
  rw [loadLe, hbytes]
  clear h hbytes
  induction k with
  | zero => rfl
  | succ k ih => rw [List.replicate_succ, ofLe, ih]; rfl

/-- A store elsewhere. -/
theorem loadLe_putBytes {xs : List Byte} (h : a + k ≤ b ∨ b + xs.length ≤ a) :
    loadLe (putBytes m b xs) a k = loadLe m a k := by
  refine loadLe_congr fun i hi => ?_
  rw [putBytes, if_neg (by omega)]

@[simp] theorem load64_store64 (m : Memory) (a : Nat) (v : BitVec 64) : load64 (store64 m a v) a = v := by
  have hlt : v.toNat < 256 ^ 8 := v.isLt
  rw [load64, store64, holds_of_loadLe (holds_putBytes m a _), Nat.mod_eq_of_lt hlt, BitVec.ofNat_toNat,
    BitVec.setWidth_eq]

@[simp] theorem load16_store16 (m : Memory) (a : Nat) (v : BitVec 16) : load16 (store16 m a v) a = v := by
  have hlt : v.toNat < 256 ^ 2 := v.isLt
  rw [load16, store16, holds_of_loadLe (holds_putBytes m a _), Nat.mod_eq_of_lt hlt, BitVec.ofNat_toNat,
    BitVec.setWidth_eq]

theorem load64_store64_of_ne (h : a + 8 ≤ b ∨ b + 8 ≤ a) : load64 (store64 m b v) a = load64 m a := by
  rw [load64, store64, loadLe_putBytes (by rw [length_leBytes]; exact h)]
  rfl

theorem load64_store16_of_ne {w : BitVec 16} (h : a + 8 ≤ b ∨ b + 2 ≤ a) :
    load64 (store16 m b w) a = load64 m a := by
  rw [load64, store16, loadLe_putBytes (by rw [length_leBytes]; exact h)]
  rfl

theorem load16_store64_of_ne (h : a + 2 ≤ b ∨ b + 8 ≤ a) : load16 (store64 m b v) a = load16 m a := by
  rw [load16, store64, loadLe_putBytes (by rw [length_leBytes]; exact h)]
  rfl

theorem load16_store16_of_ne {w : BitVec 16} (h : a + 2 ≤ b ∨ b + 2 ≤ a) :
    load16 (store16 m b w) a = load16 m a := by
  rw [load16, store16, loadLe_putBytes (by rw [length_leBytes]; exact h)]
  rfl

theorem store64_of_ne {x : Nat} (h : x < a ∨ a + 8 ≤ x) : store64 m a v x = m x := by
  rw [store64, putBytes, if_neg (by rw [length_leBytes]; omega)]

theorem store16_of_ne {x : Nat} {w : BitVec 16} (h : x < a ∨ a + 2 ≤ x) : store16 m a w x = m x := by
  rw [store16, putBytes, if_neg (by rw [length_leBytes]; omega)]

/-- The low word of a double word. -/
theorem load16_eq (m : Memory) (a : Nat) : load16 m a = (load64 m a).setWidth 16 := by
  have h₀ := (m a).isLt
  have h₁ := (m (a + 1)).isLt
  apply BitVec.eq_of_toNat_eq
  simp only [load16, load64, loadLe, List.range, List.range.loop, List.map, ofLe, BitVec.toNat_setWidth,
    BitVec.toNat_ofNat, Nat.add_zero]
  omega

theorem load64_congr {m' : Memory} (h : ∀ i, i < 8 → m' (a + i) = m (a + i)) : load64 m' a = load64 m a := by
  rw [load64, loadLe_congr h, load64]

theorem load16_congr {m' : Memory} (h : ∀ i, i < 2 → m' (a + i) = m (a + i)) : load16 m' a = load16 m a := by
  rw [load16, loadLe_congr h, load16]

/-! ## Flags that stay -/

variable {x y r : BitVec 64} {c o : Bool}

/-- The arithmetic flags are among those that can be set. -/
theorem ValidFlags.setArith (h : ValidFlags v) : ValidFlags (setArith v x y r c o) := by
  unfold X86.setArith
  generalize flagBit c 0 ||| flagBit (parity r) 2 ||| flagBit ((x ^^^ y ^^^ r).getLsbD 4) 4 |||
    flagBit (r = 0) 6 ||| flagBit r.msb 7 ||| flagBit o 11 = g
  have hv : v &&& allFlags ||| 2 = v := h
  have harith : arithFlags &&& allFlags = arithFlags := by decide
  have hfixed : (2 : BitVec 64) &&& ~~~arithFlags = 2 := by decide
  have hkept : v &&& ~~~arithFlags = v &&& ~~~arithFlags &&& allFlags ||| 2 := by
    conv_lhs => rw [← hv]
    rw [BitVec.and_or_distrib_right, hfixed, BitVec.and_assoc, BitVec.and_comm allFlags, ← BitVec.and_assoc]
  unfold ValidFlags
  rw [BitVec.and_or_distrib_right, BitVec.and_assoc g, harith, BitVec.or_assoc, BitVec.or_comm _ 2,
    ← BitVec.or_assoc, ← hkept]

theorem ValidFlags.pushed (h : ValidFlags v) : v &&& 0xfcffff = v := by
  have hv : v &&& allFlags ||| 2 = v := h
  have hall : allFlags &&& 0xfcffff = allFlags := by decide
  have htwo : (2 : BitVec 64) &&& 0xfcffff = 2 := by decide
  conv_lhs => rw [← hv]
  rw [BitVec.and_or_distrib_right, BitVec.and_assoc, hall, htwo, hv]

/-- What `iretq` takes from the stack. -/
theorem ValidFlags.popped (h : ValidFlags v) : v &&& 0x3d7fd5 ||| 2 = v := by
  have hv : v &&& allFlags ||| 2 = v := h
  have hall : allFlags &&& 0x3d7fd5 = allFlags := by decide
  have htwo : (2 : BitVec 64) &&& 0x3d7fd5 = 0#64 := by decide
  conv_lhs => rw [← hv]
  rw [BitVec.and_or_distrib_right, BitVec.and_assoc, hall, htwo, BitVec.or_zero, hv]

/-- What `sysretq` takes from `r11`. -/
theorem ValidFlags.returned (h : ValidFlags v) : v &&& 0x3c7fd7 ||| 2 = v := by
  have hv : v &&& allFlags ||| 2 = v := h
  have hall : allFlags &&& 0x3c7fd7 = allFlags := by decide
  have htwo : (2 : BitVec 64) &&& 0x3c7fd7 = 2 := by decide
  conv_lhs => rw [← hv]
  rw [BitVec.and_or_distrib_right, BitVec.and_assoc, hall, htwo, BitVec.or_assoc, BitVec.or_self, hv]

/-- The other flags are left alone. -/
theorem setArith_other {n : Nat} (hn : arithFlags.getLsbD n = false) :
    (setArith v x y r c o).getLsbD n = v.getLsbD n := by
  unfold setArith
  rw [BitVec.getLsbD_or, BitVec.getLsbD_and, BitVec.getLsbD_and, hn, Bool.and_false, Bool.or_false,
    BitVec.getLsbD_not, hn]
  by_cases hlt : n < 64
  · simp [hlt]
  · rw [BitVec.getLsbD_of_ge _ _ (by omega), Bool.false_and]

theorem ValidFlags.add (h : ValidFlags v) (x y : BitVec 64) : ValidFlags (addFlags v x y) := h.setArith

theorem addFlags_other {n : Nat} (hn : arithFlags.getLsbD n = false) (x y : BitVec 64) :
    (addFlags v x y).getLsbD n = v.getLsbD n := setArith_other hn

/-! ## Code -/

section Code

variable {s s' s'' : State} {base : Reg}

@[simp] theorem run_nil (s : State) : run [] s = s := rfl

@[simp] theorem run_cons (i : Instr) (is : List Instr) (s : State) : run (i :: is) s = run is (exec i s) := rfl

theorem run_append (is js : List Instr) (s : State) : run (is ++ js) s = run js (run is s) := List.foldl_append

theorem addr_eq {n : Nat} (h : (s.reg base).toNat + n < 2 ^ 64) :
    s.addr (BitVec.ofNat 64 n) base = (s.reg base).toNat + n := by
  rw [State.addr, BitVec.toNat_add, BitVec.toNat_ofNat, Nat.add_mod_mod, Nat.mod_eq_of_lt h]

/-- The words go to their offsets from `b`. -/
def storeAll (m : Memory) (b : Nat) (ws : List (Nat × BitVec 64)) : Memory :=
  ws.foldl (fun m w => store64 m (b + w.1) w.2) m

theorem storeAll_of_ne {ws : List (Nat × BitVec 64)} {x : Nat} (h : ∀ w ∈ ws, x < b + w.1 ∨ b + w.1 + 8 ≤ x) :
    storeAll m b ws x = m x := by
  induction ws generalizing m with
  | nil => rfl
  | cons w ws ih =>
    have hrest := ih (m := store64 m (b + w.1) w.2) fun w' hw' => h w' (List.mem_cons_of_mem _ hw')
    exact hrest.trans (store64_of_ne (h w List.mem_cons_self))

theorem load64_storeAll_of_ne {ws : List (Nat × BitVec 64)} (h : ∀ w ∈ ws, a + 8 ≤ b + w.1 ∨ b + w.1 + 8 ≤ a) :
    load64 (storeAll m b ws) a = load64 m a :=
  load64_congr fun i hi => storeAll_of_ne fun w hw => by
    have := h w hw
    omega

theorem load16_storeAll_of_ne {ws : List (Nat × BitVec 64)} (h : ∀ w ∈ ws, a + 2 ≤ b + w.1 ∨ b + w.1 + 8 ≤ a) :
    load16 (storeAll m b ws) a = load16 m a :=
  load16_congr fun i hi => storeAll_of_ne fun w hw => by
    have := h w hw
    omega

/-- Each word is there, when they do not overlap. -/
theorem load64_storeAll {ws : List (Nat × BitVec 64)} (hapart : ws.Pairwise fun w w' => w.1 + 8 ≤ w'.1 ∨ w'.1 + 8 ≤ w.1)
    {w : Nat × BitVec 64} (hw : w ∈ ws) : load64 (storeAll m b ws) (b + w.1) = w.2 := by
  induction ws generalizing m with
  | nil => cases hw
  | cons w₀ ws ih =>
    obtain ⟨hfirst, hrest⟩ := List.pairwise_cons.mp hapart
    rcases List.mem_cons.mp hw with rfl | hw
    · have hsame : load64 (storeAll (store64 m (b + w.1) w.2) b ws) (b + w.1) =
          load64 (store64 m (b + w.1) w.2) (b + w.1) := by
        refine load64_congr fun i hi => storeAll_of_ne fun w' hw' => ?_
        have := hfirst w' hw'
        omega
      exact hsame.trans (load64_store64 _ _ _)
    · exact ih hrest hw

/-- Registers are stored at offsets from another register. -/
theorem run_stores {l : List (Reg × Nat)} (h : ∀ p ∈ l, (s.reg base).toNat + p.2 < 2 ^ 64) :
    run (l.map fun p => .store p.1 (BitVec.ofNat 64 p.2) base) s =
      { s with mem := storeAll s.mem (s.reg base).toNat (l.map fun p => (p.2, s.reg p.1)) } := by
  induction l generalizing s with
  | nil => rfl
  | cons p l ih =>
    rw [List.map_cons, run_cons, exec, addr_eq (h p List.mem_cons_self)]
    exact ih fun p' hp' => h p' (List.mem_cons_of_mem _ hp')

theorem storeAll_append (ws ws' : List (Nat × BitVec 64)) :
    storeAll m b (ws ++ ws') = storeAll (storeAll m b ws) b ws' :=
  List.foldl_append

/-- What the code leaves alone, but for the registers in `rs`. -/
structure Only (rs : List Reg) (s s' : State) : Prop where
  reg : ∀ r, r ∉ rs → s'.reg r = s.reg r
  seg : s'.seg = s.seg
  rip : s'.rip = s.rip
  rflags : s'.rflags = s.rflags
  mem : s'.mem = s.mem

theorem Only.refl (rs : List Reg) (s : State) : Only rs s s := ⟨fun _ _ => rfl, rfl, rfl, rfl, rfl⟩

/-- Registers are loaded from offsets from another register. -/
theorem run_loads {l : List (Reg × Nat)} (hnodup : (l.map Prod.fst).Nodup) (hbase : base ∉ l.map Prod.fst)
    (h : ∀ p ∈ l, (s.reg base).toNat + p.2 < 2 ^ 64)
    (hrun : run (l.map fun p => .mov (.mem (BitVec.ofNat 64 p.2) base) p.1) s = s') :
    Only (l.map Prod.fst) s s' ∧ ∀ p ∈ l, s'.reg p.1 = load64 s.mem ((s.reg base).toNat + p.2) := by
  induction l generalizing s with
  | nil =>
    subst hrun
    exact ⟨.refl _ s, fun p hp => by cases hp⟩
  | cons p l ih =>
    rw [List.map_cons, List.mem_cons, not_or] at hbase
    rw [List.map_cons, List.nodup_cons] at hnodup
    have hb : (exec (.mov (.mem (BitVec.ofNat 64 p.2) base) p.1) s).reg base = s.reg base :=
      State.setReg_of_ne hbase.1
    have hp : (exec (.mov (.mem (BitVec.ofNat 64 p.2) base) p.1) s).reg p.1 =
        load64 s.mem ((s.reg base).toNat + p.2) := by
      rw [← addr_eq (h p List.mem_cons_self)]
      exact s.setReg_self p.1 _
    obtain ⟨honly, hloads⟩ := ih hnodup.2 hbase.2
      (fun p' hp' => by rw [hb]; exact h p' (List.mem_cons_of_mem _ hp')) hrun
    refine ⟨⟨fun r hr => ?_, honly.seg, honly.rip, honly.rflags, honly.mem⟩, fun p' hp' => ?_⟩
    · rw [List.map_cons, List.mem_cons, not_or] at hr
      exact (honly.reg r hr.2).trans (State.setReg_of_ne hr.1)
    · rcases List.mem_cons.mp hp' with rfl | hp'
      · rw [honly.reg _ hnodup.1, hp]
      · rw [hloads p' hp', hb]
        rfl

/-- A word among the bytes of some. -/
theorem load64_of_holds {ws : List (BitVec 64)} (h : Holds m a (toBytes ws)) {i : Nat} (hi : i < ws.length) :
    load64 m (a + 8 * i) = ws[i] := by
  have hbytes : toBytes ws = (ws.map BitVec.toNat).flatMap (leBytes 8) := by
    rw [toBytes, List.flatMap_map]
  have hlt : ∀ w ∈ ws.map BitVec.toNat, w < 256 ^ 8 := by
    intro w hw
    obtain ⟨v, -, rfl⟩ := List.mem_map.mp hw
    exact v.isLt
  rw [hbytes] at h
  rw [load64, h.word hlt (by rwa [List.length_map]), List.getElem_map, BitVec.ofNat_toNat, BitVec.setWidth_eq]

theorem toBytes_append (ws ws' : List (BitVec 64)) : toBytes (ws ++ ws') = toBytes ws ++ toBytes ws' :=
  List.flatMap_append

/-- The stack pointer goes down, and nothing is written. -/
theorem pushes_skip (m : Memory) {rsp n : Nat} (hle : n ≤ rsp) :
    Pushes m rsp ((List.range n).map fun k => m (rsp - n + k)) m (rsp - n) := by
  refine ⟨by rw [List.length_map, List.length_range]; omega, fun k hk => ?_, fun _ _ => rfl⟩
  rw [List.getElem_map, List.getElem_range]

/-- The words are pushed, and nothing else has changed. -/
structure Pushed (s : State) (ws : List (BitVec 64)) (s' : State) : Prop where
  stack : Pushes s.mem (s.reg .rsp).toNat (toBytes ws.reverse) s'.mem (s'.reg .rsp).toNat
  reg : ∀ r, r ≠ .rsp → s'.reg r = s.reg r
  seg : s'.seg = s.seg
  rip : s'.rip = s.rip
  rflags : s'.rflags = s.rflags

theorem Pushed.nil (s : State) : Pushed s [] s := ⟨.refl _ _, fun _ _ => rfl, rfl, rfl, rfl⟩

theorem pushed_pushWord (hroom : 8 ≤ (s.reg .rsp).toNat) (v : BitVec 64) : Pushed s [v] (s.pushWord v) := by
  have hrsp : (s.reg .rsp - 8).toNat = (s.reg .rsp).toNat - 8 := by bv_omega
  have hreg : (s.pushWord v).reg .rsp = s.reg .rsp - 8 := s.setReg_self .rsp _
  have hbytes : toBytes [v].reverse = leBytes 8 v.toNat := List.append_nil _
  have hlen : (leBytes 8 v.toNat).length = 8 := length_leBytes 8 _
  have hstack := pushes_putBytes s.mem (Nat.le_trans (Nat.le_of_eq hlen) hroom)
  rw [hlen, ← hrsp] at hstack
  refine ⟨?_, fun r hr => State.setReg_of_ne hr, rfl, rfl, rfl⟩
  rw [hbytes, hreg]
  exact hstack

theorem Pushed.trans {ws ws' : List (BitVec 64)} (h : Pushed s ws s') (h' : Pushed s' ws' s'') :
    Pushed s (ws ++ ws') s'' := by
  refine ⟨?_, fun r hne => (h'.reg r hne).trans (h.reg r hne), h'.seg.trans h.seg, h'.rip.trans h.rip,
    h'.rflags.trans h.rflags⟩
  rw [List.reverse_append, toBytes_append]
  exact h.stack.trans h'.stack

theorem Pushed.rsp {ws : List (BitVec 64)} (h : Pushed s ws s') :
    (s'.reg .rsp).toNat + 8 * ws.length = (s.reg .rsp).toNat := by
  have htotal := h.stack.total
  rwa [length_toBytes, List.length_reverse] at htotal

theorem Pushed.other {ws : List (BitVec 64)} (h : Pushed s ws s') (x : Nat)
    (hx : x < (s'.reg .rsp).toNat ∨ (s.reg .rsp).toNat ≤ x) : s'.mem x = s.mem x := h.stack.others x hx

theorem Pushed.word {ws : List (BitVec 64)} (h : Pushed s ws s') (i : Nat) (hi : i < ws.length) :
    load64 s'.mem ((s.reg .rsp).toNat - 8 * (i + 1)) = ws[i] := by
  have hrsp := h.rsp
  have hword := load64_of_holds h.stack.bytes (i := ws.length - 1 - i) (by rw [List.length_reverse]; omega)
  rw [List.getElem_reverse] at hword
  rw [show (s.reg .rsp).toNat - 8 * (i + 1) = (s'.reg .rsp).toNat + 8 * (ws.length - 1 - i) by omega, hword]
  congr 1
  omega

theorem pushed_foldl (ws : List (BitVec 64)) (hroom : 8 * ws.length ≤ (s.reg .rsp).toNat) :
    Pushed s ws (ws.foldl State.pushWord s) := by
  induction ws generalizing s with
  | nil => exact .nil s
  | cons w ws ih =>
    rw [List.length_cons] at hroom
    have hfirst := pushed_pushWord (s := s) (by omega) w
    have hrsp := hfirst.rsp
    rw [List.length_singleton] at hrsp
    exact hfirst.trans (ih (by omega))

/-- The value that a `push` finds, whatever was pushed before. -/
def Operand.Plain : Operand → Prop
  | .reg r => r ≠ .rsp
  | .imm _ => True
  | _ => False

theorem Operand.Plain.value {src : Operand} (h : src.Plain) (hreg : ∀ r, r ≠ .rsp → s'.reg r = s.reg r) :
    s'.value src = s.value src := by
  cases src with
  | reg r => exact hreg r h
  | imm v => rfl
  | mem off base => exact h.elim
  | var a => exact h.elim

/-- An operand that code finds again after it has used the stack and the registers in `rs`. -/
def Operand.Stable (s : State) (rs : List Reg) : Operand → Prop
  | .reg r => r ∉ rs
  | .imm _ => True
  | .mem off base => base ∉ rs ∧ (s.reg .rsp).toNat ≤ s.addr off base
  | .var a => (s.reg .rsp).toNat ≤ a

theorem Operand.Stable.value {src : Operand} {rs : List Reg} (h : src.Stable s rs)
    (hreg : ∀ r, r ∉ rs → s'.reg r = s.reg r) (hmem : ∀ x, (s.reg .rsp).toNat ≤ x → s'.mem x = s.mem x) :
    s'.value src = s.value src := by
  cases src with
  | reg r => exact hreg r h
  | imm v => rfl
  | mem off base =>
    have haddr : s'.addr off base = s.addr off base := by
      rw [State.addr, hreg base h.1]
      rfl
    rw [State.value, haddr]
    exact load64_congr fun i _ => hmem _ (Nat.le_add_right_of_le h.2)
  | var a => exact load64_congr fun i _ => hmem _ (Nat.le_add_right_of_le h)

theorem run_pushes {l : List Operand} (hplain : ∀ src ∈ l, src.Plain) (hroom : 8 * l.length ≤ (s.reg .rsp).toNat) :
    Pushed s (l.map s.value) (run (l.map .push) s) := by
  induction l generalizing s with
  | nil => exact .nil s
  | cons src l ih =>
    rw [List.length_cons] at hroom
    have hfirst := pushed_pushWord (s := s) (by omega) (s.value src)
    have hrsp := hfirst.rsp
    rw [List.length_singleton] at hrsp
    have hrest := ih (s := s.pushWord (s.value src)) (fun src' hsrc' => hplain src' (List.mem_cons_of_mem _ hsrc'))
      (by omega)
    have hvalues : l.map (s.pushWord (s.value src)).value = l.map s.value :=
      List.map_congr_left fun src' hsrc' => (hplain src' (List.mem_cons_of_mem _ hsrc')).value hfirst.reg
    rw [hvalues] at hrest
    exact hfirst.trans hrest

/-- Registers are popped. -/
theorem run_pops {l : List Reg} (hnodup : l.Nodup) (hrsp : .rsp ∉ l)
    (hroom : (s.reg .rsp).toNat + 8 * l.length < 2 ^ 64) (hrun : run (l.map .pop) s = s') :
    Only (.rsp :: l) s s' ∧ (s'.reg .rsp).toNat = (s.reg .rsp).toNat + 8 * l.length ∧
      ∀ i (h : i < l.length), s'.reg l[i] = load64 s.mem ((s.reg .rsp).toNat + 8 * i) := by
  induction l generalizing s with
  | nil =>
    subst hrun
    exact ⟨.refl _ s, rfl, fun i h => absurd h (Nat.not_lt_zero i)⟩
  | cons r l ih =>
    rw [List.mem_cons, not_or] at hrsp
    rw [List.nodup_cons] at hnodup
    rw [List.length_cons] at hroom
    have hnext : ((exec (.pop r) s).reg .rsp).toNat = (s.reg .rsp).toNat + 8 := by
      have hreg : (exec (.pop r) s).reg .rsp = s.reg .rsp + 8 :=
        (State.setReg_of_ne hrsp.1).trans (s.setReg_self .rsp _)
      rw [hreg]
      bv_omega
    obtain ⟨honly, htop, hpops⟩ := ih (s := exec (.pop r) s) hnodup.2 hrsp.2 (by omega) hrun
    refine ⟨⟨fun r' hr' => ?_, honly.seg, honly.rip, honly.rflags, honly.mem⟩, ?_, fun i hi => ?_⟩
    · simp only [List.mem_cons, not_or] at hr'
      have hmem : r' ∉ Reg.rsp :: l := by simp only [List.mem_cons, not_or]; exact ⟨hr'.1, hr'.2.2⟩
      rw [honly.reg r' hmem]
      exact (State.setReg_of_ne hr'.2.1).trans (State.setReg_of_ne hr'.1)
    · rw [htop, hnext, List.length_cons]
      omega
    · cases i with
      | zero =>
        have hmem : r ∉ Reg.rsp :: l := by
          simp only [List.mem_cons, not_or]
          exact ⟨fun he => hrsp.1 he.symm, hnodup.1⟩
        rw [List.getElem_cons_zero, honly.reg r hmem]
        exact State.setReg_self _ r _
      | succ i =>
        rw [List.getElem_cons_succ, hpops i (Nat.lt_of_succ_lt_succ hi), hnext]
        show load64 s.mem _ = _
        congr 1
        omega

end Code

end X86
