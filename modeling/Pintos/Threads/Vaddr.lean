import Mathlib.Tactic.Linarith
import Mathlib.Data.Nat.Bitwise

/-!
# Addresses and page-table entries

`include/threads/vaddr.h` and `include/threads/pte.h`: the macros on 64-bit addresses, and the
facts about them that the page tables rest on.

* `pteAddr_entry`, `ptov_pteAddr` — the address in an entry made from an aligned one
* `walkPath_inj` — the four indices determine the page of an address below 2^48
-/

namespace Pintos

abbrev Vaddr := BitVec 64

def PGBITS : Nat := 12
def PGSIZE : Nat := 4096
def PGMASK : BitVec 64 := 0xFFF

/-- `LOADER_KERN_BASE`. -/
def KERN_BASE : Vaddr := 0x8004000000

/-- Page offset. -/
def pgOfs (va : Vaddr) : BitVec 64 := va &&& PGMASK

def pgNo (va : Vaddr) : BitVec 64 := va >>> PGBITS

def pgRoundDown (va : Vaddr) : Vaddr := va &&& ~~~PGMASK

def isKernelVaddr (va : Vaddr) : Bool := KERN_BASE ≤ va

def isUserVaddr (va : Vaddr) : Bool := !isKernelVaddr va

/-- The kernel virtual address of a physical address. -/
def ptov (paddr : BitVec 64) : Vaddr := paddr + KERN_BASE

def vtop (va : Vaddr) : BitVec 64 := va - KERN_BASE

/-- An index into a page table. -/
abbrev Idx := BitVec 9

def PML4 (la : Vaddr) : Idx := (la >>> 39).setWidth 9
def PDPE (la : Vaddr) : Idx := (la >>> 30).setWidth 9
def PDX (la : Vaddr) : Idx := (la >>> 21).setWidth 9
def PTX (la : Vaddr) : Idx := (la >>> 12).setWidth 9

def PTE_ADDR (pte : BitVec 64) : BitVec 64 := pte &&& ~~~0xFFF

def PTE_P : BitVec 64 := 0x1
def PTE_W : BitVec 64 := 0x2
def PTE_U : BitVec 64 := 0x4
def PTE_A : BitVec 64 := 0x20
def PTE_D : BitVec 64 := 0x40

/-- The entry is present. -/
def present (pte : BitVec 64) : Bool := pte &&& PTE_P ≠ 0

/-- The address is that of a page. -/
def Aligned (va : BitVec 64) : Prop := pgOfs va = 0

instance (va : BitVec 64) : Decidable (Aligned va) := inferInstanceAs (Decidable (pgOfs va = 0))

theorem isUserVaddr_iff {va : Vaddr} : isUserVaddr va = true ↔ va.toNat < 0x8004000000 := by
  simp [isUserVaddr, isKernelVaddr, KERN_BASE, BitVec.le_def]

/-! ## The low twelve bits -/

theorem and_mask_toNat (a : BitVec 64) : (a &&& 0xFFF).toNat = a.toNat % 4096 := by
  have h := Nat.and_two_pow_sub_one_eq_mod a.toNat 12
  simpa [BitVec.toNat_and] using h

theorem getLsbD_not_mask : ∀ i : Fin 64, (~~~(0xFFF : BitVec 64)).getLsbD i = decide (12 ≤ i.val) := by
  decide

theorem and_not_mask (a : BitVec 64) : a &&& ~~~(0xFFF : BitVec 64) = (a >>> 12) <<< 12 := by
  refine BitVec.eq_of_getLsbD_eq fun i hi => ?_
  rw [BitVec.getLsbD_and, getLsbD_not_mask ⟨i, hi⟩, BitVec.getLsbD_shiftLeft,
    BitVec.getLsbD_ushiftRight]
  by_cases h12 : 12 ≤ i
  · have hsub : 12 + (i - 12) = i := by omega
    have hlt : ¬ i < 12 := by omega
    simp [h12, hi, hlt, hsub]
  · have hlt : i < 12 := by omega
    simp [h12, hlt]

theorem and_not_mask_toNat (a : BitVec 64) :
    (a &&& ~~~(0xFFF : BitVec 64)).toNat = a.toNat / 4096 * 4096 := by
  have hlt : a.toNat < 2 ^ 64 := a.isLt
  rw [and_not_mask, BitVec.toNat_shiftLeft, BitVec.toNat_ushiftRight, Nat.shiftRight_eq_div_pow,
    Nat.shiftLeft_eq, Nat.mod_eq_of_lt]
  omega

theorem pgOfs_toNat (va : Vaddr) : (pgOfs va).toNat = va.toNat % 4096 := and_mask_toNat va

theorem pgRoundDown_toNat (va : Vaddr) : (pgRoundDown va).toNat = va.toNat / 4096 * 4096 :=
  and_not_mask_toNat va

theorem pgNo_toNat (va : Vaddr) : (pgNo va).toNat = va.toNat / 4096 := by
  rw [pgNo, BitVec.toNat_ushiftRight, Nat.shiftRight_eq_div_pow]
  rfl

theorem aligned_iff {va : BitVec 64} : Aligned va ↔ va.toNat % 4096 = 0 := by
  rw [Aligned, ← pgOfs_toNat]
  constructor
  · intro h
    rw [h]
    rfl
  · intro h
    exact BitVec.eq_of_toNat_eq h

theorem aligned_pgRoundDown (va : Vaddr) : Aligned (pgRoundDown va) := by
  rw [aligned_iff, pgRoundDown_toNat]
  omega

theorem pgRoundDown_of_aligned {va : Vaddr} (h : Aligned va) : pgRoundDown va = va := by
  refine BitVec.eq_of_toNat_eq ?_
  rw [aligned_iff] at h
  rw [pgRoundDown_toNat]
  omega

/-- An aligned address and a flag below the page size. -/
theorem or_flags_toNat {a f : BitVec 64} (ha : Aligned a) (hf : f.toNat < 4096) :
    (a ||| f).toNat = a.toNat + f.toNat := by
  have hdisj : a &&& f = 0 := by
    have ha' : a = (a >>> 12) <<< 12 := by
      rw [← and_not_mask]
      refine BitVec.eq_of_toNat_eq ?_
      rw [and_not_mask_toNat]
      have hmod := aligned_iff.mp ha
      omega
    refine BitVec.eq_of_getLsbD_eq fun i hi => ?_
    rw [ha', BitVec.getLsbD_and, BitVec.getLsbD_shiftLeft]
    by_cases h12 : i < 12
    · simp [h12]
    · have hfi : f.getLsbD i = false := by
        rw [← BitVec.testBit_toNat]
        refine Nat.testBit_lt_two_pow ?_
        calc f.toNat < 2 ^ 12 := hf
          _ ≤ 2 ^ i := Nat.pow_le_pow_right (by decide) (by omega)
      simp [hfi]
  rw [← BitVec.add_eq_or_of_and_eq_zero a f hdisj, BitVec.toNat_add, Nat.mod_eq_of_lt]
  have hmod := aligned_iff.mp ha
  have hlt : a.toNat < 2 ^ 64 := a.isLt
  omega

/-! ## Entries -/

theorem ptov_vtop (va : Vaddr) : ptov (vtop va) = va := BitVec.sub_add_cancel va KERN_BASE

theorem aligned_ptov {pa : BitVec 64} : Aligned (ptov pa) ↔ Aligned pa := by
  rw [aligned_iff, aligned_iff, ptov, BitVec.toNat_add]
  have hk : KERN_BASE.toNat = 0x8004000000 := rfl
  rw [hk]
  omega

theorem aligned_vtop {va : Vaddr} (h : Aligned va) : Aligned (vtop va) := by
  rw [← ptov_vtop va] at h
  exact aligned_ptov.mp h

/-- The address in an entry made from an aligned one. -/
theorem pteAddr_entry {a f : BitVec 64} (ha : Aligned a) (hf : f.toNat < 4096) :
    PTE_ADDR (a ||| f) = a := by
  refine BitVec.eq_of_toNat_eq ?_
  have hmod := aligned_iff.mp ha
  rw [PTE_ADDR, and_not_mask_toNat, or_flags_toNat ha hf]
  omega

/-- `pt_destroy` and its callers add the kernel base to the whole entry first. -/
theorem ptov_pteAddr (e : BitVec 64) : PTE_ADDR (ptov e) = ptov (PTE_ADDR e) := by
  refine BitVec.eq_of_toNat_eq ?_
  have hk : KERN_BASE.toNat = 0x8004000000 := rfl
  have hlt : e.toNat < 2 ^ 64 := e.isLt
  rw [PTE_ADDR, and_not_mask_toNat, ptov, ptov, BitVec.toNat_add, BitVec.toNat_add, PTE_ADDR,
    and_not_mask_toNat, hk]
  omega

theorem and_one_eq (e : BitVec 64) : (e &&& PTE_P).toNat = e.toNat % 2 := by
  have h := Nat.and_two_pow_sub_one_eq_mod e.toNat 1
  rw [BitVec.toNat_and]
  exact h

theorem present_iff {e : BitVec 64} : present e = true ↔ e.toNat % 2 = 1 := by
  rw [← and_one_eq]
  simp only [present, decide_eq_true_eq]
  constructor
  · intro h
    have hne : (e &&& PTE_P).toNat ≠ 0 := fun hc => h (BitVec.eq_of_toNat_eq hc)
    have hmod := and_one_eq e
    omega
  · intro h hc
    rw [hc] at h
    cases h

theorem present_ptov (e : BitVec 64) : present (ptov e) = present e := by
  have hk : KERN_BASE.toNat = 0x8004000000 := rfl
  have hlt : e.toNat < 2 ^ 64 := e.isLt
  rw [Bool.eq_iff_iff, present_iff, present_iff, ptov, BitVec.toNat_add, hk]
  omega

theorem present_entry {a f : BitVec 64} (ha : Aligned a) (hf : f.toNat < 4096)
    (hp : f.toNat % 2 = 1) : present (a ||| f) = true := by
  have hmod := aligned_iff.mp ha
  rw [present_iff, or_flags_toNat ha hf]
  omega

/-! ## The path of an address -/

/-- The indices a walk takes, from the top level down. -/
def walkPath (va : Vaddr) : List Idx := [PML4 va, PDPE va, PDX va, PTX va]

theorem PML4_toNat (va : Vaddr) : (PML4 va).toNat = va.toNat / 2 ^ 39 % 512 := by
  rw [PML4, BitVec.toNat_setWidth, BitVec.toNat_ushiftRight, Nat.shiftRight_eq_div_pow]

theorem PDPE_toNat (va : Vaddr) : (PDPE va).toNat = va.toNat / 2 ^ 30 % 512 := by
  rw [PDPE, BitVec.toNat_setWidth, BitVec.toNat_ushiftRight, Nat.shiftRight_eq_div_pow]

theorem PDX_toNat (va : Vaddr) : (PDX va).toNat = va.toNat / 2 ^ 21 % 512 := by
  rw [PDX, BitVec.toNat_setWidth, BitVec.toNat_ushiftRight, Nat.shiftRight_eq_div_pow]

theorem PTX_toNat (va : Vaddr) : (PTX va).toNat = va.toNat / 2 ^ 12 % 512 := by
  rw [PTX, BitVec.toNat_setWidth, BitVec.toNat_ushiftRight, Nat.shiftRight_eq_div_pow]

theorem walkPath_inj {a b : Vaddr} (ha : a.toNat < 2 ^ 48) (hb : b.toNat < 2 ^ 48) :
    walkPath a = walkPath b ↔ pgNo a = pgNo b := by
  have hno : pgNo a = pgNo b ↔ a.toNat / 4096 = b.toNat / 4096 := by
    rw [← pgNo_toNat, ← pgNo_toNat]
    exact ⟨fun h => by rw [h], fun h => BitVec.eq_of_toNat_eq h⟩
  simp only [walkPath, List.cons.injEq, and_true, ← BitVec.toNat_inj, PML4_toNat, PDPE_toNat,
    PDX_toNat, PTX_toNat, hno]
  omega

/-- A user address is under the first two entries of the top level. -/
theorem PML4_of_user {va : Vaddr} (h : isUserVaddr va = true) :
    PML4 va = 0 ∨ PML4 va = 1 ∧ (PDPE va).toNat < 16 := by
  have hlt := isUserVaddr_iff.mp h
  have h0 : (0 : Idx).toNat = 0 := rfl
  have h1 : (1 : Idx).toNat = 1 := rfl
  rw [← BitVec.toNat_inj, ← BitVec.toNat_inj, PML4_toNat, PDPE_toNat, h0, h1]
  omega

end Pintos
