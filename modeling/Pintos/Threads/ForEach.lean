import Pintos.Lib.Traversal
import Pintos.Threads.Mmu

/-!
# `pml4_for_each`

`threads/mmu.c`: a function is called on every entry of a page table that is present. It gets a pointer to the
entry, the address the entry is for, and `aux`; it may change memory and what `aux` points to, which is of type `α`.

* `walkPath_entryVa`, `entryVa_lt` — the address made from four indices has them, and follows their order
-/

namespace Pintos

/-- `pte_for_each_func`. `true` says to go on. -/
abbrev PteForEachFunc (α : Type*) := PtePtr → Vaddr → Pools × α → Except Panic (Bool × (Pools × α))

/-- The address with these indices. -/
def entryVa (pml4Index pdpIndex pdxIndex i : Idx) : Vaddr :=
  pml4Index.setWidth 64 <<< 39 ||| pdpIndex.setWidth 64 <<< 30 ||| pdxIndex.setWidth 64 <<< 21 |||
    i.setWidth 64 <<< 12

namespace Pools

open Calling

variable {α : Type*}

/-- `pt_for_each`. -/
def ptForEach (func : PteForEachFunc α) (pml4Index pdpIndex pdxIndex : Idx) (s : Pools × α) (pt : Vaddr) :
    Except Panic (Bool × (Pools × α)) :=
  untilFalse (fun i s =>
    if present (s.1.mem pt i) then func (pt, i) (entryVa pml4Index pdpIndex pdxIndex i) s
    else .ok (true, s)) s indices

/-- The loop of the levels above: an entry that is present refers to a table for `next`. -/
def forEachTable (next : Idx → Pools × α → Vaddr → Except Panic (Bool × (Pools × α))) (s : Pools × α)
    (table : Vaddr) : Except Panic (Bool × (Pools × α)) :=
  untilFalse (fun i s =>
    -- the kernel base is added to the whole entry, flags and all
    let pte := ptov (s.1.mem table i)
    if present pte then next i s (PTE_ADDR pte) else .ok (true, s)) s indices

/-- `pgdir_for_each`. -/
def pgdirForEach (func : PteForEachFunc α) (pml4Index pdpIndex : Idx) :
    Pools × α → Vaddr → Except Panic (Bool × (Pools × α)) :=
  forEachTable fun i => ptForEach func pml4Index pdpIndex i

/-- `pdp_for_each`. -/
def pdpForEach (func : PteForEachFunc α) (pml4Index : Idx) :
    Pools × α → Vaddr → Except Panic (Bool × (Pools × α)) :=
  forEachTable fun i => pgdirForEach func pml4Index i

/-- `pml4_for_each`. -/
def pml4ForEach (func : PteForEachFunc α) : Pools × α → Vaddr → Except Panic (Bool × (Pools × α)) :=
  forEachTable fun i => pdpForEach func i

end Pools

/-! ## The address of an entry -/

theorem shiftLeft_index_toNat (i : Idx) {k : Nat} (hk : k + 9 ≤ 64) :
    (i.setWidth 64 <<< k).toNat = 2 ^ k * i.toNat := by
  have hi : i.toNat < 2 ^ 9 := i.isLt
  have hlt : 2 ^ k * i.toNat < 2 ^ 64 := by
    calc 2 ^ k * i.toNat < 2 ^ k * 2 ^ 9 := (Nat.mul_lt_mul_left (Nat.two_pow_pos k)).mpr hi
      _ = 2 ^ (k + 9) := (Nat.pow_add 2 k 9).symm
      _ ≤ 2 ^ 64 := Nat.pow_le_pow_right (by decide) hk
  rw [BitVec.toNat_shiftLeft, BitVec.toNat_setWidth, Nat.shiftLeft_eq, Nat.mod_eq_of_lt (a := i.toNat) (by omega),
    Nat.mul_comm, Nat.mod_eq_of_lt hlt]

theorem entryVa_toNat (i j k l : Idx) :
    (entryVa i j k l).toNat = 2 ^ 39 * i.toNat + 2 ^ 30 * j.toNat + 2 ^ 21 * k.toNat + 2 ^ 12 * l.toNat := by
  have hj : j.toNat < 2 ^ 9 := j.isLt
  have hk : k.toNat < 2 ^ 9 := k.isLt
  have hl : l.toNat < 2 ^ 9 := l.isLt
  -- each index is below the bits of the one before
  have hij : 2 ^ 39 * i.toNat ||| 2 ^ 30 * j.toNat = 2 ^ 30 * (2 ^ 9 * i.toNat + j.toNat) := by
    rw [← Nat.two_pow_add_eq_or_of_lt (by omega)]
    omega
  have hijk : 2 ^ 30 * (2 ^ 9 * i.toNat + j.toNat) ||| 2 ^ 21 * k.toNat =
      2 ^ 21 * (2 ^ 9 * (2 ^ 9 * i.toNat + j.toNat) + k.toNat) := by
    rw [← Nat.two_pow_add_eq_or_of_lt (by omega)]
    omega
  have hijkl : 2 ^ 21 * (2 ^ 9 * (2 ^ 9 * i.toNat + j.toNat) + k.toNat) ||| 2 ^ 12 * l.toNat =
      2 ^ 21 * (2 ^ 9 * (2 ^ 9 * i.toNat + j.toNat) + k.toNat) + 2 ^ 12 * l.toNat :=
    (Nat.two_pow_add_eq_or_of_lt (by omega) _).symm
  rw [entryVa, BitVec.toNat_or, BitVec.toNat_or, BitVec.toNat_or, shiftLeft_index_toNat i (by omega),
    shiftLeft_index_toNat j (by omega), shiftLeft_index_toNat k (by omega), shiftLeft_index_toNat l (by omega), hij,
    hijk, hijkl]
  omega

/-- A walk to the address takes the indices it was made from. -/
theorem walkPath_entryVa (i j k l : Idx) : walkPath (entryVa i j k l) = [i, j, k, l] := by
  have hi : i.toNat < 2 ^ 9 := i.isLt
  have hj : j.toNat < 2 ^ 9 := j.isLt
  have hk : k.toNat < 2 ^ 9 := k.isLt
  have hl : l.toNat < 2 ^ 9 := l.isLt
  simp only [walkPath, List.cons.injEq, and_true, ← BitVec.toNat_inj, PML4_toNat, PDPE_toNat, PDX_toNat, PTX_toNat,
    entryVa_toNat]
  omega

/-- The address of a path. -/
def pathVa : List Idx → Vaddr
  | [pml4Index, pdpIndex, pdxIndex, i] => entryVa pml4Index pdpIndex pdxIndex i
  | _ => 0

theorem walkPath_pathVa : ∀ {path : List Idx}, path.length = 4 → walkPath (pathVa path) = path
  | [i, j, k, l], _ => walkPath_entryVa i j k l

/-- Addresses are in the order of their paths. -/
theorem pathVa_lt : ∀ {p q : List Idx}, p.length = 4 → q.length = 4 → List.Lex (· < ·) p q → pathVa p < pathVa q
  | [i, j, k, l], [i', j', k', l'], _, _, h => by
    have hjlt : j.toNat < 2 ^ 9 := j.isLt
    have hklt : k.toNat < 2 ^ 9 := k.isLt
    have hllt : l.toNat < 2 ^ 9 := l.isLt
    rw [pathVa, pathVa, BitVec.lt_def, entryVa_toNat, entryVa_toNat]
    rcases List.cons_lex_cons_iff.mp h with hlt | ⟨rfl, hj⟩
    · rw [BitVec.lt_def] at hlt
      omega
    rcases List.cons_lex_cons_iff.mp hj with hlt | ⟨rfl, hk⟩
    · rw [BitVec.lt_def] at hlt
      omega
    rcases List.cons_lex_cons_iff.mp hk with hlt | ⟨rfl, hl⟩
    · rw [BitVec.lt_def] at hlt
      omega
    rcases List.cons_lex_cons_iff.mp hl with hlt | ⟨rfl, hnil⟩
    · rw [BitVec.lt_def] at hlt
      omega
    exact absurd hnil List.not_lex_nil

end Pintos
