import Pintos.Lib.LittleEndian
import Pintos.Threads.Palloc

/-!
# Words and bytes in memory

Loads and stores of 64-bit words and of bytes at any address of the pages of
`Pintos/Threads/Palloc.lean`. A word is known by its number, an eighth of its address.

* `loadWord_storeWord`, `loadByte_storeByte` — what is stored is loaded
* `Agree W mem mem'` — the memories agree on the words `W`
* `loadByte_memcpyBytes` — the bytes that `memcpy` copies
-/

namespace Pintos

open Function LittleEndian

/-- The number of the word that an address is in. -/
def wordNo (a : Vaddr) : Nat := a.toNat / 8

/-- The index of that word in its page. -/
def wordIdx (a : Vaddr) : Idx := BitVec.ofNat 9 (a.toNat % 4096 / 8)

/-- The byte `k` of a word. -/
def byteOf (w : BitVec 64) (k : Nat) : Byte := w.extractLsb' (8 * k) 8

/-- The word with its byte `k` replaced. -/
def setByteOf (w : BitVec 64) (k : Nat) (v : Byte) : BitVec 64 :=
  w &&& ~~~((0xff : BitVec 64) <<< (8 * k)) ||| v.setWidth 64 <<< (8 * k)

namespace PageMem

def loadWord (mem : PageMem) (a : Vaddr) : BitVec 64 := mem (pgRoundDown a) (wordIdx a)

def storeWord (mem : PageMem) (a : Vaddr) (w : BitVec 64) : PageMem :=
  update mem (pgRoundDown a) (update (mem (pgRoundDown a)) (wordIdx a) w)

/-- A load of 32 bits at the start of a word. -/
def loadHalf (mem : PageMem) (a : Vaddr) : BitVec 32 := (mem.loadWord a).setWidth 32

/-- A store of 32 bits at the start of a word. -/
def storeHalf (mem : PageMem) (a : Vaddr) (v : BitVec 32) : PageMem :=
  mem.storeWord a ((mem.loadWord a).extractLsb' 32 32 ++ v)

def loadByte (mem : PageMem) (a : Vaddr) : Byte := byteOf (mem.loadWord a) (a.toNat % 8)

def storeByte (mem : PageMem) (a : Vaddr) (v : Byte) : PageMem :=
  mem.storeWord a (setByteOf (mem.loadWord a) (a.toNat % 8) v)

/-- `memset` of any bytes. -/
def memsetBytes (mem : PageMem) (dst : Vaddr) (value : Byte) (size : Nat) : PageMem :=
  (List.range size).foldl (fun mem i => mem.storeByte (dst + BitVec.ofNat 64 i) value) mem

/-- `memcpy`. -/
def memcpyBytes (mem : PageMem) (dst src : Vaddr) (size : Nat) : PageMem :=
  (List.range size).foldl (fun mem i =>
    mem.storeByte (dst + BitVec.ofNat 64 i) (mem.loadByte (src + BitVec.ofNat 64 i))) mem

end PageMem

/-! ## Words -/

section Words

variable {mem mem' mem'' : PageMem} {a b page : Vaddr} {w : BitVec 64} {v : Byte} {cnt : Nat}

open PageMem

theorem wordNo_eq_iff : wordNo a = wordNo b ↔ pgRoundDown a = pgRoundDown b ∧ wordIdx a = wordIdx b := by
  rw [← BitVec.toNat_inj, ← BitVec.toNat_inj, pgRoundDown_toNat, pgRoundDown_toNat, wordIdx, wordIdx,
    BitVec.toNat_ofNat, BitVec.toNat_ofNat, wordNo, wordNo]
  omega

theorem loadWord_storeWord (mem : PageMem) (a b : Vaddr) (w : BitVec 64) :
    (mem.storeWord a w).loadWord b = if wordNo a = wordNo b then w else mem.loadWord b := by
  unfold loadWord storeWord
  split
  · next h =>
    obtain ⟨hp, hi⟩ := wordNo_eq_iff.mp h
    rw [hp, update_self, hi, update_self]
  · next h =>
    by_cases hp : pgRoundDown a = pgRoundDown b
    · have hi : wordIdx b ≠ wordIdx a := fun hc => h (wordNo_eq_iff.mpr ⟨hp, hc.symm⟩)
      rw [hp, update_self, update_of_ne hi]
    · rw [update_of_ne (Ne.symm hp)]

@[simp] theorem loadWord_storeWord_self (mem : PageMem) (a : Vaddr) (w : BitVec 64) :
    (mem.storeWord a w).loadWord a = w := by
  rw [loadWord_storeWord, if_pos rfl]

@[simp] theorem loadHalf_storeHalf (mem : PageMem) (a : Vaddr) (v : BitVec 32) :
    (mem.storeHalf a v).loadHalf a = v := by
  rw [loadHalf, storeHalf, loadWord_storeWord_self]
  exact BitVec.setWidth_append_eq_right

/-! ## Bytes -/

theorem byteOf_setByteOf (w : BitVec 64) {j k : Nat} (hj : j < 8) (v : Byte) :
    byteOf (setByteOf w k v) j = if k = j then v else byteOf w j := by
  refine BitVec.eq_of_getLsbD_eq fun i hi => ?_
  have hmask : (0xff : BitVec 64).getLsbD (8 * j + i - 8 * k) = decide (8 * j + i - 8 * k < 8) := by
    have h8 : (0xff : BitVec 64).toNat = 2 ^ 8 - 1 := rfl
    rw [← BitVec.testBit_toNat, h8, Nat.testBit_two_pow_sub_one]
  simp only [byteOf, setByteOf, BitVec.getLsbD_extractLsb', hi, decide_true, Bool.true_and,
    BitVec.getLsbD_or, BitVec.getLsbD_and, BitVec.getLsbD_not, BitVec.getLsbD_shiftLeft,
    BitVec.getLsbD_setWidth, hmask]
  have hlt : 8 * j + i < 64 := by omega
  by_cases hjk : k = j
  · subst hjk
    have hsub : 8 * k + i - 8 * k = i := by omega
    have hge : ¬ 8 * k + i < 8 * k := by omega
    have hi64 : i < 64 := by omega
    simp [hlt, hsub, hge, hi, hi64]
  · by_cases hlow : 8 * j + i < 8 * k
    · simp [hlt, hlow, hjk, hi]
    · have hfar : ¬ 8 * j + i - 8 * k < 8 := by omega
      have hv : v.getLsbD (8 * j + i - 8 * k) = false := BitVec.getLsbD_of_ge v _ (by omega)
      simp [hlt, hlow, hjk, hi, hfar, hv]

theorem loadByte_storeByte (mem : PageMem) (a b : Vaddr) (v : Byte) :
    (mem.storeByte a v).loadByte b = if a = b then v else mem.loadByte b := by
  have hb : b.toNat % 8 < 8 := Nat.mod_lt _ (by decide)
  unfold loadByte storeByte
  rw [loadWord_storeWord]
  by_cases hw : wordNo a = wordNo b
  · have hword : mem.loadWord a = mem.loadWord b := by
      obtain ⟨hp, hi⟩ := wordNo_eq_iff.mp hw
      rw [loadWord, loadWord, hp, hi]
    have hab : a.toNat % 8 = b.toNat % 8 ↔ a = b := by
      rw [← BitVec.toNat_inj]
      unfold wordNo at hw
      omega
    rw [if_pos hw, byteOf_setByteOf _ hb, hword]
    simp only [hab]
  · have hne : a ≠ b := fun hc => hw (by rw [hc])
    rw [if_neg hw, if_neg hne]

/-! ## What a store leaves -/

/-- The memories agree on the words `W`. -/
def Agree (W : Set Nat) (mem mem' : PageMem) : Prop :=
  ∀ a, wordNo a ∈ W → mem'.loadWord a = mem.loadWord a

variable {W W' : Set Nat}

theorem Agree.refl (W : Set Nat) (mem : PageMem) : Agree W mem mem := fun _ _ => rfl

theorem Agree.trans (h : Agree W mem mem') (h' : Agree W mem' mem'') : Agree W mem mem'' :=
  fun a ha => (h' a ha).trans (h a ha)

theorem Agree.mono (h : Agree W mem mem') (hW : W' ⊆ W) : Agree W' mem mem' := fun a ha => h a (hW ha)

theorem Agree.loadHalf (h : Agree W mem mem') (ha : wordNo a ∈ W) : mem'.loadHalf a = mem.loadHalf a := by
  rw [PageMem.loadHalf, h a ha, PageMem.loadHalf]

theorem Agree.loadByte (h : Agree W mem mem') (ha : wordNo a ∈ W) : mem'.loadByte a = mem.loadByte a := by
  rw [PageMem.loadByte, h a ha, PageMem.loadByte]

theorem Agree.storeWord (h : wordNo a ∉ W) (w : BitVec 64) : Agree W mem (mem.storeWord a w) := by
  intro b hb
  have hne : wordNo a ≠ wordNo b := fun hc => h (hc ▸ hb)
  rw [loadWord_storeWord, if_neg hne]

theorem Agree.storeHalf (h : wordNo a ∉ W) (v : BitVec 32) : Agree W mem (mem.storeHalf a v) :=
  Agree.storeWord h _

theorem Agree.storeByte (h : wordNo a ∉ W) (v : Byte) : Agree W mem (mem.storeByte a v) :=
  Agree.storeWord h _

theorem Agree.foldl {ι : Type*} {f : PageMem → ι → PageMem} : ∀ {l : List ι} {mem : PageMem},
    (∀ mem, ∀ i ∈ l, Agree W mem (f mem i)) → Agree W mem (l.foldl f mem)
  | [], mem, _ => .refl W mem
  | i :: l, mem, h =>
    (h mem i (by simp)).trans (Agree.foldl fun mem j hj => h mem j (List.mem_cons_of_mem i hj))

theorem Agree.memsetBytes {dst : Vaddr} {size : Nat} (h : ∀ i < size, wordNo (dst + BitVec.ofNat 64 i) ∉ W) :
    Agree W mem (mem.memsetBytes dst v size) :=
  Agree.foldl fun _ i hi => Agree.storeByte (h i (List.mem_range.mp hi)) v

theorem Agree.memcpyBytes {dst src : Vaddr} {size : Nat}
    (h : ∀ i < size, wordNo (dst + BitVec.ofNat 64 i) ∉ W) : Agree W mem (mem.memcpyBytes dst src size) :=
  Agree.foldl fun _ i hi => Agree.storeByte (h i (List.mem_range.mp hi)) _

/-- Pages that are filled have none of the words. -/
theorem Agree.memset (h : ∀ a, wordNo a ∈ W → ∀ j < cnt, pgRoundDown a ≠ page + BitVec.ofNat 64 (PGSIZE * j)) :
    Agree W mem (memset mem page w cnt) := by
  refine Agree.foldl fun mem j hj a ha => ?_
  rw [loadWord, update_of_ne (h a ha j (List.mem_range.mp hj)), loadWord]

/-! ## Copies -/

variable {dst src : Vaddr} {i j size : Nat}

theorem memcpyBytes_succ (mem : PageMem) (dst src : Vaddr) (size : Nat) :
    mem.memcpyBytes dst src (size + 1) =
      (mem.memcpyBytes dst src size).storeByte (dst + BitVec.ofNat 64 size)
        ((mem.memcpyBytes dst src size).loadByte (src + BitVec.ofNat 64 size)) := by
  simp [memcpyBytes, List.range_succ]

theorem loadByte_memcpyBytes_of_ne (h : ∀ i < size, dst + BitVec.ofNat 64 i ≠ a) :
    (mem.memcpyBytes dst src size).loadByte a = mem.loadByte a := by
  induction size with
  | zero => rfl
  | succ size ih =>
    rw [memcpyBytes_succ, loadByte_storeByte, if_neg (h size (Nat.lt_succ_self size))]
    exact ih fun i hi => h i (Nat.lt_succ_of_lt hi)

/-- **`memcpy`** copies the bytes to a place that they are not in. -/
theorem loadByte_memcpyBytes (hapart : ∀ i < size, ∀ k < size, dst + BitVec.ofNat 64 i ≠ src + BitVec.ofNat 64 k)
    (hsize : size ≤ 2 ^ 64) (hj : j < size) :
    (mem.memcpyBytes dst src size).loadByte (dst + BitVec.ofNat 64 j) =
      mem.loadByte (src + BitVec.ofNat 64 j) := by
  induction size with
  | zero => exact absurd hj (Nat.not_lt_zero j)
  | succ size ih =>
    have hsrc : (mem.memcpyBytes dst src size).loadByte (src + BitVec.ofNat 64 size) =
        mem.loadByte (src + BitVec.ofNat 64 size) :=
      loadByte_memcpyBytes_of_ne fun i hi => hapart i (Nat.lt_succ_of_lt hi) size (Nat.lt_succ_self size)
    rw [memcpyBytes_succ, loadByte_storeByte, hsrc]
    rcases Nat.lt_succ_iff_lt_or_eq.mp hj with hlt | rfl
    · have hne : dst + BitVec.ofNat 64 size ≠ dst + BitVec.ofNat 64 j := by
        intro hc
        have hn := congrArg BitVec.toNat hc
        rw [BitVec.toNat_add, BitVec.toNat_add, BitVec.toNat_ofNat, BitVec.toNat_ofNat] at hn
        omega
      rw [if_neg hne]
      exact ih (fun i hi k hk => hapart i (Nat.lt_succ_of_lt hi) k (Nat.lt_succ_of_lt hk)) (by omega) hlt
    · rw [if_pos rfl]

end Words

end Pintos
