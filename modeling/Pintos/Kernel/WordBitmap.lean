import Pintos.Kernel.Bitmap

/-!
# `struct bitmap`

The bitmaps of `lib/kernel/bitmap.c` as they are in memory: an array of 64-bit words, of which the
last may have bits that belong to no index. `bitmap_create` leaves those as it finds them.

* `bits_setMultiple`, `scan_eq`, `all_eq` — the functions do to the bits what those of
  `Pintos/Kernel/Bitmap.lean` do
* `bits_maskLast` — the mask of `bitmap_read` changes no bit of the map
-/

namespace Pintos

/-- `ELEM_BITS`. -/
def ELEM_BITS : Nat := 64

def elemIdx (bitIdx : Nat) : Nat := bitIdx / ELEM_BITS

def bitMask (bitIdx : Nat) : BitVec 64 := 1#64 <<< (bitIdx % ELEM_BITS)

def elemCnt (bitCnt : Nat) : Nat := (bitCnt + ELEM_BITS - 1) / ELEM_BITS

def byteCnt (bitCnt : Nat) : Nat := 8 * elemCnt bitCnt

structure WordBitmap where
  bitCnt : Nat
  elems : List (BitVec 64)

namespace WordBitmap

/-- `last_mask`: the bits of the last word that are used. -/
def lastMask (b : WordBitmap) : BitVec 64 :=
  let lastBits := b.bitCnt % ELEM_BITS
  if lastBits ≠ 0 then (1#64 <<< lastBits) - 1 else BitVec.allOnes 64

def mark (b : WordBitmap) (bitIdx : Nat) : WordBitmap :=
  { b with elems := b.elems.modify (elemIdx bitIdx) (· ||| bitMask bitIdx) }

def reset (b : WordBitmap) (bitIdx : Nat) : WordBitmap :=
  { b with elems := b.elems.modify (elemIdx bitIdx) (· &&& ~~~bitMask bitIdx) }

def flip (b : WordBitmap) (bitIdx : Nat) : WordBitmap :=
  { b with elems := b.elems.modify (elemIdx bitIdx) (· ^^^ bitMask bitIdx) }

def set (b : WordBitmap) (idx : Nat) (value : Bool) : WordBitmap :=
  if value then b.mark idx else b.reset idx

def test (b : WordBitmap) (idx : Nat) : Bool := b.elems.getD (elemIdx idx) 0 &&& bitMask idx ≠ 0

def setMultiple (b : WordBitmap) (start cnt : Nat) (value : Bool) : WordBitmap :=
  (List.range cnt).foldl (fun b i => b.set (start + i) value) b

/-- `bitmap_create`: the words are those of the block of memory that was found. -/
def create (bitCnt : Nat) (block : List (BitVec 64)) : WordBitmap :=
  setMultiple { bitCnt := bitCnt, elems := block } 0 bitCnt false

def contains (b : WordBitmap) (start cnt : Nat) (value : Bool) : Bool :=
  (List.range cnt).any fun i => b.test (start + i) = value

def all (b : WordBitmap) (start cnt : Nat) : Bool := !b.contains start cnt false

def scan (b : WordBitmap) (start cnt : Nat) (value : Bool) : Option Nat :=
  if cnt ≤ b.bitCnt then
    (List.range' start (b.bitCnt - cnt + 1 - start)).find? fun i => !b.contains i cnt (!value)
  else none

def scanAndFlip (b : WordBitmap) (start cnt : Nat) (value : Bool) : Option Nat × WordBitmap :=
  match b.scan start cnt value with
  | none => (none, b)
  | some idx => (some idx, b.setMultiple idx cnt (!value))

/-- The words of the map are all there. -/
def Ok (b : WordBitmap) : Prop := b.elems.length = elemCnt b.bitCnt

/-- The bits of the map. -/
def bits (b : WordBitmap) : Bitmap := (List.range b.bitCnt).map b.test

variable {b : WordBitmap} {idx i j start cnt : Nat} {value : Bool}

@[simp] theorem length_bits : b.bits.length = b.bitCnt := by simp [bits]

theorem getElem?_bits : b.bits[i]? = if i < b.bitCnt then some (b.test i) else none := by
  rw [bits, List.getElem?_map]
  split
  · next h => rw [List.getElem?_range h, Option.map_some]
  · next h => rw [List.getElem?_eq_none (by simpa using h), Option.map_none]

theorem getLsbD_bitMask {k : Nat} (hk : k < 64) :
    (bitMask idx).getLsbD k = decide (k = idx % 64) := by
  rw [bitMask, ELEM_BITS, BitVec.getLsbD_shiftLeft, BitVec.getLsbD_one]
  by_cases hki : k = idx % 64
  · subst hki
    simp [hk]
  · by_cases hlt : k < idx % 64
    · simp [hlt, hki]
    · have hne : ¬ k - idx % 64 = 0 := by omega
      simp [hne, hki]

theorem test_eq : b.test idx = (b.elems.getD (elemIdx idx) 0).getLsbD (idx % 64) := by
  have hlt : idx % 64 < 64 := Nat.mod_lt _ (by decide)
  have hmask : ∀ w : BitVec 64, w &&& bitMask idx ≠ 0 ↔ w.getLsbD (idx % 64) = true := by
    intro w
    constructor
    · intro hne
      by_contra hf
      rw [Bool.not_eq_true] at hf
      refine hne (BitVec.eq_of_getLsbD_eq fun k hk => ?_)
      rw [BitVec.getLsbD_and, getLsbD_bitMask hk]
      by_cases hki : k = idx % 64
      · simp [hki, hf]
      · simp [hki]
    · intro ht hz
      have hk := congrArg (fun v => v.getLsbD (idx % 64)) hz
      simp only [BitVec.getLsbD_and, getLsbD_bitMask hlt, ht] at hk
      simp at hk
  rw [test, Bool.eq_iff_iff, decide_eq_true_eq, hmask]

theorem length_set : (b.set idx value).elems.length = b.elems.length := by
  unfold set mark reset
  split <;> simp

@[simp] theorem bitCnt_set : (b.set idx value).bitCnt = b.bitCnt := by
  unfold set mark reset
  split <;> rfl

/-- A change of the word of a bit, seen at any bit. -/
theorem test_modify (h : b.Ok) (hi : idx < b.bitCnt) (f : BitVec 64 → BitVec 64) :
    test { b with elems := b.elems.modify (elemIdx idx) f } j =
      if elemIdx idx = elemIdx j then (f (b.elems.getD (elemIdx j) 0)).getLsbD (j % 64) else b.test j := by
  have hlt : elemIdx idx < b.elems.length := by
    rw [h, elemIdx, elemCnt, ELEM_BITS]
    omega
  rw [test_eq, test_eq]
  show ((b.elems.modify (elemIdx idx) f).getD (elemIdx j) 0).getLsbD (j % 64) = _
  rw [List.getD_eq_getElem?_getD, List.getElem?_modify]
  by_cases he : elemIdx idx = elemIdx j
  · rw [if_pos he, ← he, List.getD_eq_getElem?_getD, List.getElem?_eq_getElem hlt]
    simp
  · rw [if_neg he, List.getD_eq_getElem?_getD]
    simp [he]

/-- In the word of a bit its number is that of the mask. -/
theorem decide_mod_eq (he : elemIdx idx = elemIdx j) : decide (j % 64 = idx % 64) = decide (j = idx) := by
  unfold elemIdx ELEM_BITS at he
  rw [decide_eq_decide]
  omega

/-- One bit is set, and the others are as they were. -/
theorem test_set (h : b.Ok) (hi : idx < b.bitCnt) :
    (b.set idx value).test j = if j = idx then value else b.test j := by
  have hj64 : j % 64 < 64 := Nat.mod_lt _ (by decide)
  cases value with
  | true =>
    show test { b with elems := b.elems.modify (elemIdx idx) (· ||| bitMask idx) } j = _
    rw [test_modify h hi]
    by_cases he : elemIdx idx = elemIdx j
    · rw [if_pos he, BitVec.getLsbD_or, getLsbD_bitMask hj64, decide_mod_eq he, ← test_eq]
      by_cases hji : j = idx <;> simp [hji]
    · have hji : j ≠ idx := fun hc => he (by rw [hc])
      rw [if_neg he, if_neg hji]
  | false =>
    show test { b with elems := b.elems.modify (elemIdx idx) (· &&& ~~~bitMask idx) } j = _
    rw [test_modify h hi]
    by_cases he : elemIdx idx = elemIdx j
    · rw [if_pos he, BitVec.getLsbD_and, BitVec.getLsbD_not, getLsbD_bitMask hj64,
        decide_mod_eq he, ← test_eq]
      by_cases hji : j = idx <;> simp [hji, hj64]
    · have hji : j ≠ idx := fun hc => he (by rw [hc])
      rw [if_neg he, if_neg hji]

/-- One bit is flipped, and the others are as they were. -/
theorem test_flip (h : b.Ok) (hi : idx < b.bitCnt) :
    (b.flip idx).test j = if j = idx then !b.test idx else b.test j := by
  have hj64 : j % 64 < 64 := Nat.mod_lt _ (by decide)
  show test { b with elems := b.elems.modify (elemIdx idx) (· ^^^ bitMask idx) } j = _
  rw [test_modify h hi]
  by_cases he : elemIdx idx = elemIdx j
  · rw [if_pos he, BitVec.getLsbD_xor, getLsbD_bitMask hj64, decide_mod_eq he, ← test_eq]
    by_cases hji : j = idx <;> simp [hji]
  · have hji : j ≠ idx := fun hc => he (by rw [hc])
    rw [if_neg he, if_neg hji]

theorem Ok.flip (h : b.Ok) : (b.flip idx).Ok := by
  rw [Ok, WordBitmap.flip, List.length_modify]
  exact h

theorem Ok.set (h : b.Ok) : (b.set idx value).Ok := by
  rw [Ok, length_set, bitCnt_set]
  exact h

theorem bits_set (h : b.Ok) (hi : idx < b.bitCnt) : (b.set idx value).bits = b.bits.set idx value := by
  refine List.ext_getElem? fun j => ?_
  rw [getElem?_bits, List.getElem?_set, getElem?_bits, bitCnt_set, test_set h hi, length_bits]
  by_cases hj : idx = j
  · subst hj
    simp [hi]
  · rw [if_neg hj, if_neg (Ne.symm hj)]

theorem setMultiple_succ (b : WordBitmap) (start cnt : Nat) (value : Bool) :
    b.setMultiple start (cnt + 1) value = (b.setMultiple start cnt value).set (start + cnt) value := by
  simp [setMultiple, List.range_succ]

@[simp] theorem bitCnt_setMultiple : (b.setMultiple start cnt value).bitCnt = b.bitCnt := by
  induction cnt with
  | zero => rfl
  | succ cnt ih => rw [setMultiple_succ, bitCnt_set, ih]

theorem Ok.setMultiple (h : b.Ok) : (b.setMultiple start cnt value).Ok := by
  induction cnt with
  | zero => exact h
  | succ cnt ih =>
    rw [setMultiple_succ]
    exact ih.set

/-- **`bitmap_set_multiple`** sets the bits. -/
theorem bits_setMultiple (h : b.Ok) (hle : start + cnt ≤ b.bitCnt) :
    (b.setMultiple start cnt value).bits = bitmapSetMultiple b.bits start cnt value := by
  induction cnt with
  | zero => rfl
  | succ cnt ih =>
    rw [setMultiple_succ, bitmapSetMultiple_succ, ← ih (by omega)]
    exact bits_set h.setMultiple (by rw [bitCnt_setMultiple]; omega)

theorem test_setMultiple (h : b.Ok) (hle : start + cnt ≤ b.bitCnt) :
    (b.setMultiple start cnt value).test j =
      if start ≤ j ∧ j < start + cnt then value else b.test j := by
  induction cnt with
  | zero =>
    rw [if_neg (by omega)]
    rfl
  | succ cnt ih =>
    rw [setMultiple_succ, test_set h.setMultiple (by rw [bitCnt_setMultiple]; omega), ih (by omega)]
    by_cases hj : j = start + cnt
    · rw [if_pos hj, if_pos (by omega)]
    · rw [if_neg hj]
      by_cases hr : start ≤ j ∧ j < start + cnt
      · rw [if_pos hr, if_pos (by omega)]
      · rw [if_neg hr, if_neg (by omega)]

theorem contains_eq (hle : start + cnt ≤ b.bitCnt) :
    b.contains start cnt value = bitmapContains b.bits start cnt value := by
  unfold contains bitmapContains
  rw [Bool.eq_iff_iff, List.any_eq_true, List.any_eq_true]
  refine exists_congr fun i => and_congr_right fun hi => ?_
  rw [List.mem_range] at hi
  rw [getElem?_bits, if_pos (by omega)]
  simp

theorem all_eq (hle : start + cnt ≤ b.bitCnt) : b.all start cnt = bitmapAll b.bits start cnt := by
  rw [all, bitmapAll, contains_eq hle]

/-- **`bitmap_scan`** finds what the scan of the bits finds. -/
theorem scan_eq : b.scan start cnt value = bitmapScan b.bits start cnt value := by
  unfold scan bitmapScan
  rw [length_bits]
  split
  · next hle =>
    rw [← List.head?_filter, ← List.head?_filter]
    refine congrArg List.head? (List.filter_congr fun i hi => ?_)
    rw [List.mem_range'_1] at hi
    rw [contains_eq (by omega)]
  · rfl

theorem Ok.create {block : List (BitVec 64)} {bitCnt : Nat} (h : block.length = elemCnt bitCnt) :
    (WordBitmap.create bitCnt block).Ok :=
  Ok.setMultiple (b := { bitCnt := bitCnt, elems := block }) h

@[simp] theorem bitCnt_create {block : List (BitVec 64)} {bitCnt : Nat} :
    (WordBitmap.create bitCnt block).bitCnt = bitCnt := by
  simp [WordBitmap.create]

theorem bits_create {block : List (BitVec 64)} {bitCnt : Nat} (h : block.length = elemCnt bitCnt) :
    (WordBitmap.create bitCnt block).bits = List.replicate bitCnt false := by
  have hok : Ok { bitCnt := bitCnt, elems := block } := h
  rw [WordBitmap.create, bits_setMultiple hok (by simp)]
  refine List.ext_getElem? fun i => ?_
  rw [getElem?_bitmapSetMultiple, List.getElem?_replicate, length_bits]
  by_cases hi : i < bitCnt
  · rw [if_pos ⟨Nat.zero_le i, by omega, hi⟩, if_pos hi]
  · rw [if_neg (by omega), if_neg hi, getElem?_bits, if_neg hi]

/-- `bitmap_read` masks the last word. -/
def maskLast (b : WordBitmap) : WordBitmap :=
  { b with elems := b.elems.modify (elemCnt b.bitCnt - 1) (· &&& b.lastMask) }

theorem getLsbD_lastMask {k : Nat} (hk : k < 64) :
    b.lastMask.getLsbD k = (decide (b.bitCnt % 64 = 0) || decide (k < b.bitCnt % 64)) := by
  unfold lastMask ELEM_BITS
  by_cases h0 : b.bitCnt % 64 = 0
  · rw [if_neg (not_not.mpr h0), BitVec.getLsbD_allOnes]
    simp [h0, hk]
  · have hlt : b.bitCnt % 64 < 64 := Nat.mod_lt _ (by decide)
    have hpow : (1#64 <<< (b.bitCnt % 64) - 1).toNat = 2 ^ (b.bitCnt % 64) - 1 := by
      have hp : 2 ^ (b.bitCnt % 64) < 2 ^ 64 := Nat.pow_lt_pow_right (by decide) hlt
      have hpos : 0 < 2 ^ (b.bitCnt % 64) := Nat.two_pow_pos _
      rw [BitVec.toNat_sub, BitVec.toNat_shiftLeft]
      have h1 : (1#64).toNat = 1 := rfl
      have h1' : (1 : BitVec 64).toNat = 1 := rfl
      rw [h1, h1', Nat.shiftLeft_eq, Nat.one_mul, Nat.mod_eq_of_lt hp]
      omega
    rw [if_pos h0, ← BitVec.testBit_toNat, hpow, Nat.testBit_two_pow_sub_one]
    simp [h0]

theorem bits_maskLast (h : b.Ok) : b.maskLast.bits = b.bits := by
  refine List.ext_getElem? fun i => ?_
  rw [getElem?_bits, getElem?_bits]
  have hcnt : b.maskLast.bitCnt = b.bitCnt := rfl
  rw [hcnt]
  by_cases hi : i < b.bitCnt
  · rw [if_pos hi, if_pos hi, test_eq, test_eq]
    have hlt : elemIdx i < b.elems.length := by
      rw [h, elemIdx, elemCnt, ELEM_BITS]
      omega
    have hi64 : i % 64 < 64 := Nat.mod_lt _ (by decide)
    have hget : b.maskLast.elems.getD (elemIdx i) 0 =
        if elemCnt b.bitCnt - 1 = elemIdx i then b.elems.getD (elemIdx i) 0 &&& b.lastMask
        else b.elems.getD (elemIdx i) 0 := by
      rw [maskLast, List.getD_eq_getElem?_getD, List.getElem?_modify, List.getElem?_eq_getElem hlt,
        List.getD_eq_getElem?_getD, List.getElem?_eq_getElem hlt]
      split <;> simp
    rw [hget]
    split
    · next he =>
      rw [BitVec.getLsbD_and, getLsbD_lastMask hi64]
      have hused : b.bitCnt % 64 = 0 ∨ i % 64 < b.bitCnt % 64 := by
        unfold elemCnt elemIdx ELEM_BITS at he
        omega
      rcases hused with h0 | hl
      · simp [h0]
      · simp [hl]
    · rfl
  · rw [if_neg hi, if_neg hi]

end WordBitmap

end Pintos
