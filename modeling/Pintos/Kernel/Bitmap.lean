import Mathlib.Data.List.Basic

/-!
# `lib/kernel/bitmap.c`

A bitmap is the list of its bits.

* `bitmapScan_some`, `bitmapScan_isSome` — what `bitmap_scan` finds
* `getElem?_bitmapSetMultiple` — the bits after `bitmap_set_multiple`
-/

namespace Pintos

abbrev Bitmap := List Bool

/-- `bitmap_contains`: one of the `cnt` bits from `start` on is `value`. -/
def bitmapContains (b : Bitmap) (start cnt : Nat) (value : Bool) : Bool :=
  (List.range cnt).any fun i => b[start + i]? = some value

def bitmapAll (b : Bitmap) (start cnt : Nat) : Bool := !bitmapContains b start cnt false

def bitmapSetMultiple (b : Bitmap) (start cnt : Nat) (value : Bool) : Bitmap :=
  (List.range cnt).foldl (fun b i => b.set (start + i) value) b

/-- The first of the `cnt` consecutive bits at or after `start` that are all `value`. -/
def bitmapScan (b : Bitmap) (start cnt : Nat) (value : Bool) : Option Nat :=
  if cnt ≤ b.length then
    (List.range' start (b.length - cnt + 1 - start)).find? fun i =>
      !bitmapContains b i cnt (!value)
  else none

def bitmapScanAndFlip (b : Bitmap) (start cnt : Nat) (value : Bool) : Option Nat × Bitmap :=
  match bitmapScan b start cnt value with
  | none => (none, b)
  | some idx => (some idx, bitmapSetMultiple b idx cnt (!value))

variable {b : Bitmap} {start cnt i j : Nat} {value : Bool}

theorem bitmapContains_eq_false :
    bitmapContains b start cnt value = false ↔
      ∀ i, start ≤ i → i < start + cnt → b[i]? ≠ some value := by
  simp only [bitmapContains, List.any_eq_false, List.mem_range, decide_eq_true_eq]
  constructor
  · intro h i hi hlt
    have hsub : start + (i - start) = i := by omega
    have hc := h (i - start) (by omega)
    rwa [hsub] at hc
  · intro h i hi
    exact h (start + i) (by omega) (by omega)

theorem bitmapSetMultiple_succ (b : Bitmap) (start cnt : Nat) (value : Bool) :
    bitmapSetMultiple b start (cnt + 1) value =
      (bitmapSetMultiple b start cnt value).set (start + cnt) value := by
  simp [bitmapSetMultiple, List.range_succ]

@[simp] theorem length_bitmapSetMultiple (b : Bitmap) (start cnt : Nat) (value : Bool) :
    (bitmapSetMultiple b start cnt value).length = b.length := by
  induction cnt with
  | zero => rfl
  | succ cnt ih => rw [bitmapSetMultiple_succ, List.length_set, ih]

theorem getElem?_bitmapSetMultiple (b : Bitmap) (start cnt : Nat) (value : Bool) (i : Nat) :
    (bitmapSetMultiple b start cnt value)[i]? =
      if start ≤ i ∧ i < start + cnt ∧ i < b.length then some value else b[i]? := by
  induction cnt with
  | zero =>
    rw [if_neg (by omega)]
    rfl
  | succ cnt ih =>
    rw [bitmapSetMultiple_succ, List.getElem?_set, length_bitmapSetMultiple, ih]
    by_cases hi : start + cnt = i
    · subst hi
      by_cases hl : start + cnt < b.length
      · rw [if_pos rfl, if_pos hl, if_pos (by omega)]
      · rw [if_pos rfl, if_neg hl, if_neg (by omega)]
        exact (List.getElem?_eq_none (by omega)).symm
    · rw [if_neg hi]
      by_cases hc : start ≤ i ∧ i < start + cnt ∧ i < b.length
      · rw [if_pos hc, if_pos (by omega)]
      · rw [if_neg hc, if_neg (by omega)]

theorem bitmapScan_some (h : bitmapScan b start cnt value = some i) :
    start ≤ i ∧ i + cnt ≤ b.length ∧ ∀ j, i ≤ j → j < i + cnt → b[j]? = some value := by
  unfold bitmapScan at h
  split at h
  · have hmem := List.mem_of_find?_eq_some h
    rw [List.mem_range'_1] at hmem
    have hc : bitmapContains b i cnt (!value) = false := by simpa using List.find?_some h
    refine ⟨hmem.1, by omega, fun j hj hlt => ?_⟩
    have hne := bitmapContains_eq_false.mp hc j hj hlt
    have hjl : j < b.length := by omega
    rw [List.getElem?_eq_getElem hjl] at hne ⊢
    have hv : b[j] ≠ !value := fun hc => hne (by rw [hc])
    cases hbj : b[j] <;> cases value <;> simp_all
  · cases h

/-- No run begins before the one found. -/
theorem bitmapScan_first (h : bitmapScan b start cnt value = some i) (hj : start ≤ j) (hji : j < i) :
    ∃ k, j ≤ k ∧ k < j + cnt ∧ b[k]? ≠ some value := by
  unfold bitmapScan at h
  split at h
  · have hnot := (List.find?_range'_eq_some.mp h).2.2 j hj hji
    rw [Bool.not_not] at hnot
    by_contra hc
    have hnone : bitmapContains b j cnt (!value) = false := by
      rw [bitmapContains_eq_false]
      intro k hk hlt hbit
      refine hc ⟨k, hk, hlt, ?_⟩
      rw [hbit]
      cases value <;> simp
    rw [hnone] at hnot
    cases hnot
  · cases h

/-- A run of bits that are all `value` is found, or an earlier one. -/
theorem bitmapScan_isSome (hi : start ≤ i) (hle : i + cnt ≤ b.length)
    (hrun : ∀ j, i ≤ j → j < i + cnt → b[j]? = some value) : (bitmapScan b start cnt value).isSome := by
  unfold bitmapScan
  rw [if_pos (by omega), List.find?_isSome]
  refine ⟨i, by rw [List.mem_range'_1]; omega, ?_⟩
  rw [Bool.not_eq_true', bitmapContains_eq_false]
  intro j hj hlt
  rw [hrun j hj hlt]
  cases value <;> simp

theorem bitmapScan_none (h : bitmapScan b start 1 value = none) (hi : start ≤ i) :
    b[i]? ≠ some value := by
  intro hv
  have hlt : i < b.length := (List.getElem?_eq_some_iff.mp hv).1
  have hsome : (bitmapScan b start 1 value).isSome := by
    refine bitmapScan_isSome hi (by omega) fun j hj hlt' => ?_
    have hji : j = i := by omega
    rw [hji, hv]
  rw [h] at hsome
  cases hsome

/-- While there are free bits one of them is found. -/
theorem bitmapScan_free (h : 0 < b.count false) :
    ∃ i, bitmapScan b 0 1 false = some i ∧ b[i]? = some false ∧
      (bitmapSetMultiple b i 1 true).count false + 1 = b.count false := by
  obtain ⟨i, hi⟩ : ∃ i, bitmapScan b 0 1 false = some i := by
    cases hs : bitmapScan b 0 1 false with
    | some i => exact ⟨i, rfl⟩
    | none =>
      obtain ⟨j, hj, hbj⟩ := List.mem_iff_getElem.mp (List.count_pos_iff.mp h)
      exact absurd (List.getElem?_eq_some_iff.mpr ⟨hj, hbj⟩) (bitmapScan_none hs (Nat.zero_le j))
  obtain ⟨-, -, hfree⟩ := bitmapScan_some hi
  have hfree := hfree i (Nat.le_refl i) (Nat.lt_succ_self i)
  obtain ⟨hlt, hbi⟩ := List.getElem?_eq_some_iff.mp hfree
  refine ⟨i, hi, hfree, ?_⟩
  have hset : bitmapSetMultiple b i 1 true = b.set i true := rfl
  rw [hset, List.count_set hlt, hbi]
  simp
  omega

end Pintos
