import Mathlib.Order.Interval.Finset.Nat
import Mathlib.Order.Bounds.Basic
import Pintos.Kernel.WordBitmap

/-!
# The calls of `lib/kernel/bitmap.c`

The functions on `struct bitmap` with their assertions and their arithmetic of 64 bits. `none` is a failed `ASSERT`.

* `BitmapCalls.step` — the calls that change a bitmap
* `setMultiple_eq`, `count_eq`, `contains_eq`, `all_eq` — no assertion fails in range, and what they do to the bits
* `scan_eq` — the first run of bits, or `BITMAP_ERROR` if there is none
-/

namespace Pintos

/-- `SIZE_MAX`, which is `UINT32_MAX`. -/
def BITMAP_ERROR : Nat := 2 ^ 32 - 1

/-- `start + cnt` in a `size_t`. -/
def sizeAdd (start cnt : Nat) : Nat := (start + cnt) % 2 ^ 64

/-- A call that changes a bitmap. -/
inductive BitmapCall where
  | mark (bitIdx : Nat)
  | reset (bitIdx : Nat)
  | flip (bitIdx : Nat)
  | setMultiple (start cnt : Nat) (value : Bool)
  | scanAndFlip (start cnt : Nat) (value : Bool)

namespace BitmapCalls

/-- `bitmap_set`. -/
def set (b : WordBitmap) (idx : Nat) (value : Bool) : Option WordBitmap :=
  if idx < b.bitCnt then some (b.set idx value) else none

/-- `bitmap_test`. -/
def test (b : WordBitmap) (idx : Nat) : Option Bool := if idx < b.bitCnt then some (b.test idx) else none

/-- `ASSERT (start <= b->bit_cnt); ASSERT (start + cnt <= b->bit_cnt)`. -/
def inBounds (b : WordBitmap) (start cnt : Nat) : Bool := start ≤ b.bitCnt && sizeAdd start cnt ≤ b.bitCnt

/-- The loop of `bitmap_set_multiple` over `i`, for `n` rounds. -/
def setLoop (start : Nat) (value : Bool) : Nat → Nat → WordBitmap → Option WordBitmap
  | 0, _, b => some b
  | n + 1, i, b => do
    let b ← set b (sizeAdd start i) value
    setLoop start value n (i + 1) b

/-- `bitmap_set_multiple`. -/
def setMultiple (b : WordBitmap) (start cnt : Nat) (value : Bool) : Option WordBitmap :=
  if inBounds b start cnt then setLoop start value cnt 0 b else none

/-- The loop of `bitmap_count`. -/
def countLoop (b : WordBitmap) (start : Nat) (value : Bool) : Nat → Nat → Nat → Option Nat
  | 0, _, valueCnt => some valueCnt
  | n + 1, i, valueCnt => do
    let bit ← test b (sizeAdd start i)
    countLoop b start value n (i + 1) (if bit = value then valueCnt + 1 else valueCnt)

/-- `bitmap_count`. -/
def count (b : WordBitmap) (start cnt : Nat) (value : Bool) : Option Nat :=
  if inBounds b start cnt then countLoop b start value cnt 0 0 else none

/-- The loop of `bitmap_contains`. -/
def containsLoop (b : WordBitmap) (start : Nat) (value : Bool) : Nat → Nat → Option Bool
  | 0, _ => some false
  | n + 1, i => do
    let bit ← test b (sizeAdd start i)
    if bit = value then some true else containsLoop b start value n (i + 1)

/-- `bitmap_contains`. -/
def contains (b : WordBitmap) (start cnt : Nat) (value : Bool) : Option Bool :=
  if inBounds b start cnt then containsLoop b start value cnt 0 else none

/-- `bitmap_all`. -/
def all (b : WordBitmap) (start cnt : Nat) : Option Bool := do
  let c ← contains b start cnt false
  some !c

/-- The loop of `bitmap_scan` over `i`, for `n` rounds. -/
def scanLoop (b : WordBitmap) (cnt : Nat) (value : Bool) : Nat → Nat → Option Nat
  | 0, _ => some BITMAP_ERROR
  | n + 1, i => do
    let c ← contains b i cnt (!value)
    if !c then some i else scanLoop b cnt value n (i + 1)

/-- `bitmap_scan`. -/
def scan (b : WordBitmap) (start cnt : Nat) (value : Bool) : Option Nat :=
  if b.bitCnt < start then none
  else if cnt ≤ b.bitCnt then
    let last := b.bitCnt - cnt
    scanLoop b cnt value (last + 1 - start) start
  else some BITMAP_ERROR

/-- `bitmap_scan_and_flip`. -/
def scanAndFlip (b : WordBitmap) (start cnt : Nat) (value : Bool) : Option (WordBitmap × Nat) := do
  let idx ← scan b start cnt value
  if idx ≠ BITMAP_ERROR then do
    let b ← setMultiple b idx cnt (!value)
    some (b, idx)
  else some (b, idx)

/-- One call, and what `bitmap_scan_and_flip` returns. -/
def step (b : WordBitmap) : BitmapCall → Option (WordBitmap × Option Nat)
  | .mark bitIdx => some (b.mark bitIdx, none)
  | .reset bitIdx => some (b.reset bitIdx, none)
  | .flip bitIdx => some (b.flip bitIdx, none)
  | .setMultiple start cnt value => (setMultiple b start cnt value).map fun b => (b, none)
  | .scanAndFlip start cnt value => (scanAndFlip b start cnt value).map fun out => (out.1, some out.2)

/-- The calls in order, and what each one returns. -/
def run : WordBitmap → List BitmapCall → Option (WordBitmap × List (Option Nat))
  | b, [] => some (b, [])
  | b, c :: cs => do
    let out ← step b c
    let rest ← run out.1 cs
    some (rest.1, out.2 :: rest.2)

/-! ## In range no assertion fails -/

variable {b : WordBitmap} {start cnt i k c : Nat} {value : Bool}

theorem inBounds_eq_true (hn : b.bitCnt < 2 ^ 64) (hle : start + cnt ≤ b.bitCnt) : inBounds b start cnt = true := by
  have hadd : sizeAdd start cnt = start + cnt := Nat.mod_eq_of_lt (by omega)
  rw [inBounds, hadd, Bool.and_eq_true, decide_eq_true_iff, decide_eq_true_iff]
  omega

theorem test_sizeAdd (hn : b.bitCnt < 2 ^ 64) (hi : start + i < b.bitCnt) :
    test b (sizeAdd start i) = some (b.test (start + i)) := by
  have hadd : sizeAdd start i = start + i := Nat.mod_eq_of_lt (by omega)
  rw [hadd, test, if_pos hi]

theorem setLoop_eq : ∀ {k i : Nat} {b : WordBitmap}, b.bitCnt < 2 ^ 64 → start + i + k ≤ b.bitCnt →
    setLoop start value k i b = some ((List.range' i k).foldl (fun b i => b.set (start + i) value) b)
  | 0, _, _, _, _ => rfl
  | k + 1, i, b, hn, hle => by
    have hadd : sizeAdd start i = start + i := Nat.mod_eq_of_lt (by omega)
    have hset : set b (start + i) value = some (b.set (start + i) value) := if_pos (by omega)
    rw [setLoop, hadd, hset, List.range'_succ, List.foldl_cons]
    exact setLoop_eq (by rw [WordBitmap.bitCnt_set]; exact hn) (by rw [WordBitmap.bitCnt_set]; omega)

/-- **`bitmap_set_multiple`.** -/
theorem setMultiple_eq (hn : b.bitCnt < 2 ^ 64) (hle : start + cnt ≤ b.bitCnt) :
    setMultiple b start cnt value = some (b.setMultiple start cnt value) := by
  rw [setMultiple, if_pos (inBounds_eq_true hn hle), setLoop_eq hn (by omega), ← List.range_eq_range']
  rfl

theorem countLoop_eq (hn : b.bitCnt < 2 ^ 64) : ∀ {k i c : Nat}, start + i + k ≤ b.bitCnt →
    countLoop b start value k i c =
      some (c + ((Finset.Ico (start + i) (start + i + k)).filter fun j => b.test j = value).card)
  | 0, i, c, _ => by
    rw [countLoop, Nat.add_zero, Finset.Ico_self]
    rfl
  | k + 1, i, c, hle => by
    have hsplit : Finset.Ico (start + i) (start + i + (k + 1)) =
        insert (start + i) (Finset.Ico (start + (i + 1)) (start + (i + 1) + k)) := by
      ext j
      simp only [Finset.mem_insert, Finset.mem_Ico]
      omega
    have hnot : start + i ∉ (Finset.Ico (start + (i + 1)) (start + (i + 1) + k)).filter fun j => b.test j = value := by
      simp only [Finset.mem_filter, Finset.mem_Ico, not_and]
      omega
    rw [countLoop, test_sizeAdd hn (by omega), hsplit, Finset.filter_insert]
    show countLoop b start value k (i + 1) (if b.test (start + i) = value then c + 1 else c) = _
    rw [countLoop_eq hn (by omega)]
    split
    · rw [Finset.card_insert_of_notMem hnot]
      congr 1
      omega
    · rfl

/-- **`bitmap_count`.** -/
theorem count_eq (hn : b.bitCnt < 2 ^ 64) (hle : start + cnt ≤ b.bitCnt) :
    count b start cnt value = some ((Finset.Ico start (start + cnt)).filter fun j => b.test j = value).card := by
  rw [count, if_pos (inBounds_eq_true hn hle), countLoop_eq hn (by omega), Nat.zero_add, Nat.add_zero]

theorem containsLoop_eq (hn : b.bitCnt < 2 ^ 64) : ∀ {k i : Nat}, start + i + k ≤ b.bitCnt →
    containsLoop b start value k i = some ((List.range' i k).any fun i => b.test (start + i) = value)
  | 0, _, _ => rfl
  | k + 1, i, hle => by
    rw [containsLoop, test_sizeAdd hn (by omega), List.range'_succ, List.any_cons]
    show (if b.test (start + i) = value then _ else _) = _
    split
    · next hv => rw [decide_eq_true hv, Bool.true_or]
    · next hv => rw [containsLoop_eq hn (by omega), decide_eq_false hv, Bool.false_or]

/-- **`bitmap_contains`.** -/
theorem contains_eq (hn : b.bitCnt < 2 ^ 64) (hle : start + cnt ≤ b.bitCnt) :
    contains b start cnt value = some (b.contains start cnt value) := by
  rw [contains, if_pos (inBounds_eq_true hn hle), containsLoop_eq hn (by omega), ← List.range_eq_range']
  rfl

/-- **`bitmap_all`.** -/
theorem all_eq (hn : b.bitCnt < 2 ^ 64) (hle : start + cnt ≤ b.bitCnt) : all b start cnt = some (b.all start cnt) := by
  rw [all, contains_eq hn hle]
  rfl

theorem scanLoop_eq (hn : b.bitCnt < 2 ^ 64) : ∀ {k i : Nat}, i + k + cnt ≤ b.bitCnt + 1 →
    scanLoop b cnt value k i =
      some (((List.range' i k).find? fun i => !b.contains i cnt (!value)).getD BITMAP_ERROR)
  | 0, _, _ => rfl
  | k + 1, i, hle => by
    rw [scanLoop, contains_eq hn (by omega), List.range'_succ, List.find?_cons]
    show (if (!b.contains i cnt (!value)) = true then _ else _) = _
    split
    · next hc =>
      rw [hc]
      rfl
    · next hc =>
      rw [Bool.not_eq_true] at hc
      rw [hc, scanLoop_eq hn (by omega)]

/-- **`bitmap_scan`.** -/
theorem scan_eq (hn : b.bitCnt < 2 ^ 64) (hle : start ≤ b.bitCnt) (cnt : Nat) (value : Bool) :
    scan b start cnt value = some ((b.scan start cnt value).getD BITMAP_ERROR) := by
  rw [scan, if_neg (Nat.not_lt.mpr hle), WordBitmap.scan]
  by_cases hc : cnt ≤ b.bitCnt
  · rw [if_pos hc, if_pos hc]
    by_cases hlast : start ≤ b.bitCnt - cnt + 1
    · exact scanLoop_eq hn (by omega)
    · have hnone : b.bitCnt - cnt + 1 - start = 0 := by omega
      show scanLoop b cnt value (b.bitCnt - cnt + 1 - start) start = _
      rw [hnone]
      rfl
  · rw [if_neg hc, if_neg hc]
    rfl

end BitmapCalls

end Pintos
