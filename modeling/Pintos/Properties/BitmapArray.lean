import Mathlib.Logic.Function.Basic
import Mathlib.Order.Lattice.Nat
import Pintos.Kernel.BitmapCalls
import Pintos.Lib.KeyedMap

/-!
# The bitmap is an array of bits

* `arrayStep` — the calls on a function from indices to bits
* `scan_spec` — `bitmap_scan` finds the least run
* `bitmap_refines_array` — **every sequence of calls does to the words what it does to the function**
-/

namespace Pintos

open Function

/-- The bits from `start` up to `start + cnt` are `value`. -/
def setBits (f : Nat → Bool) (start cnt : Nat) (value : Bool) : Nat → Bool :=
  fun j => if start ≤ j ∧ j < start + cnt then value else f j

/-- Where `cnt` bits in a row are `value`, of `n` bits and at or after `start`. -/
def runsOf (f : Nat → Bool) (n start cnt : Nat) (value : Bool) : Set Nat :=
  {i | start ≤ i ∧ i + cnt ≤ n ∧ ∀ j, i ≤ j → j < i + cnt → f j = value}

open Classical in
/-- The least of them. -/
noncomputable def firstRun (f : Nat → Bool) (n start cnt : Nat) (value : Bool) : Option Nat :=
  if (runsOf f n start cnt value).Nonempty then some (sInf (runsOf f n start cnt value)) else none

/-- A call on an array of `n` bits, and what it returns. -/
noncomputable def arrayStep (n : Nat) (f : Nat → Bool) : BitmapCall → (Nat → Bool) × Option Nat
  | .mark i => (update f i true, none)
  | .reset i => (update f i false, none)
  | .flip i => (update f i (!f i), none)
  | .setMultiple start cnt value => (setBits f start cnt value, none)
  | .scanAndFlip start cnt value =>
    match firstRun f n start cnt value with
    | some i => (setBits f i cnt (!value), some i)
    | none => (f, some BITMAP_ERROR)

/-- The call names bits of a map of `n` bits. -/
def BitmapCall.InRange (n : Nat) : BitmapCall → Prop
  | .mark i => i < n
  | .reset i => i < n
  | .flip i => i < n
  | .setMultiple start cnt _ => start + cnt ≤ n
  | .scanAndFlip start _ _ => start ≤ n

section

variable {b : WordBitmap} {f : Nat → Bool} {n start cnt i : Nat} {value : Bool} {c : BitmapCall}

/-! ## The least run -/

theorem firstRun_eq_some (h : IsLeast (runsOf f n start cnt value) i) : firstRun f n start cnt value = some i := by
  have hne : (runsOf f n start cnt value).Nonempty := ⟨i, h.1⟩
  rw [firstRun, if_pos hne, h.csInf_eq]

theorem firstRun_eq_none (h : runsOf f n start cnt value = ∅) : firstRun f n start cnt value = none := by
  rw [firstRun, h, if_neg Set.not_nonempty_empty]

theorem bits_eq_some (hi : i < b.bitCnt) : b.bits[i]? = some value ↔ b.test i = value := by
  rw [WordBitmap.getElem?_bits, if_pos hi, Option.some_inj]

/-- **`bitmap_scan` finds the least run**, and there is none if it finds none. -/
theorem scan_spec (b : WordBitmap) (start cnt : Nat) (value : Bool) :
    (∃ i, b.scan start cnt value = some i ∧ IsLeast (runsOf b.test b.bitCnt start cnt value) i) ∨
    b.scan start cnt value = none ∧ runsOf b.test b.bitCnt start cnt value = ∅ := by
  rw [WordBitmap.scan_eq]
  cases hs : bitmapScan b.bits start cnt value with
  | some i =>
    obtain ⟨hstart, hle, hrun⟩ := bitmapScan_some hs
    rw [WordBitmap.length_bits] at hle
    refine .inl ⟨i, rfl, ⟨hstart, hle, fun j hj hlt => (bits_eq_some (by omega)).mp (hrun j hj hlt)⟩, ?_⟩
    rintro k ⟨hk, hkle, hkrun⟩
    by_contra hki
    obtain ⟨j, hj, hlt, hne⟩ := bitmapScan_first hs hk (Nat.not_le.mp hki)
    exact hne ((bits_eq_some (by omega)).mpr (hkrun j hj hlt))
  | none =>
    refine .inr ⟨rfl, Set.eq_empty_of_forall_notMem ?_⟩
    rintro i ⟨hstart, hle, hrun⟩
    have hsome : (bitmapScan b.bits start cnt value).isSome := by
      refine bitmapScan_isSome hstart (by rwa [WordBitmap.length_bits]) fun j hj hlt => ?_
      exact (bits_eq_some (by omega)).mpr (hrun j hj hlt)
    rw [hs] at hsome
    cases hsome

/-! ## One call -/

theorem test_set_eq (hok : b.Ok) (hi : i < b.bitCnt) : (b.set i value).test = update b.test i value := by
  funext j
  rw [WordBitmap.test_set hok hi, update_apply]

theorem test_setMultiple_eq (hok : b.Ok) (hle : start + cnt ≤ b.bitCnt) :
    (b.setMultiple start cnt value).test = setBits b.test start cnt value := by
  funext j
  rw [WordBitmap.test_setMultiple hok hle, setBits]

theorem contains_eq_decide (b : WordBitmap) (start cnt : Nat) (value : Bool) :
    b.contains start cnt value = decide (∃ j ∈ Finset.Ico start (start + cnt), b.test j = value) := by
  rw [WordBitmap.contains, Bool.eq_iff_iff, List.any_eq_true, decide_eq_true_iff]
  constructor
  · rintro ⟨k, hk, hv⟩
    rw [List.mem_range] at hk
    exact ⟨start + k, Finset.mem_Ico.mpr (by omega), of_decide_eq_true hv⟩
  · rintro ⟨j, hj, hv⟩
    rw [Finset.mem_Ico] at hj
    have hadd : start + (j - start) = j := by omega
    refine ⟨j - start, List.mem_range.mpr (by omega), ?_⟩
    rw [hadd]
    exact decide_eq_true hv

/-- **One call**: no assertion fails, and each bit is that of the function. -/
theorem step_refines (hok : b.Ok) (hn : b.bitCnt < BITMAP_ERROR) (hc : c.InRange b.bitCnt) :
    ∃ b', BitmapCalls.step b c = some (b', (arrayStep b.bitCnt b.test c).2) ∧ b'.Ok ∧ b'.bitCnt = b.bitCnt ∧
      b'.test = (arrayStep b.bitCnt b.test c).1 := by
  have hn64 : b.bitCnt < 2 ^ 64 := lt_trans hn (by decide)
  cases c with
  | mark i => exact ⟨b.set i true, rfl, hok.set, WordBitmap.bitCnt_set, test_set_eq hok hc⟩
  | reset i => exact ⟨b.set i false, rfl, hok.set, WordBitmap.bitCnt_set, test_set_eq hok hc⟩
  | flip i =>
    refine ⟨b.flip i, rfl, hok.flip, rfl, ?_⟩
    funext j
    show (b.flip i).test j = update b.test i (!b.test i) j
    rw [WordBitmap.test_flip hok hc, update_apply]
  | setMultiple start cnt value =>
    refine ⟨b.setMultiple start cnt value, ?_, hok.setMultiple, WordBitmap.bitCnt_setMultiple,
      test_setMultiple_eq hok hc⟩
    rw [BitmapCalls.step, BitmapCalls.setMultiple_eq hn64 hc]
    rfl
  | scanAndFlip start cnt value =>
    have hscan := BitmapCalls.scan_eq hn64 hc cnt value
    rw [arrayStep, BitmapCalls.step, BitmapCalls.scanAndFlip, hscan]
    rcases scan_spec b start cnt value with ⟨i, hs, hleast⟩ | ⟨hs, hempty⟩
    · have hle : i + cnt ≤ b.bitCnt := hleast.1.2.1
      have hne : i ≠ BITMAP_ERROR := by omega
      refine ⟨b.setMultiple i cnt (!value), ?_, hok.setMultiple, WordBitmap.bitCnt_setMultiple, ?_⟩
      · rw [hs, firstRun_eq_some hleast]
        show Option.map _ (if i ≠ BITMAP_ERROR then BitmapCalls.setMultiple b i cnt (!value) >>= _ else _) = _
        rw [if_pos hne, BitmapCalls.setMultiple_eq hn64 hle]
        rfl
      · rw [firstRun_eq_some hleast]
        exact test_setMultiple_eq hok hle
    · rw [hs, firstRun_eq_none hempty]
      exact ⟨b, rfl, hok, rfl, rfl⟩

/-! ## Every sequence of calls -/

theorem run_refines : ∀ {cs : List BitmapCall} {b : WordBitmap}, b.Ok → b.bitCnt < BITMAP_ERROR →
    (∀ c ∈ cs, c.InRange b.bitCnt) →
    ∃ b', BitmapCalls.run b cs = some (b', (Mealy.run (arrayStep b.bitCnt) b.test cs).2) ∧ b'.Ok ∧
      b'.bitCnt = b.bitCnt ∧ b'.test = (Mealy.run (arrayStep b.bitCnt) b.test cs).1
  | [], b, hok, _, _ => ⟨b, rfl, hok, rfl, rfl⟩
  | c :: cs, b, hok, hn, hcs => by
    obtain ⟨b₁, hstep, hok₁, hcnt₁, htest₁⟩ := step_refines hok hn (hcs c List.mem_cons_self)
    obtain ⟨b', hrun, hok', hcnt', htest'⟩ := run_refines hok₁ (hcnt₁ ▸ hn)
      fun c hc => hcnt₁ ▸ hcs c (List.mem_cons_of_mem _ hc)
    rw [hcnt₁, htest₁] at hrun htest'
    refine ⟨b', ?_, hok', hcnt'.trans hcnt₁, htest'⟩
    rw [BitmapCalls.run, hstep]
    show (BitmapCalls.run b₁ cs >>= fun rest => _) = _
    rw [hrun]
    rfl

/--
**The bitmap is an array of bits.** In every sequence of calls on bits of the map no assertion fails, and the words hold
the bits of the function to which the same calls were made, those that no call names included; `bitmap_test`,
`bitmap_count`, `bitmap_contains` and `bitmap_all` agree with it, and `bitmap_scan` returns the least run of bits, or
`BITMAP_ERROR` if and only if there is none.
-/
theorem bitmap_refines_array {cs : List BitmapCall} (hok : b.Ok) (hn : b.bitCnt < 2 ^ 32 - 1)
    (hcs : ∀ c ∈ cs, c.InRange b.bitCnt) :
    ∃ (b' : WordBitmap) (f : Nat → Bool) (results : List (Option Nat)),
      BitmapCalls.run b cs = some (b', results) ∧ Mealy.run (arrayStep b.bitCnt) b.test cs = (f, results) ∧
      b'.Ok ∧ b'.bitCnt = b.bitCnt ∧ b'.test = f ∧
      (∀ i < b.bitCnt, BitmapCalls.test b' i = some (f i)) ∧
      (∀ start cnt value, start + cnt ≤ b.bitCnt →
        BitmapCalls.count b' start cnt value =
          some ((Finset.Ico start (start + cnt)).filter fun j => f j = value).card ∧
        BitmapCalls.contains b' start cnt value = some (decide (∃ j ∈ Finset.Ico start (start + cnt), f j = value)) ∧
        BitmapCalls.all b' start cnt = some (decide (∀ j ∈ Finset.Ico start (start + cnt), f j = true))) ∧
      ∀ start cnt value, start ≤ b.bitCnt → ∃ r, BitmapCalls.scan b' start cnt value = some r ∧
        (r = BITMAP_ERROR ↔ runsOf f b.bitCnt start cnt value = ∅) ∧
        (r ≠ BITMAP_ERROR → IsLeast (runsOf f b.bitCnt start cnt value) r) := by
  obtain ⟨b', hrun, hok', hcnt, htest⟩ := run_refines hok hn hcs
  have hn64 : b'.bitCnt < 2 ^ 64 := by
    rw [hcnt]
    exact lt_trans hn (by decide)
  refine ⟨b', _, _, hrun, rfl, hok', hcnt, htest, fun i hi => ?_, fun start cnt value hle => ?_,
    fun start cnt value hle => ?_⟩
  · rw [← htest]
    exact if_pos (by rwa [hcnt])
  · rw [← hcnt] at hle
    rw [← htest, BitmapCalls.count_eq hn64 hle, BitmapCalls.contains_eq hn64 hle, BitmapCalls.all_eq hn64 hle,
      WordBitmap.all, contains_eq_decide, contains_eq_decide, ← decide_not]
    simp
  · rw [← hcnt] at hle
    rw [← htest, ← hcnt, BitmapCalls.scan_eq hn64 hle]
    rcases scan_spec b' start cnt value with ⟨i, hs, hleast⟩ | ⟨hs, hempty⟩
    · have hi : i + cnt ≤ b'.bitCnt := hleast.1.2.1
      have hne : i ≠ BITMAP_ERROR := by
        unfold BITMAP_ERROR
        omega
      refine ⟨i, by rw [hs]; rfl, iff_of_false hne ?_, fun _ => hleast⟩
      exact (show (runsOf b'.test b'.bitCnt start cnt value).Nonempty from ⟨i, hleast.1⟩).ne_empty
    · exact ⟨BITMAP_ERROR, by rw [hs]; rfl, iff_of_true rfl hempty, fun hc => absurd rfl hc⟩

/-- A map of 70 bits, which fill one word and a part of the next. -/
theorem bitmap_refines_array_seventy :
    ∃ (b' : WordBitmap) (results : List (Option Nat)),
      BitmapCalls.run (WordBitmap.create 70 [5, 7]) [.mark 65, .scanAndFlip 60 5 false, .scanAndFlip 60 5 false] =
        some (b', results) ∧
      ∃ r, BitmapCalls.scan b' 0 70 false = some r ∧
        (r = BITMAP_ERROR ↔ runsOf b'.test 70 0 70 false = ∅) := by
  have hok : (WordBitmap.create 70 [5, 7]).Ok := WordBitmap.Ok.create rfl
  have hcnt : (WordBitmap.create 70 [5, 7]).bitCnt = 70 := WordBitmap.bitCnt_create
  have hcs : ∀ c ∈ [BitmapCall.mark 65, .scanAndFlip 60 5 false, .scanAndFlip 60 5 false],
      c.InRange (WordBitmap.create 70 [5, 7]).bitCnt := by
    rw [hcnt]
    simp [BitmapCall.InRange]
  obtain ⟨b', f, results, hrun, -, -, -, htest, -, -, hscan⟩ :=
    bitmap_refines_array hok (by rw [hcnt]; decide) hcs
  obtain ⟨r, hr, hiff, -⟩ := hscan 0 70 false (Nat.zero_le _)
  rw [← htest, hcnt] at hiff
  exact ⟨b', results, hrun, r, hr, hiff⟩

end

end Pintos
