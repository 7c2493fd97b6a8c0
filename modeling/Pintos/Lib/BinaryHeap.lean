import Mathlib.Data.List.Nodup
import Mathlib.Data.List.Perm.Subperm
import Mathlib.Data.List.Range
import Mathlib.Logic.Equiv.Basic
import Mathlib.Order.Defs.Unbundled

/-!
# Binary heaps

The elements of an array from position 1 on; the children of position `p` are `2 * p` and `2 * p + 1`. Nothing here is
about one program.

* `HeapFrom` — no child of a position from `lo` on is larger than its parent
* `HeapBut`, `HeapBut.move`, `HeapBut.done` — an element that may be too small goes down to its place
* `Drained`, `Drained.step` — the elements behind the heap are in order, and none of the heap is larger
* `Rearranged`, `Rearranged.perm` — the elements up to `n` change places
-/

namespace BinaryHeap

variable {α : Type*} {le : α → α → Prop} {f f' f'' : Nat → α} {lo n m N i j : Nat}

def IsChild (c p : Nat) : Prop := c = 2 * p ∨ c = 2 * p + 1

/-- No child of a position from `lo` on is larger than its parent. -/
def HeapFrom (le : α → α → Prop) (f : Nat → α) (lo n : Nat) : Prop :=
  ∀ p c, lo ≤ p → IsChild c p → c ≤ n → le (f c) (f p)

/-- A heap, but the element at `i` may be smaller than its children. -/
structure HeapBut (le : α → α → Prop) (f : Nat → α) (lo n i : Nat) : Prop where
  lo_le : lo ≤ i
  rest : ∀ p c, lo ≤ p → p ≠ i → IsChild c p → c ≤ n → le (f c) (f p)
  above : ∀ p c, lo ≤ p → IsChild i p → IsChild c i → c ≤ n → le (f c) (f p)

/-- The elements from `n + 1` to `N` are in order, and those up to `n` are not larger. -/
structure Drained (le : α → α → Prop) (f : Nat → α) (n N : Nat) : Prop where
  sorted : ∀ i j, n < i → i < j → j ≤ N → le (f i) (f j)
  below : ∀ i j, 1 ≤ i → i ≤ n → n < j → j ≤ N → le (f i) (f j)

/-- The elements at `i` and `j` are exchanged. -/
def Swapped (i j N : Nat) (f f' : Nat → α) : Prop := ∀ k, 1 ≤ k → k ≤ N → f' k = f (Equiv.swap i j k)

/-- The elements up to `n` change places. -/
def Rearranged (n N : Nat) (f f' : Nat → α) : Prop :=
  ∃ σ : Equiv.Perm Nat, (∀ k, 1 ≤ k → k ≤ n → 1 ≤ σ k ∧ σ k ≤ n) ∧ (∀ k, n < k → σ k = k) ∧
    ∀ k, 1 ≤ k → k ≤ N → f' k = f (σ k)

/-! ## Exchanges -/

theorem Swapped.left (h : Swapped i j N f f') (h1 : 1 ≤ i) (hi : i ≤ N) : f' i = f j := by
  rw [h i h1 hi, Equiv.swap_apply_left]

theorem Swapped.right (h : Swapped i j N f f') (h1 : 1 ≤ j) (hj : j ≤ N) : f' j = f i := by
  rw [h j h1 hj, Equiv.swap_apply_right]

theorem Swapped.other {k : Nat} (h : Swapped i j N f f') (h1 : 1 ≤ k) (hk : k ≤ N) (hi : k ≠ i) (hj : k ≠ j) :
    f' k = f k := by
  rw [h k h1 hk, Equiv.swap_apply_of_ne_of_ne hi hj]

theorem Swapped.rearranged (h : Swapped i j N f f') (hi1 : 1 ≤ i) (hi : i ≤ n) (hj1 : 1 ≤ j) (hj : j ≤ n) :
    Rearranged n N f f' := by
  refine ⟨Equiv.swap i j, fun k h1 hk => ?_, fun k hk => ?_, h⟩
  · rw [Equiv.swap_apply_def]
    split
    · exact ⟨hj1, hj⟩
    · split
      · exact ⟨hi1, hi⟩
      · exact ⟨h1, hk⟩
  · exact Equiv.swap_apply_of_ne_of_ne (by omega) (by omega)

theorem Rearranged.refl (n N : Nat) (f : Nat → α) : Rearranged n N f f :=
  ⟨Equiv.refl Nat, fun _ h1 hk => ⟨h1, hk⟩, fun _ _ => rfl, fun _ _ _ => rfl⟩

theorem Rearranged.trans (hn : n ≤ N) (h : Rearranged n N f f') (h' : Rearranged n N f' f'') :
    Rearranged n N f f'' := by
  obtain ⟨σ, hin, hout, hf⟩ := h
  obtain ⟨τ, hin', hout', hf'⟩ := h'
  refine ⟨τ.trans σ, fun k h1 hk => ?_, fun k hk => ?_, fun k h1 hk => ?_⟩
  · exact hin _ (hin' k h1 hk).1 (hin' k h1 hk).2
  · rw [Equiv.trans_apply, hout' k hk, hout k hk]
  · rw [hf' k h1 hk, Equiv.trans_apply]
    by_cases hkn : k ≤ n
    · exact hf _ (hin' k h1 hkn).1 ((hin' k h1 hkn).2.trans hn)
    · rw [hout' k (by omega)]
      exact hf k h1 hk

theorem Rearranged.mono (hm : n ≤ m) (h : Rearranged n N f f') : Rearranged m N f f' := by
  obtain ⟨σ, hin, hout, hf⟩ := h
  refine ⟨σ, fun k h1 hk => ?_, fun k hk => hout k (by omega), hf⟩
  by_cases hkn : k ≤ n
  · exact ⟨(hin k h1 hkn).1, (hin k h1 hkn).2.trans hm⟩
  · rw [hout k (by omega)]
    exact ⟨h1, hk⟩

/-- The same elements, in another order. -/
theorem Rearranged.perm (h : Rearranged n n f f') : ((List.range' 1 n).map f').Perm ((List.range' 1 n).map f) := by
  obtain ⟨σ, hin, -, hf⟩ := h
  have hmap : (List.range' 1 n).map f' = ((List.range' 1 n).map σ).map f := by
    rw [List.map_map]
    refine List.map_congr_left fun k hk => ?_
    obtain ⟨h1, hlt⟩ := List.mem_range'_1.mp hk
    exact hf k h1 (by omega)
  have hsub : (List.range' 1 n).map σ ⊆ List.range' 1 n := by
    intro x hx
    obtain ⟨k, hk, rfl⟩ := List.mem_map.mp hx
    obtain ⟨h1, hlt⟩ := List.mem_range'_1.mp hk
    obtain ⟨h1', hle⟩ := hin k h1 (by omega)
    exact List.mem_range'_1.mpr ⟨h1', by omega⟩
  have hperm : ((List.range' 1 n).map σ).Perm (List.range' 1 n) :=
    ((List.Nodup.map σ.injective List.nodup_range').subperm hsub).perm_of_length_le (by rw [List.length_map])
  rw [hmap]
  exact hperm.map f

/-! ## The heap -/

/-- The element goes down to the place of its larger child. -/
theorem HeapBut.move (h : HeapBut le f lo n i) (hlo : 1 ≤ lo) (hm : IsChild m i) (hmn : m ≤ n) (hle : le (f i) (f m))
    (hmax : ∀ c, IsChild c i → c ≤ n → le (f c) (f m)) (hN : n ≤ N) (hs : Swapped i m N f f') :
    HeapBut le f' lo n m := by
  have hi := h.lo_le
  have him : i < m := by
    rcases hm with rfl | rfl <;> omega
  have hfi : f' i = f m := hs.left (by omega) (by omega)
  have hfm : f' m = f i := hs.right (by omega) (by omega)
  refine ⟨by omega, fun p c hp hpm hc hcn => ?_, fun p c hp hmp hc hcn => ?_⟩
  · have hpc : p < c := by
      rcases hc with rfl | rfl <;> omega
    by_cases hpi : p = i
    · subst hpi
      rw [hfi]
      by_cases hcm : c = m
      · rwa [hcm, hfm]
      · rw [hs.other (by omega) (by omega) (by omega) hcm]
        exact hmax c hc hcn
    · rw [hs.other (k := p) (by omega) (by omega) hpi hpm]
      by_cases hci : c = i
      · subst hci
        rw [hfi]
        exact h.above p m hp hc hm hmn
      · have hcm : c ≠ m := by
          rintro rfl
          rcases hc with hc | hc <;> rcases hm with hm | hm <;> omega
        rw [hs.other (by omega) (by omega) hci hcm]
        exact h.rest p c hp hpi hc hcn
  · -- the parent of `m` is `i`
    have hpi : p = i := by
      rcases hmp with hmp | hmp <;> rcases hm with hm | hm <;> omega
    have hmc : m < c := by
      rcases hc with rfl | rfl <;> omega
    rw [hpi, hfi, hs.other (by omega) (by omega) (by omega) (by omega)]
    exact h.rest m c (by omega) (by omega) hc hcn

theorem HeapBut.done (h : HeapBut le f lo n i) (hmax : ∀ c, IsChild c i → c ≤ n → le (f c) (f i)) :
    HeapFrom le f lo n := by
  intro p c hp hc hcn
  by_cases hpi : p = i
  · subst hpi
    exact hmax c hc hcn
  · exact h.rest p c hp hpi hc hcn

/-- The position before a heap. -/
theorem HeapFrom.but (h : HeapFrom le f (i + 1) n) (hi : 1 ≤ i) : HeapBut le f i n i where
  lo_le := le_rfl
  rest := fun p c hp hpi hc hcn => h p c (by omega) hc hcn
  above := fun p _ hp hip _ _ => by rcases hip with hip | hip <;> omega

/-- Nothing is larger than the root. -/
theorem HeapFrom.le_root [IsPreorder α le] (h : HeapFrom le f 1 n) {k : Nat} (hk1 : 1 ≤ k) (hk : k ≤ n) :
    le (f k) (f 1) := by
  induction k using Nat.strong_induction_on with
  | _ k ih =>
    by_cases hone : k = 1
    · rw [hone]
      exact Std.Refl.refl _
    · have hchild : IsChild k (k / 2) := by
        unfold IsChild
        omega
      exact IsTrans.trans _ _ _ (h (k / 2) k (by omega) hchild hk) (ih (k / 2) (by omega) (by omega) (by omega))

/-- The last element goes to the root, and the root behind the heap. -/
theorem HeapFrom.swapRoot (h : HeapFrom le f 1 (n + 1)) (hN : n + 1 ≤ N) (hs : Swapped 1 (n + 1) N f f') :
    HeapBut le f' 1 n 1 where
  lo_le := le_rfl
  rest := fun p c hp hp1 hc hcn => by
    have hpc : p < c := by
      rcases hc with rfl | rfl <;> omega
    rw [hs.other (by omega) (by omega) (by omega) (by omega), hs.other (by omega) (by omega) hp1 (by omega)]
    exact h p c hp hc (by omega)
  above := fun p _ hp hip _ _ => by rcases hip with hip | hip <;> omega

/-! ## The elements behind the heap -/

theorem Drained.rearranged (h : Drained le f n N) (hr : Rearranged n N f f') : Drained le f' n N := by
  obtain ⟨σ, hin, hout, hf⟩ := hr
  refine ⟨fun i j hi hij hj => ?_, fun i j hi1 hi hj hjN => ?_⟩
  · rw [hf i (by omega) (by omega), hf j (by omega) hj, hout i hi, hout j (by omega)]
    exact h.sorted i j hi hij hj
  · rw [hf i hi1 (by omega), hf j (by omega) hjN, hout j hj]
    exact h.below _ j (hin i hi1 hi).1 (hin i hi1 hi).2 hj hjN

theorem Drained.step [IsPreorder α le] (h : Drained le f (n + 1) N) (hheap : HeapFrom le f 1 (n + 1)) (hN : n + 1 ≤ N)
    (hs : Swapped 1 (n + 1) N f f') : Drained le f' n N := by
  have hlast : f' (n + 1) = f 1 := hs.right (by omega) hN
  have hother : ∀ j, n + 1 < j → j ≤ N → f' j = f j := fun j hj hjN =>
    hs.other (by omega) hjN (by omega) (by omega)
  refine ⟨fun i j hi hij hj => ?_, fun i j hi1 hi hj hjN => ?_⟩
  · rw [hother j (by omega) hj]
    rcases Nat.eq_or_lt_of_le hi with rfl | hi
    · rw [hlast]
      exact h.below 1 j le_rfl (by omega) hij hj
    · rw [hother i hi (by omega)]
      exact h.sorted i j hi hij hj
  · obtain ⟨k, hk1, hk, hfk⟩ : ∃ k, 1 ≤ k ∧ k ≤ n + 1 ∧ f' i = f k := by
      by_cases hone : i = 1
      · subst hone
        exact ⟨n + 1, by omega, le_rfl, hs.left le_rfl (by omega)⟩
      · exact ⟨i, hi1, by omega, hs.other hi1 (by omega) hone (by omega)⟩
    rw [hfk]
    rcases Nat.eq_or_lt_of_le hj with rfl | hj
    · rw [hlast]
      exact hheap.le_root hk1 hk
    · rw [hother j hj hjN]
      exact h.below k j hk1 hk hj hjN

/-- When one element is left, all are in order. -/
theorem Drained.pairwise (h : Drained le f n N) (hn : n ≤ 1) : ((List.range' 1 N).map f).Pairwise le := by
  rw [List.pairwise_map]
  refine List.Pairwise.imp_of_mem (fun {i j} hi hj hij => ?_) List.pairwise_lt_range'
  obtain ⟨hi1, -⟩ := List.mem_range'_1.mp hi
  obtain ⟨-, hj⟩ := List.mem_range'_1.mp hj
  by_cases hin : i ≤ n
  · exact h.below i j hi1 hin (by omega) (by omega)
  · exact h.sorted i j (by omega) hij (by omega)

end BinaryHeap
