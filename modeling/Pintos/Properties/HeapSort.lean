import Pintos.Lib.BinaryHeap
import Pintos.Libc.Stdlib

/-!
# `sort`

* `ElementArray.Valid` — an array that a caller may pass
* `TotalPreorder` — a comparison as that of `strcmp`
* `doSwap_spec` — two elements are exchanged, and nothing else
* `heapify_spec` — an element goes down until the heap is in order
* `sorts` — **the array is in order, and has the elements that it had**
-/

namespace Pintos

open Function LittleEndian ByteMemory BinaryHeap

/-! ## Arrays -/

/-- The array is an object in memory. -/
structure ElementArray.Valid (A : ElementArray) : Prop where
  nonnull : A.array ≠ 0 ∨ A.cnt = 0
  size_pos : 0 < A.size.toNat
  fits : A.array.toNat + A.cnt.toNat * A.size.toNat < 2 ^ 64

/-- All elements are comparable. -/
structure TotalPreorder (compare : Compare) : Prop where
  flip : ∀ a b, compare a b < 0 ↔ 0 < compare b a
  trans : ∀ a b c, compare a b ≤ 0 → compare b c ≤ 0 → compare a c ≤ 0

/-- The element at a position from 1 on. -/
def ElementArray.elemAt (A : ElementArray) (m : Memory) (k : Nat) : List Byte :=
  (List.range A.size.toNat).map fun j => m (A.array.toNat + (k - 1) * A.size.toNat + j)

/-- The elements of the array. -/
def ElementArray.contents (A : ElementArray) (m : Memory) : List (List Byte) :=
  (List.range' 1 A.cnt.toNat).map (A.elemAt m)

/-- An address that is not in the array. -/
def ElementArray.Beyond (A : ElementArray) (p : Nat) : Prop :=
  p < A.array.toNat ∨ A.array.toNat + A.cnt.toNat * A.size.toNat ≤ p

/-- Elements up to `n` change places, and nothing else is changed. -/
structure Moved (A : ElementArray) (n : Nat) (m m' : Memory) : Prop where
  elements : Rearranged n A.cnt.toNat (A.elemAt m) (A.elemAt m')
  beyond : ∀ p, A.Beyond p → m' p = m p

section

variable {A : ElementArray} {compare : Compare} {m m' m'' : Memory} {idx aIdx bIdx child max i cnt : BitVec 64}
  {n lo fuel : Nat}

theorem Moved.refl (A : ElementArray) (n : Nat) (m : Memory) : Moved A n m m := ⟨.refl _ _ _, fun _ _ => rfl⟩

theorem Moved.trans (hn : n ≤ A.cnt.toNat) (h : Moved A n m m') (h' : Moved A n m' m'') : Moved A n m m'' :=
  ⟨h.elements.trans hn h'.elements, fun p hp => (h'.beyond p hp).trans (h.beyond p hp)⟩

theorem Moved.mono {n' : Nat} (hn : n ≤ n') (h : Moved A n m m') : Moved A n' m m' := ⟨h.elements.mono hn, h.beyond⟩

theorem ElementArray.end_le {k : Nat} (h1 : 1 ≤ k) (hk : k ≤ A.cnt.toNat) :
    (k - 1) * A.size.toNat + A.size.toNat ≤ A.cnt.toNat * A.size.toNat := by
  rw [← Nat.succ_mul]
  exact Nat.mul_le_mul_right _ (by omega)

theorem ElementArray.element_toNat (hA : A.Valid) (h1 : 1 ≤ idx.toNat) (hle : idx.toNat ≤ A.cnt.toNat) :
    (A.element idx).toNat = A.array.toNat + (idx.toNat - 1) * A.size.toNat := by
  have hend := A.end_le h1 hle
  have hfits := hA.fits
  have hidx : (idx - 1).toNat = idx.toNat - 1 := BitVec.toNat_sub_of_le (by rw [BitVec.le_def]; exact h1)
  rw [ElementArray.element, BitVec.toNat_add, BitVec.toNat_mul, hidx, Nat.mod_eq_of_lt (a := _ * _) (by omega),
    Nat.mod_eq_of_lt (by omega)]

theorem ElementArray.isElement_element (hA : A.Valid) (h1 : 1 ≤ idx.toNat) (hle : idx.toNat ≤ A.cnt.toNat) :
    A.IsElement (A.element idx) := ⟨idx.toNat - 1, by omega, element_toNat hA h1 hle⟩

theorem ElementArray.elementBytes_element (hA : A.Valid) (h1 : 1 ≤ idx.toNat) (hle : idx.toNat ≤ A.cnt.toNat) :
    elementBytes m (A.element idx) A.size = A.elemAt m idx.toNat := by
  rw [elementBytes, element_toNat hA h1 hle]
  rfl

/-! ## Exchanges -/

/-- The bytes from `i` on of two elements are exchanged. -/
theorem swapBytes_spec {a b : BitVec 64} (hA : A.Valid) (ha : A.IsElement a) (hb : A.IsElement b) (k : Nat) :
    ∀ {i : Nat} {m : Memory}, i + k = A.size.toNat → ∃ m', swapBytes A a b i k m = .ok m' ∧
      ∀ p, m' p = if a.toNat + i ≤ p ∧ p < a.toNat + i + k then m (p - a.toNat + b.toNat)
        else if b.toNat + i ≤ p ∧ p < b.toNat + i + k then m (p - b.toNat + a.toNat) else m p := by
  induction k with
  | zero =>
    intro i m _
    refine ⟨m, rfl, fun p => ?_⟩
    rw [if_neg (by omega), if_neg (by omega)]
  | succ k ih =>
    intro i m hi
    have hfits := hA.fits
    obtain ⟨j, hj, hja⟩ := ha
    obtain ⟨l, hl, hlb⟩ := hb
    have hjend := A.end_le (k := j + 1) (by omega) hj
    have hlend := A.end_le (k := l + 1) (by omega) hl
    rw [Nat.add_sub_cancel] at hjend hlend
    -- two elements are the same, or have no byte in common
    have hapart : a.toNat = b.toNat ∨ a.toNat + A.size.toNat ≤ b.toNat ∨ b.toNat + A.size.toNat ≤ a.toNat := by
      rcases Nat.lt_trichotomy j l with hlt | rfl | hlt
      · have hmul : (j + 1) * A.size.toNat ≤ l * A.size.toNat := Nat.mul_le_mul_right _ hlt
        rw [Nat.succ_mul] at hmul
        omega
      · omega
      · have hmul : (l + 1) * A.size.toNat ≤ j * A.size.toNat := Nat.mul_le_mul_right _ hlt
        rw [Nat.succ_mul] at hmul
        omega
    have hp : (a + BitVec.ofNat 64 i).toNat = a.toNat + i := by
      rw [BitVec.toNat_add, BitVec.toNat_ofNat, Nat.mod_eq_of_lt (a := i) (by omega), Nat.mod_eq_of_lt (by omega)]
    have hq : (b + BitVec.ofNat 64 i).toNat = b.toNat + i := by
      rw [BitVec.toNat_add, BitVec.toNat_ofNat, Nat.mod_eq_of_lt (a := i) (by omega), Nat.mod_eq_of_lt (by omega)]
    have hin : A.Contains (a + BitVec.ofNat 64 i) ∧ A.Contains (b + BitVec.ofNat 64 i) := by
      unfold ElementArray.Contains
      rw [hp, hq]
      omega
    rw [swapBytes, if_pos hin, hp, hq]
    obtain ⟨m', hrun, hm'⟩ := ih (i := i + 1)
      (m := update (update m (a.toNat + i) (m (b.toNat + i))) (b.toNat + i) (m (a.toNat + i))) (by omega)
    refine ⟨m', hrun, fun p => ?_⟩
    rw [hm' p]
    simp only [update_apply]
    grind

theorem doSwap_spec (m : Memory) (aIdx bIdx : BitVec 64) (hA : A.Valid) (ha1 : 1 ≤ aIdx.toNat)
    (ha : aIdx.toNat ≤ A.cnt.toNat) (hb1 : 1 ≤ bIdx.toNat) (hb : bIdx.toNat ≤ A.cnt.toNat) :
    ∃ m', doSwap A aIdx bIdx m = .ok m' ∧
      Swapped aIdx.toNat bIdx.toNat A.cnt.toNat (A.elemAt m) (A.elemAt m') ∧ ∀ p, A.Beyond p → m' p = m p := by
  obtain ⟨m', hrun, hm'⟩ := swapBytes_spec (m := m) hA (A.isElement_element hA ha1 ha) (A.isElement_element hA hb1 hb)
    A.size.toNat (Nat.zero_add _)
  rw [A.element_toNat hA ha1 ha, A.element_toNat hA hb1 hb] at hm'
  have haend := A.end_le ha1 ha
  have hbend := A.end_le hb1 hb
  refine ⟨m', hrun, fun k hk1 hk => ?_, fun p hp => ?_⟩
  · refine List.map_congr_left fun j hj => ?_
    have hj := List.mem_range.mp hj
    -- positions and addresses are in the same order
    have hpos : ∀ x, 1 ≤ x → x ≠ k → (k - 1) * A.size.toNat + A.size.toNat ≤ (x - 1) * A.size.toNat ∨
        (x - 1) * A.size.toNat + A.size.toNat ≤ (k - 1) * A.size.toNat := by
      intro x hx hne
      rw [← Nat.succ_mul, ← Nat.succ_mul]
      rcases Nat.lt_or_gt_of_ne hne with hlt | hlt
      · exact .inr (Nat.mul_le_mul_right _ (by omega))
      · exact .inl (Nat.mul_le_mul_right _ (by omega))
    rw [hm', Equiv.swap_apply_def]
    by_cases hka : k = aIdx.toNat
    · rw [if_pos hka, ← hka, if_pos (by omega)]
      congr 1
      omega
    · have hna := hpos _ ha1 (Ne.symm hka)
      rw [if_neg hka, if_neg (by omega)]
      by_cases hkb : k = bIdx.toNat
      · rw [if_pos hkb, ← hkb, if_pos (by omega)]
        congr 1
        omega
      · have hnb := hpos _ hb1 (Ne.symm hkb)
        rw [if_neg hkb, if_neg (by omega)]
  · unfold ElementArray.Beyond at hp
    rw [hm', if_neg (by omega), if_neg (by omega)]

/-! ## Comparisons -/

/-- The order of the elements. -/
def Compare.le (compare : Compare) (a b : List Byte) : Prop := compare a b ≤ 0

theorem TotalPreorder.isPreorder (h : TotalPreorder compare) : IsPreorder (List Byte) compare.le where
  refl := fun a => by
    have hflip := h.flip a a
    unfold Compare.le
    omega
  trans := h.trans

theorem TotalPreorder.le_of_lt {a b : List Byte} (h : TotalPreorder compare) (hlt : 0 < compare a b) :
    compare.le b a := by
  have hflip := (h.flip b a).mpr hlt
  unfold Compare.le
  omega

theorem doCompare_spec (hA : A.Valid) (ha1 : 1 ≤ aIdx.toNat) (ha : aIdx.toNat ≤ A.cnt.toNat) (hb1 : 1 ≤ bIdx.toNat)
    (hb : bIdx.toNat ≤ A.cnt.toNat) :
    doCompare A compare m aIdx bIdx = .ok (compare (A.elemAt m aIdx.toNat) (A.elemAt m bIdx.toNat)) := by
  unfold doCompare
  dsimp only
  rw [if_pos ⟨A.isElement_element hA ha1 ha, A.isElement_element hA hb1 hb⟩, A.elementBytes_element hA ha1 ha,
    A.elementBytes_element hA hb1 hb]

/-- The larger of the two, if there is such a child. -/
theorem largerOf_spec (m : Memory) (child max : BitVec 64) (hA : A.Valid) (hc : TotalPreorder compare)
    (hcnt : cnt.toNat ≤ A.cnt.toNat) (hchild : 1 ≤ child.toNat) (hmax1 : 1 ≤ max.toNat)
    (hmax : max.toNat ≤ A.cnt.toNat) :
    ∃ r, largerOf A compare m cnt child max = .ok r ∧ (r = child ∧ child.toNat ≤ cnt.toNat ∨ r = max) ∧
      compare.le (A.elemAt m max.toNat) (A.elemAt m r.toNat) ∧
      (child.toNat ≤ cnt.toNat → compare.le (A.elemAt m child.toNat) (A.elemAt m r.toNat)) := by
  have hrefl := hc.isPreorder.toRefl.refl
  unfold largerOf
  by_cases hle : child ≤ cnt
  · have hle' : child.toNat ≤ cnt.toNat := hle
    rw [if_pos hle, doCompare_spec hA hchild (hle'.trans hcnt) hmax1 hmax]
    refine ⟨_, rfl, ?_⟩
    split
    · next hlt => exact ⟨.inl ⟨rfl, hle'⟩, hc.le_of_lt hlt, fun _ => hrefl _⟩
    · next hlt => exact ⟨.inr rfl, hrefl _, fun _ => Int.not_lt.mp hlt⟩
  · have hle' : ¬ child.toNat ≤ cnt.toNat := hle
    rw [if_neg hle]
    exact ⟨max, rfl, .inr rfl, hrefl _, fun h => absurd h hle'⟩

/-! ## The heap -/

/-- The element at `i` goes down until the heap is in order. -/
theorem heapify_spec (hA : A.Valid) (hc : TotalPreorder compare) (hwrap : 2 * A.cnt.toNat + 1 < 2 ^ 64)
    (cnt : BitVec 64) (hcnt : cnt.toNat ≤ A.cnt.toNat) (hlo : 1 ≤ lo) (fuel : Nat) : ∀ {i : BitVec 64} {m : Memory},
    HeapBut compare.le (A.elemAt m) lo cnt.toNat i.toNat → i.toNat ≤ cnt.toNat → cnt.toNat - i.toNat < fuel →
    ∃ m', heapify A compare fuel i cnt m = .ok m' ∧ HeapFrom compare.le (A.elemAt m') lo cnt.toNat ∧
      Moved A cnt.toNat m m' := by
  induction fuel with
  | zero => exact fun _ _ hfuel => absurd hfuel (Nat.not_lt_zero _)
  | succ fuel ih =>
    intro i m h hi hfuel
    have := hc.isPreorder
    have hi1 : 1 ≤ i.toNat := hlo.trans h.lo_le
    have hleft : (2 * i).toNat = 2 * i.toNat := by
      rw [BitVec.toNat_mul]
      exact Nat.mod_eq_of_lt (by show 2 * i.toNat < 2 ^ 64; omega)
    have hright : (2 * i + 1).toNat = 2 * i.toNat + 1 := by
      rw [BitVec.toNat_add, hleft]
      exact Nat.mod_eq_of_lt (by show 2 * i.toNat + 1 < 2 ^ 64; omega)
    obtain ⟨max₁, hrun₁, hmax₁, hle₁, hchild₁⟩ := largerOf_spec m (2 * i) i hA hc hcnt
      (by omega) hi1 (by omega)
    have hmax₁pos : 1 ≤ max₁.toNat ∧ max₁.toNat ≤ cnt.toNat := by
      rcases hmax₁ with ⟨rfl, hle⟩ | rfl <;> omega
    obtain ⟨max, hrun₂, hmax₂, hle₂, hchild₂⟩ := largerOf_spec m (2 * i + 1) max₁ hA hc hcnt
      (by omega) hmax₁pos.1 (by omega)
    have hmaxChild : max = i ∨ IsChild max.toNat i.toNat ∧ max.toNat ≤ cnt.toNat := by
      rcases hmax₂ with ⟨rfl, hle⟩ | rfl
      · exact .inr ⟨.inr hright, hle⟩
      · rcases hmax₁ with ⟨rfl, hle⟩ | rfl
        · exact .inr ⟨.inl hleft, hle⟩
        · exact .inl rfl
    have hle : compare.le (A.elemAt m i.toNat) (A.elemAt m max.toNat) := IsTrans.trans _ _ _ hle₁ hle₂
    have hlargest : ∀ c, IsChild c i.toNat → c ≤ cnt.toNat →
        compare.le (A.elemAt m c) (A.elemAt m max.toNat) := by
      rintro c (rfl | rfl) hcn
      · rw [hleft] at hchild₁
        exact IsTrans.trans _ _ _ (hchild₁ hcn) hle₂
      · rw [hright] at hchild₂
        exact hchild₂ hcn
    have hrun : heapify A compare (fuel + 1) i cnt m =
        (if max = i then .ok m else do
          let m ← doSwap A i max m
          heapify A compare fuel max cnt m) := by
      rw [heapify, hrun₁, LibStop.ok_bind, hrun₂, LibStop.ok_bind]
    rw [hrun]
    by_cases hmi : max = i
    · subst hmi
      rw [if_pos rfl]
      exact ⟨m, rfl, h.done hlargest, .refl _ _ _⟩
    · obtain ⟨hchild, hmaxn⟩ := hmaxChild.resolve_left hmi
      have hlt : i.toNat < max.toNat := by
        rcases hchild with hchild | hchild <;> omega
      obtain ⟨m₁, hswap, hswapped, hbeyond⟩ := doSwap_spec m i max hA hi1 (by omega)
        (by omega) (by omega)
      have hmoved : Moved A cnt.toNat m m₁ :=
        ⟨hswapped.rearranged hi1 hi (by omega) hmaxn, hbeyond⟩
      obtain ⟨m', hrun', hheap, hmoved'⟩ := ih (h.move hlo hchild hmaxn hle hlargest hcnt hswapped) hmaxn (by omega)
      rw [if_neg hmi, hswap]
      exact ⟨m', hrun', hheap, hmoved.trans hcnt hmoved'⟩

/-- The heap grows from the last parent to the root. -/
theorem buildHeap_spec (hA : A.Valid) (hc : TotalPreorder compare) (hwrap : 2 * A.cnt.toNat + 1 < 2 ^ 64)
    (hfuel : A.cnt.toNat < fuel) (i : Nat) : ∀ {m : Memory}, HeapFrom compare.le (A.elemAt m) (i + 1) A.cnt.toNat →
    i ≤ A.cnt.toNat → ∃ m', buildHeap A compare fuel i m = .ok m' ∧
      HeapFrom compare.le (A.elemAt m') 1 A.cnt.toNat ∧ Moved A A.cnt.toNat m m' := by
  induction i with
  | zero => exact fun {m} h _ => ⟨m, rfl, h, .refl _ _ _⟩
  | succ i ih =>
    intro m h hi
    have hidx : (BitVec.ofNat 64 (i + 1)).toNat = i + 1 := by
      rw [BitVec.toNat_ofNat, Nat.mod_eq_of_lt (by omega)]
    obtain ⟨m₁, hrun₁, hheap₁, hmoved₁⟩ := heapify_spec (i := BitVec.ofNat 64 (i + 1)) hA hc hwrap _ le_rfl
      (Nat.succ_pos i) fuel (by rw [hidx]; exact h.but (Nat.succ_pos i)) (by omega) (by omega)
    obtain ⟨m', hrun, hheap, hmoved⟩ := ih hheap₁ (by omega)
    rw [buildHeap, hrun₁]
    exact ⟨m', hrun, hheap, hmoved₁.trans le_rfl hmoved⟩

/-- The root goes behind the heap, which gets shorter, until one element is left. -/
theorem sortHeap_spec (hA : A.Valid) (hc : TotalPreorder compare) (hwrap : 2 * A.cnt.toNat + 1 < 2 ^ 64)
    (hfuel : A.cnt.toNat < fuel) (i : Nat) : ∀ {m : Memory}, HeapFrom compare.le (A.elemAt m) 1 i →
    Drained compare.le (A.elemAt m) i A.cnt.toNat → i ≤ A.cnt.toNat → ∃ m', sortHeap A compare fuel i m = .ok m' ∧
      (A.contents m').Pairwise compare.le ∧ Moved A A.cnt.toNat m m' := by
  induction i with
  | zero => exact fun {m} _ h _ => ⟨m, rfl, h.pairwise (by omega), .refl _ _ _⟩
  | succ i ih =>
    intro m hheap hdrained hi
    cases i with
    | zero => exact ⟨m, rfl, hdrained.pairwise le_rfl, .refl _ _ _⟩
    | succ i =>
      have := hc.isPreorder
      have hidx : (BitVec.ofNat 64 (i + 2)).toNat = i + 2 := by
        rw [BitVec.toNat_ofNat, Nat.mod_eq_of_lt (by omega)]
      have hpred : (BitVec.ofNat 64 (i + 2) - 1).toNat = i + 1 := by
        rw [BitVec.toNat_sub_of_le (by rw [BitVec.le_def, hidx]; exact Nat.le_add_left 1 _), hidx]
        rfl
      obtain ⟨m₁, hswap, hswapped, hbeyond⟩ := doSwap_spec m 1 (BitVec.ofNat 64 (i + 2)) hA
        le_rfl (by show 1 ≤ A.cnt.toNat; omega) (by omega) (by omega)
      rw [hidx] at hswapped
      have hmoved₁ : Moved A A.cnt.toNat m m₁ :=
        ⟨hswapped.rearranged le_rfl (by show 1 ≤ A.cnt.toNat; omega) (by omega) hi, hbeyond⟩
      have hbut := hheap.swapRoot hi hswapped
      obtain ⟨m₂, hrun₂, hheap₂, hmoved₂⟩ := heapify_spec (i := 1) (m := m₁) hA hc hwrap
        (BitVec.ofNat 64 (i + 2) - 1) (by omega) le_rfl fuel (by rw [hpred]; exact hbut)
        (by rw [hpred]; exact Nat.le_add_left 1 i) (by rw [hpred]; omega)
      rw [hpred] at hheap₂ hmoved₂
      have hdrained₂ : Drained compare.le (A.elemAt m₂) (i + 1) A.cnt.toNat :=
        (hdrained.step hheap hi hswapped).rearranged hmoved₂.elements
      obtain ⟨m', hrun, hsorted, hmoved⟩ := ih hheap₂ hdrained₂ (by omega)
      rw [sortHeap, hswap, LibStop.ok_bind, hrun₂]
      exact ⟨m', hrun, hsorted, hmoved₁.trans le_rfl ((hmoved₂.mono (by omega)).trans le_rfl hmoved)⟩

end

/-- **`sort` ends, accesses the array only, and leaves its elements in order.** -/
theorem sorts {A : ElementArray} {compare : Compare} {m : Memory} {fuel : Nat} (hA : A.Valid)
    (hc : TotalPreorder compare) (hwrap : 2 * A.cnt.toNat + 1 < 2 ^ 64) (hfuel : A.cnt.toNat < fuel) :
    ∃ m', sort fuel A compare m = .ok m' ∧ (A.contents m').Perm (A.contents m) ∧
      (A.contents m').Pairwise (fun a b => compare a b ≤ 0) ∧ ∀ p, A.Beyond p → m' p = m p := by
  have hhalf : (A.cnt / 2).toNat = A.cnt.toNat / 2 := BitVec.toNat_udiv
  -- the positions behind the last parent have no children
  have hstart : HeapFrom compare.le (A.elemAt m) ((A.cnt / 2).toNat + 1) A.cnt.toNat := by
    intro p c hp hchild hcn
    rcases hchild with rfl | rfl <;> omega
  obtain ⟨m₁, hrun₁, hheap, hmoved₁⟩ := buildHeap_spec hA hc hwrap hfuel _ hstart (by omega)
  have hdrained : Drained compare.le (A.elemAt m₁) A.cnt.toNat A.cnt.toNat :=
    ⟨fun i j hi hij hj => by omega, fun i j _ _ hj hjn => by omega⟩
  obtain ⟨m', hrun, hsorted, hmoved⟩ := sortHeap_spec hA hc hwrap hfuel _ hheap hdrained le_rfl
  have hmoved' := hmoved₁.trans le_rfl hmoved
  refine ⟨m', ?_, hmoved'.elements.perm, hsorted, hmoved'.beyond⟩
  have hsize : A.size ≠ 0 := by
    intro hzero
    have hpos := hA.size_pos
    rw [hzero] at hpos
    exact absurd hpos (Nat.lt_irrefl 0)
  unfold sort
  rw [if_neg (not_or.mpr ⟨not_not.mpr hA.nonnull, hsize⟩), hrun₁]
  exact hrun

/-- The order of the first bytes. -/
def compareFirst (a b : List Byte) : Int := (a.headD 0).toNat - (b.headD 0).toNat

theorem compareFirst_totalPreorder : TotalPreorder compareFirst where
  flip := fun a b => by unfold compareFirst; omega
  trans := fun a b c => by unfold compareFirst; omega

/-- Three elements of one byte. -/
def threeBytes : ElementArray := { array := 0x1000, cnt := 3, size := 1 }

theorem threeBytes_valid : threeBytes.Valid := ⟨.inl (by decide), by decide, by decide⟩

theorem sorts_three : ∃ m', sort 4 threeBytes compareFirst (putBytes (fun _ => 0) 0x1000 [3, 1, 2]) = .ok m' ∧
    (threeBytes.contents m').Perm (threeBytes.contents (putBytes (fun _ => 0) 0x1000 [3, 1, 2])) ∧
    (threeBytes.contents m').Pairwise (fun a b => compareFirst a b ≤ 0) ∧
    ∀ p, threeBytes.Beyond p → m' p = putBytes (fun _ => 0) 0x1000 [3, 1, 2] p :=
  sorts threeBytes_valid compareFirst_totalPreorder (by decide) (by decide)

end Pintos
