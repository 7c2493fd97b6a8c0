import Pintos.Properties.HeapSort

/-!
# `binary_search`

* `Searched` — what is left of the array is between `first` and `last`
* `searchLoop_spec` — a round looks at the element in the middle, and discards it with one half
* `binary_search_finds` — **the result is an element that is equal to the key, or there is none**
-/

namespace Pintos

open LittleEndian ByteMemory

/-- The key is larger than the elements before `first`, and smaller than those from `last` on. -/
structure Searched (A : ElementArray) (compare : Compare) (key : List Byte) (m : Memory) (lo hi : Nat)
    (first last : BitVec 64) : Prop where
  first : first.toNat = A.array.toNat + lo * A.size.toNat
  last : last.toNat = A.array.toNat + hi * A.size.toNat
  le : lo ≤ hi
  hi_le : hi ≤ A.cnt.toNat
  larger : ∀ k, 1 ≤ k → k ≤ lo → 0 < compare key (A.elemAt m k)
  smaller : ∀ k, hi < k → k ≤ A.cnt.toNat → compare key (A.elemAt m k) < 0

/-- What `binary_search` may return. -/
structure SearchResult (A : ElementArray) (compare : Compare) (key : List Byte) (m : Memory) (r : Option (BitVec 64)) :
    Prop where
  sound : ∀ p, r = some p → A.IsElement p ∧ compare key (elementBytes m p A.size) = 0
  complete : r = none → ∀ e ∈ A.contents m, compare key e ≠ 0

section

variable {A : ElementArray} {compare : Compare} {key : List Byte} {m : Memory} {lo hi : Nat} {first last : BitVec 64}

/-- The element in the middle. -/
theorem Searched.middle (hA : A.Valid) (h : Searched A compare key m lo hi first last) (hlt : lo < hi) :
    (first + (last - first) / A.size / 2 * A.size).toNat = A.array.toNat + (lo + (hi - lo) / 2) * A.size.toNat := by
  have hfits := hA.fits
  have hfirst := h.first
  have hlast := h.last
  have hsize := hA.size_pos
  have hend : hi * A.size.toNat ≤ A.cnt.toNat * A.size.toNat := Nat.mul_le_mul_right _ h.hi_le
  have hle : lo * A.size.toNat ≤ hi * A.size.toNat := Nat.mul_le_mul_right _ h.le
  have hdiff : (last - first).toNat = (hi - lo) * A.size.toNat := by
    rw [BitVec.toNat_sub_of_le (by rw [BitVec.le_def]; omega), hfirst, hlast, Nat.sub_mul]
    omega
  have hrange : ((last - first) / A.size / 2).toNat = (hi - lo) / 2 := by
    rw [BitVec.toNat_udiv, BitVec.toNat_udiv, hdiff, Nat.mul_div_cancel _ hsize]
    rfl
  have hhalf : (lo + (hi - lo) / 2) * A.size.toNat ≤ hi * A.size.toNat := Nat.mul_le_mul_right _ (by omega)
  rw [Nat.add_mul] at hhalf ⊢
  rw [BitVec.toNat_add, BitVec.toNat_mul, hrange, hfirst, Nat.mod_eq_of_lt (a := _ * _) (by omega),
    Nat.mod_eq_of_lt (by omega), Nat.add_assoc]

/-- The key is smaller than all that is not smaller than an element that it is smaller than. -/
theorem TotalPreorder.lt_of_lt_of_le {a b c : List Byte} (hc : TotalPreorder compare) (hab : compare a b < 0)
    (hbc : compare b c ≤ 0) : compare a c < 0 := by
  by_contra hac
  have hca : compare c a ≤ 0 := by
    have hflip := hc.flip a c
    omega
  have hba := hc.trans b c a hbc hca
  have hflip := hc.flip a b
  omega

theorem TotalPreorder.gt_of_gt_of_le {a b c : List Byte} (hc : TotalPreorder compare) (hab : 0 < compare a b)
    (hcb : compare c b ≤ 0) : 0 < compare a c := by
  by_contra hac
  have hab' := hc.trans a c b (by omega) hcb
  omega

theorem le_elemAt {i j : Nat} (hsorted : (A.contents m).Pairwise fun a b => compare a b ≤ 0)
    (hc : TotalPreorder compare) (hi : 1 ≤ i) (hij : i ≤ j) (hj : j ≤ A.cnt.toNat) :
    compare (A.elemAt m i) (A.elemAt m j) ≤ 0 := by
  rcases Nat.eq_or_lt_of_le hij with rfl | hij
  · exact hc.isPreorder.toRefl.refl _
  · have hlen : (A.contents m).length = A.cnt.toNat := by
      rw [ElementArray.contents, List.length_map, List.length_range']
    have hget : ∀ k (h : k < (A.contents m).length), (A.contents m)[k] = A.elemAt m (k + 1) := by
      intro k h
      simp only [ElementArray.contents, List.getElem_map, List.getElem_range', Nat.one_mul]
      rw [Nat.add_comm]
    have hle := List.pairwise_iff_getElem.mp hsorted (i - 1) (j - 1) (by omega) (by omega) (by omega)
    rw [hget, hget] at hle
    rwa [Nat.sub_add_cancel hi, Nat.sub_add_cancel (by omega)] at hle

/-- Each round discards the element in the middle and one half. -/
theorem searchLoop_spec (hA : A.Valid) (hc : TotalPreorder compare)
    (hsorted : (A.contents m).Pairwise fun a b => compare a b ≤ 0) (fuel : Nat) :
    ∀ (lo hi : Nat) {first last : BitVec 64}, Searched A compare key m lo hi first last → hi - lo < fuel →
      ∃ r, searchLoop A compare key m fuel first last = .ok r ∧ SearchResult A compare key m r := by
  induction fuel with
  | zero => exact fun _ _ _ _ _ hfuel => absurd hfuel (Nat.not_lt_zero _)
  | succ fuel ih =>
    intro lo hi first last h hfuel
    have hsize := hA.size_pos
    have hfits := hA.fits
    have hfirst := h.first
    have hlast := h.last
    have hlohi := h.le
    have hhi := h.hi_le
    rw [searchLoop]
    by_cases hlt : lo < hi
    · have hmul : lo * A.size.toNat < hi * A.size.toNat := Nat.mul_lt_mul_of_pos_right hlt hsize
      obtain ⟨mid, hmid⟩ : ∃ mid, mid = lo + (hi - lo) / 2 := ⟨_, rfl⟩
      have hmiddle := h.middle hA hlt
      rw [← hmid] at hmiddle
      rw [if_pos (by rw [BitVec.lt_def]; omega)]
      dsimp only
      generalize first + (last - first) / A.size / 2 * A.size = middle at hmiddle
      have helement : A.IsElement middle := ⟨mid, by omega, hmiddle⟩
      have hbytes : elementBytes m middle A.size = A.elemAt m (mid + 1) := by
        rw [elementBytes, hmiddle]
        rfl
      rw [if_pos helement, hbytes]
      split
      · next hneg =>
        -- the key is smaller than the element in the middle, and those behind it
        refine ih lo mid ⟨hfirst, hmiddle, by omega, by omega, h.larger, fun k hk hkn => ?_⟩ (by omega)
        exact hc.lt_of_lt_of_le hneg (le_elemAt hsorted hc (by omega) (by omega) hkn)
      · next hnonneg =>
        split
        · next hpos =>
          have hend : (mid + 1) * A.size.toNat ≤ A.cnt.toNat * A.size.toNat := Nat.mul_le_mul_right _ (by omega)
          have hnext : (middle + A.size).toNat = A.array.toNat + (mid + 1) * A.size.toNat := by
            rw [Nat.succ_mul] at hend ⊢
            rw [BitVec.toNat_add, hmiddle, Nat.mod_eq_of_lt (by omega), Nat.add_assoc]
          refine ih (mid + 1) hi ⟨hnext, hlast, by omega, hhi, fun k hk1 hk => ?_, h.smaller⟩ (by omega)
          exact hc.gt_of_gt_of_le hpos (le_elemAt hsorted hc hk1 hk (by omega))
        · next hnonpos =>
          refine ⟨some middle, rfl, fun p hp => ?_, by rintro ⟨⟩⟩
          obtain rfl := Option.some.inj hp
          exact ⟨helement, by rw [hbytes]; omega⟩
    · obtain rfl : lo = hi := by omega
      rw [if_neg (by rw [BitVec.lt_def]; omega)]
      refine ⟨none, rfl, by rintro _ ⟨⟩, fun _ e he => ?_⟩
      obtain ⟨k, hk, rfl⟩ := List.mem_map.mp he
      obtain ⟨hk1, hkn⟩ := List.mem_range'_1.mp hk
      by_cases hklo : k ≤ lo
      · exact Int.ne_of_gt (h.larger k hk1 hklo)
      · exact Int.ne_of_lt (h.smaller k (by omega) (by omega))

end

/-- **`binary_search` ends, looks at elements of the array only, and finds one that is equal to the key if there is
one.** -/
theorem binary_search_finds {A : ElementArray} {compare : Compare} {key : List Byte} {m : Memory} {fuel : Nat}
    (hA : A.Valid) (hc : TotalPreorder compare) (hsorted : (A.contents m).Pairwise fun a b => compare a b ≤ 0)
    (hfuel : A.cnt.toNat < fuel) :
    ∃ r, binarySearch fuel A compare key m = .ok r ∧
      (∀ p, r = some p → A.IsElement p ∧ compare key (elementBytes m p A.size) = 0) ∧
      (r = none → ∀ e ∈ A.contents m, compare key e ≠ 0) := by
  have hfits := hA.fits
  have hlast : (A.array + A.size * A.cnt).toNat = A.array.toNat + A.cnt.toNat * A.size.toNat := by
    rw [BitVec.toNat_add, BitVec.toNat_mul, Nat.mul_comm A.size.toNat, Nat.mod_eq_of_lt (a := _ * _) (by omega),
      Nat.mod_eq_of_lt hfits]
  have hstart : Searched A compare key m 0 A.cnt.toNat A.array (A.array + A.size * A.cnt) :=
    ⟨by rw [Nat.zero_mul, Nat.add_zero], hlast, Nat.zero_le _, le_rfl, fun k hk1 hk => by omega,
      fun k hk hkn => by omega⟩
  obtain ⟨r, hrun, hfound⟩ := searchLoop_spec hA hc hsorted fuel _ _ hstart hfuel
  exact ⟨r, hrun, hfound.sound, hfound.complete⟩

theorem binary_search_finds_two :
    ∃ r, binarySearch 4 threeBytes compareFirst [2] (putBytes (fun _ => 0) 0x1000 [1, 2, 3]) = .ok r ∧
      (∀ p, r = some p → threeBytes.IsElement p ∧ compareFirst [2]
        (elementBytes (putBytes (fun _ => 0) 0x1000 [1, 2, 3]) p threeBytes.size) = 0) ∧
      (r = none → ∀ e ∈ threeBytes.contents (putBytes (fun _ => 0) 0x1000 [1, 2, 3]), compareFirst [2] e ≠ 0) :=
  binary_search_finds threeBytes_valid compareFirst_totalPreorder (by decide) (by decide)

end Pintos
