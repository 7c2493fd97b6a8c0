import Mathlib.Tactic.Ring
import Mathlib.Data.Nat.Log
import Pintos.Libc.Arithmetic

/-!
# Division of 64-bit integers

* `nlz_spec` — the shift that brings the highest bit of a word to the front
* `estimate_bounds` — dividing by the first 32 bits of a large divisor gives at most one too many
* `udiv64_spec`, `sdiv64_spec` — the quotient is exact, and no division traps
* `division_exact` — **so it is for all integers**
* `remainders_agree` — **quotient and remainder agree when the remainder fits in 32 bits**
-/

namespace Pintos

/-! ## The parts -/

section

variable {x d n s : Nat}

theorem toNat_pos_of_ne_zero {w : Nat} {x : BitVec w} (h : x ≠ 0) : 0 < x.toNat := by
  by_contra hzero
  refine h (BitVec.eq_of_toNat_eq ?_)
  rw [Nat.eq_zero_of_not_pos hzero]
  exact BitVec.toNat_zero.symm

/-- The first word of a number of two words. -/
theorem toNat_first_word (n : BitVec 64) : ((n >>> 32).setWidth 32).toNat = n.toNat / 2 ^ 32 := by
  have hn := n.isLt
  rw [BitVec.toNat_setWidth, BitVec.toNat_ushiftRight, Nat.shiftRight_eq_div_pow, Nat.mod_eq_of_lt (by omega)]

theorem divl_ok {n : BitVec 64} {d : BitVec 32} (hd : d ≠ 0) (hq : n.toNat / d.toNat < 2 ^ 32) :
    divl n d = .ok (BitVec.ofNat 32 (n.toNat / d.toNat)) := by
  have hdiv : (n / d.setWidth 64).toNat = n.toNat / d.toNat := by
    rw [BitVec.toNat_udiv, BitVec.toNat_setWidth_of_le (by omega)]
  unfold divl
  rw [if_pos ⟨hd, hdiv.trans_lt hq⟩]
  refine congrArg Except.ok (BitVec.eq_of_toNat_eq ?_)
  rw [BitVec.toNat_setWidth, hdiv, BitVec.toNat_ofNat]

/-- A step of `nlz` moves the word to the left by as many bits as it counts. -/
theorem nlzStep_spec (bound : BitVec 32) (k : Nat) {p : Nat × BitVec 32} (hbound : bound.toNat = 2 ^ (32 - k) - 1)
    (hk : 2 * k ≤ 32) (hp : p.2.toNat = x * 2 ^ p.1) (hlow : 2 ^ (32 - 2 * k) ≤ p.2.toNat) :
    (nlzStep bound k p).2.toNat = x * 2 ^ (nlzStep bound k p).1 ∧ 2 ^ (32 - k) ≤ (nlzStep bound k p).2.toNat := by
  have hpos : 0 < 2 ^ (32 - k) := Nat.two_pow_pos _
  unfold nlzStep
  split
  · next hle =>
    rw [BitVec.le_def, hbound] at hle
    have hlt : p.2.toNat * 2 ^ k < 2 ^ 32 := calc
      p.2.toNat * 2 ^ k < 2 ^ (32 - k) * 2 ^ k := Nat.mul_lt_mul_of_pos_right (by omega) (Nat.two_pow_pos k)
      _ = 2 ^ 32 := by rw [← Nat.pow_add]; congr 1; omega
    have hshift : (p.2 <<< k).toNat = p.2.toNat * 2 ^ k := by
      rw [BitVec.toNat_shiftLeft, Nat.shiftLeft_eq, Nat.mod_eq_of_lt hlt]
    refine ⟨?_, ?_⟩
    · rw [hshift, hp, Nat.pow_add, Nat.mul_assoc]
    · rw [hshift]
      calc 2 ^ (32 - k) = 2 ^ (32 - 2 * k) * 2 ^ k := by rw [← Nat.pow_add]; congr 1; omega
        _ ≤ p.2.toNat * 2 ^ k := Nat.mul_le_mul_right _ hlow
  · next hle =>
    rw [BitVec.le_def, hbound] at hle
    exact ⟨hp, by omega⟩

/-- The highest bit of the word is in front after the shift. -/
theorem nlz_spec {x : BitVec 32} (hx : x ≠ 0) : 2 ^ 31 ≤ x.toNat * 2 ^ nlz x ∧ x.toNat * 2 ^ nlz x < 2 ^ 32 := by
  have hpos : 0 < x.toNat := toNat_pos_of_ne_zero hx
  obtain ⟨h₁, l₁⟩ := nlzStep_spec (x := x.toNat) 0x0000FFFF 16 (p := (0, x)) rfl (by omega)
    (by rw [Nat.pow_zero, Nat.mul_one]) hpos
  obtain ⟨h₂, l₂⟩ := nlzStep_spec 0x00FFFFFF 8 rfl (by omega) h₁ l₁
  obtain ⟨h₃, l₃⟩ := nlzStep_spec 0x0FFFFFFF 4 rfl (by omega) h₂ l₂
  obtain ⟨h₄, l₄⟩ := nlzStep_spec 0x3FFFFFFF 2 rfl (by omega) h₃ l₃
  obtain ⟨h₅, l₅⟩ := nlzStep_spec 0x7FFFFFFF 1 rfl (by omega) h₄ l₄
  have hnlz : nlz x = (nlzStep 0x7FFFFFFF 1 (nlzStep 0x3FFFFFFF 2 (nlzStep 0x0FFFFFFF 4 (nlzStep 0x00FFFFFF 8
      (nlzStep 0x0000FFFF 16 (0, x)))))).1 := by
    generalize hp : nlzStep 0x3FFFFFFF 2 (nlzStep 0x0FFFFFFF 4 (nlzStep 0x00FFFFFF 8
      (nlzStep 0x0000FFFF 16 (0, x)))) = p
    unfold nlz
    dsimp only
    rw [hp, nlzStep]
    split <;> rfl
  rw [hnlz, ← h₅]
  exact ⟨l₅, BitVec.isLt _⟩

/-- The first 32 bits of a divisor, with `s` leading zeros, give a quotient that is at most one too high. -/
theorem estimate_bounds (hn : n < 2 ^ 64) (hs : s ≤ 31) (hlow : 2 ^ 63 ≤ d * 2 ^ s) (hhigh : d * 2 ^ s < 2 ^ 64)
    (hd : 0 < d) : n / d ≤ n / 2 / (d * 2 ^ s / 2 ^ 32) / 2 ^ (31 - s) ∧
      n / 2 / (d * 2 ^ s / 2 ^ 32) / 2 ^ (31 - s) ≤ n / d + 1 := by
  -- `v` is the first word, and `t` the weight of its last bit in the divisor
  obtain ⟨t, ht⟩ : ∃ t, t = 2 ^ (32 - s) := ⟨_, rfl⟩
  obtain ⟨v, hv⟩ : ∃ v, v = d * 2 ^ s / 2 ^ 32 := ⟨_, rfl⟩
  have hst : 2 ^ s * t = 2 ^ 32 := by rw [ht, ← Nat.pow_add]; congr 1; omega
  have htpos : 0 < t := by rw [ht]; exact Nat.two_pow_pos _
  have hvt : v = d / t := by
    rw [hv, ← hst, Nat.mul_comm d, Nat.mul_div_mul_left _ _ (Nat.two_pow_pos s)]
  have hv31 : 2 ^ 31 ≤ v := by rw [hv]; omega
  have hle : v * t ≤ d := by rw [hvt]; exact Nat.div_mul_le_self d t
  have hlt : d < v * t + t := by
    rw [hvt]
    have hmod := Nat.mod_lt d htpos
    have hdm := Nat.div_add_mod' d t
    omega
  have hest : n / 2 / v / 2 ^ (31 - s) = n / (v * t) := by
    rw [Nat.div_div_eq_div_mul, Nat.div_div_eq_div_mul]
    congr 1
    have htwo : t = 2 * 2 ^ (31 - s) := by rw [ht, ← Nat.pow_succ']; congr 1; omega
    rw [htwo]
    ring
  have hvtpos : 0 < v * t := Nat.mul_pos (by omega) htpos
  rw [← hv, hest]
  refine ⟨Nat.div_le_div_left hle hvtpos, ?_⟩
  -- the quotient has at most `s + 1` bits, so that what is cut off of the divisor does not add up
  have hq : n / d + 1 ≤ 2 * 2 ^ s := by
    have hlt : n / d < 2 * 2 ^ s := by
      rw [Nat.div_lt_iff_lt_mul hd]
      calc n < 2 ^ 64 := hn
        _ ≤ 2 * 2 ^ s * d := by rw [Nat.mul_assoc, Nat.mul_comm (2 ^ s)]; omega
    omega
  have hcut : (n / d + 1) * (d - v * t) ≤ v * t := by
    have hone : d - v * t ≤ t - 1 := by omega
    calc (n / d + 1) * (d - v * t) ≤ 2 * 2 ^ s * (t - 1) := Nat.mul_le_mul hq hone
      _ = 2 * 2 ^ 32 - 2 * 2 ^ s := by rw [Nat.mul_sub, Nat.mul_one, Nat.mul_assoc, hst]
      _ ≤ v * t := ?_
    rcases Nat.eq_or_lt_of_le hs with rfl | hs
    · -- one bit is cut off
      have ht2 : t = 2 := ht
      rw [ht2]
      omega
    · have ht4 : 4 ≤ t := by
        rw [ht]
        exact Nat.pow_le_pow_right (by decide : 0 < 2) (by omega : 2 ≤ 32 - s)
      have hmul : 2 ^ 31 * 4 ≤ v * t := Nat.mul_le_mul hv31 ht4
      omega
  have hmul : (n / d + 2) * (v * t) = (n / d + 1) * (v * t) + v * t := by ring
  have hsplit : (n / d + 1) * d = (n / d + 1) * (v * t) + (n / d + 1) * (d - v * t) := by
    rw [← Nat.mul_add]
    congr 1
    omega
  have hnd : n < (n / d + 1) * d := by
    have hmod := Nat.mod_lt n hd
    have hdm := Nat.div_add_mod' n d
    rw [Nat.add_mul, Nat.one_mul]
    omega
  have hfin : n / (v * t) < n / d + 2 := by
    rw [Nat.div_lt_iff_lt_mul hvtpos]
    omega
  omega

end

/-! ## Unsigned division -/

/-- The division of a number of two words by one of one word, as in the proof in the source. -/
theorem div_by_words {n d : Nat} (hd : 0 < d) : (2 ^ 32 * (n / 2 ^ 32 % d) + n % 2 ^ 32) / d < 2 ^ 32 ∧
    n / d = (2 ^ 32 * (n / 2 ^ 32 % d) + n % 2 ^ 32) / d + 2 ^ 32 * (n / 2 ^ 32 / d) := by
  have hmod : n / 2 ^ 32 % d < d := Nat.mod_lt _ hd
  refine ⟨?_, ?_⟩
  · rw [Nat.div_lt_iff_lt_mul hd]
    have hmul : 2 ^ 32 * (n / 2 ^ 32 % d + 1) ≤ 2 ^ 32 * d := Nat.mul_le_mul_left _ hmod
    omega
  · have hsplit : n = 2 ^ 32 * (n / 2 ^ 32 % d) + n % 2 ^ 32 + d * (2 ^ 32 * (n / 2 ^ 32 / d)) := by
      have hdm := Nat.div_add_mod (n / 2 ^ 32) d
      have hmul : 2 ^ 32 * (n / 2 ^ 32) = 2 ^ 32 * (n / 2 ^ 32 % d) + d * (2 ^ 32 * (n / 2 ^ 32 / d)) := by
        conv_lhs => rw [← hdm]
        ring
      omega
    conv_lhs => rw [hsplit]
    rw [Nat.add_mul_div_left _ _ hd]

section

variable {n d : BitVec 64}

/-- The test at the end of `udiv64` takes back what is too much. -/
theorem correct_estimate {q : BitVec 64} {m : Nat} (hd : 0 < d.toNat) (hle : d.toNat ≤ n.toNat) (hq : q.toNat = m)
    (hge : n.toNat / d.toNat ≤ m) (hle' : m ≤ n.toNat / d.toNat + 1) :
    (if n - (q - 1) * d < d then q - 1 else q) = n / d := by
  have hn := n.isLt
  have hpos : 0 < n.toNat / d.toNat := Nat.div_pos hle hd
  have hmod := Nat.mod_lt n.toNat hd
  have hdm := Nat.div_add_mod' n.toNat d.toNat
  have hone : (q - 1).toNat = m - 1 := by
    have hlt := q.isLt
    rw [BitVec.toNat_sub, hq]
    simp only [BitVec.ofNat_eq_ofNat, BitVec.toNat_ofNat]
    omega
  have hmul : (m - 1) * d.toNat ≤ n.toNat / d.toNat * d.toNat := Nat.mul_le_mul_right _ (by omega)
  have hprod : ((q - 1) * d).toNat = (m - 1) * d.toNat := by
    rw [BitVec.toNat_mul, hone, Nat.mod_eq_of_lt (by omega)]
  have hdiff : (n - (q - 1) * d).toNat = n.toNat - (m - 1) * d.toNat := by
    rw [BitVec.toNat_sub_of_le (by rw [BitVec.le_def, hprod]; omega), hprod]
  refine BitVec.eq_of_toNat_eq ?_
  rw [BitVec.toNat_udiv]
  rcases Nat.eq_or_lt_of_le hge with heq | hlt
  · -- the estimate is right
    have hsub : (m - 1) * d.toNat + d.toNat = n.toNat / d.toNat * d.toNat := by
      rw [← Nat.succ_mul, heq]
      congr 1
      omega
    rw [if_neg (by rw [BitVec.lt_def, hdiff]; omega), hq, heq]
  · have hm : m - 1 = n.toNat / d.toNat := by omega
    rw [if_pos (by rw [BitVec.lt_def, hdiff, hm]; omega), hone, hm]

/-- The divisor with its first bit in front. -/
theorem shifted_bounds {d s : Nat} (hs : s ≤ 31) (hlow : 2 ^ 31 ≤ d / 2 ^ 32 * 2 ^ s)
    (hhigh : d / 2 ^ 32 * 2 ^ s < 2 ^ 32) : 2 ^ 63 ≤ d * 2 ^ s ∧ d * 2 ^ s < 2 ^ 64 := by
  have hmod := Nat.mod_lt d (Nat.two_pow_pos 32)
  have hdm := Nat.div_add_mod d (2 ^ 32)
  have hexp : d * 2 ^ s = 2 ^ 32 * (d / 2 ^ 32 * 2 ^ s) + d % 2 ^ 32 * 2 ^ s := by
    conv_lhs => rw [← hdm]
    ring
  refine ⟨by omega, ?_⟩
  -- the product is a multiple of `2 ^ s`, so that there is room for the second word
  have hnext : (d / 2 ^ 32 + 1) * 2 ^ s ≤ 2 ^ 32 := by
    have hpow : 2 ^ 32 = 2 ^ (32 - s) * 2 ^ s := by rw [← Nat.pow_add]; congr 1; omega
    rw [hpow] at hhigh ⊢
    exact Nat.mul_le_mul_right _ (Nat.lt_of_mul_lt_mul_right hhigh)
  have hrest : d % 2 ^ 32 * 2 ^ s < 2 ^ 32 * 2 ^ s := Nat.mul_lt_mul_of_pos_right hmod (Nat.two_pow_pos s)
  have hadd : (d / 2 ^ 32 + 1) * 2 ^ s = d / 2 ^ 32 * 2 ^ s + 2 ^ s := by ring
  omega

/-- A divisor of 32 bits: the two words of the dividend are divided one after the other. -/
theorem udiv64_small (hd : d ≠ 0) (h : d >>> 32 = 0) : udiv64 n d = .ok (n / d) := by
  have hdpos : 0 < d.toNat := toNat_pos_of_ne_zero hd
  have hd32 : d.toNat < 2 ^ 32 := by
    have hshift := congrArg BitVec.toNat h
    rw [BitVec.toNat_ushiftRight, Nat.shiftRight_eq_div_pow] at hshift
    exact Nat.lt_of_div_eq_zero (Nat.two_pow_pos 32) hshift
  obtain ⟨hlow, hsum⟩ := div_by_words (n := n.toNat) hdpos
  have hd0 : (d.setWidth 32).toNat = d.toNat := by rw [BitVec.toNat_setWidth, Nat.mod_eq_of_lt hd32]
  have hn1 := toNat_first_word n
  have hn0 : (n.setWidth 32).toNat = n.toNat % 2 ^ 32 := BitVec.toNat_setWidth ..
  have hb : ((1 : BitVec 64) <<< 32).toNat = 2 ^ 32 := rfl
  -- nothing is lost in `b * (n1 % d0) + n0`
  have harg : ((1 : BitVec 64) <<< 32 * (((n >>> 32).setWidth 32) % (d.setWidth 32)).setWidth 64 +
      (n.setWidth 32).setWidth 64).toNat = 2 ^ 32 * (n.toNat / 2 ^ 32 % d.toNat) + n.toNat % 2 ^ 32 := by
    have hmod : n.toNat / 2 ^ 32 % d.toNat < d.toNat := Nat.mod_lt _ hdpos
    rw [BitVec.toNat_add, BitVec.toNat_mul, BitVec.toNat_setWidth_of_le (by omega),
      BitVec.toNat_setWidth_of_le (by omega), BitVec.toNat_umod, hb, hn1, hn0, hd0]
    omega
  have hne : d.setWidth 32 ≠ 0 := by
    intro hzero
    rw [hzero] at hd0
    exact hdpos.ne hd0
  unfold udiv64
  dsimp only
  rw [if_pos h, divl_ok hne (by rw [harg, hd0]; exact hlow), harg, hd0]
  refine congrArg Except.ok (BitVec.eq_of_toNat_eq ?_)
  have hhigh : (((n >>> 32).setWidth 32 / d.setWidth 32).setWidth 64).toNat = n.toNat / 2 ^ 32 / d.toNat := by
    rw [BitVec.toNat_setWidth_of_le (by omega), BitVec.toNat_udiv, hn1, hd0]
  have hq : n.toNat / d.toNat < 2 ^ 64 := (Nat.div_le_self _ _).trans_lt n.isLt
  have hfit : 2 ^ 32 * (n.toNat / 2 ^ 32 / d.toNat) < 2 ^ 64 := (Nat.le_add_left _ _).trans_lt (hsum ▸ hq)
  rw [BitVec.toNat_add, BitVec.toNat_mul, hhigh, hb, BitVec.toNat_setWidth_of_le (by omega), BitVec.toNat_ofNat,
    Nat.mod_eq_of_lt hlow, BitVec.toNat_udiv, Nat.mod_eq_of_lt hfit, ← hsum, Nat.mod_eq_of_lt hq]

/-- A larger divisor: the estimate is one too high, or right. -/
theorem udiv64_large (h : d >>> 32 ≠ 0) : udiv64 n d = .ok (n / d) := by
  have hn := n.isLt
  have hD := d.isLt
  have hd1 := toNat_first_word d
  have hpos : 0 < d.toNat / 2 ^ 32 := by
    rw [← Nat.shiftRight_eq_div_pow, ← BitVec.toNat_ushiftRight]
    exact toNat_pos_of_ne_zero h
  have hdpos : 0 < d.toNat := by omega
  have hne : (d >>> 32).setWidth 32 ≠ 0 := by
    intro hzero
    rw [hzero] at hd1
    exact hpos.ne hd1
  unfold udiv64
  dsimp only
  rw [if_neg h]
  split
  · next hlt =>
    rw [BitVec.lt_def] at hlt
    refine congrArg Except.ok (BitVec.eq_of_toNat_eq ?_)
    rw [BitVec.toNat_udiv, Nat.div_eq_of_lt hlt]
    rfl
  · next hle =>
    rw [BitVec.lt_def, Nat.not_lt] at hle
    obtain ⟨s, hs⟩ : ∃ s, s = nlz ((d >>> 32).setWidth 32) := ⟨_, rfl⟩
    obtain ⟨hlow, hhigh⟩ := nlz_spec hne
    rw [hd1, ← hs] at hlow hhigh
    rw [← hs]
    have hs31 : s ≤ 31 := by
      by_contra hc
      have hpow : 2 ^ 32 ≤ 2 ^ s := Nat.pow_le_pow_right (by decide) (by omega)
      have hmul : 1 * 2 ^ s ≤ d.toNat / 2 ^ 32 * 2 ^ s := Nat.mul_le_mul_right _ hpos
      omega
    obtain ⟨hlow', hhigh'⟩ := shifted_bounds hs31 hlow hhigh
    -- the first word of the divisor
    have hv : ((d <<< s >>> 32).setWidth 32).toNat = d.toNat * 2 ^ s / 2 ^ 32 := by
      rw [BitVec.toNat_setWidth, BitVec.toNat_ushiftRight, BitVec.toNat_shiftLeft, Nat.shiftLeft_eq,
        Nat.shiftRight_eq_div_pow, Nat.mod_eq_of_lt hhigh', Nat.mod_eq_of_lt (by omega)]
    have hhalf : (n >>> 1).toNat = n.toNat / 2 := by rw [BitVec.toNat_ushiftRight, Nat.shiftRight_eq_div_pow]
    have hvne : (d <<< s >>> 32).setWidth 32 ≠ 0 := by
      intro hzero
      rw [hzero] at hv
      have hv31 : 2 ^ 31 ≤ d.toNat * 2 ^ s / 2 ^ 32 := by omega
      have hv0 : 0 = d.toNat * 2 ^ s / 2 ^ 32 := hv
      omega
    have hfits : n.toNat / 2 / (d.toNat * 2 ^ s / 2 ^ 32) < 2 ^ 32 := by
      rw [Nat.div_lt_iff_lt_mul (by omega)]
      have hv31 : 2 ^ 31 ≤ d.toNat * 2 ^ s / 2 ^ 32 := by omega
      have hmul : 2 ^ 32 * 2 ^ 31 ≤ 2 ^ 32 * (d.toNat * 2 ^ s / 2 ^ 32) := Nat.mul_le_mul_left _ hv31
      omega
    rw [divl_ok hvne (by rw [hhalf, hv]; exact hfits), hhalf, hv]
    obtain ⟨hge, hle'⟩ := estimate_bounds n.isLt hs31 hlow' hhigh' hdpos
    set q := n.toNat / 2 / (d.toNat * 2 ^ s / 2 ^ 32) / 2 ^ (31 - s) with hq
    refine congrArg Except.ok ?_
    have hQ : ((BitVec.ofNat 32 (n.toNat / 2 / (d.toNat * 2 ^ s / 2 ^ 32)) >>> (31 - s)).setWidth 64).toNat = q := by
      rw [BitVec.toNat_setWidth_of_le (by omega), BitVec.toNat_ushiftRight, BitVec.toNat_ofNat,
        Nat.shiftRight_eq_div_pow, Nat.mod_eq_of_lt hfits]
    exact correct_estimate hdpos hle hQ hge hle'

/-- The quotient is exact, and no `divl` traps. -/
theorem udiv64_spec (hd : d ≠ 0) : udiv64 n d = .ok (n / d) := by
  by_cases h : d >>> 32 = 0
  · exact udiv64_small hd h
  · exact udiv64_large h

end

/-! ## Signed division -/

section

variable {n d : BitVec 64}

theorem absBits_eq (n : BitVec 64) : absBits n = if n.msb then -n else n := by
  unfold absBits
  rw [BitVec.ofNat_eq_ofNat, BitVec.zero_sle_eq_not_msb]
  cases n.msb <;> rfl

theorem sdiv64_eq (hd : d ≠ 0) : sdiv64 n d = .ok (n.sdiv d) := by
  have habs : absBits d ≠ 0 := by
    rw [absBits_eq]
    split
    · exact fun hzero => hd (BitVec.neg_eq_zero_iff.mp hzero)
    · exact hd
  unfold sdiv64
  rw [udiv64_spec habs, absBits_eq, absBits_eq, BitVec.sdiv_eq, BitVec.ofNat_eq_ofNat, BitVec.slt_zero_eq_msb,
    BitVec.slt_zero_eq_msb]
  cases n.msb <;> cases d.msb <;> rfl

/-- The quotient of signed integers is truncated. -/
theorem sdiv64_spec (hd : d ≠ 0) (h : ¬ (n = BitVec.intMin 64 ∧ d = -1)) :
    ∃ q, sdiv64 n d = .ok q ∧ q.toInt = n.toInt.tdiv d.toInt := by
  refine ⟨_, sdiv64_eq hd, BitVec.toInt_sdiv_of_ne_or_ne n d ?_⟩
  by_cases hn : n = BitVec.intMin 64
  · exact .inr fun hone => h ⟨hn, hone⟩
  · exact .inl hn

end

/-- **Division is exact, and does not trap.** -/
theorem division_exact :
    (∀ n d : BitVec 64, d ≠ 0 → ∃ q, udiv64 n d = .ok q ∧ q.toNat = n.toNat / d.toNat) ∧
    ∀ n d : BitVec 64, d ≠ 0 → ¬ (n.toInt = -2 ^ 63 ∧ d.toInt = -1) →
      ∃ q, sdiv64 n d = .ok q ∧ q.toInt = n.toInt.tdiv d.toInt := by
  refine ⟨fun n d hd => ⟨n / d, udiv64_spec hd, BitVec.toNat_udiv⟩, fun n d hd h => sdiv64_spec hd ?_⟩
  rintro ⟨rfl, rfl⟩
  exact h ⟨rfl, rfl⟩

theorem division_exact_seven : (∃ q, udiv64 7 2 = .ok q ∧ q.toNat = 7 / 2) ∧
    ∃ q, sdiv64 (-7) 2 = .ok q ∧ q.toInt = (-7 : Int).tdiv 2 :=
  ⟨division_exact.1 7 2 (by decide), division_exact.2 (-7) 2 (by decide) (by decide)⟩

/-! ## Remainders -/

section

variable {n d : BitVec 64}

/-- The low word of the remainder is returned. -/
theorem umoddi3_spec (hd : d ≠ 0) : ∃ r, umoddi3 n d = .ok r ∧ r.toNat = n.toNat % d.toNat % 2 ^ 32 := by
  have hrem : (n - d * (n / d)).toNat = n.toNat % d.toNat := by
    have hle : d.toNat * (n.toNat / d.toNat) ≤ n.toNat := Nat.mul_div_le _ _
    have hprod : (d * (n / d)).toNat = d.toNat * (n.toNat / d.toNat) := by
      rw [BitVec.toNat_mul, BitVec.toNat_udiv, Nat.mod_eq_of_lt (hle.trans_lt n.isLt)]
    rw [BitVec.toNat_sub_of_le (by rwa [BitVec.le_def, hprod]), hprod, Nat.mod_eq_sub_mul_div]
  refine ⟨((n - d * (n / d)).setWidth 32).setWidth 64, ?_, ?_⟩
  · unfold umoddi3 umod64
    rw [udiv64_spec hd]
    rfl
  · rw [BitVec.toNat_setWidth_of_le (by omega), BitVec.toNat_setWidth, hrem]

/-- The low word of the remainder, with its sign. -/
theorem moddi3_spec (hd : d ≠ 0) (h : ¬ (n = BitVec.intMin 64 ∧ d = -1)) :
    ∃ r, moddi3 n d = .ok r ∧ r.toInt = (n.toInt.tmod d.toInt).bmod (2 ^ 32) := by
  obtain ⟨q, hq, hdiv⟩ := sdiv64_spec hd h
  have hrem : (n - d * q).toInt = (n.toInt.tmod d.toInt).bmod (2 ^ 64) := by
    have htmod : n.toInt.tmod d.toInt = n.toInt - d.toInt * n.toInt.tdiv d.toInt := Int.tmod_def ..
    rw [BitVec.toInt_sub, BitVec.toInt_mul, hdiv, Int.sub_bmod_bmod, htmod]
  refine ⟨((n - d * q).setWidth 32).signExtend 64, ?_, ?_⟩
  · unfold moddi3 smod64
    rw [hq]
    rfl
  · rw [BitVec.toInt_signExtend_of_le (by omega), ← BitVec.signExtend_eq_setWidth_of_le _ (by omega),
      BitVec.toInt_signExtend_eq_toInt_bmod_of_le _ (by omega), hrem, Int.bmod_bmod_of_dvd (by decide)]

/-- **Quotient and remainder agree when the remainder fits in the type of `umod64` and `smod64`.** -/
theorem remainders_agree {n d : BitVec 64} (hd : d ≠ 0) :
    ((∃ q r, udivdi3 n d = .ok q ∧ umoddi3 n d = .ok r ∧ (r.toNat : Int) = n.toNat - d.toNat * q.toNat) ↔
      n.toNat % d.toNat < 2 ^ 32) ∧
    (¬ (n = BitVec.intMin 64 ∧ d = -1) →
      ((∃ q r, divdi3 n d = .ok q ∧ moddi3 n d = .ok r ∧ r.toInt = n.toInt - d.toInt * q.toInt) ↔
        -2 ^ 31 ≤ n.toInt.tmod d.toInt ∧ n.toInt.tmod d.toInt < 2 ^ 31)) := by
  refine ⟨?_, fun h => ?_⟩
  · obtain ⟨r, hr, hrem⟩ := umoddi3_spec (n := n) hd
    have hdiv : udivdi3 n d = .ok (n / d) := udiv64_spec hd
    have hexact : (n.toNat : Int) - d.toNat * (n / d).toNat = (n.toNat % d.toNat : Nat) := by
      rw [BitVec.toNat_udiv, ← Int.natCast_mul, ← Int.natCast_sub (Nat.mul_div_le _ _), Nat.mod_eq_sub_mul_div]
    constructor
    · rintro ⟨q, r', hq, hr', heq⟩
      rw [hdiv] at hq
      rw [hr] at hr'
      cases hq
      cases hr'
      rw [hexact] at heq
      omega
    · exact fun hlt => ⟨n / d, r, hdiv, hr, by rw [hexact, hrem, Nat.mod_eq_of_lt hlt]⟩
  · obtain ⟨r, hr, hrem⟩ := moddi3_spec hd h
    obtain ⟨q, hq, hdiv⟩ := sdiv64_spec hd h
    have hexact : n.toInt - d.toInt * q.toInt = n.toInt.tmod d.toInt := by rw [hdiv, Int.tmod_def]
    constructor
    · rintro ⟨q', r', hq', hr', heq⟩
      obtain rfl : q = q' := Except.ok.inj (hq.symm.trans hq')
      obtain rfl : r = r' := Except.ok.inj (hr.symm.trans hr')
      rw [hexact, hrem] at heq
      rw [← heq]
      have hlow := Int.le_bmod (x := n.toInt.tmod d.toInt) (m := 2 ^ 32) (by decide)
      have hhigh := Int.bmod_lt (x := n.toInt.tmod d.toInt) (m := 2 ^ 32) (by decide)
      omega
    · rintro ⟨hlow, hhigh⟩
      refine ⟨q, r, hq, hr, ?_⟩
      rw [hexact, hrem]
      exact Int.bmod_eq_of_le (by omega) (by omega)

end

theorem remainders_agree_small :
    (∃ q r, udivdi3 7 2 = .ok q ∧ umoddi3 7 2 = .ok r ∧
      (r.toNat : Int) = (7 : BitVec 64).toNat - (2 : BitVec 64).toNat * q.toNat) ∧
    ∃ q r, divdi3 (-7) 2 = .ok q ∧ moddi3 (-7) 2 = .ok r ∧
      r.toInt = (-7 : BitVec 64).toInt - (2 : BitVec 64).toInt * q.toInt :=
  ⟨(remainders_agree (by decide)).1.mpr (by decide),
    ((remainders_agree (by decide)).2 (by decide)).mpr (by decide)⟩

/-- The remainder of `2 ^ 32` by `2 ^ 33` is `2 ^ 32`, which is returned as zero. -/
theorem remainder_truncated : ¬ ∀ n d q r : BitVec 64, d ≠ 0 → udivdi3 n d = .ok q → umoddi3 n d = .ok r →
    (r.toNat : Int) = n.toNat - d.toNat * q.toNat := by
  intro h
  exact absurd (h 0x100000000 0x200000000 0 0 (by decide) (by decide) (by decide)) (by decide)

end Pintos
