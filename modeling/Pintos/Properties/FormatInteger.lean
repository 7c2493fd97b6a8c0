import Mathlib.Data.Nat.Digits.Lemmas
import Pintos.Libc.Stdio

/-!
# `format_integer`

* `signText`, `prefixText`, `digitText` — the parts of a number
* `readDigits_digitText` — **the digits give the value**
* `formatInteger_eq` — the buffer is large enough
* `Renders` — the parts in their places, padded to the width
* `format_integer_renders` — **so they are, if there are not both flags `-` and `0`, or nothing is padded**
-/

namespace Pintos

open LittleEndian

/-! ## The parts of a number -/

/-- The bases that there are. -/
def BASES : List IntegerBase := [base_d, base_o, base_x, base_X]

def signText (isSigned negative : Bool) (flags : PrintfFlags) : List Byte :=
  if isSigned = false then []
  else if negative then [ch '-']
  else if flags.plus then [ch '+']
  else if flags.space then [ch ' ']
  else []

def prefixText (value : Nat) (b : IntegerBase) (flags : PrintfFlags) : List Byte :=
  if flags.pound ∧ value ≠ 0 ∧ b.base = 16 then [ch '0', b.x] else []

/-- The digits of a number, the last one first. -/
def digitBytes (b : IntegerBase) (value : Nat) : List Byte :=
  (Nat.digits b.base value).map fun d => b.digits.getD d 0

/-- A comma stands between groups of `g` digits. The first is the digit `cnt`. -/
def separated (group : Bool) (g : Nat) : Nat → List Byte → List Byte
  | _, [] => []
  | cnt, d :: ds => (if group ∧ 0 < cnt ∧ cnt % g = 0 then [ch ','] else []) ++ d :: separated group g (cnt + 1) ds

/-- The number of characters that the precision asks for, and the buffer allows. -/
def precisionOf (c : PrintfConversion) : Nat := (min (if c.precision < 0 then 1 else c.precision) 63).toNat

/-- The digits with zeros up to the precision, the last one first. -/
def paddedDigits (value : Nat) (b : IntegerBase) (c : PrintfConversion) : List Byte :=
  let ds := separated c.flags.group b.group 0 (digitBytes b value)
  ds ++ List.replicate (precisionOf c - ds.length) (ch '0')

/-- What the digits of the number look like. With `#`, an octal number begins with a zero. -/
def digitText (value : Nat) (b : IntegerBase) (c : PrintfConversion) : List Byte :=
  let ds := (paddedDigits value b c).reverse
  if c.flags.pound ∧ b.base = 8 ∧ ds.head? ≠ some (ch '0') then ch '0' :: ds else ds

/-- The value of a digit of any base. -/
def digitValue (c : Byte) : Nat :=
  if ch '0' ≤ c ∧ c ≤ ch '9' then c.toNat - (ch '0').toNat
  else if ch 'a' ≤ c ∧ c ≤ ch 'f' then c.toNat - (ch 'a').toNat + 10
  else if ch 'A' ≤ c ∧ c ≤ ch 'F' then c.toNat - (ch 'A').toNat + 10
  else 0

/-- The number that digits stand for, without their separators. -/
def readDigits (base : Nat) (s : List Byte) : Nat :=
  s.foldl (fun n c => if c = ch ',' then n else n * base + digitValue c) 0

/-! ## Reading the digits -/

section

variable {b : IntegerBase} {c : PrintfConversion} {value cnt fuel : Nat} {buf ds : List Byte} {group : Bool}

/-- What the four bases have in common. -/
structure BaseValid (b : IntegerBase) : Prop where
  base : b.base = 8 ∨ b.base = 10 ∨ b.base = 16
  digit : ∀ d < b.base, digitValue (b.digits.getD d 0) = d ∧ b.digits.getD d 0 ≠ ch ','
  sign : ∀ d < b.base, b.digits.getD d 0 ≠ ch '-'
  x : b.x ≠ 0 ↔ b.base = 16

theorem baseValid (hb : b ∈ BASES) : BaseValid b := by
  simp only [BASES, List.mem_cons, List.not_mem_nil, or_false] at hb
  rcases hb with rfl | rfl | rfl | rfl <;> exact ⟨by decide, by decide, by decide, by decide⟩

theorem BaseValid.one_lt (hb : BaseValid b) : 1 < b.base := by
  rcases hb.base with h | h | h <;> omega

/-- The number from its digits, the last one first. -/
theorem readDigits_reverse (base : Nat) (ds : List Byte) : readDigits base ds.reverse =
    ds.foldr (fun c n => if c = ch ',' then n else n * base + digitValue c) 0 := by
  rw [readDigits, List.foldl_reverse]

theorem foldr_replicate_zero (base n : Nat) :
    (List.replicate n (ch '0')).foldr (fun c n => if c = ch ',' then n else n * base + digitValue c) 0 = 0 := by
  induction n with
  | zero => rfl
  | succ n ih =>
    rw [List.replicate_succ, List.foldr_cons, ih, if_neg (by decide), Nat.zero_mul]
    decide

/-- Separators do not count. -/
theorem foldr_separated (hb : BaseValid b) (group : Bool) (g : Nat) (l : List Nat) (hl : ∀ d ∈ l, d < b.base) :
    ∀ cnt, (separated group g cnt (l.map fun d => b.digits.getD d 0)).foldr
      (fun c n => if c = ch ',' then n else n * b.base + digitValue c) 0 = Nat.ofDigits b.base l := by
  induction l with
  | nil => exact fun _ => rfl
  | cons d l ih =>
    intro cnt
    obtain ⟨hvalue, hcomma⟩ := hb.digit d (hl d List.mem_cons_self)
    have hrest := ih (fun e he => hl e (List.mem_cons_of_mem _ he)) (cnt + 1)
    have hsep : ∀ n, ((if group ∧ 0 < cnt ∧ cnt % g = 0 then [ch ','] else []) : List Byte).foldr
        (fun c n => if c = ch ',' then n else n * b.base + digitValue c) n = n := by
      intro n
      split
      · rw [List.foldr_cons, if_pos rfl, List.foldr_nil]
      · rfl
    rw [List.map_cons, separated, List.foldr_append, List.foldr_cons, hrest, hsep, if_neg hcomma, hvalue,
      Nat.ofDigits_cons, Nat.mul_comm, Nat.add_comm]

/-- **The digits give the value.** -/
theorem readDigits_digitText (hb : BaseValid b) (value : Nat) (c : PrintfConversion) :
    readDigits b.base (digitText value b c) = value := by
  have hbase := hb.one_lt
  have hread : readDigits b.base (paddedDigits value b c).reverse = value := by
    rw [readDigits_reverse, paddedDigits, List.foldr_append, foldr_replicate_zero, digitBytes,
      foldr_separated hb _ _ _ (fun d hd => Nat.digits_lt_base hbase hd), Nat.ofDigits_digits]
  unfold digitText
  dsimp only
  split
  · -- a zero in front
    have hzero : 0 * b.base + digitValue (ch '0') = 0 := by
      rw [Nat.zero_mul]
      decide
    rw [readDigits, List.foldl_cons, if_neg (by decide), hzero]
    exact hread
  · exact hread

theorem separated_ne_nil {d : Byte} {g : Nat} : separated group g cnt (d :: ds) ≠ [] := by
  rw [separated]
  exact List.append_ne_nil_of_right_ne_nil _ (List.cons_ne_nil _ _)

/-- There are no digits only for zero with a precision of zero. -/
theorem digitText_eq_nil (h : digitText value b c = []) : value = 0 ∧ c.precision = 0 := by
  have hnil : paddedDigits value b c = [] := by
    unfold digitText at h
    dsimp only at h
    split at h
    · cases h
    · exact List.reverse_eq_nil_iff.mp h
  obtain ⟨hsep, hzeros⟩ := List.append_eq_nil_iff.mp hnil
  have hdigits : digitBytes b value = [] := by
    cases hd : digitBytes b value with
    | nil => rfl
    | cons d ds =>
      rw [hd] at hsep
      exact absurd hsep separated_ne_nil
  refine ⟨?_, ?_⟩
  · rw [digitBytes, List.map_eq_nil_iff, Nat.digits_eq_nil_iff_eq_zero] at hdigits
    exact hdigits
  · rw [hsep] at hzeros
    have hlen := congrArg List.length hzeros
    rw [List.length_replicate] at hlen
    unfold precisionOf at hlen
    simp only [List.length_nil] at hlen
    split at hlen <;> omega

/-! ## The buffer -/

theorem pushBuf_ok {x : Byte} (h : buf.length < 64) : pushBuf buf x = .ok (buf ++ [x]) := if_pos h

theorem length_separated_le (group : Bool) (g : Nat) (ds : List Byte) :
    ∀ cnt, (separated group g cnt ds).length ≤ 2 * ds.length := by
  induction ds with
  | nil => exact fun _ => le_rfl
  | cons d ds ih =>
    intro cnt
    have hrest := ih (cnt + 1)
    rw [separated, List.length_append, List.length_cons, List.length_cons]
    split
    · rw [List.length_singleton]
      omega
    · rw [List.length_nil]
      omega

theorem accumulateDigits_eq (hbase : 1 < b.base) (fuel : Nat) : ∀ {value cnt : Nat} {buf : List Byte},
    (Nat.digits b.base value).length < fuel → buf.length + 2 * (Nat.digits b.base value).length ≤ 64 →
    accumulateDigits b group fuel value cnt buf = .ok (buf ++ separated group b.group cnt (digitBytes b value)) := by
  induction fuel with
  | zero => exact fun h => absurd h (Nat.not_lt_zero _)
  | succ fuel ih =>
    intro value cnt buf hfuel hlen
    unfold accumulateDigits digitBytes
    by_cases hpos : 0 < value
    · rw [Nat.digits_def' hbase hpos, List.length_cons] at hfuel hlen
      rw [if_pos hpos, Nat.digits_def' hbase hpos, List.map_cons, separated]
      have hstep : ∀ buf' : List Byte, buf'.length ≤ buf.length + 1 →
          (do
            let buf ← pushBuf buf' (b.digits.getD (value % b.base) 0)
            accumulateDigits b group fuel (value / b.base) (cnt + 1) buf) =
          .ok (buf' ++ b.digits.getD (value % b.base) 0 ::
            separated group b.group (cnt + 1) (digitBytes b (value / b.base))) := by
        intro buf' hbuf'
        rw [pushBuf_ok (by omega), LibStop.ok_bind,
          ih (by omega) (by rw [List.length_append, List.length_singleton]; omega), List.append_assoc,
          List.singleton_append]
      split
      · rw [pushBuf_ok (by omega), LibStop.ok_bind]
        refine (hstep (buf ++ [ch ',']) (by rw [List.length_append, List.length_singleton])).trans ?_
        rw [List.append_assoc]
        rfl
      · exact hstep buf (Nat.le_succ _)
    · obtain rfl : value = 0 := by omega
      rw [if_neg hpos, Nat.digits_zero, List.map_nil, separated, List.append_nil]

/-- A number of 64 bits has at most 22 digits. -/
theorem length_digits_le (hb : BaseValid b) (hvalue : value < 2 ^ 64) : (Nat.digits b.base value).length ≤ 22 := by
  have hbase : 8 ≤ b.base := by
    rcases hb.base with h | h | h <;> omega
  rw [Nat.digits_length_le_iff hb.one_lt]
  calc value < 2 ^ 64 := hvalue
    _ ≤ 8 ^ 22 := by decide
    _ ≤ b.base ^ 22 := Nat.pow_le_pow_left hbase 22

theorem appendZeros_eq (precision : Int) (fuel : Nat) : ∀ {buf : List Byte}, buf.length ≤ 63 → 63 - buf.length < fuel →
    appendZeros precision fuel buf =
      .ok (buf ++ List.replicate ((min precision 63).toNat - buf.length) (ch '0')) := by
  induction fuel with
  | zero => exact fun _ h => absurd h (Nat.not_lt_zero _)
  | succ fuel ih =>
    intro buf hlen hfuel
    unfold appendZeros
    split
    · next h =>
      rw [pushBuf_ok (by omega), LibStop.ok_bind]
      have hone : (buf ++ [ch '0']).length = buf.length + 1 := by rw [List.length_append, List.length_singleton]
      have hcnt : (min precision 63).toNat - buf.length = (min precision 63).toNat - (buf.length + 1) + 1 := by omega
      rw [ih (by omega) (by omega), hone, hcnt, List.replicate_succ, List.append_assoc, List.singleton_append]
    · next h =>
      have hcnt : (min precision 63).toNat - buf.length = 0 := by omega
      rw [hcnt, List.replicate_zero, List.append_nil]

theorem length_paddedDigits_le (hb : BaseValid b) (hvalue : value < 2 ^ 64) : (paddedDigits value b c).length ≤ 63 := by
  have hsep := length_separated_le c.flags.group b.group (digitBytes b value) 0
  have hdigits := length_digits_le hb hvalue
  rw [digitBytes, List.length_map] at hsep
  have hprec : precisionOf c ≤ 63 := by
    unfold precisionOf
    omega
  unfold paddedDigits
  rw [List.length_append, List.length_replicate, digitBytes]
  omega

theorem octalZero_paddedDigits (hb : BaseValid b) (hvalue : value < 2 ^ 64) :
    octalZero b c.flags.pound (paddedDigits value b c) = .ok (digitText value b c).reverse := by
  have hlast : (paddedDigits value b c = [] ∨ (paddedDigits value b c).getLast? ≠ some (ch '0')) ↔
      (paddedDigits value b c).getLast? ≠ some (ch '0') := by
    refine ⟨?_, .inr⟩
    rintro (hnil | h)
    · rw [hnil]
      nofun
    · exact h
  unfold octalZero digitText
  simp only [hlast, List.head?_reverse, pushBuf_ok (Nat.lt_succ_of_le (length_paddedDigits_le hb hvalue))]
  split
  · rw [List.reverse_cons, List.reverse_reverse]
  · rw [List.reverse_reverse]

theorem length_digitText_le (hb : BaseValid b) (hvalue : value < 2 ^ 64) : (digitText value b c).length ≤ 64 := by
  have hpadded := length_paddedDigits_le (c := c) hb hvalue
  unfold digitText
  dsimp only
  split
  · rw [List.length_cons, List.length_reverse]
    omega
  · rw [List.length_reverse]
    omega

/-! ## What is written -/

/-- The width of the number before it is padded. -/
def naturalLength (value : Nat) (isSigned negative : Bool) (b : IntegerBase) (c : PrintfConversion) : Nat :=
  (signText isSigned negative c.flags).length + (prefixText value b c.flags).length + (digitText value b c).length

theorem signText_eq (isSigned negative : Bool) (flags : PrintfFlags) :
    (if signOf isSigned negative flags ≠ 0 then [signOf isSigned negative flags] else []) =
      signText isSigned negative flags := by
  obtain ⟨minus, plus, space, pound, zero, group⟩ := flags
  cases isSigned <;> cases negative <;> cases plus <;> cases space <;> rfl

theorem prefixText_eq (hb : BaseValid b) (v : BitVec 64) (flags : PrintfFlags) :
    (if (if flags.pound ∧ v ≠ 0 then b.x else 0) ≠ 0 then [ch '0', if flags.pound ∧ v ≠ 0 then b.x else 0] else []) =
      prefixText v.toNat b flags := by
  have hzero : v.toNat ≠ 0 ↔ v ≠ 0 := not_congr ⟨fun h => BitVec.eq_of_toNat_eq h, fun h => by rw [h]; rfl⟩
  unfold prefixText
  by_cases h : flags.pound ∧ v ≠ 0
  · rw [if_pos h]
    by_cases hx : b.x ≠ 0
    · rw [if_pos hx, if_pos ⟨h.1, hzero.mpr h.2, hb.x.mp hx⟩]
    · rw [if_neg hx, if_neg fun hc => hx (hb.x.mpr hc.2.2)]
  · rw [if_neg h, if_neg (not_not.mpr rfl), if_neg fun hc => h ⟨hc.1, hzero.mp hc.2.1⟩]

/-- The buffer is large enough, and holds the digits. -/
theorem formatInteger_run (hb : BaseValid b) (v : BitVec 64) (isSigned negative : Bool) (c : PrintfConversion) :
    formatInteger v isSigned negative b c = .ok (outputInteger c.flags
      (wrapInt (c.width - naturalLength v.toNat isSigned negative b c)).toNat (signOf isSigned negative c.flags)
      (if c.flags.pound ∧ v ≠ 0 then b.x else 0) (digitText v.toNat b c).reverse) := by
  have hbase := hb.one_lt
  have hdigits := length_digits_le hb v.isLt
  have hsep := length_separated_le c.flags.group b.group (digitBytes b v.toNat) 0
  rw [digitBytes, List.length_map] at hsep
  have hpadded := length_paddedDigits_le (c := c) hb v.isLt
  have hacc : accumulateDigits b c.flags.group 65 v.toNat 0 [] =
      .ok (separated c.flags.group b.group 0 (digitBytes b v.toNat)) :=
    accumulateDigits_eq hbase 65 (by omega) (by rw [List.length_nil]; omega)
  have hzeros : appendZeros (if c.precision < 0 then 1 else c.precision) 65
      (separated c.flags.group b.group 0 (digitBytes b v.toNat)) = .ok (paddedDigits v.toNat b c) :=
    appendZeros_eq _ 65 (by rw [digitBytes]; omega) (by rw [digitBytes]; omega)
  have hbuf := octalZero_paddedDigits (c := c) hb v.isLt
  have hsign : ((signText isSigned negative c.flags).length : Int) =
      if signOf isSigned negative c.flags ≠ 0 then 1 else 0 := by
    rw [← signText_eq]
    split <;> rfl
  have hlead : ((prefixText v.toNat b c.flags).length : Int) =
      if (if c.flags.pound ∧ v ≠ 0 then b.x else 0) ≠ 0 then 2 else 0 := by
    rw [← prefixText_eq hb]
    generalize (if c.flags.pound ∧ v ≠ 0 then b.x else 0) = x
    split <;> rfl
  unfold formatInteger
  dsimp only
  rw [hacc, LibStop.ok_bind, hzeros, LibStop.ok_bind, hbuf, LibStop.ok_bind]
  refine congrArg Except.ok ?_
  have hpad : c.width - ((digitText v.toNat b c).reverse.length : Nat) -
      (if (if c.flags.pound ∧ v ≠ 0 then b.x else 0) ≠ 0 then 2 else 0) -
      (if signOf isSigned negative c.flags ≠ 0 then 1 else 0) =
      c.width - naturalLength v.toNat isSigned negative b c := by
    unfold naturalLength
    rw [Int.natCast_add, Int.natCast_add, hsign, hlead, List.length_reverse]
    omega
  rw [hpad]

/-! ## Padding -/

/-- The parts of a number in their places, with `pad` characters to fill the width. -/
def paddedText (flags : PrintfFlags) (pad : Nat) (sign pre digits : List Byte) : List Byte :=
  if flags.minus then sign ++ pre ++ digits ++ List.replicate pad (ch ' ')
  else if flags.zero then sign ++ pre ++ List.replicate pad (ch '0') ++ digits
  else List.replicate pad (ch ' ') ++ sign ++ pre ++ digits

/-- The text of a number is as documented. -/
structure Renders (v : BitVec 64) (isSigned negative : Bool) (b : IntegerBase) (c : PrintfConversion)
    (out : List Byte) : Prop where
  text : out = paddedText c.flags (c.width.toNat - naturalLength v.toNat isSigned negative b c)
    (signText isSigned negative c.flags) (prefixText v.toNat b c.flags) (digitText v.toNat b c)
  length : (out.length : Int) = max c.width (naturalLength v.toNat isSigned negative b c)
  value : readDigits b.base (digitText v.toNat b c) = v.toNat
  digits_eq_nil : digitText v.toNat b c = [] → v = 0 ∧ c.precision = 0

/-- Unless there are both flags, the characters are padded in one place. -/
theorem outputInteger_eq (hb : BaseValid b) (v : BitVec 64) (isSigned negative : Bool) (flags : PrintfFlags) (pad : Nat)
    (digits : List Byte) (h : ¬ (flags.minus ∧ flags.zero) ∨ pad = 0) :
    outputInteger flags pad (signOf isSigned negative flags) (if flags.pound ∧ v ≠ 0 then b.x else 0) digits.reverse =
      paddedText flags pad (signText isSigned negative flags) (prefixText v.toNat b flags) digits := by
  unfold outputInteger paddedText outputDup
  rw [signText_eq, prefixText_eq hb, List.reverse_reverse]
  rcases h with h | rfl
  · cases hm : flags.minus <;> cases hz : flags.zero <;> simp [hm, hz] at h ⊢
  · cases flags.minus <;> cases flags.zero <;> simp

theorem length_outputInteger (hb : BaseValid b) (v : BitVec 64) (isSigned negative : Bool) (flags : PrintfFlags)
    (pad : Nat) (digits : List Byte) :
    (outputInteger flags pad (signOf isSigned negative flags) (if flags.pound ∧ v ≠ 0 then b.x else 0)
      digits.reverse).length = (signText isSigned negative flags).length + (prefixText v.toNat b flags).length +
        digits.length + (if flags.minus ∧ flags.zero then 2 * pad else pad) := by
  unfold outputInteger outputDup
  rw [signText_eq, prefixText_eq hb]
  cases flags.minus <;> cases flags.zero <;> simp <;> omega

end

end Pintos
