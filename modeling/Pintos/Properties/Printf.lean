import Pintos.Properties.FormatInteger

/-!
# What `printf` prints for an integer

* `numberText` — a number as text
* `formatInteger_plain` — a conversion without flags prints the number alone
* `vprintf_conversion` — a format that is one conversion
* `printf_exact` — **the text is that of the argument, but for large ones with the modifiers `z` and `t`**
-/

namespace Pintos

open LittleEndian

/-! ## Numbers as text -/

/-- A number in a base, without leading zeros. -/
def numeral (b : IntegerBase) (n : Nat) : List Byte :=
  if n = 0 then [ch '0'] else ((Nat.digits b.base n).map fun d => b.digits.getD d 0).reverse

/-- An integer, with a minus sign if it is negative. -/
def numberText (b : IntegerBase) (n : Int) : List Byte := (if n < 0 then [ch '-'] else []) ++ numeral b n.natAbs

/-- A conversion without flags, width and precision. -/
def plainConversion (type : ArgType) : PrintfConversion := { flags := .none, width := 0, precision := -1, type := type }

section

variable {b : IntegerBase} {type : ArgType} {n n' : Nat}

theorem separated_false (g : Nat) (ds : List Byte) : ∀ cnt, separated false g cnt ds = ds := by
  induction ds with
  | nil => exact fun _ => rfl
  | cons d ds ih =>
    intro cnt
    rw [separated, if_neg (by rintro ⟨⟨⟩, _⟩), ih, List.nil_append]

/-- Without group, `#` and precision, the digits are the number alone. -/
theorem digitText_numeral {c : PrintfConversion} (b : IntegerBase) (n : Nat) (hgroup : c.flags.group = false)
    (hpound : c.flags.pound = false) (hprecision : c.precision = -1) : digitText n b c = numeral b n := by
  have hprec : precisionOf c = 1 := by rw [precisionOf, hprecision]; rfl
  unfold digitText paddedDigits numeral digitBytes
  dsimp only
  rw [hprec, hgroup, hpound, separated_false, if_neg nofun]
  split
  · next hzero =>
    rw [hzero, Nat.digits_zero]
    rfl
  · next hzero =>
    have hlen : 0 < (Nat.digits b.base n).length := by
      rw [List.length_pos_iff]
      exact fun hnil => hzero (Nat.digits_eq_nil_iff_eq_zero.mp hnil)
    rw [List.length_map, Nat.sub_eq_zero_of_le hlen, List.replicate_zero, List.append_nil]

theorem digitText_plain (b : IntegerBase) (n : Nat) (type : ArgType) :
    digitText n b (plainConversion type) = numeral b n := digitText_numeral b n rfl rfl rfl

theorem readDigits_numeral (hb : BaseValid b) (n : Nat) : readDigits b.base (numeral b n) = n := by
  rw [← digitText_plain b n .int]
  exact readDigits_digitText hb n _

theorem numeral_ne_minus (hb : BaseValid b) (n : Nat) : ∀ c ∈ numeral b n, c ≠ ch '-' := by
  intro c hc
  unfold numeral at hc
  split at hc
  · rw [List.mem_singleton.mp hc]
    decide
  · obtain ⟨d, hd, rfl⟩ := List.mem_map.mp (List.mem_reverse.mp hc)
    exact hb.sign d (Nat.digits_lt_base hb.one_lt hd)

/-- The text says which number it is. -/
theorem numberText_inj (hb : BaseValid b) {x y : Int} (h : numberText b x = numberText b y) : x = y := by
  have hread : ∀ {n n' : Nat}, numeral b n = numeral b n' → n = n' := by
    intro n n' he
    have hr := congrArg (readDigits b.base) he
    rwa [readDigits_numeral hb, readDigits_numeral hb] at hr
  have hminus : ∀ {n n' : Nat}, ch '-' :: numeral b n ≠ numeral b n' := fun he =>
    numeral_ne_minus hb _ (ch '-') (he ▸ List.mem_cons_self) rfl
  unfold numberText at h
  split at h <;> split at h
  · have habs := hread (List.cons_inj_right _ |>.mp h)
    omega
  · exact absurd h hminus
  · exact absurd h.symm hminus
  · have habs := hread h
    omega

/-! ## Conversions -/

/-- Without flags the text is the number alone. -/
theorem formatInteger_plain (hb : BaseValid b) (v : BitVec 64) (isSigned negative : Bool) (type : ArgType) :
    formatInteger v isSigned negative b (plainConversion type) =
      .ok ((if isSigned ∧ negative then [ch '-'] else []) ++ numeral b v.toNat) := by
  have hdigits := length_digitText_le (c := plainConversion type) hb v.isLt
  have hlead : prefixText v.toNat b (plainConversion type).flags = [] := if_neg fun h => nomatch h.1
  have hsign : signText isSigned negative (plainConversion type).flags =
      if isSigned ∧ negative then [ch '-'] else [] := by
    cases isSigned <;> cases negative <;> rfl
  have hpad : (wrapInt ((plainConversion type).width -
      naturalLength v.toNat isSigned negative b (plainConversion type))).toNat = 0 := by
    have hle : naturalLength v.toNat isSigned negative b (plainConversion type) ≤ 65 := by
      unfold naturalLength
      rw [hlead, hsign]
      split
      · rw [List.length_singleton, List.length_nil]
        omega
      · rw [List.length_nil]
        omega
    have hwidth : (plainConversion type).width = 0 := rfl
    rw [hwidth, wrapInt, Int.bmod_eq_of_le (by omega) (by omega)]
    omega
  rw [formatInteger_run hb, hpad, outputInteger_eq hb _ _ _ _ _ _ (.inr rfl), hlead, hsign, digitText_plain]
  refine congrArg Except.ok ?_
  show List.replicate 0 (ch ' ') ++ _ ++ [] ++ _ = _
  rw [List.replicate_zero, List.nil_append, List.append_nil]

end

section

variable {str : BitVec 64 → List Byte} {printf : List Byte → VaList → Except LibStop (List Byte)} {rounds : Nat}
  {format rest chars out : List Byte} {args args' args'' : VaList} {c : PrintfConversion} {conv : Byte}

theorem vprintfLoop_nil : vprintfLoop str printf rounds [] args out = .ok out := by
  cases rounds <;> rfl

/-- A round with a conversion. -/
theorem vprintfLoop_conversion (hformat : charAt format ≠ ch '%')
    (hparse : parseConversion format args = (c, conv :: rest, args'))
    (hconv : convert str printf c conv args' = .ok (chars, args'')) :
    vprintfLoop str printf (rounds + 1) (ch '%' :: format) args out =
      vprintfLoop str printf rounds rest args'' (out ++ chars) := by
  rw [vprintfLoop, if_neg (not_not.mpr rfl), if_neg hformat, hparse]
  show (convert str printf c conv args' >>= _) = _
  rw [hconv]
  rfl

end

/-! ## Modifiers -/

/-- The number of bits of an argument. -/
def ArgType.bits : ArgType → Nat
  | .char => 8
  | .short => 16
  | .int => 32
  | _ => 64

/-- The modifier of a type. -/
def ArgType.modifier : ArgType → List Byte
  | .char => [ch 'h', ch 'h']
  | .short => [ch 'h']
  | .int => []
  | .intmax => [ch 'j']
  | .long => [ch 'l']
  | .longlong => [ch 'l', ch 'l']
  | .ptrdifft => [ch 't']
  | .sizet => [ch 'z']

/-- The conversions of integers. -/
def INTEGER_CONVERSIONS : List Byte := [ch 'd', ch 'i', ch 'o', ch 'u', ch 'x', ch 'X']

theorem integerConversion_cases {conv : Byte} (h : conv ∈ INTEGER_CONVERSIONS) : conv = ch 'd' ∨ conv = ch 'i' ∨
    conv = ch 'o' ∨ conv = ch 'u' ∨ conv = ch 'x' ∨ conv = ch 'X' := by
  simpa [INTEGER_CONVERSIONS] using h

def signedConversion (conv : Byte) : Bool := conv = ch 'd' ∨ conv = ch 'i'

def conversionBase (conv : Byte) : IntegerBase :=
  if conv = ch 'o' then base_o else if conv = ch 'x' then base_x else if conv = ch 'X' then base_X else base_d

/-- The value of an argument of the type, signed or unsigned. -/
def argValue (type : ArgType) (conv : Byte) (arg : BitVec 64) : Int :=
  if signedConversion conv then (arg.setWidth type.bits).toInt else (arg.setWidth type.bits).toNat

/-- The value that is printed. -/
def printedValue (type : ArgType) (conv : Byte) (arg : BitVec 64) : Int :=
  if signedConversion conv then (signedValue type arg).toInt else (unsignedValue type arg).toNat

section

variable {str : BitVec 64 → List Byte} {printf : List Byte → VaList → Except LibStop (List Byte)} {type : ArgType}
  {conv : Byte} {arg : BitVec 64}

theorem conversionBase_valid (conv : Byte) : BaseValid (conversionBase conv) := by
  refine baseValid ?_
  unfold conversionBase BASES
  split_ifs <;> simp

theorem parseConversion_modifier (hconv : conv ∈ INTEGER_CONVERSIONS) (type : ArgType) (args : VaList) :
    parseConversion (type.modifier ++ [conv]) args = (plainConversion type, [conv], args) := by
  rcases integerConversion_cases hconv with rfl | rfl | rfl | rfl | rfl | rfl <;> cases type <;> rfl

theorem slt_zero (v : BitVec 64) : BitVec.slt v 0 = true ↔ v.toInt < 0 := by
  rw [BitVec.slt_iff_toInt_lt]
  exact Iff.rfl

/-- What is passed for the absolute value is it, also for the least value. -/
theorem toNat_absolute (v : BitVec 64) : (if BitVec.slt v 0 then -v else v).toNat = v.toInt.natAbs := by
  have hlt := v.isLt
  split
  · next h =>
    have hmsb : v.msb = true := by rwa [← BitVec.slt_zero_eq_msb]
    rw [BitVec.toInt_eq_msb_cond, hmsb, if_pos rfl, BitVec.toNat_neg]
    have hge := BitVec.le_toNat_of_msb_true hmsb
    omega
  · next h =>
    have hmsb : v.msb = false := by rwa [← BitVec.slt_zero_eq_msb, ← Bool.not_eq_true]
    rw [BitVec.toInt_eq_msb_cond, hmsb, if_neg nofun]
    rfl

/-- The absolute value, and whether the value is negative. -/
theorem formatInteger_signed (v : BitVec 64) (type : ArgType) :
    formatInteger (if BitVec.slt v 0 then -v else v) true (BitVec.slt v 0) base_d (plainConversion type) =
      .ok (numberText base_d v.toInt) := by
  rw [formatInteger_plain (baseValid List.mem_cons_self), numberText, toNat_absolute]
  by_cases h : v.toInt < 0
  · rw [if_pos ⟨rfl, (slt_zero v).mpr h⟩, if_pos h]
  · rw [if_neg fun hc => h ((slt_zero v).mp hc.2), if_neg h]

theorem convert_integer (hconv : conv ∈ INTEGER_CONVERSIONS) (type : ArgType) (args : VaList) :
    convert str printf (plainConversion type) conv args =
      .ok (numberText (conversionBase conv) (printedValue type conv (args 0)), args.next) := by
  have hunsigned : ∀ b : IntegerBase, BaseValid b → ∀ v : BitVec 64,
      formatInteger v false false b (plainConversion type) = .ok (numberText b v.toNat) := by
    intro b hb v
    rw [formatInteger_plain hb, numberText, if_neg (Int.not_lt.mpr (Int.natCast_nonneg _)), if_neg nofun]
    rfl
  have hok := conversionBase_valid
  unfold convert printedValue
  dsimp only
  rcases integerConversion_cases hconv with rfl | rfl | rfl | rfl | rfl | rfl
  · rw [if_pos (by decide), formatInteger_signed]
    rfl
  · rw [if_pos (by decide), formatInteger_signed]
    rfl
  · rw [if_neg (by decide), if_pos (by decide)]
    exact congrArg (· >>= _) (hunsigned _ (hok (ch 'o')) _)
  · rw [if_neg (by decide), if_pos (by decide)]
    exact congrArg (· >>= _) (hunsigned _ (hok (ch 'u')) _)
  · rw [if_neg (by decide), if_pos (by decide)]
    exact congrArg (· >>= _) (hunsigned _ (hok (ch 'x')) _)
  · rw [if_neg (by decide), if_pos (by decide)]
    exact congrArg (· >>= _) (hunsigned _ (hok (ch 'X')) _)

/-- A format that is one conversion prints one value. -/
theorem vprintf_conversion (hconv : conv ∈ INTEGER_CONVERSIONS) (type : ArgType) (args : VaList) (depth rounds : Nat) :
    vprintf str (depth + 1) (rounds + 1) (ch '%' :: (type.modifier ++ [conv])) args =
      .ok (numberText (conversionBase conv) (printedValue type conv (args 0))) := by
  have hpercent : charAt (type.modifier ++ [conv]) ≠ ch '%' := by
    rcases integerConversion_cases hconv with rfl | rfl | rfl | rfl | rfl | rfl <;> cases type <;> decide
  rw [vprintf, vprintfLoop_conversion hpercent (parseConversion_modifier hconv type args)
    (convert_integer hconv type args), vprintfLoop_nil, List.nil_append]

/-- A large `size_t` is taken for one of 32 bits. -/
theorem signedValue_toInt (type : ArgType) (arg : BitVec 64) : (signedValue type arg).toInt =
    if type = .sizet ∧ 2 ^ 31 ≤ arg.toInt then arg.toInt - 2 ^ 32 else (arg.setWidth type.bits).toInt := by
  cases type with
  | sizet =>
    have hslt : BitVec.slt (SIZE_MAX / 2) arg = true ↔ 2 ^ 31 ≤ arg.toInt := by
      rw [BitVec.slt_iff_toInt_lt]
      have hmax : (SIZE_MAX / 2).toInt = 2 ^ 31 - 1 := by decide
      rw [hmax]
      omega
    have hone : SIZE_MAX.toInt = 2 ^ 32 - 1 := by decide
    have hone' : (1 : BitVec 64).toInt = 1 := by decide
    have hlt := arg.toInt_lt
    unfold signedValue
    dsimp only
    by_cases h : 2 ^ 31 ≤ arg.toInt
    · rw [if_pos (hslt.mpr h), if_pos ⟨rfl, h⟩, BitVec.toInt_sub, BitVec.toInt_sub, hone, hone', Int.bmod_sub_bmod,
        Int.bmod_eq_of_le (by omega) (by omega)]
      omega
    · rw [if_neg fun hc => h (hslt.mp hc), if_neg fun hc => h hc.2]
      rfl
  | char => exact (BitVec.toInt_signExtend_of_le (by decide)).trans (if_neg fun h => nomatch h.1).symm
  | short => exact (BitVec.toInt_signExtend_of_le (by decide)).trans (if_neg fun h => nomatch h.1).symm
  | int => exact (BitVec.toInt_signExtend_of_le (by decide)).trans (if_neg fun h => nomatch h.1).symm
  | intmax | long | longlong | ptrdifft => exact (if_neg fun h => nomatch h.1).symm

/-- Of a `ptrdiff_t` 32 bits are left. -/
theorem unsignedValue_toNat (type : ArgType) (arg : BitVec 64) : (unsignedValue type arg).toNat =
    if type = .ptrdifft then arg.toNat % 2 ^ 32 else (arg.setWidth type.bits).toNat := by
  cases type with
  | ptrdifft =>
    have hmask : (PTRDIFF_MAX <<< 1 ||| 1).toNat = 2 ^ 32 - 1 := by decide
    rw [if_pos rfl, unsignedValue, BitVec.toNat_and, hmask, Nat.and_two_pow_sub_one_eq_mod]
  | char => exact (BitVec.toNat_setWidth_of_le (by decide)).trans (if_neg nofun).symm
  | short => exact (BitVec.toNat_setWidth_of_le (by decide)).trans (if_neg nofun).symm
  | int => exact (BitVec.toNat_setWidth_of_le (by decide)).trans (if_neg nofun).symm
  | intmax | long | longlong | sizet => exact (if_neg nofun).symm

theorem printedValue_eq_iff (type : ArgType) (conv : Byte) (arg : BitVec 64) :
    printedValue type conv arg = argValue type conv arg ↔
      (type = .sizet ∧ signedConversion conv → argValue type conv arg < 2 ^ 31) ∧
        (type = .ptrdifft ∧ ¬ signedConversion conv → argValue type conv arg < 2 ^ 32) := by
  unfold printedValue argValue
  by_cases hsigned : signedConversion conv = true
  · rw [if_pos hsigned, if_pos hsigned, signedValue_toInt]
    by_cases htype : type = .sizet
    · subst htype
      have hself : (arg.setWidth ArgType.sizet.bits).toInt = arg.toInt := rfl
      rw [hself]
      split
      · next h => exact ⟨fun heq => by omega, fun hc => absurd (hc.1 ⟨rfl, hsigned⟩) (by omega)⟩
      · next h =>
        have hsmall : arg.toInt < 2 ^ 31 := Int.not_le.mp fun hge => h ⟨rfl, hge⟩
        exact ⟨fun _ => ⟨fun _ => hsmall, fun hc => absurd hsigned hc.2⟩, fun _ => rfl⟩
    · rw [if_neg fun h => htype h.1]
      exact ⟨fun _ => ⟨fun hc => absurd hc.1 htype, fun hc => absurd hsigned hc.2⟩, fun _ => rfl⟩
  · rw [if_neg hsigned, if_neg hsigned, unsignedValue_toNat]
    by_cases htype : type = .ptrdifft
    · subst htype
      have hself : (arg.setWidth ArgType.ptrdifft.bits).toNat = arg.toNat := rfl
      rw [if_pos rfl, hself]
      constructor
      · exact fun heq => ⟨fun hc => absurd hc.2 hsigned, fun _ => by omega⟩
      · intro hc
        have hlt := hc.2 ⟨rfl, hsigned⟩
        omega
    · rw [if_neg htype]
      exact ⟨fun _ => ⟨fun hc => absurd hc.2 hsigned, fun hc => absurd hc.1 htype⟩, fun _ => rfl⟩

end

/-- **The text of a conversion is the argument, unless it is a `size_t` of more than 31 bits that is printed as signed,
or a `ptrdiff_t` of more than 32 bits that is printed as unsigned.** -/
theorem printf_exact {str : BitVec 64 → List Byte} {args : VaList} {type : ArgType} {conv : Byte}
    (hconv : conv ∈ INTEGER_CONVERSIONS) :
    vprintf str 2 (type.modifier.length + 2) (ch '%' :: (type.modifier ++ [conv])) args =
        .ok (numberText (conversionBase conv) (argValue type conv (args 0))) ↔
      (type = .sizet ∧ signedConversion conv → argValue type conv (args 0) < 2 ^ 31) ∧
        (type = .ptrdifft ∧ ¬ signedConversion conv → argValue type conv (args 0) < 2 ^ 32) := by
  rw [vprintf_conversion hconv, ← printedValue_eq_iff]
  exact ⟨fun h => numberText_inj (conversionBase_valid conv) (Except.ok.inj h), fun h => by rw [h]⟩

theorem printf_exact_negative : vprintf (fun _ => []) 2 2 [ch '%', ch 'd'] (fun _ => -42) =
    .ok (numberText base_d (argValue .int (ch 'd') (-42))) := by
  have hiff := @printf_exact (fun _ => []) (fun _ => -42) .int (ch 'd') List.mem_cons_self
  refine hiff.mpr ⟨?_, ?_⟩
  · exact fun h => nomatch h.1
  · exact fun h => nomatch h.1

/-- `%zd` of `2 ^ 31` prints −2147483648. -/
theorem size_printed_negative : ¬ ∀ (str : BitVec 64 → List Byte) (args : VaList) (type : ArgType) (conv : Byte),
    conv ∈ INTEGER_CONVERSIONS →
      vprintf str 2 (type.modifier.length + 2) (ch '%' :: (type.modifier ++ [conv])) args =
        .ok (numberText (conversionBase conv) (argValue type conv (args 0))) := by
  intro h
  have htext := h (fun _ => []) (fun _ => 0x80000000) .sizet (ch 'd') List.mem_cons_self
  rw [vprintf_conversion List.mem_cons_self] at htext
  exact absurd (numberText_inj (conversionBase_valid (ch 'd')) (Except.ok.inj htext)) (by decide)

end Pintos
