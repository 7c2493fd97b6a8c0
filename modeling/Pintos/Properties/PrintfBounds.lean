import Pintos.Properties.Printf

/-!
# The end of the format

* `afterConversion` — what is left behind flags, width, precision and length
* `Complete` — each conversion of the format has its character
* `printf_within_format` — **`__vprintf` stays inside the formats that are complete, and inside no other**
-/

namespace Pintos

open LittleEndian

/-! ## Complete formats -/

local instance : LawfulBEq Byte := inferInstance

def isFlag (c : Byte) : Bool := c ∈ [ch '-', ch '+', ch ' ', ch '#', ch '0', 0x27]

/-- Behind digits or `*`. -/
def afterNumber (format : List Byte) : List Byte :=
  if charAt format = ch '*' then format.tail else format.dropWhile isdigit

def afterPrecision (format : List Byte) : List Byte :=
  if charAt format = ch '.' then afterNumber format.tail else format

/-- Behind `hh`, `h`, `j`, `l`, `ll`, `t` or `z`. -/
def afterLength (format : List Byte) : List Byte :=
  if charAt format = ch 'h' ∨ charAt format = ch 'l' then
    if charAt format.tail = charAt format then format.tail.tail else format.tail
  else if charAt format ∈ [ch 'j', ch 't', ch 'z'] then format.tail
  else format

def afterConversion (format : List Byte) : List Byte :=
  afterLength (afterPrecision (afterNumber (format.dropWhile isFlag)))

/-- No conversion is cut off by the end of the format. -/
inductive Complete : List Byte → Prop where
  | nil : Complete []
  | literal {c : Byte} {format : List Byte} (hc : c ≠ ch '%') (h : Complete format) : Complete (c :: format)
  | percent {format : List Byte} (h : Complete format) : Complete (ch '%' :: ch '%' :: format)
  | conversion {conv : Byte} {format rest : List Byte} (hformat : charAt format ≠ ch '%')
      (hrest : afterConversion format = conv :: rest) (h : Complete rest) : Complete (ch '%' :: format)

section

variable {format rest : List Byte} {c conv : Byte} {args : VaList} {f : PrintfFlags}

theorem complete_literal (hc : c ≠ ch '%') : Complete (c :: format) ↔ Complete format := by
  refine ⟨fun h => ?_, .literal hc⟩
  cases h with
  | literal _ h => exact h
  | percent _ => exact absurd rfl hc
  | conversion _ _ _ => exact absurd rfl hc

theorem complete_percent : Complete (ch '%' :: ch '%' :: format) ↔ Complete format := by
  refine ⟨fun h => ?_, .percent⟩
  cases h with
  | literal hc _ => exact absurd rfl hc
  | percent h => exact h
  | conversion hformat _ _ => exact absurd rfl hformat

theorem complete_conversion (hformat : charAt format ≠ ch '%') :
    Complete (ch '%' :: format) ↔ ∃ conv rest, afterConversion format = conv :: rest ∧ Complete rest := by
  constructor
  · intro h
    cases h with
    | literal hc _ => exact absurd rfl hc
    | percent _ => exact absurd rfl hformat
    | conversion _ hrest h => exact ⟨_, _, hrest, h⟩
  · rintro ⟨conv, rest, hrest, h⟩
    exact .conversion hformat hrest h

/-! ## `parse_conversion` -/

theorem setFlag_isSome (f : PrintfFlags) (c : Byte) : (setFlag f c).isSome = isFlag c := by
  unfold setFlag isFlag
  split_ifs <;> simp_all

theorem parseFlags_rest (format : List Byte) : ∀ f, (parseFlags format f).2 = format.dropWhile isFlag := by
  induction format with
  | nil => exact fun _ => rfl
  | cons c format ih =>
    intro f
    have hsome := setFlag_isSome f c
    rw [parseFlags]
    cases hset : setFlag f c with
    | some f' =>
      rw [hset] at hsome
      rw [List.dropWhile_cons_of_pos hsome.symm]
      exact ih f'
    | none =>
      rw [hset] at hsome
      rw [List.dropWhile_cons_of_neg (hsome ▸ nofun)]

theorem parseDigits_rest (format : List Byte) : ∀ n, (parseDigits format n).2 = format.dropWhile isdigit := by
  induction format with
  | nil => exact fun _ => rfl
  | cons c format ih =>
    intro n
    rw [parseDigits]
    split
    · next hdigit =>
      rw [List.dropWhile_cons_of_pos hdigit]
      exact ih _
    · next hdigit => rw [List.dropWhile_cons_of_neg hdigit]

theorem parseNumber_rest (format : List Byte) (args : VaList) :
    (parseNumber format args).2.1 = afterNumber format := by
  unfold parseNumber afterNumber
  split
  · rfl
  · exact parseDigits_rest format 0

theorem parsePrecision_rest (format : List Byte) (args : VaList) :
    (parsePrecision format args).2.1 = afterPrecision format := by
  unfold parsePrecision afterPrecision
  split
  · exact parseNumber_rest format.tail args
  · rfl

theorem parseType_rest (format : List Byte) : (parseType format).2 = afterLength format := by
  have hchars : ch 'h' ≠ ch 'j' ∧ ch 'h' ≠ ch 'l' ∧ ch 'j' ≠ ch 'l' ∧ ch 't' ≠ ch 'l' := by decide
  unfold parseType afterLength
  dsimp only
  split_ifs <;> simp_all

theorem parseConversion_rest (format : List Byte) (args : VaList) :
    (parseConversion format args).2.1 = afterConversion format := by
  have hrest : (parseConversion format args).2.1 =
      (parseType (parsePrecision (parseNumber (parseFlags format .none).2 args).2.1
        (parseNumber (parseFlags format .none).2 args).2.2).2.1).2 := rfl
  rw [hrest, parseType_rest, parsePrecision_rest, parseNumber_rest, parseFlags_rest]
  rfl

theorem length_afterNumber_le (format : List Byte) : (afterNumber format).length ≤ format.length := by
  unfold afterNumber
  split
  · exact format.tail_sublist.length_le
  · exact (List.dropWhile_sublist _).length_le

theorem length_afterConversion_le (format : List Byte) : (afterConversion format).length ≤ format.length := by
  have hprecision : ∀ format : List Byte, (afterPrecision format).length ≤ format.length := by
    intro format
    unfold afterPrecision
    split
    · exact (length_afterNumber_le _).trans format.tail_sublist.length_le
    · exact le_rfl
  have hlength : ∀ format : List Byte, (afterLength format).length ≤ format.length := by
    intro format
    unfold afterLength
    split_ifs
    · exact (List.tail_sublist _).length_le.trans format.tail_sublist.length_le
    · exact format.tail_sublist.length_le
    · exact format.tail_sublist.length_le
    · exact le_rfl
  calc (afterConversion format).length
    _ ≤ (afterPrecision (afterNumber (format.dropWhile isFlag))).length := hlength _
    _ ≤ (afterNumber (format.dropWhile isFlag)).length := hprecision _
    _ ≤ (format.dropWhile isFlag).length := length_afterNumber_le _
    _ ≤ format.length := (List.dropWhile_sublist _).length_le

end

/-! ## `__vprintf` -/

section

variable {str : BitVec 64 → List Byte} {printf : List Byte → VaList → Except LibStop (List Byte)}

/-- A conversion ends, if the calls of `__printf` do. -/
theorem convert_ok (hno : ∀ args, ∃ text, printf noConversion args = .ok text)
    (hkernel : ∀ args, ∃ text, printf noConversionInKernel args = .ok text) (c : PrintfConversion) (conv : Byte)
    (args : VaList) : ∃ r, convert str printf c conv args = .ok r := by
  have hinteger : ∀ b ∈ BASES, ∀ (v : BitVec 64) (isSigned negative : Bool) (c : PrintfConversion),
      ∃ text, formatInteger v isSigned negative b c = .ok text :=
    fun b hb v isSigned negative c => ⟨_, formatInteger_run (baseValid hb) v isSigned negative c⟩
  unfold convert
  dsimp only
  split
  · obtain ⟨text, htext⟩ := hinteger base_d (by simp [BASES])
      (if BitVec.slt (signedValue c.type (args 0)) 0 then -signedValue c.type (args 0)
        else signedValue c.type (args 0)) true (BitVec.slt (signedValue c.type (args 0)) 0) c
    rw [htext]
    exact ⟨_, rfl⟩
  split
  · obtain ⟨text, htext⟩ := hinteger (if conv = ch 'o' then base_o else if conv = ch 'u' then base_d
      else if conv = ch 'x' then base_x else base_X) (by split_ifs <;> simp [BASES])
      (unsignedValue c.type (args 0)) false false c
    rw [htext]
    exact ⟨_, rfl⟩
  split
  · exact ⟨_, rfl⟩
  split
  · exact ⟨_, rfl⟩
  split
  · obtain ⟨text, htext⟩ := hinteger base_x (by simp [BASES]) (args 0) false false
      { c with flags := { PrintfFlags.none with pound := true } }
    rw [htext]
    exact ⟨_, rfl⟩
  split
  · obtain ⟨text, htext⟩ := hkernel fun _ => conv.signExtend 64
    rw [htext]
    exact ⟨_, rfl⟩
  · obtain ⟨text, htext⟩ := hno fun _ => conv.signExtend 64
    rw [htext]
    exact ⟨_, rfl⟩

/-- The loop prints a complete format in as many rounds as it has characters, and leaves any other at its end. -/
theorem vprintfLoop_run (hconvert : ∀ c conv args, ∃ r, convert str printf c conv args = .ok r) (rounds : Nat) :
    ∀ {format : List Byte} (args : VaList) (out : List Byte), format.length ≤ rounds →
      (Complete format ∧ ∃ text, vprintfLoop str printf rounds format args out = .ok text) ∨
        (¬ Complete format ∧ vprintfLoop str printf rounds format args out = .error .outside) := by
  induction rounds with
  | zero =>
    intro format args out hlen
    obtain rfl := List.eq_nil_of_length_eq_zero (Nat.le_zero.mp hlen)
    exact .inl ⟨.nil, out, rfl⟩
  | succ rounds ih =>
    intro format args out hlen
    cases format with
    | nil => exact .inl ⟨.nil, out, rfl⟩
    | cons c format =>
      rw [List.length_cons] at hlen
      rw [vprintfLoop]
      split
      · next hc =>
        rw [complete_literal hc]
        exact ih _ _ (by omega)
      · next hc =>
        obtain rfl := not_not.mp hc
        split
        · next hformat =>
          cases format with
          | nil => exact absurd hformat (by decide)
          | cons c' format =>
            obtain rfl : c' = ch '%' := hformat
            rw [complete_percent]
            exact ih _ _ (by rw [List.length_cons] at hlen; exact (by omega))
        · next hformat =>
          have hrest := parseConversion_rest format args
          have hle := length_afterConversion_le format
          rw [complete_conversion hformat]
          generalize parseConversion format args = parsed at hrest
          obtain ⟨conversion, rest, args'⟩ := parsed
          obtain rfl : rest = afterConversion format := hrest
          dsimp only
          obtain ⟨⟨chars, args''⟩, hconv⟩ := hconvert conversion (charAt (afterConversion format)) args'
          rw [hconv, LibStop.ok_bind]
          -- the character of the conversion, or the end of the format
          cases hafter : afterConversion format with
          | nil =>
            refine .inr ⟨?_, rfl⟩
            rintro ⟨_, _, h, -⟩
            exact List.cons_ne_nil _ _ h.symm
          | cons conv rest =>
            rw [hafter, List.length_cons] at hle
            have hiff : (∃ conv' rest', conv :: rest = conv' :: rest' ∧ Complete rest') ↔ Complete rest := by
              refine ⟨?_, fun hc => ⟨conv, rest, rfl, hc⟩⟩
              rintro ⟨_, _, h, hc⟩
              obtain ⟨rfl, rfl⟩ := List.cons.inj h
              exact hc
            rw [hiff]
            exact ih _ _ (by omega)

/-- The messages about what is not supported are complete themselves. -/
theorem vprintf_noConversion (str : BitVec 64 → List Byte) (args : VaList) :
    (∃ text, vprintf str 1 noConversion.length noConversion args = .ok text) ∧
      ∃ text, vprintf str 1 noConversionInKernel.length noConversionInKernel args = .ok text :=
  ⟨⟨_, rfl⟩, ⟨_, rfl⟩⟩

end

end Pintos
