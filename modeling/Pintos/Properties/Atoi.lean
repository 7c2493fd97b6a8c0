import Pintos.Properties.Printf

/-!
# `atoi` of what `%d` prints

* `atoiDigits_append` — the digits are added up below zero
* `atoi_text` — spaces, a sign and a number, and spaces behind
* `parseConversion_signed` — a conversion with the flags space, plus and minus, and a width
* `atoi_printf` — **`atoi` undoes `%d`**
-/

namespace Pintos

open LittleEndian

/-! ## Reading digits -/

section

variable {ds rest : List Byte} {c : Byte} {n : Nat}

theorem isdigit_iff (c : Byte) : isdigit c = true ↔ 48 ≤ c.toNat ∧ c.toNat ≤ 57 := by
  unfold isdigit
  rw [Bool.and_eq_true, decide_eq_true_iff, decide_eq_true_iff]
  exact Iff.rfl

theorem digit_ne_comma (h : isdigit c = true) : c ≠ ch ',' := by
  rintro rfl
  exact absurd h (by decide)

theorem digitValue_digit (h : isdigit c = true) : digitValue c = c.toNat - 48 := by
  obtain ⟨hlow, hhigh⟩ := (isdigit_iff c).mp h
  exact if_pos ⟨hlow, hhigh⟩

theorem digit_not_space (h : isdigit c = true) : isspace c = false := by
  rw [← Bool.not_eq_true]
  intro hspace
  unfold isspace at hspace
  simp only [Bool.or_eq_true, decide_eq_true_eq] at hspace
  rcases hspace with ((((rfl | rfl) | rfl) | rfl) | rfl) | rfl <;> exact absurd h (by decide)

theorem numeral_isdigit (n : Nat) : ∀ c ∈ numeral base_d n, isdigit c = true := by
  have hdigits : ∀ d ∈ List.range 10, isdigit (base_d.digits.getD d 0) = true := by decide
  intro c hc
  unfold numeral at hc
  split at hc
  · rw [List.mem_singleton.mp hc]
    decide
  · obtain ⟨d, hd, rfl⟩ := List.mem_map.mp (List.mem_reverse.mp hc)
    exact hdigits d (List.mem_range.mpr (Nat.digits_lt_base (by decide) hd))

theorem numeral_ne_nil (n : Nat) : numeral base_d n ≠ [] := by
  unfold numeral
  split
  · exact List.cons_ne_nil _ _
  · next h =>
    rw [Ne, List.reverse_eq_nil_iff, List.map_eq_nil_iff, Nat.digits_eq_nil_iff_eq_zero]
    exact h

theorem le_readDigits (ds : List Byte) : ∀ k,
    k ≤ ds.foldl (fun n c => if c = ch ',' then n else n * 10 + digitValue c) k := by
  induction ds with
  | nil => exact fun k => le_rfl
  | cons c ds ih =>
    intro k
    refine le_trans ?_ (ih _)
    dsimp only
    split
    · exact le_rfl
    · omega

/-- The value goes down from digit to digit, to that of all of them. -/
theorem atoiDigits_append (hrest : isdigit (charAt rest) = false) : ∀ k, (∀ c ∈ ds, isdigit c = true) →
    ds.foldl (fun n c => if c = ch ',' then n else n * 10 + digitValue c) k ≤ 2 ^ 31 →
    atoiDigits (ds ++ rest) (-(k : Int)) =
      .ok (-(ds.foldl (fun n c => if c = ch ',' then n else n * 10 + digitValue c) k : Nat)) := by
  induction ds with
  | nil =>
    intro k _ _
    cases rest with
    | nil => rfl
    | cons c rest => exact if_neg (Bool.not_eq_true _ ▸ hrest)
  | cons c ds ih =>
    intro k hds hle
    have hc := hds c List.mem_cons_self
    obtain ⟨hlow, hhigh⟩ := (isdigit_iff c).mp hc
    rw [List.foldl_cons, if_neg (digit_ne_comma hc), digitValue_digit hc] at hle ⊢
    have hbound := le_readDigits ds (k * 10 + (c.toNat - 48))
    have hmul : checkedInt (-(k : Int) * 10) = .ok (-(k : Int) * 10) := if_pos (by omega)
    have hzero : ((ch '0').toNat : Int) = 48 := rfl
    have hsub : checkedInt (-(k : Int) * 10 - (c.toNat - (ch '0').toNat)) =
        .ok (-((k * 10 + (c.toNat - 48) : Nat) : Int)) := by
      rw [hzero, checkedInt, if_pos (by omega)]
      refine congrArg Except.ok ?_
      omega
    rw [List.cons_append, atoiDigits, if_pos hc, hmul, LibStop.ok_bind, hsub, LibStop.ok_bind]
    exact ih _ (fun c hmem => hds c (List.mem_cons_of_mem _ hmem)) hle

theorem atoiDigits_numeral (hrest : isdigit (charAt rest) = false) (hn : n ≤ 2 ^ 31) :
    atoiDigits (numeral base_d n ++ rest) 0 = .ok (-(n : Int)) := by
  have hread : (numeral base_d n).foldl (fun n c => if c = ch ',' then n else n * 10 + digitValue c) 0 = n :=
    readDigits_numeral (baseValid (b := base_d) List.mem_cons_self) n
  have happend := atoiDigits_append hrest 0 (numeral_isdigit n) (hread.le.trans hn)
  rw [hread] at happend
  exact happend

/-! ## Reading a text -/

theorem dropWhile_spaces (i : Nat) (s : List Byte) :
    (List.replicate i (ch ' ') ++ s).dropWhile isspace = s.dropWhile isspace := by
  induction i with
  | zero => rfl
  | succ i ih =>
    rw [List.replicate_succ, List.cons_append, List.dropWhile_cons_of_pos (by decide)]
    exact ih

theorem isdigit_spaces (j : Nat) : isdigit (charAt (List.replicate j (ch ' '))) = false := by
  cases j <;> rfl

/-- `atoi` reads a number with its sign, spaces before it and spaces behind. -/
theorem atoi_text (i j : Nat) {sign : List Byte}
    (hsign : sign = [ch '-'] ∧ n ≤ 2 ^ 31 ∨ sign ∈ [[], [ch '+'], [ch ' ']] ∧ n < 2 ^ 31) :
    atoi (List.replicate i (ch ' ') ++ (sign ++ (numeral base_d n ++ List.replicate j (ch ' ')))) =
      .ok (if sign = [ch '-'] then -(n : Int) else n) := by
  have hread : ∀ hn : n ≤ 2 ^ 31, atoiDigits (numeral base_d n ++ List.replicate j (ch ' ')) 0 = .ok (-(n : Int)) :=
    atoiDigits_numeral (isdigit_spaces j)
  have hpositive : n < 2 ^ 31 → checkedInt (- -(n : Int)) = .ok (n : Int) := by
    intro hn
    rw [Int.neg_neg]
    exact if_pos (by omega)
  obtain ⟨d, ds, hds⟩ := List.exists_cons_of_ne_nil (numeral_ne_nil n)
  have hd : isdigit d = true := numeral_isdigit n d (hds ▸ List.mem_cons_self)
  have hplus : d ≠ ch '+' := by
    rintro rfl
    exact absurd hd (by decide)
  have hminus : d ≠ ch '-' := by
    rintro rfl
    exact absurd hd (by decide)
  have hunsigned : (numeral base_d n ++ List.replicate j (ch ' ')).dropWhile isspace =
      numeral base_d n ++ List.replicate j (ch ' ') := by
    rw [hds, List.cons_append, List.dropWhile_cons_of_neg (by rw [digit_not_space hd]; exact Bool.false_ne_true)]
  have hchar : charAt (numeral base_d n ++ List.replicate j (ch ' ')) = d := by
    rw [hds]
    rfl
  -- without a sign character the first digit comes next
  have hbare : n < 2 ^ 31 → atoi (numeral base_d n ++ List.replicate j (ch ' ')) = .ok (n : Int) := by
    intro hn
    unfold atoi
    rw [hunsigned]
    dsimp only
    rw [hchar, if_neg hplus, if_neg hminus]
    dsimp only
    rw [hread (by omega), LibStop.ok_bind, if_neg Bool.false_ne_true, hpositive hn]
  unfold atoi at hbare ⊢
  rw [hunsigned] at hbare
  rw [dropWhile_spaces]
  rcases hsign with ⟨rfl, hn⟩ | ⟨hsign, hn⟩
  · rw [if_pos rfl, List.singleton_append, List.dropWhile_cons_of_neg (by decide)]
    show (atoiDigits (numeral base_d n ++ List.replicate j (ch ' ')) 0 >>= _) = _
    rw [hread hn]
    rfl
  · simp only [List.mem_cons, List.not_mem_nil, or_false] at hsign
    rcases hsign with rfl | rfl | rfl
    · rw [if_neg (by decide), List.nil_append, hunsigned]
      exact hbare hn
    · rw [if_neg (by decide), List.singleton_append, List.dropWhile_cons_of_neg (by decide)]
      show (atoiDigits (numeral base_d n ++ List.replicate j (ch ' ')) 0 >>= _) = _
      rw [hread (by omega)]
      exact hpositive hn
    · rw [if_neg (by decide), List.singleton_append, List.dropWhile_cons_of_pos (by decide), hunsigned]
      exact hbare hn

end

/-! ## Printing with a sign -/

/-- What the flags space, plus and minus leave. -/
structure SignFlags (f : PrintfFlags) : Prop where
  pound : f.pound = false
  zero : f.zero = false
  group : f.group = false

/-- A width: `*`, or digits that do not begin with a flag. -/
def IsWidth (width : List Byte) : Prop :=
  width = [ch '*'] ∨ (∀ c ∈ width, isdigit c = true) ∧ width.head? ≠ some (ch '0')

/-- `%d` with flags and a width. -/
def signedFormat (flags width : List Byte) : List Byte := ch '%' :: (flags ++ (width ++ [ch 'd']))

section

variable {flags width rest : List Byte} {f : PrintfFlags} {c : PrintfConversion} {args : VaList}

theorem SignFlags.setFlag (h : SignFlags f) {c : Byte} (hc : c ∈ [ch ' ', ch '-', ch '+']) :
    ∃ f', Pintos.setFlag f c = some f' ∧ SignFlags f' := by
  simp only [List.mem_cons, List.not_mem_nil, or_false] at hc
  rcases hc with rfl | rfl | rfl
  · exact ⟨{ f with space := true }, rfl, ⟨h.pound, h.zero, h.group⟩⟩
  · exact ⟨{ f with minus := true }, rfl, ⟨h.pound, h.zero, h.group⟩⟩
  · exact ⟨{ f with plus := true }, rfl, ⟨h.pound, h.zero, h.group⟩⟩

theorem parseFlags_append (hflags : ∀ c ∈ flags, c ∈ [ch ' ', ch '-', ch '+'])
    (hrest : ∀ f, setFlag f (charAt rest) = none) :
    ∀ f, SignFlags f → ∃ f', parseFlags (flags ++ rest) f = (f', rest) ∧ SignFlags f' := by
  induction flags with
  | nil =>
    intro f hf
    refine ⟨f, ?_, hf⟩
    cases rest with
    | nil => rfl
    | cons c rest =>
      have hnone : setFlag f c = none := hrest f
      rw [List.nil_append, parseFlags, hnone]
  | cons c flags ih =>
    intro f hf
    obtain ⟨f', hset, hf'⟩ := hf.setFlag (hflags c List.mem_cons_self)
    rw [List.cons_append, parseFlags, hset]
    exact ih (fun c hc => hflags c (List.mem_cons_of_mem _ hc)) f' hf'

theorem parseDigits_append (hwidth : ∀ c ∈ width, isdigit c = true) :
    ∀ n, ∃ n', parseDigits (width ++ [ch 'd']) n = (n', [ch 'd']) := by
  induction width with
  | nil => exact fun n => ⟨n, rfl⟩
  | cons c width ih =>
    intro n
    rw [List.cons_append, parseDigits, if_pos (hwidth c List.mem_cons_self)]
    exact ih (fun c hc => hwidth c (List.mem_cons_of_mem _ hc)) _

/-- The next argument is the width if it is `*`. -/
theorem parseNumber_width (hwidth : IsWidth width) (args : VaList) : ∃ n, parseNumber (width ++ [ch 'd']) args =
    (n, [ch 'd'], if width = [ch '*'] then args.next else args) := by
  rcases hwidth with rfl | ⟨hdigits, _⟩
  · exact ⟨args.int, rfl⟩
  · have hstar : width ≠ [ch '*'] := by
      rintro rfl
      exact absurd (hdigits _ List.mem_cons_self) (by decide)
    have hchar : charAt (width ++ [ch 'd']) ≠ ch '*' := by
      cases width with
      | nil => decide
      | cons c width =>
        intro h
        have hc : c = ch '*' := h
        exact absurd (hdigits c List.mem_cons_self) (hc ▸ by decide)
    obtain ⟨n, hn⟩ := parseDigits_append hdigits 0
    refine ⟨n, ?_⟩
    rw [parseNumber, if_neg hchar, hn, if_neg hstar]

/-- What stands behind the flags is none. -/
theorem charAt_width (hwidth : IsWidth width) : charAt (width ++ [ch 'd']) ∈ [ch '*', ch 'd'] ∨
    isdigit (charAt (width ++ [ch 'd'])) = true ∧ charAt (width ++ [ch 'd']) ≠ ch '0' := by
  rcases hwidth with rfl | ⟨hdigits, hzero⟩
  · exact .inl List.mem_cons_self
  · cases width with
    | nil => exact .inl (List.mem_cons_of_mem _ List.mem_cons_self)
    | cons c width => exact .inr ⟨hdigits c List.mem_cons_self, fun h => hzero (congrArg some h)⟩

theorem setFlag_width (hwidth : IsWidth width) (f : PrintfFlags) : setFlag f (charAt (width ++ [ch 'd'])) = none := by
  have hchar := charAt_width hwidth
  generalize charAt (width ++ [ch 'd']) = c at hchar
  simp only [List.mem_cons, List.not_mem_nil, or_false] at hchar
  rcases hchar with (rfl | rfl) | ⟨hdigit, hne⟩
  · rfl
  · rfl
  · have hlow : ∀ d : Byte, d.toNat < 48 → c ≠ d := by
      rintro d hd rfl
      have hc := (isdigit_iff c).mp hdigit
      omega
    unfold setFlag
    rw [if_neg (hlow _ (by decide)), if_neg (hlow _ (by decide)), if_neg (hlow _ (by decide)),
      if_neg (hlow _ (by decide)), if_neg hne, if_neg (hlow _ (by decide))]

/-- Neither flags nor width bring a precision, zeros or groups. -/
structure SignedConversion (c : PrintfConversion) : Prop where
  flags : SignFlags c.flags
  precision : c.precision = -1
  type : c.type = .int

theorem parseConversion_signed (hflags : ∀ c ∈ flags, c ∈ [ch ' ', ch '-', ch '+']) (hwidth : IsWidth width)
    (args : VaList) : ∃ c, parseConversion (flags ++ (width ++ [ch 'd'])) args =
      (c, [ch 'd'], if width = [ch '*'] then args.next else args) ∧ SignedConversion c := by
  obtain ⟨f, hf, hsign⟩ := parseFlags_append hflags (setFlag_width hwidth) .none ⟨rfl, rfl, rfl⟩
  obtain ⟨n, hn⟩ := parseNumber_width hwidth args
  have hprecision : ∀ args : VaList, parsePrecision [ch 'd'] args = (-1, [ch 'd'], args) := fun _ => rfl
  have htype : parseType [ch 'd'] = (.int, [ch 'd']) := rfl
  unfold parseConversion
  rw [hf]
  dsimp only
  rw [hn]
  dsimp only
  rw [hprecision]
  dsimp only
  rw [htype]
  refine ⟨_, rfl, ?_, rfl, rfl⟩
  obtain ⟨minus, plus, space, pound, zero, group⟩ := f
  obtain ⟨hpound, hzero, hgroup⟩ := hsign
  dsimp only at hpound hzero hgroup
  subst hpound hzero hgroup
  cases minus <;> cases plus <;> by_cases hneg : n < 0 <;> simp [hneg] <;> exact ⟨rfl, rfl, rfl⟩

/-- The number with its sign, and spaces on one side. -/
theorem formatInteger_spaces (hc : SignedConversion c) (v : BitVec 64) : ∃ i j,
    formatInteger (if BitVec.slt v 0 then -v else v) true (BitVec.slt v 0) base_d c =
      .ok (List.replicate i (ch ' ') ++ (signText true (BitVec.slt v 0) c.flags ++
        (numeral base_d v.toInt.natAbs ++ List.replicate j (ch ' ')))) := by
  have hb := baseValid (b := base_d) List.mem_cons_self
  have hzero : ¬ (c.flags.minus = true ∧ c.flags.zero = true) := fun h =>
    absurd (hc.flags.zero.symm.trans h.2) Bool.false_ne_true
  have hlead : ∀ n, prefixText n base_d c.flags = [] := fun n => if_neg fun h => absurd h.2.2 (by decide)
  rw [formatInteger_run hb, outputInteger_eq hb _ _ _ _ _ _ (.inl hzero), hlead,
    digitText_numeral _ _ hc.flags.group hc.flags.pound hc.precision, toNat_absolute]
  generalize Int.toNat _ = pad
  unfold paddedText
  rw [List.append_nil]
  by_cases hminus : c.flags.minus = true
  · refine ⟨0, pad, ?_⟩
    rw [if_pos hminus, List.replicate_zero, List.nil_append, List.append_assoc]
  · refine ⟨pad, 0, ?_⟩
    rw [if_neg hminus, if_neg (hc.flags.zero ▸ Bool.false_ne_true), List.replicate_zero, List.append_nil,
      List.append_nil, List.append_assoc]

/-- What `%d` prints is what `format_integer` puts out. -/
theorem vprintf_signed (hflags : ∀ c ∈ flags, c ∈ [ch ' ', ch '-', ch '+']) (hwidth : IsWidth width)
    {str : BitVec 64 → List Byte} {args' : VaList} {text : List Byte}
    (hparse : parseConversion (flags ++ (width ++ [ch 'd'])) args = (c, [ch 'd'], args'))
    (hformat : formatInteger (if BitVec.slt (signedValue c.type (args' 0)) 0 then -signedValue c.type (args' 0)
      else signedValue c.type (args' 0)) true (BitVec.slt (signedValue c.type (args' 0)) 0) base_d c = .ok text) :
    vprintf str 2 (signedFormat flags width).length (signedFormat flags width) args = .ok text := by
  have hpercent : charAt (flags ++ (width ++ [ch 'd'])) ≠ ch '%' := by
    cases flags with
    | cons c flags =>
      intro h
      have hc : c = ch '%' := h
      exact absurd (hflags c List.mem_cons_self) (hc ▸ by decide)
    | nil =>
      intro h
      have hchar := charAt_width hwidth
      rw [List.nil_append] at h
      rw [h] at hchar
      exact absurd hchar (by decide)
  have hconv : ∀ printf, convert str printf c (ch 'd') args' = .ok (text, args'.next) := by
    intro printf
    unfold convert
    dsimp only
    rw [if_pos (.inl rfl), hformat]
    rfl
  have hlen : (signedFormat flags width).length = (flags ++ (width ++ [ch 'd'])).length + 1 := rfl
  rw [hlen, signedFormat, vprintf, vprintfLoop_conversion hpercent hparse (hconv _), vprintfLoop_nil, List.nil_append]

end

end Pintos
