import Mathlib.Data.List.Basic
import Pintos.Libc.Ctype
import Pintos.Libc.Stdlib

/-!
# `lib/stdio.c`

`__vprintf` with its conversions. The pointer into the format is what is left of it. The characters that are passed to
`output` are a list. `buf` is the list of the bytes before `cp`. An argument takes 64 bits, of which a shorter type has
the low ones; `str` is the string that an argument points to. `int` arithmetic wraps.
-/

namespace Pintos

open LittleEndian

/-! ## Arguments -/

/-- `va_list`: the arguments to come. -/
abbrev VaList := Nat → BitVec 64

/-- The arguments behind the first. -/
def VaList.next (args : VaList) : VaList := fun n => args (n + 1)

/-- `va_arg (args, int)`. -/
def VaList.int (args : VaList) : Int := ((args 0).setWidth 32).toInt

/-- An `int`. -/
def wrapInt (n : Int) : Int := n.bmod (2 ^ 32)

/-! ## Conversions -/

structure PrintfFlags where
  minus : Bool
  plus : Bool
  space : Bool
  pound : Bool
  zero : Bool
  group : Bool
  deriving DecidableEq, Repr

def PrintfFlags.none : PrintfFlags := ⟨false, false, false, false, false, false⟩

inductive ArgType where
  | char
  | short
  | int
  | intmax
  | long
  | longlong
  | ptrdifft
  | sizet
  deriving DecidableEq, Repr

structure PrintfConversion where
  flags : PrintfFlags
  width : Int
  /-- −1 if there is none. -/
  precision : Int
  type : ArgType
  deriving DecidableEq, Repr

structure IntegerBase where
  base : Nat
  digits : List Byte
  /-- The `x` character, or 0. -/
  x : Byte
  group : Nat

def base_d : IntegerBase := { base := 10, digits := "0123456789".toList.map ch, x := 0, group := 3 }
def base_o : IntegerBase := { base := 8, digits := "01234567".toList.map ch, x := 0, group := 3 }
def base_x : IntegerBase := { base := 16, digits := "0123456789abcdef".toList.map ch, x := ch 'x', group := 4 }
def base_X : IntegerBase := { base := 16, digits := "0123456789ABCDEF".toList.map ch, x := ch 'X', group := 4 }

/-! ## `parse_conversion` -/

/-- The flag that a character sets. -/
def setFlag (f : PrintfFlags) (c : Byte) : Option PrintfFlags :=
  if c = ch '-' then some { f with minus := true }
  else if c = ch '+' then some { f with plus := true }
  else if c = ch ' ' then some { f with space := true }
  else if c = ch '#' then some { f with pound := true }
  else if c = ch '0' then some { f with zero := true }
  else if c = 0x27 then some { f with group := true }
  else none

def parseFlags : List Byte → PrintfFlags → PrintfFlags × List Byte
  | [], f => (f, [])
  | c :: format, f =>
    match setFlag f c with
    | some f => parseFlags format f
    | none => (f, c :: format)

def parseDigits : List Byte → Int → Int × List Byte
  | [], n => (n, [])
  | c :: format, n =>
    if isdigit c then parseDigits format (wrapInt (n * 10 + c.toNat - (ch '0').toNat)) else (n, c :: format)

/-- An `int` in the format, or the next argument. -/
def parseNumber (format : List Byte) (args : VaList) : Int × List Byte × VaList :=
  if charAt format = ch '*' then (args.int, format.tail, args.next)
  else
    let (n, format) := parseDigits format 0
    (n, format, args)

def parseType (format : List Byte) : ArgType × List Byte :=
  if charAt format = ch 'h' then
    let format := format.tail
    if charAt format = ch 'h' then (.char, format.tail) else (.short, format)
  else if charAt format = ch 'j' then (.intmax, format.tail)
  else if charAt format = ch 'l' then
    let format := format.tail
    if charAt format = ch 'l' then (.longlong, format.tail) else (.long, format)
  else if charAt format = ch 't' then (.ptrdifft, format.tail)
  else if charAt format = ch 'z' then (.sizet, format.tail)
  else (.int, format)

/-- "Parse precision." -/
def parsePrecision (format : List Byte) (args : VaList) : Int × List Byte × VaList :=
  if charAt format = ch '.' then
    let (precision, format, args) := parseNumber format.tail args
    (if precision < 0 then -1 else precision, format, args)
  else (-1, format, args)

def parseConversion (format : List Byte) (args : VaList) : PrintfConversion × List Byte × VaList :=
  let (flags, format) := parseFlags format .none
  let flags := if flags.minus then { flags with zero := false } else flags
  let flags := if flags.plus then { flags with space := false } else flags
  let (width, format, args) := parseNumber format args
  let (width, flags) := if width < 0 then (wrapInt (-width), { flags with minus := true }) else (width, flags)
  let (precision, format, args) := parsePrecision format args
  let flags := if 0 ≤ precision then { flags with zero := false } else flags
  let (type, format) := parseType format
  ({ flags := flags, width := width, precision := precision, type := type }, format, args)

/-! ## `format_integer` -/

/-- `*cp++ = c`. -/
def pushBuf (buf : List Byte) (c : Byte) : Except LibStop (List Byte) :=
  if buf.length < 64 then .ok (buf ++ [c]) else .error .outside

/-- The loop over the digits, of which there were `digitCnt`. -/
def accumulateDigits (b : IntegerBase) (group : Bool) : Nat → Nat → Nat → List Byte → Except LibStop (List Byte)
  | 0, _, _, _ => .error .outOfFuel
  | fuel + 1, value, digitCnt, buf =>
    if 0 < value then do
      let buf ← if group ∧ 0 < digitCnt ∧ digitCnt % b.group = 0 then pushBuf buf (ch ',') else .ok buf
      let buf ← pushBuf buf (b.digits.getD (value % b.base) 0)
      accumulateDigits b group fuel (value / b.base) (digitCnt + 1) buf
    else .ok buf

/-- "Append enough zeros to match precision." -/
def appendZeros (precision : Int) : Nat → List Byte → Except LibStop (List Byte)
  | 0, _ => .error .outOfFuel
  | fuel + 1, buf =>
    if (buf.length : Int) < precision ∧ buf.length < 64 - 1 then do
      let buf ← pushBuf buf (ch '0')
      appendZeros precision fuel buf
    else .ok buf

/-- "If the # flag is used with base 8, the result must always begin with a zero." -/
def octalZero (b : IntegerBase) (pound : Bool) (buf : List Byte) : Except LibStop (List Byte) :=
  if pound ∧ b.base = 8 ∧ (buf = [] ∨ buf.getLast? ≠ some (ch '0')) then pushBuf buf (ch '0') else .ok buf

/-- `output_dup`. -/
def outputDup (c : Byte) (cnt : Nat) : List Byte := List.replicate cnt c

/-- The sign character, or 0. -/
def signOf (isSigned negative : Bool) (flags : PrintfFlags) : Byte :=
  if isSigned then
    if flags.plus then (if negative then ch '-' else ch '+')
    else if flags.space then (if negative then ch '-' else ch ' ')
    else if negative then ch '-'
    else 0
  else 0

/-- "Do output." -/
def outputInteger (flags : PrintfFlags) (padCnt : Nat) (sign x : Byte) (buf : List Byte) : List Byte :=
  (if flags.minus = false ∧ flags.zero = false then outputDup (ch ' ') padCnt else []) ++
    (if sign ≠ 0 then [sign] else []) ++
    (if x ≠ 0 then [ch '0', x] else []) ++
    (if flags.zero then outputDup (ch '0') padCnt else []) ++
    buf.reverse ++
    (if flags.minus then outputDup (ch ' ') padCnt else [])

def formatInteger (value : BitVec 64) (isSigned negative : Bool) (b : IntegerBase) (c : PrintfConversion) :
    Except LibStop (List Byte) := do
  let sign := signOf isSigned negative c.flags
  let x := if c.flags.pound ∧ value ≠ 0 then b.x else 0
  let buf ← accumulateDigits b c.flags.group 65 value.toNat 0 []
  let precision := if c.precision < 0 then 1 else c.precision
  let buf ← appendZeros precision 65 buf
  let buf ← octalZero b c.flags.pound buf
  let padCnt := wrapInt (c.width - buf.length - (if x ≠ 0 then 2 else 0) - (if sign ≠ 0 then 1 else 0))
  .ok (outputInteger c.flags padCnt.toNat sign x buf)

/-! ## `format_string` -/

/-- `strnlen`, with a `maxlen` of type `size_t`. -/
def strnlen (s : List Byte) (maxlen : Int) : Nat := min s.length (maxlen % 2 ^ 64).toNat

/-- `format_string`: `length` becomes an `int`. -/
def formatString (s : List Byte) (length : Nat) (c : PrintfConversion) : List Byte :=
  let length := wrapInt length
  (if length < c.width ∧ c.flags.minus = false then outputDup (ch ' ') (c.width - length).toNat else []) ++
    s.take length.toNat ++
    (if length < c.width ∧ c.flags.minus = true then outputDup (ch ' ') (c.width - length).toNat else [])

/-! ## `__vprintf` -/

def INT32_MAX : BitVec 64 := 2147483647
def UINT32_MAX : BitVec 64 := 4294967295

/-- `PTRDIFF_MAX` and `SIZE_MAX` of `lib/stdint.h`. -/
def PTRDIFF_MAX : BitVec 64 := INT32_MAX
def SIZE_MAX : BitVec 64 := UINT32_MAX

/-- The value of a signed conversion, as an `intmax_t`. -/
def signedValue (type : ArgType) (arg : BitVec 64) : BitVec 64 :=
  match type with
  | .char => (arg.setWidth 8).signExtend 64
  | .short => (arg.setWidth 16).signExtend 64
  | .int => (arg.setWidth 32).signExtend 64
  | .intmax => arg
  | .long => arg
  | .longlong => arg
  | .ptrdifft => arg
  | .sizet => if BitVec.slt (SIZE_MAX / 2) arg then arg - SIZE_MAX - 1 else arg

/-- The value of an unsigned conversion, as a `uintmax_t`. -/
def unsignedValue (type : ArgType) (arg : BitVec 64) : BitVec 64 :=
  match type with
  | .char => (arg.setWidth 8).setWidth 64
  | .short => (arg.setWidth 16).setWidth 64
  | .int => (arg.setWidth 32).setWidth 64
  | .intmax => arg
  | .long => arg
  | .longlong => arg
  | .ptrdifft => arg &&& (PTRDIFF_MAX <<< 1 ||| 1)
  | .sizet => arg

/-- "(null)" -/
def nullString : List Byte := "(null)".toList.map ch

/-- The formats of the calls of `__printf` for what is not supported. -/
def noConversionInKernel : List Byte := "<<no %%%c in kernel>>".toList.map ch
def noConversion : List Byte := "<<no %%%c conversion>>".toList.map ch

/-- The `switch` of `__vprintf`. `printf` is `__printf`. -/
def convert (str : BitVec 64 → List Byte) (printf : List Byte → VaList → Except LibStop (List Byte))
    (c : PrintfConversion) (conv : Byte) (args : VaList) : Except LibStop (List Byte × VaList) :=
  let arg := args 0
  if conv = ch 'd' ∨ conv = ch 'i' then do
    let value := signedValue c.type arg
    let negative := BitVec.slt value 0
    let chars ← formatInteger (if negative then -value else value) true negative base_d c
    .ok (chars, args.next)
  else if conv = ch 'o' ∨ conv = ch 'u' ∨ conv = ch 'x' ∨ conv = ch 'X' then do
    let value := unsignedValue c.type arg
    let b :=
      if conv = ch 'o' then base_o else if conv = ch 'u' then base_d else if conv = ch 'x' then base_x else base_X
    let chars ← formatInteger value false false b c
    .ok (chars, args.next)
  else if conv = ch 'c' then .ok (formatString [arg.setWidth 8] 1 c, args.next)
  else if conv = ch 's' then
    let s := if arg = 0 then nullString else str arg
    .ok (formatString s (strnlen s c.precision) c, args.next)
  else if conv = ch 'p' then do
    let chars ← formatInteger arg false false base_x { c with flags := { PrintfFlags.none with pound := true } }
    .ok (chars, args.next)
  else do
    let format := if conv ∈ [ch 'f', ch 'e', ch 'E', ch 'g', ch 'G', ch 'n'] then noConversionInKernel else noConversion
    let chars ← printf format fun _ => conv.signExtend 64
    .ok (chars, args)

/-- The loop of `__vprintf`, for at most `rounds` rounds. -/
def vprintfLoop (str : BitVec 64 → List Byte) (printf : List Byte → VaList → Except LibStop (List Byte)) :
    Nat → List Byte → VaList → List Byte → Except LibStop (List Byte)
  | 0, format, _, out => if format = [] then .ok out else .error .outOfFuel
  | _ + 1, [], _, out => .ok out
  | rounds + 1, c :: format, args, out =>
    if c ≠ ch '%' then vprintfLoop str printf rounds format args (out ++ [c])
    else if charAt format = ch '%' then vprintfLoop str printf rounds format.tail args (out ++ [ch '%'])
    else do
      let (conversion, format, args) := parseConversion format args
      let (chars, args) ← convert str printf conversion (charAt format) args
      -- `format++`
      match format with
      | [] => .error .outside
      | _ :: format => vprintfLoop str printf rounds format args (out ++ chars)

/-- `__vprintf`, with calls of itself down to `depth`. -/
def vprintf (str : BitVec 64 → List Byte) : Nat → Nat → List Byte → VaList → Except LibStop (List Byte)
  | 0, _, _, _ => .error .outOfFuel
  | depth + 1, rounds, format, args =>
    vprintfLoop str (fun format args => vprintf str depth format.length format args) rounds format args []

end Pintos
