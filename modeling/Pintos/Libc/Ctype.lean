import Pintos.Lib.LittleEndian

/-!
# `lib/ctype.h`

A string is the list of its bytes, without the null byte at its end.
-/

namespace Pintos

open LittleEndian

/-- A character constant. -/
def ch (c : Char) : Byte := BitVec.ofNat 8 c.toNat

/-- `*s`. -/
def charAt (s : List Byte) : Byte := s.headD 0

def isdigit (c : Byte) : Bool := ch '0' ≤ c && c ≤ ch '9'

def isspace (c : Byte) : Bool :=
  c = ch ' ' || c = 0x0c || c = ch '\n' || c = ch '\r' || c = ch '\t' || c = 0x0b

def isupper (c : Byte) : Bool := ch 'A' ≤ c && c ≤ ch 'Z'

def isprint (c : Byte) : Bool := 32 ≤ c && c < 127

def tolower (c : Byte) : Byte := if isupper c then c - ch 'A' + ch 'a' else c

end Pintos
