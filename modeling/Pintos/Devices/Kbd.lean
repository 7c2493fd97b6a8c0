import Pintos.Libc.Ctype

/-!
# `devices/kbd.c`

The keyboard handler, without the input buffer: what it makes of a scancode. A scancode is one byte, or the
prefix `0xe0` and a second byte.
-/

namespace Pintos

open LittleEndian

/-- `struct keymap`. -/
structure Keymap where
  firstScancode : Nat
  chars : List Byte

/-- Keys that give the same characters whether Shift is down or not. -/
def invariantKeymap : List Keymap :=
  [⟨0x01, [0x1b]⟩,
   ⟨0x0e, [0x08]⟩,
   ⟨0x0f, ['\t', 'Q', 'W', 'E', 'R', 'T', 'Y', 'U', 'I', 'O', 'P'].map ch⟩,
   ⟨0x1c, ['\r'].map ch⟩,
   ⟨0x1e, ['A', 'S', 'D', 'F', 'G', 'H', 'J', 'K', 'L'].map ch⟩,
   ⟨0x2c, ['Z', 'X', 'C', 'V', 'B', 'N', 'M'].map ch⟩,
   ⟨0x37, ['*'].map ch⟩,
   ⟨0x39, [' '].map ch⟩]

def unshiftedKeymap : List Keymap :=
  [⟨0x02, ['1', '2', '3', '4', '5', '6', '7', '8', '9', '0', '-', '='].map ch⟩,
   ⟨0x1a, ['[', ']'].map ch⟩,
   ⟨0x27, [ch ';', 0x27, 0x60]⟩,
   ⟨0x2b, [0x5c]⟩,
   ⟨0x33, [',', '.', '/'].map ch⟩]

def shiftedKeymap : List Keymap :=
  [⟨0x02, ['!', '@', '#', '$', '%', '^', '&', '*', '(', ')', '_', '+'].map ch⟩,
   ⟨0x1a, [0x7b, 0x7d]⟩,
   ⟨0x27, [ch ':', 0x22, ch '~']⟩,
   ⟨0x2b, ['|'].map ch⟩,
   ⟨0x33, ['<', '>', '?'].map ch⟩]

def mapKey : List Keymap → Nat → Option Byte
  | [], _ => none
  | k :: maps, scancode =>
    if k.firstScancode ≤ scancode ∧ scancode < k.firstScancode + k.chars.length then
      k.chars[scancode - k.firstScancode]?
    else mapKey maps scancode

/-- The state of the shift keys, and of Caps Lock. -/
structure ShiftState where
  left_shift : Bool
  right_shift : Bool
  left_alt : Bool
  right_alt : Bool
  left_ctrl : Bool
  right_ctrl : Bool
  caps_lock : Bool
  deriving DecidableEq

namespace ShiftState

def shift (s : ShiftState) : Bool := s.left_shift || s.right_shift

def alt (s : ShiftState) : Bool := s.left_alt || s.right_alt

def ctrl (s : ShiftState) : Bool := s.left_ctrl || s.right_ctrl

/-- The table `shift_keys`, and the write to `*key->state_var`. -/
def setKey (s : ShiftState) (code : Nat) (down : Bool) : ShiftState :=
  if code = 0x2a then { s with left_shift := down }
  else if code = 0x36 then { s with right_shift := down }
  else if code = 0x38 then { s with left_alt := down }
  else if code = 0xe038 then { s with right_alt := down }
  else if code = 0x1d then { s with left_ctrl := down }
  else if code = 0xe01d then { s with right_ctrl := down }
  else s

/-- The character of a key, before Ctrl, Caps Lock and Alt. -/
def keyChar (s : ShiftState) (code : Nat) : Option Byte :=
  match mapKey invariantKeymap code with
  | some c => some c
  | none => if s.shift then mapKey shiftedKeymap code else mapKey unshiftedKeymap code

end ShiftState

/-- The character that is appended. Ctrl overrides Shift. -/
def finalChar (shift alt ctrl caps_lock : Bool) (c : Byte) : Byte :=
  let c := if ctrl && 0x40 ≤ c && c < 0x60 then c - 0x40 else if shift = caps_lock then tolower c else c
  if alt then c + 0x80 else c

/-- What the keyboard sends for a key. -/
inductive Scancode where
  | plain (byte : Byte)
  /-- After the prefix `0xe0`. -/
  | extended (byte : Byte)
  deriving DecidableEq

/-- The reads of the data register. -/
def readScancode (first second : Byte) : Scancode := if first = 0xe0 then .extended second else .plain first

namespace Scancode

def byte : Scancode → Byte
  | plain b => b
  | extended b => b

/-- `code & ~0x80u`. -/
def code : Scancode → Nat
  | plain b => (b &&& 0x7f).toNat
  | extended b => 0xe000 + (b &&& 0x7f).toNat

def release (k : Scancode) : Bool := k.byte &&& 0x80 != 0

end Scancode

/-- `keyboard_interrupt`: the new state, and the character for the input buffer. -/
def keyboardInterrupt (s : ShiftState) (k : Scancode) : ShiftState × Option Byte :=
  if k.code = 0x3a then
    if k.release then (s, none) else ({ s with caps_lock := !s.caps_lock }, none)
  else
    match s.keyChar k.code with
    | some c => if k.release then (s, none) else (s, some (finalChar s.shift s.alt s.ctrl s.caps_lock c))
    | none => (s.setKey k.code (!k.release), none)

/-- The handler for one scancode after another, with what it appends. -/
def keyboardRun : ShiftState → List Scancode → ShiftState × List Byte
  | s, [] => (s, [])
  | s, k :: ks =>
    let r := keyboardInterrupt s k
    let rest := keyboardRun r.1 ks
    (rest.1, r.2.toList ++ rest.2)

end Pintos
