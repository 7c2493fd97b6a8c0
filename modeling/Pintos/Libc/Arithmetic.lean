import Mathlib.Order.Lattice
import Mathlib.Tactic.Linarith

/-!
# `lib/arithmetic.c`

Division of 64-bit integers with an instruction that divides 64 bits by 32. Negation of a signed integer wraps.
-/

namespace Pintos

/-- The instruction traps. -/
inductive DivideError where
  | trap
  deriving DecidableEq, Repr

/-- `divl`: the quotient has to fit in 32 bits. -/
def divl (n : BitVec 64) (d : BitVec 32) : Except DivideError (BitVec 32) :=
  let q := n / d.setWidth 64
  if d ≠ 0 ∧ q.toNat < 2 ^ 32 then .ok (q.setWidth 32) else .error .trap

/-- An `if` of `nlz`. -/
def nlzStep (bound : BitVec 32) (k : Nat) (p : Nat × BitVec 32) : Nat × BitVec 32 :=
  if p.2 ≤ bound then (p.1 + k, p.2 <<< k) else p

/-- The number of leading zero bits. -/
def nlz (x : BitVec 32) : Nat :=
  let p := nlzStep 0x0000FFFF 16 (0, x)
  let p := nlzStep 0x00FFFFFF 8 p
  let p := nlzStep 0x0FFFFFFF 4 p
  let p := nlzStep 0x3FFFFFFF 2 p
  if p.2 ≤ 0x7FFFFFFF then p.1 + 1 else p.1

def udiv64 (n d : BitVec 64) : Except DivideError (BitVec 64) :=
  if d >>> 32 = 0 then do
    let b := (1 : BitVec 64) <<< 32
    let n1 := (n >>> 32).setWidth 32
    let n0 := n.setWidth 32
    let d0 := d.setWidth 32
    let q ← divl (b * (n1 % d0).setWidth 64 + n0.setWidth 64) d0
    .ok (q.setWidth 64 + b * (n1 / d0).setWidth 64)
  else if n < d then .ok 0
  else do
    let d1 := (d >>> 32).setWidth 32
    let s := nlz d1
    let q ← divl (n >>> 1) ((d <<< s >>> 32).setWidth 32)
    let q := (q >>> (31 - s)).setWidth 64
    .ok (if n - (q - 1) * d < d then q - 1 else q)

/-- The remainder is returned as a `uint32_t`. -/
def umod64 (n d : BitVec 64) : Except DivideError (BitVec 32) := do
  let q ← udiv64 n d
  .ok ((n - d * q).setWidth 32)

/-- The absolute value of an `int64_t`. -/
def absBits (n : BitVec 64) : BitVec 64 := if BitVec.sle 0 n then n else -n

def sdiv64 (n d : BitVec 64) : Except DivideError (BitVec 64) := do
  let q ← udiv64 (absBits n) (absBits d)
  .ok (if BitVec.slt n 0 = BitVec.slt d 0 then q else -q)

/-- The remainder is returned as an `int32_t`. -/
def smod64 (n d : BitVec 64) : Except DivideError (BitVec 32) := do
  let q ← sdiv64 n d
  .ok ((n - d * q).setWidth 32)

/-! ## What GCC calls -/

/-- `__divdi3`. -/
def divdi3 (n d : BitVec 64) : Except DivideError (BitVec 64) := sdiv64 n d

/-- `__moddi3`. -/
def moddi3 (n d : BitVec 64) : Except DivideError (BitVec 64) := do
  let r ← smod64 n d
  .ok (r.signExtend 64)

/-- `__udivdi3`. -/
def udivdi3 (n d : BitVec 64) : Except DivideError (BitVec 64) := udiv64 n d

/-- `__umoddi3`. -/
def umoddi3 (n d : BitVec 64) : Except DivideError (BitVec 64) := do
  let r ← umod64 n d
  .ok (r.setWidth 64)

end Pintos
