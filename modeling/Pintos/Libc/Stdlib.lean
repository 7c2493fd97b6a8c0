import Mathlib.Logic.Function.Basic
import Pintos.Lib.ByteMemory
import Pintos.Libc.Ctype

/-!
# `lib/stdlib.c`

`atoi`, and `sort` and `binary_search` on an array in memory. Addresses and `size_t` have 64 bits. An access that is not
to the array, or an `int` that is out of range, ends the run, since what follows it is undefined. `compare` depends on the
bytes of the two elements; what `aux` points to does not change.
-/

namespace Pintos

open Function LittleEndian ByteMemory

/-- Why a call does not return. -/
inductive LibStop where
  | outOfFuel
  | outside
  | assertion
  | overflow
  deriving DecidableEq, Repr

@[simp] theorem LibStop.ok_bind {α β : Type} (a : α) (f : α → Except LibStop β) : (Except.ok a >>= f) = f a := rfl

/-! ## Integers -/

/-- The value of an expression of type `int`. -/
def checkedInt (n : Int) : Except LibStop Int := if -2 ^ 31 ≤ n ∧ n < 2 ^ 31 then .ok n else .error .overflow

/-- "Parse digits." -/
def atoiDigits : List Byte → Int → Except LibStop Int
  | [], value => .ok value
  | c :: s, value =>
    if isdigit c then do
      let value ← checkedInt (value * 10)
      let value ← checkedInt (value - (c.toNat - (ch '0').toNat))
      atoiDigits s value
    else .ok value

def atoi (s : List Byte) : Except LibStop Int := do
  let s := s.dropWhile isspace
  let (negative, s) :=
    if charAt s = ch '+' then (false, s.tail)
    else if charAt s = ch '-' then (true, s.tail)
    else (false, s)
  let value ← atoiDigits s 0
  if negative then .ok value else checkedInt (-value)

/-! ## Arrays -/

/-- The array that the caller passes. -/
structure ElementArray where
  array : BitVec 64
  cnt : BitVec 64
  size : BitVec 64

/-- The result of `compare`, which is that of `strcmp`. -/
abbrev Compare := List Byte → List Byte → Int

/-- A byte of the array. -/
def ElementArray.Contains (A : ElementArray) (p : BitVec 64) : Prop :=
  A.array.toNat ≤ p.toNat ∧ p.toNat < A.array.toNat + A.cnt.toNat * A.size.toNat

/-- The first byte of an element of the array. -/
def ElementArray.IsElement (A : ElementArray) (p : BitVec 64) : Prop :=
  ∃ k < A.cnt.toNat, p.toNat = A.array.toNat + k * A.size.toNat

instance (A : ElementArray) (p : BitVec 64) : Decidable (A.Contains p) := inferInstanceAs (Decidable (_ ∧ _))

instance (A : ElementArray) (p : BitVec 64) : Decidable (A.IsElement p) :=
  inferInstanceAs (Decidable (∃ k < _, p.toNat = _))

/-- The bytes of an element. -/
def elementBytes (m : Memory) (p size : BitVec 64) : List Byte :=
  (List.range size.toNat).map fun k => m (p.toNat + k)

/-! ## Sorting -/

/-- The loop of `do_swap`, from byte `i` on. -/
def swapBytes (A : ElementArray) (a b : BitVec 64) : Nat → Nat → Memory → Except LibStop Memory
  | _, 0, m => .ok m
  | i, k + 1, m =>
    let p := a + BitVec.ofNat 64 i
    let q := b + BitVec.ofNat 64 i
    if A.Contains p ∧ A.Contains q then
      let t := m p.toNat
      let m := update m p.toNat (m q.toNat)
      swapBytes A a b (i + 1) k (update m q.toNat t)
    else .error .outside

/-- The element with a 1-based index. -/
def ElementArray.element (A : ElementArray) (idx : BitVec 64) : BitVec 64 := A.array + (idx - 1) * A.size

def doSwap (A : ElementArray) (aIdx bIdx : BitVec 64) (m : Memory) : Except LibStop Memory :=
  swapBytes A (A.element aIdx) (A.element bIdx) 0 A.size.toNat m

def doCompare (A : ElementArray) (compare : Compare) (m : Memory) (aIdx bIdx : BitVec 64) : Except LibStop Int :=
  let a := A.element aIdx
  let b := A.element bIdx
  if A.IsElement a ∧ A.IsElement b then .ok (compare (elementBytes m a A.size) (elementBytes m b A.size))
  else .error .outside

/-- An `if` of `heapify`. -/
def largerOf (A : ElementArray) (compare : Compare) (m : Memory) (cnt child max : BitVec 64) :
    Except LibStop (BitVec 64) :=
  if child ≤ cnt then do
    let cmp ← doCompare A compare m child max
    .ok (if 0 < cmp then child else max)
  else .ok max

/-- `heapify`, for at most `fuel` rounds. -/
def heapify (A : ElementArray) (compare : Compare) : Nat → BitVec 64 → BitVec 64 → Memory → Except LibStop Memory
  | 0, _, _, _ => .error .outOfFuel
  | fuel + 1, i, cnt, m => do
    let left := 2 * i
    let right := 2 * i + 1
    let max := i
    let max ← largerOf A compare m cnt left max
    let max ← largerOf A compare m cnt right max
    if max = i then .ok m
    else do
      let m ← doSwap A i max m
      heapify A compare fuel max cnt m

/-- "Build a heap", from index `i` down. -/
def buildHeap (A : ElementArray) (compare : Compare) (fuel : Nat) : Nat → Memory → Except LibStop Memory
  | 0, m => .ok m
  | i + 1, m => do
    let m ← heapify A compare fuel (BitVec.ofNat 64 (i + 1)) A.cnt m
    buildHeap A compare fuel i m

/-- "Sort the heap", from index `i` down. -/
def sortHeap (A : ElementArray) (compare : Compare) (fuel : Nat) : Nat → Memory → Except LibStop Memory
  | 0, m => .ok m
  | 1, m => .ok m
  | i + 2, m => do
    let m ← doSwap A 1 (BitVec.ofNat 64 (i + 2)) m
    let m ← heapify A compare fuel 1 (BitVec.ofNat 64 (i + 2) - 1) m
    sortHeap A compare fuel (i + 1) m

def sort (fuel : Nat) (A : ElementArray) (compare : Compare) (m : Memory) : Except LibStop Memory :=
  if ¬ (A.array ≠ 0 ∨ A.cnt = 0) ∨ A.size = 0 then .error .assertion
  else do
    let m ← buildHeap A compare fuel (A.cnt / 2).toNat m
    sortHeap A compare fuel A.cnt.toNat m

/-! ## Searching -/

/-- The loop of `binary_search`, for at most `fuel` rounds. -/
def searchLoop (A : ElementArray) (compare : Compare) (key : List Byte) (m : Memory) :
    Nat → BitVec 64 → BitVec 64 → Except LibStop (Option (BitVec 64))
  | 0, _, _ => .error .outOfFuel
  | fuel + 1, first, last =>
    if first < last then
      let range := (last - first) / A.size
      let middle := first + range / 2 * A.size
      if A.IsElement middle then
        let cmp := compare key (elementBytes m middle A.size)
        if cmp < 0 then searchLoop A compare key m fuel first middle
        else if 0 < cmp then searchLoop A compare key m fuel (middle + A.size) last
        else .ok (some middle)
      else .error .outside
    else .ok none

/-- `binary_search`. A null pointer is `none`. -/
def binarySearch (fuel : Nat) (A : ElementArray) (compare : Compare) (key : List Byte) (m : Memory) :
    Except LibStop (Option (BitVec 64)) :=
  searchLoop A compare key m fuel A.array (A.array + A.size * A.cnt)

end Pintos
