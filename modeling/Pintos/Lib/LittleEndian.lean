import Mathlib.Algebra.Group.Int.Defs
import Mathlib.Algebra.Group.Nat.Defs
import Mathlib.Data.List.Basic

/-!
# Numbers as bytes

Little-endian encodings of numbers and of arrays of 64-bit words.

* `ofLe_leBytes` — the number is read back
* `ofBytes_toBytes` — so is the array
-/

namespace LittleEndian

abbrev Byte := BitVec 8

/-- The `k` low bytes of `n`, the lowest first. -/
def leBytes : Nat → Nat → List Byte
  | 0, _ => []
  | k + 1, n => BitVec.ofNat 8 n :: leBytes k (n / 256)

/-- The number whose bytes are given, the lowest first. -/
def ofLe : List Byte → Nat
  | [] => 0
  | b :: bytes => b.toNat + 256 * ofLe bytes

@[simp] theorem length_leBytes : ∀ k n, (leBytes k n).length = k
  | 0, _ => rfl
  | k + 1, n => by rw [leBytes, List.length_cons, length_leBytes]

theorem ofLe_leBytes : ∀ k n, ofLe (leBytes k n) = n % 256 ^ k
  | 0, n => by
    rw [Nat.pow_zero, Nat.mod_one]
    rfl
  | k + 1, n => by
    have hmod : n % (256 * 256 ^ k) = n % 256 + 256 * (n / 256 % 256 ^ k) := Nat.mod_mul
    rw [leBytes, ofLe, ofLe_leBytes, BitVec.toNat_ofNat, Nat.pow_succ' (n := k), hmod]

theorem ofLe_leBytes_of_lt {k n : Nat} (h : n < 256 ^ k) : ofLe (leBytes k n) = n := by
  rw [ofLe_leBytes, Nat.mod_eq_of_lt h]

theorem ofLe_lt : ∀ bytes : List Byte, ofLe bytes < 256 ^ bytes.length
  | [] => by simp [ofLe]
  | b :: bytes => by
    have hb : b.toNat < 256 := b.isLt
    have hrec := ofLe_lt bytes
    rw [ofLe, List.length_cons, Nat.pow_succ']
    omega

/-- The bytes of an array of words. -/
def toBytes (words : List (BitVec 64)) : List Byte := words.flatMap fun w => leBytes 8 w.toNat

/-- The array of `k` words at the start of `bytes`. -/
def ofBytes : Nat → List Byte → List (BitVec 64)
  | 0, _ => []
  | k + 1, bytes => BitVec.ofNat 64 (ofLe (bytes.take 8)) :: ofBytes k (bytes.drop 8)

theorem toBytes_cons (w : BitVec 64) (words : List (BitVec 64)) :
    toBytes (w :: words) = leBytes 8 w.toNat ++ toBytes words := rfl

@[simp] theorem length_toBytes (words : List (BitVec 64)) :
    (toBytes words).length = 8 * words.length := by
  induction words with
  | nil => rfl
  | cons w words ih =>
    rw [toBytes_cons, List.length_append, length_leBytes, ih, List.length_cons]
    omega

@[simp] theorem length_ofBytes : ∀ (k : Nat) (bytes : List Byte), (ofBytes k bytes).length = k
  | 0, _ => rfl
  | k + 1, bytes => by rw [ofBytes, List.length_cons, length_ofBytes]

theorem ofBytes_toBytes (words : List (BitVec 64)) :
    ofBytes words.length (toBytes words) = words := by
  induction words with
  | nil => rfl
  | cons w words ih =>
    have hw : ofLe (leBytes 8 w.toNat) = w.toNat := ofLe_leBytes_of_lt w.isLt
    rw [toBytes_cons, List.length_cons, ofBytes, List.take_left' (length_leBytes 8 _),
      List.drop_left' (length_leBytes 8 _), ih, hw, BitVec.ofNat_toNat, BitVec.setWidth_eq]

end LittleEndian
