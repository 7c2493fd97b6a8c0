import Mathlib.Tactic.Linarith
import Mathlib.Tactic.Ring

/-!
# Fixed-point numbers

A number is an integer with a scale `f`, and division truncates towards zero. Nothing here is about
one program.

* `InRange`, `int32`, `int64` — arithmetic that fails where a signed result does not fit
* `tdiv_le`, `le_tdiv` — bounds of a truncated quotient
* `decay_le` — the factor `x / (x + 1)` where `x` is at most `n`
* `decayed_le`, `le_decayed` — what is left of a bounded number
-/

namespace FixedPoint

/-- What stops a calculation. -/
inductive Fault where
  | overflow
  | divisionByZero
  deriving DecidableEq, Repr

/-- The integer is a value of the signed type with `n + 1` bits. -/
def InRange (n : Nat) (x : Int) : Prop := -2 ^ n ≤ x ∧ x < 2 ^ n

instance (n : Nat) (x : Int) : Decidable (InRange n x) := inferInstanceAs (Decidable (_ ∧ _))

/-- A result of type `int`. -/
def int32 (x : Int) : Except Fault Int := if InRange 31 x then .ok x else .error .overflow

/-- A result of type `int64_t`. -/
def int64 (x : Int) : Except Fault Int := if InRange 63 x then .ok x else .error .overflow

/-- `x / y` where the result is an `int`. -/
def quot32 (x y : Int) : Except Fault Int :=
  if y = 0 then .error .divisionByZero else int32 (x.tdiv y)

variable {x y c k f n : Int}

theorem int32_ok (h : InRange 31 x) : int32 x = .ok x := if_pos h

theorem int64_ok (h : InRange 63 x) : int64 x = .ok x := if_pos h

theorem quot32_ok (hy : y ≠ 0) (h : InRange 31 (x.tdiv y)) : quot32 x y = .ok (x.tdiv y) := by
  rw [quot32, if_neg hy, int32_ok h]

theorem ok_bind {ε α β : Type} (v : α) (g : α → Except ε β) : (Except.ok v >>= g) = g v := rfl

theorem of_bind_eq_ok {ε α β : Type} {x : Except ε α} {g : α → Except ε β} {b : β}
    (h : (x >>= g) = .ok b) : ∃ a, x = .ok a ∧ g a = .ok b := by
  cases x with
  | error e => cases h
  | ok a => exact ⟨a, rfl, h⟩

/-! ## Quotients -/

theorem tdiv_le (hf : 0 < f) (h : x ≤ k * f) : x.tdiv f ≤ k := by
  have hle := Int.tdiv_le_tdiv hf h
  rwa [Int.mul_tdiv_cancel k hf.ne'] at hle

theorem le_tdiv (hf : 0 < f) (h : k * f ≤ x) : k ≤ x.tdiv f := by
  have hle := Int.tdiv_le_tdiv hf h
  rwa [Int.mul_tdiv_cancel k hf.ne'] at hle

/-! ## Decay -/

/-- The factor `x / (x + 1)`, in units of `f`, is below one. -/
theorem factor_nonneg (hx : 0 ≤ x) (hf : 0 < f) : 0 ≤ (x * f).tdiv (x + f) :=
  Int.tdiv_nonneg (by positivity) (by positivity)

theorem factor_le (hx : 0 ≤ x) (hf : 0 < f) : (x * f).tdiv (x + f) ≤ f := by
  refine tdiv_le (by positivity) ?_
  have hff : 0 ≤ f * f := by positivity
  linarith [mul_comm x f, mul_add f x f]

/-- It is at most `n / (n + 1)` where the number is at most `n`. -/
theorem decay_le (hx : 0 ≤ x) (hf : 0 < f) (h : x ≤ n * f) :
    (x * f).tdiv (x + f) * (n + 1) ≤ n * f := by
  have hle := factor_le hx hf
  have hmul : (x * f).tdiv (x + f) * (x + f) ≤ x * f := by
    rw [Int.tdiv_eq_ediv_of_nonneg (by positivity)]
    exact Int.ediv_mul_le _ (by positivity)
  generalize (x * f).tdiv (x + f) = c at hle hmul
  -- what is lost is at least the `n`th part of what stays
  have hlost : c * f ≤ n * (f - c) * f := by
    calc c * f ≤ x * (f - c) := by linarith [mul_add c x f, mul_sub x f c, mul_comm c x]
      _ ≤ n * f * (f - c) := mul_le_mul_of_nonneg_right h (by linarith)
      _ = n * (f - c) * f := by ring
  have hc : c ≤ n * (f - c) := le_of_mul_le_mul_right hlost hf
  linarith [mul_sub n f c, mul_add c n 1, mul_comm n c]

theorem decayed_le (hf : 0 < f) (hc : 0 ≤ c) (hn : c * (n + 1) ≤ n * f) (hk : 0 ≤ k)
    (h : y ≤ k * (n + 1)) : (c * y).tdiv f ≤ k * n := by
  refine tdiv_le hf ?_
  calc c * y ≤ c * (k * (n + 1)) := mul_le_mul_of_nonneg_left h hc
    _ = k * (c * (n + 1)) := by ring
    _ ≤ k * (n * f) := mul_le_mul_of_nonneg_left hn hk
    _ = k * n * f := by ring

theorem le_decayed (hf : 0 < f) (hc : 0 ≤ c) (hn : c * (n + 1) ≤ n * f) (hk : 0 ≤ k)
    (h : -(k * (n + 1)) ≤ y) : -(k * n) ≤ (c * y).tdiv f := by
  have hle := decayed_le (y := -y) hf hc hn hk (by linarith)
  rw [mul_neg, Int.neg_tdiv] at hle
  linarith

end FixedPoint
