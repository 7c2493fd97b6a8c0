import Mathlib.Data.List.GetD
import Mathlib.Logic.Function.Basic
import Pintos.Lib.LittleEndian

/-!
# Bytes at addresses

A memory of bytes, strings in it, and a stack that grows downwards.

* `Holds`, `holds_append` — a list of bytes at an address
* `IsString` — a list of bytes without zeros, and then a zero
* `Pushes`, `Pushes.trans` — bytes were pushed, and nothing else has changed
* `Holds.word` — the words of an array
-/

namespace ByteMemory

open Function LittleEndian

abbrev Memory := Nat → Byte

/-- The bytes from `a` on. -/
def Holds (m : Memory) (a : Nat) (xs : List Byte) : Prop := ∀ (k : Nat) (h : k < xs.length), m (a + k) = xs[k]

/-- The bytes of a string, and the zero at its end. -/
structure IsString (m : Memory) (a : Nat) (xs : List Byte) : Prop where
  bytes : Holds m a (xs ++ [0])
  nonzero : ∀ b ∈ xs, b ≠ 0

def putBytes (m : Memory) (a : Nat) (xs : List Byte) : Memory := fun b =>
  if a ≤ b ∧ b < a + xs.length then xs.getD (b - a) 0 else m b

/-- The word of `k` bytes at an address. -/
def loadLe (m : Memory) (a k : Nat) : Nat := ofLe ((List.range k).map fun i => m (a + i))

variable {m m' m₁ : Memory} {a a' rsp rsp' rsp₁ : Nat} {xs ys : List Byte}

theorem Holds.nil (m : Memory) (a : Nat) : Holds m a [] := fun k h => absurd h (Nat.not_lt_zero k)

theorem holds_cons {b : Byte} : Holds m a (b :: xs) ↔ m a = b ∧ Holds m (a + 1) xs := by
  constructor
  · intro h
    refine ⟨h 0 (Nat.succ_pos _), fun k hk => ?_⟩
    have hk' := h (k + 1) (Nat.succ_lt_succ hk)
    rwa [List.getElem_cons_succ, Nat.add_comm k 1, ← Nat.add_assoc] at hk'
  · rintro ⟨hb, h⟩ k hk
    cases k with
    | zero => exact hb
    | succ k =>
      rw [List.getElem_cons_succ, Nat.add_comm k 1, ← Nat.add_assoc]
      exact h k (Nat.lt_of_succ_lt_succ hk)

theorem holds_append : Holds m a (xs ++ ys) ↔ Holds m a xs ∧ Holds m (a + xs.length) ys := by
  induction xs generalizing a with
  | nil => exact ⟨fun h => ⟨.nil m a, h⟩, fun h => h.2⟩
  | cons b xs ih =>
    rw [List.cons_append, holds_cons, holds_cons, ih, and_assoc, List.length_cons, Nat.add_comm xs.length,
      ← Nat.add_assoc]

/-- Bytes where nothing changed. -/
theorem Holds.congr (h : Holds m a xs) (heq : ∀ b, a ≤ b → b < a + xs.length → m' b = m b) : Holds m' a xs := by
  intro k hk
  rw [heq _ (by omega) (by omega)]
  exact h k hk

theorem IsString.congr (h : IsString m a xs) (heq : ∀ b, a ≤ b → b ≤ a + xs.length → m' b = m b) :
    IsString m' a xs := by
  refine ⟨h.bytes.congr fun b hle hlt => heq b hle ?_, h.nonzero⟩
  rw [List.length_append, List.length_singleton] at hlt
  omega

theorem holds_putBytes (m : Memory) (a : Nat) (xs : List Byte) : Holds (putBytes m a xs) a xs := by
  intro k hk
  rw [putBytes, if_pos (by omega), Nat.add_sub_cancel_left, List.getD_eq_getElem _ _ hk]

theorem putBytes_nil (m : Memory) (a : Nat) : putBytes m a [] = m := by
  funext b
  rw [putBytes, List.length_nil, if_neg (by omega)]

theorem putBytes_cons (m : Memory) (a : Nat) (b : Byte) (xs : List Byte) :
    putBytes m a (b :: xs) = putBytes (update m a b) (a + 1) xs := by
  funext c
  unfold putBytes
  rw [List.length_cons]
  by_cases hc : c = a
  · subst hc
    rw [if_pos (by omega), if_neg (by omega), update_self, Nat.sub_self, List.getD_cons_zero]
  · rw [update_of_ne hc]
    by_cases hin : a + 1 ≤ c ∧ c < a + 1 + xs.length
    · obtain ⟨k, rfl⟩ := Nat.exists_eq_add_of_le hin.1
      rw [if_pos (by omega), if_pos hin, show a + 1 + k - a = k + 1 by omega, Nat.add_sub_cancel_left,
        List.getD_cons_succ]
    · rw [if_neg (by omega), if_neg hin]

/-- One byte behind the bytes. -/
theorem putBytes_concat (m : Memory) (a : Nat) (xs : List Byte) (b : Byte) :
    putBytes m a (xs ++ [b]) = update (putBytes m a xs) (a + xs.length) b := by
  induction xs generalizing m a with
  | nil => rw [List.nil_append, putBytes_cons, putBytes_nil, putBytes_nil, List.length_nil, Nat.add_zero]
  | cons c xs ih =>
    rw [List.cons_append, putBytes_cons, ih, putBytes_cons, List.length_cons, Nat.add_comm xs.length,
      ← Nat.add_assoc]

theorem holds_of_loadLe {k w : Nat} (h : Holds m a (leBytes k w)) : loadLe m a k = w % 256 ^ k := by
  have hbytes : (List.range k).map (fun i => m (a + i)) = leBytes k w := by
    refine List.ext_getElem (by simp) fun i hi hi' => ?_
    rw [List.getElem_map, List.getElem_range]
    exact h i hi'
  rw [loadLe, hbytes, ofLe_leBytes]

/-- The words of an array. -/
theorem Holds.word {k : Nat} {ws : List Nat} (h : Holds m a (ws.flatMap (leBytes k))) (hlt : ∀ w ∈ ws, w < 256 ^ k)
    {i : Nat} (hi : i < ws.length) : loadLe m (a + k * i) k = ws[i] := by
  induction ws generalizing a i with
  | nil => exact absurd hi (Nat.not_lt_zero i)
  | cons w ws ih =>
    rw [List.flatMap_cons, holds_append, length_leBytes] at h
    cases i with
    | zero =>
      rw [Nat.mul_zero, Nat.add_zero, holds_of_loadLe h.1, Nat.mod_eq_of_lt (hlt w List.mem_cons_self)]
      rfl
    | succ i =>
      rw [Nat.mul_succ, Nat.add_comm (k * i), ← Nat.add_assoc]
      exact ih h.2 (fun w hw => hlt w (List.mem_cons_of_mem _ hw)) (Nat.lt_of_succ_lt_succ hi)

/-! ## A stack that grows downwards -/

/-- The bytes were pushed, and nothing else has changed. -/
structure Pushes (m : Memory) (rsp : Nat) (xs : List Byte) (m' : Memory) (rsp' : Nat) : Prop where
  total : rsp' + xs.length = rsp
  bytes : Holds m' rsp' xs
  others : ∀ a, a < rsp' ∨ rsp ≤ a → m' a = m a

theorem Pushes.refl (m : Memory) (rsp : Nat) : Pushes m rsp [] m rsp := ⟨rfl, .nil m rsp, fun _ _ => rfl⟩

theorem Pushes.trans (h : Pushes m rsp xs m₁ rsp₁) (h' : Pushes m₁ rsp₁ ys m' rsp') :
    Pushes m rsp (ys ++ xs) m' rsp' := by
  have hr := h.total
  have hr' := h'.total
  refine ⟨by rw [List.length_append]; omega, ?_, fun a ha => ?_⟩
  · rw [holds_append, hr']
    exact ⟨h'.bytes, h.bytes.congr fun b hle _ => h'.others b (.inr hle)⟩
  · rw [h'.others a (by omega), h.others a (by omega)]

theorem pushes_putBytes (m : Memory) {rsp : Nat} (hle : xs.length ≤ rsp) :
    Pushes m rsp xs (putBytes m (rsp - xs.length) xs) (rsp - xs.length) := by
  refine ⟨by omega, holds_putBytes m _ xs, fun a ha => ?_⟩
  rw [putBytes, if_neg (by omega)]

theorem pushes_update (m : Memory) {rsp : Nat} (hpos : 0 < rsp) (b : Byte) :
    Pushes m rsp [b] (update m (rsp - 1) b) (rsp - 1) := by
  refine ⟨by rw [List.length_singleton]; omega, ?_, fun a ha => update_of_ne (by omega) _ _⟩
  rw [holds_cons, update_self]
  exact ⟨rfl, .nil _ _⟩

end ByteMemory
