import Mathlib.Data.Nat.ModEq
import Mathlib.Logic.Function.Basic

/-!
# Ring buffers

A buffer of `n` places that is written at `head` and read at `tail`, each going round. One place
stays free, so that `head = tail` says that the buffer is empty. Nothing here is about one program.

* `Ring n head tail cnt` — `cnt` entries are between the two positions
* `contents` — the entries, the oldest first
* `contents_push`, `contents_pop` — the buffer is a queue
-/

namespace RingBuffer

open Function

variable {α : Type*} {n head tail cnt i j : Nat} {buf : Nat → α}

/-- `cnt` entries lie from `tail` on up to `head`. -/
structure Ring (n head tail cnt : Nat) : Prop where
  tail_lt : tail < n
  cnt_lt : cnt < n
  head_eq : head = (tail + cnt) % n

/-- `cnt` entries from `tail` on. -/
def contents (buf : Nat → α) (n tail cnt : Nat) : List α :=
  (List.range cnt).map fun i => buf ((tail + i) % n)

/-- Different offsets are different places. -/
theorem offset_inj (tail : Nat) (hi : i < n) (hj : j < n) (h : (tail + i) % n = (tail + j) % n) : i = j :=
  Nat.ModEq.eq_of_lt_of_lt (Nat.ModEq.add_left_cancel' tail h) hi hj

namespace Ring

theorem empty (h : tail < n) : Ring n tail tail 0 where
  tail_lt := h
  cnt_lt := by omega
  head_eq := (Nat.mod_eq_of_lt h).symm

theorem head_lt (h : Ring n head tail cnt) : head < n := by
  rw [h.head_eq]
  exact Nat.mod_lt _ (by have := h.tail_lt; omega)

theorem tail_eq (h : Ring n head tail cnt) : tail = (tail + 0) % n :=
  (Nat.mod_eq_of_lt h.tail_lt).symm

theorem empty_iff (h : Ring n head tail cnt) : head = tail ↔ cnt = 0 := by
  have hpos : 0 < n := by have := h.tail_lt; omega
  constructor
  · intro he
    refine offset_inj tail h.cnt_lt hpos ?_
    rw [← h.head_eq, he]
    exact h.tail_eq
  · rintro rfl
    rw [h.head_eq]
    exact h.tail_eq.symm

theorem next_head (h : Ring n head tail cnt) : (head + 1) % n = (tail + (cnt + 1)) % n := by
  rw [h.head_eq, Nat.mod_add_mod, Nat.add_assoc]

/-- The next place to write is the one that must stay free. -/
theorem full_iff (h : Ring n head tail cnt) : (head + 1) % n = tail ↔ cnt + 1 = n := by
  have hcnt := h.cnt_lt
  rw [h.next_head]
  constructor
  · intro he
    by_contra hne
    have hlt : cnt + 1 < n := by omega
    have hz : cnt + 1 = 0 := by
      refine offset_inj tail hlt (by omega) ?_
      rw [he]
      exact h.tail_eq
    omega
  · intro he
    rw [he, Nat.add_mod_right]
    exact Nat.mod_eq_of_lt h.tail_lt

theorem push (h : Ring n head tail cnt) (hfull : (head + 1) % n ≠ tail) :
    Ring n ((head + 1) % n) tail (cnt + 1) where
  tail_lt := h.tail_lt
  cnt_lt := by
    have hne := mt h.full_iff.mpr hfull
    have := h.cnt_lt
    omega
  head_eq := h.next_head

theorem pop (h : Ring n head tail (cnt + 1)) : Ring n head ((tail + 1) % n) cnt where
  tail_lt := Nat.mod_lt _ (by have := h.tail_lt; omega)
  cnt_lt := by have := h.cnt_lt; omega
  head_eq := by
    rw [h.head_eq, Nat.mod_add_mod]
    congr 1
    omega

end Ring

@[simp] theorem length_contents : (contents buf n tail cnt).length = cnt := by simp [contents]

theorem Ring.cnt_eq (h : Ring n head tail cnt) : cnt = (head + n - tail) % n := by
  have htail := h.tail_lt
  refine offset_inj tail h.cnt_lt (Nat.mod_lt _ (by omega)) ?_
  have hsum : tail + (head + n - tail) = head + n := by omega
  rw [← h.head_eq, Nat.add_mod_mod, hsum, Nat.add_mod_right, Nat.mod_eq_of_lt h.head_lt]

/-- **An entry is written** behind the others. -/
theorem contents_push {x : α} (h : Ring n head tail cnt) :
    contents (update buf head x) n tail (cnt + 1) = contents buf n tail cnt ++ [x] := by
  have hold : ∀ i ∈ List.range cnt, update buf head x ((tail + i) % n) = buf ((tail + i) % n) := by
    intro i hi
    rw [List.mem_range] at hi
    refine update_of_ne (fun hc => ?_) _ _
    rw [h.head_eq] at hc
    exact hi.ne (offset_inj tail (hi.trans h.cnt_lt) h.cnt_lt hc)
  unfold contents
  rw [List.range_succ, List.map_append, List.map_congr_left hold]
  simp [← h.head_eq]

/-- **The oldest entry is read.** -/
theorem contents_pop (h : Ring n head tail (cnt + 1)) :
    contents buf n tail (cnt + 1) = buf tail :: contents buf n ((tail + 1) % n) cnt := by
  unfold contents
  rw [List.range_succ_eq_map, List.map_cons, List.map_map, Nat.add_zero, Nat.mod_eq_of_lt h.tail_lt]
  congr 1
  refine List.map_congr_left fun i _ => ?_
  rw [comp_apply, Nat.mod_add_mod]
  congr 2
  omega

end RingBuffer
