import Mathlib.Data.List.Nodup
import Mathlib.Data.Option.Basic
import Mathlib.Logic.Function.Basic

/-!
# Partial maps in tables of slots

A table is a list of slots, each free or with a key and a value. Slots are reused in place. Nothing
here is about one program.

* `Unique` — no key is in two slots
* `value_insert`, `value_erase` — a slot that is filled or freed changes the map at one key
* `length_keys_lt_iff` — there is a free slot iff fewer keys than slots are in use
* `swapped` — the values as keys
-/

namespace SlotMap

open Function

variable {K V : Type*}

abbrev Table (K V : Type*) := List (Option (K × V))

/-- The keys, in the order of their slots. -/
def keys (t : Table K V) : List K := t.filterMap fun slot => slot.map Prod.fst

/-- No key is in two slots. -/
def Unique (t : Table K V) : Prop := (keys t).Nodup

/-- The value in the first slot with the key. -/
def value [DecidableEq K] : Table K V → K → Option V
  | [], _ => none
  | none :: t, k => value t k
  | some (k', v) :: t, k => if k' = k then some v else value t k

variable {t : Table K V} {k k' : K} {v : V} {i : Nat}

@[simp] theorem keys_nil : keys ([] : Table K V) = [] := rfl

@[simp] theorem keys_none (t : Table K V) : keys (none :: t) = keys t := rfl

@[simp] theorem keys_some (t : Table K V) (k : K) (v : V) : keys (some (k, v) :: t) = k :: keys t := rfl

theorem mem_keys : k ∈ keys t ↔ ∃ v, some (k, v) ∈ t := by
  constructor
  · intro h
    obtain ⟨slot, hslot, hk⟩ := List.mem_filterMap.mp h
    obtain ⟨⟨k', v⟩, rfl, rfl⟩ := Option.map_eq_some_iff.mp hk
    exact ⟨v, hslot⟩
  · rintro ⟨v, h⟩
    exact List.mem_filterMap.mpr ⟨some (k, v), h, rfl⟩

theorem length_keys_le (t : Table K V) : (keys t).length ≤ t.length := List.length_filterMap_le _ _

/-- There is a free slot iff fewer keys than slots are in use. -/
theorem length_keys_lt_iff : (keys t).length < t.length ↔ none ∈ t := by
  induction t with
  | nil => simp
  | cons slot t ih =>
    have hle := length_keys_le t
    cases slot with
    | none =>
      simp only [keys_none, List.length_cons, List.mem_cons, true_or, iff_true]
      omega
    | some kv =>
      rw [show keys (some kv :: t) = kv.1 :: keys t from rfl, List.length_cons, List.length_cons,
        Nat.add_lt_add_iff_right, ih]
      simp

theorem Unique.tail {slot : Option (K × V)} (h : Unique (slot :: t)) : Unique t := by
  cases slot with
  | none => exact h
  | some kv => exact (List.nodup_cons.mp h).2

/-- The keys after a free slot is filled. -/
theorem keys_insert (hi : t[i]? = some none) (k : K) (v : V) :
    (keys (t.set i (some (k, v)))).Perm (k :: keys t) := by
  induction t generalizing i with
  | nil => simp at hi
  | cons slot t ih =>
    cases i with
    | zero =>
      simp only [List.getElem?_cons_zero, Option.some.injEq] at hi
      subst hi
      exact List.Perm.refl _
    | succ i =>
      rw [List.getElem?_cons_succ] at hi
      rw [List.set_cons_succ]
      cases slot with
      | none => exact ih hi
      | some kv => exact ((ih hi).cons kv.1).trans (List.Perm.swap k kv.1 _)

/-- The keys after a slot is freed. -/
theorem keys_erase (hi : t[i]? = some (some (k, v))) :
    (keys t).Perm (k :: keys (t.set i none)) := by
  induction t generalizing i with
  | nil => simp at hi
  | cons slot t ih =>
    cases i with
    | zero =>
      simp only [List.getElem?_cons_zero, Option.some.injEq] at hi
      subst hi
      exact List.Perm.refl _
    | succ i =>
      rw [List.getElem?_cons_succ] at hi
      rw [List.set_cons_succ]
      cases slot with
      | none => exact ih hi
      | some kv => exact ((ih hi).cons kv.1).trans (List.Perm.swap k kv.1 _)

theorem Unique.insert (h : Unique t) (hi : t[i]? = some none) (hk : k ∉ keys t) (v : V) :
    Unique (t.set i (some (k, v))) :=
  (keys_insert hi k v).nodup_iff.mpr (List.nodup_cons.mpr ⟨hk, h⟩)

theorem Unique.erase (h : Unique t) (hi : t[i]? = some (some (k, v))) : Unique (t.set i none) :=
  (List.nodup_cons.mp ((keys_erase hi).nodup_iff.mp h)).2

/-- No key is in two slots. -/
theorem Unique.index_eq (h : Unique t) {j : Nat} {w : V} (hi : t[i]? = some (some (k, v)))
    (hj : t[j]? = some (some (k, w))) : i = j := by
  by_contra hne
  -- with the first of the two freed the key would be gone
  have hj' : (t.set i none)[j]? = some (some (k, w)) := by rw [List.getElem?_set_ne hne, hj]
  have hgone := (List.nodup_cons.mp ((keys_erase hi).nodup_iff.mp h)).1
  exact hgone (mem_keys.mpr ⟨w, List.mem_of_getElem? hj'⟩)

/-- The values and their keys. -/
def swapped (t : Table K V) : Table V K := t.map (Option.map Prod.swap)

variable [DecidableEq K]

theorem value_eq_none_iff : value t k = none ↔ k ∉ keys t := by
  induction t with
  | nil => simp [value]
  | cons slot t ih =>
    rcases slot with - | ⟨k', v'⟩
    · rw [value, ih, keys_none]
    · rw [value, keys_some, List.mem_cons, not_or]
      split
      · next hk => simp [hk]
      · next hk => rw [ih, and_iff_right (Ne.symm hk)]

/-- In a table without duplicates a key has the value of any slot it is in. -/
theorem Unique.value_eq (h : Unique t) : value t k = some v ↔ some (k, v) ∈ t := by
  induction t with
  | nil => simp [value]
  | cons slot t ih =>
    rcases slot with - | ⟨k', v'⟩
    · rw [value, ih h.tail, List.mem_cons]
      simp
    · rw [value, List.mem_cons, Option.some.injEq, Prod.mk.injEq]
      have hnot := (List.nodup_cons.mp h).1
      split
      · next hk =>
        subst hk
        have hno : some (k', v) ∉ t := fun hc => hnot (mem_keys.mpr ⟨v, hc⟩)
        simp [hno, eq_comm]
      · next hk =>
        rw [ih h.tail, or_iff_right fun hc => hk hc.1.symm]

/-- **A free slot is filled.** -/
theorem value_insert (hi : t[i]? = some none) (hk : k ∉ keys t) (v : V) :
    value (t.set i (some (k, v))) = update (value t) k (some v) := by
  funext x
  induction t generalizing i with
  | nil => simp at hi
  | cons slot t ih =>
    cases i with
    | zero =>
      simp only [List.getElem?_cons_zero, Option.some.injEq] at hi
      subst hi
      rw [List.set_cons_zero, value]
      split
      · next hx =>
        subst hx
        rw [update_self]
      · next hx => rw [update_of_ne (Ne.symm hx), value]
    | succ i =>
      rw [List.getElem?_cons_succ] at hi
      rw [List.set_cons_succ]
      rcases slot with - | ⟨k', v'⟩
      · rw [value, ih hi hk]
        rfl
      · rw [keys_some, List.mem_cons, not_or] at hk
        rw [value, ih hi hk.2]
        by_cases hx : x = k
        · subst hx
          rw [update_self, update_self, if_neg (Ne.symm hk.1)]
        · rw [update_of_ne hx, update_of_ne hx, value]

/-- **A slot is freed.** -/
theorem Unique.value_erase (h : Unique t) (hi : t[i]? = some (some (k, v))) :
    value (t.set i none) = update (value t) k none := by
  have hn := List.nodup_cons.mp ((keys_erase hi).nodup_iff.mp h)
  funext x
  by_cases hx : x = k
  · subst hx
    rw [update_self, value_eq_none_iff]
    exact hn.1
  · rw [update_of_ne hx]
    -- the other keys are in the slots they were in
    have hiff : ∀ w, value (t.set i none) x = some w ↔ value t x = some w := by
      intro w
      rw [Unique.value_eq h, Unique.value_eq (h.erase hi), List.mem_iff_getElem?, List.mem_iff_getElem?]
      refine exists_congr fun j => ?_
      rw [List.getElem?_set]
      by_cases hij : i = j
      · subst hij
        rw [hi, if_pos rfl]
        have hne : ¬ k = x := fun hc => hx hc.symm
        split <;> simp [hne]
      · rw [if_neg hij]
    exact Option.ext hiff

end SlotMap
