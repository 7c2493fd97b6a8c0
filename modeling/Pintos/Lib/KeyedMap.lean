import Mathlib.Data.List.Perm.Basic
import Mathlib.Data.List.Dedup
import Mathlib.Data.Set.Card
import Mathlib.Logic.Function.Basic

/-!
# Maps of elements with a key

A finite map that holds at most one element for each key, where a key is a property of the element.
Nothing here is about one program.

* `Represents key l m` — `m` maps the keys of the elements of `l` to these elements
* `Represents.cons`, `Represents.erase` — an element joins or leaves
* `Mealy.run_refines` — two machines that return related results at each step do so in every run
-/

namespace KeyedMap

open Function

variable {α κ : Type*} {key : α → κ} {l l' : List α} {m : κ → Option α} {k : κ} {x y : α}

/-- Each element of the list is what its key is mapped to, and nothing else is in the map. -/
structure Represents (key : α → κ) (l : List α) (m : κ → Option α) : Prop where
  distinct : (l.map key).Nodup
  lookup : ∀ k x, m k = some x ↔ x ∈ l ∧ key x = k

namespace Represents

theorem nil : Represents key [] fun _ => none where
  distinct := List.nodup_nil
  lookup k x := by simp

theorem perm (h : Represents key l m) (hp : l'.Perm l) : Represents key l' m where
  distinct := (hp.map key).nodup_iff.mpr h.distinct
  lookup k x := by rw [h.lookup, hp.mem_iff]

theorem nodup (h : Represents key l m) : l.Nodup := h.distinct.of_map key

/-- Two elements with one key are the same. -/
theorem eq_of_key (h : Represents key l m) (hx : x ∈ l) (hy : y ∈ l) (hxy : key x = key y) : x = y :=
  List.inj_on_of_nodup_map h.distinct hx hy hxy

theorem eq_none_iff (h : Represents key l m) : m k = none ↔ ∀ x ∈ l, key x ≠ k := by
  rw [Option.eq_none_iff_forall_ne_some]
  constructor
  · intro hn x hx hk
    exact hn x ((h.lookup k x).mpr ⟨hx, hk⟩)
  · intro hn x hx
    obtain ⟨hmem, hk⟩ := (h.lookup k x).mp hx
    exact hn x hmem hk

/-- The number of keys in the map. -/
theorem ncard (h : Represents key l m) : {k | m k ≠ none}.ncard = l.length := by
  classical
  have hset : {k | m k ≠ none} = ((l.map key).toFinset : Set κ) := by
    ext k
    rw [Set.mem_ofPred_eq, ne_eq, h.eq_none_iff]
    simp
  rw [hset, Set.ncard_coe_finset, List.toFinset_card_of_nodup h.distinct, List.length_map]

variable [DecidableEq κ]

theorem cons (h : Represents key l m) (hx : m (key x) = none) :
    Represents key (x :: l) (update m (key x) (some x)) where
  distinct := by
    rw [List.map_cons, List.nodup_cons]
    refine ⟨fun hmem => ?_, h.distinct⟩
    obtain ⟨y, hy, hk⟩ := List.mem_map.mp hmem
    exact h.eq_none_iff.mp hx y hy hk
  lookup k y := by
    by_cases hk : k = key x
    · subst hk
      rw [update_self, List.mem_cons]
      constructor
      · intro hy
        exact ⟨Or.inl (Option.some.inj hy).symm, congrArg key (Option.some.inj hy).symm⟩
      · rintro ⟨rfl | hy, hky⟩
        · rfl
        · exact absurd hky (h.eq_none_iff.mp hx y hy)
    · rw [update_of_ne hk, h.lookup, List.mem_cons]
      constructor
      · exact fun hy => ⟨Or.inr hy.1, hy.2⟩
      · rintro ⟨rfl | hy, hky⟩
        · exact absurd hky.symm hk
        · exact ⟨hy, hky⟩

theorem erase [DecidableEq α] (h : Represents key l m) (hx : m k = some x) :
    Represents key (l.erase x) (update m k none) where
  distinct := h.distinct.sublist (List.erase_sublist.map key)
  lookup q y := by
    obtain ⟨hmem, hkey⟩ := (h.lookup k x).mp hx
    rw [h.nodup.mem_erase_iff]
    by_cases hq : q = k
    · rw [hq, update_self]
      constructor
      · exact fun hy => nomatch hy
      · rintro ⟨⟨hne, hy⟩, hky⟩
        exact absurd (h.eq_of_key hy hmem (hky.trans hkey.symm)) hne
    · rw [update_of_ne hq, h.lookup]
      constructor
      · rintro ⟨hy, hky⟩
        refine ⟨⟨?_, hy⟩, hky⟩
        rintro rfl
        exact hq (hky.symm.trans hkey)
      · exact fun hy => ⟨hy.1.2, hy.2⟩

end Represents

end KeyedMap

/-! ## Machines that return results -/

namespace Mealy

variable {σ τ α β γ : Type*} {step : σ → α → σ × β} {step' : τ → α → τ × γ} {R : σ → τ → Prop}
  {O : β → γ → Prop}

/-- Runs the actions in order and collects the results. -/
def run (step : σ → α → σ × β) : σ → List α → σ × List β
  | s, [] => (s, [])
  | s, a :: as =>
    let r := step s a
    let rest := run step r.1 as
    (rest.1, r.2 :: rest.2)

/-- **The simulation rule.** -/
theorem run_refines (hstep : ∀ s t a, R s t → R (step s a).1 (step' t a).1 ∧ O (step s a).2 (step' t a).2) :
    ∀ (as : List α) {s : σ} {t : τ}, R s t →
      R (run step s as).1 (run step' t as).1 ∧ List.Forall₂ O (run step s as).2 (run step' t as).2
  | [], _, _, h => ⟨h, .nil⟩
  | a :: as, s, t, h => by
    obtain ⟨hr, ho⟩ := hstep s t a h
    obtain ⟨hrs, hos⟩ := run_refines hstep as hr
    exact ⟨hrs, .cons ho hos⟩

end Mealy
