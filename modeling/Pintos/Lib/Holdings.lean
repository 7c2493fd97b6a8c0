import Mathlib.Data.List.Perm.Subperm
import Mathlib.Data.Set.Lattice
import Mathlib.Order.CompletePartialOrder

/-!
# Things that are handed out

An allocator hands out things (`γ`), each made of cells (`P`). Some cells are reserved and never
handed out. Nothing here is about one program.

* `Holdings` — the cells in use are the reserved ones and, without overlap, those handed out
* `Holdings.take`, `Holdings.give` — handing out and taking back keep this
-/

variable {γ P : Type*}

/-- The things of the list `live` are held, and the cells `used` are in use. -/
structure Holdings (cells : γ → Set P) (reserved used : P → Prop) (live : List γ) : Prop where
  apart : live.Pairwise fun g h => Disjoint (cells g) (cells h)
  used_iff : ∀ q, used q ↔ reserved q ∨ ∃ g ∈ live, q ∈ cells g
  usable : ∀ g ∈ live, ∀ q ∈ cells g, ¬ reserved q

namespace Holdings

variable {cells : γ → Set P} {reserved used used' : P → Prop} {live : List γ} {g : γ}

theorem empty (h : ∀ q, used q ↔ reserved q) : Holdings cells reserved used [] where
  apart := List.Pairwise.nil
  used_iff q := by simp [h q]
  usable _ hg := absurd hg List.not_mem_nil

/-- Cells that are not in use are handed out. -/
theorem take (h : Holdings cells reserved used live) (hfree : ∀ q ∈ cells g, ¬ used q)
    (hused : ∀ q, used' q ↔ used q ∨ q ∈ cells g) : Holdings cells reserved used' (g :: live) where
  apart := by
    refine List.pairwise_cons.mpr ⟨fun k hk => ?_, h.apart⟩
    exact Set.disjoint_left.mpr fun q hq hqk => hfree q hq ((h.used_iff q).mpr (Or.inr ⟨k, hk, hqk⟩))
  used_iff q := by
    rw [hused, h.used_iff]
    simp only [List.mem_cons, exists_eq_or_imp]
    exact or_assoc.trans (or_congr_right or_comm)
  usable := by
    intro k hk q hq
    rcases List.mem_cons.mp hk with rfl | hk
    · exact fun hr => hfree q hq ((h.used_iff q).mpr (Or.inl hr))
    · exact h.usable k hk q hq

variable [DecidableEq γ]

/-- What is held beside `g` has no cell of `g`. -/
theorem disjoint_of_mem_erase (h : Holdings cells reserved used live) (hg : g ∈ live) {k : γ}
    (hk : k ∈ live.erase g) : Disjoint (cells g) (cells k) := by
  have hperm : List.Pairwise (fun g h => Disjoint (cells g) (cells h)) (g :: live.erase g) :=
    (List.perm_cons_erase hg).pairwise h.apart fun {_ _} hd => hd.symm
  exact (List.pairwise_cons.mp hperm).1 k hk

/-- A thing is taken back. -/
theorem give (h : Holdings cells reserved used live) (hg : g ∈ live)
    (hused : ∀ q, used' q ↔ used q ∧ q ∉ cells g) : Holdings cells reserved used' (live.erase g) where
  apart := h.apart.sublist List.erase_sublist
  used_iff q := by
    rw [hused, h.used_iff]
    constructor
    · rintro ⟨hr | ⟨k, hk, hq⟩, hn⟩
      · exact Or.inl hr
      · refine Or.inr ⟨k, (List.mem_erase_of_ne ?_).mpr hk, hq⟩
        rintro rfl
        exact hn hq
    · rintro (hr | ⟨k, hk, hq⟩)
      · exact ⟨Or.inl hr, fun hc => h.usable g hg q hc hr⟩
      · exact ⟨Or.inr ⟨k, List.mem_of_mem_erase hk, hq⟩,
          fun hc => Set.disjoint_left.mp (h.disjoint_of_mem_erase hg hk) hc hq⟩
  usable k hk := h.usable k (List.mem_of_mem_erase hk)

end Holdings
