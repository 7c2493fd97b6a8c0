import Mathlib.Data.List.Basic
import Mathlib.Order.Antisymmetrization

/-!
# Strict weak orders

A comparison function with ties. Nothing here is about one program.

* `StrictWeak` — less than, with ties that are an equivalence
* `StrictWeak.exists_key` — it compares the ranks of the elements
* `Ascending`, `SameTies` — a sorted list, and one with its ties in the same order
* `Ascending.eq_of_sameTies` — both together determine a list
-/

namespace StrictWeak

universe u

variable {α : Type u}

/-- Neither is less than the other. -/
def tied (less : α → α → Bool) (a b : α) : Bool := !less a b && !less b a

@[simp] theorem tied_iff {less : α → α → Bool} {a b : α} :
    tied less a b = true ↔ less a b = false ∧ less b a = false := by
  simp [tied]

end StrictWeak

open StrictWeak in
/-- `less` is a strict order, and being tied is transitive. -/
structure StrictWeak {α : Type*} (less : α → α → Bool) : Prop where
  irrefl : ∀ a, less a a = false
  trans : ∀ a b c, less a b = true → less b c = true → less a c = true
  tied_trans : ∀ a b c, tied less a b = true → tied less b c = true → tied less a c = true

/-- No element is less than one before it. -/
def Ascending {α : Type*} (less : α → α → Bool) (l : List α) : Prop := l.Pairwise fun a b => less b a = false

/-- The elements tied with any one are the same, in the same order. -/
def SameTies {α : Type*} (less : α → α → Bool) (l l' : List α) : Prop :=
  ∀ x, l'.filter (StrictWeak.tied less x) = l.filter (StrictWeak.tied less x)

namespace StrictWeak

universe u

variable {α : Type u} {less : α → α → Bool} {a b c : α} {l l' : List α}

theorem asymm (h : StrictWeak less) (hab : less a b = true) : less b a = false := by
  by_contra hba
  have haa := h.trans a b a hab (by simpa using hba)
  rw [h.irrefl] at haa
  cases haa

@[simp] theorem tied_self (h : StrictWeak less) : tied less a a = true := by
  simp [h.irrefl]

/-- Not being less is transitive. -/
theorem not_less_trans (h : StrictWeak less) (hba : less b a = false) (hcb : less c b = false) :
    less c a = false := by
  by_contra hca
  rw [Bool.not_eq_false] at hca
  have hab : less a b = false := by
    by_contra hc
    have hlt := h.trans c a b hca (by simpa using hc)
    rw [hcb] at hlt
    cases hlt
  have hbc : less b c = false := by
    by_contra hc
    have hlt := h.trans b c a (by simpa using hc) hca
    rw [hba] at hlt
    cases hlt
  have htied := h.tied_trans a b c (tied_iff.mpr ⟨hab, hba⟩) (tied_iff.mpr ⟨hbc, hcb⟩)
  rw [(tied_iff.mp htied).2] at hca
  cases hca

/-- What is less than an element is less than those that are not less than it. -/
theorem less_of_not_less (h : StrictWeak less) (hab : less a b = true) (hcb : less c b = false) :
    less a c = true := by
  by_contra hac
  have hle := h.not_less_trans hcb (by simpa using hac)
  rw [hab] at hle
  cases hle

/-- **The elements have ranks in a linear order**, the lesser element the higher one. -/
theorem exists_key (h : StrictWeak less) :
    ∃ (β : Type u) (_ : LinearOrder β) (key : α → β), ∀ a b, less a b = true ↔ key b < key a := by
  classical
  let _ : Preorder α :=
    { le := fun a b => less a b = false
      le_refl := h.irrefl
      le_trans := fun _ _ _ hab hbc => h.not_less_trans hbc hab }
  have : Std.Total fun a b : α => a ≤ b := ⟨fun a b => by
    by_cases hab : less a b = true
    · exact .inr (h.asymm hab)
    · exact .inl (Bool.eq_false_iff.mpr hab)⟩
  refine ⟨Antisymmetrization α (· ≤ ·), inferInstance, toAntisymmetrization (· ≤ ·), fun a b => ?_⟩
  rw [toAntisymmetrization_lt_toAntisymmetrization_iff, lt_iff_le_not_ge]
  show less a b = true ↔ less b a = false ∧ ¬ less a b = false
  rw [Bool.not_eq_false]
  exact ⟨fun hab => ⟨h.asymm hab, hab⟩, And.right⟩

/-- Comparing keys is such an order. -/
theorem of_key {β : Type*} [LinearOrder β] {key : α → β} (h : ∀ a b, less a b = true ↔ key b < key a) :
    StrictWeak less := by
  have hfalse : ∀ a b, less a b = false ↔ key a ≤ key b := by
    intro a b
    rw [← Bool.not_eq_true, h, not_lt]
  refine ⟨fun a => (hfalse a a).mpr le_rfl, fun a b c hab hbc => ?_, fun a b c hab hbc => ?_⟩
  · rw [h] at hab hbc ⊢
    exact hbc.trans hab
  · rw [tied_iff, hfalse, hfalse] at hab hbc ⊢
    exact ⟨hab.1.trans hbc.1, hbc.2.trans hab.2⟩

end StrictWeak

section

variable {α : Type*} {less : α → α → Bool} {a b : α} {l l' l'' : List α}

open StrictWeak

theorem SameTies.refl (less : α → α → Bool) (l : List α) : SameTies less l l := fun _ => rfl

theorem SameTies.trans (h : SameTies less l l') (h' : SameTies less l' l'') : SameTies less l l'' :=
  fun x => (h' x).trans (h x)

theorem SameTies.symm (h : SameTies less l l') : SameTies less l' l := fun x => (h x).symm

theorem SameTies.append {k k' : List α} (h : SameTies less l l') (h' : SameTies less k k') :
    SameTies less (l ++ k) (l' ++ k') := by
  intro x
  rw [List.filter_append, List.filter_append, h, h']

theorem SameTies.of_cons (h : SameTies less (a :: l) (a :: l')) : SameTies less l l' := by
  intro x
  have hx := h x
  rw [List.filter_cons, List.filter_cons] at hx
  split at hx
  · exact (List.cons.inj hx).2
  · exact hx

/-- An element is found among those tied with it. -/
theorem SameTies.mem (h : StrictWeak less) (ht : SameTies less l l') (ha : a ∈ l) : a ∈ l' := by
  have hin : a ∈ l'.filter (tied less a) := by
    rw [ht]
    exact List.mem_filter.mpr ⟨ha, h.tied_self⟩
  exact (List.mem_filter.mp hin).1

/-- **There is one way to sort a list that keeps its ties in order.** -/
theorem Ascending.eq_of_sameTies (h : StrictWeak less) : ∀ {l l' : List α}, Ascending less l → Ascending less l' →
    SameTies less l l' → l = l'
  | [], [], _, _, _ => rfl
  | [], b :: l', _, _, ht => absurd (ht.symm.mem h List.mem_cons_self) List.not_mem_nil
  | a :: l, [], _, _, ht => absurd (ht.mem h List.mem_cons_self) List.not_mem_nil
  | a :: l, b :: l', hl, hl', ht => by
    obtain ⟨ha, hrest⟩ := List.pairwise_cons.mp hl
    obtain ⟨hb, hrest'⟩ := List.pairwise_cons.mp hl'
    -- the two heads are tied, and each is the first of its ties
    have hba : less b a = false := by
      rcases List.mem_cons.mp (ht.symm.mem h List.mem_cons_self) with rfl | hin
      · exact h.irrefl b
      · exact ha b hin
    have hab : less a b = false := by
      rcases List.mem_cons.mp (ht.mem h List.mem_cons_self) with rfl | hin
      · exact h.irrefl a
      · exact hb a hin
    have hfirst := ht a
    rw [List.filter_cons_of_pos (tied_iff.mpr ⟨hab, hba⟩), List.filter_cons_of_pos h.tied_self] at hfirst
    obtain ⟨rfl, -⟩ := List.cons.inj hfirst
    exact congrArg _ (Ascending.eq_of_sameTies h hrest hrest' ht.of_cons)

end
