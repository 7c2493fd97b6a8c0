import Mathlib.Logic.Function.Basic
import Mathlib.Data.List.Basic
import Mathlib.Logic.Relation

/-!
# Who waits for whom

Every resource has at most one owner and every thread wants at most one resource. From a resource
the chain runs over the resource its owner wants, the one that one's owner wants, and so on.

* `WaitsFor.chain` — the first `n` resources of the chain
* `WaitsFor.ahead` — the chain as a thread sees it
* `WaitsFor.owners` — the threads on it
* `WaitsFor.Acyclic` — no chain of threads comes back to where it began
-/

namespace WaitsFor

open Function

variable {R T : Type*} {owner : R → Option T} {wants : T → Option R} {n k : Nat} {r r₀ x : R} {t : T}

def chain (owner : R → Option T) (wants : T → Option R) : Nat → R → List R
  | 0, _ => []
  | n + 1, r =>
    r :: match owner r with
      | none => []
      | some t =>
        match wants t with
        | none => []
        | some r' => chain owner wants n r'

/-- The first `n` resources from the one that `t` wants. -/
def ahead (owner : R → Option T) (wants : T → Option R) (n : Nat) (t : T) : List R :=
  match wants t with
  | none => []
  | some r => chain owner wants n r

/-- The owners of the first `n` resources from the one that `t` wants. -/
def owners (owner : R → Option T) (wants : T → Option R) (n : Nat) (t : T) : List T :=
  (ahead owner wants n t).filterMap owner

/-- `t` wants a resource that `u` owns. -/
def Blocks (owner : R → Option T) (wants : T → Option R) (t u : T) : Prop :=
  ∃ r, wants t = some r ∧ owner r = some u

/-- Nobody waits for itself through others. -/
def Acyclic (owner : R → Option T) (wants : T → Option R) : Prop :=
  ∀ t, ¬ Relation.TransGen (Blocks owner wants) t t

theorem ahead_none (h : wants t = none) : ahead owner wants n t = [] := by
  rw [ahead, h]

theorem ahead_some (h : wants t = some r) : ahead owner wants n t = chain owner wants n r := by
  rw [ahead, h]

theorem owners_of_wants_none (h : wants t = none) : owners owner wants n t = [] := by
  rw [owners, ahead_none h]
  rfl

theorem chain_free (h : owner r = none) : chain owner wants (n + 1) r = [r] := by
  rw [chain, h]

theorem chain_owned (h : owner r = some t) :
    chain owner wants (n + 1) r = r :: ahead owner wants n t := by
  rw [chain, h]
  rfl

/-- The owner of the first resource comes first, and those it waits for follow. -/
theorem owners_succ {u : T} (hw : wants t = some r) (ho : owner r = some u) :
    owners owner wants (n + 1) t = u :: owners owner wants n u := by
  rw [owners, ahead_some hw, chain_owned ho, List.filterMap_cons, ho]
  rfl

theorem mem_chain_self : r ∈ chain owner wants (n + 1) r := by
  rw [chain]
  exact List.mem_cons_self

/-- Past its first resource, a chain goes on as its owner's. -/
theorem mem_chain_succ : x ∈ chain owner wants (n + 1) r ↔
    x = r ∨ ∃ t r', owner r = some t ∧ wants t = some r' ∧ x ∈ chain owner wants n r' := by
  cases ho : owner r with
  | none => simp [chain_free ho]
  | some t =>
    rw [chain_owned ho, List.mem_cons]
    cases hw : wants t with
    | none => simp [ahead_none hw, hw]
    | some r' => simp [ahead_some hw, hw]

theorem mem_chain_mono (hnk : n ≤ k) (h : x ∈ chain owner wants n r) :
    x ∈ chain owner wants k r := by
  induction n generalizing r k with
  | zero => cases h
  | succ n ih =>
    obtain ⟨k, rfl⟩ : ∃ j, k = j + 1 := ⟨k - 1, by omega⟩
    rw [mem_chain_succ] at h ⊢
    rcases h with rfl | ⟨t, r', ho, hw, hx⟩
    · exact Or.inl rfl
    · exact Or.inr ⟨t, r', ho, hw, ih (by omega) hx⟩

/-- A change of owner off the chain leaves the chain alone. -/
theorem chain_update_owner [DecidableEq R] {o : Option T} (h : r ∉ chain owner wants n r₀) :
    chain (update owner r o) wants n r₀ = chain owner wants n r₀ := by
  induction n generalizing r₀ with
  | zero => rfl
  | succ n ih =>
    have hne : r₀ ≠ r := by
      rintro rfl
      exact h mem_chain_self
    cases ho : owner r₀ with
    | none => rw [chain_free ho, chain_free (by rw [update_of_ne hne, ho])]
    | some t =>
      rw [chain_owned ho] at h ⊢
      rw [chain_owned (by rw [update_of_ne hne, ho])]
      cases hw : wants t with
      | none => rw [ahead_none hw, ahead_none hw]
      | some r' =>
        rw [ahead_some hw] at h ⊢
        rw [ahead_some hw, ih (fun hc => h (List.mem_cons_of_mem _ hc))]

/-- A resource that loses its owner stays on the chains it was on. -/
theorem mem_chain_update_free [DecidableEq R] (h : r ∈ chain owner wants n r₀) :
    r ∈ chain (update owner r none) wants n r₀ := by
  induction n generalizing r₀ with
  | zero => cases h
  | succ n ih =>
    rw [mem_chain_succ] at h ⊢
    by_cases hr : r = r₀
    · exact Or.inl hr
    · obtain ⟨u, r', ho, hw, hx⟩ := h.resolve_left hr
      exact Or.inr ⟨u, r', by rw [update_of_ne (Ne.symm hr), ho], hw, ih hx⟩

/-- A thread that stops waiting only cuts chains. -/
theorem mem_chain_of_update_none [DecidableEq T]
    (h : x ∈ chain owner (update wants t none) n r₀) : x ∈ chain owner wants n r₀ := by
  induction n generalizing r₀ with
  | zero => cases h
  | succ n ih =>
    rw [mem_chain_succ] at h ⊢
    rcases h with rfl | ⟨u, r', ho, hw, hx⟩
    · exact Or.inl rfl
    · have hut : u ≠ t := by
        rintro rfl
        rw [update_self] at hw
        cases hw
      rw [update_of_ne hut] at hw
      exact Or.inr ⟨u, r', ho, hw, ih hx⟩

/-- A thread that starts to wait for `r` joins the chain from `r` to those it is on. -/
theorem mem_chain_of_update_some [DecidableEq T]
    (h : x ∈ chain owner (update wants t (some r)) n r₀) :
    x ∈ chain owner wants n r₀ ∨ x ∈ chain owner wants n r := by
  induction n generalizing r₀ with
  | zero => cases h
  | succ n ih =>
    rw [mem_chain_succ] at h
    rcases h with rfl | ⟨u, r', ho, hw, hx⟩
    · exact Or.inl mem_chain_self
    · by_cases hut : u = t
      · subst hut
        rw [update_self] at hw
        cases hw
        exact Or.inr (mem_chain_mono n.le_succ ((ih hx).elim id id))
      · rw [update_of_ne hut] at hw
        rcases ih hx with hx | hx
        · exact Or.inl (mem_chain_succ.mpr (Or.inr ⟨u, r', ho, hw, hx⟩))
        · exact Or.inr (mem_chain_mono n.le_succ hx)

/-- A thread that starts to wait keeps what is on a chain. -/
theorem mem_chain_update_some [DecidableEq T] (ht : wants t = none)
    (h : x ∈ chain owner wants n r₀) : x ∈ chain owner (update wants t (some r)) n r₀ := by
  induction n generalizing r₀ with
  | zero => cases h
  | succ n ih =>
    rw [mem_chain_succ] at h ⊢
    rcases h with rfl | ⟨u, r', ho, hw, hx⟩
    · exact Or.inl rfl
    · have hut : u ≠ t := by
        rintro rfl
        rw [ht] at hw
        cases hw
      exact Or.inr ⟨u, r', ho, by rw [update_of_ne hut, hw], ih hx⟩

end WaitsFor
