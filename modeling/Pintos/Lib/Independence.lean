import Mathlib.Data.List.Basic
import Mathlib.Logic.Function.Basic

/-!
# Runs without the steps of others

A machine whose steps return something. Where the steps of others change nothing that one's own steps
depend on, one's own steps return the same when the others take none. Nothing here is about one program.

* `outputs` — the actions in order, and what each of them returns
* `Independent` — own steps agree in related states, and other steps keep states related
* `Independent.run` — the run without the steps of others
-/

namespace Machine

variable {σ α ω ε : Type*}

/-- Runs the actions in order. -/
def outputs (step : σ → α → Except ε (ω × σ)) : σ → List α → Except ε (List (α × ω) × σ)
  | s, [] => .ok ([], s)
  | s, a :: as =>
    match step s a with
    | .error e => .error e
    | .ok (o, s) =>
      match outputs step s as with
      | .error e => .error e
      | .ok (os, s) => .ok ((a, o) :: os, s)

/-- Of the actions that meet `C`, the own ones do the same in related states, and the others keep the left
one related. -/
structure Independent (step : σ → α → Except ε (ω × σ)) (C : α → Prop) (own : α → Bool) (R : σ → σ → Prop) : Prop where
  agrees : ∀ s u a o s', C a → own a = true → R s u → step s a = .ok (o, s') →
    ∃ u', step u a = .ok (o, u') ∧ R s' u'
  unseen : ∀ s u a o s', C a → own a = false → R s u → step s a = .ok (o, s') → R s' u

variable {step : σ → α → Except ε (ω × σ)} {C : α → Prop} {own : α → Bool} {R : σ → σ → Prop} {s s' u : σ} {as : List α}
  {os : List (α × ω)}

theorem outputs_cons {a : α} (h : outputs step s (a :: as) = .ok (os, s')) :
    ∃ o s₁ os', step s a = .ok (o, s₁) ∧ outputs step s₁ as = .ok (os', s') ∧ os = (a, o) :: os' := by
  rw [outputs] at h
  split at h
  · cases h
  · next o s₁ hs =>
    split at h
    · cases h
    · next os' s₂ hrest =>
      cases h
      exact ⟨o, s₁, os', hs, hrest, rfl⟩

/-- **A run without the steps of others returns the same.** -/
theorem Independent.run (h : Independent step C own R) (hR : R s u) (hC : ∀ a ∈ as, C a)
    (hr : outputs step s as = .ok (os, s')) :
    ∃ u', outputs step u (as.filter own) = .ok (os.filter fun o => own o.1, u') ∧ R s' u' := by
  induction as generalizing s u os with
  | nil =>
    cases hr
    exact ⟨u, rfl, hR⟩
  | cons a as ih =>
    obtain ⟨o, s₁, os', hs, hrest, rfl⟩ := outputs_cons hr
    have hCa := hC a List.mem_cons_self
    have hCs : ∀ b ∈ as, C b := fun b hb => hC b (List.mem_cons_of_mem a hb)
    cases ha : own a with
    | true =>
      obtain ⟨u₁, hu, hR₁⟩ := h.agrees s u a o s₁ hCa ha hR hs
      obtain ⟨u', hu', hR'⟩ := ih hR₁ hCs hrest
      refine ⟨u', ?_, hR'⟩
      rw [List.filter_cons_of_pos ha, outputs, hu]
      dsimp only
      rw [hu', List.filter_cons_of_pos (by exact ha)]
    | false =>
      obtain ⟨u', hu', hR'⟩ := ih (h.unseen s u a o s₁ hCa ha hR hs) hCs hrest
      refine ⟨u', ?_, hR'⟩
      have hneg : ¬ own a = true := by simp [ha]
      rw [List.filter_cons_of_neg hneg, hu', List.filter_cons_of_neg (by exact hneg)]

end Machine
