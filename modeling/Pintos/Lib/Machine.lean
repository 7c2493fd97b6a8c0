import Mathlib.Logic.Function.Basic

/-!
# State machines

A machine is a step function `σ → α → Except ε σ`: an action either yields the next state
or fails. Nothing here is about one program.

* `Reach step C s₀ s` — `s` is reached from `s₀` by steps that all meet the condition `C`
* `Reach.invariant` — a property every such step keeps holds in every state reached
* `exec` — the same as a function, so that a run on a fixed input can be evaluated
-/

namespace Machine

variable {σ α ε : Type*}

/-- `s` is reached from `s₀` by steps whose state and action meet `C`. -/
inductive Reach (step : σ → α → Except ε σ) (C : σ → α → Prop) (s₀ : σ) : σ → Prop
  | refl : Reach step C s₀ s₀
  | tail {s s' : σ} {a : α} (h : Reach step C s₀ s) (hc : C s a) (hs : step s a = .ok s') :
      Reach step C s₀ s'

/-- Every step is allowed. -/
def Always : σ → α → Prop := fun _ _ => True

variable {step : σ → α → Except ε σ} {C C' : σ → α → Prop} {s₀ s s' : σ}

/-- **The invariant rule.** -/
theorem Reach.invariant {I : σ → Prop} (h₀ : I s₀)
    (hstep : ∀ s a s', I s → C s a → step s a = .ok s' → I s') (h : Reach step C s₀ s) : I s := by
  induction h with
  | refl => exact h₀
  | tail _ hc hs ih => exact hstep _ _ _ ih hc hs

theorem Reach.trans {s₁ : σ} (h : Reach step C s₀ s₁) (h' : Reach step C s₁ s) :
    Reach step C s₀ s := by
  induction h' with
  | refl => exact h
  | tail _ hc hs ih => exact .tail ih hc hs

theorem Reach.mono (hC : ∀ s a, C s a → C' s a) (h : Reach step C s₀ s) :
    Reach step C' s₀ s := by
  induction h with
  | refl => exact .refl
  | tail _ hc hs ih => exact .tail ih (hC _ _ hc) hs

/-- An invariant that needs a second one, already known of every state reached. -/
theorem Reach.invariant_of {I J : σ → Prop} (hJ : ∀ s, Reach step C s₀ s → J s) (h₀ : I s₀)
    (hstep : ∀ s a s', J s → I s → C s a → step s a = .ok s' → I s')
    (h : Reach step C s₀ s) : I s := by
  induction h with
  | refl => exact h₀
  | tail h hc hs ih => exact hstep _ _ _ (hJ _ h) ih hc hs

/-- Runs the actions in order. -/
def exec (step : σ → α → Except ε σ) : σ → List α → Except ε σ
  | s, [] => .ok s
  | s, a :: as =>
    match step s a with
    | .ok s' => exec step s' as
    | .error e => .error e

theorem exec_cons {a : α} {as : List α} (h : step s a = .ok s') :
    exec step s (a :: as) = exec step s' as := by
  rw [exec, h]

theorem Reach.exec {as : List α} (h : Reach step C s₀ s) (hC : ∀ s, ∀ a ∈ as, C s a)
    (he : Machine.exec step s as = .ok s') : Reach step C s₀ s' := by
  induction as generalizing s with
  | nil =>
    rw [Machine.exec] at he
    rw [← Except.ok.inj he]
    exact h
  | cons a as ih =>
    rw [Machine.exec] at he
    split at he
    · next t ht =>
      exact ih (.tail h (hC s a List.mem_cons_self) ht)
        (fun u b hb => hC u b (List.mem_cons_of_mem a hb)) he
    · cases he

/-- A run of `exec` reaches its last state. -/
theorem reach_of_exec (as : List α) (he : exec step s₀ as = .ok s) :
    Reach step Always s₀ s :=
  Reach.exec .refl (fun _ _ _ => trivial) he

/-- Runs the actions in order as long as the check `ok` allows them. -/
def execIf (step : σ → α → Except ε σ) (ok : σ → α → Bool) : σ → List α → Option σ
  | s, [] => some s
  | s, a :: as =>
    if ok s a then
      match step s a with
      | .ok s' => execIf step ok s' as
      | .error _ => none
    else none

theorem Reach.execIf {ok : σ → α → Bool} (hok : ∀ s a, ok s a = true → C s a) {as : List α}
    (h : Reach step C s₀ s) (he : Machine.execIf step ok s as = some s') : Reach step C s₀ s' := by
  induction as generalizing s with
  | nil =>
    rw [Machine.execIf] at he
    rw [← Option.some.inj he]
    exact h
  | cons a as ih =>
    rw [Machine.execIf] at he
    split at he
    · next ha =>
      split at he
      · next t ht => exact ih (.tail h (hok s a ha) ht) he
      · cases he
    · cases he

/-- A run of `execIf` reaches its last state by steps that meet the condition. -/
theorem reach_of_execIf {ok : σ → α → Bool} (hok : ∀ s a, ok s a = true → C s a) (as : List α)
    (he : execIf step ok s₀ as = some s) : Reach step C s₀ s :=
  Reach.execIf hok .refl he

/-- A run that is evaluated reaches a state with a property that can be checked. -/
theorem exists_of_execIf {ok : σ → α → Bool} (hok : ∀ s a, ok s a = true → C s a) (as : List α) {check : σ → Bool}
    (h : (execIf step ok s₀ as).any check = true) : ∃ s, Reach step C s₀ s ∧ check s = true := by
  cases he : execIf step ok s₀ as with
  | none =>
    rw [he] at h
    cases h
  | some s =>
    rw [he] at h
    exact ⟨s, reach_of_execIf hok as he, h⟩

/-- A result that is evaluated, and that has a property that can be checked. -/
theorem exists_of_toOption {x : Except ε α} {check : α → Bool} (h : x.toOption.any check = true) :
    ∃ a, x = .ok a ∧ check a = true := by
  cases x with
  | error e => cases h
  | ok a => exact ⟨a, rfl, h⟩

end Machine
