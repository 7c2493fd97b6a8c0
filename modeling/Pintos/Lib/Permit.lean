import Mathlib.Logic.Function.Basic

/-!
# One permit, many threads

Mutual exclusion by a counter that starts at one, with a record of who is inside. A thread takes
the permit, signs the record, clears it and gives the permit back; the record is written outside
the atomic steps on the counter.

* `Permit.Inv` — at most one thread has the permit, and the record names a thread inside
* `Permit.Inv.step` — every step keeps it
-/

namespace Permit

open Function

/-- Where a thread is in the protocol. -/
inductive Phase where
  | out
  /-- It has the permit and has not signed. -/
  | taken
  | holding
  /-- It has cleared the record and still has the permit. -/
  | leaving
  deriving DecidableEq, Repr

structure State (T : Type*) where
  phase : T → Phase
  permits : Nat
  holder : Option T

variable {T : Type*}

inductive Step [DecidableEq T] : State T → State T → Prop
  | take {s : State T} {t : T} (hp : s.phase t = .out) (h0 : s.permits ≠ 0) :
      Step s { s with phase := update s.phase t .taken, permits := s.permits - 1 }
  | sign {s : State T} {t : T} (hp : s.phase t = .taken) :
      Step s { s with phase := update s.phase t .holding, holder := some t }
  | clear {s : State T} {t : T} (hp : s.phase t = .holding) :
      Step s { s with phase := update s.phase t .leaving, holder := none }
  | give {s : State T} {t : T} (hp : s.phase t = .leaving) :
      Step s { s with phase := update s.phase t .out, permits := s.permits + 1 }

structure Inv (s : State T) : Prop where
  permits_le : s.permits ≤ 1
  free : s.permits ≠ 0 → ∀ t, s.phase t = .out
  unique : ∀ t u, s.phase t ≠ .out → s.phase u ≠ .out → t = u
  holder : ∀ t, s.holder = some t ↔ s.phase t = .holding

namespace Inv

variable {s s' : State T}

/-- A thread inside leaves no permit. -/
theorem permits_eq_zero (h : Inv s) {t : T} (ht : s.phase t ≠ .out) : s.permits = 0 := by
  by_cases h0 : s.permits = 0
  · exact h0
  · exact absurd (h.free h0 t) ht

theorem out_of_ne (h : Inv s) {t u : T} (ht : s.phase t ≠ .out) (hu : u ≠ t) :
    s.phase u = .out := by
  by_cases ho : s.phase u = .out
  · exact ho
  · exact absurd (h.unique u t ho ht) hu

variable [DecidableEq T]

/-- Moving the one thread inside to another phase keeps it the only one. -/
theorem unique_update {t : T} (ht : ∀ u, u ≠ t → s.phase u = .out) (p : Phase) :
    ∀ u w, update s.phase t p u ≠ .out → update s.phase t p w ≠ .out → u = w := by
  have hself : ∀ u, update s.phase t p u ≠ .out → u = t := by
    intro u hu
    by_contra hut
    rw [update_of_ne hut] at hu
    exact hu (ht u hut)
  intro u w hu hw
  rw [hself u hu, hself w hw]

theorem step (h : Inv s) (hs : Step s s') : Inv s' := by
  cases hs with
  | @take t hp h0 =>
    have hout := h.free h0
    have h1 := h.permits_le
    refine ⟨by simp only; omega, fun hc => absurd (by simp only; omega) hc,
      unique_update (fun u _ => hout u) _, ?_⟩
    intro u
    rw [h.holder u, hout u]
    by_cases hu : u = t
    · subst hu; simp
    · simp [hu, hout u]
  | @sign t hp =>
    have hin : s.phase t ≠ .out := by simp [hp]
    have hout := fun u (hu : u ≠ t) => h.out_of_ne hin hu
    refine ⟨h.permits_le, fun hc => absurd (h.permits_eq_zero hin) hc,
      unique_update hout _, ?_⟩
    intro u
    by_cases hu : u = t
    · subst hu; simp
    · simp [hu, hout u hu, Ne.symm hu]
  | @clear t hp =>
    have hin : s.phase t ≠ .out := by simp [hp]
    have hout := fun u (hu : u ≠ t) => h.out_of_ne hin hu
    refine ⟨h.permits_le, fun hc => absurd (h.permits_eq_zero hin) hc,
      unique_update hout _, ?_⟩
    intro u
    by_cases hu : u = t
    · subst hu; simp
    · simp [hu, hout u hu]
  | @give t hp =>
    have hin : s.phase t ≠ .out := by simp [hp]
    have hout := fun u (hu : u ≠ t) => h.out_of_ne hin hu
    have h0 := h.permits_eq_zero hin
    have hall : ∀ u, update s.phase t .out u = .out := by
      intro u
      by_cases hu : u = t
      · subst hu; simp
      · rw [update_of_ne hu]; exact hout u hu
    refine ⟨by simp only; omega, fun _ => hall, unique_update hout _, ?_⟩
    intro u
    show s.holder = some u ↔ update s.phase t .out u = .holding
    rw [h.holder u, hall u]
    by_cases hu : u = t
    · subst hu; simp [hp]
    · simp [hout u hu]

end Inv

end Permit
