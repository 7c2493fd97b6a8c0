import Mathlib.Logic.Basic

/-!
# Programs that take steps on a shared state

A program is a tree of actions. An action changes the state, or fails, and the rest of the program
depends on what it returns. Nothing here is about one program.

* `run` — a program that runs alone
* `run_bind`, `run_bind_ok` — the rules for a sequence
* `of_run_bind`, `of_run_read`, `of_run_write` — what a run that ended well did
* `zoom`, `run_zoom` — a program on a part of the state
* `Does`, `Does.run`, `Does.error` — what every action of a program does, and then a run
* `Keeps.passes` — a property that every action keeps holds wherever the program is left
* `wp`, `wp_bind`, `Does.wp` — what holds wherever a program that starts in a state is left
* `leave`, `leave_bind`, `Ends`, `ends_bind` — where a program ends, also when it fails
-/

universe u

/-- A program over states `σ` that fails with an `ε` or returns an `α`. -/
inductive Prog (ε σ : Type) (α : Type) : Type 1
  | ret (a : α)
  | act {β : Type} (f : σ → Except ε (β × σ)) (k : β → Prog ε σ α)

namespace Prog

variable {ε σ α β γ : Type}

def bind : Prog ε σ α → (α → Prog ε σ β) → Prog ε σ β
  | ret a, g => g a
  | act f k, g => act f fun b => (k b).bind g

instance : Monad (Prog ε σ) where
  pure := ret
  bind := bind

/-- One action. -/
def lift (f : σ → Except ε (α × σ)) : Prog ε σ α := act f ret

/-- One action that reads the state. -/
def read (f : σ → Except ε α) : Prog ε σ α :=
  lift fun s =>
    match f s with
    | .error e => .error e
    | .ok a => .ok (a, s)

/-- One action that changes the state. -/
def write (f : σ → Except ε σ) : Prog ε σ Unit :=
  lift fun s =>
    match f s with
    | .error e => .error e
    | .ok s => .ok ((), s)

def fail (e : ε) : Prog ε σ α := lift fun _ => .error e

/-- The program alone. -/
def run : Prog ε σ α → σ → Except ε (α × σ)
  | ret a, s => .ok (a, s)
  | act f k, s =>
    match f s with
    | .error e => .error e
    | .ok (b, s) => (k b).run s

/-- A program on a part of the state. -/
def zoom {τ δ : Type} (get : τ → σ) (set : τ → σ → τ) (fault : ε → δ) : Prog ε σ α → Prog δ τ α
  | ret a => ret a
  | act f k =>
    act (fun t =>
      match f (get t) with
      | .error e => .error (fault e)
      | .ok (b, s) => .ok (b, set t s)) fun b => (k b).zoom get set fault

variable {p : Prog ε σ α} {f : α → Prog ε σ β} {s s' : σ} {a : α} {b : β}

@[simp] theorem run_pure (a : α) (s : σ) : (pure a : Prog ε σ α).run s = .ok (a, s) := rfl

@[simp] theorem run_lift (f : σ → Except ε (α × σ)) (s : σ) : (lift f).run s = f s := by
  rw [lift, run]
  split
  · next e he => exact he.symm
  · next he => exact he.symm

theorem run_read {g : σ → Except ε α} (h : g s = .ok a) : (read g).run s = .ok (a, s) := by
  rw [read, run_lift, h]

theorem run_write {g : σ → Except ε σ} (h : g s = .ok s') : (write g).run s = .ok ((), s') := by
  rw [write, run_lift, h]

theorem run_read_ok (g : σ → α) (s : σ) : (read fun s => .ok (g s) : Prog ε σ α).run s = .ok (g s, s) :=
  run_read rfl

theorem run_write_ok (g : σ → σ) (s : σ) : (write fun s => .ok (g s) : Prog ε σ Unit).run s = .ok ((), g s) :=
  run_write rfl

theorem bind_assoc : ∀ (p : Prog ε σ α) (f : α → Prog ε σ β) (g : β → Prog ε σ γ),
    (p >>= f) >>= g = p >>= fun a => f a >>= g
  | ret _, _, _ => rfl
  | act h k, f, g => congrArg (act h) (funext fun b => bind_assoc (k b) f g)

theorem run_bind (p : Prog ε σ α) (f : α → Prog ε σ β) (s : σ) :
    (p >>= f).run s = (match p.run s with
      | .error e => .error e
      | .ok (a, s) => (f a).run s) := by
  show (p.bind f).run s = _
  induction p generalizing s with
  | ret a => rfl
  | act g k ih =>
    rw [bind, run, run]
    cases g s with
    | error e => rfl
    | ok r => exact ih r.1 r.2

/-- A sequence whose first part is known. -/
theorem run_bind_ok (h : p.run s = .ok (a, s')) : (p >>= f).run s = (f a).run s' := by
  rw [run_bind, h]

/-- What the first part of a sequence did. -/
theorem of_run_bind {r : β × σ} (h : (p >>= f).run s = .ok r) :
    ∃ a s', p.run s = .ok (a, s') ∧ (f a).run s' = .ok r := by
  rw [run_bind] at h
  split at h
  · cases h
  · next a s' hp => exact ⟨a, s', hp, h⟩

theorem of_run_read {g : σ → Except ε α} (h : (read g).run s = .ok (a, s')) : g s = .ok a ∧ s = s' := by
  rw [read, run_lift] at h
  split at h
  · cases h
  · next b hg =>
    cases h
    exact ⟨hg, rfl⟩

theorem of_run_write {g : σ → Except ε σ} {u : Unit} (h : (write g).run s = .ok (u, s')) : g s = .ok s' := by
  rw [write, run_lift] at h
  split at h
  · cases h
  · next hg =>
    cases h
    exact hg

theorem run_fail (e : ε) (s : σ) : (fail e : Prog ε σ α).run s = .error e := by rw [fail, run_lift]

/-- A program on a part of the state leaves the rest. -/
theorem run_zoom {τ δ : Type} (get : τ → σ) (set : τ → σ → τ) (fault : ε → δ)
    (hget : ∀ t s, get (set t s) = s) (hset : ∀ t s s', set (set t s) s' = set t s')
    (hself : ∀ t, set t (get t) = t) (p : Prog ε σ α) (t : τ) :
    (p.zoom get set fault).run t = (match p.run (get t) with
      | .error e => .error (fault e)
      | .ok (a, s) => .ok (a, set t s)) := by
  induction p generalizing t with
  | ret a =>
    rw [zoom, run, run]
    simp only [hself]
  | act f k ih =>
    rw [zoom, run, run]
    cases hf : f (get t) with
    | error e => rfl
    | ok r =>
      obtain ⟨b, s⟩ := r
      simp only
      rw [ih, hget]
      cases (k b).run s with
      | error e => rfl
      | ok r => simp only [hset]

/-! ## What every action does -/

/-- Every action of the program changes the state as `R` allows, or fails with one of `E`. -/
inductive Does (R : σ → σ → Prop) (E : ε → Prop) : {α : Type} → Prog ε σ α → Prop
  | ret {α : Type} (a : α) : Does R E (ret a)
  | act {α β : Type} {f : σ → Except ε (β × σ)} {k : β → Prog ε σ α}
      (hf : ∀ s b s', f s = .ok (b, s') → R s s') (he : ∀ s e, f s = .error e → E e)
      (hk : ∀ b, Does R E (k b)) : Does R E (act f k)

/-- Every action of the program keeps `I`. -/
abbrev Keeps (I : σ → Prop) (p : Prog ε σ α) : Prop := p.Does (fun s s' => I s → I s') fun _ => True

/-- The state `s'` is reached while the program runs from `s`. -/
inductive Passes : {α : Type} → Prog ε σ α → σ → σ → Prop
  | here {α : Type} (p : Prog ε σ α) (s : σ) : Passes p s s
  | act {α β : Type} {f : σ → Except ε (β × σ)} {k : β → Prog ε σ α} {s s₁ s' : σ} {b : β}
      (hf : f s = .ok (b, s₁)) (h : Passes (k b) s₁ s') : Passes (act f k) s s'

namespace Does

variable {R R' : σ → σ → Prop} {E E' : ε → Prop}

theorem mono (hR : ∀ s s', R s s' → R' s s') (hE : ∀ e, E e → E' e) (h : p.Does R E) : p.Does R' E' := by
  induction h with
  | ret a => exact .ret a
  | act hf he _ ih => exact .act (fun s b s' hs => hR _ _ (hf s b s' hs)) (fun s e hs => hE e (he s e hs)) ih

theorem weaken (hE : ∀ e, E e → E' e) (h : p.Does R E) : p.Does R E' := h.mono (fun _ _ hR => hR) hE

theorem any (h : p.Does R E) : p.Does R fun _ => True := h.weaken fun _ _ => trivial

theorem lift {f : σ → Except ε (α × σ)} (hf : ∀ s a s', f s = .ok (a, s') → R s s')
    (he : ∀ s e, f s = .error e → E e) : (lift f).Does R E :=
  .act hf he .ret

theorem read (hR : ∀ s, R s s) {f : σ → Except ε α} (he : ∀ s e, f s = .error e → E e) :
    (read f).Does R E := by
  refine .lift (fun s a s' h => ?_) (fun s e h => ?_)
  · split at h
    · cases h
    · cases h
      exact hR s
  · split at h
    · next hs =>
      cases h
      exact he s _ hs
    · cases h

theorem write {f : σ → Except ε σ} (hf : ∀ s s', f s = .ok s' → R s s') (he : ∀ s e, f s = .error e → E e) :
    (write f).Does R E := by
  refine .lift (fun s a s' h => ?_) (fun s e h => ?_)
  · split at h
    · cases h
    · next hs =>
      cases h
      exact hf _ _ hs
  · split at h
    · next hs =>
      cases h
      exact he s _ hs
    · cases h

theorem fail {e : ε} (he : E e) : (fail e : Prog ε σ α).Does R E := by
  refine .lift (fun s a s' h => ?_) (fun s e' h => ?_)
  · cases h
  · cases h
    exact he

theorem pure (a : α) : (pure a : Prog ε σ α).Does R E := .ret a

theorem bind (hp : p.Does R E) (hf : ∀ a, (f a).Does R E) : (p >>= f).Does R E := by
  show (p.bind f).Does R E
  induction hp with
  | ret a => exact hf a
  | act hg he _ ih => exact .act hg he fun b => ih b

/-- A state that is passed is reached by such changes. -/
theorem passes (hp : p.Does R E) (hrefl : ∀ s, R s s) (htrans : ∀ s s₁ s', R s s₁ → R s₁ s' → R s s')
    (h : p.Passes s s') : R s s' := by
  induction h with
  | here p s => exact hrefl s
  | act hb _ ih =>
    cases hp with
    | act hf _ hk => exact htrans _ _ _ (hf _ _ _ hb) (ih (hk _))

/-- A program on a part of the state. -/
theorem zoom {τ δ : Type} {get : τ → σ} {set : τ → σ → τ} {fault : ε → δ} {S : τ → τ → Prop} {D : δ → Prop}
    (hS : ∀ t s, R (get t) s → S t (set t s)) (hD : ∀ e, E e → D (fault e)) (hp : p.Does R E) :
    (p.zoom get set fault).Does S D := by
  induction hp with
  | ret a => exact .ret a
  | act hf he _ ih =>
    refine .act (fun t b t' hg => ?_) (fun t e hg => ?_) ih
    · split at hg
      · cases hg
      · next hb =>
        cases hg
        exact hS _ _ (hf _ _ _ hb)
    · split at hg
      · next hb =>
        cases hg
        exact hD _ (he _ _ hb)
      · cases hg

end Does

/-- The last state is passed. -/
theorem passes_of_run (h : p.run s = .ok (a, s')) : p.Passes s s' := by
  induction p generalizing s with
  | ret b =>
    cases h
    exact .here _ _
  | act f k ih =>
    rw [run] at h
    split at h
    · cases h
    · next b s₁ hb => exact .act hb (ih b h)

theorem passes_bind_left (h : p.Passes s s') : (p >>= f).Passes s s' := by
  show (p.bind f).Passes s s'
  induction h with
  | here p s => exact .here _ _
  | act hf _ ih => exact .act hf ih

theorem passes_bind_right {s₁ : σ} (hp : p.run s = .ok (a, s₁)) (h : (f a).Passes s₁ s') :
    (p >>= f).Passes s s' := by
  show (p.bind f).Passes s s'
  induction p generalizing s with
  | ret b =>
    cases hp
    exact h
  | act g k ih =>
    rw [run] at hp
    split at hp
    · cases hp
    · next b s₂ hb => exact .act hb (ih b hp)

/-- What a run changes. -/
theorem Does.run {R : σ → σ → Prop} {E : ε → Prop} (hp : p.Does R E) (hrefl : ∀ s, R s s)
    (htrans : ∀ s s₁ s', R s s₁ → R s₁ s' → R s s') (h : p.run s = .ok (a, s')) : R s s' :=
  hp.passes hrefl htrans (passes_of_run h)

/-- A property that every action keeps holds in every state that is passed. -/
theorem Keeps.passes {I : σ → Prop} (hp : p.Keeps I) (hs : I s) (h : p.Passes s s') : I s' :=
  Does.passes hp (fun _ h => h) (fun _ _ _ h h' hs => h' (h hs)) h hs

theorem Keeps.run {I : σ → Prop} (hp : p.Keeps I) (hs : I s) (h : p.run s = .ok (a, s')) : I s' :=
  hp.passes hs (passes_of_run h)

/-! ## Weakest preconditions -/

/-- From the state, `I` holds wherever the program is left, it fails with one of `E` only, and `Q` holds of
what it returns. -/
def wp (I : σ → Prop) (E : ε → Prop) (Q : α → σ → Prop) : Prog ε σ α → σ → Prop
  | ret a, s => I s ∧ Q a s
  | act f k, s => I s ∧ (∀ e, f s = .error e → E e) ∧ ∀ b s', f s = .ok (b, s') → (k b).wp I E Q s'

section

variable {I I' : σ → Prop} {E E' : ε → Prop} {Q Q' : α → σ → Prop}

theorem wp_act {f : σ → Except ε (γ × σ)} {k : γ → Prog ε σ α} :
    (act f k).wp I E Q s ↔
      I s ∧ (∀ e, f s = .error e → E e) ∧ ∀ b s', f s = .ok (b, s') → (k b).wp I E Q s' := by
  rw [wp]

theorem wp_here (h : p.wp I E Q s) : I s := by
  cases p with
  | ret a => exact h.1
  | act f k => exact (wp_act.mp h).1

theorem wp_pure {a : α} (hI : I s) (hQ : Q a s) : (pure a : Prog ε σ α).wp I E Q s := ⟨hI, hQ⟩

theorem wp_lift {f : σ → Except ε (α × σ)} (hI : I s) (he : ∀ e, f s = .error e → E e)
    (hf : ∀ a s', f s = .ok (a, s') → I s' ∧ Q a s') : (lift f).wp I E Q s :=
  wp_act.mpr ⟨hI, he, hf⟩

theorem wp_read {g : σ → Except ε α} (hI : I s) (he : ∀ e, g s = .error e → E e)
    (hg : ∀ a, g s = .ok a → Q a s) : (read g).wp I E Q s := by
  refine wp_lift hI (fun e h => ?_) (fun a s' h => ?_)
  · split at h
    · next hs =>
      cases h
      exact he _ hs
    · cases h
  · split at h
    · cases h
    · next hs =>
      cases h
      exact ⟨hI, hg _ hs⟩

theorem wp_write {g : σ → Except ε σ} {Q : Unit → σ → Prop} (hI : I s) (he : ∀ e, g s = .error e → E e)
    (hg : ∀ s', g s = .ok s' → I s' ∧ Q () s') : (write g).wp I E Q s := by
  refine wp_lift hI (fun e h => ?_) (fun a s' h => ?_)
  · split at h
    · next hs =>
      cases h
      exact he _ hs
    · cases h
  · split at h
    · cases h
    · next hs =>
      cases h
      exact hg _ hs

theorem wp_fail {e : ε} (hI : I s) (he : E e) : (fail e : Prog ε σ α).wp I E Q s := by
  refine wp_lift hI (fun e' h => ?_) nofun
  cases h
  exact he

theorem wp_bind {Q : β → σ → Prop} (h : p.wp I E (fun a s' => (f a).wp I E Q s') s) :
    (p >>= f).wp I E Q s := by
  show (p.bind f).wp I E Q s
  induction p generalizing s with
  | ret a => exact h.2
  | act g k ih =>
    obtain ⟨hI, he, hk⟩ := wp_act.mp h
    exact wp_act.mpr ⟨hI, he, fun b s' hb => ih b (hk b s' hb)⟩

theorem wp_ite {c : Prop} [Decidable c] {q : Prog ε σ α} (h : c → p.wp I E Q s) (h' : ¬ c → q.wp I E Q s) :
    (if c then p else q).wp I E Q s := by
  split
  · next hc => exact h hc
  · next hc => exact h' hc

theorem wp_mono (hI : ∀ s, I s → I' s) (hE : ∀ e, E e → E' e) (hQ : ∀ a s, Q a s → Q' a s)
    (h : p.wp I E Q s) : p.wp I' E' Q' s := by
  induction p generalizing s with
  | ret a => exact ⟨hI _ h.1, hQ _ _ h.2⟩
  | act g k ih =>
    obtain ⟨hs, he, hk⟩ := wp_act.mp h
    exact wp_act.mpr ⟨hI _ hs, fun e h => hE e (he e h), fun b s' hb => ih b (hk b s' hb)⟩

/-- What holds wherever the program is left holds where it returns. -/
theorem wp_keep (h : p.wp I E Q s) : p.wp I E (fun a s => I s ∧ Q a s) s := by
  induction p generalizing s with
  | ret a => exact ⟨h.1, h⟩
  | act g k ih =>
    obtain ⟨hI, he, hk⟩ := wp_act.mp h
    exact wp_act.mpr ⟨hI, he, fun b s' hb => ih b (hk b s' hb)⟩

theorem wp_passes (h : p.wp I E Q s) (hp : p.Passes s s') : I s' := by
  induction hp with
  | here p s => exact wp_here h
  | act hf _ ih => exact ih ((wp_act.mp h).2.2 _ _ hf)

theorem wp_run (h : p.wp I E Q s) (hr : p.run s = .ok (a, s')) : Q a s' := by
  induction p generalizing s with
  | ret b =>
    cases hr
    exact h.2
  | act g k ih =>
    rw [run] at hr
    split at hr
    · cases hr
    · next b s₁ he => exact ih b ((wp_act.mp h).2.2 _ _ he) hr

theorem wp_error {e : ε} (h : p.wp I E Q s) (hr : p.run s = .error e) : E e := by
  induction p generalizing s with
  | ret b => cases hr
  | act g k ih =>
    rw [run] at hr
    split at hr
    · next he =>
      cases hr
      exact (wp_act.mp h).2.1 _ he
    · next b s₁ he => exact ih b ((wp_act.mp h).2.2 _ _ he) hr

/-- What every action does holds wherever the program is left. -/
theorem Does.wp {R : σ → σ → Prop} {s₀ : σ} (hp : p.Does R E) (htrans : ∀ s s₁ s', R s s₁ → R s₁ s' → R s s')
    (h : R s₀ s) : p.wp (R s₀) E (fun _ => R s₀) s := by
  induction hp generalizing s with
  | ret a => exact ⟨h, h⟩
  | act hf he _ ih =>
    exact wp_act.mpr ⟨h, fun e => he _ e, fun b s' hb => ih b (htrans _ _ _ h (hf _ _ _ hb))⟩

/-- A program on a part of the state. -/
theorem wp_zoom {τ δ : Type} {get : τ → σ} {set : τ → σ → τ} {fault : ε → δ} {J : τ → Prop} {D : δ → Prop}
    {P : α → τ → Prop} (hget : ∀ t s, I s → get (set t s) = s) (hJ : ∀ t s, J t → I s → J (set t s))
    (hD : ∀ e, E e → D (fault e)) (hP : ∀ a t, J t → Q a (get t) → P a t) {t : τ} (ht : J t)
    (h : p.wp I E Q (get t)) : (p.zoom get set fault).wp J D P t := by
  induction p generalizing t with
  | ret a => exact ⟨ht, hP a t ht h.2⟩
  | act g k ih =>
    obtain ⟨hI, he, hk⟩ := wp_act.mp h
    refine wp_act.mpr ⟨ht, fun e hg => ?_, fun b t' hg => ?_⟩
    · split at hg
      · next hs =>
        cases hg
        exact hD _ (he _ hs)
      · cases hg
    · split at hg
      · cases hg
      · next s' hs =>
        cases hg
        have hk' := hk _ _ hs
        have hs' := wp_here hk'
        refine ih b (hJ _ _ ht hs') ?_
        rwa [hget _ _ hs']

/-- A run on a part of the state, wherever what is put back is there again. -/
theorem run_zoom_ok {τ δ : Type} (get : τ → σ) (set : τ → σ → τ) (fault : ε → δ)
    (hget : ∀ t s, I s → get (set t s) = s) (hset : ∀ t s s', set (set t s) s' = set t s')
    (hself : ∀ t, set t (get t) = t) {t : τ} (h : p.wp I E Q (get t)) (hr : p.run (get t) = .ok (a, s')) :
    (p.zoom get set fault).run t = .ok (a, set t s') := by
  induction p generalizing t with
  | ret b =>
    cases hr
    rw [zoom, run, hself]
  | act g k ih =>
    rw [run] at hr
    split at hr
    · cases hr
    · next b s₁ hb =>
      have hk := (wp_act.mp h).2.2 _ _ hb
      have hs₁ := hget t s₁ (wp_here hk)
      rw [zoom, run, hb]
      dsimp only
      rw [ih b (by rwa [hs₁]) (by rwa [hs₁]), hset]

theorem passes_zoom {τ δ : Type} (get : τ → σ) (set : τ → σ → τ) (fault : ε → δ)
    (hget : ∀ t s, I s → get (set t s) = s) (hset : ∀ t s s', set (set t s) s' = set t s')
    (hself : ∀ t, set t (get t) = t) {t : τ} (h : p.wp I E Q (get t)) (hp : p.Passes (get t) s') :
    (p.zoom get set fault).Passes t (set t s') := by
  generalize hs : get t = s at h hp
  induction hp generalizing t with
  | here p s =>
    rw [← hs, hself]
    exact .here _ _
  | @act _ _ _ _ s₁ _ b hf _ ih =>
    have hk := (wp_act.mp h).2.2 _ _ hf
    have hs₁ := hget t s₁ (wp_here hk)
    have hrest := ih hs₁ hk
    rw [hset] at hrest
    refine .act ?_ hrest
    rw [hs, hf]

/-- A first part that is known by what every action does. -/
theorem Does.wp_bind {R : σ → σ → Prop} {s₀ : σ} {Q : β → σ → Prop} (hp : p.Does R E)
    (htrans : ∀ s s₁ s', R s s₁ → R s₁ s' → R s s') (h : R s₀ s) (hE : ∀ e, E e → E' e)
    (hf : ∀ a s', R s₀ s' → (f a).wp (R s₀) E' Q s') : (p >>= f).wp (R s₀) E' Q s :=
  Prog.wp_bind (wp_mono (fun _ h => h) hE hf (hp.wp htrans h))

end

/-! ## Where a program ends -/

/-- The program alone, with the state in which it fails. -/
def leave : Prog ε σ α → σ → Except ε α × σ
  | ret a, s => (.ok a, s)
  | act f k, s =>
    match f s with
    | .error e => (.error e, s)
    | .ok (b, s) => (k b).leave s

/-- From the state the program ends where `P` holds, if it fails, or where `Q` does. -/
def Ends (P : ε → σ → Prop) (Q : α → σ → Prop) : Prog ε σ α → σ → Prop
  | ret a, s => Q a s
  | act f k, s => (∀ e, f s = .error e → P e s) ∧ ∀ b s', f s = .ok (b, s') → (k b).Ends P Q s'

section

variable {P P' : ε → σ → Prop} {Q Q' : α → σ → Prop} {I : σ → Prop} {E : ε → Prop}

theorem leave_eq_ok : p.leave s = (.ok a, s') ↔ p.run s = .ok (a, s') := by
  induction p generalizing s with
  | ret b => simp [leave, run]
  | act g k ih =>
    rw [leave, run]
    cases g s with
    | error e => simp
    | ok r => exact ih r.1

theorem leave_bind (p : Prog ε σ α) (f : α → Prog ε σ β) (s : σ) :
    (p >>= f).leave s = (match p.leave s with
      | (.error e, s) => (.error e, s)
      | (.ok a, s) => (f a).leave s) := by
  show (p.bind f).leave s = _
  induction p generalizing s with
  | ret a => rfl
  | act g k ih =>
    rw [bind, leave, leave]
    cases g s with
    | error e => rfl
    | ok r => exact ih r.1 r.2

/-- A sequence whose first part is known. -/
theorem leave_bind_ok (h : p.run s = .ok (a, s')) : (p >>= f).leave s = (f a).leave s' := by
  rw [leave_bind, leave_eq_ok.mpr h]

theorem ends_act {f : σ → Except ε (γ × σ)} {k : γ → Prog ε σ α} :
    (act f k).Ends P Q s ↔
      (∀ e, f s = .error e → P e s) ∧ ∀ b s', f s = .ok (b, s') → (k b).Ends P Q s' := by
  rw [Ends]

theorem ends_leave (h : p.Ends P Q s) :
    (∀ a s', p.leave s = (.ok a, s') → Q a s') ∧ ∀ e s', p.leave s = (.error e, s') → P e s' := by
  induction p generalizing s with
  | ret b =>
    refine ⟨fun a s' hr => ?_, nofun⟩
    cases hr
    exact h
  | act f k ih =>
    obtain ⟨he, hk⟩ := ends_act.mp h
    rw [leave]
    split
    · next e hf =>
      refine ⟨nofun, fun e' s' hr => ?_⟩
      cases hr
      exact he e hf
    · next b s₁ hf => exact ih b (hk b s₁ hf)

theorem ends_pure {a : α} (h : Q a s) : (pure a : Prog ε σ α).Ends P Q s := h

theorem ends_lift {f : σ → Except ε (α × σ)} (he : ∀ e, f s = .error e → P e s)
    (hf : ∀ a s', f s = .ok (a, s') → Q a s') : (lift f).Ends P Q s :=
  ends_act.mpr ⟨he, hf⟩

theorem ends_read {g : σ → Except ε α} (he : ∀ e, g s = .error e → P e s) (hg : ∀ a, g s = .ok a → Q a s) :
    (read g).Ends P Q s := by
  refine ends_lift (fun e h => ?_) (fun a s' h => ?_)
  · split at h
    · next hs =>
      cases h
      exact he _ hs
    · cases h
  · split at h
    · cases h
    · next hs =>
      cases h
      exact hg _ hs

theorem ends_write {g : σ → Except ε σ} {Q : Unit → σ → Prop} (he : ∀ e, g s = .error e → P e s)
    (hg : ∀ s', g s = .ok s' → Q () s') : (write g).Ends P Q s := by
  refine ends_lift (fun e h => ?_) (fun a s' h => ?_)
  · split at h
    · next hs =>
      cases h
      exact he _ hs
    · cases h
  · split at h
    · cases h
    · next hs =>
      cases h
      exact hg _ hs

theorem ends_bind {Q : β → σ → Prop} (h : p.Ends P (fun a s' => (f a).Ends P Q s') s) : (p >>= f).Ends P Q s := by
  show (p.bind f).Ends P Q s
  induction p generalizing s with
  | ret a => exact h
  | act g k ih =>
    obtain ⟨he, hk⟩ := ends_act.mp h
    exact ends_act.mpr ⟨he, fun b s' hb => ih b (hk b s' hb)⟩

theorem ends_mono (hP : ∀ e s, P e s → P' e s) (hQ : ∀ a s, Q a s → Q' a s) (h : p.Ends P Q s) :
    p.Ends P' Q' s := by
  induction p generalizing s with
  | ret a => exact hQ _ _ h
  | act g k ih =>
    obtain ⟨he, hk⟩ := ends_act.mp h
    exact ends_act.mpr ⟨fun e h => hP e _ (he e h), fun b s' hb => ih b (hk b s' hb)⟩

theorem ends_of_leave (hQ : ∀ a s', p.leave s = (.ok a, s') → Q a s')
    (hP : ∀ e s', p.leave s = (.error e, s') → P e s') : p.Ends P Q s := by
  induction p generalizing s with
  | ret b => exact hQ b s rfl
  | act g k ih =>
    refine ends_act.mpr ⟨fun e he => hP e s ?_, fun b s₁ hb => ?_⟩
    · rw [leave, he]
    · have hleave : (act g k).leave s = (k b).leave s₁ := by rw [leave, hb]
      rw [hleave] at hQ hP
      exact ih b hQ hP

/-- Programs that end alike. -/
theorem ends_congr {q : Prog ε σ α} {s₁ : σ} (h : p.leave s = q.leave s₁) (hq : q.Ends P Q s₁) : p.Ends P Q s := by
  obtain ⟨hok, herr⟩ := ends_leave hq
  rw [← h] at hok herr
  exact ends_of_leave hok herr

/-- A program whose run is known. -/
theorem ends_of_run (h : p.run s = .ok (a, s')) (hQ : Q a s') : p.Ends P Q s :=
  ends_congr (q := .ret a) (leave_eq_ok.mpr h) hQ

/-- Where it returns the program can be run. -/
theorem ends_run (h : p.Ends P Q s) : p.Ends P (fun a s' => p.run s = .ok (a, s') ∧ Q a s') s := by
  induction p generalizing s with
  | ret a => exact ⟨rfl, h⟩
  | act g k ih =>
    obtain ⟨he, hk⟩ := ends_act.mp h
    refine ends_act.mpr ⟨he, fun b s₁ hb => ?_⟩
    have hrun : ∀ r, (k b).run s₁ = r → (act g k).run s = r := by
      rintro r rfl
      rw [run, hb]
    exact ends_mono (fun _ _ h => h) (fun a s' h => ⟨hrun _ h.1, h.2⟩) (ih b (hk b s₁ hb))

/-- A program that cannot fail returns. -/
theorem ends_total (h : p.Ends (fun _ _ => False) Q s) : ∃ a s', p.run s = .ok (a, s') ∧ Q a s' := by
  induction p generalizing s with
  | ret a => exact ⟨a, s, rfl, h⟩
  | act g k ih =>
    obtain ⟨he, hk⟩ := ends_act.mp h
    cases hg : g s with
    | error e => exact (he e hg).elim
    | ok r =>
      obtain ⟨a, s', hr, hq⟩ := ih r.1 (hk r.1 r.2 hg)
      refine ⟨a, s', ?_, hq⟩
      rw [run, hg]
      exact hr

/-- How a run that ends can fail. -/
theorem ends_error {e : ε} (h : p.Ends P Q s) (hr : p.run s = .error e) : ∃ s', P e s' := by
  induction p generalizing s with
  | ret a => cases hr
  | act g k ih =>
    obtain ⟨he, hk⟩ := ends_act.mp h
    rw [run] at hr
    split at hr
    · next hg =>
      cases hr
      exact ⟨s, he _ hg⟩
    · next b s₁ hg => exact ih b (hk b s₁ hg) hr

/-- What holds wherever the program is left holds where it ends. -/
theorem wp_ends (h : p.wp I E Q s) : p.Ends (fun e s' => E e ∧ I s') (fun a s' => I s' ∧ Q a s') s := by
  induction p generalizing s with
  | ret a => exact h
  | act g k ih =>
    obtain ⟨hI, he, hk⟩ := wp_act.mp h
    exact ends_act.mpr ⟨fun e h => ⟨he e h, hI⟩, fun b s' hb => ih b (hk b s' hb)⟩

/-- What every action does. -/
theorem Does.ends {R : σ → σ → Prop} {s₀ : σ} (hp : p.Does R E) (htrans : ∀ s s₁ s', R s s₁ → R s₁ s' → R s s')
    (h : R s₀ s) (hP : ∀ e s', R s₀ s' → P e s') (hQ : ∀ a s', R s₀ s' → Q a s') : p.Ends P Q s :=
  ends_mono (fun e s' he => hP e s' he.2) (fun a s' hq => hQ a s' hq.1) (wp_ends (hp.wp htrans h))

/-- A program on a part of the state, by its runs. -/
theorem ends_zoom {τ δ : Type} {get : τ → σ} {set : τ → σ → τ} {fault : ε → δ} {P : δ → τ → Prop}
    {Q : α → τ → Prop} (hget : ∀ t s, get (set t s) = s) (hset : ∀ t s s', set (set t s) s' = set t s')
    (hself : ∀ t, set t (get t) = t) {t : τ} (he : ∀ e t', P (fault e) t')
    (hr : ∀ a s', p.run (get t) = .ok (a, s') → Q a (set t s')) : (p.zoom get set fault).Ends P Q t := by
  induction p generalizing t with
  | ret a =>
    have hq := hr a (get t) rfl
    rw [hself] at hq
    exact hq
  | act f k ih =>
    refine ends_act.mpr ⟨fun e hg => ?_, fun b t' hg => ?_⟩
    · split at hg
      · cases hg
        exact he _ _
      · cases hg
    · split at hg
      · cases hg
      · next s' hs =>
        cases hg
        refine ih b fun a s₁ hrun => ?_
        rw [hget] at hrun
        rw [hset]
        refine hr a s₁ ?_
        rw [run, hs]
        exact hrun

end

end Prog
