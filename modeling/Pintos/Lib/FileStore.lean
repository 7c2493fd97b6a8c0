import Mathlib.Data.List.TakeDrop
import Mathlib.Logic.Function.Basic

/-!
# Stores of files

A store has files of a fixed size. A file is known by its identity; a name leads to it until it is
removed, and a handle until it is closed. Nothing here is about one program.

* `Step` — what a call does, and what it replies
* `Run` — calls one after another, with their replies
* `Run.plain` — no file has two names
* `Store.Sealed.step` — a file that a handle protects keeps its content, whatever is called
-/

namespace FileStore

open Function

variable {κ ι η β : Type*}

/-- An open file. -/
structure Handle (ι : Type*) where
  id : ι
  pos : Nat
  /-- Nobody may write the file. -/
  deny : Bool
  deriving DecidableEq

structure Store (κ ι η β : Type*) where
  names : κ → Option ι
  /-- The content of every file. That of a file without a name and a handle does not matter. -/
  content : ι → List β
  handles : η → Option (Handle ι)

inductive Call (κ η β : Type*) where
  | create (name : κ) (size : Nat)
  | remove (name : κ)
  | openName (name : κ)
  | reopen (h : η)
  | duplicate (h : η)
  | close (h : η)
  | denyWrite (h : η)
  | allowWrite (h : η)
  | read (h : η) (size : Nat)
  | write (h : η) (bytes : List β)
  | readAt (h : η) (size ofs : Nat)
  | writeAt (h : η) (bytes : List β) (ofs : Nat)
  | seek (h : η) (pos : Nat)
  | tell (h : η)
  | length (h : η)
  /-- All handles are lost. -/
  | restart

inductive Reply (η β : Type*) where
  | done
  | success (ok : Bool)
  | handle (h : Option η)
  | bytes (l : List β)
  | number (n : Nat)

/-- `n` elements from `ofs` on, or as many as there are. -/
def slice (l : List β) (ofs n : Nat) : List β := (l.drop ofs).take n

/-- The elements from `ofs` on are replaced, up to the end. -/
def overwrite (l : List β) (ofs : Nat) (bytes : List β) : List β :=
  l.take ofs ++ bytes.take (l.length - ofs) ++ l.drop (ofs + bytes.length)

theorem length_overwrite (l : List β) (ofs : Nat) (bytes : List β) :
    (overwrite l ofs bytes).length = l.length := by
  simp only [overwrite, List.length_append, List.length_take, List.length_drop]
  omega

namespace Store

/-- The file has a name or a handle. -/
def Live (s : Store κ ι η β) (id : ι) : Prop :=
  (∃ k, s.names k = some id) ∨ ∃ h x, s.handles h = some x ∧ x.id = id

/-- A handle protects the file. -/
def Denied (s : Store κ ι η β) (id : ι) : Prop :=
  ∃ h x, s.handles h = some x ∧ x.id = id ∧ x.deny = true

/-- No names, and no handles. -/
def empty : Store κ ι η β where
  names := fun _ => none
  content := fun _ => []
  handles := fun _ => none

/-- No file has two names. -/
def Plain (s : Store κ ι η β) : Prop :=
  ∀ k k' id, s.names k = some id → s.names k' = some id → k = k'

/-- The elements that a write of `bytes` at `ofs` writes. -/
def fits (s : Store κ ι η β) (id : ι) (ofs : Nat) (bytes : List β) : Nat :=
  min bytes.length ((s.content id).length - ofs)

variable [DecidableEq κ] [DecidableEq ι] [DecidableEq η]

def setName (s : Store κ ι η β) (k : κ) (id : Option ι) : Store κ ι η β :=
  { s with names := update s.names k id }

def setContent (s : Store κ ι η β) (id : ι) (l : List β) : Store κ ι η β :=
  { s with content := update s.content id l }

def setHandle (s : Store κ ι η β) (h : η) (x : Option (Handle ι)) : Store κ ι η β :=
  { s with handles := update s.handles h x }

end Store

variable [DecidableEq κ] [DecidableEq ι] [DecidableEq η]

/-- **What a call does**, and what it replies. A new file is filled with `zero`. A call for a new file or
a new handle may be refused. -/
inductive Step (zero : β) (s : Store κ ι η β) : Call κ η β → Reply η β → Store κ ι η β → Prop
  | created {k : κ} {size : Nat} {i : ι} (hk : s.names k = none) (hi : ¬ s.Live i) :
      Step zero s (.create k size) (.success true)
        ((s.setName k (some i)).setContent i (List.replicate size zero))
  | notCreated {k : κ} {size : Nat} : Step zero s (.create k size) (.success false) s
  | removed {k : κ} {i : ι} (hk : s.names k = some i) :
      Step zero s (.remove k) (.success true) (s.setName k none)
  | notRemoved {k : κ} (hk : s.names k = none) : Step zero s (.remove k) (.success false) s
  | opened {k : κ} {i : ι} {h : η} (hk : s.names k = some i) (hh : s.handles h = none) :
      Step zero s (.openName k) (.handle (some h)) (s.setHandle h (some { id := i, pos := 0, deny := false }))
  | notOpened {k : κ} (hk : s.names k = none) : Step zero s (.openName k) (.handle none) s
  | reopened {h h' : η} {x : Handle ι} (hx : s.handles h = some x) (hh : s.handles h' = none) :
      Step zero s (.reopen h) (.handle (some h')) (s.setHandle h' (some { x with pos := 0, deny := false }))
  | notReopened {h : η} {x : Handle ι} (hx : s.handles h = some x) :
      Step zero s (.reopen h) (.handle none) s
  | duplicated {h h' : η} {x : Handle ι} (hx : s.handles h = some x) (hh : s.handles h' = none) :
      Step zero s (.duplicate h) (.handle (some h')) (s.setHandle h' (some x))
  | notDuplicated {h : η} {x : Handle ι} (hx : s.handles h = some x) :
      Step zero s (.duplicate h) (.handle none) s
  | closed {h : η} {x : Handle ι} (hx : s.handles h = some x) :
      Step zero s (.close h) .done (s.setHandle h none)
  | denied {h : η} {x : Handle ι} (hx : s.handles h = some x) :
      Step zero s (.denyWrite h) .done (s.setHandle h (some { x with deny := true }))
  | allowed {h : η} {x : Handle ι} (hx : s.handles h = some x) :
      Step zero s (.allowWrite h) .done (s.setHandle h (some { x with deny := false }))
  | read {h : η} {x : Handle ι} {size : Nat} (hx : s.handles h = some x) :
      Step zero s (.read h size) (.bytes (slice (s.content x.id) x.pos size))
        (s.setHandle h (some { x with pos := x.pos + (slice (s.content x.id) x.pos size).length }))
  | wrote {h : η} {x : Handle ι} {bytes : List β} (hx : s.handles h = some x) (hd : ¬ s.Denied x.id) :
      Step zero s (.write h bytes) (.number (s.fits x.id x.pos bytes))
        ((s.setContent x.id (overwrite (s.content x.id) x.pos bytes)).setHandle h
          (some { x with pos := x.pos + s.fits x.id x.pos bytes }))
  | notWrote {h : η} {x : Handle ι} {bytes : List β} (hx : s.handles h = some x) (hd : s.Denied x.id) :
      Step zero s (.write h bytes) (.number 0) s
  | readAt {h : η} {x : Handle ι} {size ofs : Nat} (hx : s.handles h = some x) :
      Step zero s (.readAt h size ofs) (.bytes (slice (s.content x.id) ofs size)) s
  | wroteAt {h : η} {x : Handle ι} {bytes : List β} {ofs : Nat} (hx : s.handles h = some x)
      (hd : ¬ s.Denied x.id) :
      Step zero s (.writeAt h bytes ofs) (.number (s.fits x.id ofs bytes))
        (s.setContent x.id (overwrite (s.content x.id) ofs bytes))
  | notWroteAt {h : η} {x : Handle ι} {bytes : List β} {ofs : Nat} (hx : s.handles h = some x)
      (hd : s.Denied x.id) : Step zero s (.writeAt h bytes ofs) (.number 0) s
  | sought {h : η} {x : Handle ι} {pos : Nat} (hx : s.handles h = some x) :
      Step zero s (.seek h pos) .done (s.setHandle h (some { x with pos := pos }))
  | told {h : η} {x : Handle ι} (hx : s.handles h = some x) : Step zero s (.tell h) (.number x.pos) s
  | measured {h : η} {x : Handle ι} (hx : s.handles h = some x) :
      Step zero s (.length h) (.number (s.content x.id).length) s
  | restarted : Step zero s .restart .done { s with handles := fun _ => none }

/-- Calls one after another. -/
inductive Run (zero : β) (s : Store κ ι η β) : List (Call κ η β × Reply η β) → Store κ ι η β → Prop
  | refl : Run zero s [] s
  | snoc {log : List (Call κ η β × Reply η β)} {s' s'' : Store κ ι η β} {c : Call κ η β} {r : Reply η β}
      (h : Run zero s log s') (hstep : Step zero s' c r s'') : Run zero s (log ++ [(c, r)]) s''

variable {zero : β} {s s' s'' : Store κ ι η β} {c : Call κ η β} {r : Reply η β} {h : η} {x : Handle ι}
  {log : List (Call κ η β × Reply η β)}

/-! ## Names -/

theorem Store.Plain.step (hp : s.Plain) (hs : Step zero s c r s') : s'.Plain := by
  cases hs with
  | created hk hid =>
    rename_i k size id
    intro k₁ k₂ id' h₁ h₂
    have hnames : ∀ {k' id'}, update s.names k (some id) k' = some id' → (k' = k ∧ id' = id) ∨
        (k' ≠ k ∧ s.names k' = some id') := by
      intro k' id' hk'
      by_cases hne : k' = k
      · rw [hne, update_self, Option.some.injEq] at hk'
        exact Or.inl ⟨hne, hk'.symm⟩
      · rw [update_of_ne hne] at hk'
        exact Or.inr ⟨hne, hk'⟩
    rcases hnames h₁ with ⟨rfl, rfl⟩ | ⟨-, hold₁⟩ <;> rcases hnames h₂ with ⟨rfl, hid'⟩ | ⟨-, hold₂⟩
    · rfl
    · exact absurd (Or.inl ⟨k₂, hold₂⟩) hid
    · exact absurd (Or.inl ⟨k₁, hid' ▸ hold₁⟩) hid
    · exact hp k₁ k₂ id' hold₁ hold₂
  | removed hk =>
    rename_i k id
    intro k₁ k₂ id' h₁ h₂
    have hnames : ∀ {k'}, update s.names k none k' = some id' → s.names k' = some id' := by
      intro k' hk'
      by_cases hne : k' = k
      · rw [hne, update_self] at hk'
        cases hk'
      · rwa [update_of_ne hne] at hk'
    exact hp k₁ k₂ id' (hnames h₁) (hnames h₂)
  | _ => exact hp

/-- **No file has two names**. -/
theorem Run.plain (hr : Run zero s log s') (hp : s.Plain) : s'.Plain := by
  induction hr with
  | refl => exact hp
  | snoc _ hstep ih => exact ih.step hstep

/-! ## Protected files -/

/-- The call gives up the handle, or its protection. -/
def Call.Unseals (h : η) : Call κ η β → Prop
  | .close h' => h' = h
  | .allowWrite h' => h' = h
  | .restart => True
  | _ => False

instance (h : η) (c : Call κ η β) : Decidable (c.Unseals h) := by
  cases c <;> simp only [Call.Unseals] <;> infer_instance

/-- The handle is that of a file with the content `l`, which it protects. -/
def Store.Sealed (s : Store κ ι η β) (h : η) (id : ι) (l : List β) : Prop :=
  ∃ x, s.handles h = some x ∧ x.id = id ∧ x.deny = true ∧ s.content id = l

omit [DecidableEq κ] [DecidableEq ι] [DecidableEq η] in
theorem Store.Sealed.denied {id : ι} {l : List β} (hs : s.Sealed h id l) : s.Denied id := by
  obtain ⟨x, hx, hid, hdeny, -⟩ := hs
  exact ⟨h, x, hx, hid, hdeny⟩

omit [DecidableEq κ] [DecidableEq ι] in
/-- Another handle changes, or its position. -/
theorem Store.Sealed.setHandle {id : ι} {l : List β} (hs : s.Sealed h id l) {h' : η} {y : Option (Handle ι)}
    (hy : h' = h → ∃ x, y = some x ∧ x.id = id ∧ x.deny = true) : (s.setHandle h' y).Sealed h id l := by
  obtain ⟨x, hx, hid, hdeny, hl⟩ := hs
  by_cases hh : h' = h
  · obtain ⟨z, rfl, hid', hdeny'⟩ := hy hh
    exact ⟨z, by rw [hh]; exact update_self _ _ _, hid', hdeny', hl⟩
  · exact ⟨x, (update_of_ne (Ne.symm hh) _ _).trans hx, hid, hdeny, hl⟩

omit [DecidableEq κ] [DecidableEq η] in
/-- The content of another file changes. -/
theorem Store.Sealed.setContent {id id' : ι} {l l' : List β} (hs : s.Sealed h id l) (hne : id' ≠ id) :
    (s.setContent id' l').Sealed h id l := by
  obtain ⟨x, hx, hid, hdeny, hl⟩ := hs
  exact ⟨x, hx, hid, hdeny, (update_of_ne (Ne.symm hne) _ _).trans hl⟩

/-- **A protected file keeps its content** while its handle is open and protects it. -/
theorem Store.Sealed.step {id : ι} {l : List β} (hs : s.Sealed h id l) (hstep : Step zero s c r s')
    (hc : ¬ c.Unseals h) : s'.Sealed h id l := by
  have hdenied := hs.denied
  have hsealed := hs
  obtain ⟨x, hx, hid, hdeny, hl⟩ := hsealed
  -- what is known of a handle that is changed
  have same : ∀ {h' y}, s.handles h' = some y → h' = h → y.id = id ∧ y.deny = true := by
    rintro h' y hy rfl
    rw [hx, Option.some.injEq] at hy
    subst hy
    exact ⟨hid, hdeny⟩
  have fresh : ∀ {h' : η} {y : Option (Handle ι)}, s.handles h' = none → h' = h →
      ∃ x, y = some x ∧ x.id = id ∧ x.deny = true := by
    rintro h' y hy rfl
    rw [hx] at hy
    cases hy
  cases hstep with
  | created hk hnew =>
    refine Sealed.setContent (s := s.setName _ _) ⟨x, hx, hid, hdeny, hl⟩ ?_
    rintro rfl
    exact hnew (Or.inr ⟨h, x, hx, hid⟩)
  | removed hk => exact ⟨x, hx, hid, hdeny, hl⟩
  | opened hk hh => exact hs.setHandle (fresh hh)
  | reopened hy hh => exact hs.setHandle (fresh hh)
  | duplicated hy hh => exact hs.setHandle (fresh hh)
  | closed hy => exact hs.setHandle fun hh => absurd hh hc
  | denied hy => exact hs.setHandle fun hh => ⟨_, rfl, (same hy hh).1, rfl⟩
  | allowed hy => exact hs.setHandle fun hh => absurd hh hc
  | read hy => exact hs.setHandle fun hh => ⟨_, rfl, (same hy hh).1, (same hy hh).2⟩
  | wrote hy hd =>
    refine (hs.setContent ?_).setHandle fun hh => ⟨_, rfl, (same hy hh).1, (same hy hh).2⟩
    rintro rfl
    exact hd hdenied
  | wroteAt hy hd =>
    refine hs.setContent ?_
    rintro rfl
    exact hd hdenied
  | sought hy => exact hs.setHandle fun hh => ⟨_, rfl, (same hy hh).1, (same hy hh).2⟩
  | restarted => exact absurd trivial hc
  | _ => exact hs

end FileStore
