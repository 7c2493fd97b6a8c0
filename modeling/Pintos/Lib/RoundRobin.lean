import Mathlib.Data.List.Nodup
import Mathlib.Data.List.Perm.Basic

/-!
# Queues with ranks

A queue from which the first one is taken, where a new one goes behind those of its rank. Nothing here is about one
program.

* `Event` — a log of what enters the queue and what is taken
* `Step` — what may happen to the queue with each event
* `Fair` — the log keeps the order among those of one rank
* `Fair.first`, `Fair.again` — who was there first is taken first, and nobody twice before another
-/

namespace RoundRobin

variable {α β : Type*}

/-- What happens to `t`, with those of its rank that are in the queue then. -/
inductive Event (α : Type*) where
  | enters (t : α) (equals : List α)
  | runs (t : α) (equals : List α)
  /-- The name is given to another one. -/
  | created (t : α)
  deriving DecidableEq, Repr

/-- Those in a queue that have the rank of `t`. -/
def equals [DecidableEq β] (rank : α → β) (t : α) (l : List α) : List α := l.filter fun u => rank u = rank t

@[simp] theorem mem_equals [DecidableEq β] {rank : α → β} {t u : α} {l : List α} :
    u ∈ equals rank t l ↔ u ∈ l ∧ rank u = rank t := by
  simp [equals]

/-- A new one comes behind those of its rank; the first one is taken, or any other if there is none. -/
inductive Step [DecidableEq β] (rank : α → β) : List α → Event α → List α → Prop
  | enter {l l' : List α} {t : α} (hnew : t ∉ l) (hperm : l'.Perm (t :: l)) (hsub : l.Sublist l')
      (hbehind : ∀ u ∈ l, rank u = rank t → [u, t].Sublist l') : Step rank l (.enters t (equals rank t l)) l'
  | run {t : α} {l : List α} : Step rank (t :: l) (.runs t (equals rank t l)) l
  | idle {t : α} : Step rank [] (.runs t []) []

/-- `a` entered or was taken when `b` was there, with the same rank, and this has happened since. -/
structure Owed (rank : α → β) (l : List α) (a b : α) (since : List (Event α)) : Prop where
  turn : ∀ m₁ r m₂, since = m₁ ++ .runs a r :: m₂ → .created a ∉ m₁ → ∃ r', .runs b r' ∈ m₁
  ahead : .created a ∉ since → (∀ r, .runs a r ∉ since) →
    (∃ r', .runs b r' ∈ since) ∨ b ∈ l ∧ rank b = rank a ∧ (a ∈ l → [b, a].Sublist l)

/-- `a` entered, and this has happened since. -/
structure Waits (l : List α) (a : α) (since : List (Event α)) : Prop where
  stays : ∀ m n, since = m ++ n → (∀ r, .runs a r ∉ m) → .created a ∉ m
  waits : (∀ r, .runs a r ∉ since) → a ∈ l

structure Fair (rank : α → β) (l : List α) (log : List (Event α)) : Prop where
  nodup : l.Nodup
  entered : ∀ l₁ a r l₂, log = l₁ ++ .enters a r :: l₂ → Waits l a l₂ ∧ ∀ b ∈ r, Owed rank l a b l₂
  taken : ∀ l₁ a r l₂, log = l₁ ++ .runs a r :: l₂ → ∀ b ∈ r, Owed rank l a b l₂

section

variable {rank rank' : α → β} {l l' : List α} {a b t : α} {e x : Event α} {log since l₁ l₂ m₁ m₂ : List (Event α)}

/-- An event of a log that has grown is the new one, or it was there. -/
theorem split_concat (h : log ++ [e] = l₁ ++ x :: l₂) :
    log = l₁ ∧ e = x ∧ l₂ = [] ∨ ∃ l₂', l₂ = l₂' ++ [e] ∧ log = l₁ ++ x :: l₂' := by
  rcases List.eq_nil_or_concat' l₂ with rfl | ⟨l₂', y, rfl⟩
  · obtain ⟨hlog, he⟩ := List.append_inj' h rfl
    exact .inl ⟨hlog, (List.cons.inj he).1, rfl⟩
  · have hsplit : log ++ [e] = (l₁ ++ x :: l₂') ++ [y] := by
      rw [h]
      simp
    obtain ⟨hlog, he⟩ := List.append_inj' hsplit rfl
    rw [(List.cons.inj he).1]
    exact .inr ⟨l₂', rfl, hlog⟩

theorem Owed.nil (hb : b ∈ l) (hr : rank b = rank a) (ha : a ∈ l → [b, a].Sublist l) : Owed rank l a b [] where
  turn m₁ r m₂ h := by
    rcases m₁ with _ | ⟨y, m₁⟩ <;> cases h
  ahead _ _ := .inr ⟨hb, hr, ha⟩

/-- An event that does not take `a` leaves its turn. -/
theorem Owed.concat (h : Owed rank l a b since) (he : ∀ r, e ≠ .runs a r)
    (ha : .created a ∉ since ++ [e] → (∀ r, .runs a r ∉ since) → b ∈ l ∧ rank b = rank a ∧ (a ∈ l → [b, a].Sublist l) →
      (∃ r', .runs b r' ∈ since ++ [e]) ∨ b ∈ l' ∧ rank' b = rank' a ∧ (a ∈ l' → [b, a].Sublist l')) :
    Owed rank' l' a b (since ++ [e]) where
  turn m₁ r m₂ hs hc := by
    rcases split_concat hs with ⟨-, hx, -⟩ | ⟨m₂', -, hold⟩
    · exact absurd hx (he r)
    · exact h.turn m₁ r m₂' hold hc
  ahead hc hr := by
    have hc' : Event.created a ∉ since := fun hmem => hc (List.mem_append_left _ hmem)
    have hr' : ∀ r, Event.runs a r ∉ since := fun r hmem => hr r (List.mem_append_left _ hmem)
    rcases h.ahead hc' hr' with ⟨r', hmem⟩ | hahead
    · exact .inl ⟨r', List.mem_append_left _ hmem⟩
    · exact ha hc hr' hahead

/-- `a` is taken, and `b` was before it. -/
theorem Owed.run {r : List α} (h : Owed rank l a b since) (hfirst : b ∈ l → (a ∈ l → [b, a].Sublist l) → False) :
    Owed rank l' a b (since ++ [.runs a r]) where
  turn m₁ r' m₂ hs hc := by
    rcases split_concat hs with ⟨hlog, -, -⟩ | ⟨m₂', -, hold⟩
    · subst hlog
      by_cases hr : ∃ r, Event.runs a r ∈ since
      · obtain ⟨r'', hmem⟩ := hr
        obtain ⟨n₁, n₂, hn⟩ := List.append_of_mem hmem
        have hc' : Event.created a ∉ n₁ := fun hmem => hc (by rw [hn]; exact List.mem_append_left _ hmem)
        obtain ⟨r₀, hb⟩ := h.turn n₁ r'' n₂ hn hc'
        exact ⟨r₀, by rw [hn]; exact List.mem_append_left _ hb⟩
      · rcases h.ahead hc fun r hmem => hr ⟨r, hmem⟩ with hb | ⟨hb, -, ha⟩
        · exact hb
        · exact (hfirst hb ha).elim
    · exact h.turn m₁ r' m₂' hold hc
  ahead _ hr := absurd (List.mem_append_right _ (List.mem_singleton_self _)) (hr r)

theorem Waits.nil (ha : a ∈ l) : Waits l a [] where
  stays m n h _ := by
    rw [(List.append_eq_nil_iff.mp h.symm).1]
    exact List.not_mem_nil
  waits _ := ha

theorem Waits.concat (h : Waits l a since) (hc : a ∈ l → e ≠ .created a) (ha : a ∈ l → (∀ r, e ≠ .runs a r) → a ∈ l') :
    Waits l' a (since ++ [e]) where
  stays m n hs hr := by
    rcases List.eq_nil_or_concat' n with rfl | ⟨n', y, rfl⟩
    · rw [List.append_nil] at hs
      subst hs
      have hr' : ∀ r, Event.runs a r ∉ since := fun r hmem => hr r (List.mem_append_left _ hmem)
      intro hmem
      rcases List.mem_append.mp hmem with hmem | hmem
      · exact h.stays since [] (List.append_nil _).symm hr' hmem
      · exact hc (h.waits hr') (List.mem_singleton.mp hmem).symm
    · rw [← List.append_assoc] at hs
      exact h.stays m n' (List.append_inj' hs rfl).1 hr
  waits hr := by
    have hr' : ∀ r, Event.runs a r ∉ since := fun r hmem => hr r (List.mem_append_left _ hmem)
    exact ha (h.waits hr') fun r he => hr r (by rw [he]; exact List.mem_append_right _ (List.mem_singleton_self _))

/-! ## The three events -/

theorem Owed.enter (h : Owed rank l a b since) (hsub : l.Sublist l') (hperm : l'.Perm (t :: l))
    (hbehind : ∀ u ∈ l, rank u = rank t → [u, t].Sublist l') (r : List α) :
    Owed rank l' a b (since ++ [.enters t r]) := by
  refine h.concat (fun r' => nofun) fun _ _ ⟨hb, hr, ha⟩ => .inr ⟨hsub.subset hb, hr, fun hin => ?_⟩
  rcases List.mem_cons.mp (hperm.mem_iff.mp hin) with rfl | hin
  · exact hbehind b hb hr
  · exact (ha hin).trans hsub

/-- The first one is behind nobody. -/
theorem not_sublist_cons (hnd : (a :: l).Nodup) (h : [b, a].Sublist (a :: l)) : False := by
  have hnot : a ∉ l := (List.nodup_cons.mp hnd).1
  cases h with
  | cons _ h => exact hnot (h.subset (by simp))
  | cons_cons _ h => exact hnot (h.subset (by simp))

theorem Owed.take (h : Owed rank (t :: l) a b since) (hnd : (t :: l).Nodup) (r : List α) :
    Owed rank l a b (since ++ [.runs t r]) := by
  by_cases hat : a = t
  · subst hat
    exact h.run fun _ ha => not_sublist_cons hnd (ha List.mem_cons_self)
  · refine h.concat (fun r' he => hat (Event.runs.inj he).1.symm) fun _ _ ⟨hb, hr, ha⟩ => ?_
    by_cases hbt : b = t
    · subst hbt
      exact .inl ⟨r, List.mem_append_right _ (List.mem_singleton_self _)⟩
    · refine .inr ⟨(List.mem_cons.mp hb).resolve_left hbt, hr, fun hin => ?_⟩
      cases ha (List.mem_cons_of_mem t hin) with
      | cons _ hs => exact hs
      | cons_cons => exact absurd rfl hbt

/-- **Every event of the queue keeps the order.** -/
theorem Fair.step [DecidableEq β] (h : Fair rank l log) (hs : Step rank l e l') : Fair rank l' (log ++ [e]) := by
  cases hs with
  | @enter l l' t hnew hperm hsub hbehind =>
    have ht : t ∈ l' := hperm.mem_iff.mpr List.mem_cons_self
    have hwaits : ∀ a since, Waits l a since → Waits l' a (since ++ [.enters t (equals rank t l)]) :=
      fun a since hw => hw.concat (fun _ => nofun) fun ha _ => hsub.subset ha
    refine ⟨hperm.nodup_iff.mpr (List.nodup_cons.mpr ⟨hnew, h.nodup⟩), fun l₁ a r l₂ hlog => ?_,
      fun l₁ a r l₂ hlog b hb => ?_⟩
    · rcases split_concat hlog with ⟨-, he, rfl⟩ | ⟨l₂', rfl, hold⟩
      · cases he
        refine ⟨.nil ht, fun b hb => ?_⟩
        obtain ⟨hb, hr⟩ := mem_equals.mp hb
        exact .nil (hsub.subset hb) hr fun _ => hbehind b hb hr
      · obtain ⟨hw, ho⟩ := h.entered l₁ a r l₂' hold
        exact ⟨hwaits a l₂' hw, fun b hb => (ho b hb).enter hsub hperm hbehind _⟩
    · rcases split_concat hlog with ⟨-, he, -⟩ | ⟨l₂', rfl, hold⟩
      · cases he
      · exact (h.taken l₁ a r l₂' hold b hb).enter hsub hperm hbehind _
  | @run t l =>
    have hnd := h.nodup
    refine ⟨(List.nodup_cons.mp hnd).2, fun l₁ a r l₂ hlog => ?_, fun l₁ a r l₂ hlog b hb => ?_⟩
    · rcases split_concat hlog with ⟨-, he, -⟩ | ⟨l₂', rfl, hold⟩
      · cases he
      · obtain ⟨hw, ho⟩ := h.entered l₁ a r l₂' hold
        refine ⟨hw.concat (fun _ => nofun) fun ha hr => ?_, fun b hb => (ho b hb).take hnd _⟩
        rcases List.mem_cons.mp ha with rfl | ha
        · exact absurd rfl (hr _)
        · exact ha
    · rcases split_concat hlog with ⟨-, he, rfl⟩ | ⟨l₂', rfl, hold⟩
      · cases he
        obtain ⟨hb, hr⟩ := mem_equals.mp hb
        exact .nil hb hr fun ha => absurd ha (List.nodup_cons.mp hnd).1
      · exact (h.taken l₁ a r l₂' hold b hb).take hnd _
  | @idle t =>
    have howed : ∀ a b since, Owed rank [] a b since → Owed rank [] a b (since ++ [.runs t []]) := by
      intro a b since ho
      by_cases hat : a = t
      · subst hat
        exact ho.run fun hb _ => List.not_mem_nil hb
      · exact ho.concat (fun r' he => hat (Event.runs.inj he).1.symm) fun _ _ hb => absurd hb.1 List.not_mem_nil
    refine ⟨h.nodup, fun l₁ a r l₂ hlog => ?_, fun l₁ a r l₂ hlog b hb => ?_⟩
    · rcases split_concat hlog with ⟨-, he, -⟩ | ⟨l₂', rfl, hold⟩
      · cases he
      · obtain ⟨hw, ho⟩ := h.entered l₁ a r l₂' hold
        exact ⟨hw.concat (fun _ => nofun) fun ha _ => ha, fun b hb => howed a b l₂' (ho b hb)⟩
    · rcases split_concat hlog with ⟨-, he, -⟩ | ⟨l₂', rfl, hold⟩
      · cases he
        exact absurd hb List.not_mem_nil
      · exact howed a b l₂' (h.taken l₁ a r l₂' hold b hb)

/-- A name that is not in the queue is given to another one, with a rank of its own. -/
theorem Fair.create (h : Fair rank l log) (ht : t ∉ l) (hrank : ∀ u, u ≠ t → rank' u = rank u) :
    Fair rank' l (log ++ [.created t]) := by
  have howed : ∀ a b since, Owed rank l a b since → Owed rank' l a b (since ++ [.created t]) := by
    refine fun a b since ho => ho.concat (fun r => nofun) fun hc _ ⟨hb, hr, ha⟩ => .inr ⟨hb, ?_, ha⟩
    have hat : a ≠ t := by
      rintro rfl
      exact hc (List.mem_append_right _ (List.mem_singleton_self _))
    have hbt : b ≠ t := by
      rintro rfl
      exact ht hb
    rw [hrank a hat, hrank b hbt, hr]
  refine ⟨h.nodup, fun l₁ a r l₂ hlog => ?_, fun l₁ a r l₂ hlog b hb => ?_⟩
  · rcases split_concat hlog with ⟨-, he, -⟩ | ⟨l₂', rfl, hold⟩
    · cases he
    · obtain ⟨hw, ho⟩ := h.entered l₁ a r l₂' hold
      refine ⟨hw.concat (fun ha he => ?_) fun ha _ => ha, fun b hb => howed a b l₂' (ho b hb)⟩
      cases he
      exact ht ha
  · rcases split_concat hlog with ⟨-, he, -⟩ | ⟨l₂', rfl, hold⟩
    · cases he
    · exact howed a b l₂' (h.taken l₁ a r l₂' hold b hb)

/-- The start of a log. -/
theorem Fair.init (rank : α → β) (a : α) : Fair rank [a] [.enters a []] where
  nodup := List.nodup_singleton a
  entered l₁ a' r l₂ hlog := by
    rcases l₁ with _ | ⟨x, l₁⟩
    · cases hlog
      exact ⟨.nil List.mem_cons_self, fun b hb => absurd hb List.not_mem_nil⟩
    · have hnil := (List.cons.inj hlog).2
      rcases l₁ with _ | ⟨y, l₁⟩ <;> cases hnil
  taken l₁ a' r l₂ hlog := by
    rcases l₁ with _ | ⟨x, l₁⟩
    · cases hlog
    · have hnil := (List.cons.inj hlog).2
      rcases l₁ with _ | ⟨y, l₁⟩ <;> cases hnil

/-! ## What the log says -/

/-- The first time that `a` is taken. -/
theorem exists_first_run {r : List α} : ∀ {m : List (Event α)}, .runs a r ∈ m →
    ∃ p, (∃ s n, m = p ++ .runs a s :: n) ∧ ∀ s, .runs a s ∉ p
  | [], hs => absurd hs List.not_mem_nil
  | y :: m, hs => by
    by_cases hy : ∃ s, y = .runs a s
    · obtain ⟨s, rfl⟩ := hy
      exact ⟨[], ⟨s, m, rfl⟩, fun _ => List.not_mem_nil⟩
    · have hin : Event.runs a r ∈ m := (List.mem_cons.mp hs).resolve_left fun he => hy ⟨r, he.symm⟩
      obtain ⟨p, ⟨s, n, hn⟩, hp⟩ := exists_first_run hin
      refine ⟨y :: p, ⟨s, n, by rw [hn]; rfl⟩, fun s' hmem => ?_⟩
      rcases List.mem_cons.mp hmem with he | hmem
      · exact hy ⟨s', he.symm⟩
      · exact hp s' hmem

/-- **Who was in the queue when `a` entered, with its rank, is taken before it.** -/
theorem Fair.first {r r' : List α} (h : Fair rank l log) (hlog : log = l₁ ++ .enters a r :: (m₁ ++ .runs a r' :: m₂))
    (hb : b ∈ r) : ∃ r'', .runs b r'' ∈ m₁ := by
  obtain ⟨hw, ho⟩ := h.entered l₁ a r _ hlog
  by_cases hr : ∃ r, Event.runs a r ∈ m₁
  · obtain ⟨s, hs⟩ := hr
    obtain ⟨p, ⟨s', n, rfl⟩, hmin⟩ := exists_first_run hs
    have hc := hw.stays p _ (List.append_assoc p _ _) hmin
    obtain ⟨r'', hmem⟩ := (ho b hb).turn p s' _ (List.append_assoc p _ _) hc
    exact ⟨r'', List.mem_append_left _ hmem⟩
  · have hc := hw.stays m₁ _ rfl fun s hs => hr ⟨s, hs⟩
    exact (ho b hb).turn m₁ r' m₂ rfl hc

/-- **Nobody is taken twice while another one of its rank stays in the queue.** -/
theorem Fair.again {r r' : List α} (h : Fair rank l log) (hlog : log = l₁ ++ .runs a r :: (m₁ ++ .runs a r' :: m₂))
    (hc : .created a ∉ m₁) (hb : b ∈ r) : ∃ r'', .runs b r'' ∈ m₁ :=
  (h.taken l₁ a r _ hlog b hb).turn m₁ r' m₂ rfl hc

end

end RoundRobin
