import Mathlib.Data.List.Chain
import Mathlib.Data.List.Infix
import Mathlib.Data.List.Nodup

/-!
# Doubly linked lists

Nodes with a link to the one before and one to the one behind. Nothing here is about one program.

* `Chained` — the nodes of a sequence are linked in its order
* `Chained.insertRange`, `Chained.removeRange` — what the two changes of a list do to its sequence
* `Chained.reverse` — the links in the other direction
-/

namespace LinkedList

structure Links (α : Type*) where
  prev : α → α
  next : α → α

variable {α : Type*}

/-- Each node is linked to the next one, and the next one back. -/
def Chained (L : Links α) (l : List α) : Prop := l.IsChain fun a b => L.next a = b ∧ L.prev b = a

variable {L L' : Links α} {l l₁ l₂ X : List α} {p n a z : α}

theorem chained_append_cons_cons :
    Chained L (l₁ ++ p :: n :: l₂) ↔
      Chained L (l₁ ++ [p]) ∧ (L.next p = n ∧ L.prev n = p) ∧ Chained L (n :: l₂) :=
  List.isChain_append_cons_cons

/-- The link back of the first node does not matter. -/
theorem Chained.congr (h : Chained L l) (hn : ∀ a ∈ l, L'.next a = L.next a)
    (hp : ∀ a ∈ l.tail, L'.prev a = L.prev a) : Chained L' l := by
  refine List.IsChain.imp_of_mem_tail_imp (fun a b ha hb hab => ?_) h
  exact ⟨(hn a ha).trans hab.1, (hp b hb).trans hab.2⟩

/-- Neither does the link forward of the last one. -/
theorem Chained.congr_ends (h : Chained L l) (hn : ∀ a ∈ l.dropLast, L'.next a = L.next a)
    (hp : ∀ a ∈ l.tail, L'.prev a = L.prev a) : Chained L' l := by
  induction l with
  | nil => exact .nil
  | cons a l ih =>
    cases l with
    | nil => exact .singleton a
    | cons b l =>
      obtain ⟨hab, hrest⟩ := List.isChain_cons_cons.mp h
      have hrest' : Chained L' (b :: l) := by
        refine ih hrest (fun x hx => hn x ?_) fun x hx => hp x (List.mem_cons_of_mem b hx)
        exact List.mem_cons_of_mem a hx
      have ha : L'.next a = b := (hn a (by simp)).trans hab.1
      have hb : L'.prev b = a := (hp b (by simp)).trans hab.2
      exact List.isChain_cons_cons.mpr ⟨⟨ha, hb⟩, hrest'⟩

/-- The nodes around a range are different from all others. -/
theorem nodup_range (h : (l₁ ++ p :: (X ++ n :: l₂)).Nodup) :
    (p ∉ l₁ ∧ p ∉ X ∧ p ∉ l₂) ∧ (n ∉ l₁ ∧ n ∉ X ∧ n ∉ l₂) ∧ p ≠ n := by
  obtain ⟨-, hright, hleft⟩ := List.nodup_append.mp h
  obtain ⟨hp, hX⟩ := List.nodup_cons.mp hright
  obtain ⟨-, hn, hXn⟩ := List.nodup_append.mp hX
  have hp' : p ∉ X ∧ p ≠ n ∧ p ∉ l₂ := by simpa [not_or] using hp
  refine ⟨⟨?_, hp'.1, hp'.2.2⟩, ⟨?_, ?_, (List.nodup_cons.mp hn).1⟩, hp'.2.1⟩
  · exact fun hc => hleft p hc p (by simp) rfl
  · exact fun hc => hleft n hc n (by simp) rfl
  · exact fun hc => hXn n hc n (by simp) rfl

/-- The nodes around a gap are different from those away from it. -/
theorem nodup_gap (h : (l₁ ++ p :: n :: l₂).Nodup) :
    p ∉ l₁ ∧ n ∉ l₁ ∧ p ≠ n ∧ p ∉ l₂ ∧ n ∉ l₂ := by
  obtain ⟨⟨hp₁, -, hp₂⟩, ⟨hn₁, -, hn₂⟩, hpn⟩ := nodup_range (X := []) h
  exact ⟨hp₁, hn₁, hpn, hp₂, hn₂⟩

theorem chained_append (l l' : List α) :
    Chained L (l ++ l') ↔
      Chained L l ∧ Chained L l' ∧ ∀ a ∈ l.getLast?, ∀ b ∈ l'.head?, L.next a = b ∧ L.prev b = a :=
  List.isChain_append

/-- A sequence with a range in it, by its three parts. -/
theorem chained_range :
    Chained L (l₁ ++ p :: (X ++ n :: l₂)) ↔
      Chained L (l₁ ++ [p]) ∧ Chained L X ∧ Chained L (n :: l₂) ∧
        (∀ a ∈ (X ++ [n]).head?, L.next p = a ∧ L.prev a = p) ∧
        ∀ a ∈ X.getLast?, L.next a = n ∧ L.prev n = a := by
  have hassoc : l₁ ++ p :: (X ++ n :: l₂) = (l₁ ++ [p]) ++ (X ++ n :: l₂) := by simp
  have hhead : (X ++ n :: l₂).head? = (X ++ [n]).head? := by cases X <;> rfl
  rw [hassoc, chained_append (l₁ ++ [p]), chained_append X, hhead]
  simp only [List.getLast?_concat, Option.mem_some_iff, List.head?_cons, forall_eq']
  tauto

/-- The ends of a range occur in it once. -/
theorem nodup_ends (h : X.Nodup) (hfirst : X.head? = some a) (hlast : X.getLast? = some z) :
    a ∉ X.tail ∧ z ∉ X.dropLast := by
  constructor
  · obtain ⟨t, rfl⟩ := List.head?_eq_some_iff.mp hfirst
    exact (List.nodup_cons.mp h).1
  · obtain ⟨t, rfl⟩ := List.getLast?_eq_some_iff.mp hlast
    rw [List.dropLast_concat]
    exact fun hc => (List.nodup_append.mp h).2.2 z hc z (by simp) rfl

/-- **A range comes between two neighbours.** -/
theorem Chained.insertRange (h : Chained L (l₁ ++ p :: n :: l₂)) (hX : Chained L X)
    (hl : (l₁ ++ p :: (X ++ n :: l₂)).Nodup) (hfirst : X.head? = some a) (hlast : X.getLast? = some z)
    (hpa : L'.next p = a ∧ L'.prev a = p) (hzn : L'.next z = n ∧ L'.prev n = z)
    (hn : ∀ x ∈ l₁ ++ p :: (X ++ n :: l₂), x ≠ p → x ≠ z → L'.next x = L.next x)
    (hp : ∀ x ∈ l₁ ++ p :: (X ++ n :: l₂), x ≠ n → x ≠ a → L'.prev x = L.prev x) :
    Chained L' (l₁ ++ p :: (X ++ n :: l₂)) := by
  obtain ⟨⟨hp₁, hpX, hp₂⟩, ⟨hn₁, hnX, hn₂⟩, hpn⟩ := nodup_range hl
  obtain ⟨hleft, -, hright⟩ := chained_append_cons_cons.mp h
  have haX : a ∈ X := List.mem_of_mem_head? hfirst
  have hzX : z ∈ X := List.mem_of_mem_getLast? hlast
  have hout : ∀ x, x ∈ l₁ ∨ x ∈ l₂ → x ∉ X := by
    have hperm : (l₁ ++ p :: (X ++ n :: l₂)).Perm (X ++ (l₁ ++ p :: n :: l₂)) := by
      have hmid : ((l₁ ++ [p]) ++ (X ++ n :: l₂)).Perm (X ++ ((l₁ ++ [p]) ++ n :: l₂)) := List.perm_append_comm_assoc _ _ _
      simpa using hmid
    obtain ⟨-, -, hd⟩ := List.nodup_append.mp (hperm.nodup_iff.mp hl)
    intro x hx hxX
    refine hd x hxX x ?_ rfl
    rcases hx with hx | hx <;> simp [hx]
  have hXnodup : X.Nodup := by
    have hsub : X.Sublist (l₁ ++ p :: (X ++ n :: l₂)) :=
      ((List.sublist_append_left X (n :: l₂)).trans (List.sublist_cons_self p _)).trans (List.sublist_append_right l₁ _)
    exact hl.sublist hsub
  obtain ⟨haX', hzX'⟩ := nodup_ends hXnodup hfirst hlast
  have hhead : (X ++ [n]).head? = some a := by rw [List.head?_append, hfirst, Option.some_or]
  refine chained_range.mpr ⟨?_, ?_, ?_, ?_, ?_⟩
  · refine hleft.congr_ends (fun x hx => ?_) fun x hx => ?_
    · rw [List.dropLast_concat] at hx
      exact hn x (by simp [hx]) (fun hc => hp₁ (hc ▸ hx)) fun hc => hout x (.inl hx) (hc ▸ hzX)
    · have hx : x ∈ l₁ ∨ x = p := by simpa using List.mem_of_mem_tail hx
      rcases hx with hx | rfl
      · exact hp x (by simp [hx]) (fun hc => hn₁ (hc ▸ hx)) fun hc => hout x (.inl hx) (hc ▸ haX)
      · exact hp x (by simp) hpn fun hc => hpX (hc ▸ haX)
  · refine hX.congr_ends (fun x hx => ?_) fun x hx => ?_
    · have hxX := List.mem_of_mem_dropLast hx
      refine hn x (by simp [hxX]) (fun hc => hpX (hc ▸ hxX)) ?_
      rintro rfl
      exact hzX' hx
    · have hxX := List.mem_of_mem_tail hx
      refine hp x (by simp [hxX]) (fun hc => hnX (hc ▸ hxX)) ?_
      rintro rfl
      exact haX' hx
  · refine hright.congr_ends (fun x hx => ?_) fun x hx => ?_
    · have hx : x = n ∨ x ∈ l₂ := by simpa using List.mem_of_mem_dropLast hx
      rcases hx with rfl | hx
      · exact hn x (by simp) (Ne.symm hpn) fun hc => hnX (hc ▸ hzX)
      · exact hn x (by simp [hx]) (fun hc => hp₂ (hc ▸ hx)) fun hc => hout x (.inr hx) (hc ▸ hzX)
    · have hx : x ∈ l₂ := hx
      exact hp x (by simp [hx]) (fun hc => hn₂ (hc ▸ hx)) fun hc => hout x (.inr hx) (hc ▸ haX)
  · rw [hhead]
    rintro x ⟨⟩
    exact hpa
  · rw [hlast]
    rintro x ⟨⟩
    exact hzn

/-- **A range goes**, and the nodes around it are linked to each other. The range stays linked. -/
theorem Chained.removeRange (h : Chained L (l₁ ++ p :: (X ++ n :: l₂))) (hl : (l₁ ++ p :: (X ++ n :: l₂)).Nodup)
    (hpn : L'.next p = n ∧ L'.prev n = p)
    (hn : ∀ x ∈ l₁ ++ p :: (X ++ n :: l₂), x ≠ p → L'.next x = L.next x)
    (hp : ∀ x ∈ l₁ ++ p :: (X ++ n :: l₂), x ≠ n → L'.prev x = L.prev x) :
    Chained L' (l₁ ++ p :: n :: l₂) ∧ Chained L' X := by
  obtain ⟨⟨hp₁, hpX, hp₂⟩, ⟨hn₁, hnX, hn₂⟩, hne⟩ := nodup_range hl
  obtain ⟨hleft, hX, hright, -, -⟩ := chained_range.mp h
  refine ⟨chained_append_cons_cons.mpr ⟨?_, hpn, ?_⟩, ?_⟩
  · refine hleft.congr_ends (fun x hx => ?_) fun x hx => ?_
    · rw [List.dropLast_concat] at hx
      exact hn x (by simp [hx]) fun hc => hp₁ (hc ▸ hx)
    · have hx : x ∈ l₁ ∨ x = p := by simpa using List.mem_of_mem_tail hx
      rcases hx with hx | rfl
      · exact hp x (by simp [hx]) fun hc => hn₁ (hc ▸ hx)
      · exact hp x (by simp) hne
  · refine hright.congr_ends (fun x hx => ?_) fun x hx => ?_
    · have hx : x = n ∨ x ∈ l₂ := by simpa using List.mem_of_mem_dropLast hx
      rcases hx with rfl | hx
      · exact hn x (by simp) (Ne.symm hne)
      · exact hn x (by simp [hx]) fun hc => hp₂ (hc ▸ hx)
    · have hx : x ∈ l₂ := hx
      exact hp x (by simp [hx]) fun hc => hn₂ (hc ▸ hx)
  · refine hX.congr_ends (fun x hx => ?_) fun x hx => ?_
    · have hxX := List.mem_of_mem_dropLast hx
      exact hn x (by simp [hxX]) fun hc => hpX (hc ▸ hxX)
    · have hxX := List.mem_of_mem_tail hx
      exact hp x (by simp [hxX]) fun hc => hnX (hc ▸ hxX)

/-- **The links in the other direction.** -/
theorem Chained.reverse (h : Chained L l) : Chained ⟨L.next, L.prev⟩ l.reverse :=
  List.isChain_reverse.mpr (List.IsChain.imp (fun _ _ hab => ⟨hab.2, hab.1⟩) h)

end LinkedList
