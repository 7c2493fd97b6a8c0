import Mathlib.Data.List.Basic
import Mathlib.Data.List.Perm.Basic
import Mathlib.Data.List.Sort

/-!
# Ordered lists of `lib/kernel/list.c`

`list_insert_ordered` and `list_sort` on the sequence of elements of a list. `less` is the
`list_less_func`; its `aux` argument is `NULL` at every call in the kernel.

`list_sort` is the natural merge sort of the source: a pass finds two adjacent runs, merges
them and goes on behind them, until one pass outputs a single run.
-/

namespace Pintos

variable {α : Type*}

/-- `list_insert_ordered`: before the first `e` with `less elem e`, else at the end. -/
def listInsertOrdered (less : α → α → Bool) (elem : α) : List α → List α
  | [] => [elem]
  | e :: l => if less elem e then elem :: e :: l else e :: listInsertOrdered less elem l

/-- `find_end_of_run` from the element `a`: the run and what follows it. -/
def findEndOfRun (less : α → α → Bool) : α → List α → List α × List α
  | a, [] => ([a], [])
  | a, b :: l =>
    if less b a then ([a], b :: l)
    else (a :: (findEndOfRun less b l).1, (findEndOfRun less b l).2)

/-- `inplace_merge` of two adjacent runs. -/
def inplaceMerge (less : α → α → Bool) (a b : List α) : List α :=
  List.merge a b (fun x y => !less y x)

/-- One pass of `list_sort` and its `output_run_cnt`. `fuel` bounds the runs. -/
def sortPass (less : α → α → Bool) : Nat → List α → List α × Nat
  | 0, l => (l, 0)
  | _ + 1, [] => ([], 0)
  | fuel + 1, a :: l =>
    match findEndOfRun less a l with
    | (run, []) => (run, 1)
    | (run₀, b :: l') =>
      let r := findEndOfRun less b l'
      let out := sortPass less fuel r.2
      (inplaceMerge less run₀ r.1 ++ out.1, out.2 + 1)

/-- The passes of `list_sort`, until one outputs at most one run. -/
def sortLoop (less : α → α → Bool) : Nat → List α → List α
  | 0, l => l
  | fuel + 1, l =>
    let out := sortPass less l.length l
    if 1 < out.2 then sortLoop less fuel out.1 else out.1

/-- `list_sort`. Each pass at least halves the number of runs, so the length is fuel enough. -/
def listSort (less : α → α → Bool) (l : List α) : List α := sortLoop less l.length l

/-! ## What insertion keeps -/

theorem listInsertOrdered_perm (less : α → α → Bool) (x : α) :
    ∀ l : List α, (listInsertOrdered less x l).Perm (x :: l)
  | [] => List.Perm.refl _
  | e :: l => by
    rw [listInsertOrdered]
    split
    · exact List.Perm.refl _
    · exact ((listInsertOrdered_perm less x l).cons e).trans (List.Perm.swap x e l)

@[simp] theorem mem_listInsertOrdered {less : α → α → Bool} {x y : α} {l : List α} :
    y ∈ listInsertOrdered less x l ↔ y = x ∨ y ∈ l := by
  rw [(listInsertOrdered_perm less x l).mem_iff, List.mem_cons]

theorem listInsertOrdered_nodup {less : α → α → Bool} {x : α} {l : List α} :
    (listInsertOrdered less x l).Nodup ↔ x ∉ l ∧ l.Nodup := by
  rw [(listInsertOrdered_perm less x l).nodup_iff, List.nodup_cons]

/-- Insertion by falling `key` keeps a list ordered by `key`. -/
theorem listInsertOrdered_pairwise {β : Type*} [LinearOrder β] {key : α → β}
    {less : α → α → Bool} (hless : ∀ a b, less a b = true ↔ key b < key a) {x : α} {l : List α}
    (h : l.Pairwise (fun a b => key b ≤ key a)) :
    (listInsertOrdered less x l).Pairwise (fun a b => key b ≤ key a) := by
  induction l with
  | nil => exact List.pairwise_singleton _ x
  | cons e l ih =>
    obtain ⟨he, hl⟩ := List.pairwise_cons.mp h
    rw [listInsertOrdered]
    split
    · next hx =>
      have hxe : key e ≤ key x := le_of_lt ((hless x e).mp hx)
      refine List.pairwise_cons.mpr ⟨?_, h⟩
      intro y hy
      rcases List.mem_cons.mp hy with rfl | hy
      · exact hxe
      · exact (he y hy).trans hxe
    · next hx =>
      refine List.pairwise_cons.mpr ⟨?_, ih hl⟩
      intro y hy
      rcases mem_listInsertOrdered.mp hy with rfl | hy
      · exact not_lt.mp (fun hc => hx ((hless y e).mpr hc))
      · exact he y hy

/-! ## What sorting keeps -/

theorem findEndOfRun_append (less : α → α → Bool) : ∀ (a : α) (l : List α),
    (findEndOfRun less a l).1 ++ (findEndOfRun less a l).2 = a :: l
  | a, [] => rfl
  | a, b :: l => by
    rw [findEndOfRun]
    split
    · rfl
    · rw [List.cons_append, findEndOfRun_append less b l]

theorem inplaceMerge_perm (less : α → α → Bool) (a b : List α) :
    (inplaceMerge less a b).Perm (a ++ b) :=
  List.merge_perm_append _

theorem sortPass_perm (less : α → α → Bool) : ∀ (fuel : Nat) (l : List α),
    (sortPass less fuel l).1.Perm l
  | 0, l => List.Perm.refl _
  | _ + 1, [] => List.Perm.refl _
  | fuel + 1, a :: l => by
    rw [sortPass]
    split
    · next run h =>
      have ha := findEndOfRun_append less a l
      rw [h, List.append_nil] at ha
      rw [← ha]
    · next run₀ b l' h =>
      have ha := findEndOfRun_append less a l
      rw [h] at ha
      have hb := findEndOfRun_append less b l'
      have ih := sortPass_perm less fuel (findEndOfRun less b l').2
      show (inplaceMerge less run₀ (findEndOfRun less b l').1 ++ _).Perm _
      rw [← ha, ← hb, ← List.append_assoc]
      exact (inplaceMerge_perm less _ _).append ih

theorem sortLoop_perm (less : α → α → Bool) : ∀ (fuel : Nat) (l : List α),
    (sortLoop less fuel l).Perm l
  | 0, l => List.Perm.refl _
  | fuel + 1, l => by
    rw [sortLoop]
    have hp := sortPass_perm less l.length l
    split
    · exact (sortLoop_perm less fuel _).trans hp
    · exact hp

theorem listSort_perm (less : α → α → Bool) (l : List α) : (listSort less l).Perm l :=
  sortLoop_perm less l.length l

@[simp] theorem mem_listSort {less : α → α → Bool} {x : α} {l : List α} :
    x ∈ listSort less l ↔ x ∈ l :=
  (listSort_perm less l).mem_iff

/-- `list_sort` then `list_pop_front`: the list loses exactly the element popped. -/
theorem perm_of_listSort_eq_cons {less : α → α → Bool} {x : α} {l rest : List α}
    (h : listSort less l = x :: rest) : l.Perm (x :: rest) := by
  rw [← h]
  exact (listSort_perm less l).symm

theorem listSort_eq_nil {less : α → α → Bool} {l : List α} : listSort less l = [] ↔ l = [] := by
  constructor
  · intro h
    have hp := listSort_perm less l
    rw [h] at hp
    exact hp.nil_eq.symm
  · rintro rfl
    rfl

/-! ## The result is sorted -/

/-- The neighbours that are out of order. There is one run more than these. -/
def descents (less : α → α → Bool) : List α → Nat
  | [] => 0
  | [_] => 0
  | a :: b :: l => (if less b a then 1 else 0) + descents less (b :: l)

section Descents

variable {less : α → α → Bool} {a b : α} {l l' : List α}

theorem descents_le_length (less : α → α → Bool) : ∀ l : List α, descents less l ≤ l.length
  | [] => Nat.le_refl 0
  | [_] => Nat.zero_le 1
  | a :: b :: l => by
    have ih := descents_le_length less (b :: l)
    rw [descents, List.length_cons]
    split <;> omega

theorem descents_eq_zero : descents less l = 0 ↔ l.IsChain (fun x y => less y x = false) := by
  induction l with
  | nil => simp [descents]
  | cons a l ih =>
    cases l with
    | nil => simp [descents]
    | cons b l =>
      rw [descents, List.isChain_cons_cons, ← ih]
      cases less b a <;> simp

theorem descents_append_le (less : α → α → Bool) : ∀ (l l' : List α),
    descents less (l ++ l') ≤ descents less l + descents less l' + 1
  | [], l' => by
    rw [List.nil_append]
    omega
  | [a], [] => Nat.zero_le _
  | [a], b :: l' => by
    show descents less (a :: b :: l') ≤ _
    rw [descents, descents, Nat.zero_add]
    split <;> omega
  | a :: b :: l, l' => by
    have ih := descents_append_le less (b :: l) l'
    show descents less (a :: b :: (l ++ l')) ≤ _
    rw [descents, descents]
    rw [List.cons_append] at ih
    split <;> omega

/-- A run has no descent, and the next one begins with one. -/
theorem descents_findEndOfRun (less : α → α → Bool) : ∀ (a : α) (l : List α),
    descents less (findEndOfRun less a l).1 = 0 ∧
    descents less (a :: l) =
      if (findEndOfRun less a l).2 = [] then 0 else descents less (findEndOfRun less a l).2 + 1
  | a, [] => by simp [findEndOfRun, descents]
  | a, b :: l => by
    obtain ⟨hrun, hrest⟩ := descents_findEndOfRun less b l
    rw [findEndOfRun]
    by_cases hba : less b a = true
    · simp [hba, descents]
      omega
    · rw [if_neg hba]
      refine ⟨?_, by rw [descents, if_neg hba, hrest, Nat.zero_add]⟩
      -- the run from `b` begins with `b`
      obtain ⟨run, hb⟩ : ∃ run, (findEndOfRun less b l).1 = b :: run := by
        cases l with
        | nil => exact ⟨[], rfl⟩
        | cons c l =>
          rw [findEndOfRun]
          split
          · exact ⟨[], rfl⟩
          · exact ⟨_, rfl⟩
      rw [hb] at hrun ⊢
      rw [descents, if_neg hba, hrun]

/-- `less` compares a key, the larger one first. -/
structure ByKey {β : Type*} [LinearOrder β] (less : α → α → Bool) (key : α → β) : Prop where
  iff : ∀ a b, less a b = true ↔ key b < key a

variable {β : Type*} [LinearOrder β] {key : α → β}

theorem ByKey.eq_false (h : ByKey less key) : less a b = false ↔ key a ≤ key b := by
  rw [← Bool.not_eq_true, h.iff, not_lt]

theorem ByKey.pairwise (h : ByKey less key) :
    descents less l = 0 ↔ l.Pairwise (fun x y => key y ≤ key x) := by
  rw [descents_eq_zero]
  have htrans : IsTrans α (fun x y => key y ≤ key x) := ⟨fun _ _ _ hab hbc => hbc.trans hab⟩
  rw [← List.isChain_iff_pairwise]
  exact ⟨fun hl => hl.imp fun _ _ => h.eq_false.mp, fun hl => hl.imp fun _ _ => h.eq_false.mpr⟩

theorem ByKey.inplaceMerge (h : ByKey less key) (hl : descents less l = 0)
    (hl' : descents less l' = 0) : descents less (inplaceMerge less l l') = 0 := by
  rw [h.pairwise] at hl hl' ⊢
  have hle : ∀ x y, (!less y x) = true ↔ key y ≤ key x := by
    intro x y
    rw [Bool.not_eq_true', h.eq_false]
  have hmerge : (List.merge l l' fun x y => !less y x).Pairwise fun x y => (!less y x) = true := by
    refine List.pairwise_merge (fun x y z hxy hyz => ?_) (fun x y => ?_) l l' ?_ ?_
    · rw [hle] at hxy hyz ⊢
      exact hyz.trans hxy
    · rw [Bool.or_eq_true, hle, hle]
      exact le_total _ _
    · exact hl.imp fun hxy => (hle _ _).mpr hxy
    · exact hl'.imp fun hxy => (hle _ _).mpr hxy
  exact hmerge.imp fun hxy => (hle _ _).mp hxy

/-- A pass over `d + 1` runs outputs half as many, rounded up, and its list has no more. -/
theorem ByKey.sortPass (h : ByKey less key) : ∀ (fuel : Nat) (l : List α), l.length ≤ fuel → l ≠ [] →
    (sortPass less fuel l).2 = descents less l / 2 + 1 ∧
    descents less (sortPass less fuel l).1 ≤ descents less l / 2
  | 0, l, hlen, hne => absurd (List.length_eq_zero_iff.mp (Nat.le_zero.mp hlen)) hne
  | fuel + 1, [], _, hne => absurd rfl hne
  | fuel + 1, a :: l, hlen, _ => by
    obtain ⟨hrun, hdes⟩ := descents_findEndOfRun less a l
    have happ := findEndOfRun_append less a l
    rw [Pintos.sortPass]
    split
    · next run hf =>
      rw [hf] at hrun hdes
      rw [hdes, if_pos rfl]
      exact ⟨rfl, hrun.le⟩
    · next run₀ b l' hf =>
      rw [hf] at hrun hdes happ
      obtain ⟨hrun', hdes'⟩ := descents_findEndOfRun less b l'
      have happ' := findEndOfRun_append less b l'
      rw [if_neg (List.cons_ne_nil b l')] at hdes
      have hmerge := h.inplaceMerge hrun hrun'
      have hlen' : (findEndOfRun less b l').2.length ≤ fuel := by
        have h₁ := congrArg List.length happ
        have h₂ := congrArg List.length happ'
        have h₃ : run₀ ≠ [] := by
          rintro rfl
          have hz := congrArg Prod.fst hf
          cases l with
          | nil => cases hz
          | cons c l =>
            rw [findEndOfRun] at hz
            split at hz <;> cases hz
        have h₄ := List.length_pos_iff.mpr h₃
        simp only [List.length_append, List.length_cons] at h₁ h₂ hlen
        omega
      have happd := descents_append_le less
        (Pintos.inplaceMerge less run₀ (findEndOfRun less b l').1)
        (Pintos.sortPass less fuel (findEndOfRun less b l').2).1
      rw [hdes]
      dsimp only
      by_cases hrest : (findEndOfRun less b l').2 = []
      · -- the two runs were the last ones
        have hnil : Pintos.sortPass less fuel [] = ([], 0) := by cases fuel <;> rfl
        rw [if_pos hrest] at hdes'
        rw [hrest, hnil, List.append_nil, hmerge, hdes']
        exact ⟨rfl, Nat.zero_le _⟩
      · obtain ⟨hcnt, hle⟩ := h.sortPass fuel _ hlen' hrest
        rw [if_neg hrest] at hdes'
        have hmerge' : descents less (Pintos.inplaceMerge less run₀ (findEndOfRun less b l').1) = 0 :=
          hmerge
        constructor
        · omega
        · omega

/-- A pass over a sorted list outputs it as one run. -/
theorem sortPass_of_sorted (hd : descents less l = 0) :
    (sortPass less l.length l).1 = l ∧ (sortPass less l.length l).2 ≤ 1 := by
  cases l with
  | nil => exact ⟨rfl, Nat.zero_le 1⟩
  | cons a l =>
    obtain ⟨-, hdes⟩ := descents_findEndOfRun less a l
    have happ := findEndOfRun_append less a l
    rw [hd] at hdes
    have hrest : (findEndOfRun less a l).2 = [] := by
      by_contra hc
      rw [if_neg hc] at hdes
      omega
    rw [hrest, List.append_nil] at happ
    have hf : findEndOfRun less a l = (a :: l, []) := Prod.ext happ hrest
    rw [List.length_cons, sortPass, hf]
    exact ⟨rfl, Nat.le_refl 1⟩

/-- **The loop ends with one run.** -/
theorem ByKey.sortLoop (h : ByKey less key) : ∀ (fuel : Nat) (l : List α), descents less l ≤ fuel →
    descents less (sortLoop less fuel l) = 0
  | 0, l, hd => Nat.le_zero.mp hd
  | fuel + 1, l, hd => by
    rw [Pintos.sortLoop]
    by_cases hne : l = []
    · subst hne
      rfl
    · obtain ⟨hcnt, hle⟩ := h.sortPass l.length l (Nat.le_refl _) hne
      split
      · exact h.sortLoop fuel _ (by omega)
      · omega

/-- **`list_sort` sorts.** -/
theorem ByKey.listSort (h : ByKey less key) (l : List α) :
    (listSort less l).Pairwise (fun x y => key y ≤ key x) :=
  h.pairwise.mp (h.sortLoop l.length l (descents_le_length less l))

end Descents

/-! ## Renaming the elements -/

section Map

variable {γ : Type*} {f : α → γ} {less : α → α → Bool} {less' : γ → γ → Bool}

theorem findEndOfRun_map : ∀ {a : α} {l : List α},
    (∀ x ∈ a :: l, ∀ y ∈ a :: l, less' (f x) (f y) = less x y) →
    findEndOfRun less' (f a) (l.map f) =
      ((findEndOfRun less a l).1.map f, (findEndOfRun less a l).2.map f)
  | a, [], _ => rfl
  | a, b :: l, h => by
    have hba : less' (f b) (f a) = less b a := h b (by simp) a (by simp)
    have ih := findEndOfRun_map (a := b) (l := l)
      fun x hx y hy => h x (List.mem_cons_of_mem a hx) y (List.mem_cons_of_mem a hy)
    rw [List.map_cons, findEndOfRun, findEndOfRun, hba, ih]
    split <;> rfl

theorem sortPass_map : ∀ (fuel : Nat) {l : List α},
    (∀ x ∈ l, ∀ y ∈ l, less' (f x) (f y) = less x y) →
    sortPass less' fuel (l.map f) = ((sortPass less fuel l).1.map f, (sortPass less fuel l).2)
  | 0, _, _ => rfl
  | _ + 1, [], _ => rfl
  | fuel + 1, a :: l, h => by
    have happ := findEndOfRun_append less a l
    rw [List.map_cons, sortPass, sortPass, findEndOfRun_map h]
    generalize hf : findEndOfRun less a l = r at happ ⊢
    obtain ⟨run₀, rest⟩ := r
    cases rest with
    | nil => rfl
    | cons b l' =>
      have happ' := findEndOfRun_append less b l'
      have hin : ∀ x, x ∈ run₀ ∨ x ∈ b :: l' → x ∈ a :: l := by
        intro x hx
        rw [← happ]
        exact List.mem_append.mpr hx
      have hin' : ∀ x, x ∈ (findEndOfRun less b l').1 ∨ x ∈ (findEndOfRun less b l').2 →
          x ∈ b :: l' := by
        intro x hx
        rw [← happ']
        exact List.mem_append.mpr hx
      have hrun : findEndOfRun less' (f b) (l'.map f) =
          ((findEndOfRun less b l').1.map f, (findEndOfRun less b l').2.map f) :=
        findEndOfRun_map fun x hx y hy => h x (hin x (Or.inr hx)) y (hin y (Or.inr hy))
      have ih := sortPass_map fuel (l := (findEndOfRun less b l').2) fun x hx y hy =>
        h x (hin x (Or.inr (hin' x (Or.inr hx)))) y (hin y (Or.inr (hin' y (Or.inr hy))))
      have hmerge : (inplaceMerge less run₀ (findEndOfRun less b l').1).map f =
          inplaceMerge less' (run₀.map f) ((findEndOfRun less b l').1.map f) := by
        refine List.map_merge fun x hx y hy => ?_
        rw [h y (hin y (Or.inr (hin' y (Or.inl hy)))) x (hin x (Or.inl hx))]
      rw [List.map_cons]
      dsimp only
      rw [hrun]
      dsimp only
      rw [ih, ← hmerge, List.map_append]

theorem sortLoop_map : ∀ (fuel : Nat) {l : List α},
    (∀ x ∈ l, ∀ y ∈ l, less' (f x) (f y) = less x y) →
    sortLoop less' fuel (l.map f) = (sortLoop less fuel l).map f
  | 0, _, _ => rfl
  | fuel + 1, l, h => by
    have hp := sortPass_perm less l.length l
    have ih := sortLoop_map fuel (l := (sortPass less l.length l).1)
      fun x hx y hy => h x (hp.mem_iff.mp hx) y (hp.mem_iff.mp hy)
    rw [sortLoop, sortLoop, List.length_map, sortPass_map l.length h]
    dsimp only
    rw [ih]
    split <;> rfl

/-- **Sorting does not depend on what the elements are called.** -/
theorem listSort_map {l : List α} (h : ∀ x ∈ l, ∀ y ∈ l, less' (f x) (f y) = less x y) :
    listSort less' (l.map f) = (listSort less l).map f := by
  rw [listSort, listSort, List.length_map, sortLoop_map l.length h]

end Map

end Pintos
