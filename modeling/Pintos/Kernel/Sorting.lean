import Pintos.Kernel.List
import Pintos.Lib.Runs
import Pintos.Lib.StrictWeak

/-!
# What the sorting functions of `lib/kernel/list.c` compare and keep

For every strict weak order, on the sequence of elements.

* `insertCalls`, `sortCalls` — the calls of `less`
* `listSort_ascending`, `listSort_sameTies` — `list_sort` is a stable sort
* `foldl_listInsertOrdered` — insertion one by one gives the same list
* `listUnique_eq` — `list_unique` keeps the first of each run of ties
-/

namespace Pintos

open StrictWeak Runs

variable {α : Type*}

/-! ## The calls of `less` -/

/-- The arguments of `less` in `list_insert_ordered`. -/
def insertCalls (less : α → α → Bool) (elem : α) : List α → List (α × α)
  | [] => []
  | e :: l => (elem, e) :: if less elem e then [] else insertCalls less elem l

/-- In `find_end_of_run` and in `is_sorted`, from the element `a` on. -/
def runCalls (less : α → α → Bool) : α → List α → List (α × α)
  | _, [] => []
  | a, b :: l => (b, a) :: if less b a then [] else runCalls less b l

/-- In `is_sorted`. -/
def sortedCalls (less : α → α → Bool) : List α → List (α × α)
  | [] => []
  | a :: l => runCalls less a l

/-- In the loop of `inplace_merge`. -/
def mergeCalls (less : α → α → Bool) : List α → List α → List (α × α)
  | [], _ => []
  | _, [] => []
  | a :: l, b :: l' => (b, a) :: if less b a then mergeCalls less (a :: l) l' else mergeCalls less l (b :: l')

/-- In one pass of `list_sort`. -/
def passCalls (less : α → α → Bool) : Nat → List α → List (α × α)
  | 0, _ => []
  | _ + 1, [] => []
  | fuel + 1, a :: l =>
    match findEndOfRun less a l with
    | (_, []) => runCalls less a l
    | (run₀, b :: l') =>
      let r := findEndOfRun less b l'
      runCalls less a l ++ runCalls less b l' ++ sortedCalls less run₀ ++ sortedCalls less r.1 ++
        mergeCalls less run₀ r.1 ++ passCalls less fuel r.2

/-- In the passes of `list_sort`. -/
def loopCalls (less : α → α → Bool) : Nat → List α → List (α × α)
  | 0, _ => []
  | fuel + 1, l =>
    let out := sortPass less l.length l
    passCalls less l.length l ++ if 1 < out.2 then loopCalls less fuel out.1 else []

/-- In `list_sort`, with its last assertion. -/
def sortCalls (less : α → α → Bool) (l : List α) : List (α × α) :=
  loopCalls less l.length l ++ sortedCalls less (listSort less l)

/-- With one element there is nothing to compare. -/
theorem sortCalls_of_length_le_one {less : α → α → Bool} {l : List α} (h : l.length ≤ 1) : sortCalls less l = [] := by
  match l, h with
  | [], _ => rfl
  | [_], _ => rfl

/-! ## Sorting is stable -/

section Stable

variable {less : α → α → Bool} {x a b : α} {l l' : List α}

theorem descents_eq_zero_iff_ascending (h : StrictWeak less) : descents less l = 0 ↔ Ascending less l := by
  obtain ⟨β, _, key, hkey⟩ := h.exists_key
  have hby : ByKey less key := ⟨hkey⟩
  rw [hby.pairwise, Ascending]
  simp only [hby.eq_false]

theorem listSort_ascending (h : StrictWeak less) (l : List α) : Ascending less (listSort less l) := by
  obtain ⟨β, _, key, hkey⟩ := h.exists_key
  have hby : ByKey less key := ⟨hkey⟩
  exact (hby.listSort l).imp hby.eq_false.mpr

/-- What an element is less than is not tied with what the element is tied with. -/
theorem filter_tied_eq_nil (h : StrictWeak less) (hx : tied less x b = true) (hl : ∀ y ∈ l, less b y = true) :
    l.filter (tied less x) = [] := by
  refine List.filter_eq_nil_iff.mpr fun y hy hxy => ?_
  have hby := h.tied_trans b x y (by rwa [tied, Bool.and_comm]) hxy
  rw [tied_iff, hl y hy] at hby
  cases hby.1

/-- The head of a sorted list is not less than the others. -/
theorem less_all (h : StrictWeak less) (hl : Ascending less (a :: l)) (hba : less b a = true) :
    ∀ y ∈ a :: l, less b y = true := by
  intro y hy
  rcases List.mem_cons.mp hy with rfl | hy
  · exact hba
  · exact h.less_of_not_less hba ((List.pairwise_cons.mp hl).1 y hy)

/-- The merge takes from the second run only what is less than all that is left of the first. -/
theorem inplaceMerge_sameTies (h : StrictWeak less) : ∀ (l l' : List α), Ascending less l →
    SameTies less (l ++ l') (inplaceMerge less l l')
  | [], l', _ => by
    rw [inplaceMerge, List.nil_merge]
    exact .refl less _
  | a :: l, [], _ => by
    rw [inplaceMerge, List.merge_right, List.append_nil]
    exact .refl less _
  | a :: l, b :: l', hl => by
    rw [inplaceMerge, List.cons_merge_cons]
    by_cases hba : (!less b a) = true
    · rw [if_pos hba]
      exact SameTies.append (.refl less [a]) (inplaceMerge_sameTies h l (b :: l') hl.of_cons)
    · rw [if_neg hba]
      rw [Bool.not_eq_true', Bool.not_eq_false] at hba
      have ih := inplaceMerge_sameTies h (a :: l) l' hl
      intro x
      have hx := ih x
      rw [inplaceMerge] at hx
      rw [List.filter_append] at hx ⊢
      by_cases hb : tied less x b = true
      · -- then nothing of the first run is tied with `x`
        have hnone := filter_tied_eq_nil h hb (less_all h hl hba)
        rw [List.filter_cons_of_pos hb, List.filter_cons_of_pos hb, hx, hnone]
        rfl
      · rw [List.filter_cons_of_neg hb, List.filter_cons_of_neg hb, hx]
  termination_by l l' => l.length + l'.length

theorem findEndOfRun_ascending (h : StrictWeak less) (a : α) (l : List α) : Ascending less (findEndOfRun less a l).1 :=
  (descents_eq_zero_iff_ascending h).mp (descents_findEndOfRun less a l).1

theorem sortPass_sameTies (h : StrictWeak less) : ∀ (fuel : Nat) (l : List α), SameTies less l (sortPass less fuel l).1
  | 0, l => .refl less l
  | _ + 1, [] => .refl less []
  | fuel + 1, a :: l => by
    have happ := findEndOfRun_append less a l
    have hrun := findEndOfRun_ascending h a l
    rw [sortPass]
    split
    · next run hf =>
      rw [hf, List.append_nil] at happ
      rw [← happ]
      exact .refl less _
    · next run₀ b l' hf =>
      rw [hf] at happ hrun
      have happ' := findEndOfRun_append less b l'
      have ih := sortPass_sameTies h fuel (findEndOfRun less b l').2
      have hmerge := inplaceMerge_sameTies h _ (findEndOfRun less b l').1 hrun
      have hboth := hmerge.append ih
      rwa [List.append_assoc, happ', happ] at hboth

theorem sortLoop_sameTies (h : StrictWeak less) : ∀ (fuel : Nat) (l : List α), SameTies less l (sortLoop less fuel l)
  | 0, l => .refl less l
  | fuel + 1, l => by
    have hpass := sortPass_sameTies h l.length l
    rw [sortLoop]
    split
    · exact hpass.trans (sortLoop_sameTies h fuel _)
    · exact hpass

/-- **`list_sort` is stable.** -/
theorem listSort_sameTies (h : StrictWeak less) (l : List α) : SameTies less l (listSort less l) :=
  sortLoop_sameTies h l.length l

/-! ## Ordered insertion -/

theorem listInsertOrdered_ascending (h : StrictWeak less) (hl : Ascending less l) :
    Ascending less (listInsertOrdered less x l) := by
  obtain ⟨β, _, key, hkey⟩ := h.exists_key
  have hby : ByKey less key := ⟨hkey⟩
  exact (listInsertOrdered_pairwise hkey (hl.imp hby.eq_false.mp)).imp hby.eq_false.mpr

/-- The new element comes behind those it is tied with. -/
theorem listInsertOrdered_sameTies (h : StrictWeak less) (x : α) : ∀ {l : List α}, Ascending less l →
    SameTies less (l ++ [x]) (listInsertOrdered less x l)
  | [], _ => .refl less [x]
  | e :: l, hl => by
    rw [listInsertOrdered]
    split
    · next hx =>
      intro z
      rw [List.filter_append]
      by_cases hz : tied less z x = true
      · have hnone := filter_tied_eq_nil h hz (less_all h hl hx)
        rw [List.filter_cons_of_pos hz, List.filter_cons_of_pos hz, hnone]
        rfl
      · rw [List.filter_cons_of_neg hz, List.filter_cons_of_neg hz, List.filter_nil, List.append_nil]
    · exact SameTies.append (.refl less [e]) (listInsertOrdered_sameTies h x hl.of_cons)

/-- Insertion one by one sorts, and keeps ties in order. -/
theorem foldl_listInsertOrdered_spec (h : StrictWeak less) :
    ∀ (xs : List α) {l l' : List α}, Ascending less l → SameTies less l' l →
    Ascending less (xs.foldl (fun l x => listInsertOrdered less x l) l) ∧
      SameTies less (l' ++ xs) (xs.foldl (fun l x => listInsertOrdered less x l) l)
  | [], l, l', hl, ht => by
    rw [List.append_nil]
    exact ⟨hl, ht⟩
  | x :: xs, l, l', hl, ht => by
    have hx := listInsertOrdered_sameTies h x hl
    have ht' : SameTies less (l' ++ [x]) (listInsertOrdered less x l) := (ht.append (.refl less [x])).trans hx
    have ih := foldl_listInsertOrdered_spec h xs (listInsertOrdered_ascending h (x := x) hl) ht'
    rwa [List.append_assoc, List.singleton_append] at ih

/-- **Insertion one by one gives what sorting gives.** -/
theorem foldl_listInsertOrdered (h : StrictWeak less) (xs : List α) :
    xs.foldl (fun l x => listInsertOrdered less x l) [] = listSort less xs := by
  obtain ⟨hasc, hties⟩ := foldl_listInsertOrdered_spec h xs List.Pairwise.nil (.refl less [])
  exact hasc.eq_of_sameTies h (listSort_ascending h xs) (hties.symm.trans (listSort_sameTies h xs))

/-! ## `list_unique` -/

/-- The loop of `list_unique` from `elem` on: what stays, and what is removed. -/
def uniqueFrom (less : α → α → Bool) : α → List α → List α × List α
  | elem, [] => ([elem], [])
  | elem, next :: l =>
    if !less elem next && !less next elem then
      ((uniqueFrom less elem l).1, next :: (uniqueFrom less elem l).2)
    else (elem :: (uniqueFrom less next l).1, (uniqueFrom less next l).2)

/-- `list_unique`: the list afterwards, and the elements appended to `duplicates`. -/
def listUnique (less : α → α → Bool) : List α → List α × List α
  | [] => ([], [])
  | elem :: l => uniqueFrom less elem l

/-- The loop compares with the first element of the run; it is tied with the last one. -/
theorem uniqueFrom_eq (h : StrictWeak less) : ∀ (l : List α) {a c : α} {g : List α} {gs : List (List α)},
    tied less a c = true → (c :: l).splitBy (tied less) = (c :: g) :: gs →
    uniqueFrom less a l = (a :: gs.flatMap (·.take 1), g ++ gs.flatMap (·.drop 1))
  | [], a, c, g, gs, _, hs => by
    have hone : [c].splitBy (tied less) = [[c]] := rfl
    rw [hone] at hs
    obtain ⟨hg, rfl⟩ := List.cons.inj hs
    obtain ⟨-, rfl⟩ := List.cons.inj hg
    rfl
  | b :: l, a, c, g, gs, hac, hs => by
    obtain ⟨g', gs', hb⟩ := exists_splitBy_cons (tied less) b l
    rw [uniqueFrom]
    by_cases hab : tied less a b = true
    · have hcb : tied less c b = true := h.tied_trans c a b (by rwa [tied, Bool.and_comm]) hab
      rw [splitBy_cons_of_related hcb hb] at hs
      obtain ⟨hg, rfl⟩ := List.cons.inj hs
      obtain ⟨-, rfl⟩ := List.cons.inj hg
      rw [show (!less a b && !less b a) = true from hab, if_pos rfl, uniqueFrom_eq h l hab hb]
      rfl
    · have hcb : tied less c b = false := by
        by_contra hc
        exact hab (h.tied_trans a c b hac (by simpa using hc))
      rw [splitBy_cons_of_not hcb, hb] at hs
      obtain ⟨hg, rfl⟩ := List.cons.inj hs
      obtain ⟨-, rfl⟩ := List.cons.inj hg
      rw [show (!less a b && !less b a) = false from Bool.eq_false_iff.mpr hab, if_neg Bool.false_ne_true,
        uniqueFrom_eq h l h.tied_self hb]
      rfl

/-- **`list_unique` keeps the first element of each run of ties**, and removes the others. -/
theorem listUnique_eq (h : StrictWeak less) (l : List α) :
    listUnique less l = (firsts (tied less) l, others (tied less) l) := by
  cases l with
  | nil => rfl
  | cons a l =>
    obtain ⟨g, gs, hs⟩ := exists_splitBy_cons (tied less) a l
    rw [listUnique, uniqueFrom_eq h l h.tied_self hs, firsts, others, hs]
    rfl

/-- On a sorted list what stays rises. -/
theorem uniqueFrom_rising (h : StrictWeak less) : ∀ (l : List α) {a : α}, Ascending less (a :: l) →
    ∃ k, (uniqueFrom less a l).1 = a :: k ∧ (a :: k).Pairwise fun x y => less x y = true
  | [], a, _ => ⟨[], rfl, List.pairwise_singleton _ a⟩
  | b :: l, a, hl => by
    rw [uniqueFrom]
    have hba : less b a = false := (List.pairwise_cons.mp hl).1 b List.mem_cons_self
    by_cases hab : less a b = true
    · obtain ⟨k, hk, hrise⟩ := uniqueFrom_rising h l hl.of_cons
      have hguard : ¬ (!less a b && !less b a) = true := by simp [hab]
      rw [if_neg hguard]
      refine ⟨b :: k, by rw [hk], List.pairwise_cons.mpr ⟨fun y hy => ?_, hrise⟩⟩
      rcases List.mem_cons.mp hy with rfl | hy
      · exact hab
      · exact h.trans a b y hab ((List.pairwise_cons.mp hrise).1 y hy)
    · obtain ⟨ha, hrest⟩ := List.pairwise_cons.mp hl
      have hcut : Ascending less (a :: l) :=
        List.pairwise_cons.mpr ⟨fun y hy => ha y (List.mem_cons_of_mem b hy), hrest.of_cons⟩
      have hguard : (!less a b && !less b a) = true := by simp [hab, hba]
      rw [if_pos hguard]
      exact uniqueFrom_rising h l hcut

/-- **On a sorted list no two elements that stay are tied.** -/
theorem firsts_not_tied (h : StrictWeak less) (hl : Ascending less l) :
    (firsts (tied less) l).Pairwise fun x y => tied less x y = false := by
  cases l with
  | nil => exact List.Pairwise.nil
  | cons a l =>
    obtain ⟨k, hk, hrise⟩ := uniqueFrom_rising h l hl
    have heq : firsts (tied less) (a :: l) = a :: k := by
      rw [← hk]
      exact (congrArg Prod.fst (listUnique_eq h (a :: l))).symm
    rw [heq]
    exact hrise.imp fun hxy => by simp [tied, hxy]

end Stable

end Pintos
