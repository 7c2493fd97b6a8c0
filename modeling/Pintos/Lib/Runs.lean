import Mathlib.Data.List.SplitBy

/-!
# Runs of related neighbours

`List.splitBy` splits a list into its maximal runs. Nothing here is about one program.

* `firsts`, `others` — the first element of each run, and the elements behind it
* `splitBy_cons_of_related`, `splitBy_cons_of_not` — the runs of a longer list
* `firsts_others_perm` — together they are the list
-/

namespace Runs

variable {α : Type*} {r : α → α → Bool} {a b : α} {l g : List α} {gs : List (List α)}

/-- The first element of each maximal run, in order. -/
def firsts (r : α → α → Bool) (l : List α) : List α := (l.splitBy r).flatMap (·.take 1)

/-- The elements behind the first one of their run, in order. -/
def others (r : α → α → Bool) (l : List α) : List α := (l.splitBy r).flatMap (·.drop 1)

/-- The first run begins with the first element. -/
theorem exists_splitBy_cons (r : α → α → Bool) (a : α) (l : List α) :
    ∃ g gs, (a :: l).splitBy r = (a :: g) :: gs := by
  have hhead := List.head_head_splitBy r (List.cons_ne_nil a l)
  have hflat := List.flatten_splitBy r (a :: l)
  have hnil := List.nil_notMem_splitBy r (a :: l)
  cases hs : (a :: l).splitBy r with
  | nil =>
    rw [hs] at hflat
    cases hflat
  | cons g gs =>
    rw [hs] at hflat hnil
    cases g with
    | nil => exact absurd List.mem_cons_self hnil
    | cons x g =>
      obtain rfl : x = a := (List.cons.inj hflat).1
      exact ⟨g, gs, rfl⟩

/-- An element that is related to the next one comes into its run. -/
theorem splitBy_cons_of_related (hab : r a b = true) (h : (b :: l).splitBy r = (b :: g) :: gs) :
    (a :: b :: l).splitBy r = (a :: b :: g) :: gs := by
  obtain ⟨hflat, hnil, hchain, hgap⟩ := List.splitBy_eq_iff.mp h
  refine List.splitBy_eq_iff.mpr ⟨?_, ?_, ?_, ?_⟩
  · rw [List.flatten_cons] at hflat ⊢
    rw [hflat]
    rfl
  · intro hc
    rcases List.mem_cons.mp hc with hc | hc
    · cases hc
    · exact hnil (List.mem_cons_of_mem _ hc)
  · intro m hm
    rcases List.mem_cons.mp hm with rfl | hm
    · exact List.isChain_cons_cons.mpr ⟨hab, hchain _ List.mem_cons_self⟩
    · exact hchain m (List.mem_cons_of_mem _ hm)
  · rw [List.isChain_cons] at hgap ⊢
    refine ⟨fun y hy => ?_, hgap.2⟩
    obtain ⟨ha, hb, hlast⟩ := hgap.1 y hy
    exact ⟨List.cons_ne_nil a _, hb, by rwa [List.getLast_cons ha]⟩

/-- One that is not begins a run that it is alone in. -/
theorem splitBy_cons_of_not (hab : r a b = false) : (a :: b :: l).splitBy r = [a] :: (b :: l).splitBy r := by
  have hsplit : ([a] ++ b :: l).splitBy r = [a].splitBy r ++ (b :: l).splitBy r := by
    refine List.splitBy_append_cons l fun x hx => ?_
    rw [List.getLast?_singleton, Option.mem_some_iff] at hx
    rwa [← hx]
  exact hsplit

theorem take_drop_perm : ∀ gs : List (List α),
    (gs.flatMap (·.take 1) ++ gs.flatMap (·.drop 1)).Perm gs.flatten
  | [] => List.Perm.refl _
  | g :: gs => by
    have ih := take_drop_perm gs
    rw [List.flatMap_cons, List.flatMap_cons, List.flatten_cons]
    calc (g.take 1 ++ gs.flatMap (·.take 1)) ++ (g.drop 1 ++ gs.flatMap (·.drop 1))
        _ = g.take 1 ++ (gs.flatMap (·.take 1) ++ g.drop 1) ++ gs.flatMap (·.drop 1) := by simp
        List.Perm _ (g.take 1 ++ (g.drop 1 ++ gs.flatMap (·.take 1)) ++ gs.flatMap (·.drop 1)) :=
          (List.perm_append_comm.append_left _).append_right _
        _ = g ++ (gs.flatMap (·.take 1) ++ gs.flatMap (·.drop 1)) := by
          rw [← List.append_assoc, List.take_append_drop, List.append_assoc]
        List.Perm _ (g ++ gs.flatten) := ih.append_left g

/-- **Nothing is lost.** -/
theorem firsts_others_perm (r : α → α → Bool) (l : List α) : (firsts r l ++ others r l).Perm l := by
  have hperm := take_drop_perm (l.splitBy r)
  rwa [List.flatten_splitBy] at hperm

end Runs
