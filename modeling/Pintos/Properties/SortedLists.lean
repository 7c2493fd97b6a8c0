import Pintos.Kernel.ListOrdered

/-!
# Sorting a list in memory

`list_sort`, `list_insert_ordered` and `list_unique` on the links, for every strict weak order and with any number of
rounds for each loop that is larger than the list.

* `list_sort_stable` — **`list_sort` is a stable sort** that fails no assertion
* `insert_ordered_sorts` — **insertion one by one gives the list that sorting gives**
* `list_unique_runs` — **`list_unique` keeps the first of each run of ties and loses nothing**
-/

namespace Pintos

open LinkedList StrictWeak Runs

section

variable {mem : PageMem} {l d : Vaddr} {X D xs : List Vaddr} {less : Vaddr → Vaddr → Bool}

/-- **`list_sort` is a stable sort**: it ends and fails no assertion, and the links spell the elements in order, with
ties in their old order. -/
theorem list_sort_stable (h : IsList mem l X) (hN : Elems {x | x ∈ listNodes l X}) (hless : StrictWeak less) :
    ∃ Y : List Vaddr, Y.Perm X ∧ Ascending less Y ∧ SameTies less X Y ∧
      ∀ n, X.length < n → ∃ mem', mem.listSort l less n = .ok mem' ∧ IsList mem' l Y ∧
        Agree (offElems (listNodes l X)) mem mem' := by
  refine ⟨listSort less X, listSort_perm less X, listSort_ascending hless X, listSort_sameTies hless X, fun n hn => ?_⟩
  obtain ⟨β, _, key, hkey⟩ := hless.exists_key
  have hby : ByKey less key := ⟨hkey⟩
  exact h.sort hby hN (fun _ hx => hx) hn

/-- By the blocks of 32 bytes that they are in: ties in both of them. -/
def blockLess (a b : Vaddr) : Bool := a.toNat / 32 < b.toNat / 32

theorem blockLess_strictWeak : StrictWeak blockLess := by
  have hiff : ∀ a b, blockLess a b = true ↔ OrderDual.toDual (b.toNat / 32) < OrderDual.toDual (a.toNat / 32) := by
    intro a b
    rw [blockLess, decide_eq_true_iff, OrderDual.toDual_lt_toDual]
  exact .of_key hiff

/-- A memory with two empty lists. -/
def emptyLists : PageMem := PageMem.listInit (PageMem.listInit (fun _ _ => 0) 1024) 2048

/-- The first of them with some elements. -/
def someElems (xs : List Vaddr) : PageMem := (PageMem.pushAll 1024 emptyLists xs).toOption.getD emptyLists

theorem list_sort_stable_four : ∃ mem', (someElems [96, 32, 112, 48]).listSort 1024 blockLess 5 = .ok mem' ∧
    ∃ Y, IsList mem' 1024 Y ∧ SameTies blockLess [96, 32, 112, 48] Y ∧ Ascending blockLess Y := by
  have hN : Elems {x | x ∈ listNodes 1024 [96, 32, 112, 48]} := .of_elemsApart (by decide +kernel)
  have hlist : IsList (someElems [96, 32, 112, 48]) 1024 [96, 32, 112, 48] := by decide +kernel
  obtain ⟨Y, -, hasc, hties, hrun⟩ := list_sort_stable hlist hN blockLess_strictWeak
  obtain ⟨mem', hsort, hlist, -⟩ := hrun 5 (by decide)
  exact ⟨mem', hsort, Y, hlist, hties, hasc⟩

/-- **Ordered insertion agrees with sorting.** -/
theorem insert_ordered_sorts (h : IsList mem l []) (hN : Elems {x | x ∈ xs ++ listNodes l []})
    (hnd : (xs ++ listNodes l []).Nodup) (hless : StrictWeak less) :
    ∃ Y : List Vaddr, ∀ n, xs.length < n →
      (∃ mem', PageMem.insertAll l less n mem xs = .ok mem' ∧ IsList mem' l Y) ∧
      ∃ mem₁ mem', PageMem.pushAll l mem xs = .ok mem₁ ∧ mem₁.listSort l less n = .ok mem' ∧ IsList mem' l Y := by
  refine ⟨listSort less xs, fun n hn => ⟨?_, ?_⟩⟩
  · obtain ⟨mem', hins, hlist⟩ := IsList.insertAll (n := n) hN less h (fun _ hx => hx) hnd
      (by rw [List.length_nil]; omega)
    rw [foldl_listInsertOrdered hless] at hlist
    exact ⟨mem', hins, hlist⟩
  · obtain ⟨mem₁, hpush, h₁⟩ := IsList.pushAll hN h (fun _ hx => hx) hnd
    obtain ⟨β, _, key, hkey⟩ := hless.exists_key
    have hby : ByKey less key := ⟨hkey⟩
    have hsub : ∀ x ∈ listNodes l xs, x ∈ {x | x ∈ xs ++ listNodes l []} := by
      intro x hx
      show x ∈ xs ++ listNodes l []
      simp only [listNodes, List.nil_append, List.mem_cons, List.mem_append, List.not_mem_nil, or_false] at hx ⊢
      tauto
    obtain ⟨mem', hsort, hlist, -⟩ := IsList.sort h₁ hby hN hsub hn
    exact ⟨mem₁, mem', hpush, hsort, hlist⟩

theorem insert_ordered_sorts_four : ∃ mem' mem₁ mem₂ Y,
    PageMem.insertAll 1024 blockLess 5 emptyLists [96, 32, 112, 48] = .ok mem' ∧
    PageMem.pushAll 1024 emptyLists [96, 32, 112, 48] = .ok mem₁ ∧
    mem₁.listSort 1024 blockLess 5 = .ok mem₂ ∧ IsList mem' 1024 Y ∧ IsList mem₂ 1024 Y := by
  have hN : Elems {x | x ∈ [96, 32, 112, 48] ++ listNodes 1024 []} := .of_elemsApart (by decide +kernel)
  have hlist : IsList emptyLists 1024 [] := by decide +kernel
  obtain ⟨Y, hrun⟩ := insert_ordered_sorts hlist hN (by decide) blockLess_strictWeak
  obtain ⟨⟨mem', hins, h₁⟩, mem₁, mem₂, hpush, hsort, h₂⟩ := hrun 5 (by decide)
  exact ⟨mem', mem₁, mem₂, Y, hins, hpush, hsort, h₁, h₂⟩

/-- **`list_unique` keeps one of each run and loses nothing**; of a sorted list no two elements that stay are tied. -/
theorem list_unique_runs (h : IsPair mem l d X D) (hN : Elems {x | x ∈ listNodes l X ++ listNodes d D})
    (hless : StrictWeak less) :
    (∀ n, X.length ≤ n → ∃ mem', mem.listUnique l d less n = .ok mem' ∧
      IsPair mem' l d (firsts (tied less) X) (D ++ others (tied less) X)) ∧
    (firsts (tied less) X ++ others (tied less) X).Perm X ∧
    (Ascending less X → (firsts (tied less) X).Pairwise fun x y => tied less x y = false) := by
  refine ⟨fun n hn => ?_, firsts_others_perm _ X, firsts_not_tied hless⟩
  obtain ⟨mem', hrun, hpair⟩ := h.unique hN (fun _ hx => hx) less hn
  rw [listUnique_eq hless] at hpair
  exact ⟨mem', hrun, hpair⟩

theorem list_unique_runs_four : ∃ mem', (someElems [96, 112, 32, 48]).listUnique 1024 2048 blockLess 4 = .ok mem' ∧
    IsPair mem' 1024 2048 [96, 32] [112, 48] := by
  have hN : Elems {x | x ∈ listNodes 1024 [96, 112, 32, 48] ++ listNodes 2048 []} :=
    .of_elemsApart (by decide +kernel)
  have hpair : IsPair (someElems [96, 112, 32, 48]) 1024 2048 [96, 112, 32, 48] [] :=
    ⟨by decide +kernel, by decide +kernel, by decide⟩
  obtain ⟨mem', hrun, hpair'⟩ := (list_unique_runs hpair hN blockLess_strictWeak).1 4 (by decide)
  exact ⟨mem', hrun, hpair'⟩

end

end Pintos
