import Mathlib.Data.List.Lex
import Pintos.Properties.Isolation
import Pintos.Threads.ForEach

/-!
# `pml4_for_each` visits each mapping once

The functions of `Pintos/Threads/ForEach.lean` on a tree of tables (`Pintos/Lib/Traversal.lean`), with a function that
changes no entry of the tree but the one it is called on.

* `leafCalls` — the calls for the entries of a tree that are present, in the order of their addresses
* `ptForEach_visits`, `forEachTable_visits` — each of the functions makes them, as long as it is told to go on
* `pml4_for_each_visits` — `pml4_for_each`, with the addresses a walk leads back from
-/

namespace Pintos

open RadixTree Calling

variable {α : Type*} {func : PteForEachFunc α} {m : PageMem} {T : Set Vaddr} {n : Nat} {pre : List Idx}

/-- A four-level table. No table is used twice in it, or lies in the page 0. -/
structure FourLevel (m : PageMem) (pml4 : Vaddr) : Prop where
  sep : Sep child m 3 pml4
  ne_zero : (0 : Vaddr) ∉ pages child m 3 pml4

/-- The tables the kernel makes are so. -/
theorem Tables.fourLevel {s : Pools} {pml4 : Vaddr} (h : s.Ok) (ht : Tables s 3 pml4) : FourLevel s.mem pml4 :=
  ⟨ht.sep, ht.zero_notMem h⟩

/-- In a run whose pages are all set below 2^39, the tables of the processes and of the kernel are so. -/
theorem MmuInv.fourLevel {s : Mmu} {pml4 : Vaddr} (h : MmuInv s) (hp : pml4 = s.basePml4 ∨ pml4 ∈ s.tables) :
    FourLevel s.mem pml4 := by
  rcases hp with rfl | hp
  · exact h.inv.kernel.tables.fourLevel h.inv.ok
  · exact (h.inv.table pml4 hp).tables.fourLevel h.inv.ok

/-- The function returns, and changes no entry of the tables `T` but the one it is called on. -/
structure OnlyEntry (func : PteForEachFunc α) (T : Set Vaddr) : Prop where
  returns : ∀ pte va s, ∃ b s', func pte va s = .ok (b, s')
  keeps : ∀ pte va s b s', func pte va s = .ok (b, s') →
    ∀ q ∈ T, ∀ k, (q, k) ≠ pte → s'.1.mem q k = s.1.mem q k

/-- The function, on a pair. -/
def callOn (func : PteForEachFunc α) (a : PtePtr × Vaddr) : Pools × α → Except Panic (Bool × (Pools × α)) :=
  func a.1 a.2

theorem OnlyEntry.calls {l L : List (PtePtr × Vaddr)} {s s' : Pools × α} {b : Bool} {q : Vaddr} {k : Idx}
    (hf : OnlyEntry func T) (h : Calls (callOn func) s l b s') (hl : l ⊆ L) (hq : q ∈ T)
    (hno : ∀ a ∈ L, a.1 ≠ (q, k)) : s'.1.mem q k = s.1.mem q k := by
  refine Calls.keeps (R := fun s s' => s'.1.mem q k = s.1.mem q k) (fun _ => rfl) ?_ ?_ h hl
  · intro s s₁ s' h₁ h₂
    exact h₂.trans h₁
  · exact fun a ha s b s' he => hf.keeps a.1 a.2 s b s' he q hq k (hno a ha).symm

/-! ## The calls -/

/-- The calls for what is present below `c`, to which `pre` leads. -/
def leafCalls (m : PageMem) (n : Nat) (pre : List Idx) (c : Vaddr) : List (PtePtr × Vaddr) :=
  ((leaves child Pools.indices m n c).filter fun v => present (m v.2.1 v.2.2)).map fun v => (v.2, pathVa (pre ++ v.1))

theorem mem_leafCalls {c : Vaddr} {a : PtePtr × Vaddr} : a ∈ leafCalls m n pre c ↔ ∃ path : List Idx,
    path.length = n + 1 ∧ slot child m c path = some a.1 ∧ present (m a.1.1 a.1.2) = true ∧
      a.2 = pathVa (pre ++ path) := by
  obtain ⟨pte, va⟩ := a
  simp only [leafCalls, List.mem_map, List.mem_filter, mem_leaves mem_indices, Prod.mk.injEq]
  constructor
  · rintro ⟨v, ⟨⟨hl, hs⟩, hp⟩, rfl, rfl⟩
    exact ⟨v.1, hl, hs, hp, rfl⟩
  · rintro ⟨path, hl, hs, hp, rfl⟩
    exact ⟨(path, pte), ⟨⟨hl, hs⟩, hp⟩, rfl, rfl⟩

theorem leafCalls_mem_pages {c : Vaddr} {a : PtePtr × Vaddr} (h : a ∈ leafCalls m n pre c) :
    a.1.1 ∈ pages child m n c := by
  obtain ⟨path, hl, hs, -, -⟩ := mem_leafCalls.mp h
  exact slot_mem hl hs

/-- The calls for the entry `i` of `c`. -/
def underCalls (m : PageMem) (n : Nat) (pre : List Idx) (c : Vaddr) (i : Idx) : List (PtePtr × Vaddr) :=
  match child (m c i) with
  | none => []
  | some d => leafCalls m n (pre ++ [i]) d

theorem leafCalls_succ (c : Vaddr) :
    leafCalls m (n + 1) pre c = Pools.indices.flatMap (underCalls m n pre c) := by
  rw [leafCalls, leaves, List.filter_flatMap, List.map_flatMap]
  refine congrArg (Pools.indices.flatMap ·) (funext fun i => ?_)
  unfold under underCalls
  cases child (m c i) with
  | none => rfl
  | some d => simp [leafCalls, List.filter_map, Function.comp_def]

theorem leafCalls_zero (c : Vaddr) : leafCalls m 0 pre c = Pools.indices.flatMap fun i =>
    if present (m c i) then [((c, i), pathVa (pre ++ [i]))] else [] := by
  rw [leafCalls, leaves, List.map_eq_flatMap (l := Pools.indices), List.filter_flatMap, List.map_flatMap]
  refine congrArg (Pools.indices.flatMap ·) (funext fun i => ?_)
  by_cases hp : present (m c i) = true
  · simp [hp]
  · simp [hp]

theorem mem_underCalls {c : Vaddr} {i : Idx} {a : PtePtr × Vaddr} : a ∈ underCalls m n pre c i ↔
    ∃ d, child (m c i) = some d ∧ a ∈ leafCalls m n (pre ++ [i]) d := by
  unfold underCalls
  cases child (m c i) with
  | none => simp
  | some d => simp

/-! ## The loops -/

/-- The calls of one loop over the entries are those of its rounds. Outside its own calls a round may rely on `m`. -/
theorem indices_visit {body : Idx → Pools × α → Except Panic (Bool × (Pools × α))}
    {calls : Idx → List (PtePtr × Vaddr)} {X : Set Vaddr} (hf : OnlyEntry func T) (hX : X ⊆ T)
    (hbody : ∀ i s, (∀ q ∈ X, ∀ k, (∀ j, j ≠ i → ∀ a ∈ calls j, a.1 ≠ (q, k)) → s.1.mem q k = m q k) →
      ∃ b s', body i s = .ok (b, s') ∧ Visits (callOn func) s (calls i) b s')
    {s : Pools × α} (hs : ∀ q ∈ X, s.1.mem q = m q) :
    ∃ b s', untilFalse body s Pools.indices = .ok (b, s') ∧
      Visits (callOn func) s (Pools.indices.flatMap calls) b s' := by
  refine untilFalse_visits (fun rest s => rest.Nodup ∧
    ∀ q ∈ X, ∀ k, (∀ j ∉ rest, ∀ a ∈ calls j, a.1 ≠ (q, k)) → s.1.mem q k = m q k) ?_ _ s
    ⟨nodup_indices, fun q hq k _ => by rw [hs q hq]⟩
  rintro i rest s ⟨hnd, hm⟩
  obtain ⟨hi, hnd⟩ := List.nodup_cons.mp hnd
  obtain ⟨b, s', he, hv⟩ := hbody i s fun q hq k hno => hm q hq k fun j hj =>
    hno j fun hji => hj (hji ▸ List.mem_cons_self)
  refine ⟨b, s', he, hv, fun _ => ⟨hnd, fun q hq k hno => ?_⟩⟩
  obtain ⟨l, hl, hpre, -⟩ := hv
  rw [hf.calls hl hpre.subset (hX hq) (hno i hi)]
  exact hm q hq k fun j hj => hno j fun hjr => hj (List.mem_cons_of_mem i hjr)

/-- The function `run` makes the calls for a tree with `n` levels below its root. -/
def VisitsTree (func : PteForEachFunc α) (T : Set Vaddr) (m : PageMem)
    (run : Pools × α → Vaddr → Except Panic (Bool × (Pools × α))) (n : Nat) (pre : List Idx) : Prop :=
  ∀ c s, Sep child m n c → pages child m n c ⊆ T → (∀ q ∈ pages child m n c, s.1.mem q = m q) →
    ∃ b s', run s c = .ok (b, s') ∧ Visits (callOn func) s (leafCalls m n pre c) b s'

theorem ptForEach_visits (hf : OnlyEntry func T) (pml4Index pdpIndex pdxIndex : Idx) :
    VisitsTree func T m (Pools.ptForEach func pml4Index pdpIndex pdxIndex) 0 [pml4Index, pdpIndex, pdxIndex] := by
  intro c s _ hT hs
  rw [leafCalls_zero]
  refine indices_visit hf hT (fun i s₁ hm => ?_) hs
  -- the other rounds have changed other entries only
  have hi : s₁.1.mem c i = m c i := by
    refine hm c mem_pages_self i fun j hj a ha hc => ?_
    split at ha
    · rw [List.mem_singleton.mp ha] at hc
      exact hj (congrArg Prod.snd hc)
    · cases ha
  simp only [hi]
  split
  · obtain ⟨b, s', he⟩ := hf.returns (c, i) (entryVa pml4Index pdpIndex pdxIndex i) s₁
    have hcall : callOn func ((c, i), pathVa ([pml4Index, pdpIndex, pdxIndex] ++ [i])) s₁ = .ok (b, s') := he
    exact ⟨b, s', he, .single hcall⟩
  · exact ⟨true, s₁, rfl, .nil s₁⟩

theorem forEachTable_visits {next : Idx → Pools × α → Vaddr → Except Panic (Bool × (Pools × α))}
    (hf : OnlyEntry func T) (hnext : ∀ i, VisitsTree func T m (next i) n (pre ++ [i])) :
    VisitsTree func T m (Pools.forEachTable next) (n + 1) pre := by
  intro c s hsep hT hs
  rw [leafCalls_succ]
  refine indices_visit hf hT (fun i s₁ hm => ?_) hs
  -- the calls are below `c`, and those of the other rounds not below this entry
  have hi : s₁.1.mem c i = m c i := by
    refine hm c mem_pages_self i fun j _ a ha hc => ?_
    obtain ⟨d, hd, ha⟩ := mem_underCalls.mp ha
    have hmem := leafCalls_mem_pages ha
    rw [hc] at hmem
    exact (hsep.1 j d hd).2 hmem
  have hread := child_ptov (m c i)
  simp only [hi]
  split
  · next hp =>
    rw [if_pos hp] at hread
    have hbelow : ∀ q ∈ pages child m n (PTE_ADDR (ptov (m c i))), s₁.1.mem q = m q := by
      refine fun q hq => funext fun k => hm q (pages_subset hread hq) k fun j hj a ha hc => ?_
      obtain ⟨d, hd, ha⟩ := mem_underCalls.mp ha
      have hmem := leafCalls_mem_pages ha
      rw [hc] at hmem
      exact hj (hsep.index hd hmem hread hq)
    rw [underCalls, hread]
    exact hnext i _ s₁ (hsep.1 i _ hread).1 (fun q hq => hT (pages_subset hread hq)) hbelow
  · next hp =>
    rw [if_neg hp] at hread
    rw [underCalls, hread]
    exact ⟨true, s₁, rfl, .nil s₁⟩

theorem pml4ForEach_visits (hf : OnlyEntry func T) : VisitsTree func T m (Pools.pml4ForEach func) 3 [] := by
  have hpgdir (i j : Idx) : VisitsTree func T m (Pools.pgdirForEach func i j) 1 [i, j] :=
    forEachTable_visits hf fun k => ptForEach_visits hf i j k
  have hpdp (i : Idx) : VisitsTree func T m (Pools.pdpForEach func i) 2 [i] :=
    forEachTable_visits hf fun j => hpgdir i j
  exact forEachTable_visits hf hpdp

/-! ## The whole table -/

theorem indices_sorted : Pools.indices.Pairwise (· < ·) := by
  rw [Pools.indices, List.pairwise_map]
  exact (List.pairwise_lt_finRange 512).imp fun h => h

theorem leafCalls_sorted {c : Vaddr} (hn : pre.length + (n + 1) = 4) :
    ((leafCalls m n pre c).map Prod.snd).Pairwise (· < ·) := by
  rw [leafCalls, List.map_map, List.pairwise_map]
  have hsorted : (leaves child Pools.indices m n c).Pairwise fun u v => List.Lex (· < ·) u.1 v.1 :=
    leaves_sorted indices_sorted
  refine (hsorted.filter _).imp_of_mem fun {u v} hu hv huv => ?_
  have hlen : ∀ v ∈ leaves child Pools.indices m n c, (pre ++ v.1).length = 4 := by
    intro v hv
    rw [List.length_append, ((mem_leaves mem_indices).mp hv).1, hn]
  exact pathVa_lt (hlen u (List.mem_of_mem_filter hu)) (hlen v (List.mem_of_mem_filter hv)) (huv.append_left _ pre)

theorem leafCalls_nodup {c : Vaddr} (hs : Sep child m n c) : ((leafCalls m n pre c).map Prod.fst).Nodup := by
  rw [leafCalls, List.map_map, List.Nodup, List.pairwise_map]
  have hsorted : (leaves child Pools.indices m n c).Pairwise fun u v => List.Lex (· < ·) u.1 v.1 :=
    leaves_sorted indices_sorted
  refine (hsorted.filter _).imp_of_mem fun {u v} hu hv huv hc => ?_
  rw [leaves_inj hs (List.mem_of_mem_filter hu) (List.mem_of_mem_filter hv) hc] at huv
  exact List.lex_irrefl BitVec.lt_irrefl _ huv

/-- **`pml4_for_each`** calls the function on each entry of the last level that is present once, in the order of their
addresses, or up to the first where it says false, which is then the result. A walk to such an address leads to the
entry, whatever part of the calls was made. -/
theorem pml4_for_each_visits (pml4 : Vaddr) (s : Pools × α) (ht : FourLevel s.1.mem pml4)
    (hf : OnlyEntry func (pages child s.1.mem 3 pml4)) :
    ∃ L : List (PtePtr × Vaddr),
      (L.map Prod.fst).Nodup ∧
      (∀ pte : PtePtr, pte ∈ L.map Prod.fst ↔ (∃ path : List Idx, path.length = 4 ∧
        slot child s.1.mem pml4 path = some pte) ∧ present (s.1.mem pte.1 pte.2) = true) ∧
      (L.map Prod.snd).Pairwise (· < ·) ∧
      (∀ a ∈ L, ∀ l b s₁, l <+: L → Calls (callOn func) s l b s₁ →
        s₁.1.pml4eWalk a.2 false pml4 = .ok (some a.1, s₁.1)) ∧
      ∃ b s', Pools.pml4ForEach func s pml4 = .ok (b, s') ∧ Visits (callOn func) s L b s' ∧
        ((∀ pte va s₁ s₂, func pte va s₁ ≠ .ok (false, s₂)) → b = true) := by
  refine ⟨leafCalls s.1.mem 3 [] pml4, leafCalls_nodup ht.sep, fun pte => ?_, leafCalls_sorted rfl, ?_, ?_⟩
  · simp only [List.mem_map, mem_leafCalls]
    constructor
    · rintro ⟨a, ⟨path, hl, hs, hp, -⟩, rfl⟩
      exact ⟨⟨path, hl, hs⟩, hp⟩
    · rintro ⟨⟨path, hl, hs⟩, hp⟩
      exact ⟨(pte, pathVa path), ⟨path, hl, hs, hp, rfl⟩, rfl⟩
  · intro a ha l b s₁ hpre hcalls
    obtain ⟨path, hl, hs, -, hva⟩ := mem_leafCalls.mp ha
    -- only leaves have been written
    have hsame : SameTables child s.1.mem s₁.1.mem 3 pml4 := by
      refine SameTables.of_leaves mem_indices ht.sep fun q k hq hno => hf.calls hcalls hpre.subset hq fun a ha hc => ?_
      obtain ⟨path, hl, hs, -, -⟩ := mem_leafCalls.mp ha
      exact hno (path, a.1) ((mem_leaves mem_indices).mpr ⟨hl, hs⟩) hc
    have h0 : (0 : Vaddr) ∉ pages child s₁.1.mem 3 pml4 := by
      rw [hsame.pages]
      exact ht.ne_zero
    have hwalk := pml4eWalk_slot h0 (pathVa path)
    rw [walkPath_pathVa hl, hsame.slot hl, hs] at hwalk
    rw [hva]
    exact hwalk
  · obtain ⟨b, s', he, hv⟩ := pml4ForEach_visits hf pml4 s ht.sep (fun q hq => hq) fun q _ => rfl
    refine ⟨b, s', he, hv, fun htrue => ?_⟩
    obtain ⟨l, hcalls, -, -⟩ := hv
    exact hcalls.all fun a s₁ s₂ => htrue a.1 a.2 s₁ s₂

/-- Marks an entry accessed, and counts it. -/
def countAccessed : PteForEachFunc Nat := fun pte _ s =>
  .ok (true, (s.1.setEntry pte (s.1.mem pte.1 pte.2 ||| PTE_A), s.2 + 1))

theorem countAccessed_onlyEntry : OnlyEntry countAccessed T where
  returns pte va s := ⟨_, _, rfl⟩
  keeps pte va s b s' he q _ k hne := by
    cases he
    simp only [Pools.setEntry]
    by_cases hq : q = pte.1
    · subst hq
      have hk : k ≠ pte.2 := fun hk => hne (Prod.ext rfl hk)
      rw [Function.update_self, Function.update_of_ne hk]
    · rw [Function.update_of_ne hq]

/-- A table that maps the user page 0x400000 and the pages of the kernel: every entry is counted. -/
theorem pml4_for_each_visits_table : ∃ (s : Mmu) (L : List (PtePtr × Vaddr)) (s' : Pools × Nat),
    s.tables = [0x8004104000] ∧ (L.map Prod.snd).Pairwise (· < ·) ∧
      (∃ a ∈ L, s.pml4eWalk 0x400000 false 0x8004104000 = .ok (some a.1, s.toPools)) ∧
      Pools.pml4ForEach countAccessed (s.toPools, 0) 0x8004104000 = .ok (true, s') ∧
      Calls (callOn countAccessed) (s.toPools, 0) L true s' := by
  have hrun : runs smallPools lowPages
      [.create, .pallocGet { user := true }, .setPage 0x8004104000 0x400000 0x8004200000 true]
      (fun s => decide (s.tables = [0x8004104000]) &&
        decide (s.installed 0x8004104000 (pgNo 0x400000) = some 0x8004200000)) = true := by decide +kernel
  obtain ⟨base, s₁, s, hinit, hreach, htest⟩ := of_runs lowPages_sound hrun
  simp only [Bool.and_eq_true, decide_eq_true_eq] at htest
  obtain ⟨htables, hset⟩ := htest
  have hinv := MmuInv.of_boot smallPools_ok (by decide) hinit (fun q hq => absurd hq List.not_mem_nil) hreach
  have hp : (0x8004104000 : Vaddr) ∈ s.tables := by simp [htables]
  obtain ⟨L, -, hmem, hsorted, -, b, s', he, hv, htrue⟩ :=
    pml4_for_each_visits 0x8004104000 (s.toPools, 0) (hinv.fourLevel (Or.inr hp)) countAccessed_onlyEntry
  obtain rfl := htrue nofun
  obtain ⟨l, hcalls, -, hall⟩ := hv
  obtain rfl := hall rfl
  refine ⟨s, l, s', htables, hsorted, ?_, he, hcalls⟩
  -- the entry of the user page is present
  have hmaps := (hinv.inv.table _ hp).maps 0x400000 (by decide)
  rw [hset, child_value] at hmaps
  obtain ⟨pte, hslot, hchild⟩ := Option.bind_eq_some_iff.mp hmaps
  obtain ⟨a, ha, rfl⟩ := List.mem_map.mp ((hmem pte).mpr ⟨⟨walkPath 0x400000, rfl, hslot⟩, (child_some hchild).1⟩)
  refine ⟨a, ha, ?_⟩
  rw [pml4eWalk_slot (hinv.fourLevel (Or.inr hp)).ne_zero, hslot]

end Pintos
