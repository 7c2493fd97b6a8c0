import Pintos.Lib.Machine
import Pintos.Lib.RadixTree
import Pintos.Threads.Mmu

/-!
# Page tables of many processes

The tables of `Pintos/Threads/Mmu.lean` are radix trees (`Pintos/Lib/RadixTree.lean`). A walk that
creates tables only adds fresh ones below the entry it goes through.

* `Walked` — what the walk functions do to a tree
-/

namespace Pintos

open Function Machine RadixTree

/-- The table or frame an entry refers to. -/
def child (e : BitVec 64) : Option Vaddr := if present e then some (ptov (PTE_ADDR e)) else none

theorem child_zero : child 0 = none := by
  unfold child
  rw [if_neg (by decide)]

theorem child_some {e : BitVec 64} {d : Vaddr} (h : child e = some d) :
    present e = true ∧ ptov (PTE_ADDR e) = d := by
  unfold child at h
  split at h
  · next hp => exact ⟨hp, Option.some.inj h⟩
  · cases h

theorem child_none {e : BitVec 64} : child e = none ↔ present e = false := by
  unfold child
  split
  · next hp => simp [hp]
  · next hp => simpa using hp

/-- An entry made from the address of a page. -/
theorem child_entry {page f : BitVec 64} (h : Aligned page) (hf : f.toNat < 4096)
    (hp : f.toNat % 2 = 1) : child (vtop page ||| f) = some page := by
  unfold child
  rw [if_pos (present_entry (aligned_vtop h) hf hp), pteAddr_entry (aligned_vtop h) hf, ptov_vtop]

/-- A tree of tables in pages of the kernel pool that are in use. -/
structure Tables (s : Pools) (n : Nat) (table : Vaddr) : Prop where
  sep : Sep child s.mem n table
  used : ∀ q ∈ pages child s.mem n table, s.Used false q

variable {s s' : Pools} {n : Nat} {table c d : Vaddr} {idx : Idx} {create : Bool}

theorem Tables.ne_zero (h : s.Ok) (ht : Tables s n table) : table ≠ 0 :=
  Pool.Used.ne_zero (h.pool false) (ht.used table mem_pages_self)

theorem Tables.zero_notMem (h : s.Ok) (ht : Tables s n table) : (0 : Vaddr) ∉ pages child s.mem n table :=
  fun h0 => Pool.Used.ne_zero (h.pool false) (ht.used 0 h0) rfl

theorem Tables.disjoint (h : s.Ok) (ht : Tables s n table) :
    Disjoint {q | s.Free false q} (pages child s.mem n table) :=
  Set.disjoint_left.mpr fun q hq hp => Pool.Used.not_free (h.pool false) (ht.used q hp) hq

/-- A blank table `d` was linked to the entry `idx` of `table`. -/
structure Linked (s s' : Pools) (n : Nat) (table : Vaddr) (idx : Idx) (d : Vaddr) : Prop where
  ok : s'.Ok
  was : child (s.mem table idx) = none
  entry : child (s'.mem table idx) = some d
  blank : ∀ k, s'.mem d k = 0
  free : s.Free false d
  grows : Grows child 0 s.mem s'.mem (n + 1) table {d}
  aside : Aside child s.mem s'.mem n table idx
  used : ∀ q, s'.Used false q ↔ s.Used false q ∨ q = d
  freed : ∀ q, s'.Free false q ↔ s.Free false q ∧ q ≠ d
  user : s'.userPool = s.userPool
  others : ∀ j, j ≠ idx → s'.mem table j = s.mem table j
  frame : ∀ q, q ≠ table → q ≠ d → s'.mem q = s.mem q

theorem ensureTable_spec (h : s.Ok) (ht : Tables s (n + 1) table) (idx : Idx) (create : Bool) :
    ∃ o s', s.ensureTable table idx create = .ok (o, s') ∧
      ((o = none ∧ s' = s) ∨
        (o = some false ∧ s' = s ∧ ∃ d, child (s.mem table idx) = some d) ∨
        (o = some true ∧ ∃ d, Linked s s' n table idx d)) := by
  unfold Pools.ensureTable
  split
  · next hp =>
    exact ⟨_, _, rfl, Or.inr (Or.inl ⟨rfl, rfl, _, if_pos hp⟩)⟩
  next hp =>
  have hnone : child (s.mem table idx) = none := child_none.mpr (by simpa using hp)
  split
  · cases hg : s.pallocGetPage { zero := true } with
    | error e =>
      -- without `PAL_ASSERT` the allocator does not stop the kernel
      unfold Pools.pallocGetPage Pools.pallocGetMultiple at hg
      simp only at hg
      split at hg
      · cases hg
      · cases hg
    | ok r =>
      obtain ⟨o, s₁⟩ := r
      rcases Pools.getPage_spec h hg with ⟨rfl, rfl⟩ | ⟨d, rfl, hgot⟩
      · exact ⟨_, _, rfl, Or.inl ⟨rfl, rfl⟩⟩
      · have hfree : s.Free false d := hgot.free
        have halign := Pool.Free.aligned (h.pool false) hfree
        have hkernel : isKernelVaddr d = true := Pool.Free.kernel (h.pool false) hfree
        have hdt : table ≠ d := by
          rintro rfl
          exact Pool.Used.not_free (h.pool false) (ht.used _ mem_pages_self) hfree
        have hmem : s₁.mem = update s.mem d fun _ => 0 := hgot.mem
        have hchild : child (vtop d ||| (PTE_U ||| PTE_W ||| PTE_P)) = some d :=
          child_entry halign (by decide) (by decide)
        refine ⟨_, _, by simp only [hkernel, if_true]; rfl, Or.inr (Or.inr ⟨rfl, d, ?_⟩)⟩
        have hentry : child ((s₁.setEntry (table, idx)
            (vtop d ||| (PTE_U ||| PTE_W ||| PTE_P))).mem table idx) = some d := by
          simp [Pools.setEntry, hchild]
        have hothers : ∀ j, j ≠ idx → (s₁.setEntry (table, idx)
            (vtop d ||| (PTE_U ||| PTE_W ||| PTE_P))).mem table j = s.mem table j := by
          intro j hj
          simp [Pools.setEntry, hj, hmem, hdt]
        have hframe : ∀ q, q ≠ table → q ≠ d → (s₁.setEntry (table, idx)
            (vtop d ||| (PTE_U ||| PTE_W ||| PTE_P))).mem q = s.mem q := by
          intro q hq hqd
          simp [Pools.setEntry, hq, hmem, hqd]
        have hblank : ∀ k, (s₁.setEntry (table, idx)
            (vtop d ||| (PTE_U ||| PTE_W ||| PTE_P))).mem d k = 0 := by
          intro k
          simp [Pools.setEntry, Ne.symm hdt, hmem]
        have hfresh : Disjoint ({d} : Set Vaddr) (pages child s.mem (n + 1) table) := by
          refine Set.disjoint_left.mpr ?_
          rintro q rfl hq
          exact Pool.Used.not_free (h.pool false) (ht.used q hq) hfree
        obtain ⟨hgrows, haside⟩ := Grows.link (z := 0) ht.sep hnone hfresh rfl
          (fun k => by rw [hblank k]; exact child_zero) hblank hentry hothers
          (fun q hq hqd => hframe q hq hqd)
        exact {
          ok := hgot.ok.congr (fun _ => rfl) (fun _ => rfl)
          was := hnone
          entry := hentry
          blank := hblank
          free := hfree
          grows := hgrows
          aside := haside
          used := hgot.used
          freed := hgot.freed
          user := hgot.other true (by decide)
          others := hothers
          frame := hframe }
  · exact ⟨_, _, rfl, Or.inl ⟨rfl, rfl⟩⟩

/-! ## A walk -/

/-- A walk from the table `c` along `path` ended in the entry `o`, or failed. -/
structure Walked (s s' : Pools) (n : Nat) (c : Vaddr) (path : List Idx) (o : Option PtePtr) :
    Prop where
  ok : s'.Ok
  grows : Grows child 0 s.mem s'.mem n c {q | s.Free false q}
  used : ∀ q, s'.Used false q ↔ s.Used false q ∨ q ∈ pages child s'.mem n c
  freed : ∀ q, s'.Free false q → s.Free false q
  user : s'.userPool = s.userPool
  slot : ∀ r, o = some r → slot child s'.mem c path = some r
  failed : o = none → pages child s'.mem n c = pages child s.mem n c

theorem Tables.walked (h : s.Ok) (ht : Tables s n c) (path : List Idx) :
    Walked s s n c path none where
  ok := h
  grows := Grows.refl ht.sep
  used q := ⟨Or.inl, fun hq => hq.elim id (ht.used q)⟩
  freed _ hq := hq
  user := rfl
  slot := fun _ hr => nomatch hr
  failed _ := rfl

theorem Walked.tables {path : List Idx} {o : Option PtePtr} (hw : Walked s s' n c path o) :
    Tables s' n c where
  sep := hw.grows.sep
  used q hq := (hw.used q).mpr (Or.inr hq)

/-- A function that walks `path` down a tree with `n` levels below its root. -/
def Walks (next : Pools → Vaddr → Except Panic (Option PtePtr × Pools)) (n : Nat)
    (path : List Idx) : Prop :=
  ∀ s c, s.Ok → Tables s n c → ∃ o s', next s c = .ok (o, s') ∧ Walked s s' n c path o

/-- The walk goes on below an entry that refers to a table. -/
theorem Walked.descend (h : s.Ok) (ht : Tables s (n + 1) table) {d : Vaddr}
    (hd : child (s.mem table idx) = some d) {path : List Idx} (hpath : path ≠ [])
    {o : Option PtePtr} (hw : Walked s s' n d path o) :
    Walked s s' (n + 1) table (idx :: path) o ∧ Aside child s.mem s'.mem n table idx ∧
      s'.mem table = s.mem table := by
  obtain ⟨hgrows, haside, hc, hsub⟩ := Grows.descend ht.sep hd (ht.disjoint h) hw.grows
  have hd' : child (s'.mem table idx) = some d := by rw [hc]; exact hd
  refine ⟨⟨hw.ok, hgrows, ?_, hw.freed, hw.user, ?_, ?_⟩, haside, hc⟩
  · intro q
    rw [hw.used]
    constructor
    · rintro (hq | hq)
      · exact Or.inl hq
      · exact Or.inr (pages_subset hd' hq)
    · rintro (hq | hq)
      · exact Or.inl hq
      · rcases hsub hq with hq | hq
        · exact Or.inl (ht.used q hq)
        · exact Or.inr hq
  · intro r hr
    rw [slot_cons hpath, hd']
    exact hw.slot r hr
  · intro ho
    refine Set.Subset.antisymm ?_ hgrows.sub
    intro q hq
    rcases hsub hq with hq | hq
    · exact hq
    · rw [hw.failed ho] at hq
      exact pages_subset hd hq

/-- After linking `d`, the tree has one more table. -/
theorem Linked.tables (ht : Tables s (n + 1) table) (hl : Linked s s' n table idx d) :
    Tables s' (n + 1) table where
  sep := hl.grows.sep
  used q hq := by
    rw [hl.used]
    rcases hl.grows.new hq with hq | hq
    · exact Or.inl (ht.used q hq)
    · exact Or.inr hq

theorem Linked.pages_child (hl : Linked s s' n table idx d) : pages child s'.mem n d = {d} :=
  Grows.pages_blank (fun k => by rw [hl.blank k]; exact child_zero) n

/-- The walk below the new table succeeded. -/
theorem Linked.walked (hl : Linked s s' n table idx d) {s₂ : Pools} {path : List Idx}
    {r : PtePtr} (hw : Walked s' s₂ (n + 1) table path (some r))
    (hd : d ∈ pages child s₂.mem (n + 1) table) :
    Walked s s₂ (n + 1) table path (some r) where
  ok := hw.ok
  grows := by
    refine (hl.grows.mono ?_).trans (hw.grows.mono fun q hq => ((hl.freed q).mp hq).1)
    rintro q rfl
    exact hl.free
  used q := by
    rw [hw.used, hl.used]
    constructor
    · rintro ((hq | rfl) | hq)
      · exact Or.inl hq
      · exact Or.inr hd
      · exact Or.inr hq
    · rintro (hq | hq)
      · exact Or.inl (Or.inl hq)
      · exact Or.inr hq
  freed q hq := ((hl.freed q).mp (hw.freed q hq)).1
  user := hw.user.trans hl.user
  slot := hw.slot
  failed := fun ho => nomatch ho

/-- The walk below the new table failed, and the table is given back. -/
theorem Linked.undone (h : s.Ok) (ht : Tables s (n + 1) table) (hl : Linked s s' n table idx d)
    {s₂ s₃ : Pools} {path : List Idx} (hw : Walked s' s₂ n d path none)
    (hc : s₂.mem table = s'.mem table) (hg : Pools.GaveBack s₂ s₃ false d) :
    Walked s (s₃.setEntry (table, idx) 0) (n + 1) table (idx :: path) none ∧
      Aside child s.mem (s₃.setEntry (table, idx) 0).mem n table idx := by
  have hdt : table ≠ d := by
    rintro rfl
    exact Pool.Used.not_free (h.pool false) (ht.used _ mem_pages_self) hl.free
  have hentry : ∀ j, j ≠ idx → (s₃.setEntry (table, idx) 0).mem table j = s.mem table j := by
    intro j hj
    have hj₂ : s₂.mem table j = s.mem table j := by rw [hc]; exact hl.others j hj
    simp [Pools.setEntry, hj, hg.mem, hdt, hj₂]
  have hframe : ∀ q, q ≠ table → q ∉ {q | s.Free false q} →
      (s₃.setEntry (table, idx) 0).mem q = s.mem q := by
    intro q hq hf
    have hqd : q ≠ d := by
      rintro rfl
      exact hf hl.free
    have hq₂ : s₂.mem q = s'.mem q := by
      refine hw.grows.frame q ?_ fun hc => hf ((hl.freed q).mp hc).1
      rw [hl.pages_child]
      exact hqd
    simp [Pools.setEntry, hq, hg.mem, hqd, hq₂, hl.frame q hq hqd]
  have hi : child ((s₃.setEntry (table, idx) 0).mem table idx) = none := by
    have hz : (s₃.setEntry (table, idx) 0).mem table idx = 0 := by simp [Pools.setEntry]
    rw [hz]
    exact child_zero
  obtain ⟨hgrows, haside, hpages⟩ := Grows.undo (z := 0) ht.sep hl.was (ht.disjoint h) hi hentry
    hframe
  refine ⟨⟨hg.ok.congr (fun _ => rfl) (fun _ => rfl), hgrows, ?_, ?_, ?_, ?_, fun _ => hpages⟩,
    haside⟩
  · intro q
    have hu : (s₃.setEntry (table, idx) 0).Used false q ↔ s₃.Used false q := Iff.rfl
    rw [hu, hg.used, hw.used, hl.used, hw.failed rfl, hl.pages_child, hpages]
    constructor
    · rintro ⟨(hq | hq) | hq, hne⟩
      · exact Or.inl hq
      · exact absurd hq hne
      · exact absurd hq hne
    · intro hq
      have hused : s.Used false q := hq.elim id (ht.used q)
      refine ⟨Or.inl (Or.inl hused), ?_⟩
      rintro rfl
      exact Pool.Used.not_free (h.pool false) hused hl.free
  · intro q hq
    rcases (hg.freed q).mp hq with hq | rfl
    · exact ((hl.freed q).mp (hw.freed q hq)).1
    · exact hl.free
  · have huser : s₃.userPool = s₂.userPool := hg.other true (by decide)
    exact huser.trans (hw.user.trans hl.user)
  · exact fun _ hr => nomatch hr

theorem walkLevel_spec {next : Pools → Vaddr → Except Panic (Option PtePtr × Pools)}
    {path : List Idx} (hpath : path ≠ []) (hnext : Walks next n path) (h : s.Ok)
    (ht : Tables s (n + 1) table) :
    ∃ o s', Pools.walkLevel idx create next s table = .ok (o, s') ∧
      Walked s s' (n + 1) table (idx :: path) o ∧ Aside child s.mem s'.mem n table idx := by
  unfold Pools.walkLevel
  rw [if_neg (ht.ne_zero h)]
  obtain ⟨o, s₁, he, ⟨rfl, rfl⟩ | ⟨rfl, rfl, d, hd⟩ | ⟨rfl, d, hl⟩⟩ := ensureTable_spec h ht idx create
  · rw [he]
    exact ⟨_, _, rfl, ht.walked h _, ⟨fun _ _ => rfl, fun _ _ _ _ => rfl⟩⟩
  · -- the table is there
    rw [he]
    have hnt : s₁.nextTable table idx = d := (child_some hd).2
    obtain ⟨o, s₂, hn, hw⟩ := hnext s₁ d h
      ⟨(ht.sep.1 idx d hd).1, fun q hq => ht.used q (pages_subset hd hq)⟩
    obtain ⟨hw', haside, -⟩ := hw.descend h ht hd hpath
    simp only [hnt, hn]
    cases o with
    | none => exact ⟨_, _, rfl, hw', haside⟩
    | some r => exact ⟨_, _, rfl, hw', haside⟩
  · -- a new table
    rw [he]
    have hnt : s₁.nextTable table idx = d := (child_some hl.entry).2
    have ht₁ := hl.tables ht
    obtain ⟨o, s₂, hn, hw⟩ := hnext s₁ d hl.ok
      ⟨(ht₁.sep.1 idx d hl.entry).1, fun q hq => ht₁.used q (pages_subset hl.entry hq)⟩
    obtain ⟨hw', haside, hc⟩ := hw.descend hl.ok ht₁ hl.entry hpath
    simp only [hnt, hn]
    cases o with
    | some r =>
      have hd₂ : child (s₂.mem table idx) = some d := by rw [hc]; exact hl.entry
      exact ⟨_, _, rfl, hl.walked hw' (pages_subset hd₂ mem_pages_self), hl.aside.trans haside⟩
    | none =>
      have hnt₂ : s₂.nextTable table idx = d := by
        rw [Pools.nextTable, hc]
        exact (child_some hl.entry).2
      have hused : s₂.Used false d := (hw.used d).mpr (Or.inr mem_pages_self)
      obtain ⟨s₃, hf, hg⟩ := Pools.freePage_of_used hw.ok hused
      simp only [hnt₂, hf, if_true]
      exact ⟨_, _, rfl, hl.undone h ht hw hc hg⟩

/-- At the last table the walk is at its end. -/
theorem walks_leaf (i : Idx) : Walks (fun s d => .ok (some (d, i), s)) 0 [i] := by
  intro s c h ht
  refine ⟨_, _, rfl, { ht.walked h [i] with slot := ?_, failed := ?_ }⟩
  · intro r hr
    exact hr
  · exact fun hr => nomatch hr

theorem pgdirWalk_eq (va : Vaddr) (create : Bool) :
    Pools.pgdirWalk va create =
      Pools.walkLevel (PDX va) create fun s d => .ok (some (d, PTX va), s) := by
  funext s pdp
  unfold Pools.pgdirWalk Pools.walkLevel
  rfl

theorem walks_pgdir (va : Vaddr) (create : Bool) :
    Walks (Pools.pgdirWalk va create) 1 [PDX va, PTX va] := by
  intro s c h ht
  rw [pgdirWalk_eq]
  obtain ⟨o, s', he, hw, -⟩ := walkLevel_spec (by simp) (walks_leaf (PTX va)) h ht
  exact ⟨o, s', he, hw⟩

theorem walks_pdpe (va : Vaddr) (create : Bool) :
    Walks (Pools.pdpeWalk va create) 2 [PDPE va, PDX va, PTX va] := by
  intro s c h ht
  obtain ⟨o, s', he, hw, -⟩ := walkLevel_spec (by simp) (walks_pgdir va create) h ht
  exact ⟨o, s', he, hw⟩

/-- **`pml4e_walk`** never stops the kernel, and keeps the tree and its leaves. -/
theorem pml4eWalk_spec (h : s.Ok) (ht : Tables s 3 c) (va : Vaddr) (create : Bool) :
    ∃ o s', s.pml4eWalk va create c = .ok (o, s') ∧ Walked s s' 3 c (walkPath va) o ∧
      Aside child s.mem s'.mem 2 c (PML4 va) :=
  walkLevel_spec (by simp) (walks_pdpe va create) h ht

/-- Without `create`, a walk only looks. -/
def Looks (next : Pools → Vaddr → Except Panic (Option PtePtr × Pools)) (n : Nat)
    (path : List Idx) : Prop :=
  ∀ s c, (0 : Vaddr) ∉ pages child s.mem n c → next s c = .ok (slot child s.mem c path, s)

theorem walkLevel_looks {next : Pools → Vaddr → Except Panic (Option PtePtr × Pools)}
    {i : Idx} {path : List Idx} (hpath : path ≠ []) (hnext : Looks next n path) :
    Looks (Pools.walkLevel i false next) (n + 1) (i :: path) := by
  intro s c h0
  have hc : c ≠ 0 := by
    rintro rfl
    exact h0 mem_pages_self
  unfold Pools.walkLevel Pools.ensureTable
  rw [if_neg hc, slot_cons hpath]
  by_cases hp : present (s.mem c i) = true
  · have hd : child (s.mem c i) = some (s.nextTable c i) := if_pos hp
    have hn := hnext s _ fun hq => h0 (pages_subset hd hq)
    rw [hd, Option.bind_some]
    cases hs : slot child s.mem (s.nextTable c i) path with
    | none => simp [hp, hn, hs]
    | some r => simp [hp, hn, hs]
  · have hn : child (s.mem c i) = none := if_neg hp
    simp [hp, hn]

theorem pml4eWalk_slot (h0 : (0 : Vaddr) ∉ pages child s.mem 3 c) (va : Vaddr) :
    s.pml4eWalk va false c = .ok (slot child s.mem c (walkPath va), s) := by
  have hleaf : Looks (fun s d => .ok (some (d, PTX va), s)) 0 [PTX va] := fun s c _ => rfl
  have hpgdir : Looks (Pools.pgdirWalk va false) 1 [PDX va, PTX va] := by
    rw [pgdirWalk_eq]
    exact walkLevel_looks (by simp) hleaf
  have hpdpe : Looks (Pools.pdpeWalk va false) 2 [PDPE va, PDX va, PTX va] :=
    walkLevel_looks (by simp) hpgdir
  exact walkLevel_looks (i := PML4 va) (by simp) hpdpe s c h0

theorem pml4eWalk_looks (h : s.Ok) (ht : Tables s 3 c) (va : Vaddr) :
    s.pml4eWalk va false c = .ok (slot child s.mem c (walkPath va), s) :=
  pml4eWalk_slot (ht.zero_notMem h) va

end Pintos
