import Pintos.Properties.Isolation

/-!
# A page table as a map

The table of one process over its life: made by `pml4_create`, then `pml4_set_page`,
`pml4_clear_page` and `pml4_get_page` at any user addresses. The rest of the kernel takes and gives
back pages between two calls, so that any of the allocations of a call may fail.

* `Bindings` — the map a table stands for
* `Maps` — the table `p` is a tree of its own that holds the map
* `PageMap` — the machine
* `page_table_refines_map` — the table is the map, in every run
-/

namespace Pintos

open Function Machine RadixTree

/-- From the number of a user page to the frame and whether it may be written. -/
abbrev Bindings := BitVec 64 → Option (Vaddr × Bool)

/-- What an entry at the last level says. -/
def binding (e : BitVec 64) : Option (Vaddr × Bool) :=
  (child e).map fun frame => (frame, decide (e &&& PTE_W ≠ 0))

/-- The translation of a user address that the tables of `pml4` hold. -/
def Pools.translation (s : Pools) (pml4 va : Vaddr) : Option (Vaddr × Bool) :=
  binding (value child 0 s.mem pml4 (walkPath va))

theorem binding_zero : binding 0 = none := by
  rw [binding, child_zero]
  rfl

theorem binding_clear (e : BitVec 64) : binding (e &&& ~~~PTE_P) = none := by
  rw [binding, child_none.mpr (present_clear e)]
  rfl

/-- The bit of `PTE_W` in an entry with an aligned address. -/
theorem and_writable {a f : BitVec 64} (ha : Aligned a) : (a ||| f) &&& PTE_W = f &&& PTE_W := by
  have h : a &&& PTE_W = 0 := by
    have hsplit : PTE_W = PGMASK &&& PTE_W := by decide
    rw [hsplit, ← BitVec.and_assoc]
    have hz : a &&& PGMASK = 0 := ha
    rw [hz]
    exact BitVec.zero_and
  have hdistrib : (a ||| f) &&& PTE_W = (a &&& PTE_W) ||| (f &&& PTE_W) := by
    refine BitVec.eq_of_getLsbD_eq fun i _ => ?_
    simp [Bool.and_or_distrib_right]
  rw [hdistrib, h]
  exact BitVec.zero_or

/-- The entry `pml4_set_page` writes. -/
theorem binding_entry {kpage : Vaddr} {rw : Bool} (h : Aligned kpage) :
    binding (vtop kpage ||| (PTE_P ||| (if rw then PTE_W else 0) ||| PTE_U)) = some (kpage, rw) := by
  have hchild : child (vtop kpage ||| (PTE_P ||| (if rw then PTE_W else 0) ||| PTE_U)) = some kpage := by
    cases rw with
    | false => exact child_entry h (by decide) (by decide)
    | true => exact child_entry h (by decide) (by decide)
  rw [binding, hchild, and_writable (aligned_vtop h)]
  cases rw with
  | false => rfl
  | true => rfl

/-- User addresses on one page, and no others, take the same path. -/
theorem walkPath_user {a b : Vaddr} (ha : isUserVaddr a = true) (hb : isUserVaddr b = true) :
    walkPath a = walkPath b ↔ pgNo a = pgNo b :=
  walkPath_inj (by have := isUserVaddr_iff.mp ha; omega) (by have := isUserVaddr_iff.mp hb; omega)

/-! ## The table and the map -/

/-- The tables of `p` hold the map `b`, in pages apart from those in use elsewhere. -/
structure Maps (s : Pools) (p : Vaddr) (b : Bindings) (others : Set Vaddr) : Prop where
  ok : s.Ok
  tables : Tables s 3 p
  translation : ∀ va, isUserVaddr va = true → s.translation p va = b (pgNo va)
  othersUsed : ∀ q ∈ others, s.Used false q
  othersApart : Disjoint others (pages child s.mem 3 p)

variable {s s' : Pools} {base p q upage kpage : Vaddr} {b : Bindings} {others others' X : Set Vaddr}
  {rw : Bool}

/-- An operation that touches no page of the table. -/
theorem Maps.kept (h : Maps s p b others) (hk : Keeps s s' X)
    (hX : Disjoint X (pages child s.mem 3 p)) (hsub : others' ⊆ others) (hXo : Disjoint X others') :
    Maps s' p b others' := by
  have hm := hk.mem_eq h.tables hX
  refine ⟨hk.ok, h.tables.kept hk hX, ?_, ?_, ?_⟩
  · intro va hva
    rw [Pools.translation, value_congr (n := 3) (by rfl) hm]
    exact h.translation va hva
  · intro q hq
    exact (hk.kept q (h.othersUsed q (hsub hq)) fun hx => Set.disjoint_left.mp hXo hx hq).1
  · rw [pages_congr hm]
    exact Set.disjoint_of_subset_left hsub h.othersApart

/-- A walk, whether it ends in an entry or not. -/
theorem Maps.walked {path : List Idx} {o : Option PtePtr} (h : Maps s p b others)
    (hw : Walked s s' 3 p path o) : Maps s' p b others := by
  refine ⟨hw.ok, hw.tables, ?_, fun q hq => (hw.used q).mpr (Or.inl (h.othersUsed q hq)), ?_⟩
  · intro va hva
    rw [Pools.translation, hw.grows.value _ (by rfl)]
    exact h.translation va hva
  · refine Set.disjoint_left.mpr fun q hq hp => ?_
    rcases hw.grows.new hp with hp | hp
    · exact Set.disjoint_left.mp h.othersApart hq hp
    · exact Pool.Used.not_free (h.ok.pool false) (h.othersUsed q hq) hp

/-- The entry of `upage` is written. -/
theorem Maps.write {r : PtePtr} {e : BitVec 64} (h : Maps s p b others)
    (hu : isUserVaddr upage = true) (hs : slot child s.mem p (walkPath upage) = some r) :
    Maps (s.setEntry r e) p (update b (pgNo upage) (binding e)) others := by
  obtain ⟨hpages, hsep, hvalue⟩ := value_write (z := 0) (w := e) h.tables.sep (by rfl) hs
  refine ⟨h.ok.congr (fun _ => rfl) (fun _ => rfl), ⟨hsep, ?_⟩, ?_, h.othersUsed, ?_⟩
  · intro q hq
    rw [setEntry_mem, hpages] at hq
    exact h.tables.used q hq
  · intro va hva
    rw [Pools.translation, setEntry_mem, hvalue _ (by rfl)]
    by_cases hno : pgNo va = pgNo upage
    · rw [if_pos ((walkPath_user hva hu).mpr hno), hno, update_self]
    · rw [if_neg fun hc => hno ((walkPath_user hva hu).mp hc), update_of_ne hno]
      exact h.translation va hva
  · rw [setEntry_mem, hpages]
    exact h.othersApart

/-! ## The operations -/

/-- The pages in use are the same. -/
def SameUse (s s' : Pools) : Prop := ∀ user q, s'.Used user q ↔ s.Used user q

/-- A walk that fails has given back the tables it made. -/
theorem Walked.sameUse {path : List Idx} (ht : Tables s 3 p)
    (hw : Walked s s' 3 p path none) : SameUse s s' := by
  intro user q
  cases user with
  | false =>
    rw [hw.used, hw.failed rfl]
    constructor
    · rintro (hq | hq)
      · exact hq
      · exact ht.used q hq
    · exact Or.inl
  | true =>
    have huser : s'.pool true = s.pool true := hw.user
    rw [Pools.Used, Pools.Used, huser]

/-- **`pml4_set_page`** does not stop the kernel, -/
theorem Maps.setPage_ok (h : Maps s p b others) (hbase : p ≠ base) (hup : Aligned upage)
    (hu : isUserVaddr upage = true) (hkp : Aligned kpage) (hk : isKernelVaddr kpage = true) :
    ∃ r s', s.pml4SetPage base p upage kpage rw = .ok (r, s') := by
  have hguard : ¬ (¬ Aligned upage ∨ ¬ Aligned kpage ∨ isUserVaddr upage = false ∨ p = base) := by
    simp [hup, hkp, hu, hbase]
  obtain ⟨o, s₁, he, -, -⟩ := pml4eWalk_spec h.ok h.tables upage true
  unfold Pools.pml4SetPage
  rw [if_neg hguard, he]
  cases o with
  | none => exact ⟨_, _, rfl⟩
  | some r =>
    simp only [hk, if_true]
    exact ⟨_, _, rfl⟩

/-- and it binds the page, or fails and leaves everything in use as it was. -/
theorem Maps.setPage {r : Bool} (h : Maps s p b others)
    (hs : s.pml4SetPage base p upage kpage rw = .ok (r, s')) :
    r = true ∧ Maps s' p (update b (pgNo upage) (some (kpage, rw))) others ∨
      r = false ∧ Maps s' p b others ∧ SameUse s s' := by
  unfold Pools.pml4SetPage at hs
  split at hs
  · cases hs
  next hg =>
  obtain ⟨-, hkp, hu, -⟩ : Aligned upage ∧ Aligned kpage ∧ isUserVaddr upage = true ∧ p ≠ base := by
    simpa [not_or] using hg
  obtain ⟨o, s₁, he, hw, -⟩ := pml4eWalk_spec h.ok h.tables upage true
  rw [he] at hs
  cases o with
  | none =>
    cases hs
    exact Or.inr ⟨rfl, h.walked hw, hw.sameUse h.tables⟩
  | some r =>
    simp only at hs
    split at hs
    · cases hs
      refine Or.inl ⟨rfl, ?_⟩
      rw [← binding_entry hkp]
      exact (h.walked hw).write hu (hw.slot r rfl)
    · cases hs

theorem Maps.value_slot {va : Vaddr} (h : Maps s p b others) (hva : isUserVaddr va = true) :
    b (pgNo va) =
      (slot child s.mem p (walkPath va)).bind fun r => binding (s.mem r.1 r.2) := by
  rw [← h.translation va hva, Pools.translation, value]
  cases slot child s.mem p (walkPath va) with
  | none => exact binding_zero
  | some r => rfl

/-- **`pml4_clear_page`** does not stop the kernel, -/
theorem Maps.clearPage_ok (h : Maps s p b others) (hup : Aligned upage)
    (hu : isUserVaddr upage = true) : ∃ s', s.pml4ClearPage p upage = .ok s' := by
  unfold Pools.pml4ClearPage
  rw [if_neg (by simp [hup, hu]), pml4eWalk_looks h.ok h.tables]
  cases slot child s.mem p (walkPath upage) with
  | none => exact ⟨_, rfl⟩
  | some r => exact ⟨_, rfl⟩

/-- and it removes the binding of the page. -/
theorem Maps.clearPage (h : Maps s p b others) (hs : s.pml4ClearPage p upage = .ok s') :
    Maps s' p (update b (pgNo upage) none) others := by
  unfold Pools.pml4ClearPage at hs
  split at hs
  · cases hs
  next hg =>
  obtain ⟨-, hu⟩ : Aligned upage ∧ isUserVaddr upage = true := by
    simpa [not_or] using hg
  have hslot := h.value_slot hu
  have hsame : b (pgNo upage) = none → update b (pgNo upage) none = b := by
    intro hb
    rw [← hb, update_eq_self]
  rw [pml4eWalk_looks h.ok h.tables] at hs
  cases hr : slot child s.mem p (walkPath upage) with
  | none =>
    rw [hr] at hs hslot
    cases hs
    rw [hsame hslot]
    exact h
  | some r =>
    rw [hr] at hs hslot
    rw [Option.bind_some] at hslot
    cases hs
    by_cases hp : present (s.mem r.1 r.2) = true
    · rw [if_pos hp, ← binding_clear (s.mem r.1 r.2)]
      exact h.write hu hr
    · rw [if_neg hp, hsame]
      · exact h
      · rw [hslot, binding, child_none.mpr (by simpa using hp)]
        rfl

/-- **`pml4_get_page`** reads the map. -/
theorem Maps.getPage {va : Vaddr} (h : Maps s p b others) (hva : isUserVaddr va = true) :
    s.pml4GetPage p va = .ok ((b (pgNo va)).map fun f => f.1 + pgOfs va) := by
  have hslot := h.value_slot hva
  unfold Pools.pml4GetPage
  rw [if_neg (by simp [hva]), pml4eWalk_looks h.ok h.tables, hslot]
  cases slot child s.mem p (walkPath va) with
  | none => rfl
  | some r =>
    simp only [Option.bind_some, binding, child]
    split
    · rfl
    · rfl

theorem Inv.createFails {inst : Vaddr → BitVec 64 → Option Vaddr} (h : Inv s base ∅ inst others)
    (he : s.pml4Create base = .ok (none, s')) : s' = s := by
  unfold Pools.pml4Create at he
  split at he
  · cases he
  · next hget =>
    cases he
    rcases Pools.getPage_spec h.ok hget with ⟨-, hs⟩ | ⟨q, hq, -⟩
    · exact hs
    · cases hq
  · cases he

/-- **`pml4_create`** makes a table for the empty map. -/
theorem Inv.createMaps {inst : Vaddr → BitVec 64 → Option Vaddr} (h : Inv s base ∅ inst others)
    (he : s.pml4Create base = .ok (some p, s')) :
    Maps s' p (fun _ => none) others ∧ p ≠ base := by
  obtain ⟨-, hi⟩ := h.create he
  have ht : TableOk s' base p (fun _ => none) := by
    have ht := hi.table p (Or.inl rfl)
    rw [update_self] at ht
    exact ht
  refine ⟨⟨hi.ok, ht.tables, ?_, hi.othersUsed, ?_⟩, ?_⟩
  · intro va hva
    rw [Pools.translation, binding, ht.maps va hva]
    rfl
  · exact (ht.disjoint hi.othersBase (hi.othersOwn p (Or.inl rfl)).symm)
  · rintro rfl
    exact Set.disjoint_left.mp ht.apart mem_own_self mem_pages_self

/-! ## The rest of the kernel -/

theorem Maps.got {flags : PallocFlags} (h : Maps s p b others) (hg : Pools.Got s s' flags q) :
    Maps s' p b (if flags.user then others else insert q others) := by
  have hk := Got.keeps h.ok hg
  have h₁ : Maps s' p b others := h.kept hk (by simp) (fun q hq => hq) (by simp)
  split
  · exact h₁
  · next hu =>
    rw [Bool.not_eq_true] at hu
    have hfree := hg.free
    have hused := hg.used q
    rw [hu] at hfree hused
    refine { h₁ with othersUsed := ?_, othersApart := ?_ }
    · rintro r (rfl | hr)
      · exact hused.mpr (Or.inr rfl)
      · exact h₁.othersUsed r hr
    · rw [pages_congr (hk.mem_eq h.tables (by simp))]
      refine Set.disjoint_left.mpr ?_
      rintro r (rfl | hr) hp
      · exact Pool.Used.not_free (h.ok.pool false) (h.tables.used r hp) hfree
      · exact Set.disjoint_left.mp h.othersApart hr hp

theorem Maps.freed (h : Maps s p b others) (hq : s.userPool.contains q = true ∨ q ∈ others)
    (he : s.pallocFreePage q = .ok s') : Maps s' p b (others \ {q}) := by
  have hsub : others \ {q} ⊆ others := fun _ hr => hr.1
  rcases hq with hq | hq
  · obtain ⟨user, hg⟩ := Pools.freePage_spec h.ok (Pool.ne_zero_of_contains (h.ok.pool true) hq) he
    cases user with
    | false => exact absurd rfl (h.ok.used_ne hg.was hq)
    | true => exact h.kept (GaveBack.freedFrame h.ok hg).toKeeps (by simp) hsub (by simp)
  · obtain ⟨s₂, he', hg⟩ := Pools.freePage_of_used h.ok (h.othersUsed q hq)
    rw [he'] at he
    cases he
    refine h.kept (GaveBack.freed hg).toKeeps ?_ hsub ?_
    · exact Set.disjoint_singleton_left.mpr (Set.disjoint_left.mp h.othersApart hq)
    · exact Set.disjoint_singleton_left.mpr fun hc => hc.2 rfl

/-! ## The machine -/

structure PageMap extends Pools where
  basePml4 : Vaddr
  /-- The table, once it is made. -/
  pml4 : Option Vaddr
  bindings : Bindings
  /-- The kernel's pages that are in use elsewhere. -/
  others : List Vaddr

inductive PageMapAction where
  | create
  | setPage (upage kpage : Vaddr) (rw : Bool)
  | clearPage (upage : Vaddr)
  | getPage (uaddr : Vaddr)
  /-- Another part of the kernel calls `palloc_get_page`. -/
  | pallocGet (flags : PallocFlags)
  /-- It calls `palloc_free_page` on a page of the user pool or on one of its own. -/
  | pallocFree (page : Vaddr)

namespace PageMap

def setPools (s : PageMap) (p : Pools) : PageMap := { s with toPools := p }

local instance : LawfulBEq Vaddr := inferInstance

/-- A call on the table, or of `palloc.c`. The map changes with the result of the call alone. -/
def step (s : PageMap) : PageMapAction → Except Panic PageMap
  | .create =>
    if s.pml4.isSome then .error .disabled
    else
      match s.pml4Create s.basePml4 with
      | .error e => .error e
      | .ok (pml4, p) => .ok { s.setPools p with pml4 := pml4 }
  | .setPage upage kpage rw =>
    match s.pml4 with
    | none => .error .disabled
    | some pml4 =>
      match s.pml4SetPage s.basePml4 pml4 upage kpage rw with
      | .error e => .error e
      | .ok (false, p) => .ok (s.setPools p)
      | .ok (true, p) =>
        .ok { s.setPools p with bindings := update s.bindings (pgNo upage) (some (kpage, rw)) }
  | .clearPage upage =>
    match s.pml4 with
    | none => .error .disabled
    | some pml4 =>
      match s.pml4ClearPage pml4 upage with
      | .error e => .error e
      | .ok p => .ok { s.setPools p with bindings := update s.bindings (pgNo upage) none }
  | .getPage uaddr =>
    match s.pml4 with
    | none => .error .disabled
    | some pml4 =>
      match s.pml4GetPage pml4 uaddr with
      | .error e => .error e
      | .ok _ => .ok s
  | .pallocGet flags =>
    match s.pallocGetPage flags with
    | .error e => .error e
    | .ok (none, p) => .ok (s.setPools p)
    | .ok (some page, p) =>
      .ok { s.setPools p with others := if flags.user then s.others else page :: s.others }
  | .pallocFree page =>
    if s.userPool.contains page ∨ page ∈ s.others then
      match s.pallocFreePage page with
      | .error e => .error e
      | .ok p => .ok { s.setPools p with others := s.others.filter (· ≠ page) }
    else .error .disabled

/-- The machine after `paging_init`; `others` are the pages the kernel took before. -/
def boot (basePml4 : Vaddr) (p : Pools) (others : List Vaddr) : PageMap where
  toPools := p
  basePml4 := basePml4
  pml4 := none
  bindings := fun _ => none
  others := others

end PageMap

/-- Before the table is made only the kernel's tables count. -/
def PageMapInv (s : PageMap) : Prop :=
  match s.pml4 with
  | none =>
    Inv s.toPools s.basePml4 ∅ (fun _ _ => none) {q | q ∈ s.others} ∧ s.bindings = fun _ => none
  | some p => Maps s.toPools p s.bindings {q | q ∈ s.others} ∧ p ≠ s.basePml4

theorem PageMapInv.unmade {s : PageMap} (h : PageMapInv s) (hp : s.pml4 = none) :
    Inv s.toPools s.basePml4 ∅ (fun _ _ => none) {q | q ∈ s.others} ∧ s.bindings = fun _ => none := by
  unfold PageMapInv at h
  rw [hp] at h
  exact h

theorem PageMapInv.made {s : PageMap} (h : PageMapInv s) (hp : s.pml4 = some p) :
    Maps s.toPools p s.bindings {q | q ∈ s.others} ∧ p ≠ s.basePml4 := by
  unfold PageMapInv at h
  rw [hp] at h
  exact h

theorem PageMapInv.of_made {s : PageMap} (hp : s.pml4 = some p)
    (hm : Maps s.toPools p s.bindings {q | q ∈ s.others}) (hne : p ≠ s.basePml4) : PageMapInv s := by
  unfold PageMapInv
  rw [hp]
  exact ⟨hm, hne⟩

theorem PageMapInv.ok {s : PageMap} (h : PageMapInv s) : s.Ok := by
  cases hp : s.pml4 with
  | none => exact (h.unmade hp).1.ok
  | some p => exact (h.made hp).1.ok

/-- A step of the rest of the kernel. -/
theorem PageMapInv.elsewhere {s : PageMap} {t : Pools} {others' : List Vaddr} (h : PageMapInv s)
    (hinv : Inv s.toPools s.basePml4 ∅ (fun _ _ => none) {q | q ∈ s.others} →
      Inv t s.basePml4 ∅ (fun _ _ => none) {q | q ∈ others'})
    (hmaps : ∀ p b, Maps s.toPools p b {q | q ∈ s.others} → Maps t p b {q | q ∈ others'}) :
    PageMapInv { s.setPools t with others := others' } := by
  cases hp : s.pml4 with
  | none =>
    obtain ⟨hi, hb⟩ := h.unmade hp
    unfold PageMapInv PageMap.setPools
    simp only [hp]
    exact ⟨hinv hi, hb⟩
  | some p =>
    obtain ⟨hm, hne⟩ := h.made hp
    exact PageMapInv.of_made hp (hmaps p _ hm) hne

theorem setOf_filter_ne (l : List Vaddr) (q : Vaddr) :
    {r | r ∈ l.filter (· ≠ q)} = {r | r ∈ l} \ {q} := by
  ext r
  simp

theorem setOf_ite_cons (u : Bool) (l : List Vaddr) (q : Vaddr) :
    {r | r ∈ if u then l else q :: l} = if u then {r | r ∈ l} else insert q {r | r ∈ l} := by
  cases u with
  | false =>
    ext r
    simp
  | true => rfl

/-- **Every step keeps the invariant.** -/
theorem PageMapInv.preserved {s s' : PageMap} {a : PageMapAction} (h : PageMapInv s)
    (hs : s.step a = .ok s') : PageMapInv s' := by
  cases a with
  | create =>
    dsimp only [PageMap.step] at hs
    split at hs
    · cases hs
    next hnone =>
    rw [Option.not_isSome_iff_eq_none] at hnone
    obtain ⟨hinv, hb⟩ := h.unmade hnone
    split at hs
    · cases hs
    next o t he =>
    cases hs
    cases o with
    | none =>
      rw [hinv.createFails he]
      exact ⟨hinv, hb⟩
    | some p =>
      obtain ⟨hmaps, hne⟩ := hinv.createMaps he
      refine ⟨?_, hne⟩
      show Maps t p s.bindings _
      rw [hb]
      exact hmaps
  | setPage upage kpage w =>
    dsimp only [PageMap.step] at hs
    split at hs
    · cases hs
    next p hp =>
    obtain ⟨hmaps, hne⟩ := h.made hp
    split at hs
    · cases hs
    · next t he =>
      cases hs
      obtain ⟨hr, -⟩ | ⟨-, hset, -⟩ := hmaps.setPage he
      · cases hr
      · exact PageMapInv.of_made hp hset hne
    · next t he =>
      cases hs
      obtain ⟨-, hset⟩ | ⟨hr, -⟩ := hmaps.setPage he
      · exact PageMapInv.of_made hp hset hne
      · cases hr
  | clearPage upage =>
    dsimp only [PageMap.step] at hs
    split at hs
    · cases hs
    next p hp =>
    obtain ⟨hmaps, hne⟩ := h.made hp
    split at hs
    · cases hs
    next t he =>
    cases hs
    exact PageMapInv.of_made hp (hmaps.clearPage he) hne
  | getPage uaddr =>
    dsimp only [PageMap.step] at hs
    split at hs
    · cases hs
    split at hs
    · cases hs
    cases hs
    exact h
  | pallocGet flags =>
    dsimp only [PageMap.step] at hs
    split at hs
    · cases hs
    · next t he =>
      cases hs
      rcases Pools.getPage_spec h.ok he with ⟨-, rfl⟩ | ⟨q, hq, -⟩
      · exact h
      · cases hq
    · next page t he =>
      cases hs
      rcases Pools.getPage_spec h.ok he with ⟨hq, -⟩ | ⟨q, hq, hg⟩
      · cases hq
      · cases hq
        refine h.elsewhere (fun hi => ?_) (fun p b hm => ?_)
        · rw [setOf_ite_cons]
          exact hi.got hg
        · rw [setOf_ite_cons]
          exact hm.got hg
  | pallocFree page =>
    dsimp only [PageMap.step] at hs
    split at hs
    · next hg =>
      split at hs
      · cases hs
      next t he =>
      cases hs
      refine h.elsewhere (fun hi => ?_) (fun p b hm => ?_)
      · rw [setOf_filter_ne]
        exact hi.freed hg he
      · rw [setOf_filter_ne]
        exact hm.freed hg he
    · cases hs

/--
**The page table is a map with transactional insert**, in every run. `pml4_get_page` finds what
the map holds. `pml4_set_page` binds the page of its address and no other, or, when it returns
false, changes no translation and has given back what it took. `pml4_clear_page` removes the
binding of its page and no other.
-/
theorem page_table_refines_map {memPages : Nat} {text : Vaddr → Bool} {s₀ s₁ : Pools}
    {others : List Vaddr} {s : PageMap} {p : Vaddr} (h₀ : s₀.Ok)
    (hmem : 0x8004000000 + 4096 * memPages ≤ 2 ^ 48)
    (hinit : s₀.pagingInit memPages text = .ok (base, s₁)) (hothers : ∀ q ∈ others, s₀.Used false q)
    (h : Reach PageMap.step Always (PageMap.boot base s₁ others) s) (hp : s.pml4 = some p) :
    (∀ va, isUserVaddr va = true → s.translation p va = s.bindings (pgNo va) ∧
      s.pml4GetPage p va = .ok ((s.bindings (pgNo va)).map fun f => f.1 + pgOfs va)) ∧
    (∀ upage kpage rw, Aligned upage → isUserVaddr upage = true → Aligned kpage →
      isKernelVaddr kpage = true → ∃ r s', s.pml4SetPage s.basePml4 p upage kpage rw = .ok (r, s') ∧
        (r = true → ∀ va, isUserVaddr va = true → s'.translation p va =
          if pgNo va = pgNo upage then some (kpage, rw) else s.translation p va) ∧
        (r = false → SameUse s.toPools s' ∧
          ∀ va, isUserVaddr va = true → s'.translation p va = s.translation p va)) ∧
    ∀ upage, Aligned upage → isUserVaddr upage = true →
      ∃ s', s.pml4ClearPage p upage = .ok s' ∧ ∀ va, isUserVaddr va = true →
        s'.translation p va = if pgNo va = pgNo upage then none else s.translation p va := by
  have hboot : PageMapInv (PageMap.boot base s₁ others) :=
    ⟨(pagingInit_spec h₀ hmem hinit).inv h₀ hothers, rfl⟩
  have hinv : PageMapInv s := h.invariant hboot fun _ _ _ hi _ hs => hi.preserved hs
  obtain ⟨hmaps, hne⟩ := hinv.made hp
  have hold := hmaps.translation
  have hupdate : ∀ {t : Pools} {o : Set Vaddr} {no : BitVec 64} {f : Option (Vaddr × Bool)},
      Maps t p (update s.bindings no f) o → ∀ va, isUserVaddr va = true →
        t.translation p va = if pgNo va = no then f else s.translation p va := by
    intro t o no f hm va hva
    rw [hm.translation va hva, hold va hva, update_apply]
  refine ⟨fun va hva => ⟨hold va hva, hmaps.getPage hva⟩, ?_, ?_⟩
  · intro upage kpage w hup hu hkp hk
    have hset : ∃ r s', s.pml4SetPage s.basePml4 p upage kpage w = .ok (r, s') :=
      hmaps.setPage_ok hne hup hu hkp hk
    obtain ⟨r, s', he⟩ := hset
    refine ⟨r, s', he, ?_, ?_⟩
    · rintro rfl
      obtain ⟨-, hm⟩ | ⟨hr, -⟩ := hmaps.setPage he
      · exact hupdate hm
      · cases hr
    · rintro rfl
      obtain ⟨hr, -⟩ | ⟨-, hm, huse⟩ := hmaps.setPage he
      · cases hr
      · refine ⟨huse, fun va hva => ?_⟩
        rw [hm.translation va hva, hold va hva]
  · intro upage hup hu
    obtain ⟨s', he⟩ := hmaps.clearPage_ok hup hu
    exact ⟨s', he, hupdate (hmaps.clearPage he)⟩

/--
One page is left in the kernel pool, and a page at 1 GB needs two tables. The first is given back,
and the page at 4 MB is still found.
-/
theorem page_table_refines_map_short : ∃ (s : PageMap) (t : Pools),
    s.pml4SetPage s.basePml4 0x8004104000 0x40000000 0x8004201000 false = .ok (false, t) ∧
    SameUse s.toPools t ∧ s.pml4GetPage 0x8004104000 0x400123 = .ok (some 0x8004200123) ∧
    t.translation 0x8004104000 0x400123 = some (0x8004200000, true) := by
  have hrun : ((smallPools.pagingInit 1 fun _ => false).toOption.any fun r =>
      (execIf PageMap.step (fun _ _ => true) (PageMap.boot r.1 r.2 [])
        (.create :: .setPage 0x400000 0x8004200000 true :: List.replicate 15 (.pallocGet {}))).any
        fun s => decide (s.pml4 = some 0x8004104000) &&
          decide (s.bindings (pgNo 0x400123) = some (0x8004200000, true)) &&
          (s.pml4SetPage s.basePml4 0x8004104000 0x40000000 0x8004201000 false).toOption.any fun r => !r.1) =
      true := by decide +kernel
  obtain ⟨⟨base, s₁⟩, hinit, hrun⟩ := exists_of_toOption hrun
  obtain ⟨s, hreach, hcheck⟩ := exists_of_execIf (C := Always) (fun _ _ _ => trivial) _ hrun
  simp only [Bool.and_eq_true, decide_eq_true_eq] at hcheck
  obtain ⟨⟨hp, hb⟩, hfails⟩ := hcheck
  obtain ⟨hget, hset, -⟩ := page_table_refines_map smallPools_ok (by decide) hinit
    (fun q hq => absurd hq List.not_mem_nil) hreach hp
  obtain ⟨⟨r, t⟩, he, hr⟩ := exists_of_toOption hfails
  obtain rfl : r = false := Bool.not_eq_true' r ▸ hr
  obtain ⟨r, s', he', -, hfalse⟩ := hset 0x40000000 0x8004201000 false (by decide) (by decide)
    (by decide) (by decide)
  rw [he] at he'
  cases he'
  obtain ⟨huse, hsame⟩ := hfalse rfl
  obtain ⟨htrans, hpage⟩ := hget 0x400123 (by decide)
  rw [hb] at htrans hpage
  refine ⟨s, t, he, huse, hpage, ?_⟩
  rw [hsame 0x400123 (by decide), htrans]

end Pintos
