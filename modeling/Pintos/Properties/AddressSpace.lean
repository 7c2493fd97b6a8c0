import Pintos.Properties.PageTable

/-!
# Address spaces

What the tables of `Pintos/Threads/Mmu.lean` have in common, and what each has for itself. The
tables of the kernel, made by `paging_init`, are under the entries from 1 on; the tables a process
adds for addresses below 2^39 are under the entry 0.

* `Inv` — each table has the kernel's entries, pages of its own under the entry 0, and maps what
  was set and not cleared since
* `Inv.kept`, `Inv.addTable` — an operation keeps the tables it does not touch
* `Inv.walk`, `Inv.write` — a walk and the writing of an entry
* `pml4Destroy_spec` — `pml4_destroy` gives back the pages and frames under the entry 0
-/

namespace Pintos

open Function Machine RadixTree

/-- The pages only `p` uses: itself and the tables under its entry 0. -/
def own (mem : PageMem) (p : Vaddr) : Set Vaddr := insert p (below child mem 2 (mem p 0))

/-- The frames mapped in a tree. -/
def frames (mem : PageMem) (n : Nat) (c : Vaddr) : Set Vaddr :=
  {f | ∃ path : List Idx, path.length = n + 1 ∧ child (value child 0 mem c path) = some f}

/-- The tables of the kernel. -/
structure BaseOk (s : Pools) (base : Vaddr) : Prop where
  tables : Tables s 3 base
  entry : s.mem base 0 = 0
  /-- The kernel maps no user address. -/
  user : ∀ va, isUserVaddr va = true → value child 0 s.mem base (walkPath va) = 0

/-- The table `p` of a process, which maps the frames `inst` below 2^39. -/
structure TableOk (s : Pools) (base p : Vaddr) (inst : BitVec 64 → Option Vaddr) : Prop where
  tables : Tables s 3 p
  copied : ∀ i, i ≠ 0 → s.mem p i = s.mem base i
  apart : Disjoint (own s.mem p) (pages child s.mem 3 base)
  user : ∀ path : List Idx, path.length = 3 → ∀ f, child (value child 0 s.mem p (0 :: path)) = some f →
    s.userPool.contains f = true
  maps : ∀ va, isUserVaddr va = true →
    child (value child 0 s.mem p (walkPath va)) = inst (pgNo va)

/-- The tables `live` of the processes, beside the pages `others` of the kernel. -/
structure Inv (s : Pools) (base : Vaddr) (live : Set Vaddr)
    (inst : Vaddr → BitVec 64 → Option Vaddr) (others : Set Vaddr) : Prop where
  ok : s.Ok
  kernel : BaseOk s base
  table : ∀ p ∈ live, TableOk s base p (inst p)
  apart : ∀ p ∈ live, ∀ q ∈ live, p ≠ q → Disjoint (own s.mem p) (own s.mem q)
  othersUsed : ∀ q ∈ others, s.Used false q
  othersBase : Disjoint others (pages child s.mem 3 base)
  othersOwn : ∀ p ∈ live, Disjoint (own s.mem p) others

variable {s s' : Pools} {base p q c d : Vaddr} {live live' X others others' : Set Vaddr} {n : Nat}
  {inst inst' : Vaddr → BitVec 64 → Option Vaddr} {f g : BitVec 64 → Option Vaddr}

theorem mem_own_self {mem : PageMem} : p ∈ own mem p := Or.inl rfl

theorem own_subset {mem : PageMem} : own mem p ⊆ pages child mem 3 p := by
  rintro q (rfl | hq)
  · exact mem_pages_self
  · exact below_subset hq

/-- The pages of a table that are not its own are under another entry. -/
theorem mem_pages_of_not_own {mem : PageMem} (hq : q ∈ pages child mem 3 p)
    (ho : q ∉ own mem p) : ∃ i, i ≠ 0 ∧ q ∈ below child mem 2 (mem p i) := by
  rcases mem_pages_succ.mp hq with rfl | ⟨i, hq⟩
  · exact absurd mem_own_self ho
  · refine ⟨i, ?_, hq⟩
    rintro rfl
    exact ho (Or.inr hq)

theorem TableOk.pages_subset (h : TableOk s base p f) :
    pages child s.mem 3 p ⊆ own s.mem p ∪ pages child s.mem 3 base := by
  intro q hq
  by_cases ho : q ∈ own s.mem p
  · exact Or.inl ho
  · obtain ⟨i, hi, hq⟩ := mem_pages_of_not_own hq ho
    rw [h.copied i hi] at hq
    exact Or.inr (below_subset hq)

/-! ## What an operation leaves alone -/

/-- Outside `X` the pages in use stay in use and keep what they hold. -/
structure Keeps (s s' : Pools) (X : Set Vaddr) : Prop where
  ok : s'.Ok
  kept : ∀ q, s.Used false q → q ∉ X → s'.Used false q ∧ s'.mem q = s.mem q
  contains : ∀ q, s'.userPool.contains q = s.userPool.contains q

theorem Keeps.mem_eq (hk : Keeps s s' X) (ht : Tables s n c)
    (hX : Disjoint X (pages child s.mem n c)) : ∀ q ∈ pages child s.mem n c, s'.mem q = s.mem q :=
  fun q hq => (hk.kept q (ht.used q hq) fun hx => Set.disjoint_left.mp hX hx hq).2

theorem Tables.kept (ht : Tables s n c) (hk : Keeps s s' X)
    (hX : Disjoint X (pages child s.mem n c)) : Tables s' n c where
  sep := ht.sep.congr (hk.mem_eq ht hX)
  used q hq := by
    rw [pages_congr (hk.mem_eq ht hX)] at hq
    exact (hk.kept q (ht.used q hq) fun hx => Set.disjoint_left.mp hX hx hq).1

theorem BaseOk.kept (hb : BaseOk s base) (hk : Keeps s s' X)
    (hX : Disjoint X (pages child s.mem 3 base)) : BaseOk s' base where
  tables := hb.tables.kept hk hX
  entry := by
    rw [hk.mem_eq hb.tables hX base mem_pages_self]
    exact hb.entry
  user va hva := by
    rw [value_congr (n := 3) (by rfl) (hk.mem_eq hb.tables hX)]
    exact hb.user va hva

theorem TableOk.disjoint (hX : Disjoint X (pages child s.mem 3 base)) (ht : TableOk s base p f)
    (hp : Disjoint X (own s.mem p)) : Disjoint X (pages child s.mem 3 p) := by
  refine Set.disjoint_left.mpr fun q hx hq => ?_
  rcases ht.pages_subset hq with hq | hq
  · exact Set.disjoint_left.mp hp hx hq
  · exact Set.disjoint_left.mp hX hx hq

theorem own_congr {m : PageMem} (hm : ∀ q ∈ pages child s.mem 3 p, m q = s.mem q) :
    own m p = own s.mem p := by
  have hp := hm p mem_pages_self
  rw [own, own, hp, below_congr fun q hq => hm q (below_subset hq)]

theorem TableOk.kept (hb : BaseOk s base) (ht : TableOk s base p f) (hk : Keeps s s' X)
    (hX : Disjoint X (pages child s.mem 3 base)) (hp : Disjoint X (own s.mem p)) :
    TableOk s' base p f := by
  have hm := hk.mem_eq ht.tables (ht.disjoint hX hp)
  have hmb := hk.mem_eq hb.tables hX
  refine ⟨ht.tables.kept hk (ht.disjoint hX hp), ?_, ?_, ?_, ?_⟩
  · intro i hi
    rw [hm p mem_pages_self, hmb base mem_pages_self]
    exact ht.copied i hi
  · rw [own_congr hm, pages_congr hmb]
    exact ht.apart
  · intro path hl d hd
    rw [value_congr (n := 3) (by simp [hl]) hm] at hd
    rw [hk.contains]
    exact ht.user path hl d hd
  · intro va hva
    rw [value_congr (n := 3) (by rfl) hm]
    exact ht.maps va hva

/-- **An operation that only touches `X`** keeps every table that owns no page of `X`. -/
theorem Inv.kept (h : Inv s base live inst others) (hk : Keeps s s' X)
    (hX : Disjoint X (pages child s.mem 3 base)) (hlive : live' ⊆ live)
    (hown : ∀ p ∈ live', Disjoint X (own s.mem p)) (hothers : others' ⊆ others)
    (hXo : Disjoint X others') (hinst : ∀ p ∈ live', inst' p = inst p) :
    Inv s' base live' inst' others' := by
  have hm : ∀ p ∈ live', ∀ q ∈ pages child s.mem 3 p, s'.mem q = s.mem q :=
    fun p hp => hk.mem_eq (h.table p (hlive hp)).tables
      ((h.table p (hlive hp)).disjoint hX (hown p hp))
  have hmo : ∀ p ∈ live', own s'.mem p = own s.mem p :=
    fun p hp => own_congr (hm p hp)
  refine ⟨hk.ok, h.kernel.kept hk hX, ?_, ?_, ?_, ?_, ?_⟩
  · intro p hp
    rw [hinst p hp]
    exact (h.table p (hlive hp)).kept h.kernel hk hX (hown p hp)
  · intro p hp q hq hpq
    rw [hmo p hp, hmo q hq]
    exact h.apart p (hlive hp) q (hlive hq) hpq
  · intro q hq
    exact (hk.kept q (h.othersUsed q (hothers hq)) fun hx => Set.disjoint_left.mp hXo hx hq).1
  · rw [pages_congr (hk.mem_eq h.kernel.tables hX)]
    exact Set.disjoint_of_subset_left hothers h.othersBase
  · intro p hp
    rw [hmo p hp]
    exact Set.disjoint_of_subset_right hothers (h.othersOwn p (hlive hp))

/-- A table that shares no page of its own with the others. -/
theorem Inv.addTable (h : Inv s base live inst others) (ht : TableOk s base p (inst p))
    (hown : ∀ q ∈ live, Disjoint (own s.mem p) (own s.mem q))
    (hothers : Disjoint (own s.mem p) others) : Inv s base (insert p live) inst others where
  ok := h.ok
  kernel := h.kernel
  table := by
    rintro q (rfl | hq)
    · exact ht
    · exact h.table q hq
  apart := by
    rintro q (rfl | hq) r (rfl | hr) hqr
    · exact absurd rfl hqr
    · exact hown r hr
    · exact (hown q hq).symm
    · exact h.apart q hq r hr hqr
  othersUsed := h.othersUsed
  othersBase := h.othersBase
  othersOwn := by
    rintro q (rfl | hq)
    · exact hothers
    · exact h.othersOwn q hq

/-- An operation on the table `p` alone, which may take fresh pages. -/
theorem Inv.change (h : Inv s base live inst others) (hp : p ∈ live)
    (hk : Keeps s s' (own s.mem p)) (ht : TableOk s' base p (inst' p))
    (hsub : own s'.mem p ⊆ own s.mem p ∪ {q | s.Free false q})
    (hinst : ∀ q, q ≠ p → inst' q = inst q) : Inv s' base live inst' others := by
  have hkernel : ∀ q, s.Used false q → ¬ s.Free false q :=
    fun q hq => Pool.Used.not_free (h.ok.pool false) hq
  have hrest : Inv s' base (live \ {p}) inst' others := by
    refine h.kept hk (h.table p hp).apart (fun q hq => hq.1) ?_ (fun q hq => hq)
      (h.othersOwn p hp) (fun q hq => hinst q hq.2)
    exact fun q hq => h.apart p hp q hq.1 (Ne.symm hq.2)
  have hinsert : Insert.insert p (live \ {p}) = live := by
    ext q
    constructor
    · rintro (rfl | hq)
      · exact hp
      · exact hq.1
    · intro hq
      by_cases hqp : q = p
      · exact Or.inl hqp
      · exact Or.inr ⟨hq, hqp⟩
  have happart : ∀ Y : Set Vaddr, (∀ q ∈ Y, s.Used false q) → Disjoint (own s.mem p) Y →
      Disjoint (own s'.mem p) Y := by
    intro Y hY hd
    refine Set.disjoint_left.mpr fun q hq hy => ?_
    rcases hsub hq with hq | hq
    · exact Set.disjoint_left.mp hd hq hy
    · exact hkernel q (hY q hy) hq
  rw [← hinsert]
  refine hrest.addTable ht ?_ (happart others h.othersUsed (h.othersOwn p hp))
  intro q hq
  have hmq := hk.mem_eq (h.table q hq.1).tables ((h.table q hq.1).disjoint (h.table p hp).apart
    (h.apart p hp q hq.1 (Ne.symm hq.2)))
  rw [own_congr hmq]
  exact happart _ (fun r hr => (h.table q hq.1).tables.used r (own_subset hr))
    (h.apart p hp q hq.1 (Ne.symm hq.2))

/-! ## A walk under the entry 0 -/

theorem Walked.keeps {path : List Idx} {o : Option PtePtr} (h : s.Ok)
    (hw : Walked s s' 3 p path o) (ha : Aside child s.mem s'.mem 2 p 0) :
    Keeps s s' (own s.mem p) where
  ok := hw.ok
  kept q hq ho := by
    refine ⟨(hw.used q).mpr (Or.inl hq), ?_⟩
    by_cases hp : q ∈ pages child s.mem 3 p
    · obtain ⟨i, hi, hq⟩ := mem_pages_of_not_own hp ho
      exact ha.frame i hi q hq
    · exact hw.grows.frame q hp (Pool.Used.not_free (h.pool false) hq)
  contains q := by rw [hw.user]

/-- The walk takes fresh pages only. -/
theorem Walked.own_subset {path : List Idx} {o : Option PtePtr} (hw : Walked s s' 3 p path o)
    (ha : Aside child s.mem s'.mem 2 p 0) : own s'.mem p ⊆ own s.mem p ∪ {q | s.Free false q} := by
  rintro q (rfl | hq)
  · exact Or.inl mem_own_self
  · rcases hw.grows.new (below_subset hq) with hs | hf
    · by_cases ho : q ∈ own s.mem p
      · exact Or.inl ho
      · -- the tables under another entry are as they were
        obtain ⟨i, hi, hqi⟩ := mem_pages_of_not_own hs ho
        rw [← ha.below hi] at hqi
        exact absurd hqi (Set.disjoint_left.mp (hw.grows.sep.2 0 i (Ne.symm hi)) hq)
    · exact Or.inr hf

theorem Inv.walk {path : List Idx} {o : Option PtePtr} (h : Inv s base live inst others)
    (hp : p ∈ live) (hw : Walked s s' 3 p path o) (ha : Aside child s.mem s'.mem 2 p 0) :
    Inv s' base live inst others := by
  have ht := h.table p hp
  have hk := hw.keeps h.ok ha
  have hmb := hk.mem_eq h.kernel.tables ht.apart
  have hsub := hw.own_subset ha
  refine h.change hp hk ⟨hw.tables, ?_, ?_, ?_, ?_⟩ hsub fun _ _ => rfl
  · intro i hi
    rw [ha.entry i hi, hmb base mem_pages_self]
    exact ht.copied i hi
  · rw [pages_congr hmb]
    refine Set.disjoint_left.mpr fun q hq hb => ?_
    rcases hsub hq with hq | hq
    · exact Set.disjoint_left.mp ht.apart hq hb
    · exact Pool.Used.not_free (h.ok.pool false) (h.kernel.tables.used q hb) hq
  · intro path hl d hd
    rw [hw.grows.value _ (by simp [hl])] at hd
    rw [hk.contains]
    exact ht.user path hl d hd
  · intro va hva
    rw [hw.grows.value _ (by rfl)]
    exact ht.maps va hva

/-! ## Writing an entry -/

/-- A path under the entry 0 leads to a page the table does not share. -/
theorem slot_own {mem : PageMem} {path : List Idx} {r : PtePtr} (hl : path.length = 3)
    (hs : slot child mem p (0 :: path) = some r) :
    r.1 ∈ below child mem 2 (mem p 0) := by
  have hne : path ≠ [] := by
    rintro rfl
    cases hl
  rw [slot_cons hne] at hs
  obtain ⟨d, hd, hslot⟩ := Option.bind_eq_some_iff.mp hs
  rw [below_some hd]
  exact slot_mem (i := r.2) hl hslot

theorem setEntry_mem (s : Pools) (r : PtePtr) (e : BitVec 64) :
    (s.setEntry r e).mem = write s.mem r.1 r.2 e := rfl

theorem own_write {r : PtePtr} {e : BitVec 64} {path : List Idx} (ht : Tables s 3 p)
    (hl : path.length = 3) (hs : slot child s.mem p (0 :: path) = some r) :
    own (s.setEntry r e).mem p = own s.mem p ∧ (s.setEntry r e).mem p = s.mem p := by
  have hr := slot_own hl hs
  obtain ⟨d, hd, hrd⟩ := hr
  have hpr : p ≠ r.1 := by
    rintro rfl
    exact (ht.sep.1 0 d hd).2 hrd
  have hp : (s.setEntry r e).mem p = s.mem p := write_of_ne hpr
  have hslot : slot child s.mem d path = some r := by
    have hne : path ≠ [] := by
      rintro rfl
      cases hl
    rw [slot_cons hne, hd] at hs
    exact hs
  have hpages := (value_write (z := 0) (w := e) (ht.sep.1 0 d hd).1 hl hslot).1
  refine ⟨?_, hp⟩
  rw [own, own, hp, below_some hd, below_some hd, setEntry_mem, hpages]

/-- **An entry is written** in a table of `p`, for an address below 2^39. -/
theorem Inv.write {r : PtePtr} {e : BitVec 64} {upage : Vaddr} (h : Inv s base live inst others)
    (hp : p ∈ live) (h0 : PML4 upage = 0) (hu : isUserVaddr upage = true)
    (hs : slot child s.mem p (walkPath upage) = some r)
    (hinst : ∀ q, q ≠ p → inst' q = inst q)
    (hpage : ∀ no, inst' p no = if no = pgNo upage then child e else inst p no)
    (he : ∀ d, child e = some d → s.userPool.contains d = true) :
    Inv (s.setEntry r e) base live inst' others := by
  have ht := h.table p hp
  have hs' : slot child s.mem p (0 :: [PDPE upage, PDX upage, PTX upage]) = some r := by
    rw [← h0]
    exact hs
  have hr : r.1 ∈ own s.mem p := Or.inr (slot_own (by rfl) hs')
  obtain ⟨hown, hmp⟩ := own_write (e := e) ht.tables (by rfl) hs'
  have hk : Keeps s (s.setEntry r e) (own s.mem p) := by
    refine ⟨h.ok.congr (fun _ => rfl) (fun _ => rfl), fun q hq ho => ⟨hq, write_of_ne ?_⟩,
      fun _ => rfl⟩
    rintro rfl
    exact ho hr
  have hmb := hk.mem_eq h.kernel.tables ht.apart
  obtain ⟨hpages, hsep, hvalue⟩ := value_write (z := 0) (w := e) ht.tables.sep (by rfl) hs
  refine h.change hp hk ⟨⟨hsep, ?_⟩, ?_, ?_, ?_, ?_⟩ ?_ hinst
  · intro q hq
    rw [setEntry_mem, hpages] at hq
    exact ht.tables.used q hq
  · intro i hi
    rw [hmp, hmb base mem_pages_self]
    exact ht.copied i hi
  · rw [hown, pages_congr hmb]
    exact ht.apart
  · intro path hl d hd
    rw [setEntry_mem, hvalue _ (by simp [hl])] at hd
    split at hd
    · exact he d hd
    · exact ht.user path hl d hd
  · intro va hva
    have hpath := walkPath_inj (a := va) (b := upage) (by have := isUserVaddr_iff.mp hva; omega)
      (by have := isUserVaddr_iff.mp hu; omega)
    rw [setEntry_mem, hvalue _ (by rfl), hpage]
    by_cases hno : pgNo va = pgNo upage
    · rw [if_pos (hpath.mpr hno), if_pos hno]
    · rw [if_neg fun hc => hno (hpath.mp hc), if_neg hno]
      exact ht.maps va hva
  · rw [hown]
    exact fun q hq => Or.inl hq

/-! ## The operations on one table -/

theorem child_value {path : List Idx} :
    child (value child 0 s.mem p path) = (slot child s.mem p path).bind fun r => child (s.mem r.1 r.2) := by
  unfold value
  split
  · next hs =>
    rw [hs]
    exact child_zero
  · next hs => rw [hs, Option.bind_some]

/-- **`pml4_get_page`** finds the frame that was set, and stays as it is. -/
theorem Inv.getPage (h : Inv s base live inst others) (hp : p ∈ live) {va : Vaddr}
    (hva : isUserVaddr va = true) :
    s.pml4GetPage p va = .ok ((inst p (pgNo va)).map (· + pgOfs va)) := by
  have ht := h.table p hp
  have hmaps := ht.maps va hva
  rw [child_value] at hmaps
  unfold Pools.pml4GetPage
  rw [if_neg (by simp [hva]), pml4eWalk_looks h.ok ht.tables]
  cases hs : slot child s.mem p (walkPath va) with
  | none =>
    rw [hs, Option.bind_none] at hmaps
    rw [← hmaps]
    rfl
  | some r =>
    rw [hs, Option.bind_some] at hmaps
    rw [← hmaps]
    unfold child
    simp only
    split <;> rfl

/-- **`pml4_set_page`** at an address below 2^39 sets the frame of one page of one table. -/
theorem Inv.setPage {upage kpage : Vaddr} {w b : Bool} (h : Inv s base live inst others)
    (hp : p ∈ live) (h0 : PML4 upage = 0) (hc : s.userPool.contains kpage = true)
    (hs : s.pml4SetPage base p upage kpage w = .ok (b, s')) :
    Inv s' base live
      (if b then update inst p (update (inst p) (pgNo upage) (some kpage)) else inst) others := by
  unfold Pools.pml4SetPage at hs
  split at hs
  · cases hs
  next hg =>
  obtain ⟨-, halign, huser, -⟩ : Aligned upage ∧ Aligned kpage ∧ isUserVaddr upage = true ∧ p ≠ base := by
    simpa [not_or] using hg
  obtain ⟨o, s₁, he, hw, ha⟩ := pml4eWalk_spec h.ok (h.table p hp).tables upage true
  rw [h0] at ha
  have h₁ := h.walk hp hw ha
  rw [he] at hs
  cases o with
  | none =>
    cases hs
    exact h₁
  | some r =>
    simp only at hs
    split at hs
    · cases hs
      have hentry : child (vtop kpage ||| (PTE_P ||| (if w then PTE_W else 0) ||| PTE_U)) = some kpage := by
        cases w with
        | false => exact child_entry halign (by decide) (by decide)
        | true => exact child_entry halign (by decide) (by decide)
      refine h₁.write hp h0 huser (hw.slot r rfl) ?_ ?_ ?_
      · intro q hq
        exact update_of_ne hq _ _
      · intro no
        rw [if_pos rfl, update_self, hentry]
        by_cases hno : no = pgNo upage
        · rw [if_pos hno, hno, update_self]
        · rw [if_neg hno, update_of_ne hno]
      · intro d hd
        rw [hentry] at hd
        rw [← Option.some.inj hd, hw.user]
        exact hc
    · cases hs

/-- Under the other entries a table maps what the kernel maps. -/
theorem TableOk.value_high (ht : TableOk s base p f) {i : Idx} {l : List Idx} (hi : i ≠ 0)
    (hne : l ≠ []) :
    value child 0 s.mem p (i :: l) = value child 0 s.mem base (i :: l) := by
  rw [value, value, slot_cons hne, slot_cons hne, ht.copied i hi]

theorem present_clear (e : BitVec 64) : present (e &&& ~~~PTE_P) = false := by
  have h : e &&& ~~~PTE_P &&& PTE_P = 0 := by
    rw [BitVec.and_assoc, BitVec.and_comm (~~~PTE_P) PTE_P]
    have hz : PTE_P &&& ~~~PTE_P = 0 := by decide
    rw [hz]
    exact BitVec.and_zero
  unfold present
  rw [h]
  decide

/-- **`pml4_clear_page`** removes the frame of one page of one table. -/
theorem Inv.clearPage {upage : Vaddr} (h : Inv s base live inst others) (hp : p ∈ live)
    (hs : s.pml4ClearPage p upage = .ok s') :
    Inv s' base live (update inst p (update (inst p) (pgNo upage) none)) others := by
  have ht := h.table p hp
  unfold Pools.pml4ClearPage at hs
  split at hs
  · cases hs
  next hg =>
  obtain ⟨-, huser⟩ : Aligned upage ∧ isUserVaddr upage = true := by simpa [not_or] using hg
  have hmaps := ht.maps upage huser
  rw [child_value] at hmaps
  -- a page that is not mapped is as it was
  have hsame : inst p (pgNo upage) = none →
      update inst p (update (inst p) (pgNo upage) none) = inst := by
    intro hn
    rw [← hn, update_eq_self, update_eq_self]
  rw [pml4eWalk_looks h.ok ht.tables] at hs
  cases hslot : slot child s.mem p (walkPath upage) with
  | none =>
    rw [hslot] at hs hmaps
    cases hs
    rw [hsame hmaps.symm]
    exact h
  | some r =>
    rw [hslot, Option.bind_some] at hmaps
    rw [hslot] at hs
    simp only at hs
    cases hs
    split
    · next hpres =>
      have h0 : PML4 upage = 0 := by
        rcases PML4_of_user huser with h0 | ⟨h1, -⟩
        · exact h0
        · -- the kernel maps nothing there
          have hz := ht.value_high (i := 1) (l := [PDPE upage, PDX upage, PTX upage]) (by decide)
            (by simp)
          rw [← h1] at hz
          have hbase := h.kernel.user upage huser
          rw [walkPath, ← hz, value] at hbase
          rw [walkPath] at hslot
          rw [hslot] at hbase
          have hr : s.mem r.1 r.2 = 0 := hbase
          exact absurd hpres (by rw [hr]; decide)
      refine h.write hp h0 huser hslot ?_ ?_ ?_
      · intro q hq
        exact update_of_ne hq _ _
      · intro no
        rw [update_self, child_none.mpr (present_clear _)]
        by_cases hno : no = pgNo upage
        · rw [if_pos hno, hno, update_self]
        · rw [if_neg hno, update_of_ne hno]
      · intro d hd
        rw [child_none.mpr (present_clear _)] at hd
        cases hd
    · next hpres =>
      rw [child_none.mpr (by simpa using hpres)] at hmaps
      rw [hsame hmaps.symm]
      exact h

/-! ## Destroying -/

/-- The pages `T` of the kernel pool and the frames `F` of the user pool were given back. -/
structure Freed (s s' : Pools) (T F : Set Vaddr) : Prop extends Keeps s s' T where
  gone : ∀ q ∈ T, ¬ s'.Used false q
  free : ∀ q ∈ F, ¬ s'.Used true q
  used : ∀ user q, s'.Used user q → s.Used user q

theorem Freed.refl (h : s.Ok) : Freed s s ∅ ∅ where
  ok := h
  kept _ hq _ := ⟨hq, rfl⟩
  contains _ := rfl
  gone _ hq := hq.elim
  free _ hq := hq.elim
  used _ _ hq := hq

theorem Freed.trans {s₁ s₂ : Pools} {T T' F F' : Set Vaddr} (h : Freed s s₁ T F)
    (h' : Freed s₁ s₂ T' F') : Freed s s₂ (T ∪ T') (F ∪ F') where
  ok := h'.ok
  kept q hq hT := by
    obtain ⟨hu, hm⟩ := h.kept q hq fun hc => hT (Or.inl hc)
    obtain ⟨hu', hm'⟩ := h'.kept q hu fun hc => hT (Or.inr hc)
    exact ⟨hu', hm'.trans hm⟩
  contains q := (h'.contains q).trans (h.contains q)
  gone := by
    rintro q (hq | hq)
    · exact fun hc => h.gone q hq (h'.used false q hc)
    · exact h'.gone q hq
  free := by
    rintro q (hq | hq)
    · exact fun hc => h.free q hq (h'.used true q hc)
    · exact h'.free q hq
  used user q hq := h.used user q (h'.used user q hq)

/-- A page of the kernel pool is given back. -/
theorem GaveBack.freed (hg : Pools.GaveBack s s' false q) : Freed s s' {q} ∅ := by
  refine ⟨⟨hg.ok, ?_, hg.contains true⟩, ?_, fun _ hr => hr.elim, ?_⟩
  · intro r hr hne
    refine ⟨(hg.used r).mpr ⟨hr, hne⟩, ?_⟩
    rw [hg.mem]
    exact update_of_ne hne _ _
  · rintro r rfl hc
    exact ((hg.used r).mp hc).2 rfl
  · intro user r hr
    cases user with
    | false => exact ((hg.used r).mp hr).1
    | true =>
      rw [Pools.Used, hg.other true (by decide)] at hr
      exact hr

/-- A frame of the user pool is given back. -/
theorem GaveBack.freedFrame (h : s.Ok) (hg : Pools.GaveBack s s' true q) : Freed s s' ∅ {q} := by
  have hkernel : s'.pool false = s.pool false := hg.other false (by decide)
  have hq : s.userPool.contains q = true := by
    obtain ⟨i, hi, rfl⟩ := hg.was
    exact Pool.contains_page (h.pool true) (Pool.lt_of_bit hi)
  refine ⟨⟨hg.ok, ?_, hg.contains true⟩, fun _ hr => hr.elim, ?_, ?_⟩
  · intro r hr _
    refine ⟨?_, ?_⟩
    · rw [Pools.Used, hkernel]
      exact hr
    · rw [hg.mem]
      exact update_of_ne (h.used_ne hr hq) _ _
  · rintro r rfl hc
    exact ((hg.used r).mp hc).2 rfl
  · intro user r hr
    cases user with
    | true => exact ((hg.used r).mp hr).1
    | false =>
      rw [Pools.Used, hkernel] at hr
      exact hr

/-- A function that gives back a tree with `n` levels below its root, and the frames it maps. -/
def Destroys (next : Pools → Vaddr → Except Panic Pools) (n : Nat) : Prop :=
  ∀ s c s', s.Ok → Tables s n c → (∀ f ∈ frames s.mem n c, s.userPool.contains f = true) →
    next s c = .ok s' → Freed s s' (pages child s.mem n c) (frames s.mem n c)

theorem mem_indices (i : Idx) : i ∈ Pools.indices :=
  List.mem_map.mpr ⟨i.toFin, List.mem_finRange _, rfl⟩

theorem nodup_indices : Pools.indices.Nodup := by
  refine List.Nodup.map ?_ (List.nodup_finRange 512)
  intro i j hij
  exact congrArg BitVec.toFin hij

/-- The entry as the destroying functions read it. -/
theorem child_ptov (e : BitVec 64) :
    child e = if present (ptov e) then some (PTE_ADDR (ptov e)) else none := by
  rw [child, present_ptov, ptov_pteAddr]

section Loop

variable {next : Pools → Vaddr → Except Panic Pools} {T F : Idx → Set Vaddr}

/-- What is under each entry of `table`: the pages `T` and the frames `F`. -/
structure Under (s : Pools) (next : Pools → Vaddr → Except Panic Pools) (table : Vaddr)
    (T F : Idx → Set Vaddr) : Prop where
  used : ∀ i, ∀ q ∈ T i, s.Used false q ∧ q ≠ table
  apart : ∀ i j, i ≠ j → Disjoint (T i) (T j)
  none : ∀ i, child (s.mem table i) = none → T i = ∅ ∧ F i = ∅
  some : ∀ i d s₁ s₂, child (s.mem table i) = some d → s₁.Ok →
    (∀ q ∈ T i, s₁.Used false q ∧ s₁.mem q = s.mem q) →
    (∀ q, s₁.userPool.contains q = s.userPool.contains q) → next s₁ d = .ok s₂ →
    Freed s₁ s₂ (T i) (F i)

/-- The loop, after the entries `done`. -/
theorem destroyEntries_spec {table : Vaddr} (hu : Under s next table T F)
    (ht : s.Used false table) : ∀ (rest : List Idx) (done : Set Idx) {s₁ s₂ : Pools},
    rest.Nodup → (∀ i ∈ rest, i ∉ done) → Freed s s₁ (⋃ i ∈ done, T i) (⋃ i ∈ done, F i) →
    Pools.destroyEntries next table s₁ rest = .ok s₂ →
    Freed s s₂ (⋃ i ∈ done ∪ {i | i ∈ rest}, T i) (⋃ i ∈ done ∪ {i | i ∈ rest}, F i)
  | [], done, s₁, s₂, _, _, hf, he => by
    have hdone : done ∪ {i | i ∈ ([] : List Idx)} = done := by
      ext i
      simp
    rw [hdone]
    cases he
    exact hf
  | i :: rest, done, s₁, s₂, hn, hd, hf, he => by
    have hdone : done ∪ {j | j ∈ i :: rest} = insert i done ∪ {j | j ∈ rest} := by
      ext j
      simp only [Set.mem_union, Set.mem_ofPred_eq, List.mem_cons, Set.mem_insert_iff]
      constructor
      · rintro (hj | rfl | hj)
        · exact Or.inl (Or.inr hj)
        · exact Or.inl (Or.inl rfl)
        · exact Or.inr hj
      · rintro ((rfl | hj) | hj)
        · exact Or.inr (Or.inl rfl)
        · exact Or.inl hj
        · exact Or.inr (Or.inr hj)
    rw [hdone]
    obtain ⟨hi, hn⟩ := List.nodup_cons.mp hn
    have hd' : ∀ j ∈ rest, j ∉ insert i done := by
      rintro j hj (rfl | hc)
      · exact hi hj
      · exact hd j (List.mem_cons_of_mem i hj) hc
    have hidone : i ∉ done := hd i List.mem_cons_self
    -- the table is none of the pages given back, so its entries are as they were
    have htable : s₁.mem table = s.mem table := by
      refine (hf.kept table ht ?_).2
      rintro hc
      obtain ⟨j, -, hj⟩ := Set.mem_iUnion₂.mp hc
      exact (hu.used j table hj).2 rfl
    rw [Pools.destroyEntries, htable] at he
    have hch := child_ptov (s.mem table i)
    split at he
    · next hp =>
      rw [if_pos hp] at hch
      split at he
      · cases he
      · next s' hnext =>
        have hsame : ∀ q ∈ T i, s₁.Used false q ∧ s₁.mem q = s.mem q := by
          intro q hq
          refine hf.kept q (hu.used i q hq).1 ?_
          rintro hc
          obtain ⟨j, hj, hqj⟩ := Set.mem_iUnion₂.mp hc
          have hij : i ≠ j := by
            rintro rfl
            exact hidone hj
          exact Set.disjoint_left.mp (hu.apart i j hij) hq hqj
        have hstep := hf.trans (hu.some i _ s₁ s' hch hf.ok hsame hf.contains hnext)
        rw [Set.union_comm _ (T i), Set.union_comm _ (F i), ← Set.biUnion_insert,
          ← Set.biUnion_insert] at hstep
        exact destroyEntries_spec hu ht rest (insert i done) hn hd' hstep he
    · next hp =>
      rw [if_neg hp] at hch
      obtain ⟨hT, hF⟩ := hu.none i hch
      refine destroyEntries_spec hu ht rest (insert i done) hn hd' ?_ he
      rw [Set.biUnion_insert, Set.biUnion_insert, hT, hF, Set.empty_union, Set.empty_union]
      exact hf

theorem biUnion_all {is : List Idx} (h : ∀ i, i ∈ is) (G : Idx → Set Vaddr) :
    (⋃ i ∈ (∅ ∪ {i | i ∈ is} : Set Idx), G i) = ⋃ i, G i := by
  ext q
  simp [h]

/-- The loop over all indices, in some order, and the table. -/
theorem destroyTable_spec {table : Vaddr} {is : List Idx} (hall : ∀ i, i ∈ is)
    (hnodup : is.Nodup) (h : s.Ok) (hu : Under s next table T F) (ht : s.Used false table)
    (he : Pools.destroyTable next is s table = .ok s') :
    Freed s s' (insert table (⋃ i, T i)) (⋃ i, F i) := by
  unfold Pools.destroyTable at he
  split at he
  · cases he
  next s₁ hloop =>
  have hf := destroyEntries_spec hu ht is ∅ hnodup (fun _ _ hc => hc)
    (by simpa using Freed.refl h) hloop
  rw [biUnion_all hall, biUnion_all hall] at hf
  have hused : s₁.Used false table := by
    refine (hf.kept table ht ?_).1
    intro hc
    obtain ⟨j, hj⟩ := Set.mem_iUnion.mp hc
    exact (hu.used j table hj).2 rfl
  obtain ⟨s₂, he', hg⟩ := Pools.freePage_of_used hf.ok hused
  rw [he'] at he
  cases he
  have hfinal := hf.trans (GaveBack.freed hg)
  rw [Set.union_singleton, Set.union_empty] at hfinal
  exact hfinal

theorem destroyLevel_spec {table : Vaddr} (h : s.Ok) (hu : Under s next table T F)
    (ht : s.Used false table) (he : Pools.destroyLevel next s table = .ok s') :
    Freed s s' (insert table (⋃ i, T i)) (⋃ i, F i) :=
  destroyTable_spec mem_indices nodup_indices h hu ht he

end Loop

theorem destroys_pt : Destroys Pools.ptDestroy 0 := by
  intro s c s' h ht hF he
  have hu : Under s Pools.pallocFreePage c (fun _ => ∅)
      (fun i => {f | child (s.mem c i) = some f}) := by
    refine ⟨fun _ _ hq => hq.elim, fun _ _ _ => disjoint_bot_left, ?_, ?_⟩
    · intro i hi
      refine ⟨rfl, ?_⟩
      ext f
      simp [hi]
    · intro i d s₁ s₂ hd h₁ _ hc hfree
      have hfc : s₁.userPool.contains d = true := by
        rw [hc]
        exact hF d ⟨[i], rfl, hd⟩
      have hd0 : d ≠ 0 := Pool.ne_zero_of_contains (h₁.pool true) hfc
      obtain ⟨user, hg⟩ := Pools.freePage_spec h₁ hd0 hfree
      have hset : {f | child (s.mem c i) = some f} = ({d} : Set Vaddr) := by
        ext f
        simp [hd, eq_comm]
      rw [hset]
      cases user with
      | true => exact GaveBack.freedFrame h₁ hg
      | false => exact absurd rfl (h₁.used_ne hg.was hfc)
  have hf := destroyLevel_spec h hu (ht.used c mem_pages_self) he
  have hT : insert c (⋃ _i : Idx, (∅ : Set Vaddr)) = pages child s.mem 0 c := by
    rw [Set.iUnion_empty]
    ext q
    simp [pages]
  have hFr : (⋃ i, {f | child (s.mem c i) = some f}) = frames s.mem 0 c := by
    ext f
    rw [Set.mem_iUnion]
    constructor
    · rintro ⟨i, hi⟩
      exact ⟨[i], rfl, hi⟩
    · rintro ⟨path, hl, hp⟩
      match path, hl with
      | [i], _ => exact ⟨i, hp⟩
  rw [hT, hFr] at hf
  exact hf

theorem destroys_level {next : Pools → Vaddr → Except Panic Pools} (hnext : Destroys next n) :
    Destroys (Pools.destroyLevel next) (n + 1) := by
  intro s c s' h ht hF he
  have hvalue : ∀ {i d} {path : List Idx}, child (s.mem c i) = some d → path.length = n + 1 →
      value child 0 s.mem c (i :: path) = value child 0 s.mem d path :=
    fun hd hl => value_cons_some (ne_nil_of_length hl) hd
  have hu : Under s next c (fun i => below child s.mem n (s.mem c i))
      (fun i => {f | ∃ path : List Idx, path.length = n + 1 ∧
        child (value child 0 s.mem c (i :: path)) = some f}) := by
    refine ⟨?_, ht.sep.2, ?_, ?_⟩
    · intro i q hq
      refine ⟨ht.used q (below_subset hq), ?_⟩
      rintro rfl
      obtain ⟨d, hd, hq⟩ := hq
      exact (ht.sep.1 i d hd).2 hq
    · intro i hi
      refine ⟨below_none hi, ?_⟩
      ext f
      constructor
      · rintro ⟨path, hl, hp⟩
        rw [value_cons_none (ne_nil_of_length hl) hi, child_zero] at hp
        cases hp
      · exact fun hc => hc.elim
    · intro i d s₁ s₂ hd h₁ hsame hc hrun
      rw [below_some hd] at hsame ⊢
      have hm : ∀ q ∈ pages child s.mem n d, s₁.mem q = s.mem q := fun q hq => (hsame q hq).2
      have ht₁ : Tables s₁ n d := by
        refine ⟨(ht.sep.1 i d hd).1.congr hm, ?_⟩
        rw [pages_congr hm]
        exact fun q hq => (hsame q hq).1
      have hframes : frames s₁.mem n d = {f | ∃ path : List Idx, path.length = n + 1 ∧
          child (value child 0 s.mem c (i :: path)) = some f} := by
        ext f
        constructor
        · rintro ⟨path, hl, hp⟩
          rw [value_congr hl hm] at hp
          exact ⟨path, hl, by rw [hvalue hd hl]; exact hp⟩
        · rintro ⟨path, hl, hp⟩
          rw [hvalue hd hl] at hp
          exact ⟨path, hl, by rw [value_congr hl hm]; exact hp⟩
      have hfreed := hnext s₁ d s₂ h₁ ht₁ ?_ hrun
      · rw [pages_congr hm, hframes] at hfreed
        exact hfreed
      · intro f hf
        rw [hframes] at hf
        obtain ⟨path, hl, hp⟩ := hf
        rw [hc]
        exact hF f ⟨i :: path, by simp [hl], hp⟩
  have hf := destroyLevel_spec h hu (ht.used c mem_pages_self) he
  have hT : insert c (⋃ i, below child s.mem n (s.mem c i)) = pages child s.mem (n + 1) c := by
    ext q
    rw [mem_pages_succ, Set.mem_insert_iff, Set.mem_iUnion]
  have hFr : (⋃ i, {f | ∃ path : List Idx, path.length = n + 1 ∧
      child (value child 0 s.mem c (i :: path)) = some f}) = frames s.mem (n + 1) c := by
    ext f
    rw [Set.mem_iUnion]
    constructor
    · rintro ⟨i, path, hl, hp⟩
      exact ⟨i :: path, by simp [hl], hp⟩
    · rintro ⟨path, hl, hp⟩
      match path, hl with
      | i :: path, hl => exact ⟨i, path, by simpa using hl, hp⟩
  rw [hT, hFr] at hf
  exact hf

/-- The frames a table maps below 2^39. -/
def ownFrames (mem : PageMem) (p : Vaddr) : Set Vaddr :=
  {f | ∃ path : List Idx, path.length = 3 ∧ child (value child 0 mem p (0 :: path)) = some f}

/-- **`pml4_destroy`** gives back the table's own pages and the frames it maps there. -/
theorem pml4Destroy_spec (h : s.Ok) (ht : TableOk s base p f)
    (he : s.pml4Destroy base p = .ok s') : Freed s s' (own s.mem p) (ownFrames s.mem p) := by
  unfold Pools.pml4Destroy at he
  rw [if_neg (ht.tables.ne_zero h)] at he
  split at he
  · cases he
  have hused : s.Used false p := ht.tables.used p mem_pages_self
  have hch := child_ptov (s.mem p 0)
  simp only at he
  split at he
  · next hp =>
    rw [if_pos hp] at hch
    split at he
    · cases he
    next s₁ hrun =>
    obtain ⟨hsep, hnot⟩ := ht.tables.sep.1 0 _ hch
    have hframes : ownFrames s.mem p = frames s.mem 2 (PTE_ADDR (ptov (s.mem p 0))) := by
      ext f
      constructor
      · rintro ⟨path, hl, hf⟩
        rw [value_cons_some (ne_nil_of_length hl) hch] at hf
        exact ⟨path, hl, hf⟩
      · rintro ⟨path, hl, hf⟩
        exact ⟨path, hl, by rw [value_cons_some (ne_nil_of_length hl) hch]; exact hf⟩
    have hf := destroys_level (destroys_level destroys_pt) s _ s₁ h
      ⟨hsep, fun q hq => ht.tables.used q (RadixTree.pages_subset hch hq)⟩
      (by
        intro f hf
        rw [← hframes] at hf
        obtain ⟨path, hl, hf⟩ := hf
        exact ht.user path hl f hf) hrun
    obtain ⟨s₂, he', hg⟩ := Pools.freePage_of_used hf.ok (hf.kept p hused hnot).1
    rw [he'] at he
    cases he
    have hfinal := hf.trans (GaveBack.freed hg)
    rw [Set.union_singleton, Set.union_empty, ← hframes] at hfinal
    rw [own, below_some hch]
    exact hfinal
  · next hp =>
    rw [if_neg hp] at hch
    obtain ⟨s₂, he', hg⟩ := Pools.freePage_of_used h hused
    rw [he'] at he
    cases he
    rw [own, below_none hch, insert_empty_eq]
    refine { GaveBack.freed hg with free := ?_ }
    rintro f ⟨path, hl, hf⟩
    rw [value_cons_none (ne_nil_of_length hl) hch, child_zero] at hf
    cases hf

end Pintos
