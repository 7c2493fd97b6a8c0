import Pintos.Properties.HeapShape

/-!
# `malloc`

* `HeapOk` — the state of the allocator, with the arenas and the free lists it has
* `layout_of_groups` — groups of pages that are apart make arenas that are
* `HeapOk.malloc` — **it gets a block that is large enough or no memory, and no assertion fails**
-/

namespace Pintos

open Function LittleEndian

/-- Where the pools and the descriptors are. -/
structure HeapPlace (s₀ : WordPools) (descs : Vaddr) : Prop where
  placed : s₀.Placed
  aligned : descs.toNat % 8 = 0
  pos : 0 < descs.toNat
  inRange : descs.toNat + descBytes * DESC_MAX ≤ 2 ^ 64
  off : descs.toNat + descBytes * DESC_MAX ≤ s₀.kernelPool.base.toNat ∨
    s₀.kernelPool.base.toNat + 4096 * s₀.kernelPool.usedMap.bitCnt ≤ descs.toNat

/-- The pages of the arenas are taken from the kernel pool. -/
def ArenaPages (s₀ p : WordPools) (arenas : List Arena) : Prop :=
  GroupsInv s₀ { toWordPools := p, live := arenas.map Arena.group }

structure HeapOk (s₀ : WordPools) (s : KernelHeap) (arenas : List Arena) (free : Nat → List Vaddr) : Prop where
  shape : HeapShape s.mem s.descs arenas free
  descCnt : s.descCnt = CLASSES
  pages : ArenaPages s₀ s.toWordPools arenas

section

variable {s₀ p : WordPools} {s s' : KernelHeap} {descs x y : Vaddr} {arenas : List Arena} {free : Nat → List Vaddr}
  {A B : Arena} {i j k n cnt : Nat} {alloc : Bool} {P : HeapPart}

/-! ## Pages -/

/-- A group of the kernel pool, by its first index. -/
theorem ArenaPages.index (hg : ArenaPages s₀ p arenas) (hA : A ∈ arenas) :
    ∃ idx, A.page = (s₀.pool false).page idx ∧ idx + A.pages ≤ (s₀.pool false).usedMap.bitCnt :=
  hg.inPool A.group (List.mem_map_of_mem hA)

/-- Two entries of the list share no page. -/
theorem ArenaPages.pairwise (hg : ArenaPages s₀ p arenas) :
    arenas.Pairwise fun A B => Disjoint {q | A.group.Has q} {q | B.group.Has q} :=
  List.Pairwise.of_map Arena.group (fun _ _ hd => hd) hg.held.apart

theorem Arena.Sized.has_page (h : A.Sized) : A.group.Has A.page :=
  ⟨0, h.pages_pos, by rw [Nat.mul_zero]; exact (BitVec.add_zero _).symm⟩

theorem ArenaPages.nodup (hg : ArenaPages s₀ p arenas) (hsized : ∀ A ∈ arenas, A.Sized) : arenas.Nodup := by
  refine hg.pairwise.imp_of_mem fun {A B} hA _ hd hc => ?_
  subst hc
  exact Set.disjoint_left.mp hd (hsized A hA).has_page (hsized A hA).has_page

theorem ArenaPages.disjoint (hg : ArenaPages s₀ p arenas) (hA : A ∈ arenas) (hB : B ∈ arenas) (hne : A ≠ B) :
    Disjoint {q | A.group.Has q} {q | B.group.Has q} := by
  have hsymm : Std.Symm fun A B : Arena => Disjoint {q | A.group.Has q} {q | B.group.Has q} :=
    ⟨fun _ _ hd => hd.symm⟩
  exact hg.pairwise.forall hA hB hne

/-- **Groups of pages that are apart make arenas that are.** -/
theorem layout_of_groups (hp : HeapPlace s₀ descs) (hg : ArenaPages s₀ p arenas) (hsized : ∀ A ∈ arenas, A.Sized) :
    HeapLayout descs arenas := by
  have hplaced := hp.placed.pool false
  have halign := aligned_iff.mp hplaced.aligned
  have hrange := hplaced.inRange
  have hbase : 0 < (s₀.pool false).base.toNat := by
    refine Nat.pos_of_ne_zero fun hb => hplaced.ne_zero (BitVec.eq_of_toNat_eq ?_)
    rw [hb]
    rfl
  have hnat : ∀ A ∈ arenas, ∃ idx, A.page = (s₀.pool false).page idx ∧
      A.page.toNat = (s₀.pool false).base.toNat + 4096 * idx ∧ idx + A.pages ≤ (s₀.pool false).usedMap.bitCnt := by
    intro A hA
    obtain ⟨idx, hpage, hle⟩ := hg.index hA
    have hpos := (hsized A hA).pages_pos
    refine ⟨idx, hpage, ?_, hle⟩
    rw [hpage]
    exact WordPool.page_toNat hplaced (by omega)
  refine ⟨fun A hA => ?_, fun A hA B hB hne => ?_, hp.aligned, hp.pos, hp.inRange, fun A hA => ?_⟩
  · obtain ⟨idx, -, hn, hle⟩ := hnat A hA
    exact ⟨hsized A hA, by omega, by omega, by omega⟩
  · obtain ⟨idx, hpage, hn, hle⟩ := hnat A hA
    obtain ⟨idx', hpage', hn', hle'⟩ := hnat B hB
    have hdisj := hg.disjoint hA hB hne
    have hApos := (hsized A hA).pages_pos
    have hBpos := (hsized B hB).pages_pos
    by_contra hover
    -- an index that both have
    obtain ⟨j, hj⟩ : ∃ j, j = max idx idx' := ⟨_, rfl⟩
    have hjA : idx ≤ j ∧ j < idx + A.pages := by omega
    have hjB : idx' ≤ j ∧ j < idx' + B.pages := by omega
    have hinA : A.group.Has ((s₀.pool false).page j) := by
      refine ⟨j - idx, by show j - idx < A.pages; omega, ?_⟩
      show (s₀.pool false).page j = A.page + _
      rw [hpage, WordPool.page_add, Nat.add_sub_cancel' hjA.1]
    have hinB : B.group.Has ((s₀.pool false).page j) := by
      refine ⟨j - idx', by show j - idx' < B.pages; omega, ?_⟩
      show (s₀.pool false).page j = B.page + _
      rw [hpage', WordPool.page_add, Nat.add_sub_cancel' hjB.1]
    exact Set.disjoint_left.mp hdisj hinA hinB
  · obtain ⟨idx, -, hn, hle⟩ := hnat A hA
    have hoff := hp.off
    have hpool : s₀.pool false = s₀.kernelPool := rfl
    rw [hpool] at hn hle
    omega

theorem HeapOk.nodup (h : HeapOk s₀ s arenas free) : arenas.Nodup :=
  h.pages.nodup fun A hA => (h.shape.layout.ok A hA).toSized

/-- The arenas beside one of them. -/
theorem HeapOk.mem_erase (h : HeapOk s₀ s arenas free) : B ∈ arenas.erase A ↔ B ≠ A ∧ B ∈ arenas :=
  h.nodup.mem_erase_iff

theorem ArenaPages.erase_group (hl : HeapLayout descs arenas) (hA : A ∈ arenas) :
    (arenas.map Arena.group).erase A.group = (arenas.erase A).map Arena.group := by
  obtain ⟨l₁, l₂, hnot, hsplit, herase⟩ := List.exists_erase_eq hA
  have hnotGroup : A.group ∉ l₁.map Arena.group := by
    intro hmem
    obtain ⟨B, hB, heq⟩ := List.mem_map.mp hmem
    have hBA : B = A := hl.page_inj (hsplit ▸ List.mem_append_left _ hB) hA (congrArg PageGroup.pages heq)
    exact hnot (hBA ▸ hB)
  rw [herase, hsplit, List.map_append, List.map_cons, List.erase_append_right _ hnotGroup, List.erase_cons_head,
    List.map_append]

/-- The memory is not what `palloc.c` keeps. -/
theorem WordPools.SamePlace.withMem (h : WordPools.SamePlace s₀ p) (mem : PageMem) :
    WordPools.SamePlace s₀ { p with mem := mem } := by
  have hpool : ∀ user, ({ p with mem := mem } : WordPools).pool user = p.pool user := WordPools.pool_withMem p mem
  refine ⟨fun user => ?_, fun user => ?_, fun user => ?_⟩
  · rw [hpool]
    exact h.maps user
  · rw [hpool]
    exact h.base user
  · rw [hpool]
    exact h.bitCnt user

theorem ArenaPages.withMem (h : ArenaPages s₀ p arenas) (mem : PageMem) :
    ArenaPages s₀ { p with mem := mem } arenas := by
  refine ⟨h.same.withMem mem, h.inPool, h.held.apart, fun q => ?_, h.held.usable⟩
  refine Iff.trans ?_ (h.held.used_iff q)
  show (∃ user, _) ↔ ∃ user, _
  refine exists_congr fun user => ?_
  rw [WordPools.pool_withMem]

/-- `palloc_get_multiple` without `PAL_ZERO` writes nothing. -/
theorem getMultiple_mem {pages : Option Vaddr} {t : WordPools} (h : p.pallocGetMultiple {} cnt = .ok (pages, t)) :
    t.mem = p.mem := by
  unfold WordPools.pallocGetMultiple at h
  dsimp only at h
  split at h
  · rw [if_neg Bool.false_ne_true] at h
    cases h
    rfl
  · cases h
    rw [if_neg Bool.false_ne_true]
    exact WordPools.setPool_mem _ _ _

theorem freeMultiple_mem {pages : Vaddr} {t : WordPools} (h : p.pallocFreeMultiple pages cnt = .ok t) :
    t.mem = p.mem ∨ t.mem = memset p.mem pages 0xcccccccccccccccc cnt := by
  unfold WordPools.pallocFreeMultiple at h
  split at h
  · cases h
  split at h
  · cases h
    exact .inl rfl
  split at h
  · cases h
  dsimp only at h
  split at h
  · cases h
    exact .inr rfl
  · cases h

/-- There are not as many pages. -/
def KernelHeap.NoPages (s : KernelHeap) (alloc : Bool) (cnt : Nat) : Prop :=
  alloc = false ∨ ¬ ∃ i, i + cnt ≤ (s.pool false).usedMap.bitCnt ∧
    ∀ j, i ≤ j → j < i + cnt → (s.pool false).usedMap.test j = false

theorem pallocGet_spec (hp : s₀.Placed) (hg : ArenaPages s₀ s.toWordPools arenas) (alloc : Bool) (cnt : Nat) :
    (s.pallocGet alloc cnt = .ok (none, s) ∧ s.NoPages alloc cnt) ∨
      ∃ a t, s.pallocGet alloc cnt = .ok (some a, s.setPools t) ∧ ¬ s.NoPages alloc cnt ∧ t.mem = s.mem ∧
        ∀ cls, ArenaPages s₀ t ({ page := a, cls := cls, pages := cnt } :: arenas) := by
  unfold KernelHeap.pallocGet
  cases alloc with
  | false => exact .inl ⟨rfl, .inl rfl⟩
  | true =>
    rcases WordPools.getMultiple_spec s.toWordPools {} cnt with ⟨idx, t, he, hle, hrun, -⟩ | ⟨hno, he⟩
    · refine .inr ⟨_, t, ?_, ?_, getMultiple_mem he, fun cls => GroupsInv.get hp hg he⟩
      · rw [if_pos rfl, he]
        rfl
      · exact not_or.mpr ⟨nofun, not_not.mpr ⟨idx, hle, hrun⟩⟩
    · refine .inl ⟨?_, .inr hno⟩
      rw [if_pos rfl, he]
      rfl

/-- **The pages of an arena are given back.** What other arenas have stays. -/
theorem pallocFree_spec (hp : s₀.Placed) (hg : ArenaPages s₀ s.toWordPools arenas) (hl : HeapLayout s.descs arenas)
    (hA : A ∈ arenas) :
    ∃ t, s.pallocFree A.page A.pages = .ok (s.setPools t) ∧ ArenaPages s₀ t (arenas.erase A) ∧
      ∀ P : HeapPart, P.Of (arenas.erase A) → Agree (P.words s.descs) s.mem t.mem := by
  have hnodup : arenas.Nodup := hg.nodup fun A hA => (hl.ok A hA).toSized
  obtain ⟨t, he, hinv⟩ := GroupsInv.free hp hg (List.mem_map_of_mem hA)
  have he' : s.toWordPools.pallocFreeMultiple A.page A.pages = .ok t := he
  refine ⟨t, ?_, ?_, fun P hP => ?_⟩
  · rw [KernelHeap.pallocFree, he']
    rfl
  · rw [ArenaPages, ← ArenaPages.erase_group hl hA]
    exact hinv
  · have hPof : P.Of arenas := hP.mono fun _ => List.mem_of_mem_erase
    have hhome : P.home ≠ some A := by
      intro hh
      have hin := hP.home_mem hh
      exact (hnodup.mem_erase_iff.mp hin).1 rfl
    have hapart := hl.home_apart hPof hA hhome
    rcases freeMultiple_mem he' with hmem | hmem
    · rw [hmem]
      exact .refl _ _
    · rw [hmem]
      refine Agree.memset fun a ha j hj hc => ?_
      have hin := (hl.mem_words hPof).mp ha
      have hok := hl.ok A hA
      have hrange := hok.inRange
      have hnat := congrArg BitVec.toNat hc
      rw [pgRoundDown_toNat, BitVec.toNat_add, BitVec.toNat_ofNat, PGSIZE] at hnat
      have halign := hok.aligned
      omega

/-! ## The free lists -/

/-- The slot is on no free list. -/
def Taken (arenas : List Arena) (free : Nat → List Vaddr) (x : Vaddr) : Prop :=
  ∃ A ∈ arenas, ∃ k < A.slots, x = A.slot k ∧ ∀ i, A.cls = some i → x ∉ free i

/-! ## Taking a block -/

theorem HeapShape.countP_of_notMem (h : HeapShape s.mem descs arenas free) (hA : A ∈ arenas) (hk : k < A.slots)
    (hB : B ∈ arenas) (hne : B ≠ A) : decide (pgRoundDown (A.slot k) = B.page) = false := by
  rw [decide_eq_false_iff_not, ((h.layout.ok A hA).slot_page hk).1]
  exact fun hc => hne (h.layout.page_inj hB hA hc.symm)

theorem HeapOk.takeBlock {xs : List Vaddr} (h : HeapOk s₀ s arenas free) (hi : i < CLASSES) (hfree : free i = x :: xs) :
    ∃ mem, s.takeBlock (descAt s.descs i) = .ok (x, s.setMem mem) ∧
      HeapOk s₀ (s.setMem mem) arenas (update free i xs) ∧
      ∀ P : HeapPart, P.Of arenas → P.Off i (free i) → (∀ A, P ≠ .header A) → Agree (P.words s.descs) s.mem mem := by
  have hl := h.shape.layout
  have hlist := h.shape.list i hi
  have hslots := h.shape.slots hi
  obtain ⟨A, hA, hcls, k, hk, hx⟩ := h.shape.onList i hi x (hfree ▸ List.mem_cons_self)
  have hsub : ∀ x ∈ listNodes (freeList (descAt s.descs i)) (free i), x ∈ heapNodes s.descs arenas :=
    listNodes_sub hi hslots
  rw [hfree] at hlist hsub hslots
  obtain ⟨mem₁, hpop, hlist₁, hagree⟩ := hlist.popFront hl.elems hsub
  have hframe : ∀ P : HeapPart, P.Of arenas → P.Off i (free i) → Agree (P.words s.descs) s.mem mem₁ := by
    intro P hP hoff
    rw [hfree] at hoff
    exact hagree.mono (HeapPart.Off.words hl hi hslots hP hoff)
  have hheader := (h.shape.header A hA).congr hl hA (hframe _ hA (HeapPart.off_header A))
  have hcount : A.freeCount free = (xs.countP fun y => pgRoundDown y = A.page) + 1 := by
    rw [Arena.freeCount, hcls]
    dsimp only
    rw [hfree, List.countP_cons_of_pos]
    rw [decide_eq_true_iff, hx]
    exact ((hl.ok A hA).slot_page hk).1
  have hblock := blockToArena_slot hl hA hk hheader fun j hj =>
    (h.shape.desc j hj).congr hl hj (hframe (.desc j) hj (HeapPart.off_desc j))
  have hdec : mem₁.freeCnt A.page - 1 = BitVec.ofNat 64 (xs.countP fun y => pgRoundDown y = A.page) := by
    rw [hheader.cnt, hcount, BitVec.ofNat_add]
    exact BitVec.add_sub_cancel _ _
  refine ⟨mem₁.setFreeCnt A.page (mem₁.freeCnt A.page - 1), ?_, ⟨?_, h.descCnt, h.pages.withMem _⟩, ?_⟩
  · rw [KernelHeap.takeBlock, hpop]
    show (mem₁.blockToArena x >>= _) = _
    rw [hx, hblock]
    rfl
  · rw [hdec]
    refine h.shape.relist (A := A) hl hi hcls (fun B hB _ => hB) (fun B hB _ => hB) ?_ ?_ ?_ ?_ ?_
    · refine isList_congr hlist₁ hl hi (fun y hy => hslots y (List.mem_cons_of_mem _ hy)) fun P hP hon => ?_
      refine agree_setFreeCnt hl hA hP ?_ _
      rintro rfl
      exact hon (HeapPart.off_header A)
    · intro y hy
      exact h.shape.onList i hi y (hfree ▸ List.mem_cons_of_mem _ hy)
    · exact fun _ => hheader.setFreeCnt hl hA _
    · intro B hB hne
      rw [hfree, List.countP_cons_of_neg]
      rw [hx, h.shape.countP_of_notMem hA hk hB hne]
      exact Bool.false_ne_true
    · exact fun P hP hoff _ hne => (hframe P hP hoff).trans (agree_setFreeCnt hl hA hP hne _)
  · exact fun P hP hoff hne => (hframe P hP hoff).trans (agree_setFreeCnt hl hA hP (hne A) _)

theorem HeapPart.Of.cons (h : P.Of arenas) : P.Of (A :: arenas) := h.mono fun _ => List.mem_cons_of_mem A

/-- The slots of an arena have its page. -/
theorem countP_firstSlots (hl : HeapLayout descs arenas) (hA : A ∈ arenas) (hn : n ≤ A.slots) (a : Vaddr) :
    ((A.firstSlots n).countP fun x => pgRoundDown x = a) = if A.page = a then n else 0 := by
  have hpage : ∀ x ∈ A.firstSlots n, pgRoundDown x = A.page := by
    intro x hx
    obtain ⟨k, hk, rfl⟩ := Arena.mem_firstSlots.mp hx
    exact ((hl.ok A hA).slot_page (by omega)).1
  have hlen : (A.firstSlots n).length = n := by rw [Arena.firstSlots, List.length_map, List.length_range]
  split
  · next ha =>
    refine (List.countP_eq_length.mpr fun x hx => ?_).trans hlen
    exact decide_eq_true ((hpage x hx).trans ha)
  · next ha =>
    refine List.countP_eq_zero.mpr fun x hx hc => ha ?_
    exact (hpage x hx).symm.trans (of_decide_eq_true hc)

/-- **A free list is filled**, unless there is no page. -/
theorem HeapOk.refill (hp : HeapPlace s₀ s.descs) (h : HeapOk s₀ s arenas free) (hi : i < CLASSES) (alloc : Bool) :
    (s.refill (descAt s.descs i) alloc = .ok (false, s) ∧ free i = [] ∧ s.NoPages alloc 1) ∨
    (s.refill (descAt s.descs i) alloc = .ok (true, s) ∧ free i ≠ []) ∨
    ∃ A t mem, s.refill (descAt s.descs i) alloc = .ok (true, (s.setPools t).setMem mem) ∧ free i = [] ∧
      ¬ s.NoPages alloc 1 ∧ A ∉ arenas ∧ A.cls = some i ∧
      HeapOk s₀ ((s.setPools t).setMem mem) (A :: arenas) (update free i (A.firstSlots (perArena i))) ∧
      ∀ P : HeapPart, P.Of arenas → P ≠ .sentinels i → Agree (P.words s.descs) s.mem mem := by
  have hempty := (h.shape.list i hi).listEmpty
  unfold KernelHeap.refill
  cases hfree : free i with
  | cons x xs =>
    rw [hfree] at hempty
    rw [if_pos (by rw [hempty]; exact Bool.false_ne_true)]
    exact .inr (.inl ⟨rfl, List.cons_ne_nil _ _⟩)
  | nil =>
    rw [hfree, List.isEmpty_nil] at hempty
    rw [if_neg (not_not.mpr hempty)]
    rcases pallocGet_spec hp.placed h.pages alloc 1 with ⟨hget, hno⟩ | ⟨a, t, hget, hsome, hmem, hpages⟩
    · rw [hget]
      exact .inl ⟨rfl, rfl, hno⟩
    · refine .inr (.inr ?_)
      rw [hget]
      obtain ⟨A, hAdef⟩ : ∃ A : Arena, A = { page := a, cls := some i, pages := 1 } := ⟨_, rfl⟩
      have hcls : A.cls = some i := by rw [hAdef]
      have hpage : A.page = a := by rw [hAdef]
      have hpagesA : ArenaPages s₀ t (A :: arenas) := by
        rw [hAdef]
        exact hpages (some i)
      have hl := h.shape.layout
      have hsized : ∀ B ∈ A :: arenas, B.Sized := by
        intro B hB
        rcases List.mem_cons.mp hB with rfl | hB
        · rw [hAdef]
          refine ⟨Nat.one_pos, fun j hj => ?_⟩
          obtain rfl := Option.some.inj hj
          exact ⟨hi, rfl⟩
        · exact (hl.ok B hB).toSized
      have hl' := layout_of_groups hp hpagesA hsized
      have hnew : A ∉ arenas := (List.nodup_cons.mp (hpagesA.nodup hsized)).1
      have hA : A ∈ A :: arenas := List.mem_cons_self
      have hslots : A.slots = perArena i := Arena.slots_eq hcls
      have hptr : A.descPtr s.descs = descAt s.descs i := by rw [Arena.descPtr, hcls]
      have hfields := h.shape.desc i hi
      -- the header
      obtain ⟨mem₀, hmem₀⟩ : ∃ mem₀, mem₀ = s.mem.initArena A.page (descAt s.descs i)
          (s.mem.blocksPerArena (descAt s.descs i)) := ⟨_, rfl⟩
      have hheader : ArenaHeader mem₀ s.descs A (perArena i) := by
        rw [hmem₀, hfields.blocksPerArena, ← hptr]
        exact arenaHeader_initArena hl' hA s.mem (perArena i)
      have hneA : ∀ P : HeapPart, P.Of arenas → P ≠ .header A := by
        rintro P hP rfl
        exact hnew hP
      have hframe₀ : ∀ P : HeapPart, P.Of arenas → Agree (P.words s.descs) s.mem mem₀ := by
        intro P hP
        rw [hmem₀]
        exact agree_initArena hl' hA hP.cons (hneA P hP) _ _
      have hfields₀ := hfields.congr hl hi (hframe₀ (.desc i) hi)
      have hlist₀ := isList_congr (h.shape.list i hi) hl hi (h.shape.slots hi) fun P hP _ => hframe₀ P hP
      rw [hfree] at hlist₀
      -- the blocks
      obtain ⟨mem₁, hpush, hlist₁, hagree⟩ := pushBlocks_spec hl' hA hcls hi hlist₀ (by rintro _ ⟨⟩)
        (fun k _ => List.not_mem_nil) hheader hfields₀ le_rfl
      rw [List.nil_append] at hlist₁ hagree
      have hoffNew : ∀ P : HeapPart, P.Of arenas → P ≠ .sentinels i → P.Off i (A.firstSlots (perArena i)) := by
        refine fun P hP hne => ⟨hne, ?_⟩
        rintro B k rfl hmem
        obtain ⟨j, hj, heq⟩ := Arena.mem_firstSlots.mp hmem
        obtain ⟨rfl, -⟩ := hl'.slot_inj (List.mem_cons_of_mem _ hP.1) hP.2 hA (by omega) heq
        exact hnew hP.1
      have hframe : ∀ P : HeapPart, P.Of arenas → P ≠ .sentinels i → Agree (P.words s.descs) s.mem mem₁ :=
        fun P hP hne => (hframe₀ P hP).trans (hagree P hP.cons (hoffNew P hP hne))
      refine ⟨A, t, mem₁, ?_, rfl, hsome, hnew, hcls, ⟨?_, h.descCnt, hpagesA.withMem mem₁⟩, hframe⟩
      · show (PageMem.pushBlocks (t.mem.initArena a (descAt s.descs i) (t.mem.blocksPerArena (descAt s.descs i))) _ _
          (PageMem.blocksPerArena (t.mem.initArena a (descAt s.descs i) (t.mem.blocksPerArena (descAt s.descs i)))
            (descAt s.descs i)).toNat >>= _) = _
        rw [hmem, ← hpage, ← hmem₀, hfields₀.blocksPerArena, perArena_toNat, hpush]
        rfl
      · refine h.shape.relist (A := A) hl' hi hcls (fun B hB hne => (List.mem_cons.mp hB).resolve_left hne)
          (fun B hB _ => List.mem_cons_of_mem _ hB) hlist₁ ?_ ?_ ?_ ?_
        · intro y hy
          obtain ⟨k, hk, rfl⟩ := Arena.mem_firstSlots.mp hy
          exact ⟨A, hA, hcls, k, by omega, rfl⟩
        · intro _
          rw [countP_firstSlots hl' hA hslots.ge, if_pos rfl]
          exact hheader.congr hl' hA (hagree (.header A) hA (HeapPart.off_header A))
        · intro B hB hne
          rw [countP_firstSlots hl' hA hslots.ge, hfree, if_neg]
          · rfl
          · exact fun hc => hne (hl'.page_inj (List.mem_cons_of_mem _ hB) hA hc.symm)
        · exact fun P hP hoff _ _ => hframe P hP hoff.1

/-! ## Big blocks -/

theorem divRoundUp_toNat {size : BitVec 64} (hsize : size.toNat + 4119 < 2 ^ 64) :
    (divRoundUp (size + arenaBytes) pageBytes).toNat = (size.toNat + 4119) / 4096 := by
  have h24 : arenaBytes.toNat = 24 := rfl
  have h4096 : pageBytes.toNat = 4096 := rfl
  have h1 : (1 : BitVec 64).toNat = 1 := rfl
  have hsum : (size + arenaBytes + pageBytes - 1).toNat = size.toNat + 4119 := by
    rw [BitVec.toNat_sub, BitVec.toNat_add, BitVec.toNat_add, h24, h4096, h1]
    omega
  rw [divRoundUp, BitVec.toNat_udiv, hsum, h4096]

/-- **A big block has the pages that its size asks for**, and nothing is lost in the sum. -/
theorem HeapOk.mallocBig {size : BitVec 64} (hp : HeapPlace s₀ s.descs) (h : HeapOk s₀ s arenas free)
    (hsize : size.toNat + 4119 < 2 ^ 64) (alloc : Bool) :
    (s.mallocBig size alloc = .ok (none, s) ∧ s.NoPages alloc ((size.toNat + 4119) / 4096)) ∨
    ∃ A t mem, s.mallocBig size alloc = .ok (some (A.slot 0), (s.setPools t).setMem mem) ∧
      ¬ s.NoPages alloc ((size.toNat + 4119) / 4096) ∧ A ∉ arenas ∧ A.cls = none ∧ size.toNat ≤ A.slotSize ∧
      HeapOk s₀ ((s.setPools t).setMem mem) (A :: arenas) free ∧
      ∀ P : HeapPart, P.Of arenas → Agree (P.words s.descs) s.mem mem := by
  have hcnt := divRoundUp_toNat hsize
  unfold KernelHeap.mallocBig
  dsimp only
  rw [hcnt]
  rcases pallocGet_spec hp.placed h.pages alloc ((size.toNat + 4119) / 4096) with
    ⟨hget, hno⟩ | ⟨a, t, hget, hsome, hmem, hpages⟩
  · rw [hget]
    exact .inl ⟨rfl, hno⟩
  · refine .inr ?_
    rw [hget]
    obtain ⟨A, hAdef⟩ : ∃ A : Arena, A = { page := a, cls := none, pages := (size.toNat + 4119) / 4096 } := ⟨_, rfl⟩
    have hcls : A.cls = none := by rw [hAdef]
    have hpage : A.page = a := by rw [hAdef]
    have hpagesEq : A.pages = (size.toNat + 4119) / 4096 := by rw [hAdef]
    have hpagesA : ArenaPages s₀ t (A :: arenas) := by
      rw [hAdef]
      exact hpages none
    have hl := h.shape.layout
    have hsized : ∀ B ∈ A :: arenas, B.Sized := by
      intro B hB
      rcases List.mem_cons.mp hB with rfl | hB
      · exact ⟨by omega, fun j hj => nomatch hcls.symm.trans hj⟩
      · exact (hl.ok B hB).toSized
    have hl' := layout_of_groups hp hpagesA hsized
    have hnew : A ∉ arenas := (List.nodup_cons.mp (hpagesA.nodup hsized)).1
    have hA : A ∈ A :: arenas := List.mem_cons_self
    have hptr : A.descPtr s.descs = 0 := by rw [Arena.descPtr, hcls]
    have hcntEq : divRoundUp (size + arenaBytes) pageBytes = BitVec.ofNat 64 A.pages := by
      rw [hpagesEq, ← hcnt, BitVec.ofNat_toNat, BitVec.setWidth_eq]
    have hheader := arenaHeader_initArena hl' hA s.mem A.pages
    rw [hptr, ← hcntEq] at hheader
    have hframe : ∀ P : HeapPart, P.Of arenas → Agree (P.words s.descs) s.mem
        (s.mem.initArena A.page 0 (divRoundUp (size + arenaBytes) pageBytes)) := by
      intro P hP
      refine agree_initArena hl' hA hP.cons ?_ _ _
      rintro rfl
      exact hnew hP
    refine ⟨A, t, _, ?_, hsome, hnew, hcls, ?_, ⟨h.shape.addBig hl' hcls hheader hframe, h.descCnt,
      hpagesA.withMem _⟩, hframe⟩
    · show Except.ok (some (a + arenaBytes),
        (s.setPools t).setMem (t.mem.initArena a 0 (divRoundUp (size + arenaBytes) pageBytes))) = _
      rw [hmem, Arena.slot, Nat.zero_mul, hpage]
      have hzero : a + arenaBytes + BitVec.ofNat 64 0 = a + arenaBytes := BitVec.add_zero _
      rw [hzero]
      rfl
    · rw [Arena.slotSize_big hcls, hpagesEq]
      omega

/-! ## Which slots are taken -/

theorem taken_slot (hl : HeapLayout descs arenas) (hA : A ∈ arenas) (hk : k < A.slots) :
    Taken arenas free (A.slot k) ↔ ∀ i, A.cls = some i → A.slot k ∉ free i := by
  constructor
  · rintro ⟨B, hB, j, hj, heq, hfree⟩
    obtain ⟨rfl, rfl⟩ := hl.slot_inj hA hk hB hj heq
    exact hfree
  · exact fun hfree => ⟨A, hA, k, hk, rfl, hfree⟩

/-- What is on a free list is not taken. -/
theorem HeapShape.not_taken (h : HeapShape s.mem descs arenas free) (hi : i < CLASSES) (hx : x ∈ free i) :
    ¬ Taken arenas free x := by
  obtain ⟨A, hA, hcls, k, hk, rfl⟩ := h.onList i hi x hx
  rw [taken_slot h.layout hA hk]
  exact fun hfree => hfree i hcls hx

theorem taken_pop {xs : List Vaddr} (h : HeapShape s.mem descs arenas free) (hi : i < CLASSES)
    (hfree : free i = x :: xs) (y : Vaddr) : Taken arenas (update free i xs) y ↔ Taken arenas free y ∨ y = x := by
  constructor
  · rintro ⟨A, hA, k, hk, rfl, hoff⟩
    by_cases hx : A.slot k = x
    · exact .inr hx
    · refine .inl ⟨A, hA, k, hk, rfl, fun j hj hmem => hoff j hj ?_⟩
      by_cases hji : j = i
      · subst hji
        rw [hfree] at hmem
        rw [update_self]
        exact (List.mem_cons.mp hmem).resolve_left hx
      · rw [update_of_ne hji]
        exact hmem
  · rintro (⟨A, hA, k, hk, rfl, hoff⟩ | rfl)
    · refine ⟨A, hA, k, hk, rfl, fun j hj hmem => hoff j hj ?_⟩
      by_cases hji : j = i
      · subst hji
        rw [update_self] at hmem
        rw [hfree]
        exact List.mem_cons_of_mem _ hmem
      · rw [update_of_ne hji] at hmem
        exact hmem
    · obtain ⟨A, hA, hcls, k, hk, rfl⟩ := h.onList i hi y (hfree ▸ List.mem_cons_self)
      refine ⟨A, hA, k, hk, rfl, fun j hj => ?_⟩
      obtain rfl := Option.some.inj (hj.symm.trans hcls)
      rw [update_self]
      have hnodup : (free j).Nodup := (h.list j hi).nodup_elems
      rw [hfree] at hnodup
      exact (List.nodup_cons.mp hnodup).1

theorem taken_refill (hl : HeapLayout descs (A :: arenas)) (hnew : A ∉ arenas) (hcls : A.cls = some i)
    (hfree : free i = []) (y : Vaddr) :
    Taken (A :: arenas) (update free i (A.firstSlots (perArena i))) y ↔ Taken arenas free y := by
  have hA : A ∈ A :: arenas := List.mem_cons_self
  have hslots : A.slots = perArena i := Arena.slots_eq hcls
  constructor
  · rintro ⟨B, hB, k, hk, rfl, hoff⟩
    rcases List.mem_cons.mp hB with rfl | hB'
    · have hnot := hoff i hcls
      rw [update_self] at hnot
      exact absurd (Arena.mem_firstSlots.mpr ⟨k, hslots ▸ hk, rfl⟩) hnot
    · refine ⟨B, hB', k, hk, rfl, fun j hj hmem => ?_⟩
      by_cases hji : j = i
      · subst hji
        rw [hfree] at hmem
        exact List.not_mem_nil hmem
      · have hnot := hoff j hj
        rw [update_of_ne hji] at hnot
        exact hnot hmem
  · rintro ⟨B, hB, k, hk, rfl, hoff⟩
    refine ⟨B, List.mem_cons_of_mem _ hB, k, hk, rfl, fun j hj => ?_⟩
    by_cases hji : j = i
    · subst hji
      rw [update_self]
      intro hmem
      obtain ⟨k', hk', heq⟩ := Arena.mem_firstSlots.mp hmem
      obtain ⟨rfl, -⟩ := hl.slot_inj (List.mem_cons_of_mem _ hB) hk hA (by omega) heq
      exact hnew hB
    · rw [update_of_ne hji]
      exact hoff j hj

theorem taken_big (hcls : A.cls = none) (y : Vaddr) :
    Taken (A :: arenas) free y ↔ Taken arenas free y ∨ y = A.slot 0 := by
  have hslots : A.slots = 1 := Arena.slots_big hcls
  constructor
  · rintro ⟨B, hB, k, hk, rfl, hoff⟩
    rcases List.mem_cons.mp hB with rfl | hB'
    · obtain rfl : k = 0 := by omega
      exact .inr rfl
    · exact .inl ⟨B, hB', k, hk, rfl, hoff⟩
  · rintro (⟨B, hB, k, hk, rfl, hoff⟩ | rfl)
    · exact ⟨B, List.mem_cons_of_mem _ hB, k, hk, rfl, hoff⟩
    · exact ⟨A, List.mem_cons_self, 0, by omega, rfl, fun j hj => nomatch hcls.symm.trans hj⟩

/-! ## `malloc` -/

/-- The first descriptor with blocks that are large enough, or the size is above all. -/
theorem HeapShape.findDesc (h : HeapShape s.mem s.descs arenas free) (hcnt : s.descCnt = CLASSES) (size : BitVec 64) :
    (∃ i < CLASSES, s.findDesc size = some (descAt s.descs i) ∧ size.toNat ≤ classSize i) ∨
      s.findDesc size = none ∧ 1024 < size.toNat := by
  have hle : ∀ i < CLASSES, (decide (size ≤ s.mem.descBlockSize (descAt s.descs i)) = true ↔
      size.toNat ≤ classSize i) := by
    intro i hi
    rw [decide_eq_true_iff, (h.desc i hi).blockSize, BitVec.le_def, classSize_toNat hi]
  cases hfind : s.findDesc size with
  | some d =>
    unfold KernelHeap.findDesc at hfind
    obtain ⟨i, hmem, rfl⟩ := List.mem_map.mp (List.mem_of_find?_eq_some hfind)
    have hi : i < CLASSES := hcnt ▸ List.mem_range.mp hmem
    have hfits := List.find?_some (p := fun d => decide (size ≤ s.mem.descBlockSize d)) hfind
    exact .inl ⟨i, hi, rfl, (hle i hi).mp hfits⟩
  | none =>
    unfold KernelHeap.findDesc at hfind
    refine .inr ⟨rfl, ?_⟩
    have hsix : 6 < CLASSES := by decide
    have hnot := List.find?_eq_none.mp hfind (descAt s.descs 6)
      (List.mem_map.mpr ⟨6, List.mem_range.mpr (hcnt ▸ hsix), rfl⟩)
    rw [hle 6 hsix] at hnot
    exact Nat.not_le.mp hnot

/-- There is no memory for the request. -/
def KernelHeap.NoRoom (s : KernelHeap) (size : BitVec 64) (alloc : Bool) : Prop :=
  size = 0 ∨
    match s.findDesc size with
    | none => s.NoPages alloc (divRoundUp (size + arenaBytes) pageBytes).toNat
    | some d => s.mem.listEmpty (freeList d) = true ∧ s.NoPages alloc 1

/-- The block `x` of at least `size` bytes is taken, and the bytes of those that were stay. -/
structure BlockTaken (s s' : KernelHeap) (arenas arenas' : List Arena) (free free' : Nat → List Vaddr) (x : Vaddr)
    (size : Nat) : Prop where
  descs : s'.descs = s.descs
  sub : ∀ A ∈ arenas, A ∈ arenas'
  fits : ∃ A ∈ arenas', ∃ k < A.slots, x = A.slot k ∧ size ≤ A.slotSize
  taken : ∀ y, Taken arenas' free' y ↔ Taken arenas free y ∨ y = x
  fresh : ¬ Taken arenas free x
  active : ∀ A ∈ arenas', A ∈ arenas ∨ ∃ k < A.slots, x = A.slot k
  kept : ∀ A ∈ arenas, ∀ k < A.slots, Taken arenas free (A.slot k) →
    Agree ((HeapPart.slot A k).words s.descs) s.mem s'.mem

/-- A slot that is taken has no word of a list. -/
theorem Taken.off (h : Taken arenas free (A.slot k)) (hshape : HeapShape s.mem descs arenas free) (hi : i < CLASSES) :
    (HeapPart.slot A k).Off i (free i) := by
  refine ⟨nofun, fun B j hc hmem => ?_⟩
  obtain ⟨rfl, rfl⟩ := HeapPart.slot.inj hc
  exact hshape.not_taken hi hmem h

/-- **`malloc` returns a block that is large enough, or there is no memory.** -/
theorem HeapOk.malloc {size : BitVec 64} (hp : HeapPlace s₀ s.descs) (h : HeapOk s₀ s arenas free)
    (hsize : size.toNat + 4119 < 2 ^ 64) (alloc : Bool) :
    s.malloc size alloc = .ok (none, s) ∧ s.NoRoom size alloc ∨
      ∃ x s' arenas' free', s.malloc size alloc = .ok (some x, s') ∧ HeapOk s₀ s' arenas' free' ∧
        BlockTaken s s' arenas arenas' free free' x size.toNat := by
  have hl := h.shape.layout
  unfold KernelHeap.malloc KernelHeap.NoRoom
  by_cases hzero : size = 0
  · rw [if_pos hzero]
    exact .inl ⟨rfl, .inl hzero⟩
  rw [if_neg hzero]
  rcases h.shape.findDesc h.descCnt size with ⟨i, hi, hfind, hle⟩ | ⟨hfind, -⟩
  · rw [hfind]
    dsimp only
    rcases h.refill hp hi alloc with ⟨hrefill, hnil, hno⟩ | ⟨hrefill, hne⟩ |
      ⟨A, t, mem, hrefill, hfree, -, hnew, hcls, hok, hframe⟩
    · rw [hrefill, (h.shape.list i hi).listEmpty, hnil]
      exact .inl ⟨rfl, .inr ⟨rfl, hno⟩⟩
    · -- the list has a block
      refine .inr ?_
      rw [hrefill]
      obtain ⟨x, xs, hfree⟩ := List.exists_cons_of_ne_nil hne
      obtain ⟨mem, htake, hok, hframe⟩ := h.takeBlock hi hfree
      obtain ⟨A, hA, hcls, k, hk, hx⟩ := h.shape.onList i hi x (hfree ▸ List.mem_cons_self)
      refine ⟨x, _, arenas, _, ?_, hok, rfl, fun _ hB => hB, ⟨A, hA, k, hk, hx, ?_⟩, taken_pop h.shape hi hfree,
        h.shape.not_taken hi (hfree ▸ List.mem_cons_self), fun B hB => .inl hB, ?_⟩
      · show (s.takeBlock (descAt s.descs i) >>= _) = _
        rw [htake]
        rfl
      · rw [Arena.slotSize_eq hcls]
        exact hle
      · exact fun B hB j hj htaken => hframe (.slot B j) ⟨hB, hj⟩ (htaken.off h.shape hi) (by rintro _ ⟨⟩)
    · -- the blocks of a new arena are on the list
      refine .inr ?_
      rw [hrefill]
      have hl' := hok.shape.layout
      have hpos : 0 < perArena i := perArena_pos hi
      have hslots : A.slots = perArena i := Arena.slots_eq hcls
      obtain ⟨x, xs, hxs⟩ := List.exists_cons_of_ne_nil (l := A.firstSlots (perArena i)) (by
        rw [Ne, Arena.firstSlots, List.map_eq_nil_iff, List.range_eq_nil]
        omega)
      have hfree' : update free i (A.firstSlots (perArena i)) i = x :: xs := by rw [update_self, hxs]
      obtain ⟨mem', htake, hok', hframe'⟩ := hok.takeBlock hi hfree'
      obtain ⟨k, hk, hx⟩ := Arena.mem_firstSlots.mp (hxs ▸ List.mem_cons_self)
      have htaken : ∀ y, Taken (A :: arenas) (update (update free i (A.firstSlots (perArena i))) i xs) y ↔
          Taken arenas free y ∨ y = x := fun y =>
        (taken_pop hok.shape hi hfree' y).trans (or_congr_left (taken_refill hl' hnew hcls hfree y))
      refine ⟨x, _, A :: arenas, _, ?_, hok', rfl, fun _ => List.mem_cons_of_mem _,
        ⟨A, List.mem_cons_self, k, by omega, hx, ?_⟩, htaken, ?_, fun B hB => ?_, ?_⟩
      · show (KernelHeap.takeBlock _ (descAt s.descs i) >>= _) = _
        have htake' : KernelHeap.takeBlock ((s.setPools t).setMem mem) (descAt s.descs i) = _ := htake
        rw [htake']
        rfl
      · rw [Arena.slotSize_eq hcls]
        exact hle
      · rw [← taken_refill hl' hnew hcls hfree]
        exact hok.shape.not_taken hi (hfree' ▸ List.mem_cons_self)
      · rcases List.mem_cons.mp hB with rfl | hB
        · exact .inr ⟨k, by omega, hx⟩
        · exact .inl hB
      · intro B hB j hj htk
        have hof : (HeapPart.slot B j).Of arenas := ⟨hB, hj⟩
        have htk' : Taken (A :: arenas) (update free i (A.firstSlots (perArena i))) (B.slot j) :=
          (taken_refill hl' hnew hcls hfree _).mpr htk
        exact (hframe _ hof (by rintro ⟨⟩)).trans (hframe' _ hof.cons
          (htk'.off hok.shape hi) (by rintro _ ⟨⟩))
  · rw [hfind]
    dsimp only
    rcases h.mallocBig hp hsize alloc with ⟨hbig, hno⟩ | ⟨A, t, mem, hbig, -, hnew, hcls, hfits, hok, hframe⟩
    · rw [divRoundUp_toNat hsize]
      exact .inl ⟨hbig, .inr hno⟩
    · refine .inr ⟨A.slot 0, _, A :: arenas, free, hbig, hok, rfl, fun _ => List.mem_cons_of_mem _, ?_, taken_big hcls,
        ?_, fun B hB => ?_, ?_⟩
      · exact ⟨A, List.mem_cons_self, 0, by rw [Arena.slots_big hcls]; exact Nat.one_pos, rfl, hfits⟩
      · rintro ⟨B, hB, k, hk, heq, -⟩
        obtain ⟨rfl, -⟩ := hok.shape.layout.slot_inj (A := A) (List.mem_cons_self)
          (by rw [Arena.slots_big hcls]; exact Nat.one_pos) (List.mem_cons_of_mem _ hB) hk heq
        exact hnew hB
      · rcases List.mem_cons.mp hB with rfl | hB
        · exact .inr ⟨0, by rw [Arena.slots_big hcls]; exact Nat.one_pos, rfl⟩
        · exact .inl hB
      · exact fun B hB k hk _ => hframe (.slot B k) ⟨hB, hk⟩

end

end Pintos
