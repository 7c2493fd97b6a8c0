import Pintos.Properties.HeapLayout

/-!
# What the allocator of blocks has in memory

* `HeapShape` — the descriptors with their free lists, and the headers of the arenas
* `HeapShape.blockToArena`, `HeapShape.arenaToBlock` — no assertion fails
* `HeapShape.pushBlocks`, `HeapShape.removeBlocks` — the blocks of an arena join its free list, and leave it
-/

namespace Pintos

open Function LittleEndian

/-- The pointer in the header of an arena. -/
def Arena.descPtr (A : Arena) (descs : Vaddr) : Vaddr :=
  match A.cls with
  | some i => descAt descs i
  | none => 0

/-- Its count: blocks on the free list of the descriptor, or pages. -/
def Arena.freeCount (A : Arena) (free : Nat → List Vaddr) : Nat :=
  match A.cls with
  | some i => (free i).countP fun x => pgRoundDown x = A.page
  | none => A.pages

structure ArenaHeader (mem : PageMem) (descs : Vaddr) (A : Arena) (cnt : Nat) : Prop where
  magic : mem.magic A.page = ARENA_MAGIC
  desc : mem.arenaDesc A.page = A.descPtr descs
  cnt : mem.freeCnt A.page = BitVec.ofNat 64 cnt

/-- A descriptor as `malloc_init` leaves it. -/
structure DescFields (mem : PageMem) (descs : Vaddr) (i : Nat) : Prop where
  blockSize : mem.descBlockSize (descAt descs i) = BitVec.ofNat 64 (classSize i)
  blocksPerArena : mem.blocksPerArena (descAt descs i) = BitVec.ofNat 64 (perArena i)

/-- The free lists are `free`, and have blocks of the arenas. -/
structure HeapShape (mem : PageMem) (descs : Vaddr) (arenas : List Arena) (free : Nat → List Vaddr) : Prop where
  layout : HeapLayout descs arenas
  desc : ∀ i < CLASSES, DescFields mem descs i
  list : ∀ i < CLASSES, IsList mem (freeList (descAt descs i)) (free i)
  onList : ∀ i < CLASSES, ∀ x ∈ free i, ∃ A ∈ arenas, A.cls = some i ∧ ∃ k < A.slots, x = A.slot k
  header : ∀ A ∈ arenas, ArenaHeader mem descs A (A.freeCount free)

section

variable {mem mem' : PageMem} {descs l x : Vaddr} {arenas : List Arena} {free : Nat → List Vaddr} {A B : Arena}
  {i j k n cnt : Nat} {P : HeapPart} {xs : List Vaddr}

/-! ## Reading parts -/

theorem HeapLayout.desc_words (h : HeapLayout descs arenas) (hi : i < CLASSES) :
    wordNo (descAt descs i) ∈ (HeapPart.desc i).words descs ∧
      wordNo (descAt descs i + 8) ∈ (HeapPart.desc i).words descs := by
  have hof : (HeapPart.desc i).Of arenas := hi
  have hnat := h.descAt_toNat hi
  have hrange := h.inRange
  have hi7 : i < 7 := hi
  have h8 : (8 : Vaddr).toNat = 8 := rfl
  simp only [descBytes, DESC_MAX] at hnat hrange
  constructor <;> rw [h.mem_words hof, HeapPart.lo, HeapPart.hi]
  · simp only [descBytes]
    omega
  · rw [BitVec.toNat_add, h8]
    simp only [descBytes]
    omega

theorem DescFields.congr (h : DescFields mem descs i) (hl : HeapLayout descs arenas) (hi : i < CLASSES)
    (hagree : Agree ((HeapPart.desc i).words descs) mem mem') : DescFields mem' descs i := by
  obtain ⟨hsize, hblocks⟩ := hl.desc_words hi
  exact ⟨(hagree _ hsize).trans h.blockSize, (hagree _ hblocks).trans h.blocksPerArena⟩

/-- The words of a header, by the offset of its field. -/
theorem HeapLayout.header_words (h : HeapLayout descs arenas) (hA : A ∈ arenas) {ofs : Vaddr} (hofs : ofs.toNat < 24) :
    (A.page + ofs).toNat = A.page.toNat + ofs.toNat ∧ wordNo (A.page + ofs) ∈ (HeapPart.header A).words descs := by
  have hof : (HeapPart.header A).Of arenas := hA
  have hrange := (h.ok A hA).inRange
  have hpos := (h.ok A hA).pages_pos
  have hnat : (A.page + ofs).toNat = A.page.toNat + ofs.toNat := by
    rw [BitVec.toNat_add]
    omega
  rw [h.mem_words hof, HeapPart.lo, HeapPart.hi, hnat]
  omega

theorem HeapLayout.header_page (h : HeapLayout descs arenas) (hA : A ∈ arenas) :
    wordNo A.page ∈ (HeapPart.header A).words descs := by
  have hof : (HeapPart.header A).Of arenas := hA
  rw [h.mem_words hof, HeapPart.lo, HeapPart.hi]
  omega

theorem ArenaHeader.congr (h : ArenaHeader mem descs A cnt) (hl : HeapLayout descs arenas) (hA : A ∈ arenas)
    (hagree : Agree ((HeapPart.header A).words descs) mem mem') : ArenaHeader mem' descs A cnt := by
  have hword : ∀ ofs : Vaddr, ofs.toNat < 24 → mem'.loadWord (A.page + ofs) = mem.loadWord (A.page + ofs) :=
    fun ofs hofs => hagree _ (hl.header_words hA hofs).2
  refine ⟨(hagree.loadHalf (hl.header_page hA)).trans h.magic, (hword 8 (by decide)).trans h.desc,
    (hword 16 (by decide)).trans h.cnt⟩

/-- The fields of a header are in different words. -/
theorem HeapLayout.header_wordNo (h : HeapLayout descs arenas) (hA : A ∈ arenas) :
    wordNo (A.page + 8) = wordNo A.page + 1 ∧ wordNo (A.page + 16) = wordNo A.page + 2 := by
  have h8 := (h.header_words hA (show (8 : Vaddr).toNat < 24 by decide)).1
  have h16 := (h.header_words hA (show (16 : Vaddr).toNat < 24 by decide)).1
  have hn8 : (8 : Vaddr).toNat = 8 := rfl
  have hn16 : (16 : Vaddr).toNat = 16 := rfl
  unfold wordNo
  omega

theorem ArenaHeader.setFreeCnt (h : ArenaHeader mem descs A cnt) (hl : HeapLayout descs arenas) (hA : A ∈ arenas)
    (n : Nat) : ArenaHeader (mem.setFreeCnt A.page (BitVec.ofNat 64 n)) descs A n := by
  obtain ⟨h8, h16⟩ := hl.header_wordNo hA
  refine ⟨?_, ?_, loadWord_storeWord_self _ _ _⟩
  · refine Eq.trans ?_ h.magic
    rw [PageMem.magic, PageMem.loadHalf, PageMem.setFreeCnt, loadWord_storeWord, if_neg (by omega)]
    rfl
  · refine Eq.trans ?_ h.desc
    rw [PageMem.arenaDesc, PageMem.setFreeCnt, loadWord_storeWord, if_neg (by omega)]
    rfl

theorem arenaHeader_initArena (hl : HeapLayout descs arenas) (hA : A ∈ arenas) (mem : PageMem) (n : Nat) :
    ArenaHeader (mem.initArena A.page (A.descPtr descs) (BitVec.ofNat 64 n)) descs A n := by
  obtain ⟨h8, h16⟩ := hl.header_wordNo hA
  refine ⟨?_, ?_, loadWord_storeWord_self _ _ _⟩
  · rw [PageMem.magic, PageMem.loadHalf, PageMem.initArena, PageMem.setFreeCnt, loadWord_storeWord,
      if_neg (by omega), loadWord_storeWord, if_neg (by omega)]
    exact loadHalf_storeHalf _ _ _
  · rw [PageMem.arenaDesc, PageMem.initArena, PageMem.setFreeCnt, loadWord_storeWord, if_neg (by omega),
      loadWord_storeWord_self]

/-- A header has no word of another part. -/
theorem HeapLayout.header_notMem (h : HeapLayout descs arenas) (hA : A ∈ arenas) (hP : P.Of arenas)
    (hne : P ≠ .header A) : wordNo A.page ∉ P.words descs ∧ wordNo (A.page + 8) ∉ P.words descs ∧
      wordNo (A.page + 16) ∉ P.words descs := by
  have hof : (HeapPart.header A).Of arenas := hA
  have hoff : ∀ {w}, w ∈ (HeapPart.header A).words descs → w ∉ P.words descs :=
    fun hw => h.notMem_words hof hP (Ne.symm hne) hw
  exact ⟨hoff (h.header_page hA), hoff (h.header_words hA (show (8 : Vaddr).toNat < 24 by decide)).2,
    hoff (h.header_words hA (show (16 : Vaddr).toNat < 24 by decide)).2⟩

theorem agree_setFreeCnt (hl : HeapLayout descs arenas) (hA : A ∈ arenas) (hP : P.Of arenas) (hne : P ≠ .header A)
    (c : BitVec 64) : Agree (P.words descs) mem (mem.setFreeCnt A.page c) :=
  Agree.storeWord (hl.header_notMem hA hP hne).2.2 c

theorem agree_initArena (hl : HeapLayout descs arenas) (hA : A ∈ arenas) (hP : P.Of arenas) (hne : P ≠ .header A)
    (d : Vaddr) (c : BitVec 64) : Agree (P.words descs) mem (mem.initArena A.page d c) := by
  obtain ⟨h0, h8, h16⟩ := hl.header_notMem hA hP hne
  exact ((Agree.storeHalf h0 _).trans (Agree.storeWord h8 d)).trans (Agree.storeWord h16 c)

/-! ## Nodes -/

theorem HeapLayout.slot_inj (h : HeapLayout descs arenas) (hA : A ∈ arenas) (hk : k < A.slots) (hB : B ∈ arenas)
    (hj : j < B.slots) (heq : A.slot k = B.slot j) : A = B ∧ k = j := by
  have hP : (HeapPart.slot A k).Of arenas := ⟨hA, hk⟩
  have hQ : (HeapPart.slot B j).Of arenas := ⟨hB, hj⟩
  exact HeapPart.slot.inj (h.node_unique hP hQ (.slot rfl) (.slot heq))

/-- The page of a slot tells the arena. -/
theorem HeapLayout.page_inj (h : HeapLayout descs arenas) (hA : A ∈ arenas) (hB : B ∈ arenas)
    (heq : A.page = B.page) : A = B := by
  by_contra hne
  have hApos := (h.ok A hA).pages_pos
  have hBpos := (h.ok B hB).pages_pos
  rcases h.apart A hA B hB hne with hap | hap <;> rw [heq] at hap <;> omega

/-- The nodes of a list that has slots only. -/
theorem listNodes_of (hi : i < CLASSES) (hxs : ∀ x ∈ xs, ∃ A ∈ arenas, ∃ k < A.slots, x = A.slot k)
    (hx : x ∈ listNodes (freeList (descAt descs i)) xs) :
    ∃ Q, Q.Of arenas ∧ NodeOf descs x Q ∧ (Q = .sentinels i ∨ ∃ A k, Q = .slot A k ∧ x = A.slot k ∧ x ∈ xs) := by
  rcases List.mem_cons.mp hx with rfl | hx
  · exact ⟨.sentinels i, hi, .head rfl, .inl rfl⟩
  rcases List.mem_append.mp hx with hmem | hx
  · obtain ⟨A, hA, k, hk, rfl⟩ := hxs x hmem
    exact ⟨.slot A k, ⟨hA, hk⟩, .slot rfl, .inr ⟨A, k, rfl, rfl, hmem⟩⟩
  · exact ⟨.sentinels i, hi, .tail (List.mem_singleton.mp hx), .inl rfl⟩

theorem listNodes_sub (hi : i < CLASSES) (hxs : ∀ x ∈ xs, ∃ A ∈ arenas, ∃ k < A.slots, x = A.slot k) :
    ∀ x ∈ listNodes (freeList (descAt descs i)) xs, x ∈ heapNodes descs arenas := by
  intro x hx
  obtain ⟨Q, hQ, hxQ, -⟩ := listNodes_of hi hxs hx
  exact ⟨Q, hQ, hxQ⟩

/-- The part has no word of the list: it is neither its sentinels nor a slot on it. -/
def HeapPart.Off (P : HeapPart) (i : Nat) (xs : List Vaddr) : Prop :=
  P ≠ .sentinels i ∧ ∀ A k, P = .slot A k → A.slot k ∉ xs

theorem HeapPart.off_desc (j : Nat) : (HeapPart.desc j).Off i xs := ⟨by rintro ⟨⟩, by rintro _ _ ⟨⟩⟩

theorem HeapPart.off_header (A : Arena) : (HeapPart.header A).Off i xs := ⟨by rintro ⟨⟩, by rintro _ _ ⟨⟩⟩

theorem HeapPart.Off.words (hl : HeapLayout descs arenas) (hi : i < CLASSES)
    (hxs : ∀ x ∈ xs, ∃ A ∈ arenas, ∃ k < A.slots, x = A.slot k) (hP : P.Of arenas) (hoff : P.Off i xs) :
    P.words descs ⊆ offElems (listNodes (freeList (descAt descs i)) xs) := by
  refine hl.words_offElems hP fun x hx => ?_
  obtain ⟨Q, hQ, hxQ, hcase⟩ := listNodes_of hi hxs hx
  refine ⟨Q, hQ, hxQ, ?_⟩
  rintro rfl
  rcases hcase with rfl | ⟨A, k, rfl, rfl, hmem⟩
  · exact hoff.1 rfl
  · exact hoff.2 A k rfl hmem

/-- A list stays if its sentinels and its slots do. -/
theorem isList_congr (h : IsList mem (freeList (descAt descs i)) xs) (hl : HeapLayout descs arenas) (hi : i < CLASSES)
    (hxs : ∀ x ∈ xs, ∃ A ∈ arenas, ∃ k < A.slots, x = A.slot k)
    (hagree : ∀ P : HeapPart, P.Of arenas → ¬ P.Off i xs → Agree (P.words descs) mem mem') :
    IsList mem' (freeList (descAt descs i)) xs := by
  refine h.congr hl.elems (listNodes_sub hi hxs) fun x hx a ha => ?_
  obtain ⟨Q, hQ, hxQ, hcase⟩ := listNodes_of hi hxs hx
  obtain ⟨hnat, hle⟩ := hl.node hQ hxQ
  have hrange := (hl.part_bounds hQ).2
  have hin : x ∈ heapNodes descs arenas := ⟨Q, hQ, hxQ⟩
  have h8 := (hl.elems.elem x hin).aligned
  have hnotOff : ¬ Q.Off i xs := by
    rintro ⟨hsent, hslot⟩
    rcases hcase with rfl | ⟨A, k, rfl, rfl, hmem⟩
    · exact hsent rfl
    · exact hslot A k rfl hmem
  refine hagree Q hQ hnotOff a ((hl.mem_words hQ).mpr ?_)
  unfold wordNo at ha
  omega

/-- No element is twice on a list. -/
theorem IsList.nodup_elems (h : IsList mem l xs) : xs.Nodup :=
  ((List.nodup_cons.mp h.nodup).2).sublist (List.sublist_append_left _ _)

/-! ## Blocks and their arenas -/

theorem HeapLayout.descAt_ne_zero (h : HeapLayout descs arenas) (hi : i < CLASSES) : descAt descs i ≠ 0 := by
  intro hc
  have hnat := h.descAt_toNat hi
  have hpos := h.pos
  rw [hc] at hnat
  have h0 : (0 : Vaddr).toNat = 0 := rfl
  omega

theorem Arena.Ok.page_ne_zero (h : A.Ok) : A.page ≠ 0 := by
  intro hc
  have hpos := h.pos
  rw [hc] at hpos
  exact absurd hpos (by decide)

theorem classSize_toNat (hi : i < CLASSES) : (BitVec.ofNat 64 (classSize i)).toNat = classSize i := by
  have hle := classSize_le hi
  rw [BitVec.toNat_ofNat, Nat.mod_eq_of_lt (by omega)]

theorem perArena_toNat (i : Nat) : (BitVec.ofNat 64 (perArena i)).toNat = perArena i := by
  have hle := perArena_le i
  rw [BitVec.toNat_ofNat, Nat.mod_eq_of_lt (by omega)]

/-- **`block_to_arena`** of a slot. -/
theorem blockToArena_slot (hl : HeapLayout descs arenas) (hA : A ∈ arenas) (hk : k < A.slots)
    (hheader : ArenaHeader mem descs A cnt) (hdesc : ∀ i < CLASSES, DescFields mem descs i) :
    mem.blockToArena (A.slot k) = .ok A.page := by
  have hok := hl.ok A hA
  obtain ⟨hpage, hofs⟩ := hok.slot_page hk
  unfold PageMem.blockToArena
  dsimp only
  rw [hpage, if_neg hok.page_ne_zero, if_neg (not_not.mpr hheader.magic), hheader.desc, Arena.descPtr]
  cases hcls : A.cls with
  | none =>
    rw [Arena.slots_big hcls] at hk
    obtain rfl : k = 0 := by omega
    rw [Nat.zero_mul] at hofs
    have hpos : pgOfs (A.slot 0) = arenaBytes := BitVec.eq_of_toNat_eq hofs
    dsimp only
    rw [if_neg (not_not.mpr (.inl rfl)), if_neg (not_not.mpr (.inr hpos))]
  | some i =>
    have hi := (hok.cls i hcls).1
    have hlt := hok.slot_lt hk
    rw [Arena.slotSize_eq hcls] at hofs hlt
    have hsub : (pgOfs (A.slot k) - arenaBytes).toNat = k * classSize i := by
      have h24 : arenaBytes.toNat = 24 := rfl
      rw [BitVec.toNat_sub, hofs, h24]
      omega
    have hmod : (pgOfs (A.slot k) - arenaBytes) % mem.descBlockSize (descAt descs i) = 0 := by
      refine BitVec.eq_of_toNat_eq ?_
      rw [BitVec.toNat_umod, hsub, (hdesc i hi).blockSize, classSize_toNat hi, Nat.mul_mod_left]
      rfl
    dsimp only
    rw [if_neg (not_not.mpr (.inr hmod)), if_neg (not_not.mpr (.inl (hl.descAt_ne_zero hi)))]

/-- **`arena_to_block`** gives the slots. -/
theorem arenaToBlock_slot (hl : HeapLayout descs arenas) (hA : A ∈ arenas) (hcls : A.cls = some i) (hk : k < perArena i)
    (hheader : ArenaHeader mem descs A cnt) (hdesc : DescFields mem descs i) :
    mem.arenaToBlock A.page k = .ok (A.slot k) := by
  unfold PageMem.arenaToBlock
  dsimp only
  rw [if_neg (hl.ok A hA).page_ne_zero, if_neg (not_not.mpr hheader.magic), hheader.desc, Arena.descPtr, hcls]
  dsimp only
  rw [hdesc.blocksPerArena, perArena_toNat, if_neg (not_not.mpr hk), hdesc.blockSize, Arena.slot,
    Arena.slotSize_eq hcls, BitVec.ofNat_mul]

/-! ## The blocks of an arena -/

/-- The first blocks of an arena. -/
def Arena.firstSlots (A : Arena) (n : Nat) : List Vaddr := (List.range n).map A.slot

theorem Arena.mem_firstSlots : x ∈ A.firstSlots n ↔ ∃ k < n, x = A.slot k := by
  simp only [firstSlots, List.mem_map, List.mem_range, eq_comm (a := x)]

theorem Arena.firstSlots_succ (A : Arena) (n : Nat) : A.firstSlots (n + 1) = A.firstSlots n ++ [A.slot n] := by
  rw [firstSlots, List.range_succ, List.map_append]
  rfl

theorem pushBlocks_succ {mem₁ mem₂ : PageMem} {d a b : Vaddr} (h : mem.pushBlocks d a n = .ok mem₁)
    (hb : mem₁.arenaToBlock a n = .ok b) (hpush : mem₁.listPushBack (freeList d) b = .ok mem₂) :
    mem.pushBlocks d a (n + 1) = .ok mem₂ := by
  unfold PageMem.pushBlocks at h ⊢
  rw [List.range_succ, List.foldlM_append, h]
  show (((mem₁.arenaToBlock a n) >>= fun b => mem₁.listPushBack (freeList d) b) >>= pure) = _
  rw [hb]
  show ((mem₁.listPushBack (freeList d) b) >>= pure) = _
  rw [hpush]
  rfl

theorem removeBlocks_succ {mem₁ mem₂ : PageMem} {a b : Vaddr} (h : mem.removeBlocks a n = .ok mem₁)
    (hb : mem₁.arenaToBlock a n = .ok b) (hremove : mem₁.listRemove b = .ok mem₂) :
    mem.removeBlocks a (n + 1) = .ok mem₂ := by
  unfold PageMem.removeBlocks at h ⊢
  rw [List.range_succ, List.foldlM_append, h]
  show (((mem₁.arenaToBlock a n) >>= fun b => mem₁.listRemove b) >>= pure) = _
  rw [hb]
  show ((mem₁.listRemove b) >>= pure) = _
  rw [hremove]
  rfl

/-- **The blocks of a new arena join the free list.** -/
theorem pushBlocks_spec (hl : HeapLayout descs arenas) (hA : A ∈ arenas) (hcls : A.cls = some i) (hi : i < CLASSES)
    (hlist : IsList mem (freeList (descAt descs i)) xs)
    (hxs : ∀ x ∈ xs, ∃ A ∈ arenas, ∃ k < A.slots, x = A.slot k) (hnew : ∀ k < perArena i, A.slot k ∉ xs)
    (hheader : ArenaHeader mem descs A cnt) (hdesc : DescFields mem descs i) : ∀ {n}, n ≤ perArena i →
    ∃ mem', mem.pushBlocks (descAt descs i) A.page n = .ok mem' ∧
      IsList mem' (freeList (descAt descs i)) (xs ++ A.firstSlots n) ∧
      ∀ P : HeapPart, P.Of arenas → P.Off i (xs ++ A.firstSlots n) → Agree (P.words descs) mem mem' := by
  have hslots : A.slots = perArena i := Arena.slots_eq hcls
  have hall : ∀ {n}, n ≤ perArena i → ∀ x ∈ xs ++ A.firstSlots n, ∃ A ∈ arenas, ∃ k < A.slots, x = A.slot k := by
    intro n hn x hx
    rcases List.mem_append.mp hx with hx | hx
    · exact hxs x hx
    · obtain ⟨k, hk, rfl⟩ := Arena.mem_firstSlots.mp hx
      exact ⟨A, hA, k, by omega, rfl⟩
  intro n
  induction n with
  | zero =>
    intro _
    refine ⟨mem, rfl, ?_, fun P _ _ => .refl _ _⟩
    rw [Arena.firstSlots, List.range_zero, List.map_nil, List.append_nil]
    exact hlist
  | succ n ih =>
    intro hn
    obtain ⟨mem₁, hrun, hlist₁, hagree⟩ := ih (by omega)
    have hheaderOff : (HeapPart.header A).Off i (xs ++ A.firstSlots n) := HeapPart.off_header A
    have hdescOff : (HeapPart.desc i).Off i (xs ++ A.firstSlots n) := HeapPart.off_desc i
    have hblock := arenaToBlock_slot hl hA hcls (Nat.lt_of_succ_le hn) (hheader.congr hl hA (hagree _ hA hheaderOff))
      (hdesc.congr hl hi (hagree (.desc i) hi hdescOff))
    have hof : (HeapPart.slot A n).Of arenas := ⟨hA, by omega⟩
    have hfresh : A.slot n ∉ listNodes (freeList (descAt descs i)) (xs ++ A.firstSlots n) := by
      intro hx
      obtain ⟨Q, hQ, hxQ, hcase⟩ := listNodes_of hi (hall (by omega)) hx
      rw [← hl.node_unique hof hQ (.slot rfl) hxQ] at hcase
      obtain hc | ⟨_, _, -, -, hmem⟩ := hcase
      · exact nomatch hc
      rcases List.mem_append.mp hmem with hmem | hmem
      · exact hnew n (by omega) hmem
      · obtain ⟨k, hk, heq⟩ := Arena.mem_firstSlots.mp hmem
        exact absurd (hl.slot_inj hA (by omega) hA (by omega) heq).2 (Nat.ne_of_gt hk)
    obtain ⟨mem₂, hpush, hlist₂, hagree₂⟩ := hlist₁.pushBack hl.elems (listNodes_sub hi (hall (by omega)))
      ⟨_, hof, .slot rfl⟩ hfresh
    rw [List.append_assoc, ← Arena.firstSlots_succ] at hlist₂ hagree₂
    refine ⟨mem₂, pushBlocks_succ hrun hblock hpush, hlist₂, fun P hP hoff => ?_⟩
    have hoff₁ : P.Off i (xs ++ A.firstSlots n) := by
      refine ⟨hoff.1, fun B j hB hmem => hoff.2 B j hB ?_⟩
      rw [Arena.firstSlots_succ, ← List.append_assoc]
      exact List.mem_append_left _ hmem
    exact (hagree P hP hoff₁).trans (hagree₂.mono (HeapPart.Off.words hl hi (hall hn) hP hoff))

/-- **The blocks of an arena leave the free list.** -/
theorem removeBlocks_spec (hl : HeapLayout descs arenas) (hA : A ∈ arenas) (hcls : A.cls = some i) (hi : i < CLASSES)
    (hlist : IsList mem (freeList (descAt descs i)) xs)
    (hxs : ∀ x ∈ xs, ∃ A ∈ arenas, ∃ k < A.slots, x = A.slot k) (hmem : ∀ k < perArena i, A.slot k ∈ xs)
    (hheader : ArenaHeader mem descs A cnt) (hdesc : DescFields mem descs i) : ∀ {n}, n ≤ perArena i →
    ∃ mem', mem.removeBlocks A.page n = .ok mem' ∧
      IsList mem' (freeList (descAt descs i)) (xs.filter fun x => x ∉ A.firstSlots n) ∧
      ∀ P : HeapPart, P.Of arenas → P.Off i xs → Agree (P.words descs) mem mem' := by
  have hslots : A.slots = perArena i := Arena.slots_eq hcls
  have hfilter : ∀ n, ∀ x ∈ xs.filter fun x => x ∉ A.firstSlots n, ∃ A ∈ arenas, ∃ k < A.slots, x = A.slot k :=
    fun n x hx => hxs x (List.mem_of_mem_filter hx)
  intro n
  induction n with
  | zero =>
    intro _
    refine ⟨mem, rfl, ?_, fun P _ _ => .refl _ _⟩
    have hnone : (xs.filter fun x => x ∉ A.firstSlots 0) = xs := List.filter_eq_self.mpr fun x _ => rfl
    rw [hnone]
    exact hlist
  | succ n ih =>
    intro hn
    obtain ⟨mem₁, hrun, hlist₁, hagree⟩ := ih (by omega)
    have hblock := arenaToBlock_slot hl hA hcls (Nat.lt_of_succ_le hn)
      (hheader.congr hl hA (hagree _ hA (HeapPart.off_header A)))
      (hdesc.congr hl hi (hagree (.desc i) hi (HeapPart.off_desc i)))
    have hin : A.slot n ∈ xs.filter fun x => x ∉ A.firstSlots n := by
      refine List.mem_filter.mpr ⟨hmem n hn, decide_eq_true fun hx => ?_⟩
      obtain ⟨k, hk, heq⟩ := Arena.mem_firstSlots.mp hx
      exact absurd (hl.slot_inj hA (by omega) hA (by omega) heq).2 (Nat.ne_of_gt hk)
    obtain ⟨mem₂, hremove, hlist₂, hagree₂⟩ := hlist₁.remove hl.elems (listNodes_sub hi (hfilter n)) hin
    have hnodup : (xs.filter fun x => x ∉ A.firstSlots n).Nodup := hlist₁.nodup_elems
    have herase : (xs.filter fun x => x ∉ A.firstSlots n).erase (A.slot n) =
        xs.filter fun x => x ∉ A.firstSlots (n + 1) := by
      rw [hnodup.erase_eq_filter, List.filter_filter]
      refine List.filter_congr fun x _ => ?_
      rw [Bool.eq_iff_iff]
      simp [Arena.firstSlots_succ, and_comm]
    rw [herase] at hlist₂
    refine ⟨mem₂, removeBlocks_succ hrun hblock hremove, hlist₂, fun P hP hoff => ?_⟩
    have hoff₁ : P.Off i (xs.filter fun x => x ∉ A.firstSlots n) :=
      ⟨hoff.1, fun B j hB hx => hoff.2 B j hB (List.mem_of_mem_filter hx)⟩
    exact (hagree P hP hoff).trans (hagree₂.mono (HeapPart.Off.words hl hi (hfilter n) hP hoff₁))

/-! ## Changes of a free list -/

theorem HeapShape.slots (h : HeapShape mem descs arenas free) (hi : i < CLASSES) :
    ∀ x ∈ free i, ∃ A ∈ arenas, ∃ k < A.slots, x = A.slot k := by
  intro x hx
  obtain ⟨A, hA, -, k, hk, rfl⟩ := h.onList i hi x hx
  exact ⟨A, hA, k, hk, rfl⟩

/-- A slot of one class is on no other list. -/
theorem HeapShape.notMem (h : HeapShape mem descs arenas free) (hA : A ∈ arenas) (hk : k < A.slots)
    (hi : i < CLASSES) (hcls : A.cls ≠ some i) : A.slot k ∉ free i := by
  intro hmem
  obtain ⟨B, hB, hBcls, j, hj, heq⟩ := h.onList i hi _ hmem
  obtain ⟨rfl, -⟩ := h.layout.slot_inj hA hk hB hj heq
  exact hcls hBcls

theorem Arena.freeCount_update (A : Arena) (free : Nat → List Vaddr) (i : Nat) (ys : List Vaddr) :
    A.freeCount (update free i ys) =
      if A.cls = some i then ys.countP (fun x => pgRoundDown x = A.page) else A.freeCount free := by
  unfold freeCount
  cases hcls : A.cls with
  | none => rw [if_neg nofun]
  | some j =>
    by_cases hj : j = i
    · subst hj
      rw [if_pos rfl]
      dsimp only
      rw [update_self]
    · rw [if_neg fun hc => hj (Option.some.inj hc)]
      dsimp only
      rw [update_of_ne hj]

/-- What is on a list is not an arena of another class. -/
theorem HeapShape.off_of_ne (h : HeapShape mem descs arenas free) (hi : i < CLASSES) (hj : j < CLASSES) (hne : j ≠ i)
    (hP : P.Of arenas) (hon : ¬ P.Off j (free j)) : P.Off i (free i) ∧ ∀ A, P ≠ .header A := by
  have hcases : P = .sentinels j ∨ ∃ A k, P = .slot A k ∧ A.slot k ∈ free j := by
    by_contra hc
    rw [not_or] at hc
    exact hon ⟨hc.1, fun A k hPA hmem => hc.2 ⟨A, k, hPA, hmem⟩⟩
  rcases hcases with rfl | ⟨A, k, rfl, hmem⟩
  · exact ⟨⟨fun hc => hne (HeapPart.sentinels.inj hc), nofun⟩, nofun⟩
  · obtain ⟨B, hB, hBcls, k', hk', heq⟩ := h.onList j hj _ hmem
    obtain ⟨rfl, -⟩ := h.layout.slot_inj hP.1 hP.2 hB hk' heq
    refine ⟨⟨nofun, fun A' k'' hc hmem' => ?_⟩, nofun⟩
    obtain ⟨rfl, rfl⟩ := HeapPart.slot.inj hc
    exact h.notMem hP.1 hP.2 hi (fun hc => hne (Option.some.inj (hBcls.symm.trans hc))) hmem'

/-- The class of a slot that is on a list. -/
theorem HeapShape.cls_of_not_off (h : HeapShape mem descs arenas free) (hj : j < CLASSES)
    (hP : (HeapPart.slot A k).Of arenas) (hon : ¬ (HeapPart.slot A k).Off j (free j)) : A.cls = some j := by
  by_contra hne
  refine hon ⟨nofun, fun B k' hc => ?_⟩
  obtain ⟨rfl, rfl⟩ := HeapPart.slot.inj hc
  exact h.notMem hP.1 hP.2 hj hne

theorem Arena.nodup_firstSlots (hl : HeapLayout descs arenas) (hA : A ∈ arenas) (hn : n ≤ A.slots) :
    (A.firstSlots n).Nodup := by
  refine List.Nodup.map_on (fun k hk j hj heq => ?_) List.nodup_range
  rw [List.mem_range] at hk hj
  exact (hl.slot_inj hA (by omega) hA (by omega) heq).2

/-- An arena has at most as many free blocks as blocks, and as many if they are all free. -/
theorem HeapShape.freeCount_le (h : HeapShape mem descs arenas free) (hA : A ∈ arenas) (hi : i < CLASSES)
    (hcls : A.cls = some i) :
    A.freeCount free ≤ perArena i ∧ (A.freeCount free = perArena i ↔ ∀ k < perArena i, A.slot k ∈ free i) := by
  have hslots : A.slots = perArena i := Arena.slots_eq hcls
  have hnodup : (free i).Nodup := (h.list i hi).nodup_elems
  have hlen : (A.firstSlots (perArena i)).length = perArena i := by
    rw [Arena.firstSlots, List.length_map, List.length_range]
  have hsub : (free i).filter (fun x => pgRoundDown x = A.page) ⊆ A.firstSlots (perArena i) := by
    intro x hx
    obtain ⟨hmem, hpage⟩ := List.mem_filter.mp hx
    obtain ⟨B, hB, hBcls, k, hk, rfl⟩ := h.onList i hi x hmem
    rw [decide_eq_true_iff, ((h.layout.ok B hB).slot_page hk).1] at hpage
    obtain rfl := h.layout.page_inj hB hA hpage
    exact Arena.mem_firstSlots.mpr ⟨k, by omega, rfl⟩
  have hsubperm := List.subperm_of_subset (hnodup.filter _) hsub
  have hcount : A.freeCount free = ((free i).filter fun x => pgRoundDown x = A.page).length := by
    rw [Arena.freeCount, hcls]
    exact List.countP_eq_length_filter
  rw [hcount]
  have hle := hsubperm.length_le
  rw [hlen] at hle
  refine ⟨hle, fun hfull k hk => ?_, fun hall => le_antisymm hle ?_⟩
  · have hperm := hsubperm.perm_of_length_le (by omega)
    exact (List.mem_filter.mp (hperm.symm.subset (Arena.mem_firstSlots.mpr ⟨k, hk, rfl⟩))).1
  · have hback : A.firstSlots (perArena i) ⊆ (free i).filter fun x => pgRoundDown x = A.page := by
      intro x hx
      obtain ⟨k, hk, rfl⟩ := Arena.mem_firstSlots.mp hx
      exact List.mem_filter.mpr ⟨hall k hk, decide_eq_true ((h.layout.ok A hA).slot_page (by omega)).1⟩
    have hle' := (List.subperm_of_subset (Arena.nodup_firstSlots h.layout hA hslots.ge) hback).length_le
    omega

/-- The bytes of a slot are in no word of another part. -/
theorem HeapLayout.slot_byte (hl : HeapLayout descs arenas) (hA : A ∈ arenas) (hk : k < A.slots) (hn : n < A.slotSize) :
    (A.slot k + BitVec.ofNat 64 n).toNat = (A.slot k).toNat + n ∧
      wordNo (A.slot k + BitVec.ofNat 64 n) ∈ (HeapPart.slot A k).words descs := by
  have hof : (HeapPart.slot A k).Of arenas := ⟨hA, hk⟩
  have hok := hl.ok A hA
  have hnat := hok.slot_toNat hk
  have hrange := (hl.part_bounds hof).2
  rw [HeapPart.hi] at hrange
  have hadd : (A.slot k + BitVec.ofNat 64 n).toNat = (A.slot k).toNat + n := by
    rw [BitVec.toNat_add, BitVec.toNat_ofNat]
    omega
  refine ⟨hadd, (hl.mem_words hof).mpr ?_⟩
  rw [hadd, hnat, HeapPart.lo, HeapPart.hi]
  omega

theorem agree_memset_slot (hl : HeapLayout descs arenas) (hA : A ∈ arenas) (hk : k < A.slots) (hn : n ≤ A.slotSize)
    (hP : P.Of arenas) (hne : P ≠ .slot A k) (v : Byte) :
    Agree (P.words descs) mem (mem.memsetBytes (A.slot k) v n) := by
  have hof : (HeapPart.slot A k).Of arenas := ⟨hA, hk⟩
  exact Agree.memsetBytes fun j hj =>
    hl.notMem_words hof hP (Ne.symm hne) (hl.slot_byte hA hk (by omega)).2

/-- **A list changes with the header of an arena of its class**, which can come with the change, or go. -/
theorem HeapShape.relist {arenas' : List Arena} {ys : List Vaddr} (h : HeapShape mem descs arenas free)
    (hl : HeapLayout descs arenas') (hi : i < CLASSES) (hcls : A.cls = some i)
    (hsub : ∀ B ∈ arenas', B ≠ A → B ∈ arenas) (hkeep : ∀ B ∈ arenas, B ≠ A → B ∈ arenas')
    (hlist : IsList mem' (freeList (descAt descs i)) ys)
    (hys : ∀ y ∈ ys, ∃ B ∈ arenas', B.cls = some i ∧ ∃ k < B.slots, y = B.slot k)
    (hheader : A ∈ arenas' → ArenaHeader mem' descs A (ys.countP fun x => pgRoundDown x = A.page))
    (hcount : ∀ B ∈ arenas, B ≠ A → (ys.countP fun x => pgRoundDown x = B.page) =
      (free i).countP fun x => pgRoundDown x = B.page)
    (hagree : ∀ P : HeapPart, P.Of arenas → P.Off i (free i) → P.Off i ys → P ≠ .header A →
      Agree (P.words descs) mem mem') :
    HeapShape mem' descs arenas' (update free i ys) where
  layout := hl
  desc j hj := (h.desc j hj).congr h.layout hj (hagree (.desc j) hj (HeapPart.off_desc j) (HeapPart.off_desc j) nofun)
  list j hj := by
    by_cases hji : j = i
    · subst hji
      rw [update_self]
      exact hlist
    · rw [update_of_ne hji]
      refine isList_congr (h.list j hj) h.layout hj (h.slots hj) fun P hP hon => ?_
      obtain ⟨hoff, hne⟩ := h.off_of_ne hi hj hji hP hon
      refine hagree P hP hoff ⟨hoff.1, fun C k hPC hmem => ?_⟩ (hne A)
      -- a slot of the other list is in an arena of that class, which stays
      subst hPC
      obtain ⟨B, hB, hBcls, k', hk', heq⟩ := hys _ hmem
      have hCcls : C.cls = some j := h.cls_of_not_off hj hP hon
      have hCA : C ≠ A := by
        rintro rfl
        exact hji (Option.some.inj (hCcls.symm.trans hcls))
      obtain ⟨rfl, -⟩ := hl.slot_inj (hkeep C hP.1 hCA) hP.2 hB hk' heq
      exact hji (Option.some.inj (hCcls.symm.trans hBcls))
  onList j hj x hx := by
    by_cases hji : j = i
    · subst hji
      rw [update_self] at hx
      exact hys x hx
    · rw [update_of_ne hji] at hx
      obtain ⟨B, hB, hBcls, k, hk, rfl⟩ := h.onList j hj x hx
      refine ⟨B, hkeep B hB ?_, hBcls, k, hk, rfl⟩
      rintro rfl
      exact hji (Option.some.inj (hBcls.symm.trans hcls))
  header B hB := by
    rw [Arena.freeCount_update]
    by_cases hBA : B = A
    · subst hBA
      rw [if_pos hcls]
      exact hheader hB
    · have hB' := hsub B hB hBA
      have hold : ArenaHeader mem' descs B (B.freeCount free) :=
        (h.header B hB').congr h.layout hB' (hagree (.header B) hB' (HeapPart.off_header B) (HeapPart.off_header B)
          fun hc => hBA (HeapPart.header.inj hc))
      split
      · next hBcls =>
        rw [hcount B hB' hBA]
        rw [Arena.freeCount, hBcls] at hold
        exact hold
      · exact hold

/-- An arena for a big block comes. -/
theorem HeapShape.addBig (h : HeapShape mem descs arenas free) (hl : HeapLayout descs (A :: arenas))
    (hcls : A.cls = none) (hheader : ArenaHeader mem' descs A A.pages)
    (hagree : ∀ P : HeapPart, P.Of arenas → Agree (P.words descs) mem mem') :
    HeapShape mem' descs (A :: arenas) free where
  layout := hl
  desc j hj := (h.desc j hj).congr h.layout hj (hagree (.desc j) hj)
  list j hj := isList_congr (h.list j hj) h.layout hj (h.slots hj) fun P hP _ => hagree P hP
  onList j hj x hx := by
    obtain ⟨B, hB, hBcls, k, hk, rfl⟩ := h.onList j hj x hx
    exact ⟨B, List.mem_cons_of_mem _ hB, hBcls, k, hk, rfl⟩
  header B hB := by
    rcases List.mem_cons.mp hB with rfl | hB
    · rw [Arena.freeCount, hcls]
      exact hheader
    · exact (h.header B hB).congr h.layout hB (hagree (.header B) hB)

/-- An arena goes that has no block on a list. -/
theorem HeapShape.drop {arenas' : List Arena} (h : HeapShape mem descs arenas free) (hl : HeapLayout descs arenas')
    (hsub : ∀ B ∈ arenas', B ∈ arenas) (hfree : ∀ i < CLASSES, ∀ x ∈ free i, ∃ A ∈ arenas', A.cls = some i ∧
      ∃ k < A.slots, x = A.slot k) : HeapShape mem descs arenas' free where
  layout := hl
  desc := h.desc
  list := h.list
  onList := hfree
  header B hB := h.header B (hsub B hB)

/-- Writes outside of the lists and headers change nothing. -/
theorem HeapShape.congr (h : HeapShape mem descs arenas free)
    (hagree : ∀ P : HeapPart, P.Of arenas → (∀ A k, P = .slot A k → ∃ i < CLASSES, A.slot k ∈ free i) →
      Agree (P.words descs) mem mem') : HeapShape mem' descs arenas free where
  layout := h.layout
  desc j hj := (h.desc j hj).congr h.layout hj (hagree (.desc j) hj nofun)
  list j hj := by
    refine isList_congr (h.list j hj) h.layout hj (h.slots hj) fun P hP hon => hagree P hP fun A k hPA => ?_
    subst hPA
    refine ⟨j, hj, ?_⟩
    by_contra hmem
    refine hon ⟨nofun, fun B k' hc => ?_⟩
    obtain ⟨rfl, rfl⟩ := HeapPart.slot.inj hc
    exact hmem
  onList := h.onList
  header B hB := (h.header B hB).congr h.layout hB (hagree (.header B) hB nofun)

end

end Pintos
