import Pintos.Properties.HeapMalloc

/-!
# `free`

* `BlockFreed` — one block is taken no more
* `HeapOk.dropUnused` — an arena goes when all of its blocks are free
* `HeapOk.free_taken` — **no assertion fails for a block that is taken**
-/

namespace Pintos

open Function LittleEndian

section

variable {s₀ p : WordPools} {s s' : KernelHeap} {descs x y : Vaddr} {arenas : List Arena} {free : Nat → List Vaddr}
  {A B : Arena} {i j k n cnt : Nat} {P : HeapPart}

/-- The block `x` is taken no more, and the bytes of the others stay. -/
structure BlockFreed (s s' : KernelHeap) (arenas arenas' : List Arena) (free free' : Nat → List Vaddr) (x : Vaddr) :
    Prop where
  descs : s'.descs = s.descs
  sub : ∀ A ∈ arenas', A ∈ arenas
  taken : ∀ y, Taken arenas' free' y ↔ Taken arenas free y ∧ y ≠ x
  active : (∀ A ∈ arenas, ∃ k < A.slots, Taken arenas free (A.slot k)) →
    ∀ A ∈ arenas', ∃ k < A.slots, Taken arenas' free' (A.slot k)
  kept : ∀ A ∈ arenas', ∀ k < A.slots, Taken arenas' free' (A.slot k) →
    Agree ((HeapPart.slot A k).words s.descs) s.mem s'.mem

theorem Arena.Ok.pages_toNat (h : A.Ok) : (BitVec.ofNat 64 A.pages).toNat = A.pages := by
  have hrange := h.inRange
  have hpos := h.pos
  rw [BitVec.toNat_ofNat, Nat.mod_eq_of_lt (by omega)]

theorem HeapLayout.mono {arenas' : List Arena} (h : HeapLayout descs arenas) (hsub : ∀ A ∈ arenas', A ∈ arenas) :
    HeapLayout descs arenas' where
  ok A hA := h.ok A (hsub A hA)
  apart A hA B hB := h.apart A (hsub A hA) B (hsub B hB)
  aligned := h.aligned
  pos := h.pos
  inRange := h.inRange
  off A hA := h.off A (hsub A hA)

/-- **The pages of a big block go.** -/
theorem HeapOk.freeBig (hp : HeapPlace s₀ s.descs) (h : HeapOk s₀ s arenas free) (hA : A ∈ arenas)
    (hcls : A.cls = none) :
    ∃ t, s.pallocFree A.page (s.mem.freeCnt A.page).toNat = .ok (s.setPools t) ∧
      HeapOk s₀ (s.setPools t) (arenas.erase A) free ∧
      BlockFreed s (s.setPools t) arenas (arenas.erase A) free free (A.slot 0) := by
  have hl := h.shape.layout
  have hcnt : (s.mem.freeCnt A.page).toNat = A.pages := by
    have hfree : A.freeCount free = A.pages := by rw [Arena.freeCount, hcls]
    rw [(h.shape.header A hA).cnt, hfree, (hl.ok A hA).pages_toNat]
  have hsub : ∀ B ∈ arenas.erase A, B ∈ arenas := fun B => List.mem_of_mem_erase
  have hzero : 0 < A.slots := by
    rw [Arena.slots_big hcls]
    exact Nat.one_pos
  obtain ⟨t, hfree, hpages, hframe⟩ := pallocFree_spec hp.placed h.pages hl hA
  rw [hcnt]
  refine ⟨t, hfree, ⟨?_, h.descCnt, hpages⟩, rfl, hsub, fun y => ?_, fun hactive B hB => ?_, ?_⟩
  · refine (h.shape.drop (hl.mono hsub) hsub fun i hi x hx => ?_).congr fun P hP _ => hframe P hP
    obtain ⟨B, hB, hBcls, k, hk, rfl⟩ := h.shape.onList i hi x hx
    refine ⟨B, h.mem_erase.mpr ⟨?_, hB⟩, hBcls, k, hk, rfl⟩
    rintro rfl
    cases hBcls.symm.trans hcls
  · constructor
    · rintro ⟨B, hB, k, hk, rfl, hoff⟩
      obtain ⟨hne, hB⟩ := h.mem_erase.mp hB
      exact ⟨⟨B, hB, k, hk, rfl, hoff⟩, fun hc => hne (hl.slot_inj hB hk hA hzero hc).1⟩
    · rintro ⟨⟨B, hB, k, hk, rfl, hoff⟩, hne⟩
      refine ⟨B, h.mem_erase.mpr ⟨?_, hB⟩, k, hk, rfl, hoff⟩
      rintro rfl
      have hk0 : k = 0 := by
        rw [Arena.slots_big hcls] at hk
        omega
      exact hne (by rw [hk0])
  · obtain ⟨k, hk, htaken⟩ := hactive B (hsub B hB)
    exact ⟨k, hk, B, hB, k, hk, rfl, (taken_slot hl (hsub B hB) hk).mp htaken⟩
  · exact fun B hB k hk _ => hframe (.slot B k) ⟨hB, hk⟩

/-- A block joins the front of its list. -/
theorem taken_push {k : Nat} (hl : HeapLayout descs arenas) (hA : A ∈ arenas) (hcls : A.cls = some i) (hk : k < A.slots)
    (y : Vaddr) :
    Taken arenas (update free i (A.slot k :: free i)) y ↔ Taken arenas free y ∧ y ≠ A.slot k := by
  constructor
  · rintro ⟨B, hB, j, hj, rfl, hoff⟩
    refine ⟨⟨B, hB, j, hj, rfl, fun c hc hmem => hoff c hc ?_⟩, fun heq => ?_⟩
    · by_cases hci : c = i
      · subst hci
        rw [update_self]
        exact List.mem_cons_of_mem _ hmem
      · rw [update_of_ne hci]
        exact hmem
    · obtain ⟨rfl, rfl⟩ := hl.slot_inj hB hj hA hk heq
      have hnot := hoff i hcls
      rw [update_self] at hnot
      exact hnot List.mem_cons_self
  · rintro ⟨⟨B, hB, j, hj, rfl, hoff⟩, hne⟩
    refine ⟨B, hB, j, hj, rfl, fun c hc hmem => ?_⟩
    by_cases hci : c = i
    · subst hci
      rw [update_self] at hmem
      rcases List.mem_cons.mp hmem with heq | hmem
      · exact hne heq
      · exact hoff c hc hmem
    · rw [update_of_ne hci] at hmem
      exact hoff c hc hmem

/-- **A block joins the free list of its class.** -/
theorem HeapOk.pushBlock {k : Nat} (h : HeapOk s₀ s arenas free) (hi : i < CLASSES) (hA : A ∈ arenas)
    (hcls : A.cls = some i) (hk : k < A.slots) (htaken : Taken arenas free (A.slot k)) :
    ∃ mem, (s.mem.memsetBytes (A.slot k) 0xcc (classSize i)).listPushFront (freeList (descAt s.descs i)) (A.slot k) =
        .ok mem ∧
      HeapOk s₀ (s.setMem (mem.setFreeCnt A.page (mem.freeCnt A.page + 1))) arenas
        (update free i (A.slot k :: free i)) ∧
      ∀ P : HeapPart, P.Of arenas → P.Off i (A.slot k :: free i) → (∀ A, P ≠ .header A) →
        Agree (P.words s.descs) s.mem (mem.setFreeCnt A.page (mem.freeCnt A.page + 1)) := by
  have hl := h.shape.layout
  have hof : (HeapPart.slot A k).Of arenas := ⟨hA, hk⟩
  have hsize : A.slotSize = classSize i := Arena.slotSize_eq hcls
  have hslots := h.shape.slots hi
  have hnotOn : A.slot k ∉ free i := (taken_slot hl hA hk).mp htaken i hcls
  obtain ⟨mem₀, hmem₀⟩ : ∃ mem₀, mem₀ = s.mem.memsetBytes (A.slot k) 0xcc (classSize i) := ⟨_, rfl⟩
  have hframe₀ : ∀ P : HeapPart, P.Of arenas → P ≠ .slot A k → Agree (P.words s.descs) s.mem mem₀ := by
    intro P hP hne
    rw [hmem₀]
    exact agree_memset_slot hl hA hk hsize.ge hP hne _
  have hlist₀ : IsList mem₀ (freeList (descAt s.descs i)) (free i) := by
    refine isList_congr (h.shape.list i hi) hl hi hslots fun P hP hon => hframe₀ P hP ?_
    rintro rfl
    refine hon ⟨nofun, fun B j hc => ?_⟩
    obtain ⟨rfl, rfl⟩ := HeapPart.slot.inj hc
    exact hnotOn
  have hfresh : A.slot k ∉ listNodes (freeList (descAt s.descs i)) (free i) := by
    intro hx
    obtain ⟨Q, hQ, hxQ, hcase⟩ := listNodes_of hi hslots hx
    rw [← hl.node_unique hof hQ (.slot rfl) hxQ] at hcase
    obtain hc | ⟨_, _, -, -, hmem⟩ := hcase
    · exact nomatch hc
    · exact hnotOn hmem
  obtain ⟨mem₁, hpush, hlist₁, hagree⟩ := hlist₀.pushFront hl.elems (listNodes_sub hi hslots)
    ⟨_, hof, .slot rfl⟩ hfresh
  have hall : ∀ x ∈ A.slot k :: free i, ∃ A ∈ arenas, ∃ k < A.slots, x = A.slot k := by
    intro x hx
    rcases List.mem_cons.mp hx with rfl | hx
    · exact ⟨A, hA, k, hk, rfl⟩
    · exact hslots x hx
  have hframe₁ : ∀ P : HeapPart, P.Of arenas → P.Off i (A.slot k :: free i) → Agree (P.words s.descs) s.mem mem₁ := by
    intro P hP hoff
    refine (hframe₀ P hP ?_).trans (hagree.mono (HeapPart.Off.words hl hi hall hP hoff))
    rintro rfl
    exact hoff.2 A k rfl List.mem_cons_self
  have hheader := (h.shape.header A hA).congr hl hA (hframe₁ (.header A) hA (HeapPart.off_header A))
  have hpage := ((hl.ok A hA).slot_page hk).1
  have hcount : ((A.slot k :: free i).countP fun x => pgRoundDown x = A.page) = A.freeCount free + 1 := by
    rw [List.countP_cons_of_pos, Arena.freeCount, hcls]
    exact decide_eq_true hpage
  have hinc : mem₁.freeCnt A.page + 1 =
      BitVec.ofNat 64 ((A.slot k :: free i).countP fun x => pgRoundDown x = A.page) := by
    rw [hheader.cnt, hcount, BitVec.ofNat_add]
    rfl
  rw [← hmem₀]
  refine ⟨mem₁, hpush, ⟨?_, h.descCnt, h.pages.withMem _⟩, ?_⟩
  · rw [hinc]
    refine h.shape.relist (A := A) hl hi hcls (fun B hB _ => hB) (fun B hB _ => hB) ?_ ?_ ?_ ?_ ?_
    · refine isList_congr hlist₁ hl hi hall fun P hP hon => agree_setFreeCnt hl hA hP ?_ _
      rintro rfl
      exact hon (HeapPart.off_header A)
    · intro y hy
      rcases List.mem_cons.mp hy with rfl | hy
      · exact ⟨A, hA, hcls, k, hk, rfl⟩
      · exact h.shape.onList i hi y hy
    · exact fun _ => hheader.setFreeCnt hl hA _
    · intro B hB hne
      rw [List.countP_cons_of_neg]
      rw [h.shape.countP_of_notMem hA hk hB hne]
      exact Bool.false_ne_true
    · exact fun P hP _ hoff hne => (hframe₁ P hP hoff).trans (agree_setFreeCnt hl hA hP hne _)
  · exact fun P hP hoff hne => (hframe₁ P hP hoff).trans (agree_setFreeCnt hl hA hP (hne A) _)

/-- The free blocks of other arenas are as many without those of this one. -/
theorem HeapShape.countP_others (h : HeapShape s.mem descs arenas free) (hA : A ∈ arenas)
    (hcls : A.cls = some i) (hB : B ∈ arenas) (hne : B ≠ A) :
    (((free i).filter fun x => x ∉ A.firstSlots (perArena i)).countP fun x => pgRoundDown x = B.page) =
      (free i).countP fun x => pgRoundDown x = B.page := by
  have hslots : A.slots = perArena i := Arena.slots_eq hcls
  rw [List.countP_filter]
  refine List.countP_congr fun x _ => ?_
  rw [Bool.and_eq_true, and_iff_left_iff_imp, decide_eq_true_iff, decide_eq_true_iff]
  intro hpage hmem
  obtain ⟨k, hk, rfl⟩ := Arena.mem_firstSlots.mp hmem
  rw [((h.layout.ok A hA).slot_page (by omega)).1] at hpage
  exact hne (h.layout.page_inj hB hA hpage.symm)

/-- **The arena is given back if none of its blocks is taken**, with its blocks off the free list. -/
theorem HeapOk.dropUnused (hp : HeapPlace s₀ s.descs) (h : HeapOk s₀ s arenas free) (hi : i < CLASSES)
    (hA : A ∈ arenas) (hcls : A.cls = some i) :
    (s.dropUnused (descAt s.descs i) A.page = .ok s ∧ ∃ k < A.slots, Taken arenas free (A.slot k)) ∨
    ∃ s', s.dropUnused (descAt s.descs i) A.page = .ok s' ∧ (∀ k < A.slots, ¬ Taken arenas free (A.slot k)) ∧
      s'.descs = s.descs ∧
      HeapOk s₀ s' (arenas.erase A) (update free i ((free i).filter fun x => x ∉ A.firstSlots (perArena i))) ∧
      ∀ P : HeapPart, P.Of (arenas.erase A) → P.Off i (free i) → Agree (P.words s.descs) s.mem s'.mem := by
  have hl := h.shape.layout
  have hslots : A.slots = perArena i := Arena.slots_eq hcls
  have hfields := h.shape.desc i hi
  have hheader := h.shape.header A hA
  obtain ⟨hle, hfull⟩ := h.shape.freeCount_le hA hi hcls
  have hbound := perArena_le i
  have hcnt : (s.mem.freeCnt A.page).toNat = A.freeCount free := by
    rw [hheader.cnt, BitVec.toNat_ofNat, Nat.mod_eq_of_lt (by omega)]
  unfold KernelHeap.dropUnused
  by_cases hall : A.freeCount free = perArena i
  · refine .inr ?_
    have hmem : ∀ k < perArena i, A.slot k ∈ free i := hfull.mp hall
    have heq : s.mem.freeCnt A.page = s.mem.blocksPerArena (descAt s.descs i) := by
      rw [hheader.cnt, hfields.blocksPerArena, hall]
    rw [if_pos (by rw [heq]; exact BitVec.le_refl _), if_neg (not_not.mpr heq), hfields.blocksPerArena,
      perArena_toNat]
    have hpagesA : A.pages = 1 := ((hl.ok A hA).cls i hcls).2
    have hsub : ∀ B ∈ arenas.erase A, B ∈ arenas := fun B => List.mem_of_mem_erase
    -- the blocks leave the list
    obtain ⟨mem, hremove, hlist, hagree⟩ := removeBlocks_spec hl hA hcls hi (h.shape.list i hi) (h.shape.slots hi) hmem
      hheader hfields le_rfl
    have hshape : HeapShape mem s.descs (arenas.erase A)
        (update free i ((free i).filter fun x => x ∉ A.firstSlots (perArena i))) := by
      refine h.shape.relist (A := A) (hl.mono hsub) hi hcls (fun B hB _ => hsub B hB)
        (fun B hB hne => h.mem_erase.mpr ⟨hne, hB⟩) hlist ?_ ?_ ?_ ?_
      · intro y hy
        obtain ⟨hy, hnot⟩ := List.mem_filter.mp hy
        obtain ⟨B, hB, hBcls, j, hj, rfl⟩ := h.shape.onList i hi y hy
        refine ⟨B, h.mem_erase.mpr ⟨?_, hB⟩, hBcls, j, hj, rfl⟩
        rintro rfl
        exact of_decide_eq_true hnot (Arena.mem_firstSlots.mpr ⟨j, by omega, rfl⟩)
      · exact fun hin => absurd rfl (h.mem_erase.mp hin).1
      · exact fun B hB hne => h.shape.countP_others hA hcls hB hne
      · exact fun P hP hoff _ _ => hagree P hP hoff
    -- the page goes
    obtain ⟨t, hfree, hpages, hframe⟩ := pallocFree_spec (s := s.setMem mem) hp.placed (h.pages.withMem mem) hl hA
    rw [hpagesA] at hfree
    refine ⟨(s.setMem mem).setPools t, ?_, ?_, rfl, ⟨hshape.congr fun P hP _ => hframe P hP, h.descCnt, hpages⟩, ?_⟩
    · rw [hremove]
      exact hfree
    · intro k hk
      exact h.shape.not_taken hi (hmem k (by omega))
    · exact fun P hP hoff => (hagree P (hP.mono hsub) hoff).trans (hframe P hP)
  · refine .inl ⟨if_neg ?_, ?_⟩
    · rw [BitVec.le_def, hcnt, hfields.blocksPerArena, perArena_toNat]
      omega
    · have hsome : ¬ ∀ k < perArena i, A.slot k ∈ free i := fun hc => hall (hfull.mpr hc)
      push Not at hsome
      obtain ⟨k, hk, hnot⟩ := hsome
      refine ⟨k, by omega, (taken_slot hl hA (by omega)).mpr fun j hj => ?_⟩
      obtain rfl := Option.some.inj (hj.symm.trans hcls)
      exact hnot

/-- What is taken does not change when an arena goes that has no taken block. -/
theorem HeapOk.taken_drop (h : HeapOk s₀ s arenas free)
    (hnone : ∀ k < A.slots, ¬ Taken arenas free (A.slot k)) (hA : A ∈ arenas) (hcls : A.cls = some i) (y : Vaddr) :
    Taken (arenas.erase A) (update free i ((free i).filter fun x => x ∉ A.firstSlots (perArena i))) y ↔
      Taken arenas free y := by
  have hl := h.shape.layout
  have hslots : A.slots = perArena i := Arena.slots_eq hcls
  constructor
  · rintro ⟨B, hB, j, hj, rfl, hoff⟩
    obtain ⟨hne, hB⟩ := h.mem_erase.mp hB
    refine ⟨B, hB, j, hj, rfl, fun c hc hin => hoff c hc ?_⟩
    by_cases hci : c = i
    · subst hci
      rw [update_self]
      refine List.mem_filter.mpr ⟨hin, decide_eq_true fun hfirst => ?_⟩
      obtain ⟨k, hk, heq⟩ := Arena.mem_firstSlots.mp hfirst
      exact hne (hl.slot_inj hB hj hA (by omega) heq).1
    · rw [update_of_ne hci]
      exact hin
  · rintro htaken
    obtain ⟨B, hB, j, hj, rfl, hoff⟩ := htaken
    refine ⟨B, h.mem_erase.mpr ⟨?_, hB⟩, j, hj, rfl, fun c hc hin => hoff c hc ?_⟩
    · rintro rfl
      exact hnone j hj ⟨B, hB, j, hj, rfl, hoff⟩
    · by_cases hci : c = i
      · subst hci
        rw [update_self] at hin
        exact List.mem_of_mem_filter hin
      · rw [update_of_ne hci] at hin
        exact hin

/-- `free` of a block of a descriptor. -/
theorem HeapOk.freeBlock (hp : HeapPlace s₀ s.descs) (h : HeapOk s₀ s arenas free) (hi : i < CLASSES) (hA : A ∈ arenas)
    (hcls : A.cls = some i) (hk : k < A.slots) (htaken : Taken arenas free (A.slot k)) :
    ∃ s' arenas' free', s.freeBlock (A.slot k) A.page (descAt s.descs i) = .ok s' ∧ HeapOk s₀ s' arenas' free' ∧
      BlockFreed s s' arenas arenas' free free' (A.slot k) := by
  have hl := h.shape.layout
  obtain ⟨mem, hpush, hok, hframe⟩ := h.pushBlock hi hA hcls hk htaken
  have htk : ∀ y, Taken arenas (update free i (A.slot k :: free i)) y ↔ Taken arenas free y ∧ y ≠ A.slot k :=
    taken_push hl hA hcls hk
  -- a block that is still taken is not on the list
  have hoff : ∀ {B : Arena} {j : Nat}, B ∈ arenas → j < B.slots →
      Taken arenas (update free i (A.slot k :: free i)) (B.slot j) →
      Agree ((HeapPart.slot B j).words s.descs) s.mem (mem.setFreeCnt A.page (mem.freeCnt A.page + 1)) := by
    intro B j hB hj hB'
    have hoff := hB'.off hok.shape hi
    rw [update_self] at hoff
    exact hframe (.slot B j) ⟨hB, hj⟩ hoff nofun
  have hrun : s.freeBlock (A.slot k) A.page (descAt s.descs i) =
      (s.setMem (mem.setFreeCnt A.page (mem.freeCnt A.page + 1))).dropUnused (descAt s.descs i) A.page := by
    rw [KernelHeap.freeBlock, (h.shape.desc i hi).blockSize, classSize_toNat hi]
    rw [hpush]
    rfl
  rw [hrun]
  have hp' : HeapPlace s₀ (s.setMem (mem.setFreeCnt A.page (mem.freeCnt A.page + 1))).descs := hp
  rcases hok.dropUnused hp' hi hA hcls with ⟨hdrop, hsome⟩ | ⟨s', hdrop, hnone, hdescs, hok', hframe'⟩
  · refine ⟨_, arenas, _, hdrop, hok, rfl, fun _ hB => hB, htk, fun hactive B hB => ?_, fun B hB j hj => hoff hB hj⟩
    by_cases hBA : B = A
    · rw [hBA]
      exact hsome
    · obtain ⟨j, hj, hBj⟩ := hactive B hB
      exact ⟨j, hj, (htk _).mpr ⟨hBj, fun hc => hBA (hl.slot_inj hB hj hA hk hc).1⟩⟩
  · have hsub : ∀ B ∈ arenas.erase A, B ∈ arenas := fun B => List.mem_of_mem_erase
    have htk' := hok.taken_drop hnone hA hcls
    refine ⟨s', _, _, hdrop, hok', hdescs, hsub, fun y => (htk' y).trans (htk y), fun hactive B hB => ?_, ?_⟩
    · obtain ⟨hBA, hB⟩ := h.mem_erase.mp hB
      obtain ⟨j, hj, hBj⟩ := hactive B hB
      exact ⟨j, hj, (htk' _).mpr ((htk _).mpr ⟨hBj, fun hc => hBA (hl.slot_inj hB hj hA hk hc).1⟩)⟩
    · intro B hB j hj hBj
      have hBj' := (htk' _).mp hBj
      exact (hoff (hsub B hB) hj hBj').trans (hframe' (.slot B j) ⟨hB, hj⟩ (hBj'.off hok.shape hi))

/-- **`free` of a taken block.** The arena goes with its last block. -/
theorem HeapOk.free_taken (hp : HeapPlace s₀ s.descs) (h : HeapOk s₀ s arenas free) (htaken : Taken arenas free x) :
    ∃ s' arenas' free', s.free (some x) = .ok s' ∧ HeapOk s₀ s' arenas' free' ∧
      BlockFreed s s' arenas arenas' free free' x := by
  obtain ⟨A, hA, k, hk, rfl, -⟩ := id htaken
  have hl := h.shape.layout
  have hheader := h.shape.header A hA
  have hrun : s.free (some (A.slot k)) =
      if A.descPtr s.descs ≠ 0 then s.freeBlock (A.slot k) A.page (A.descPtr s.descs)
      else s.pallocFree A.page (s.mem.freeCnt A.page).toNat := by
    rw [KernelHeap.free, blockToArena_slot hl hA hk hheader h.shape.desc, ← hheader.desc]
    rfl
  rw [hrun]
  cases hcls : A.cls with
  | some i =>
    have hi := ((hl.ok A hA).cls i hcls).1
    have hptr : A.descPtr s.descs = descAt s.descs i := by rw [Arena.descPtr, hcls]
    rw [hptr, if_pos (hl.descAt_ne_zero hi)]
    exact h.freeBlock hp hi hA hcls hk htaken
  | none =>
    have hptr : A.descPtr s.descs = 0 := by rw [Arena.descPtr, hcls]
    rw [Arena.slots_big hcls] at hk
    obtain rfl : k = 0 := by omega
    rw [hptr, if_neg (not_not.mpr rfl)]
    obtain ⟨t, hfree, hok, hfreed⟩ := h.freeBig hp hA hcls
    exact ⟨_, _, _, hfree, hok, hfreed⟩

end

end Pintos
