import Pintos.Properties.HeapFree

/-!
# `malloc_init`

* `initDescs_spec` — each turn of the loop makes one descriptor with an empty free list
* `mallocInit_ok` — the allocator begins without arenas
-/

namespace Pintos

open Function LittleEndian

section

variable {s₀ : WordPools} {descs : Vaddr} {mem : PageMem} {arenas : List Arena} {i n : Nat}

theorem HeapPlace.layout (hp : HeapPlace s₀ descs) : HeapLayout descs [] where
  ok _ hA := nomatch hA
  apart _ hA := nomatch hA
  aligned := hp.aligned
  pos := hp.pos
  inRange := hp.inRange
  off _ hA := nomatch hA

/-- The sizes of a descriptor that the loop writes. -/
theorem classSize_succ (i : Nat) : BitVec.ofNat 64 (classSize i) * 2 = BitVec.ofNat 64 (classSize (i + 1)) := by
  rw [classSize, classSize, ← Nat.add_assoc, pow_succ, BitVec.ofNat_mul]
  rfl

theorem perArena_eq (hi : i < CLASSES) :
    (pageBytes - arenaBytes) / BitVec.ofNat 64 (classSize i) = BitVec.ofNat 64 (perArena i) := by
  refine BitVec.eq_of_toNat_eq ?_
  rw [BitVec.toNat_udiv, classSize_toNat hi, perArena_toNat]
  rfl

/-- One turn of the loop. -/
theorem initDesc_spec {mem₁ : PageMem} (hl : HeapLayout descs arenas) (hi : i < CLASSES)
    (hmem₁ : mem₁ = (mem.storeWord (descAt descs i) (BitVec.ofNat 64 (classSize i))).storeWord (descAt descs i + 8)
      (BitVec.ofNat 64 (perArena i))) :
    DescFields (mem₁.listInit (freeList (descAt descs i))) descs i ∧
      IsList (mem₁.listInit (freeList (descAt descs i))) (freeList (descAt descs i)) [] ∧
      ∀ P : HeapPart, P.Of arenas → P ≠ .desc i → P ≠ .sentinels i →
        Agree (P.words descs) mem (mem₁.listInit (freeList (descAt descs i))) := by
  have hdesc : (HeapPart.desc i).Of arenas := hi
  have hsent : (HeapPart.sentinels i).Of arenas := hi
  obtain ⟨hword, hword8⟩ := hl.desc_words hi
  have hne8 : wordNo (descAt descs i + 8) ≠ wordNo (descAt descs i) := by
    have hnat := hl.descAt_toNat hi
    have hrange := hl.inRange
    have hi7 : i < 7 := hi
    have h8 : (8 : Vaddr).toNat = 8 := rfl
    simp only [descBytes, DESC_MAX] at hnat hrange
    unfold wordNo
    rw [BitVec.toNat_add, h8]
    omega
  have hends := hl.sentinels_toNat hi
  have hne : freeList (descAt descs i) ≠ listTail (freeList (descAt descs i)) := by
    intro hc
    rw [← hc, hends.1] at hends
    omega
  have hnodes : freeList (descAt descs i) ∈ heapNodes descs arenas ∧
      listTail (freeList (descAt descs i)) ∈ heapNodes descs arenas :=
    ⟨⟨_, hsent, .head rfl⟩, ⟨_, hsent, .tail rfl⟩⟩
  have hinit : IsList (mem₁.listInit (freeList (descAt descs i))) (freeList (descAt descs i)) [] ∧
      Agree (offElems (listNodes (freeList (descAt descs i)) [])) mem₁ (mem₁.listInit (freeList (descAt descs i))) :=
    isList_listInit hl.elems hnodes.1 hnodes.2 hne
  have hoff : ∀ P : HeapPart, P.Of arenas → P ≠ .sentinels i →
      P.words descs ⊆ offElems (listNodes (freeList (descAt descs i)) []) :=
    fun P hP hPne => HeapPart.Off.words hl hi (by rintro _ ⟨⟩) hP ⟨hPne, fun _ _ _ => List.not_mem_nil⟩
  refine ⟨⟨?_, ?_⟩, hinit.1, fun P hP hPdesc hPsent => ?_⟩
  · refine (hinit.2 _ (hoff _ hdesc (by rintro ⟨⟩) hword)).trans ?_
    rw [hmem₁, loadWord_storeWord, if_neg hne8, loadWord_storeWord_self]
  · refine (hinit.2 _ (hoff _ hdesc (by rintro ⟨⟩) hword8)).trans ?_
    rw [hmem₁]
    exact loadWord_storeWord_self _ _ _
  · have h0 := hl.notMem_words hdesc hP (Ne.symm hPdesc) hword
    have h8 := hl.notMem_words hdesc hP (Ne.symm hPdesc) hword8
    have hstores : Agree (P.words descs) mem mem₁ := by
      rw [hmem₁]
      exact (Agree.storeWord h0 _).trans (Agree.storeWord h8 _)
    exact hstores.trans (hinit.2.mono (hoff P hP hPsent))

/-- **The loop of `malloc_init`** does not run out of descriptors. -/
theorem initDescs_spec (hl : HeapLayout descs arenas) : ∀ {n i mem}, i + n = CLASSES →
    (∀ j < i, DescFields mem descs j ∧ IsList mem (freeList (descAt descs j)) []) →
    ∃ mem', PageMem.initDescs descs (n + 3) mem i (BitVec.ofNat 64 (classSize i)) = .ok (mem', CLASSES) ∧
      ∀ j < CLASSES, DescFields mem' descs j ∧ IsList mem' (freeList (descAt descs j)) [] := by
  intro n
  induction n with
  | zero =>
    intro i mem hin hall
    obtain rfl : i = CLASSES := hin
    refine ⟨mem, ?_, hall⟩
    rw [PageMem.initDescs, if_neg (by decide)]
  | succ n ih =>
    intro i mem hin hall
    have hi : i < CLASSES := by omega
    have hlt : BitVec.ofNat 64 (classSize i) < pageBytes / 2 := by
      rw [BitVec.lt_def, classSize_toNat hi]
      have hle := classSize_le hi
      have h2048 : (pageBytes / 2).toNat = 2048 := rfl
      omega
    rw [show n + 1 + 3 = (n + 3) + 1 by omega, PageMem.initDescs, if_pos hlt]
    dsimp only
    rw [perArena_eq hi, classSize_succ]
    obtain ⟨mem₁, hmem₁⟩ : ∃ mem₁, mem₁ = (mem.storeWord (descAt descs i) (BitVec.ofNat 64 (classSize i))).storeWord
      (descAt descs i + 8) (BitVec.ofNat 64 (perArena i)) := ⟨_, rfl⟩
    obtain ⟨hfields, hlist, hframe⟩ := initDesc_spec hl hi hmem₁
    show ∃ mem', PageMem.initDescs descs (n + 3) (PageMem.listInit ((mem.storeWord (descAt descs i) _).storeWord
      (descAt descs i + 8) _) (freeList (descAt descs i))) (i + 1) _ = _ ∧ _
    rw [← hmem₁]
    refine ih (by omega) fun j hj => ?_
    by_cases hji : j = i
    · subst hji
      exact ⟨hfields, hlist⟩
    · have hjC : j < CLASSES := by omega
      obtain ⟨hfieldsJ, hlistJ⟩ := hall j (by omega)
      refine ⟨hfieldsJ.congr hl hjC (hframe (.desc j) hjC (fun hc => hji (HeapPart.desc.inj hc)) nofun), ?_⟩
      refine isList_congr hlistJ hl hjC nofun fun P hP hon => hframe P hP ?_ ?_
      · rintro rfl
        exact hon (HeapPart.off_desc i)
      · rintro rfl
        exact hon ⟨fun hc => hji (HeapPart.sentinels.inj hc).symm, nofun⟩

/-- **The allocator begins without arenas.** -/
theorem mallocInit_ok (hp : HeapPlace s₀ descs) (hm : s₀.MapsOk) :
    ∃ s, KernelHeap.mallocInit s₀ descs = .ok s ∧ s.descs = descs ∧ HeapOk s₀ s [] fun _ => [] := by
  have hl := hp.layout
  obtain ⟨mem, hrun, hall⟩ : ∃ mem, PageMem.initDescs descs DESC_MAX s₀.mem 0 16 = .ok (mem, CLASSES) ∧
      ∀ j < CLASSES, DescFields mem descs j ∧ IsList mem (freeList (descAt descs j)) [] :=
    initDescs_spec hl (n := 7) (i := 0) rfl nofun
  have hpages : ArenaPages s₀ s₀ [] :=
    ⟨⟨hm, fun _ => rfl, fun _ => rfl⟩, nofun, Holdings.empty fun _ => Iff.rfl⟩
  refine ⟨{ toWordPools := { s₀ with mem := mem }, descs := descs, descCnt := CLASSES }, ?_, rfl,
    ⟨⟨hl, fun j hj => (hall j hj).1, fun j hj => (hall j hj).2, nofun, nofun⟩, rfl, hpages.withMem mem⟩⟩
  rw [KernelHeap.mallocInit]
  rw [hrun]
  rfl

end

end Pintos
