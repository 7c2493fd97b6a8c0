import Pintos.Properties.HeapInit

/-!
# The allocator of blocks with its owners

* `KernelHeap.Fits` — a request whose pages can be counted, or for which there is no memory
* `OwnerOk` — the taken slots are the live blocks, and each arena has one
* `OwnerOk.malloc`, `OwnerOk.calloc`, `OwnerOk.free_live`, `OwnerOk.realloc`, `OwnerOk.write` — **every call keeps it**
-/

namespace Pintos

open Function LittleEndian

/-- The sum that is rounded to pages does not wrap, or there is no memory. -/
def KernelHeap.Fits (s : KernelHeap) (size : BitVec 64) (alloc : Bool) : Prop :=
  size.toNat + 4119 < 2 ^ 64 ∨ s.NoRoom size alloc

/-- The bytes from `a` on are the same. -/
def KeptBytes (mem mem' : PageMem) (a : Vaddr) (n : Nat) : Prop :=
  ∀ j < n, mem'.loadByte (a + BitVec.ofNat 64 j) = mem.loadByte (a + BitVec.ofNat 64 j)

/-- The taken slots are the live blocks, and each arena has one. -/
structure OwnerOk (s₀ : WordPools) (s : KernelHeap) (live : List HeapBlock) (arenas : List Arena)
    (free : Nat → List Vaddr) : Prop where
  place : HeapPlace s₀ s.descs
  heap : HeapOk s₀ s arenas free
  nodup : (live.map (·.addr)).Nodup
  taken : ∀ x, x ∈ live.map (·.addr) ↔ Taken arenas free x
  fits : ∀ b ∈ live, ∀ A ∈ arenas, ∀ k < A.slots, b.addr = A.slot k → b.size.toNat ≤ A.slotSize
  active : ∀ A ∈ arenas, ∃ k < A.slots, Taken arenas free (A.slot k)

section

variable {s₀ : WordPools} {s s' : KernelHeap} {live : List HeapBlock} {arenas arenas' : List Arena}
  {free free' : Nat → List Vaddr} {A : Arena} {b : HeapBlock} {size : BitVec 64} {alloc : Bool} {x : Vaddr}
  {i k n : Nat} {mem : PageMem}

/-! ## No memory -/

theorem Arena.Ok.slotSize_lt (h : A.Ok) : A.slotSize < 2 ^ 64 := by
  have hpos := h.pos
  have hrange := h.inRange
  have hle := h.toSized.slots_le
  have hone := Nat.le_mul_of_pos_left A.slotSize h.toSized.slots_pos
  omega

theorem HeapOk.malloc_noRoom (hp : HeapPlace s₀ s.descs) (h : HeapOk s₀ s arenas free) (hno : s.NoRoom size alloc) :
    s.malloc size alloc = .ok (none, s) := by
  unfold KernelHeap.malloc
  rcases hno with hzero | hno
  · rw [if_pos hzero]
  by_cases hzero : size = 0
  · rw [if_pos hzero]
  rw [if_neg hzero]
  rcases h.shape.findDesc h.descCnt size with ⟨i, hi, hfind, -⟩ | ⟨hfind, -⟩
  · rw [hfind] at hno ⊢
    obtain ⟨hempty, hpages⟩ := hno
    dsimp only
    rcases h.refill hp hi alloc with ⟨hrefill, -⟩ | ⟨-, hne⟩ | ⟨A, t, mem, -, -, hsome, -⟩
    · rw [hrefill]
      rfl
    · rw [(h.shape.list i hi).listEmpty, List.isEmpty_iff] at hempty
      exact absurd hempty hne
    · exact absurd hpages hsome
  · rw [hfind] at hno ⊢
    dsimp only at hno ⊢
    unfold KernelHeap.mallocBig
    dsimp only
    rcases pallocGet_spec hp.placed h.pages alloc (divRoundUp (size + arenaBytes) pageBytes).toNat with
      ⟨hget, -⟩ | ⟨a, t, -, hsome, -⟩
    · rw [hget]
      rfl
    · exact absurd hno hsome

theorem HeapOk.malloc_fits (hp : HeapPlace s₀ s.descs) (h : HeapOk s₀ s arenas free) (hfits : s.Fits size alloc) :
    s.malloc size alloc = .ok (none, s) ∨
      ∃ x s' arenas' free', s.malloc size alloc = .ok (some x, s') ∧ HeapOk s₀ s' arenas' free' ∧
        BlockTaken s s' arenas arenas' free free' x size.toNat := by
  rcases hfits with hsize | hno
  · exact (h.malloc hp hsize alloc).imp_left And.left
  · exact .inl (h.malloc_noRoom hp hno)

/-! ## Owners -/

theorem OwnerOk.boot (hp : HeapPlace s₀ s.descs) (h : HeapOk s₀ s [] fun _ => []) : OwnerOk s₀ s [] [] fun _ => [] where
  place := hp
  heap := h
  nodup := List.nodup_nil
  taken _ := ⟨nofun, fun ⟨_, hA, _⟩ => nomatch hA⟩
  fits _ hb := nomatch hb
  active _ hA := nomatch hA

/-- A block of the owners is a slot. -/
theorem OwnerOk.slot (h : OwnerOk s₀ s live arenas free) (hb : b ∈ live) :
    ∃ A ∈ arenas, ∃ k < A.slots, b.addr = A.slot k ∧ Taken arenas free (A.slot k) ∧ b.size.toNat ≤ A.slotSize := by
  have htaken := (h.taken b.addr).mp (List.mem_map_of_mem hb)
  obtain ⟨A, hA, k, hk, haddr, -⟩ := id htaken
  exact ⟨A, hA, k, hk, haddr, haddr ▸ htaken, h.fits b hb A hA k hk haddr⟩

/-- The owners get a block. -/
theorem OwnerOk.take (h : OwnerOk s₀ s live arenas free) (hok : HeapOk s₀ s' arenas' free')
    (ht : BlockTaken s s' arenas arenas' free free' x size.toNat) :
    OwnerOk s₀ s' ({ addr := x, size := size } :: live) arenas' free' where
  place := ht.descs ▸ h.place
  heap := hok
  nodup := by
    rw [List.map_cons, List.nodup_cons, h.taken]
    exact ⟨ht.fresh, h.nodup⟩
  taken y := by
    rw [List.map_cons, List.mem_cons, h.taken, ht.taken, or_comm]
  fits b hb A hA k hk haddr := by
    have hl := hok.shape.layout
    rcases List.mem_cons.mp hb with rfl | hb
    · obtain ⟨B, hB, j, hj, hx, hle⟩ := ht.fits
      obtain ⟨rfl, -⟩ := hl.slot_inj hA hk hB hj (haddr.symm.trans hx)
      exact hle
    · obtain ⟨B, hB, j, hj, hx, -, hle⟩ := h.slot hb
      obtain ⟨rfl, -⟩ := hl.slot_inj hA hk (ht.sub B hB) hj (haddr.symm.trans hx)
      exact hle
  active A hA := by
    rcases ht.active A hA with hA | ⟨k, hk, hx⟩
    · obtain ⟨k, hk, htaken⟩ := h.active A hA
      exact ⟨k, hk, (ht.taken _).mpr (.inl htaken)⟩
    · exact ⟨k, hk, (ht.taken _).mpr (.inr hx.symm)⟩

/-- They give it back. -/
theorem OwnerOk.give (h : OwnerOk s₀ s live arenas free) (hb : b ∈ live) (hok : HeapOk s₀ s' arenas' free')
    (hf : BlockFreed s s' arenas arenas' free free' b.addr) : OwnerOk s₀ s' (live.erase b) arenas' free' where
  place := hf.descs ▸ h.place
  heap := hok
  nodup := h.nodup.sublist (List.erase_sublist.map _)
  taken y := by
    rw [hf.taken, ← h.taken]
    constructor
    · intro hy
      obtain ⟨c, hc, rfl⟩ := List.mem_map.mp hy
      have hnodup : live.Nodup := h.nodup.of_map _
      obtain ⟨hne, hc⟩ := hnodup.mem_erase_iff.mp hc
      exact ⟨List.mem_map_of_mem hc, fun heq => hne (List.inj_on_of_nodup_map h.nodup hc hb heq)⟩
    · rintro ⟨hy, hne⟩
      obtain ⟨c, hc, rfl⟩ := List.mem_map.mp hy
      refine List.mem_map_of_mem ((List.mem_erase_of_ne ?_).mpr hc)
      rintro rfl
      exact hne rfl
  fits c hc A hA := h.fits c (List.mem_of_mem_erase hc) A (hf.sub A hA)
  active := hf.active h.active

/-! ## Writes of the owners -/

/-- Writes inside a taken slot. -/
theorem HeapOk.writeSlot (h : HeapOk s₀ s arenas free) (htaken : Taken arenas free (A.slot k))
    (hagree : ∀ P : HeapPart, P.Of arenas → P ≠ .slot A k → Agree (P.words s.descs) s.mem mem) :
    HeapOk s₀ (s.setMem mem) arenas free where
  shape := by
    refine h.shape.congr fun P hP hfree => hagree P hP ?_
    rintro rfl
    obtain ⟨i, hi, hmem⟩ := hfree A k rfl
    exact h.shape.not_taken hi hmem htaken
  descCnt := h.descCnt
  pages := h.pages.withMem mem

theorem OwnerOk.writeSlot (h : OwnerOk s₀ s live arenas free) (htaken : Taken arenas free (A.slot k))
    (hagree : ∀ P : HeapPart, P.Of arenas → P ≠ .slot A k → Agree (P.words s.descs) s.mem mem) :
    OwnerOk s₀ (s.setMem mem) live arenas free where
  place := h.place
  heap := h.heap.writeSlot htaken hagree
  nodup := h.nodup
  taken := h.taken
  fits := h.fits
  active := h.active

theorem agree_memcpy_slot (hl : HeapLayout s.descs arenas) (hA : A ∈ arenas) (hk : k < A.slots) (hn : n ≤ A.slotSize)
    {P : HeapPart} (hP : P.Of arenas) (hne : P ≠ .slot A k) (src : Vaddr) :
    Agree (P.words s.descs) mem (mem.memcpyBytes (A.slot k) src n) := by
  have hof : (HeapPart.slot A k).Of arenas := ⟨hA, hk⟩
  exact Agree.memcpyBytes fun j hj => hl.notMem_words hof hP (Ne.symm hne) (hl.slot_byte hA hk (by omega)).2

/-- **`block_size`** of a taken slot. -/
theorem HeapOk.blockSize (h : HeapOk s₀ s arenas free) (hA : A ∈ arenas) (hk : k < A.slots) :
    s.blockSize (A.slot k) = .ok (BitVec.ofNat 64 A.slotSize) := by
  have hl := h.shape.layout
  have hok := hl.ok A hA
  have hheader := h.shape.header A hA
  rw [KernelHeap.blockSize, blockToArena_slot hl hA hk hheader h.shape.desc]
  show Except.ok (if s.mem.arenaDesc A.page ≠ 0 then s.mem.descBlockSize (s.mem.arenaDesc A.page)
    else pageBytes * s.mem.freeCnt A.page - pgOfs (A.slot k)) = _
  rw [hheader.desc, hheader.cnt, Arena.descPtr, Arena.freeCount]
  cases hcls : A.cls with
  | some i =>
    have hi := (hok.cls i hcls).1
    dsimp only
    rw [if_pos (hl.descAt_ne_zero hi), (h.shape.desc i hi).blockSize, Arena.slotSize_eq hcls]
  | none =>
    rw [Arena.slots_big hcls] at hk
    obtain rfl : k = 0 := by omega
    have hofs := (hok.slot_page (k := 0) (by rw [Arena.slots_big hcls]; exact Nat.one_pos)).2
    rw [Nat.zero_mul] at hofs
    have hpos := hok.pos
    have hrange := hok.inRange
    have hpages := hok.pages_pos
    dsimp only
    rw [if_neg (not_not.mpr rfl), Arena.slotSize_big hcls]
    refine congrArg Except.ok (BitVec.eq_of_toNat_eq ?_)
    have h4096 : pageBytes.toNat = 4096 := rfl
    rw [BitVec.toNat_sub, BitVec.toNat_mul, hofs, h4096, BitVec.toNat_ofNat, BitVec.toNat_ofNat]
    omega

/-! ## The calls -/

theorem HeapLayout.keptBytes (hl : HeapLayout s.descs arenas) (hA : A ∈ arenas) (hk : k < A.slots)
    (hagree : Agree ((HeapPart.slot A k).words s.descs) s.mem mem) (hn : n ≤ A.slotSize) :
    KeptBytes s.mem mem (A.slot k) n :=
  fun _ hj => hagree.loadByte (hl.slot_byte hA hk (by omega)).2

/-- **`malloc`.** What the owners have stays. -/
theorem OwnerOk.malloc (h : OwnerOk s₀ s live arenas free) (hfits : s.Fits size alloc) :
    s.malloc size alloc = .ok (none, s) ∨
      ∃ x s' arenas' free', s.malloc size alloc = .ok (some x, s') ∧
        OwnerOk s₀ s' ({ addr := x, size := size } :: live) arenas' free' ∧
        ∀ b ∈ live, KeptBytes s.mem s'.mem b.addr b.size.toNat := by
  rcases h.heap.malloc_fits h.place hfits with hnone | ⟨x, s', arenas', free', hrun, hok, ht⟩
  · exact .inl hnone
  · refine .inr ⟨x, s', arenas', free', hrun, h.take hok ht, fun b hb => ?_⟩
    obtain ⟨A, hA, k, hk, haddr, htaken, hle⟩ := h.slot hb
    rw [haddr]
    exact h.heap.shape.layout.keptBytes hA hk (ht.kept A hA k hk htaken) hle

/-- **`free`** of a live block. -/
theorem OwnerOk.free_live (h : OwnerOk s₀ s live arenas free) (hb : b ∈ live) :
    ∃ s' arenas' free', s.free (some b.addr) = .ok s' ∧ OwnerOk s₀ s' (live.erase b) arenas' free' ∧
      ∀ c ∈ live.erase b, KeptBytes s.mem s'.mem c.addr c.size.toNat := by
  have htaken := (h.taken b.addr).mp (List.mem_map_of_mem hb)
  obtain ⟨s', arenas', free', hrun, hok, hf⟩ := h.heap.free_taken h.place htaken
  have hgive := h.give hb hok hf
  refine ⟨s', arenas', free', hrun, hgive, fun c hc => ?_⟩
  obtain ⟨A, hA, k, hk, haddr, htk, hle⟩ := hgive.slot hc
  rw [haddr]
  exact h.heap.shape.layout.keptBytes (hf.sub A hA) hk (hf.kept A hA k hk htk) hle

/-- Blocks of the owners that are at different addresses share no word. -/
theorem OwnerOk.keptBytes_of_ne (h : OwnerOk s₀ s live arenas free) (hb : b ∈ live) (hne : b.addr ≠ A.slot k)
    (hagree : ∀ P : HeapPart, P.Of arenas → P ≠ .slot A k → Agree (P.words s.descs) s.mem mem) :
    KeptBytes s.mem mem b.addr b.size.toNat := by
  obtain ⟨B, hB, j, hj, haddr, -, hle⟩ := h.slot hb
  rw [haddr] at hne ⊢
  refine h.heap.shape.layout.keptBytes hB hj (hagree (.slot B j) ⟨hB, hj⟩ fun hc => hne ?_) hle
  obtain ⟨rfl, rfl⟩ := HeapPart.slot.inj hc
  rfl

/-- A block that comes is at no address of another. -/
theorem OwnerOk.addr_ne {c : HeapBlock} (h : OwnerOk s₀ s (c :: live) arenas free) (hb : b ∈ live) :
    b.addr ≠ c.addr := by
  have hnodup := h.nodup
  rw [List.map_cons, List.nodup_cons] at hnodup
  exact fun hc => hnodup.1 (hc ▸ List.mem_map_of_mem hb)

/-- **`calloc`** of a product that does not wrap. -/
theorem OwnerOk.calloc {a c : BitVec 64} (h : OwnerOk s₀ s live arenas free) (hfits : s.Fits (a * c) alloc) :
    s.calloc a c alloc = .ok (none, s) ∨
      ∃ x s' arenas' free', s.calloc a c alloc = .ok (some x, s') ∧
        OwnerOk s₀ s' ({ addr := x, size := a * c } :: live) arenas' free' ∧
        ∀ b ∈ live, KeptBytes s.mem s'.mem b.addr b.size.toNat := by
  unfold KernelHeap.calloc
  dsimp only
  split
  · exact .inl rfl
  rcases h.malloc hfits with hnone | ⟨x, s', arenas', free', hrun, hok, hkept⟩
  · rw [hnone]
    exact .inl rfl
  · refine .inr ?_
    rw [hrun]
    obtain ⟨A, hA, k, hk, haddr, htaken, hle⟩ := hok.slot List.mem_cons_self
    have hl := hok.heap.shape.layout
    have hx : x = A.slot k := haddr
    have hagree : ∀ P : HeapPart, P.Of arenas' → P ≠ .slot A k →
        Agree (P.words s'.descs) s'.mem (s'.mem.memsetBytes x 0 (a * c).toNat) := by
      intro P hP hne
      rw [hx]
      exact agree_memset_slot hl hA hk hle hP hne 0
    refine ⟨x, _, arenas', free', rfl, hok.writeSlot htaken hagree, fun b hb j hj => ?_⟩
    have hne : b.addr ≠ A.slot k := haddr ▸ hok.addr_ne hb
    exact (hok.keptBytes_of_ne (List.mem_cons_of_mem _ hb) hne hagree j hj).trans (hkept b hb j hj)

/-- **`realloc`** moves the bytes that both blocks have, or leaves the block where it is. -/
theorem OwnerOk.realloc (h : OwnerOk s₀ s live arenas free) (hb : b ∈ live) (hsize : size ≠ 0)
    (hfits : s.Fits size alloc) :
    s.realloc (some b.addr) size alloc = .ok (none, s) ∨
      ∃ x s' arenas' free', s.realloc (some b.addr) size alloc = .ok (some x, s') ∧
        OwnerOk s₀ s' ({ addr := x, size := size } :: live.erase b) arenas' free' ∧
        (∀ c ∈ live.erase b, KeptBytes s.mem s'.mem c.addr c.size.toNat) ∧
        ∀ j < min b.size.toNat size.toNat,
          s'.mem.loadByte (x + BitVec.ofNat 64 j) = s.mem.loadByte (b.addr + BitVec.ofNat 64 j) := by
  unfold KernelHeap.realloc
  rw [if_neg hsize]
  rcases h.malloc hfits with hnone | ⟨x, s₁, arenas₁, free₁, hrun, hok, hkept⟩
  · rw [hnone]
    exact .inl rfl
  refine .inr ?_
  rw [hrun]
  have hl := hok.heap.shape.layout
  obtain ⟨A, hA, k, hk, haddr, htaken, hle⟩ := hok.slot List.mem_cons_self
  obtain ⟨B, hB, j, hj, haddrB, htakenB, hleB⟩ := hok.slot (List.mem_cons_of_mem _ hb)
  have hx : x = A.slot k := haddr
  have hle' : size.toNat ≤ A.slotSize := hle
  have hne : b.addr ≠ x := hok.addr_ne hb
  have hlt := (hl.ok B hB).slotSize_lt
  -- the bytes that are copied
  obtain ⟨m, hm⟩ : ∃ m, m = min B.slotSize size.toNat := ⟨_, rfl⟩
  have hmin : (if size < BitVec.ofNat 64 B.slotSize then size else BitVec.ofNat 64 B.slotSize).toNat = m := by
    have hnat : (BitVec.ofNat 64 B.slotSize).toNat = B.slotSize := by
      rw [BitVec.toNat_ofNat, Nat.mod_eq_of_lt hlt]
    split
    · next hlt' =>
      rw [BitVec.lt_def, hnat] at hlt'
      omega
    · next hge =>
      rw [BitVec.lt_def, hnat] at hge
      rw [hnat]
      omega
  have hagree : ∀ P : HeapPart, P.Of arenas₁ → P ≠ .slot A k →
      Agree (P.words s₁.descs) s₁.mem (s₁.mem.memcpyBytes x b.addr m) := by
    intro P hP hPne
    rw [hx]
    exact agree_memcpy_slot hl hA hk (by omega) hP hPne b.addr
  have hcopied := hok.writeSlot htaken hagree
  have hbytes : ∀ j < m, (s₁.mem.memcpyBytes x b.addr m).loadByte (x + BitVec.ofNat 64 j) =
      s₁.mem.loadByte (b.addr + BitVec.ofNat 64 j) := by
    intro j' hj'
    refine loadByte_memcpyBytes (fun i hi l hl' hc => ?_) (by omega) hj'
    have hA' : (HeapPart.slot A k).Of arenas₁ := ⟨hA, hk⟩
    have hB' : (HeapPart.slot B j).Of arenas₁ := ⟨hB, hj⟩
    have hparts : HeapPart.slot A k ≠ .slot B j := by
      intro hc'
      obtain ⟨rfl, rfl⟩ := HeapPart.slot.inj hc'
      exact hne (haddrB.trans hx.symm)
    have hin := (hl.slot_byte hA hk (n := i) (by omega)).2
    have hin' := (hl.slot_byte hB hj (n := l) (by omega)).2
    rw [← hx, hc, haddrB] at hin
    exact hl.notMem_words hA' hB' hparts hin hin'
  -- the old block goes
  obtain ⟨s₂, arenas₂, free₂, hfree, hok₂, hkept₂⟩ := hcopied.free_live (List.mem_cons_of_mem _ hb)
  have herase : ({ addr := x, size := size } :: live : List HeapBlock).erase b =
      { addr := x, size := size } :: live.erase b := by
    refine List.erase_cons_tail ?_
    rw [beq_iff_eq]
    rintro rfl
    exact hne rfl
  rw [herase] at hok₂ hkept₂
  refine ⟨x, s₂, arenas₂, free₂, ?_, hok₂, fun c hc j' hj' => ?_, fun j' hj' => ?_⟩
  · have hsizeB := hok.heap.blockSize hB hj
    rw [← haddrB] at hsizeB
    show (s₁.blockSize b.addr >>= _) = _
    rw [hsizeB]
    show (((s₁.setMem (s₁.mem.memcpyBytes x b.addr _)).free (some b.addr)) >>= _) = _
    rw [hmin, hfree]
    rfl
  · have hc₁ := List.mem_of_mem_erase hc
    have hcne : c.addr ≠ A.slot k := haddr ▸ hok.addr_ne hc₁
    exact (hkept₂ c (List.mem_cons_of_mem _ hc) j' hj').trans
      ((hok.keptBytes_of_ne (List.mem_cons_of_mem _ hc₁) hcne hagree j' hj').trans (hkept c hc₁ j' hj'))
  · have hnew : s₂.mem.loadByte (x + BitVec.ofNat 64 j') = _ := hkept₂ _ List.mem_cons_self j' (by
      show j' < size.toNat
      omega)
    exact (hnew.trans (hbytes j' (by omega))).trans (hkept b hb j' (by omega))

end

end Pintos
