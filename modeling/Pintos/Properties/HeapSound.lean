import Pintos.Properties.HeapRuns

/-!
# What holds in every run of the allocator

* `HeapRoom` — bytes in pages that were got from the page allocator
* `OwnerOk.step` — **no step of the owners ends in an assertion**
* `kernel_heap_sound` — **the invariant**, as long as the requests can be rounded to pages
* `double_block` — two blocks at one address
-/

namespace Pintos

open Function LittleEndian Machine

/-- The bytes are in pages that were got from the page allocator. -/
structure HeapRoom (s₀ : WordPools) (s : KernelHeap) (x : Vaddr) (size : Nat) : Prop where
  inRange : x.toNat + size ≤ 2 ^ 64
  pages : ∀ n < size, (s.pool false).Holds true (pgRoundDown (x + BitVec.ofNat 64 n)) ∧
    ¬ s₀.Used (pgRoundDown (x + BitVec.ofNat 64 n))

/-- The bytes from `x` on and those of the block are apart. -/
def ApartFrom (x : Vaddr) (size : Nat) (b : HeapBlock) : Prop :=
  x.toNat + size ≤ b.addr.toNat ∨ b.addr.toNat + b.size.toNat ≤ x.toNat

/-- An arena beside the blocks that are live and those that are free. -/
structure ArenaSound (s : HeapOwner) (free : Nat → List Vaddr) (A : Arena) : Prop where
  magic : s.mem.magic A.page = ARENA_MAGIC
  desc : s.mem.arenaDesc A.page = A.descPtr s.descs
  onList : ∀ i, A.cls = some i → (s.mem.freeCnt A.page).toNat = (free i).countP fun x => pgRoundDown x = A.page
  rest : ∀ i, A.cls = some i → (s.mem.freeCnt A.page).toNat + (s.live.countP fun b => pgRoundDown b.addr = A.page) =
    (s.mem.blocksPerArena (descAt s.descs i)).toNat
  big : A.cls = none → (s.mem.freeCnt A.page).toNat = A.pages
  used : ∃ b ∈ s.live, pgRoundDown b.addr = A.page

/-- The arenas are all pages that were got, and the free lists have their blocks. -/
structure ArenasSound (s₀ : WordPools) (s : HeapOwner) (arenas : List Arena) (free : Nat → List Vaddr) : Prop where
  pages : ArenaPages s₀ s.toWordPools arenas
  arena : ∀ A ∈ arenas, ArenaSound s free A
  list : ∀ i < s.descCnt, IsList s.mem (freeList (descAt s.descs i)) (free i)
  nodup : ∀ i < s.descCnt, (free i).Nodup
  notLive : ∀ i < s.descCnt, ∀ b ∈ s.live, b.addr ∉ free i

/-- Nothing is live. -/
def HeapOwner.boot (s : KernelHeap) : HeapOwner := { s with live := [] }

/-- The requests can be rounded to pages, or there is no memory for them. -/
def HeapOwner.Fits (s : HeapOwner) : HeapAction → Prop
  | .malloc size alloc | .realloc _ size alloc => s.toKernelHeap.Fits size alloc
  | .calloc a b alloc => a * b < a ∨ a * b < b ∨ a.toNat * b.toNat + 4119 < 2 ^ 64 ∨ s.NoRoom (a * b) alloc
  | .free _ | .write _ _ _ => True

/-- The state of the allocator, and what one more step does. -/
structure HeapSound (s₀ : WordPools) (s : HeapOwner) : Prop where
  apart : s.live.Pairwise fun b c => ApartFrom b.addr b.size.toNat c
  room : ∀ b ∈ s.live, HeapRoom s₀ s.toKernelHeap b.addr b.size.toNat
  usable : ∀ b ∈ s.live, ∃ n, s.blockSize b.addr = .ok n ∧ b.size ≤ n
  arenas : ∃ arenas free, ArenasSound s₀ s arenas free
  step : ∀ a, s.Fits a → ∀ e, s.step a = .error e → e = .disabled
  realloc : ∀ b ∈ s.live, ∀ size alloc, size ≠ 0 → s.Fits (.realloc (some b) size alloc) →
    s.toKernelHeap.realloc (some b.addr) size alloc = .ok (none, s.toKernelHeap) ∧
      s.step (.realloc (some b) size alloc) = .ok s ∨
    ∃ x t, s.toKernelHeap.realloc (some b.addr) size alloc = .ok (some x, t) ∧
      s.step (.realloc (some b) size alloc) = .ok (HeapOwner.got t (s.live.erase b) size (some x)) ∧
      ∀ j < min b.size.toNat size.toNat,
        t.mem.loadByte (x + BitVec.ofNat 64 j) = s.mem.loadByte (b.addr + BitVec.ofNat 64 j)

section

variable {s₀ : WordPools} {s t : KernelHeap} {live : List HeapBlock} {arenas : List Arena} {free : Nat → List Vaddr}
  {A : Arena} {b c : HeapBlock} {size : BitVec 64} {alloc : Bool} {x : Vaddr} {i k n : Nat}

/-! ## Steps -/

/-- The step yields a state that is as sound. -/
def OwnerOk.Steps (s₀ : WordPools) (s : HeapOwner) (a : HeapAction) : Prop :=
  ∃ (s' : HeapOwner) (arenas' : List Arena) (free' : Nat → List Vaddr), s.step a = .ok s' ∧
    OwnerOk s₀ s'.toKernelHeap s'.live arenas' free'

variable {o : HeapOwner}

theorem OwnerOk.step_malloc (h : OwnerOk s₀ o.toKernelHeap o.live arenas free)
    (hfits : o.toKernelHeap.Fits size alloc) :
    OwnerOk.Steps s₀ o (.malloc size alloc) := by
  unfold OwnerOk.Steps HeapOwner.step
  dsimp only
  rcases h.malloc hfits with hrun | ⟨x, s', arenas', free', hrun, hok, -⟩
  · rw [hrun]
    exact ⟨o, arenas, free, rfl, h⟩
  · rw [hrun]
    exact ⟨_, arenas', free', rfl, hok⟩

/-- A product that wraps and that the check does not see does not fit. -/
theorem OwnerOk.step_calloc {a c : BitVec 64} (h : OwnerOk s₀ o.toKernelHeap o.live arenas free)
    (hfits : o.Fits (.calloc a c alloc)) : OwnerOk.Steps s₀ o (.calloc a c alloc) := by
  unfold OwnerOk.Steps HeapOwner.step
  dsimp only
  by_cases hcheck : a * c < a ∨ a * c < c
  · have hrun : o.toKernelHeap.calloc a c alloc = .ok (none, o.toKernelHeap) := by
      unfold KernelHeap.calloc
      exact if_pos hcheck
    rw [hrun]
    exact ⟨o, arenas, free, rfl, h⟩
  · rw [not_or] at hcheck
    have hfits' : o.toKernelHeap.Fits (a * c) alloc := by
      rcases (hfits.resolve_left hcheck.1).resolve_left hcheck.2 with hlt | hno
      · refine .inl ?_
        rw [BitVec.toNat_mul, Nat.mod_eq_of_lt (by omega)]
        exact hlt
      · exact .inr hno
    rcases h.calloc hfits' with hrun | ⟨x, s', arenas', free', hrun, hok, -⟩
    · rw [hrun]
      exact ⟨o, arenas, free, rfl, h⟩
    · rw [hrun]
      exact ⟨_, arenas', free', rfl, hok⟩

/-- The step of `realloc` for a size that is not 0. -/
theorem step_realloc_some (hb : b ∈ o.live) (hsize : size ≠ 0) {r : Option Vaddr}
    (hrun : o.toKernelHeap.realloc (some b.addr) size alloc = .ok (r, t)) :
    o.step (.realloc (some b) size alloc) =
      .ok (HeapOwner.got t (if r.isSome then o.live.erase b else o.live) size r) := by
  have howns : o.owns (some b) = true := decide_eq_true hb
  unfold HeapOwner.step
  dsimp only
  rw [if_neg (not_not.mpr howns), Option.map_some, hrun]
  show Except.ok (HeapOwner.got t (if r.isSome = true ∨ size = 0 then o.live.erase b else o.live) size r) = _
  simp only [hsize, or_false]

/-- `realloc` of a null pointer is `malloc`, or nothing. -/
theorem OwnerOk.step_realloc_none (h : OwnerOk s₀ o.toKernelHeap o.live arenas free)
    (hfits : o.toKernelHeap.Fits size alloc) : OwnerOk.Steps s₀ o (.realloc none size alloc) := by
  have hstep : ∀ r, o.toKernelHeap.realloc none size alloc = .ok r →
      o.step (.realloc none size alloc) = .ok (HeapOwner.got r.2 o.live size r.1) := by
    intro r hrun
    have howns : ¬ ¬ o.owns none = true := not_not.mpr rfl
    unfold HeapOwner.step
    dsimp only
    rw [if_neg howns, Option.map_none, hrun]
    show Except.ok (HeapOwner.got r.2 (if _ then o.live else o.live) size r.1) = _
    rw [ite_self]
  by_cases hsize : size = 0
  · have hrun : o.toKernelHeap.realloc none size alloc = .ok (none, o.toKernelHeap) := by
      unfold KernelHeap.realloc
      rw [if_pos hsize]
      rfl
    exact ⟨o, arenas, free, hstep _ hrun, h⟩
  · have hmalloc : o.toKernelHeap.realloc none size alloc = o.toKernelHeap.malloc size alloc := by
      unfold KernelHeap.realloc
      rw [if_neg hsize]
      cases o.toKernelHeap.malloc size alloc <;> rfl
    rcases h.malloc hfits with hrun | ⟨x, s', arenas', free', hrun, hok, -⟩
    · exact ⟨o, arenas, free, hstep _ (hmalloc.trans hrun), h⟩
    · exact ⟨_, arenas', free', hstep _ (hmalloc.trans hrun), hok⟩

theorem OwnerOk.step_free (h : OwnerOk s₀ o.toKernelHeap o.live arenas free) (hb : b ∈ o.live) :
    OwnerOk.Steps s₀ o (.free (some b)) ∧ ∀ alloc, OwnerOk.Steps s₀ o (.realloc (some b) 0 alloc) := by
  have howns : o.owns (some b) = true := decide_eq_true hb
  obtain ⟨s', arenas', free', hrun, hok, -⟩ := h.free_live hb
  refine ⟨⟨{ s' with live := o.live.erase b }, arenas', free', ?_, hok⟩,
    fun alloc => ⟨{ s' with live := o.live.erase b }, arenas', free', ?_, hok⟩⟩
  · unfold HeapOwner.step
    dsimp only
    rw [if_neg (not_not.mpr howns), Option.map_some, hrun]
    rfl
  · unfold HeapOwner.step KernelHeap.realloc
    dsimp only
    rw [if_neg (not_not.mpr howns), Option.map_some, if_pos rfl, hrun]
    rfl

theorem OwnerOk.step_realloc (h : OwnerOk s₀ o.toKernelHeap o.live arenas free) (hb : b ∈ o.live)
    (hfits : o.toKernelHeap.Fits size alloc) : OwnerOk.Steps s₀ o (.realloc (some b) size alloc) := by
  by_cases hsize : size = 0
  · subst hsize
    exact (h.step_free hb).2 alloc
  · rcases h.realloc hb hsize hfits with hrun | ⟨x, s', arenas', free', hrun, hok, -⟩
    · exact ⟨o, arenas, free, step_realloc_some hb hsize hrun, h⟩
    · exact ⟨_, arenas', free', step_realloc_some hb hsize hrun, hok⟩

/-- An owner writes inside its block. -/
theorem OwnerOk.step_write {ofs : Nat} {value : Byte} (h : OwnerOk s₀ o.toKernelHeap o.live arenas free)
    (hb : b ∈ o.live) :
    OwnerOk.Steps s₀ o (.write b ofs value) ∨ o.step (.write b ofs value) = .error .disabled := by
  obtain ⟨A, hA, k, hk, haddr, htaken, -⟩ := h.slot hb
  have hl := h.heap.shape.layout
  have hof : (HeapPart.slot A k).Of arenas := ⟨hA, hk⟩
  have hlt := (hl.ok A hA).slotSize_lt
  have hsize := h.heap.blockSize hA hk
  rw [← haddr] at hsize
  have hstep : o.step (.write b ofs value) =
      if ¬ ofs < A.slotSize then .error .disabled
      else .ok { o with mem := o.mem.storeByte (b.addr + BitVec.ofNat 64 ofs) value } := by
    unfold HeapOwner.step
    dsimp only
    rw [if_neg (not_not.mpr hb), hsize]
    show (if ¬ ofs < (BitVec.ofNat 64 A.slotSize).toNat then _ else _) = _
    rw [BitVec.toNat_ofNat, Nat.mod_eq_of_lt hlt]
  unfold OwnerOk.Steps
  rw [hstep]
  split
  · exact .inr rfl
  next hofs =>
  refine .inl ⟨_, arenas, free, rfl, h.writeSlot htaken fun P hP hne => ?_⟩
  rw [haddr]
  exact Agree.storeByte (hl.notMem_words hof hP (Ne.symm hne) (hl.slot_byte hA hk (not_not.mp hofs)).2) value

/-- **No step ends in an assertion.** -/
theorem OwnerOk.step {a : HeapAction} (h : OwnerOk s₀ o.toKernelHeap o.live arenas free) (hfits : o.Fits a) :
    OwnerOk.Steps s₀ o a ∨ o.step a = .error .disabled := by
  cases a with
  | malloc size alloc => exact .inl (h.step_malloc hfits)
  | calloc a c alloc => exact .inl (h.step_calloc hfits)
  | realloc old size alloc =>
    cases old with
    | none => exact .inl (h.step_realloc_none hfits)
    | some b =>
      by_cases hb : b ∈ o.live
      · exact .inl (h.step_realloc hb hfits)
      · exact .inr (if_pos fun howns => hb (of_decide_eq_true howns))
  | free block =>
    cases block with
    | none => exact .inl ⟨o, arenas, free, rfl, h⟩
    | some b =>
      by_cases hb : b ∈ o.live
      · exact .inl (h.step_free hb).1
      · exact .inr (if_pos fun howns => hb (of_decide_eq_true howns))
  | write b ofs value =>
    by_cases hb : b ∈ o.live
    · exact h.step_write hb
    · exact .inr (if_pos hb)

/-! ## What the state says -/

/-- A byte of a slot is in a page of its arena, which was got. -/
theorem HeapOk.room (hp : HeapPlace s₀ s.descs) (h : HeapOk s₀ s arenas free) (hA : A ∈ arenas) (hk : k < A.slots)
    (hn : n ≤ A.slotSize) : HeapRoom s₀ s (A.slot k) n := by
  have hok := h.shape.layout.ok A hA
  have hle := hok.slot_le hk
  have hrange := hok.inRange
  have halign := hok.aligned
  have hnat := hok.slot_toNat hk
  refine ⟨by omega, fun j hj => ?_⟩
  have hj' : (A.slot k + BitVec.ofNat 64 j).toNat = A.page.toNat + (24 + k * A.slotSize + j) := by
    rw [BitVec.toNat_add, BitVec.toNat_ofNat, hnat]
    omega
  obtain ⟨idx, hpage, hidx⟩ := h.pages.index hA
  have hplaced := h.pages.same.placed hp.placed
  -- the page of the byte
  obtain ⟨m, hm⟩ : ∃ m, m = (24 + k * A.slotSize + j) / 4096 := ⟨_, rfl⟩
  have hmlt : m < A.pages := by omega
  have hround : pgRoundDown (A.slot k + BitVec.ofNat 64 j) = A.page + BitVec.ofNat 64 (PGSIZE * m) := by
    refine BitVec.eq_of_toNat_eq ?_
    rw [pgRoundDown_toNat, hj', BitVec.toNat_add, BitVec.toNat_ofNat, PGSIZE]
    omega
  have hhas : A.group.Has (A.page + BitVec.ofNat 64 (PGSIZE * m)) := ⟨m, hmlt, rfl⟩
  have hgroup : A.group ∈ arenas.map Arena.group := List.mem_map_of_mem hA
  rw [hround]
  refine ⟨?_, h.pages.held.usable A.group hgroup _ hhas⟩
  have hindex : A.page + BitVec.ofNat 64 (PGSIZE * m) = (s.pool false).page (idx + m) := by
    rw [hpage, ← h.pages.same.page, WordPool.page_add]
  have hlt : idx + m < (s.pool false).usedMap.bitCnt := by
    have hcnt : (s.pool false).usedMap.bitCnt = (s₀.pool false).usedMap.bitCnt := h.pages.same.bitCnt false
    omega
  have hused : s.Used (A.page + BitVec.ofNat 64 (PGSIZE * m)) :=
    (h.pages.held.used_iff _).mpr (.inr ⟨A.group, hgroup, hhas⟩)
  rw [hindex] at hused ⊢
  exact ⟨idx + m, hlt, (hplaced.used_page hlt).mp hused, rfl⟩

/-- Slots at different addresses are apart. -/
theorem HeapLayout.slots_apart {B : Arena} {j : Nat} {descs : Vaddr} (hl : HeapLayout descs arenas) (hA : A ∈ arenas)
    (hk : k < A.slots) (hB : B ∈ arenas) (hj : j < B.slots) (hne : A.slot k ≠ B.slot j) :
    (A.slot k).toNat + A.slotSize ≤ (B.slot j).toNat ∨ (B.slot j).toNat + B.slotSize ≤ (A.slot k).toNat := by
  have hof : (HeapPart.slot A k).Of arenas := ⟨hA, hk⟩
  have hof' : (HeapPart.slot B j).Of arenas := ⟨hB, hj⟩
  have hparts := hl.parts hof hof' fun hc => hne (by obtain ⟨rfl, rfl⟩ := HeapPart.slot.inj hc; rfl)
  rw [(hl.ok A hA).slot_toNat hk, (hl.ok B hB).slot_toNat hj]
  exact hparts

theorem OwnerOk.apartFrom (h : OwnerOk s₀ s live arenas free) (hb : b ∈ live) (hc : c ∈ live) (hne : b.addr ≠ c.addr) :
    ApartFrom b.addr b.size.toNat c := by
  obtain ⟨A, hA, k, hk, haddr, -, hle⟩ := h.slot hb
  obtain ⟨B, hB, j, hj, haddr', -, hle'⟩ := h.slot hc
  unfold ApartFrom
  rw [haddr, haddr'] at hne ⊢
  rcases h.heap.shape.layout.slots_apart hA hk hB hj hne with hap | hap
  · exact .inl (by omega)
  · exact .inr (by omega)

/-- **The blocks of an arena are free or live.** -/
theorem OwnerOk.count (h : OwnerOk s₀ s live arenas free) (hA : A ∈ arenas) (hcls : A.cls = some i) :
    A.freeCount free + (live.countP fun b => pgRoundDown b.addr = A.page) = perArena i := by
  have hl := h.heap.shape.layout
  have hi := ((hl.ok A hA).cls i hcls).1
  have hslots : A.slots = perArena i := Arena.slots_eq hcls
  have hnodup : (free i).Nodup := (h.heap.shape.list i hi).nodup_elems
  obtain ⟨F, hF⟩ : ∃ F, F = (free i).filter fun x => pgRoundDown x = A.page := ⟨_, rfl⟩
  obtain ⟨L, hL⟩ : ∃ L, L = (live.map (·.addr)).filter fun x => pgRoundDown x = A.page := ⟨_, rfl⟩
  have hslot : ∀ x, Taken arenas free x ∨ x ∈ free i → pgRoundDown x = A.page → ∃ k < A.slots, x = A.slot k := by
    intro x hx hpage
    obtain ⟨B, hB, k, hk, rfl⟩ : ∃ B ∈ arenas, ∃ k < B.slots, x = B.slot k := by
      rcases hx with ⟨B, hB, k, hk, heq, -⟩ | hx
      · exact ⟨B, hB, k, hk, heq⟩
      · exact h.heap.shape.slots hi x hx
    rw [((hl.ok B hB).slot_page hk).1] at hpage
    obtain rfl := hl.page_inj hB hA hpage
    exact ⟨k, hk, rfl⟩
  have hperm : (F ++ L).Perm (A.firstSlots (perArena i)) := by
    refine (List.perm_ext_iff_of_nodup ?_ (Arena.nodup_firstSlots hl hA hslots.ge)).mpr fun x => ?_
    · rw [hF, hL]
      refine List.nodup_append'.mpr ⟨hnodup.filter _, h.nodup.filter _, fun x hx hx' => ?_⟩
      exact h.heap.shape.not_taken hi (List.mem_of_mem_filter hx) ((h.taken x).mp (List.mem_of_mem_filter hx'))
    · rw [List.mem_append, Arena.mem_firstSlots, hF, hL, List.mem_filter, List.mem_filter, h.taken, ← or_and_right,
        decide_eq_true_iff]
      constructor
      · rintro ⟨hx, hpage⟩
        obtain ⟨k, hk, rfl⟩ := hslot x hx.symm hpage
        exact ⟨k, by omega, rfl⟩
      · rintro ⟨k, hk, rfl⟩
        have hk' : k < A.slots := by omega
        refine ⟨?_, ((hl.ok A hA).slot_page hk').1⟩
        by_cases hmem : A.slot k ∈ free i
        · exact .inl hmem
        · refine .inr ((taken_slot hl hA hk').mpr fun j hj => ?_)
          obtain rfl := Option.some.inj (hj.symm.trans hcls)
          exact hmem
  have hlen := hperm.length_eq
  have hfreeCount : A.freeCount free = F.length := by
    rw [Arena.freeCount, hcls, hF]
    exact List.countP_eq_length_filter
  have hlive : (live.countP fun b => pgRoundDown b.addr = A.page) = L.length := by
    rw [hL, ← List.countP_eq_length_filter, List.countP_map]
    rfl
  rw [List.length_append, Arena.firstSlots, List.length_map, List.length_range] at hlen
  omega

theorem OwnerOk.arenaSound (h : OwnerOk s₀ o.toKernelHeap o.live arenas free) (hA : A ∈ arenas) :
    ArenaSound o free A := by
  have hl := h.heap.shape.layout
  have hheader := h.heap.shape.header A hA
  have hcnt : ∀ i, A.cls = some i → (o.mem.freeCnt A.page).toNat = A.freeCount free := by
    intro i hcls
    have hcount := h.count hA hcls
    have hle := perArena_le i
    rw [hheader.cnt, BitVec.toNat_ofNat, Nat.mod_eq_of_lt (by omega)]
  refine ⟨hheader.magic, hheader.desc, fun i hcls => ?_, fun i hcls => ?_, fun hcls => ?_, ?_⟩
  · rw [hcnt i hcls, Arena.freeCount, hcls]
  · rw [hcnt i hcls, h.count hA hcls, (h.heap.shape.desc i ((hl.ok A hA).cls i hcls).1).blocksPerArena, perArena_toNat]
  · rw [hheader.cnt, Arena.freeCount, hcls]
    exact (hl.ok A hA).pages_toNat
  · obtain ⟨k, hk, htaken⟩ := h.active A hA
    obtain ⟨b, hb, haddr⟩ := List.mem_map.mp ((h.taken _).mpr htaken)
    refine ⟨b, hb, ?_⟩
    rw [haddr]
    exact ((hl.ok A hA).slot_page hk).1

/-- The bytes of a live block. -/
theorem OwnerOk.room (h : OwnerOk s₀ s live arenas free) (hb : b ∈ live) : HeapRoom s₀ s b.addr b.size.toNat := by
  obtain ⟨A, hA, k, hk, haddr, -, hle⟩ := h.slot hb
  rw [haddr]
  exact h.heap.room h.place hA hk hle

theorem OwnerOk.sound (h : OwnerOk s₀ o.toKernelHeap o.live arenas free) : HeapSound s₀ o where
  apart := by
    have hpairwise := List.pairwise_map.mp h.nodup
    exact hpairwise.imp_of_mem fun hb hc hne => h.apartFrom hb hc hne
  room _ := h.room
  usable b hb := by
    obtain ⟨A, hA, k, hk, haddr, -, hle⟩ := h.slot hb
    have hlt := (h.heap.shape.layout.ok A hA).slotSize_lt
    refine ⟨_, haddr ▸ h.heap.blockSize hA hk, ?_⟩
    rw [BitVec.le_def, BitVec.toNat_ofNat, Nat.mod_eq_of_lt hlt]
    exact hle
  arenas := by
    have hcnt := h.heap.descCnt
    refine ⟨arenas, free, h.heap.pages, fun A hA => h.arenaSound hA, ?_, ?_, ?_⟩ <;> rw [hcnt]
    · exact h.heap.shape.list
    · exact fun i hi => (h.heap.shape.list i hi).nodup_elems
    · exact fun i hi b hb hmem => h.heap.shape.not_taken hi hmem ((h.taken _).mp (List.mem_map_of_mem hb))
  step a hfits e he := by
    rcases h.step hfits with ⟨s', -, -, hrun, -⟩ | hrun
    · rw [hrun] at he
      cases he
    · rw [hrun] at he
      exact (Except.error.inj he).symm
  realloc b hb size alloc hsize hfits := by
    rcases h.realloc hb hsize hfits with hrun | ⟨x, s', arenas', free', hrun, -, -, hbytes⟩
    · exact .inl ⟨hrun, step_realloc_some hb hsize hrun⟩
    · exact .inr ⟨x, _, hrun, step_realloc_some hb hsize hrun, hbytes⟩

end

/-! ## Runs -/

section

variable {s₀ : WordPools} {descs : Vaddr} {h : KernelHeap} {s : HeapOwner}

theorem ownerOk_of_reach (hp : HeapPlace s₀ descs) (hm : s₀.MapsOk) (hinit : KernelHeap.mallocInit s₀ descs = .ok h)
    (hr : Reach HeapOwner.step HeapOwner.Fits (HeapOwner.boot h) s) :
    ∃ arenas free, OwnerOk s₀ s.toKernelHeap s.live arenas free := by
  obtain ⟨h', hinit', hdescs, hok⟩ := mallocInit_ok hp hm
  obtain rfl : h' = h := Except.ok.inj (hinit'.symm.trans hinit)
  refine hr.invariant (I := fun s => ∃ arenas free, OwnerOk s₀ s.toKernelHeap s.live arenas free)
    ⟨[], fun _ => [], OwnerOk.boot (hdescs ▸ hp) hok⟩ fun s a s' hi hfits hs => ?_
  obtain ⟨arenas, free, hs'⟩ := hi
  rcases hs'.step hfits with ⟨t, arenas', free', hrun, hok'⟩ | hrun
  · rw [hrun] at hs
    cases hs
    exact ⟨arenas', free', hok'⟩
  · rw [hrun] at hs
    cases hs

/--
**The allocator of blocks is sound in every run** of `malloc`, `calloc`, `realloc`, `free` and writes of the owners
inside their blocks, whenever the page allocator has no pages, as long as the sum that each request is rounded to
pages from does not wrap.
-/
theorem kernel_heap_sound (hp : HeapPlace s₀ descs) (hm : s₀.MapsOk) (hinit : KernelHeap.mallocInit s₀ descs = .ok h)
    (hr : Reach HeapOwner.step HeapOwner.Fits (HeapOwner.boot h) s) : HeapSound s₀ s := by
  obtain ⟨arenas, free, hok⟩ := ownerOk_of_reach hp hm hinit hr
  exact hok.sound

end

/-! ## Small pools -/

theorem smallHeap_place : HeapPlace smallWordPools 0x8004000000 where
  placed := smallWordPools_placed
  aligned := by decide
  pos := by decide
  inRange := by decide
  off := .inl (by decide)

theorem smallWordPools_maps : smallWordPools.MapsOk := fun user => by
  cases user <;> rfl

/-- A check of the allocator that `malloc_init` makes for the small pools. -/
def smallHeapCheck (check : KernelHeap → Bool) : Bool :=
  match KernelHeap.mallocInit smallWordPools 0x8004000000 with
  | .ok h => check h
  | .error _ => false

theorem exists_of_smallHeapCheck {check : KernelHeap → Bool} (hcheck : smallHeapCheck check = true) :
    ∃ h, KernelHeap.mallocInit smallWordPools 0x8004000000 = .ok h ∧ check h = true := by
  obtain ⟨h, hinit, -, -⟩ := mallocInit_ok smallHeap_place smallWordPools_maps
  rw [smallHeapCheck, hinit] at hcheck
  exact ⟨h, hinit, hcheck⟩

/-- A block of a descriptor and a big one. -/
theorem kernel_heap_sound_two : ∃ (h : KernelHeap) (s : HeapOwner),
    KernelHeap.mallocInit smallWordPools 0x8004000000 = .ok h ∧
    s.live = [⟨0x8004103018, 5000⟩, ⟨0x8004101018, 1000⟩] ∧ HeapSound smallWordPools s := by
  have hcheck : smallHeapCheck (fun h => (execIf HeapOwner.step (fun _ a => match a with
      | .malloc size _ => decide (size.toNat + 4119 < 2 ^ 64)
      | .write _ _ _ => true
      | _ => false) (HeapOwner.boot h)
    [.malloc 1000 true, .malloc 5000 true, .write ⟨0x8004103018, 5000⟩ 4999 7]).any
      fun s => decide (s.live = [⟨0x8004103018, 5000⟩, ⟨0x8004101018, 1000⟩])) = true := by decide +kernel
  obtain ⟨h, hinit, hrun⟩ := exists_of_smallHeapCheck hcheck
  obtain ⟨s, hreach, hlive⟩ := exists_of_execIf (C := HeapOwner.Fits) (fun s a ha => by
    cases a with
    | malloc size alloc => exact .inl (of_decide_eq_true ha)
    | write b ofs value => exact trivial
    | calloc a b alloc => cases ha
    | realloc old size alloc => cases ha
    | free b => cases ha) _ hrun
  exact ⟨h, s, hinit, of_decide_eq_true hlive,
    kernel_heap_sound smallHeap_place smallWordPools_maps hinit hreach⟩

/--
The sum of the size and a header does not wrap, but the one with a page does: no page is asked for, the first page of
the pool is taken for an arena, and two blocks are at one address.
-/
theorem double_block : ∃ (h : KernelHeap) (s : HeapOwner),
    KernelHeap.mallocInit smallWordPools 0x8004000000 = .ok h ∧
    Reach HeapOwner.step (fun _ a => ∃ size alloc, a = .malloc size alloc ∧ size.toNat + 24 < 2 ^ 64)
      (HeapOwner.boot h) s ∧
    s.live = [⟨0x8004100018, 0xffffffffffffefe9⟩, ⟨0x8004100018, 0xffffffffffffefe9⟩] ∧
    ¬ s.live.Pairwise fun b c => ApartFrom b.addr b.size.toNat c := by
  have hcheck : smallHeapCheck (fun h => (execIf HeapOwner.step (fun _ a => match a with
      | .malloc size _ => decide (size.toNat + 24 < 2 ^ 64)
      | _ => false) (HeapOwner.boot h)
    [.malloc 0xffffffffffffefe9 true, .malloc 0xffffffffffffefe9 true]).any
      fun s => decide (s.live = [⟨0x8004100018, 0xffffffffffffefe9⟩, ⟨0x8004100018, 0xffffffffffffefe9⟩])) = true := by
    decide +kernel
  obtain ⟨h, hinit, hrun⟩ := exists_of_smallHeapCheck hcheck
  obtain ⟨s, hreach, hlive⟩ := exists_of_execIf
    (C := fun _ a => ∃ size alloc, a = .malloc size alloc ∧ size.toNat + 24 < 2 ^ 64) (fun s a ha => by
      cases a with
      | malloc size alloc => exact ⟨size, alloc, rfl, of_decide_eq_true ha⟩
      | write b ofs value => cases ha
      | calloc a b alloc => cases ha
      | realloc old size alloc => cases ha
      | free b => cases ha) _ hrun
  replace hlive := of_decide_eq_true hlive
  refine ⟨h, s, hinit, hreach, hlive, ?_⟩
  rw [hlive, List.pairwise_cons]
  rintro ⟨hapart, -⟩
  have hap := hapart _ List.mem_cons_self
  unfold ApartFrom at hap
  exact absurd hap (by decide)

end Pintos
