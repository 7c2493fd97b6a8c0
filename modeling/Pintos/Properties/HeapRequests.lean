import Pintos.Properties.HeapSound

/-!
# When `malloc` and `calloc` give what was asked for

* `HeapOk.malloc_large` — a size whose pages wrap
* `OwnerOk.malloc_enough_iff`, `OwnerOk.calloc_enough_iff` — the sizes that fit
* `malloc_calloc_enough_iff` — **in every run**
* `malloc_wraps` — a block in no page
-/

namespace Pintos

open Function LittleEndian Machine

section

variable {s₀ : WordPools} {s t : KernelHeap} {live : List HeapBlock} {arenas : List Arena} {free : Nat → List Vaddr}
  {b : HeapBlock} {size : BitVec 64} {alloc : Bool} {x : Vaddr} {n : Nat}

/-! ## Requests that do not fit -/

/-- A size whose pages wrap is above all descriptors, and gets no page or one at most. -/
theorem HeapOk.malloc_large (hp : HeapPlace s₀ s.descs) (h : HeapOk s₀ s arenas free)
    (hlarge : ¬ size.toNat + 4119 < 2 ^ 64) :
    s.NoRoom size alloc ∨ ∃ a t, s.malloc size alloc = .ok (some (a + arenaBytes), t) ∧ Aligned a ∧
      WordPools.SamePlace s₀ t.toWordPools := by
  have hzero : size ≠ 0 := by
    rintro rfl
    exact hlarge (by decide)
  have hfind : s.findDesc size = none := by
    rcases h.shape.findDesc h.descCnt size with ⟨i, hi, -, hle⟩ | ⟨hfind, -⟩
    · have hle' := classSize_le hi
      omega
    · exact hfind
  unfold KernelHeap.NoRoom KernelHeap.malloc KernelHeap.mallocBig
  rw [if_neg hzero, hfind]
  dsimp only
  rcases pallocGet_spec hp.placed h.pages alloc (divRoundUp (size + arenaBytes) pageBytes).toNat with
    ⟨-, hno⟩ | ⟨a, t, hget, -, -, hpages⟩
  · exact .inl (.inr hno)
  · refine .inr ⟨a, (s.setPools t).setMem (t.mem.initArena a 0 (divRoundUp (size + arenaBytes) pageBytes)), ?_, ?_,
      (hpages none).same.withMem _⟩
    · rw [hget]
      rfl
    · obtain ⟨idx, hpage, -⟩ := (hpages none).index List.mem_cons_self
      have ha : a = (s₀.pool false).page idx := hpage
      rw [ha]
      exact WordPool.aligned_page (hp.placed.pool false) idx

/-- Behind a header there is no room for so many bytes. -/
theorem not_room {a : Vaddr} (hp : s₀.Placed) (hsame : WordPools.SamePlace s₀ t.toWordPools) (ha : Aligned a)
    (hn : ¬ n + 4119 < 2 ^ 64) : ¬ HeapRoom s₀ t (a + arenaBytes) n := by
  rintro ⟨hrange, hpages⟩
  obtain ⟨⟨i, hi, -, hround⟩, -⟩ := hpages 0 (by omega)
  have hzero : a + arenaBytes + BitVec.ofNat 64 0 = a + arenaBytes := BitVec.add_zero _
  have hplaced := (hsame.placed hp).pool false
  have hnat := congrArg BitVec.toNat hround
  rw [hzero, pgRoundDown_toNat, WordPool.page_toNat hplaced hi] at hnat
  have hbase := aligned_iff.mp hplaced.aligned
  have hpos : (t.pool false).base.toNat ≠ 0 := fun hc => hplaced.ne_zero (BitVec.eq_of_toNat_eq hc)
  have h24 : arenaBytes.toNat = 24 := rfl
  have hmod := aligned_iff.mp ha
  have hsum : (a + arenaBytes).toNat = a.toNat + 24 := by
    rw [BitVec.toNat_add, h24]
    omega
  omega

/-- What was asked for, apart from the blocks that were live. -/
structure RequestMet (s₀ : WordPools) (live : List HeapBlock) (t : KernelHeap) (x : Vaddr) (size : Nat) : Prop where
  room : HeapRoom s₀ t x size
  apart : ∀ b ∈ live, ApartFrom x size b

theorem OwnerOk.requestMet (h : OwnerOk s₀ s (b :: live) arenas free) : RequestMet s₀ live s b.addr b.size.toNat where
  room := h.room List.mem_cons_self
  apart _ hc := h.apartFrom List.mem_cons_self (List.mem_cons_of_mem _ hc) (Ne.symm (h.addr_ne hc))

/-- **`malloc` gives what was asked for** exactly if the size fits. -/
theorem OwnerOk.malloc_enough_iff (h : OwnerOk s₀ s live arenas free) :
    (∀ x t, s.malloc size alloc = .ok (some x, t) → RequestMet s₀ live t x size.toNat) ↔ s.Fits size alloc := by
  constructor
  · intro hall
    by_cases hlt : size.toNat + 4119 < 2 ^ 64
    · exact .inl hlt
    rcases h.heap.malloc_large h.place hlt with hno | ⟨a, t, hrun, ha, hsame⟩
    · exact .inr hno
    · exact absurd (hall _ t hrun).room (not_room h.place.placed hsame ha hlt)
  · intro hfits x t hrun
    rcases h.malloc hfits with hnone | ⟨y, t', arenas', free', hrun', hok, -⟩
    · rw [hnone] at hrun
      cases hrun
    · rw [hrun'] at hrun
      cases hrun
      exact hok.requestMet

/-- What `calloc` adds to `malloc`. -/
theorem calloc_eq {a c : BitVec 64} (hcheck : ¬ (a * c < a ∨ a * c < c))
    (hrun : s.malloc (a * c) alloc = .ok (some x, t)) :
    s.calloc a c alloc = .ok (some x, t.setMem (t.mem.memsetBytes x 0 (a * c).toNat)) := by
  unfold KernelHeap.calloc
  dsimp only
  rw [if_neg hcheck, hrun]
  rfl

/-- **`calloc`, with the product in the integers.** -/
theorem OwnerOk.calloc_enough_iff {a c : BitVec 64} (h : OwnerOk s₀ s live arenas free) :
    (∀ x t, s.calloc a c alloc = .ok (some x, t) → RequestMet s₀ live t x (a.toNat * c.toNat)) ↔
      a * c < a ∨ a * c < c ∨ a.toNat * c.toNat + 4119 < 2 ^ 64 ∨ s.NoRoom (a * c) alloc := by
  have hprod : (a * c).toNat = a.toNat * c.toNat % 2 ^ 64 := BitVec.toNat_mul ..
  constructor
  · intro hall
    by_cases hcheck : a * c < a ∨ a * c < c
    · exact hcheck.imp_right .inl
    refine .inr (.inr ?_)
    by_cases hlt : a.toNat * c.toNat + 4119 < 2 ^ 64
    · exact .inl hlt
    refine .inr ?_
    by_cases hlarge : (a * c).toNat + 4119 < 2 ^ 64
    · -- the product wraps
      rcases h.heap.malloc h.place hlarge alloc with ⟨-, hno⟩ | ⟨x, t, -, -, hrun, -⟩
      · exact hno
      · have hrange := (hall _ _ (calloc_eq hcheck hrun)).room.inRange
        refine .inl (BitVec.eq_of_toNat_eq ?_)
        show (a * c).toNat = 0
        omega
    · rcases h.heap.malloc_large h.place hlarge with hno | ⟨b, t, hrun, hb, hsame⟩
      · exact hno
      · have hroom := (hall _ _ (calloc_eq hcheck hrun)).room
        exact absurd hroom (not_room h.place.placed (hsame.withMem _) hb hlt)
  · rintro hfits x t hrun
    by_cases hcheck : a * c < a ∨ a * c < c
    · unfold KernelHeap.calloc at hrun
      dsimp only at hrun
      rw [if_pos hcheck] at hrun
      cases hrun
    · rw [not_or] at hcheck
      rcases (hfits.resolve_left hcheck.1).resolve_left hcheck.2 with hlt | hno
      · have heq : (a * c).toNat = a.toNat * c.toNat := by
          rw [hprod, Nat.mod_eq_of_lt (by omega)]
        have hsmall : s.Fits (a * c) alloc := by
          refine .inl ?_
          rw [heq]
          exact hlt
        rcases h.calloc hsmall with hnone | ⟨y, t', arenas', free', hrun', hok, -⟩
        · rw [hnone] at hrun
          cases hrun
        · rw [hrun'] at hrun
          cases hrun
          have henough := hok.requestMet
          dsimp only at henough
          rwa [heq] at henough
      · have hnone := h.heap.malloc_noRoom h.place hno
        unfold KernelHeap.calloc at hrun
        dsimp only at hrun
        rw [if_neg (not_or.mpr hcheck), hnone] at hrun
        cases hrun

end

/-! ## Runs -/

section

variable {s₀ : WordPools} {descs : Vaddr} {h : KernelHeap} {s : HeapOwner}

/--
**`malloc` and `calloc` give what was asked for**, in pages that were got and apart from all live blocks, exactly if the
size can be rounded to pages or there is no memory. For `calloc` the product is taken in the integers.
-/
theorem malloc_calloc_enough_iff (hp : HeapPlace s₀ descs) (hm : s₀.MapsOk)
    (hinit : KernelHeap.mallocInit s₀ descs = .ok h)
    (hr : Reach HeapOwner.step HeapOwner.Fits (HeapOwner.boot h) s) (alloc : Bool) :
    (∀ size, (∀ x t, s.toKernelHeap.malloc size alloc = .ok (some x, t) → RequestMet s₀ s.live t x size.toNat) ↔
      s.Fits (.malloc size alloc)) ∧
    ∀ a b, (∀ x t, s.toKernelHeap.calloc a b alloc = .ok (some x, t) → RequestMet s₀ s.live t x (a.toNat * b.toNat)) ↔
      s.Fits (.calloc a b alloc) := by
  obtain ⟨arenas, free, hok⟩ := ownerOk_of_reach hp hm hinit hr
  exact ⟨fun size => hok.malloc_enough_iff, fun a b => hok.calloc_enough_iff⟩

end

/-- Two pages for one call and one for another. -/
theorem malloc_calloc_enough_small : ∃ (h t u : KernelHeap),
    h.malloc 5000 true = .ok (some 0x8004103018, t) ∧ RequestMet smallWordPools [] t 0x8004103018 5000 ∧
    h.calloc 3 1000 true = .ok (some 0x8004101018, u) ∧ RequestMet smallWordPools [] u 0x8004101018 3000 := by
  have hcheck : smallHeapCheck (fun h =>
      ((h.malloc 5000 true).toOption.any fun r => decide (r.1 = some 0x8004103018)) &&
        (h.calloc 3 1000 true).toOption.any fun r => decide (r.1 = some 0x8004101018)) = true := by decide +kernel
  obtain ⟨h, hinit, hrun⟩ := exists_of_smallHeapCheck hcheck
  obtain ⟨hrunm, hrunc⟩ := Bool.and_eq_true_iff.mp hrun
  obtain ⟨⟨x, t⟩, hm, hx⟩ := exists_of_toOption hrunm
  obtain ⟨⟨y, u⟩, hc, hy⟩ := exists_of_toOption hrunc
  obtain rfl := of_decide_eq_true hx
  obtain rfl := of_decide_eq_true hy
  obtain ⟨hmalloc, hcalloc⟩ := malloc_calloc_enough_iff (s := HeapOwner.boot h) smallHeap_place smallWordPools_maps
    hinit .refl true
  have h5000 := (hmalloc 5000).mpr (.inl (by decide)) _ t hm
  have h3000 := (hcalloc 3 1000).mpr (.inr (.inr (.inl (by decide)))) _ u hc
  exact ⟨h, t, u, hm, h5000, hc, h3000⟩

/-- A size whose pages wrap to none. -/
theorem malloc_wraps : ∃ (h t : KernelHeap), KernelHeap.mallocInit smallWordPools 0x8004000000 = .ok h ∧
    h.malloc 0xffffffffffffefe9 true = .ok (some 0x8004100018, t) ∧
    ¬ RequestMet smallWordPools [] t 0x8004100018 (0xffffffffffffefe9 : BitVec 64).toNat := by
  have hcheck : smallHeapCheck (fun h =>
      (h.malloc 0xffffffffffffefe9 true).toOption.any fun r => decide (r.1 = some 0x8004100018)) = true := by
    decide +kernel
  obtain ⟨h, hinit, hrun⟩ := exists_of_smallHeapCheck hcheck
  obtain ⟨⟨x, t⟩, hm, hx⟩ := exists_of_toOption hrun
  obtain rfl := of_decide_eq_true hx
  exact ⟨h, t, hinit, hm, fun hc => absurd hc.room.inRange (by decide)⟩

end Pintos
