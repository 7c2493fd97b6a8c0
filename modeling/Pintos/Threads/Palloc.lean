import Pintos.Kernel.Bitmap
import Pintos.Threads.Vaddr

/-!
# `threads/palloc.c`

The page allocator: two pools of pages, each with the bitmap of the pages in use. Memory is read
and written in 64-bit words, a page at a time: `mem kva i` is the word `i` of the page at `kva`.

* `Pools.Ok` — the pools lie apart in kernel memory
* `getPage_spec`, `freePage_spec` — what `palloc_get_page` and `palloc_free_page` do
-/

namespace Pintos

open Function

/-- A page of 512 words. -/
abbrev PageMem := Vaddr → Idx → BitVec 64

/-- `struct pool`. -/
structure Pool where
  base : Vaddr
  usedMap : Bitmap
  deriving DecidableEq

namespace Pool

/-- `pool->base + PGSIZE * page_idx`. -/
def page (p : Pool) (idx : Nat) : Vaddr := p.base + BitVec.ofNat 64 (PGSIZE * idx)

/-- The index of a page: `pg_no (pages) - pg_no (pool->base)`. -/
def index (p : Pool) (page : Vaddr) : Nat := (pgNo page - pgNo p.base).toNat

/-- `page_from_pool`. -/
def contains (p : Pool) (page : Vaddr) : Bool :=
  pgNo p.base ≤ pgNo page && (pgNo page).toNat < (pgNo p.base).toNat + p.usedMap.length

/-- The page belongs to the pool and is in use. -/
def Used (p : Pool) (page : Vaddr) : Prop :=
  ∃ i, p.usedMap[i]? = some true ∧ page = p.page i

/-- The page belongs to the pool and is free. -/
def Free (p : Pool) (page : Vaddr) : Prop :=
  ∃ i, p.usedMap[i]? = some false ∧ page = p.page i

end Pool

/-- `enum palloc_flags`. -/
structure PallocFlags where
  assert : Bool := false
  zero : Bool := false
  user : Bool := false

/-- Why the kernel stops. -/
inductive Panic where
  /-- The step is not possible. -/
  | disabled
  /-- `PANIC ("palloc_get: out of pages")`. -/
  | outOfPages
  /-- A failed `ASSERT`, or `NOT_REACHED`. -/
  | assertion
  deriving DecidableEq, Repr

/-- The memory and the two pools. -/
structure Pools where
  mem : PageMem
  kernelPool : Pool
  userPool : Pool

/-- `memset` of whole pages, word by word. -/
def memset (mem : PageMem) (page : Vaddr) (word : BitVec 64) (cnt : Nat) : PageMem :=
  (List.range cnt).foldl
    (fun mem j => update mem (page + BitVec.ofNat 64 (PGSIZE * j)) fun _ => word) mem

namespace Pools

def pool (s : Pools) (user : Bool) : Pool := if user then s.userPool else s.kernelPool

def setPool (s : Pools) (user : Bool) (p : Pool) : Pools :=
  if user then { s with userPool := p } else { s with kernelPool := p }

/-- `palloc_get_multiple`. A null pointer is `none`. -/
def pallocGetMultiple (s : Pools) (flags : PallocFlags) (cnt : Nat) :
    Except Panic (Option Vaddr × Pools) :=
  let pool := s.pool flags.user
  match bitmapScanAndFlip pool.usedMap 0 cnt false with
  | (none, _) => if flags.assert then .error .outOfPages else .ok (none, s)
  | (some idx, usedMap) =>
    let s := s.setPool flags.user { pool with usedMap := usedMap }
    let pages := pool.page idx
    .ok (some pages, if flags.zero then { s with mem := memset s.mem pages 0 cnt } else s)

def pallocGetPage (s : Pools) (flags : PallocFlags) : Except Panic (Option Vaddr × Pools) :=
  s.pallocGetMultiple flags 1

/-- The pool `page_from_pool` finds a page in, the kernel's first. -/
def poolOf (s : Pools) (page : Vaddr) : Option Bool :=
  if s.kernelPool.contains page then some false
  else if s.userPool.contains page then some true
  else none

/-- `palloc_free_multiple`. `0xcc` fills the pages. -/
def pallocFreeMultiple (s : Pools) (pages : Vaddr) (cnt : Nat) : Except Panic Pools :=
  if ¬ Aligned pages then .error .assertion
  else if pages = 0 ∨ cnt = 0 then .ok s
  else
    match s.poolOf pages with
    | none => .error .assertion
    | some user =>
      let pool := s.pool user
      let idx := pool.index pages
      if idx + cnt ≤ pool.usedMap.length ∧ bitmapAll pool.usedMap idx cnt then
        .ok { s.setPool user { pool with usedMap := bitmapSetMultiple pool.usedMap idx cnt false } with
          mem := memset s.mem pages 0xcccccccccccccccc cnt }
      else .error .assertion

def pallocFreePage (s : Pools) (page : Vaddr) : Except Panic Pools := s.pallocFreeMultiple page 1

end Pools

/-! ## The pages of a pool -/

namespace Pool

/-- The pool lies in kernel memory, page by page. -/
structure Ok (p : Pool) : Prop where
  aligned : Aligned p.base
  kernel : KERN_BASE.toNat ≤ p.base.toNat
  inRange : p.base.toNat + 4096 * p.usedMap.length ≤ 2 ^ 64

variable {p p' : Pool} {i j : Nat} {q r : Vaddr}

theorem page_toNat (h : p.Ok) (hi : i < p.usedMap.length) :
    (p.page i).toNat = p.base.toNat + 4096 * i := by
  have hrange := h.inRange
  rw [page, PGSIZE, BitVec.toNat_add, BitVec.toNat_ofNat]
  omega

theorem page_inj (h : p.Ok) (hi : i < p.usedMap.length) (hj : j < p.usedMap.length)
    (hij : p.page i = p.page j) : i = j := by
  have hn := congrArg BitVec.toNat hij
  rw [page_toNat h hi, page_toNat h hj] at hn
  omega

theorem aligned_page (h : p.Ok) (hi : i < p.usedMap.length) : Aligned (p.page i) := by
  have hmod := aligned_iff.mp h.aligned
  rw [aligned_iff, page_toNat h hi]
  omega

theorem pgNo_page_toNat (h : p.Ok) (hi : i < p.usedMap.length) :
    (pgNo (p.page i)).toNat = (pgNo p.base).toNat + i := by
  have hmod := aligned_iff.mp h.aligned
  rw [pgNo_toNat, pgNo_toNat, page_toNat h hi]
  omega

theorem index_page (h : p.Ok) (hi : i < p.usedMap.length) : p.index (p.page i) = i := by
  have hn := pgNo_page_toNat h hi
  have hlt := (pgNo (p.page i)).isLt
  rw [index, BitVec.toNat_sub, hn]
  omega

theorem contains_page (h : p.Ok) (hi : i < p.usedMap.length) : p.contains (p.page i) = true := by
  have hn := pgNo_page_toNat h hi
  simp only [contains, Bool.and_eq_true, decide_eq_true_eq, BitVec.le_def]
  omega

/-- An aligned address that `page_from_pool` accepts is one of the pool's pages. -/
theorem page_index (h : p.Ok) (hq : Aligned q) (hc : p.contains q = true) :
    p.index q < p.usedMap.length ∧ p.page (p.index q) = q := by
  have hqm := aligned_iff.mp hq
  have hbm := aligned_iff.mp h.aligned
  have hrange := h.inRange
  have hqn := pgNo_toNat q
  have hbn := pgNo_toNat p.base
  simp only [contains, Bool.and_eq_true, decide_eq_true_eq, BitVec.le_def] at hc
  have hi : p.index q = (pgNo q).toNat - (pgNo p.base).toNat := by
    have hlt := (pgNo q).isLt
    rw [index, BitVec.toNat_sub]
    omega
  have hlt : p.index q < p.usedMap.length := by omega
  refine ⟨hlt, BitVec.eq_of_toNat_eq ?_⟩
  rw [page_toNat h hlt, hi]
  omega

theorem lt_of_bit {v : Bool} (h : p.usedMap[i]? = some v) : i < p.usedMap.length :=
  (List.getElem?_eq_some_iff.mp h).1

theorem used_page (h : p.Ok) (hi : i < p.usedMap.length) :
    p.Used (p.page i) ↔ p.usedMap[i]? = some true := by
  constructor
  · rintro ⟨j, hj, hij⟩
    rwa [page_inj h hi (lt_of_bit hj) hij]
  · exact fun hb => ⟨i, hb, rfl⟩

theorem Used.not_free (h : p.Ok) (hu : p.Used q) : ¬ p.Free q := by
  rintro ⟨j, hj, rfl⟩
  rw [used_page h (lt_of_bit hj), hj] at hu
  cases hu

theorem Used.aligned (h : p.Ok) (hu : p.Used q) : Aligned q := by
  obtain ⟨i, hi, rfl⟩ := hu
  exact aligned_page h (lt_of_bit hi)

theorem Free.aligned (h : p.Ok) (hf : p.Free q) : Aligned q := by
  obtain ⟨i, hi, rfl⟩ := hf
  exact aligned_page h (lt_of_bit hi)

theorem Free.kernel (h : p.Ok) (hf : p.Free q) : isKernelVaddr q = true := by
  obtain ⟨i, hi, rfl⟩ := hf
  have hn := page_toNat h (lt_of_bit hi)
  have hk := h.kernel
  simp only [isKernelVaddr, decide_eq_true_eq, BitVec.le_def]
  omega

theorem Used.ne_zero (h : p.Ok) (hu : p.Used q) : q ≠ 0 := by
  obtain ⟨i, hi, rfl⟩ := hu
  intro hc
  have hn := page_toNat h (lt_of_bit hi)
  have hk := h.kernel
  have hb : KERN_BASE.toNat = 0x8004000000 := rfl
  have hz : (0 : Vaddr).toNat = 0 := rfl
  rw [hc, hz] at hn
  omega

theorem ne_zero_of_contains (h : p.Ok) (hc : p.contains q = true) : q ≠ 0 := by
  rintro rfl
  have hk := h.kernel
  have hb := pgNo_toNat p.base
  have hz : (pgNo (0 : Vaddr)).toNat = 0 := rfl
  have hkb : KERN_BASE.toNat = 0x8004000000 := rfl
  simp only [contains, Bool.and_eq_true, decide_eq_true_eq, BitVec.le_def] at hc
  omega

theorem bit_setBit (hi : i < p.usedMap.length) (v : Bool) (j : Nat) :
    (bitmapSetMultiple p.usedMap i 1 v)[j]? = if j = i then some v else p.usedMap[j]? := by
  rw [getElem?_bitmapSetMultiple]
  by_cases hj : j = i
  · subst hj
    rw [if_pos ⟨le_refl j, by omega, hi⟩, if_pos rfl]
  · rw [if_neg (by omega), if_neg hj]

theorem used_setTrue (hi : i < p.usedMap.length) :
    Used { p with usedMap := bitmapSetMultiple p.usedMap i 1 true } q ↔
      p.Used q ∨ q = p.page i := by
  constructor
  · rintro ⟨j, hj, rfl⟩
    rw [bit_setBit hi] at hj
    split at hj
    · next hji =>
      subst hji
      exact Or.inr rfl
    · exact Or.inl ⟨j, hj, rfl⟩
  · rintro (⟨j, hj, rfl⟩ | rfl)
    · refine ⟨j, ?_, rfl⟩
      rw [bit_setBit hi]
      split
      · rfl
      · exact hj
    · exact ⟨i, by rw [bit_setBit hi, if_pos rfl], rfl⟩

theorem free_setTrue (h : p.Ok) (hi : i < p.usedMap.length) :
    Free { p with usedMap := bitmapSetMultiple p.usedMap i 1 true } q ↔
      p.Free q ∧ q ≠ p.page i := by
  constructor
  · rintro ⟨j, hj, rfl⟩
    rw [bit_setBit hi] at hj
    split at hj
    · cases hj
    · next hji => exact ⟨⟨j, hj, rfl⟩, fun hc => hji (page_inj h (lt_of_bit hj) hi hc)⟩
  · rintro ⟨⟨j, hj, rfl⟩, hne⟩
    refine ⟨j, ?_, rfl⟩
    have hji : j ≠ i := by
      rintro rfl
      exact hne rfl
    rw [bit_setBit hi, if_neg hji]
    exact hj

theorem used_setFalse (h : p.Ok) (hi : i < p.usedMap.length) :
    Used { p with usedMap := bitmapSetMultiple p.usedMap i 1 false } q ↔
      p.Used q ∧ q ≠ p.page i := by
  constructor
  · rintro ⟨j, hj, rfl⟩
    rw [bit_setBit hi] at hj
    split at hj
    · cases hj
    · next hji => exact ⟨⟨j, hj, rfl⟩, fun hc => hji (page_inj h (lt_of_bit hj) hi hc)⟩
  · rintro ⟨⟨j, hj, rfl⟩, hne⟩
    refine ⟨j, ?_, rfl⟩
    have hji : j ≠ i := by
      rintro rfl
      exact hne rfl
    rw [bit_setBit hi, if_neg hji]
    exact hj

theorem free_setFalse (hi : i < p.usedMap.length) :
    Free { p with usedMap := bitmapSetMultiple p.usedMap i 1 false } q ↔
      p.Free q ∨ q = p.page i := by
  constructor
  · rintro ⟨j, hj, rfl⟩
    rw [bit_setBit hi] at hj
    split at hj
    · next hji =>
      subst hji
      exact Or.inr rfl
    · exact Or.inl ⟨j, hj, rfl⟩
  · rintro (⟨j, hj, rfl⟩ | rfl)
    · refine ⟨j, ?_, rfl⟩
      rw [bit_setBit hi]
      split
      · rfl
      · exact hj
    · exact ⟨i, by rw [bit_setBit hi, if_pos rfl], rfl⟩

end Pool

namespace Pools

/-- Two pools in kernel memory that do not overlap. -/
structure Ok (s : Pools) : Prop where
  pool : ∀ user, (s.pool user).Ok
  apart : s.kernelPool.base.toNat + 4096 * s.kernelPool.usedMap.length ≤ s.userPool.base.toNat ∨
    s.userPool.base.toNat + 4096 * s.userPool.usedMap.length ≤ s.kernelPool.base.toNat

def Used (s : Pools) (user : Bool) (q : Vaddr) : Prop := (s.pool user).Used q

def Free (s : Pools) (user : Bool) (q : Vaddr) : Prop := (s.pool user).Free q

variable {s s' : Pools} {user : Bool} {q r : Vaddr} {flags : PallocFlags}

theorem Ok.congr (h : s.Ok) (hb : ∀ user, (s'.pool user).base = (s.pool user).base)
    (hl : ∀ user, (s'.pool user).usedMap.length = (s.pool user).usedMap.length) : s'.Ok where
  pool user := by
    obtain ⟨ha, hk, hr⟩ := h.pool user
    exact ⟨by rw [hb]; exact ha, by rw [hb]; exact hk, by rw [hb, hl]; exact hr⟩
  apart := by
    have hbk : s'.kernelPool.base = s.kernelPool.base := hb false
    have hbu : s'.userPool.base = s.userPool.base := hb true
    have hlk : s'.kernelPool.usedMap.length = s.kernelPool.usedMap.length := hl false
    have hlu : s'.userPool.usedMap.length = s.userPool.usedMap.length := hl true
    rw [hbk, hbu, hlk, hlu]
    exact h.apart

/-- A page of one pool is not a page of the other. -/
theorem Ok.page_ne (h : s.Ok) {i j : Nat} (hi : i < s.kernelPool.usedMap.length)
    (hj : j < s.userPool.usedMap.length) : s.kernelPool.page i ≠ s.userPool.page j := by
  intro hc
  have hk : s.kernelPool.Ok := h.pool false
  have hu : s.userPool.Ok := h.pool true
  have hn := congrArg BitVec.toNat hc
  rw [Pool.page_toNat hk hi, Pool.page_toNat hu hj] at hn
  have hapart := h.apart
  omega

theorem Ok.not_contains (h : s.Ok) {j : Nat} (hj : j < s.userPool.usedMap.length) :
    s.kernelPool.contains (s.userPool.page j) = false := by
  have hkernel : s.kernelPool.Ok := h.pool false
  have huser : s.userPool.Ok := h.pool true
  have hn := Pool.pgNo_page_toNat huser hj
  have hk := aligned_iff.mp hkernel.aligned
  have hu := aligned_iff.mp huser.aligned
  have hapart := h.apart
  have hbk := pgNo_toNat s.kernelPool.base
  have hbu := pgNo_toNat s.userPool.base
  simp only [Pool.contains, Bool.and_eq_false_iff, decide_eq_false_iff_not, BitVec.le_def]
  omega

@[simp] theorem pool_setPool_self (s : Pools) (user : Bool) (p : Pool) :
    (s.setPool user p).pool user = p := by
  cases user <;> rfl

theorem pool_setPool_of_ne (s : Pools) {user v : Bool} (p : Pool) (h : v ≠ user) :
    (s.setPool user p).pool v = s.pool v := by
  cases user <;> cases v <;> first | rfl | exact absurd rfl h

@[simp] theorem setPool_mem (s : Pools) (user : Bool) (p : Pool) :
    (s.setPool user p).mem = s.mem := by
  cases user <;> rfl

theorem memset_one (mem : PageMem) (page : Vaddr) (word : BitVec 64) :
    memset mem page word 1 = update mem page fun _ => word := by
  simp [memset, PGSIZE]

/-- A new bitmap for one pool. -/
theorem Ok.setPool (h : s.Ok) {p : Pool} (hb : p.base = (s.pool user).base)
    (hl : p.usedMap.length = (s.pool user).usedMap.length) (mem : PageMem) :
    Ok { s.setPool user p with mem := mem } := by
  refine h.congr ?_ ?_
  · intro v
    by_cases hv : v = user
    · subst hv
      show ((s.setPool v p).pool v).base = _
      rw [pool_setPool_self, hb]
    · show ((s.setPool user p).pool v).base = _
      rw [pool_setPool_of_ne s p hv]
  · intro v
    by_cases hv : v = user
    · subst hv
      show ((s.setPool v p).pool v).usedMap.length = _
      rw [pool_setPool_self, hl]
    · show ((s.setPool user p).pool v).usedMap.length = _
      rw [pool_setPool_of_ne s p hv]

theorem contains_setPool {p : Pool} (hb : p.base = (s.pool user).base)
    (hl : p.usedMap.length = (s.pool user).usedMap.length) (v : Bool) (r : Vaddr) :
    ((s.setPool user p).pool v).contains r = (s.pool v).contains r := by
  by_cases hv : v = user
  · subst hv
    rw [pool_setPool_self, Pool.contains, Pool.contains, hb, hl]
  · rw [pool_setPool_of_ne s p hv]

/-- A page in use of the kernel pool is no page of the user pool. -/
theorem Ok.used_ne (h : s.Ok) (hq : s.Used false q) (hr : s.userPool.contains r = true) :
    q ≠ r := by
  rintro rfl
  have halign := Pool.Used.aligned (h.pool false) hq
  obtain ⟨i, hi, rfl⟩ := hq
  obtain ⟨hlt, hpage⟩ := Pool.page_index (h.pool true) halign hr
  exact h.page_ne (Pool.lt_of_bit hi) hlt hpage.symm

/-- `palloc_get_page` took the page `q`. -/
structure Got (s s' : Pools) (flags : PallocFlags) (q : Vaddr) : Prop where
  ok : s'.Ok
  free : s.Free flags.user q
  mem : s'.mem = if flags.zero then update s.mem q fun _ => 0 else s.mem
  used : ∀ r, s'.Used flags.user r ↔ s.Used flags.user r ∨ r = q
  freed : ∀ r, s'.Free flags.user r ↔ s.Free flags.user r ∧ r ≠ q
  other : ∀ user, user ≠ flags.user → s'.pool user = s.pool user
  contains : ∀ user r, (s'.pool user).contains r = (s.pool user).contains r

/-- `palloc_free_page` gave the page `q` of the pool `user` back. -/
structure GaveBack (s s' : Pools) (user : Bool) (q : Vaddr) : Prop where
  ok : s'.Ok
  was : s.Used user q
  mem : s'.mem = update s.mem q fun _ => 0xcccccccccccccccc
  used : ∀ r, s'.Used user r ↔ s.Used user r ∧ r ≠ q
  freed : ∀ r, s'.Free user r ↔ s.Free user r ∨ r = q
  other : ∀ v, v ≠ user → s'.pool v = s.pool v
  contains : ∀ v r, (s'.pool v).contains r = (s.pool v).contains r

theorem getPage_spec (h : s.Ok) {o : Option Vaddr} (hg : s.pallocGetPage flags = .ok (o, s')) :
    (o = none ∧ s' = s) ∨ ∃ q, o = some q ∧ Got s s' flags q := by
  unfold pallocGetPage pallocGetMultiple at hg
  simp only [bitmapScanAndFlip] at hg
  cases hscan : bitmapScan (s.pool flags.user).usedMap 0 1 false with
  | none =>
    rw [hscan] at hg
    simp only at hg
    split at hg
    · cases hg
    · cases hg
      exact Or.inl ⟨rfl, rfl⟩
  | some idx =>
    rw [hscan] at hg
    cases hg
    obtain ⟨-, hlen, hbits⟩ := bitmapScan_some hscan
    have hi : idx < (s.pool flags.user).usedMap.length := by omega
    have hfree : (s.pool flags.user).usedMap[idx]? = some false :=
      hbits idx (le_refl idx) (by omega)
    have hpool := h.pool flags.user
    -- the pool after the step, whether or not the page is zeroed
    have hst : (if flags.zero then
        { s.setPool flags.user { s.pool flags.user with
            usedMap := bitmapSetMultiple (s.pool flags.user).usedMap idx 1 (!false) } with
          mem := memset (s.setPool flags.user { s.pool flags.user with
            usedMap := bitmapSetMultiple (s.pool flags.user).usedMap idx 1 (!false) }).mem
            ((s.pool flags.user).page idx) 0 1 }
        else s.setPool flags.user { s.pool flags.user with
            usedMap := bitmapSetMultiple (s.pool flags.user).usedMap idx 1 (!false) }) =
        { s.setPool flags.user { s.pool flags.user with
            usedMap := bitmapSetMultiple (s.pool flags.user).usedMap idx 1 true } with
          mem := if flags.zero then update s.mem ((s.pool flags.user).page idx) fun _ => 0
            else s.mem } := by
      split
      · rw [memset_one, setPool_mem]
        rfl
      · rw [← setPool_mem s flags.user]
        rfl
    refine Or.inr ⟨_, rfl, ?_⟩
    rw [hst]
    refine ⟨?_, ⟨idx, hfree, rfl⟩, rfl, ?_, ?_, ?_, ?_⟩
    · refine h.setPool ?_ ?_ _
      · rfl
      · exact length_bitmapSetMultiple _ _ _ _
    · intro r
      show ((s.setPool flags.user _).pool flags.user).Used r ↔ _
      rw [pool_setPool_self]
      exact Pool.used_setTrue hi
    · intro r
      show ((s.setPool flags.user _).pool flags.user).Free r ↔ _
      rw [pool_setPool_self]
      exact Pool.free_setTrue hpool hi
    · intro user hu
      exact pool_setPool_of_ne s _ hu
    · intro user r
      exact contains_setPool (by rfl) (length_bitmapSetMultiple _ _ _ _) user r

/-- Giving back a page of one pool. -/
theorem gaveBack_setPool (h : s.Ok) {i : Nat} (hbit : (s.pool user).usedMap[i]? = some true)
    (mem : PageMem) (hmem : mem = update s.mem ((s.pool user).page i) fun _ => 0xcccccccccccccccc) :
    GaveBack s
      { s.setPool user { s.pool user with
          usedMap := bitmapSetMultiple (s.pool user).usedMap i 1 false } with mem := mem }
      user ((s.pool user).page i) where
  ok := by
    refine h.setPool ?_ ?_ _
    · rfl
    · exact length_bitmapSetMultiple _ _ _ _
  was := ⟨i, hbit, rfl⟩
  mem := hmem
  used r := by
    show ((s.setPool user _).pool user).Used r ↔ _
    rw [pool_setPool_self]
    exact Pool.used_setFalse (h.pool user) (Pool.lt_of_bit hbit)
  freed r := by
    show ((s.setPool user _).pool user).Free r ↔ _
    rw [pool_setPool_self]
    exact Pool.free_setFalse (Pool.lt_of_bit hbit)
  other v hv := pool_setPool_of_ne s _ hv
  contains v r := contains_setPool (by rfl) (length_bitmapSetMultiple _ _ _ _) v r

/-- A page of a pool is found in that pool. -/
theorem poolOf_of_used (h : s.Ok) (hu : s.Used user q) : s.poolOf q = some user := by
  obtain ⟨i, hi, rfl⟩ := hu
  have hlt := Pool.lt_of_bit hi
  have hc := Pool.contains_page (h.pool user) hlt
  unfold poolOf
  cases user with
  | false =>
    have hc' : s.kernelPool.contains ((s.pool false).page i) = true := hc
    rw [if_pos hc']
  | true =>
    have hn : s.kernelPool.contains ((s.pool true).page i) = false := h.not_contains hlt
    have hc' : s.userPool.contains ((s.pool true).page i) = true := hc
    rw [if_neg (by simp [hn]), if_pos hc']

theorem contains_of_poolOf (h : s.poolOf q = some user) : (s.pool user).contains q = true := by
  unfold poolOf at h
  split at h
  · next hc =>
    cases h
    exact hc
  · split at h
    · next hc =>
      cases h
      exact hc
    · cases h

theorem bitmapAll_one {b : Bitmap} {i : Nat} (hi : i < b.length) :
    bitmapAll b i 1 = true ↔ b[i]? = some true := by
  rw [bitmapAll, Bool.not_eq_true', bitmapContains_eq_false]
  constructor
  · intro h
    have hne := h i (le_refl i) (by omega)
    rw [List.getElem?_eq_getElem hi] at hne ⊢
    cases hb : b[i] with
    | true => rfl
    | false => exact absurd (by rw [hb]) hne
  · intro h j hj hlt
    have hji : j = i := by omega
    rw [hji, h]
    simp

/-- A page in use can be given back. -/
theorem freePage_of_used (h : s.Ok) (hu : s.Used user q) :
    ∃ s', s.pallocFreePage q = .ok s' ∧ GaveBack s s' user q := by
  have hpool := h.pool user
  have halign := Pool.Used.aligned hpool hu
  have hne := Pool.Used.ne_zero hpool hu
  have hof := poolOf_of_used h hu
  obtain ⟨i, hi, rfl⟩ := hu
  have hlt := Pool.lt_of_bit hi
  have hidx := Pool.index_page hpool hlt
  refine ⟨_, ?_, gaveBack_setPool h hi _ rfl⟩
  unfold pallocFreePage pallocFreeMultiple
  rw [if_neg (not_not.mpr halign), if_neg (not_or.mpr ⟨hne, by decide⟩), hof]
  simp only [hidx]
  rw [if_pos ⟨by omega, (bitmapAll_one hlt).mpr hi⟩, memset_one]

/-- `palloc_free_page` either stops the kernel or gives back a page in use. -/
theorem freePage_spec (h : s.Ok) (hq : q ≠ 0) (hf : s.pallocFreePage q = .ok s') :
    ∃ user, GaveBack s s' user q := by
  unfold pallocFreePage pallocFreeMultiple at hf
  split at hf
  · cases hf
  next halign =>
  rw [not_not] at halign
  rw [if_neg (not_or.mpr ⟨hq, by decide⟩)] at hf
  split at hf
  · cases hf
  · next user hof =>
    obtain ⟨hlt, hpage⟩ := Pool.page_index (h.pool user) halign (contains_of_poolOf hof)
    simp only at hf
    split at hf
    · next hall =>
      cases hf
      have hbit := (bitmapAll_one hlt).mp hall.2
      refine ⟨user, ?_⟩
      have hg := gaveBack_setPool h hbit (memset s.mem q 0xcccccccccccccccc 1)
        (by rw [memset_one, hpage])
      rw [hpage] at hg
      exact hg
    · cases hf

end Pools

end Pintos
