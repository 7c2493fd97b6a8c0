import Pintos.Kernel.WordBitmap
import Pintos.Threads.Palloc

/-!
# Groups of pages

`palloc_get_multiple` and `palloc_free_multiple` of `threads/palloc.c` on pools whose bitmaps are
arrays of words, as they are in memory. `Pintos/Threads/Palloc.lean` has the same functions on the
bits (`pallocGetMultiple_toPools`, `pallocFreeMultiple_toPools`).

`PageGroups` is the allocator over a run in which each group is given back as it was got; `live`
is history.
-/

namespace Pintos

open Function

/-- `struct pool`. -/
structure WordPool where
  base : Vaddr
  usedMap : WordBitmap

namespace WordPool

def page (p : WordPool) (idx : Nat) : Vaddr := p.base + BitVec.ofNat 64 (PGSIZE * idx)

def index (p : WordPool) (page : Vaddr) : Nat := (pgNo page - pgNo p.base).toNat

/-- `page_from_pool`. -/
def contains (p : WordPool) (page : Vaddr) : Bool :=
  pgNo p.base ≤ pgNo page && (pgNo page).toNat < (pgNo p.base).toNat + p.usedMap.bitCnt

/-- The pool with the bits of its map. -/
def toPool (p : WordPool) : Pool := { base := p.base, usedMap := p.usedMap.bits }

end WordPool

structure WordPools where
  mem : PageMem
  kernelPool : WordPool
  userPool : WordPool

namespace WordPools

def pool (s : WordPools) (user : Bool) : WordPool := if user then s.userPool else s.kernelPool

def setPool (s : WordPools) (user : Bool) (p : WordPool) : WordPools :=
  if user then { s with userPool := p } else { s with kernelPool := p }

/-- `palloc_get_multiple`. -/
def pallocGetMultiple (s : WordPools) (flags : PallocFlags) (cnt : Nat) :
    Except Panic (Option Vaddr × WordPools) :=
  let pool := s.pool flags.user
  match pool.usedMap.scanAndFlip 0 cnt false with
  | (none, _) => if flags.assert then .error .outOfPages else .ok (none, s)
  | (some idx, usedMap) =>
    let s := s.setPool flags.user { pool with usedMap := usedMap }
    let pages := pool.page idx
    .ok (some pages, if flags.zero then { s with mem := memset s.mem pages 0 cnt } else s)

/-- The pool `page_from_pool` finds a page in, the kernel's first. -/
def poolOf (s : WordPools) (page : Vaddr) : Option Bool :=
  if s.kernelPool.contains page then some false
  else if s.userPool.contains page then some true
  else none

/-- `palloc_free_multiple`. -/
def pallocFreeMultiple (s : WordPools) (pages : Vaddr) (cnt : Nat) : Except Panic WordPools :=
  if ¬ Aligned pages then .error .assertion
  else if pages = 0 ∨ cnt = 0 then .ok s
  else
    match s.poolOf pages with
    | none => .error .assertion
    | some user =>
      let pool := s.pool user
      let idx := pool.index pages
      -- `bitmap_all` and `bitmap_set_multiple` assert that the bits are there
      if idx + cnt ≤ pool.usedMap.bitCnt ∧ pool.usedMap.all idx cnt then
        .ok { s.setPool user { pool with usedMap := pool.usedMap.setMultiple idx cnt false } with
          mem := memset s.mem pages 0xcccccccccccccccc cnt }
      else .error .assertion

def toPools (s : WordPools) : Pools :=
  { mem := s.mem, kernelPool := s.kernelPool.toPool, userPool := s.userPool.toPool }

/-- The words of both maps are all there. -/
def MapsOk (s : WordPools) : Prop := ∀ user, (s.pool user).usedMap.Ok

end WordPools

/-! ## The bits -/

namespace WordPools

variable {s s' : WordPools} {user : Bool} {p : WordPool} {flags : PallocFlags} {cnt : Nat}

@[simp] theorem pool_setPool_self (s : WordPools) (user : Bool) (p : WordPool) :
    (s.setPool user p).pool user = p := by
  cases user <;> rfl

theorem pool_setPool_of_ne (s : WordPools) {user v : Bool} (p : WordPool) (h : v ≠ user) :
    (s.setPool user p).pool v = s.pool v := by
  cases user <;> cases v <;> first | rfl | exact absurd rfl h

@[simp] theorem setPool_mem (s : WordPools) (user : Bool) (p : WordPool) :
    (s.setPool user p).mem = s.mem := by
  cases user <;> rfl

theorem toPools_pool (s : WordPools) (user : Bool) :
    s.toPools.pool user = (s.pool user).toPool := by
  cases user <;> rfl

theorem toPools_setPool (s : WordPools) (user : Bool) (p : WordPool) :
    (s.setPool user p).toPools = s.toPools.setPool user p.toPool := by
  cases user <;> rfl

theorem toPool_contains (p : WordPool) (page : Vaddr) : p.toPool.contains page = p.contains page := by
  rw [Pool.contains, WordPool.contains, WordPool.toPool, WordBitmap.length_bits]

theorem toPools_poolOf (s : WordPools) (page : Vaddr) : s.toPools.poolOf page = s.poolOf page := by
  unfold Pools.poolOf poolOf
  rw [← toPool_contains, ← toPool_contains]
  rfl

/-- **`palloc_get_multiple`** does to the bits what the function on bits does. -/
theorem pallocGetMultiple_toPools (h : s.MapsOk) (flags : PallocFlags) (cnt : Nat) :
    s.toPools.pallocGetMultiple flags cnt =
      (s.pallocGetMultiple flags cnt).map fun r => (r.1, r.2.toPools) := by
  have hbits : (s.toPools.pool flags.user).usedMap = (s.pool flags.user).usedMap.bits := by
    rw [toPools_pool]
    rfl
  unfold Pools.pallocGetMultiple pallocGetMultiple
  simp only [bitmapScanAndFlip, WordBitmap.scanAndFlip, hbits, WordBitmap.scan_eq]
  cases hscan : bitmapScan (s.pool flags.user).usedMap.bits 0 cnt false with
  | none =>
    simp only
    split
    · rfl
    · rfl
  | some idx =>
    obtain ⟨-, hle, -⟩ := bitmapScan_some hscan
    rw [WordBitmap.length_bits] at hle
    have hpool : (s.setPool flags.user { s.pool flags.user with
          usedMap := (s.pool flags.user).usedMap.setMultiple idx cnt true }).toPools =
        s.toPools.setPool flags.user { s.toPools.pool flags.user with
          usedMap := bitmapSetMultiple (s.pool flags.user).usedMap.bits idx cnt true } := by
      rw [toPools_setPool, WordPool.toPool, WordBitmap.bits_setMultiple (h flags.user) hle,
        toPools_pool]
      rfl
    have hpage : (s.toPools.pool flags.user).page idx = (s.pool flags.user).page idx := by
      rw [toPools_pool]
      rfl
    simp only [Except.map, Bool.not_false, ← hpool, hpage]
    split
    · rfl
    · rfl

/-- **`palloc_free_multiple`** does to the bits what the function on bits does. -/
theorem pallocFreeMultiple_toPools (h : s.MapsOk) (pages : Vaddr) (cnt : Nat) :
    s.toPools.pallocFreeMultiple pages cnt = (s.pallocFreeMultiple pages cnt).map toPools := by
  unfold Pools.pallocFreeMultiple pallocFreeMultiple
  rw [toPools_poolOf]
  split
  · rfl
  split
  · rfl
  cases s.poolOf pages with
  | none => rfl
  | some user =>
    have hidx : (s.toPools.pool user).index pages = (s.pool user).index pages := by
      rw [toPools_pool]
      rfl
    have hbits : (s.toPools.pool user).usedMap = (s.pool user).usedMap.bits := by
      rw [toPools_pool]
      rfl
    simp only [hidx, hbits, WordBitmap.length_bits]
    by_cases hle : (s.pool user).index pages + cnt ≤ (s.pool user).usedMap.bitCnt
    · rw [← WordBitmap.all_eq hle]
      split
      · have hpool : (s.setPool user { s.pool user with
              usedMap := (s.pool user).usedMap.setMultiple ((s.pool user).index pages) cnt false }).toPools =
            s.toPools.setPool user { s.toPools.pool user with
              usedMap := bitmapSetMultiple (s.pool user).usedMap.bits ((s.pool user).index pages) cnt false } := by
          rw [toPools_setPool, WordPool.toPool, WordBitmap.bits_setMultiple (h user) hle, toPools_pool]
          rfl
        simp only [Except.map, ← hpool]
        rfl
      · rfl
    · rw [if_neg fun hc => hle hc.1, if_neg fun hc => hle hc.1]
      rfl

end WordPools

/-! ## The groups that are live -/

/-- A group of pages as its owner knows it. -/
structure PageGroup where
  user : Bool
  pages : Vaddr
  cnt : Nat
  deriving DecidableEq

/-- The pages of a group. -/
def PageGroup.Has (g : PageGroup) (q : Vaddr) : Prop :=
  ∃ k < g.cnt, q = g.pages + BitVec.ofNat 64 (PGSIZE * k)

structure PageGroups extends WordPools where
  live : List PageGroup

inductive PallocAction where
  | getMultiple (flags : PallocFlags) (cnt : Nat)
  | freeMultiple (g : PageGroup)

namespace PageGroups

def setPools (s : PageGroups) (p : WordPools) : PageGroups := { s with toWordPools := p }

/-- A call of `palloc.c`. A group is given back once, with the number of pages it was got with. -/
def step (s : PageGroups) : PallocAction → Except Panic PageGroups
  | .getMultiple flags cnt =>
    match s.pallocGetMultiple flags cnt with
    | .error e => .error e
    | .ok (none, p) => .ok (s.setPools p)
    | .ok (some pages, p) =>
      .ok { s.setPools p with live := { user := flags.user, pages := pages, cnt := cnt } :: s.live }
  | .freeMultiple g =>
    if g ∉ s.live then .error .disabled
    else
      match s.pallocFreeMultiple g.pages g.cnt with
      | .error e => .error e
      | .ok p => .ok { s.setPools p with live := s.live.erase g }

end PageGroups

end Pintos
