import Pintos.Kernel.WordBitmap
import Pintos.Threads.Vaddr

/-!
# Memory discovery

`resolve_area_info`, `populate_pools` and `init_pool` of `threads/palloc.c`: how the two pools are
made from the e820 table that the loader leaves in memory.

Addresses and sizes are numbers. Those of physical memory have at most 52 bits, so that no sum wraps;
where the source goes through a negative number, the difference is taken modulo `2 ^ 64`.
-/

namespace Pintos

/-- `struct e820_entry`. -/
structure E820Entry where
  memLo : BitVec 32
  memHi : BitVec 32
  lenLo : BitVec 32
  lenHi : BitVec 32
  type : BitVec 32
  deriving DecidableEq

def BASE_MEM_THRESHOLD : Nat := 0x100000
def USABLE : BitVec 32 := 1
def ACPI_RECLAIMABLE : BitVec 32 := 3

/-- `APPEND_HILO`. -/
def appendHilo (hi lo : BitVec 32) : Nat := 2 ^ 32 * hi.toNat + lo.toNat

namespace E820Entry

/-- The `type` that the loops go on with. -/
def usable (e : E820Entry) : Bool := e.type = ACPI_RECLAIMABLE || e.type = USABLE

/-- The physical address. -/
def mem (e : E820Entry) : Nat := appendHilo e.memHi e.memLo

def size (e : E820Entry) : Nat := appendHilo e.lenHi e.lenLo

/-- `ptov` of the physical address. -/
def start (e : E820Entry) : Nat := KERN_BASE.toNat + e.mem

/-- `end`. -/
def stop (e : E820Entry) : Nat := e.start + e.size

/-- `size_in_pg`. -/
def sizeInPg (e : E820Entry) : Nat := e.size / PGSIZE

end E820Entry

/-- `struct area`. -/
structure Area where
  start : Nat := 0
  stop : Nat := 0
  size : Nat := 0
  deriving DecidableEq

/-- What `resolve_area_info` does with an entry of its area. -/
def Area.extend (area : Area) (e : E820Entry) : Area :=
  if area.size = 0 then { start := e.mem, stop := e.mem + e.size, size := e.size }
  else
    { start := if area.start > e.mem then e.mem else area.start
      stop := if area.stop < e.mem + e.size then e.mem + e.size else area.stop
      size := area.size + e.size }

/-- The loop of `resolve_area_info`, on `base_mem` and `ext_mem`. -/
def resolveAreaInfo : Area × Area → List E820Entry → Area × Area
  | areas, [] => areas
  | (baseMem, extMem), e :: l =>
    if e.usable then
      if e.mem < BASE_MEM_THRESHOLD then resolveAreaInfo (baseMem.extend e, extMem) l
      else resolveAreaInfo (baseMem, extMem.extend e) l
    else resolveAreaInfo (baseMem, extMem) l

inductive PopulateFault where
  /-- `ASSERT (rem == size)`. -/
  | assertRem
  /-- `NOT_REACHED ()`. -/
  | notReached
  /-- `ASSERT (start + cnt <= b->bit_cnt)` in `bitmap_set_multiple`. -/
  | assertBitmap
  /-- The `used_map` of a pool that was not made is read. -/
  | nullMap
  deriving DecidableEq

/-- `struct pool`, where `base` is an address. -/
structure BootPool where
  base : Nat
  usedMap : Bitmap
  deriving DecidableEq

def pgRoundUp (a : Nat) : Nat := (a + PGSIZE - 1) / PGSIZE * PGSIZE

/-- `bitmap_buf_size`; a `struct bitmap` has 16 bytes. -/
def bitmapBufSize (bitCnt : Nat) : Nat := 16 + byteCnt bitCnt

/-- `bm_pages` in `init_pool`, a number of bytes. -/
def bmPages (pgcnt : Nat) : Nat := (bitmapBufSize pgcnt + PGSIZE - 1) / PGSIZE * PGSIZE

namespace BootPool

/-- `page_from_pool`. -/
def contains (p : BootPool) (page : Nat) : Bool :=
  p.base / PGSIZE ≤ page / PGSIZE && page / PGSIZE < p.base / PGSIZE + p.usedMap.length

/-- `pool_end`. -/
def stop (p : BootPool) : Nat := p.base + p.usedMap.length * PGSIZE

/-- `bitmap_set_multiple (pool->used_map, page_idx, page_cnt, false)` from the page `start` on. -/
def clear (p : BootPool) (start cnt : Nat) : Except PopulateFault BootPool :=
  let idx := start / PGSIZE - p.base / PGSIZE
  if idx + cnt ≤ p.usedMap.length then
    .ok { p with usedMap := bitmapSetMultiple p.usedMap idx cnt false }
  else .error .assertBitmap

end BootPool

/-- `init_pool`: the pool, and `free_start` behind its bitmap. -/
def initPool (freeStart start stop : Nat) : BootPool × Nat :=
  let pgcnt := (stop - start) / PGSIZE
  ({ base := start, usedMap := List.replicate pgcnt true }, freeStart + bmPages pgcnt)

/-! ## The first loop -/

inductive PopulateState where
  | kernStart
  | kern
  | userStart
  | user
  deriving DecidableEq

/-- The variables of the loop, and `kernel_pool` once it was made. -/
structure Populating where
  state : PopulateState
  rem : Nat
  regionStart : Nat
  stop : Nat
  freeStart : Nat
  kernelPool : Option BootPool

namespace Populating

/-- The branch `KERN`. -/
def kern (c : Populating) (userPages : Nat) (e : E820Entry) : Populating :=
  if c.rem > e.sizeInPg then { c with rem := c.rem - e.sizeInPg }
  else
    let pool := initPool c.freeStart c.regionStart (e.start + c.rem * PGSIZE)
    let c := { c with kernelPool := some pool.1, freeStart := pool.2 }
    if c.rem = e.sizeInPg then { c with rem := userPages, state := .userStart }
    else
      { c with
        regionStart := e.start + c.rem * PGSIZE
        rem := (userPages + 2 ^ 64 - e.sizeInPg + c.rem) % 2 ^ 64
        state := .user }

/-- One usable entry. -/
def step (c : Populating) (userPages : Nat) (e : E820Entry) : Except PopulateFault Populating :=
  let c := { c with stop := e.stop }
  match c.state with
  | .kernStart => .ok ({ c with regionStart := e.start, state := .kern }.kern userPages e)
  | .kern => .ok (c.kern userPages e)
  | .userStart => .ok { c with regionStart := e.start, state := .user }
  | .user =>
    if c.rem > e.sizeInPg then .ok { c with rem := c.rem - e.sizeInPg }
    else if c.rem = e.size then .ok c
    else .error .assertRem

def run (userPages : Nat) : Populating → List E820Entry → Except PopulateFault Populating
  | c, [] => .ok c
  | c, e :: l =>
    if e.usable then
      match c.step userPages e with
      | .error fault => .error fault
      | .ok c => run userPages c l
    else run userPages c l

end Populating

/-! ## The second loop -/

/-- `kernel_pool`, `user_pool` and `usable_bound`. -/
structure BootPools where
  kernelPool : Option BootPool
  userPool : BootPool
  usableBound : Nat

namespace BootPools

/-- From the label `split` on, for the pages from `start` to `stop`. A pool is left at most once, so
three passes are enough. -/
def split : Nat → BootPools → Nat → Nat → Except PopulateFault BootPools
  | 0, _, _, _ => .error .notReached
  | fuel + 1, s, start, stop =>
    match s.kernelPool with
    | none => .error .nullMap
    | some kernelPool =>
      if kernelPool.contains start then
        if kernelPool.stop < stop then
          match kernelPool.clear start ((kernelPool.stop - start) / PGSIZE) with
          | .error fault => .error fault
          | .ok p => split fuel { s with kernelPool := some p } kernelPool.stop stop
        else
          match kernelPool.clear start ((stop - start) / PGSIZE) with
          | .error fault => .error fault
          | .ok p => .ok { s with kernelPool := some p }
      else if s.userPool.contains start then
        if s.userPool.stop < stop then
          match s.userPool.clear start ((s.userPool.stop - start) / PGSIZE) with
          | .error fault => .error fault
          | .ok p => split fuel { s with userPool := p } s.userPool.stop stop
        else
          match s.userPool.clear start ((stop - start) / PGSIZE) with
          | .error fault => .error fault
          | .ok p => .ok { s with userPool := p }
      else .error .notReached

def setUsable : BootPools → List E820Entry → Except PopulateFault BootPools
  | s, [] => .ok s
  | s, e :: l =>
    if e.usable then
      if e.stop < s.usableBound then setUsable s l
      else
        match split 3 s (pgRoundUp (if e.start ≥ s.usableBound then e.start else s.usableBound)) e.stop with
        | .error fault => .error fault
        | .ok s => setUsable s l
    else setUsable s l

end BootPools

/-! ## `populate_pools` -/

/-- `user_pages`. -/
def userPages (baseMem extMem : Area) (userPageLimit : Nat) : Nat :=
  let totalPages := (baseMem.size + extMem.size) / PGSIZE
  if totalPages / 2 > userPageLimit then userPageLimit else totalPages / 2

/-- `populate_pools`; `kernelEnd` is `&_end`. -/
def populatePools (baseMem extMem : Area) (entries : List E820Entry) (userPageLimit kernelEnd : Nat) :
    Except PopulateFault BootPools :=
  let totalPages := (baseMem.size + extMem.size) / PGSIZE
  let user := userPages baseMem extMem userPageLimit
  match Populating.run user
      { state := .kernStart, rem := totalPages - user, regionStart := 0, stop := 0,
        freeStart := pgRoundUp kernelEnd, kernelPool := none } entries with
  | .error fault => .error fault
  | .ok c =>
    let pool := initPool c.freeStart c.regionStart c.stop
    BootPools.setUsable { kernelPool := c.kernelPool, userPool := pool.1, usableBound := pool.2 } entries

/-- `palloc_init`: the pools, and what it returns. -/
def pallocInit (entries : List E820Entry) (userPageLimit kernelEnd : Nat) :
    Except PopulateFault (BootPools × Nat) :=
  let areas := resolveAreaInfo ({}, {}) entries
  match populatePools areas.1 areas.2 entries userPageLimit kernelEnd with
  | .error fault => .error fault
  | .ok s => .ok (s, areas.2.stop)

end Pintos
