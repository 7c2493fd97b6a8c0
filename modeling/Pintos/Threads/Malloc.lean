import Pintos.Kernel.LinkedList
import Pintos.Lib.Machine
import Pintos.Threads.PageGroups

/-!
# `threads/malloc.c`

The allocator of blocks. Descriptors, arena headers and the links of the free blocks are in memory,
where the code has them; `descs` is the address of the array of descriptors, which is no part of the
pools. The calls follow each other, so that the lock of a descriptor is always free and is left out.

`alloc` says for each call whether `palloc_get_multiple` may find pages at all.

`HeapOwner` is the allocator over a run with the blocks that are live; `live` is history.
-/

namespace Pintos

open LittleEndian

/-- `ARENA_MAGIC`. -/
def ARENA_MAGIC : BitVec 32 := 0x9a548eed

/-- `DIV_ROUND_UP` on `size_t`. -/
def divRoundUp (x step : BitVec 64) : BitVec 64 := (x + step - 1) / step

/-- `PGSIZE` as `size_t`. -/
def pageBytes : BitVec 64 := 4096

/-- `sizeof (struct arena)`. -/
def arenaBytes : BitVec 64 := 24

/-- `sizeof (struct desc)`. -/
def descBytes : Nat := 96

/-- The number of elements of `descs`. -/
def DESC_MAX : Nat := 10

namespace PageMem

/-! ## `struct desc` and `struct arena` -/

def descBlockSize (mem : PageMem) (d : Vaddr) : BitVec 64 := mem.loadWord d

def blocksPerArena (mem : PageMem) (d : Vaddr) : BitVec 64 := mem.loadWord (d + 8)

def magic (mem : PageMem) (a : Vaddr) : BitVec 32 := mem.loadHalf a

def arenaDesc (mem : PageMem) (a : Vaddr) : Vaddr := mem.loadWord (a + 8)

def freeCnt (mem : PageMem) (a : Vaddr) : BitVec 64 := mem.loadWord (a + 16)

def setFreeCnt (mem : PageMem) (a : Vaddr) (cnt : BitVec 64) : PageMem := mem.storeWord (a + 16) cnt

/-- The three fields of a new arena. -/
def initArena (mem : PageMem) (a d : Vaddr) (cnt : BitVec 64) : PageMem :=
  ((mem.storeHalf a ARENA_MAGIC).storeWord (a + 8) d).setFreeCnt a cnt

end PageMem

/-- `&d->free_list`. -/
def freeList (d : Vaddr) : Vaddr := d + 16

namespace PageMem

/-- `block_to_arena`. -/
def blockToArena (mem : PageMem) (b : Vaddr) : Except Panic Vaddr :=
  let a := pgRoundDown b
  let d := mem.arenaDesc a
  if a = 0 then .error .assertion
  else if mem.magic a ≠ ARENA_MAGIC then .error .assertion
  else if ¬ (d = 0 ∨ (pgOfs b - arenaBytes) % mem.descBlockSize d = 0) then .error .assertion
  else if ¬ (d ≠ 0 ∨ pgOfs b = arenaBytes) then .error .assertion
  else .ok a

/-- `arena_to_block`. -/
def arenaToBlock (mem : PageMem) (a : Vaddr) (idx : Nat) : Except Panic Vaddr :=
  let d := mem.arenaDesc a
  if a = 0 then .error .assertion
  else if mem.magic a ≠ ARENA_MAGIC then .error .assertion
  else if ¬ idx < (mem.blocksPerArena d).toNat then .error .assertion
  else .ok (a + arenaBytes + BitVec.ofNat 64 idx * mem.descBlockSize d)

/-- The blocks of a new arena go to the end of the free list. -/
def pushBlocks (mem : PageMem) (d a : Vaddr) (cnt : Nat) : Except Panic PageMem :=
  (List.range cnt).foldlM (fun mem i => do
    let b ← mem.arenaToBlock a i
    mem.listPushBack (freeList d) b) mem

/-- The blocks of an unused arena leave the free list. -/
def removeBlocks (mem : PageMem) (a : Vaddr) (cnt : Nat) : Except Panic PageMem :=
  (List.range cnt).foldlM (fun mem i => do
    let b ← mem.arenaToBlock a i
    mem.listRemove b) mem

/-- The loop of `malloc_init`. `left` counts the descriptors that the array still has. -/
def initDescs (descs : Vaddr) : Nat → PageMem → Nat → BitVec 64 → Except Panic (PageMem × Nat)
  | left, mem, descCnt, blockSize =>
    if blockSize < pageBytes / 2 then
      match left with
      | 0 => .error .assertion
      | left + 1 =>
        let d := descs + BitVec.ofNat 64 (descBytes * descCnt)
        let mem := mem.storeWord d blockSize
        let mem := mem.storeWord (d + 8) ((pageBytes - arenaBytes) / blockSize)
        let mem := mem.listInit (freeList d)
        initDescs descs left mem (descCnt + 1) (blockSize * 2)
    else .ok (mem, descCnt)

end PageMem

/-- The pools and the array of descriptors. -/
structure KernelHeap extends WordPools where
  descs : Vaddr
  descCnt : Nat

namespace KernelHeap

def setPools (s : KernelHeap) (p : WordPools) : KernelHeap := { s with toWordPools := p }

def setMem (s : KernelHeap) (mem : PageMem) : KernelHeap := { s with mem := mem }

/-- `malloc_init`. -/
def mallocInit (p : WordPools) (descs : Vaddr) : Except Panic KernelHeap := do
  let (mem, descCnt) ← PageMem.initDescs descs DESC_MAX p.mem 0 16
  .ok { toWordPools := { p with mem := mem }, descs := descs, descCnt := descCnt }

/-- The first descriptor whose blocks are large enough. -/
def findDesc (s : KernelHeap) (size : BitVec 64) : Option Vaddr :=
  ((List.range s.descCnt).map fun i => s.descs + BitVec.ofNat 64 (descBytes * i)).find? fun d =>
    size ≤ s.mem.descBlockSize d

/-- `palloc_get_multiple (0, cnt)`, or no memory. -/
def pallocGet (s : KernelHeap) (alloc : Bool) (cnt : Nat) : Except Panic (Option Vaddr × KernelHeap) :=
  if alloc then do
    let (pages, p) ← s.toWordPools.pallocGetMultiple {} cnt
    .ok (pages, s.setPools p)
  else .ok (none, s)

/-- `palloc_free_multiple`. -/
def pallocFree (s : KernelHeap) (pages : Vaddr) (cnt : Nat) : Except Panic KernelHeap := do
  let p ← s.toWordPools.pallocFreeMultiple pages cnt
  .ok (s.setPools p)

/-- "If the free list is empty, create a new arena." -/
def refill (s : KernelHeap) (d : Vaddr) (alloc : Bool) : Except Panic (Bool × KernelHeap) :=
  if ¬ s.mem.listEmpty (freeList d) then .ok (true, s)
  else do
    match ← s.pallocGet alloc 1 with
    | (none, s) => .ok (false, s)
    | (some a, s) =>
      let mem := s.mem.initArena a d (s.mem.blocksPerArena d)
      let mem ← mem.pushBlocks d a (mem.blocksPerArena d).toNat
      .ok (true, s.setMem mem)

/-- The front of the free list is taken. -/
def takeBlock (s : KernelHeap) (d : Vaddr) : Except Panic (Vaddr × KernelHeap) := do
  let (b, mem) ← s.mem.listPopFront (freeList d)
  let a ← mem.blockToArena b
  .ok (b, s.setMem (mem.setFreeCnt a (mem.freeCnt a - 1)))

/-- A request that is too big for any descriptor. -/
def mallocBig (s : KernelHeap) (size : BitVec 64) (alloc : Bool) : Except Panic (Option Vaddr × KernelHeap) := do
  let pageCnt := divRoundUp (size + arenaBytes) pageBytes
  match ← s.pallocGet alloc pageCnt.toNat with
  | (none, s) => .ok (none, s)
  | (some a, s) => .ok (some (a + arenaBytes), s.setMem (s.mem.initArena a 0 pageCnt))

/-- `malloc`. A null pointer is `none`. -/
def malloc (s : KernelHeap) (size : BitVec 64) (alloc : Bool) : Except Panic (Option Vaddr × KernelHeap) :=
  if size = 0 then .ok (none, s)
  else
    match s.findDesc size with
    | none => s.mallocBig size alloc
    | some d => do
      match ← s.refill d alloc with
      | (false, s) => .ok (none, s)
      | (true, s) =>
        let (b, s) ← s.takeBlock d
        .ok (some b, s)

/-- `calloc`. -/
def calloc (s : KernelHeap) (a b : BitVec 64) (alloc : Bool) : Except Panic (Option Vaddr × KernelHeap) :=
  let size := a * b
  if size < a ∨ size < b then .ok (none, s)
  else do
    match ← s.malloc size alloc with
    | (none, s) => .ok (none, s)
    | (some p, s) => .ok (some p, s.setMem (s.mem.memsetBytes p 0 size.toNat))

/-- `block_size`. -/
def blockSize (s : KernelHeap) (block : Vaddr) : Except Panic (BitVec 64) := do
  let a ← s.mem.blockToArena block
  let d := s.mem.arenaDesc a
  .ok (if d ≠ 0 then s.mem.descBlockSize d else pageBytes * s.mem.freeCnt a - pgOfs block)

/-- "If the arena is now entirely unused, free it." -/
def dropUnused (s : KernelHeap) (d a : Vaddr) : Except Panic KernelHeap :=
  if s.mem.blocksPerArena d ≤ s.mem.freeCnt a then
    if s.mem.freeCnt a ≠ s.mem.blocksPerArena d then .error .assertion
    else do
      let mem ← s.mem.removeBlocks a (s.mem.blocksPerArena d).toNat
      (s.setMem mem).pallocFree a 1
  else .ok s

/-- `free` of a normal block. -/
def freeBlock (s : KernelHeap) (b a d : Vaddr) : Except Panic KernelHeap := do
  let mem := s.mem.memsetBytes b 0xcc (s.mem.descBlockSize d).toNat
  let mem ← mem.listPushFront (freeList d) b
  (s.setMem (mem.setFreeCnt a (mem.freeCnt a + 1))).dropUnused d a

/-- `free`. -/
def free (s : KernelHeap) : Option Vaddr → Except Panic KernelHeap
  | none => .ok s
  | some b => do
    let a ← s.mem.blockToArena b
    let d := s.mem.arenaDesc a
    if d ≠ 0 then s.freeBlock b a d else s.pallocFree a (s.mem.freeCnt a).toNat

/-- `realloc`. -/
def realloc (s : KernelHeap) (oldBlock : Option Vaddr) (newSize : BitVec 64) (alloc : Bool) :
    Except Panic (Option Vaddr × KernelHeap) :=
  if newSize = 0 then do
    let s ← s.free oldBlock
    .ok (none, s)
  else do
    match oldBlock, ← s.malloc newSize alloc with
    | some old, (some new, s) =>
      let oldSize ← s.blockSize old
      let minSize := if newSize < oldSize then newSize else oldSize
      let s ← (s.setMem (s.mem.memcpyBytes new old minSize.toNat)).free (some old)
      .ok (some new, s)
    | _, r => .ok r

end KernelHeap

/-! ## The blocks that are live -/

/-- A block as its owner knows it. -/
structure HeapBlock where
  addr : Vaddr
  size : BitVec 64
  deriving DecidableEq

structure HeapOwner extends KernelHeap where
  live : List HeapBlock

inductive HeapAction where
  | malloc (size : BitVec 64) (alloc : Bool)
  | calloc (a b : BitVec 64) (alloc : Bool)
  | realloc (old : Option HeapBlock) (size : BitVec 64) (alloc : Bool)
  | free (block : Option HeapBlock)
  | write (block : HeapBlock) (ofs : Nat) (value : Byte)

namespace HeapOwner

/-- The owner has the block that a call returned. -/
def got (s : KernelHeap) (live : List HeapBlock) (size : BitVec 64) : Option Vaddr → HeapOwner
  | none => { s with live := live }
  | some b => { s with live := { addr := b, size := size } :: live }

/-- The block is null or live. -/
def owns (s : HeapOwner) (block : Option HeapBlock) : Bool := block.all fun b => b ∈ s.live

/-- The blocks beside this one. -/
def others (s : HeapOwner) : Option HeapBlock → List HeapBlock
  | none => s.live
  | some b => s.live.erase b

/-- A call, or a write of an owner inside its block. -/
def step (s : HeapOwner) : HeapAction → Except Panic HeapOwner
  | .malloc size alloc => do
    let (p, h) ← s.toKernelHeap.malloc size alloc
    .ok (got h s.live size p)
  | .calloc a b alloc => do
    let (p, h) ← s.toKernelHeap.calloc a b alloc
    .ok (got h s.live (a * b) p)
  | .realloc old size alloc =>
    if ¬ s.owns old then .error .disabled
    else do
      let (p, h) ← s.toKernelHeap.realloc (old.map (·.addr)) size alloc
      -- the old block goes, unless there was no memory for the new one
      .ok (got h (if p.isSome ∨ size = 0 then s.others old else s.live) size p)
  | .free block =>
    if ¬ s.owns block then .error .disabled
    else do
      let h ← s.toKernelHeap.free (block.map (·.addr))
      .ok { h with live := s.others block }
  | .write block ofs value =>
    if block ∉ s.live then .error .disabled
    else do
      let size ← s.blockSize block.addr
      if ¬ ofs < size.toNat then .error .disabled
      else .ok { s with mem := s.mem.storeByte (block.addr + BitVec.ofNat 64 ofs) value }

end HeapOwner

end Pintos
