import Mathlib.Data.List.FinRange
import Pintos.Threads.Palloc

/-!
# `threads/mmu.c`

The four-level page tables. A table is a page of 512 entries in the memory of
`Pintos/Threads/Palloc.lean`; a pointer to an entry is the page it is in and its index. Page
tables are made from pages of the kernel pool. Nothing else writes to them: the rest of the kernel
shows only in the pages it takes and gives back.

`installed` is history: the frame set for each page of each table and not cleared since.
-/

namespace Pintos

open Function

/-- A `uint64_t *` to an entry of a table. -/
abbrev PtePtr := Vaddr × Idx

namespace Pools

def setEntry (s : Pools) (p : PtePtr) (pte : BitVec 64) : Pools :=
  { s with mem := update s.mem p.1 (update (s.mem p.1) p.2 pte) }

/--
The entry `idx` of `table` refers to a table below, which is created if `create` says so. The
result is `some` of whether it was created, or `none` for `return NULL`.
-/
def ensureTable (s : Pools) (table : Vaddr) (idx : Idx) (create : Bool) :
    Except Panic (Option Bool × Pools) :=
  if present (s.mem table idx) then .ok (some false, s)
  else if create then
    match s.pallocGetPage { zero := true } with
    | .error e => .error e
    | .ok (none, s) => .ok (none, s)
    | .ok (some newPage, s) =>
      -- `vtop` asserts that its argument is a kernel address
      if isKernelVaddr newPage then
        .ok (some true, s.setEntry (table, idx) (vtop newPage ||| (PTE_U ||| PTE_W ||| PTE_P)))
      else .error .assertion
  else .ok (none, s)

/-- The table an entry refers to. -/
def nextTable (s : Pools) (table : Vaddr) (idx : Idx) : Vaddr := ptov (PTE_ADDR (s.mem table idx))

/-- `pgdir_walk`: from a page directory to the entry in a page table. -/
def pgdirWalk (va : Vaddr) (create : Bool) (s : Pools) (pdp : Vaddr) :
    Except Panic (Option PtePtr × Pools) :=
  if pdp = 0 then .ok (none, s)
  else
    match s.ensureTable pdp (PDX va) create with
    | .error e => .error e
    | .ok (none, s) => .ok (none, s)
    | .ok (some _, s) => .ok (some (s.nextTable pdp (PDX va), PTX va), s)

/-- The levels above: a table created here is given back when the walk fails further down. -/
def walkLevel (idx : Idx) (create : Bool)
    (next : Pools → Vaddr → Except Panic (Option PtePtr × Pools)) (s : Pools) (table : Vaddr) :
    Except Panic (Option PtePtr × Pools) :=
  if table = 0 then .ok (none, s)
  else
    match s.ensureTable table idx create with
    | .error e => .error e
    | .ok (none, s) => .ok (none, s)
    | .ok (some allocated, s) =>
      match next s (s.nextTable table idx) with
      | .error e => .error e
      | .ok (some pte, s) => .ok (some pte, s)
      | .ok (none, s) =>
        if allocated then
          match s.pallocFreePage (s.nextTable table idx) with
          | .error e => .error e
          | .ok s => .ok (none, s.setEntry (table, idx) 0)
        else .ok (none, s)

/-- `pdpe_walk`. -/
def pdpeWalk (va : Vaddr) (create : Bool) : Pools → Vaddr → Except Panic (Option PtePtr × Pools) :=
  walkLevel (PDPE va) create (pgdirWalk va create)

/-- `pml4e_walk`. -/
def pml4eWalk (va : Vaddr) (create : Bool) : Pools → Vaddr → Except Panic (Option PtePtr × Pools) :=
  walkLevel (PML4 va) create (pdpeWalk va create)

def pml4GetPage (s : Pools) (pml4 uaddr : Vaddr) : Except Panic (Option Vaddr) :=
  if !isUserVaddr uaddr then .error .assertion
  else
    match s.pml4eWalk uaddr false pml4 with
    | .error e => .error e
    | .ok (none, _) => .ok none
    | .ok (some pte, s) =>
      let e := s.mem pte.1 pte.2
      .ok (if present e then some (ptov (PTE_ADDR e) + pgOfs uaddr) else none)

def pml4SetPage (s : Pools) (basePml4 pml4 upage kpage : Vaddr) (rw : Bool) :
    Except Panic (Bool × Pools) :=
  if ¬ Aligned upage ∨ ¬ Aligned kpage ∨ isUserVaddr upage = false ∨ pml4 = basePml4 then
    .error .assertion
  else
    match s.pml4eWalk upage true pml4 with
    | .error e => .error e
    | .ok (none, s) => .ok (false, s)
    | .ok (some pte, s) =>
      if isKernelVaddr kpage then
        .ok (true, s.setEntry pte (vtop kpage ||| (PTE_P ||| (if rw then PTE_W else 0) ||| PTE_U)))
      else .error .assertion

def pml4ClearPage (s : Pools) (pml4 upage : Vaddr) : Except Panic Pools :=
  if ¬ Aligned upage ∨ isUserVaddr upage = false then .error .assertion
  else
    match s.pml4eWalk upage false pml4 with
    | .error e => .error e
    | .ok (none, s) => .ok s
    | .ok (some pte, s) =>
      let e := s.mem pte.1 pte.2
      .ok (if present e then s.setEntry pte (e &&& ~~~PTE_P) else s)

/-- `pml4_set_dirty` and `pml4_set_accessed`, but for the flag. -/
def pml4SetFlag (flag : BitVec 64) (s : Pools) (pml4 vpage : Vaddr) (value : Bool) : Except Panic Pools :=
  match s.pml4eWalk vpage false pml4 with
  | .error e => .error e
  | .ok (none, s) => .ok s
  | .ok (some pte, s) =>
    let e := s.mem pte.1 pte.2
    -- `~(uint32_t) flag` is an `unsigned int`, and gets zeros in front
    .ok (s.setEntry pte (if value then e ||| flag else e &&& (~~~flag.setWidth 32).setWidth 64))

def pml4SetDirty : Pools → Vaddr → Vaddr → Bool → Except Panic Pools := pml4SetFlag PTE_D

def pml4SetAccessed : Pools → Vaddr → Vaddr → Bool → Except Panic Pools := pml4SetFlag PTE_A

/-- Every index of a table, in the order of the loops. -/
def indices : List Idx := (List.finRange 512).map fun i => BitVec.ofFin i

/-- The loop of the four destroying functions: what the present entries refer to. -/
def destroyEntries (next : Pools → Vaddr → Except Panic Pools) (table : Vaddr) :
    Pools → List Idx → Except Panic Pools
  | s, [] => .ok s
  | s, i :: rest =>
    let pte := ptov (s.mem table i)
    if present pte then
      match next s (PTE_ADDR pte) with
      | .error e => .error e
      | .ok s => destroyEntries next table s rest
    else destroyEntries next table s rest

/-- The loop over the entries `is`, and the table. -/
def destroyTable (next : Pools → Vaddr → Except Panic Pools) (is : List Idx) (s : Pools)
    (table : Vaddr) : Except Panic Pools :=
  match destroyEntries next table s is with
  | .error e => .error e
  | .ok s => s.pallocFreePage table

def destroyLevel (next : Pools → Vaddr → Except Panic Pools) (s : Pools) (table : Vaddr) :
    Except Panic Pools :=
  destroyTable next indices s table

/-- `pt_destroy`: the frames that are mapped, and the page table. -/
def ptDestroy : Pools → Vaddr → Except Panic Pools := destroyLevel pallocFreePage

/-- `pgdir_destroy`. -/
def pgdirDestroy : Pools → Vaddr → Except Panic Pools := destroyLevel ptDestroy

/-- `pdpe_destroy`. -/
def pdpeDestroy : Pools → Vaddr → Except Panic Pools := destroyLevel pgdirDestroy

/-- `pml4_destroy`. Only the first entry is followed: "if PML4 (vaddr) >= 1, it's kernel space". -/
def pml4Destroy (s : Pools) (basePml4 pml4 : Vaddr) : Except Panic Pools :=
  if pml4 = 0 then .ok s
  else if pml4 = basePml4 then .error .assertion
  else
    let pdpe := ptov (s.mem pml4 0)
    if present pdpe then
      match s.pdpeDestroy (PTE_ADDR pdpe) with
      | .error e => .error e
      | .ok s => s.pallocFreePage pml4
    else s.pallocFreePage pml4

/-- `pml4_create`: a copy of the page of `base_pml4`. -/
def pml4Create (s : Pools) (basePml4 : Vaddr) : Except Panic (Option Vaddr × Pools) :=
  match s.pallocGetPage {} with
  | .error e => .error e
  | .ok (none, s) => .ok (none, s)
  | .ok (some pml4, s) => .ok (some pml4, { s with mem := update s.mem pml4 (s.mem basePml4) })

/-- The loop of `paging_init`, page `n` on. `text` tells the pages of the kernel's code. -/
def pagingLoop (pml4 : Vaddr) (text : Vaddr → Bool) : Pools → Nat → Nat → Except Panic Pools
  | s, _, 0 => .ok s
  | s, n, k + 1 =>
    let pa := BitVec.ofNat 64 (PGSIZE * n)
    let va := ptov pa
    let perm := PTE_P ||| (if text va then 0 else PTE_W)
    match s.pml4eWalk va true pml4 with
    | .error e => .error e
    | .ok (none, s) => pagingLoop pml4 text s (n + 1) k
    | .ok (some pte, s) => pagingLoop pml4 text (s.setEntry pte (pa ||| perm)) (n + 1) k

/-- `paging_init (mem_end)` for a memory of `memPages` pages. It makes `base_pml4`. -/
def pagingInit (s : Pools) (memPages : Nat) (text : Vaddr → Bool) : Except Panic (Vaddr × Pools) :=
  match s.pallocGetPage { assert := true, zero := true } with
  | .error e => .error e
  | .ok (none, _) => .error .outOfPages
  | .ok (some pml4, s) =>
    match pagingLoop pml4 text s 0 memPages with
    | .error e => .error e
    | .ok s => .ok (pml4, s)

end Pools

/-! ## Many address spaces -/

structure Mmu extends Pools where
  basePml4 : Vaddr
  /-- The tables made by `pml4_create` and not destroyed since. -/
  tables : List Vaddr
  installed : Vaddr → BitVec 64 → Option Vaddr
  /-- The kernel's pages that are in use elsewhere. -/
  others : List Vaddr

inductive MmuAction where
  | create
  | setPage (pml4 upage kpage : Vaddr) (rw : Bool)
  | clearPage (pml4 upage : Vaddr)
  | destroy (pml4 : Vaddr)
  /-- Another part of the kernel calls `palloc_get_page`. -/
  | pallocGet (flags : PallocFlags)
  /-- It calls `palloc_free_page` on a page of the user pool or on one of its own. -/
  | pallocFree (page : Vaddr)

namespace Mmu

def setPools (s : Mmu) (p : Pools) : Mmu := { s with toPools := p }

def setInstalled (s : Mmu) (pml4 : Vaddr) (page : BitVec 64) (frame : Option Vaddr) : Mmu :=
  { s with installed := update s.installed pml4 (update (s.installed pml4) page frame) }

/-- A call of `mmu.c` on a table made by `pml4_create`, or of `palloc.c`. -/
def step (s : Mmu) : MmuAction → Except Panic Mmu
  | .create =>
    match s.pml4Create s.basePml4 with
    | .error e => .error e
    | .ok (none, p) => .ok (s.setPools p)
    | .ok (some pml4, p) =>
      .ok { s.setPools p with
        tables := pml4 :: s.tables
        installed := update s.installed pml4 fun _ => none }
  | .setPage pml4 upage kpage rw =>
    -- the frame comes from the user pool
    if pml4 ∉ s.tables ∨ s.userPool.contains kpage = false then .error .disabled
    else
      match s.pml4SetPage s.basePml4 pml4 upage kpage rw with
      | .error e => .error e
      | .ok (false, p) => .ok (s.setPools p)
      | .ok (true, p) => .ok ((s.setPools p).setInstalled pml4 (pgNo upage) (some kpage))
  | .clearPage pml4 upage =>
    if pml4 ∉ s.tables then .error .disabled
    else
      match s.pml4ClearPage pml4 upage with
      | .error e => .error e
      | .ok p => .ok ((s.setPools p).setInstalled pml4 (pgNo upage) none)
  | .destroy pml4 =>
    if pml4 ∉ s.tables then .error .disabled
    else
      match s.pml4Destroy s.basePml4 pml4 with
      | .error e => .error e
      | .ok p =>
        .ok { s.setPools p with
          tables := s.tables.erase pml4
          installed := update s.installed pml4 fun _ => none }
  | .pallocGet flags =>
    match s.pallocGetPage flags with
    | .error e => .error e
    | .ok (none, p) => .ok (s.setPools p)
    | .ok (some page, p) =>
      .ok { s.setPools p with others := if flags.user then s.others else page :: s.others }
  | .pallocFree page =>
    if s.userPool.contains page ∨ page ∈ s.others then
      match s.pallocFreePage page with
      | .error e => .error e
      | .ok p => .ok { s.setPools p with others := s.others.filter (· ≠ page) }
    else .error .disabled

/-- The machine after `paging_init`; `others` are the pages the kernel took before. -/
def boot (basePml4 : Vaddr) (p : Pools) (others : List Vaddr) : Mmu where
  toPools := p
  basePml4 := basePml4
  tables := []
  installed := fun _ _ => none
  others := others

end Mmu

end Pintos
