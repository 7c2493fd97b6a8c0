import Pintos.Properties.PageGroups
import Pintos.Threads.Malloc

/-!
# Where the allocator of blocks keeps its data

The descriptors, the arenas with their headers, and the slots for blocks.

* `Arena` — a page with slots of one size, or the pages of a big block with one slot
* `HeapPart` — a part of memory that one purpose has
* `HeapLayout.parts` — two parts share no word
* `HeapLayout.elems` — sentinels and slots can be elements of lists
-/

namespace Pintos

open Function LittleEndian

/-- The block size of a descriptor, by its index. -/
def classSize (i : Nat) : Nat := 2 ^ (4 + i)

/-- The blocks in an arena of a descriptor. -/
def perArena (i : Nat) : Nat := 4072 / classSize i

/-- The number of descriptors in use. -/
def CLASSES : Nat := 7

/-- `&descs[i]`. -/
def descAt (descs : Vaddr) (i : Nat) : Vaddr := descs + BitVec.ofNat 64 (descBytes * i)

/-- The pages behind a header, for blocks of the descriptor `cls` or for one big block. -/
structure Arena where
  page : Vaddr
  cls : Option Nat
  pages : Nat
  deriving DecidableEq

namespace Arena

/-- The pages, as `palloc.c` knows them. -/
def group (A : Arena) : PageGroup := { user := false, pages := A.page, cnt := A.pages }

def slots (A : Arena) : Nat :=
  match A.cls with
  | some i => perArena i
  | none => 1

def slotSize (A : Arena) : Nat :=
  match A.cls with
  | some i => classSize i
  | none => 4096 * A.pages - 24

def slot (A : Arena) (k : Nat) : Vaddr := A.page + arenaBytes + BitVec.ofNat 64 (k * A.slotSize)

/-- An arena of a descriptor is one page. -/
structure Sized (A : Arena) : Prop where
  pages_pos : 0 < A.pages
  cls : ∀ i, A.cls = some i → i < CLASSES ∧ A.pages = 1

/-- The pages of an arena are pages. -/
structure Ok (A : Arena) : Prop extends A.Sized where
  aligned : A.page.toNat % 4096 = 0
  pos : 0 < A.page.toNat
  inRange : A.page.toNat + 4096 * A.pages ≤ 2 ^ 64

end Arena

/-! ## Sizes -/

section Sizes

variable {i : Nat}

theorem classSize_dvd (i : Nat) : classSize i % 8 = 0 := by
  rw [classSize, Nat.pow_add]
  omega

theorem le_classSize (i : Nat) : 16 ≤ classSize i :=
  Nat.pow_le_pow_right (by decide : 0 < 2) (Nat.le_add_right 4 i)

theorem classSize_le (h : i < CLASSES) : classSize i ≤ 1024 :=
  Nat.pow_le_pow_right (by decide : 0 < 2) (by unfold CLASSES at h; omega : 4 + i ≤ 10)

theorem perArena_mul_le (i : Nat) : perArena i * classSize i ≤ 4072 := Nat.div_mul_le_self _ _

theorem perArena_pos (h : i < CLASSES) : 0 < perArena i :=
  Nat.div_pos ((classSize_le h).trans (by decide)) (Nat.lt_of_lt_of_le (by decide) (le_classSize i))

theorem perArena_le (i : Nat) : perArena i ≤ 254 := by
  have hmul := perArena_mul_le i
  have hle := Nat.mul_le_mul_left (perArena i) (le_classSize i)
  omega

end Sizes

namespace Arena

variable {A B : Arena} {i j k : Nat}

theorem slots_eq (h : A.cls = some i) : A.slots = perArena i := by rw [slots, h]

theorem slotSize_eq (h : A.cls = some i) : A.slotSize = classSize i := by rw [slotSize, h]

theorem slots_big (h : A.cls = none) : A.slots = 1 := by rw [slots, h]

theorem slotSize_big (h : A.cls = none) : A.slotSize = 4096 * A.pages - 24 := by rw [slotSize, h]

theorem Sized.slotSize_ge (h : A.Sized) : 16 ≤ A.slotSize ∧ A.slotSize % 8 = 0 := by
  have hpos := h.pages_pos
  cases hcls : A.cls with
  | some i =>
    rw [slotSize_eq hcls]
    exact ⟨le_classSize i, classSize_dvd i⟩
  | none =>
    rw [slotSize_big hcls]
    omega

/-- The slots are in the pages. -/
theorem Sized.slots_le (h : A.Sized) : A.slots * A.slotSize + 24 ≤ 4096 * A.pages := by
  have hpos := h.pages_pos
  cases hcls : A.cls with
  | some i =>
    rw [slots_eq hcls, slotSize_eq hcls, (h.cls i hcls).2]
    have hle := perArena_mul_le i
    omega
  | none =>
    rw [slots_big hcls, slotSize_big hcls]
    omega

theorem Sized.slot_le (h : A.Sized) (hk : k < A.slots) : k * A.slotSize + A.slotSize + 24 ≤ 4096 * A.pages := by
  have hle := Nat.mul_le_mul_right A.slotSize (Nat.succ_le_of_lt hk)
  rw [Nat.succ_mul] at hle
  have hslots := h.slots_le
  omega

/-- A slot begins in the first page. -/
theorem Sized.slot_lt (h : A.Sized) (hk : k < A.slots) : 24 + k * A.slotSize < 4096 := by
  have hge := h.slotSize_ge
  cases hcls : A.cls with
  | some i =>
    have hle := h.slot_le hk
    rw [(h.cls i hcls).2] at hle
    omega
  | none =>
    rw [slots_big hcls] at hk
    obtain rfl : k = 0 := by omega
    rw [Nat.zero_mul]
    decide

theorem Sized.slots_pos (h : A.Sized) : 0 < A.slots := by
  cases hcls : A.cls with
  | some i =>
    rw [slots_eq hcls]
    exact perArena_pos (h.cls i hcls).1
  | none =>
    rw [slots_big hcls]
    decide

theorem Ok.slot_toNat (h : A.Ok) (hk : k < A.slots) : (A.slot k).toNat = A.page.toNat + 24 + k * A.slotSize := by
  have hlt := h.slot_lt hk
  have hrange := h.inRange
  have hpos := h.pages_pos
  have h24 : arenaBytes.toNat = 24 := rfl
  rw [slot, BitVec.toNat_add, BitVec.toNat_add, BitVec.toNat_ofNat, h24]
  generalize k * A.slotSize = n at hlt ⊢
  omega

/-- `pg_round_down` and `pg_ofs` of a slot. -/
theorem Ok.slot_page (h : A.Ok) (hk : k < A.slots) :
    pgRoundDown (A.slot k) = A.page ∧ (pgOfs (A.slot k)).toNat = 24 + k * A.slotSize := by
  have hlt := h.slot_lt hk
  have hnat := h.slot_toNat hk
  have halign := h.aligned
  refine ⟨BitVec.eq_of_toNat_eq ?_, ?_⟩
  · rw [pgRoundDown_toNat, hnat]
    omega
  · rw [pgOfs_toNat, hnat]
    omega

/-- Slots of one arena are apart. -/
theorem slot_apart (hne : k ≠ j) : k * A.slotSize + A.slotSize ≤ j * A.slotSize ∨
    j * A.slotSize + A.slotSize ≤ k * A.slotSize := by
  have hmul : ∀ m n, m < n → m * A.slotSize + A.slotSize ≤ n * A.slotSize := by
    intro m n h
    rw [← Nat.succ_mul]
    exact Nat.mul_le_mul_right _ h
  rcases Nat.lt_or_gt_of_ne hne with h | h
  · exact .inl (hmul k j h)
  · exact .inr (hmul j k h)

end Arena

/-! ## The parts -/

inductive HeapPart where
  /-- The sizes in a descriptor. -/
  | desc (i : Nat)
  /-- The two sentinels of its free list. -/
  | sentinels (i : Nat)
  /-- The header of an arena. -/
  | header (A : Arena)
  | slot (A : Arena) (k : Nat)
  deriving DecidableEq

namespace HeapPart

/-- The first byte of a part. -/
def lo (descs : Vaddr) : HeapPart → Nat
  | desc i => descs.toNat + descBytes * i
  | sentinels i => descs.toNat + descBytes * i + 16
  | header A => A.page.toNat
  | slot A k => A.page.toNat + 24 + k * A.slotSize

/-- The first byte behind it. -/
def hi (descs : Vaddr) : HeapPart → Nat
  | desc i => descs.toNat + descBytes * i + 16
  | sentinels i => descs.toNat + descBytes * i + 48
  | header A => A.page.toNat + 24
  | slot A k => A.page.toNat + 24 + k * A.slotSize + A.slotSize

/-- The words of a part. -/
def words (descs : Vaddr) (P : HeapPart) : Set Nat := {w | P.lo descs ≤ 8 * w ∧ 8 * w < P.hi descs}

/-- The part is one of a descriptor in use or of an arena of the list. -/
def Of (arenas : List Arena) : HeapPart → Prop
  | desc i | sentinels i => i < CLASSES
  | header A => A ∈ arenas
  | slot A k => A ∈ arenas ∧ k < A.slots

end HeapPart

/-- The descriptors and the arenas lie apart. -/
structure HeapLayout (descs : Vaddr) (arenas : List Arena) : Prop where
  ok : ∀ A ∈ arenas, A.Ok
  apart : ∀ A ∈ arenas, ∀ B ∈ arenas, A ≠ B →
    A.page.toNat + 4096 * A.pages ≤ B.page.toNat ∨ B.page.toNat + 4096 * B.pages ≤ A.page.toNat
  aligned : descs.toNat % 8 = 0
  pos : 0 < descs.toNat
  inRange : descs.toNat + descBytes * DESC_MAX ≤ 2 ^ 64
  off : ∀ A ∈ arenas, descs.toNat + descBytes * DESC_MAX ≤ A.page.toNat ∨
    A.page.toNat + 4096 * A.pages ≤ descs.toNat

section Layout

variable {descs : Vaddr} {arenas : List Arena} {A B : Arena} {P Q : HeapPart} {i j k : Nat}

/-- The arena that a part is in, if it is in none of the descriptors. -/
def HeapPart.home : HeapPart → Option Arena
  | desc _ | sentinels _ => none
  | header A | slot A _ => some A

theorem HeapPart.Of.mono {arenas' : List Arena} (h : P.Of arenas') (hsub : ∀ A, A ∈ arenas' → A ∈ arenas) :
    P.Of arenas := by
  cases P with
  | desc i | sentinels i => exact h
  | header A => exact hsub A h
  | slot A k => exact ⟨hsub A h.1, h.2⟩

theorem HeapPart.Of.home_mem (h : P.Of arenas) (hh : P.home = some A) : A ∈ arenas := by
  cases P with
  | desc i | sentinels i => cases hh
  | header B =>
    cases hh
    exact h
  | slot B k =>
    cases hh
    exact h.1

theorem HeapPart.desc_bounds (descs : Vaddr) (hP : P.Of arenas) (hh : P.home = none) :
    descs.toNat ≤ P.lo descs ∧ P.hi descs ≤ descs.toNat + descBytes * DESC_MAX := by
  cases P with
  | desc i | sentinels i =>
    have hi : i < 7 := hP
    simp only [HeapPart.lo, HeapPart.hi, descBytes, DESC_MAX]
    omega
  | header A => cases hh
  | slot A k => cases hh

theorem HeapLayout.arena_bounds (h : HeapLayout descs arenas) (hP : P.Of arenas) (hh : P.home = some A) :
    A ∈ arenas ∧ A.page.toNat ≤ P.lo descs ∧ P.hi descs ≤ A.page.toNat + 4096 * A.pages := by
  cases P with
  | desc i => cases hh
  | sentinels i => cases hh
  | header B =>
    cases hh
    have hpos := (h.ok A hP).pages_pos
    simp only [HeapPart.lo, HeapPart.hi]
    exact ⟨hP, le_rfl, by omega⟩
  | slot B k =>
    cases hh
    have hle := (h.ok A hP.1).slot_le hP.2
    simp only [HeapPart.lo, HeapPart.hi]
    exact ⟨hP.1, by omega, by omega⟩

/-- A part of another home is before the pages of an arena, or behind them. -/
theorem HeapLayout.home_apart (h : HeapLayout descs arenas) (hP : P.Of arenas) (hA : A ∈ arenas)
    (hne : P.home ≠ some A) : P.hi descs ≤ A.page.toNat ∨ A.page.toNat + 4096 * A.pages ≤ P.lo descs := by
  cases hh : P.home with
  | none =>
    have hb := HeapPart.desc_bounds descs hP hh
    rcases h.off A hA with hoff | hoff <;> omega
  | some B =>
    obtain ⟨hB, hlo, hhi⟩ := h.arena_bounds hP hh
    have hAB : A ≠ B := fun hc => hne (hh.trans (congrArg some hc.symm))
    rcases h.apart A hA B hB hAB with hap | hap <;> omega

/-- Two parts are one behind the other. -/
theorem HeapLayout.parts (h : HeapLayout descs arenas) (hP : P.Of arenas) (hQ : Q.Of arenas) (hne : P ≠ Q) :
    P.hi descs ≤ Q.lo descs ∨ Q.hi descs ≤ P.lo descs := by
  cases hhP : P.home with
  | none =>
    have hbP := HeapPart.desc_bounds descs hP hhP
    cases hhQ : Q.home with
    | none =>
      cases P with
      | header A => cases hhP
      | slot A k => cases hhP
      | desc i | sentinels i =>
        cases Q with
        | header A => cases hhQ
        | slot A k => cases hhQ
        | desc j | sentinels j =>
          simp only [ne_eq, HeapPart.desc.injEq, HeapPart.sentinels.injEq] at hne
          simp only [HeapPart.lo, HeapPart.hi, descBytes]
          omega
    | some B =>
      obtain ⟨hB, hlo, hhi⟩ := h.arena_bounds hQ hhQ
      rcases h.off B hB with hoff | hoff <;> omega
  | some A =>
    obtain ⟨hA, hlo, hhi⟩ := h.arena_bounds hP hhP
    cases hhQ : Q.home with
    | none =>
      have hbQ := HeapPart.desc_bounds descs hQ hhQ
      rcases h.off A hA with hoff | hoff <;> omega
    | some B =>
      obtain ⟨hB, hlo', hhi'⟩ := h.arena_bounds hQ hhQ
      by_cases hAB : A = B
      · subst hAB
        cases P with
        | desc i => cases hhP
        | sentinels i => cases hhP
        | header A' =>
          cases hhP
          cases Q with
          | desc i => cases hhQ
          | sentinels i => cases hhQ
          | header B' =>
            cases hhQ
            exact absurd rfl hne
          | slot B' j =>
            cases hhQ
            simp only [HeapPart.lo, HeapPart.hi]
            omega
        | slot A' k =>
          cases hhP
          cases Q with
          | desc i => cases hhQ
          | sentinels i => cases hhQ
          | header B' =>
            cases hhQ
            simp only [HeapPart.lo, HeapPart.hi]
            omega
          | slot B' j =>
            cases hhQ
            have hkj : k ≠ j := fun hc => hne (by rw [hc])
            simp only [HeapPart.lo, HeapPart.hi]
            rcases Arena.slot_apart (A := A) hkj with hap | hap <;> omega
      · rcases h.apart _ hA _ hB hAB with hap | hap <;> omega

theorem HeapLayout.notMem_words (h : HeapLayout descs arenas) (hP : P.Of arenas) (hQ : Q.Of arenas) (hne : P ≠ Q)
    {w : Nat} (hw : w ∈ P.words descs) : w ∉ Q.words descs := by
  rintro ⟨hlo, hhi⟩
  obtain ⟨hlo', hhi'⟩ := hw
  rcases h.parts hP hQ hne with hle | hle <;> omega

theorem HeapLayout.part_aligned (h : HeapLayout descs arenas) (hP : P.Of arenas) :
    P.lo descs % 8 = 0 ∧ P.hi descs % 8 = 0 := by
  have hdescs := h.aligned
  cases P with
  | desc i | sentinels i =>
    simp only [HeapPart.lo, HeapPart.hi, descBytes]
    omega
  | header A =>
    have hpage := (h.ok A hP).aligned
    simp only [HeapPart.lo, HeapPart.hi]
    omega
  | slot A k =>
    have hpage := (h.ok A hP.1).aligned
    obtain ⟨-, hsize⟩ := (h.ok A hP.1).slotSize_ge
    have hmul : k * A.slotSize % 8 = 0 := by rw [Nat.mul_mod, hsize, Nat.mul_zero, Nat.zero_mod]
    simp only [HeapPart.lo, HeapPart.hi]
    omega

/-- A part has all the bytes of its words. -/
theorem HeapLayout.mem_words (h : HeapLayout descs arenas) (hP : P.Of arenas) {a : Vaddr} :
    wordNo a ∈ P.words descs ↔ P.lo descs ≤ a.toNat ∧ a.toNat < P.hi descs := by
  obtain ⟨hlo, hhi⟩ := h.part_aligned hP
  show P.lo descs ≤ 8 * (a.toNat / 8) ∧ 8 * (a.toNat / 8) < P.hi descs ↔ _
  omega

/-! ## Nodes of the free lists -/

/-- The part that a node is in. -/
inductive NodeOf (descs : Vaddr) (x : Vaddr) : HeapPart → Prop where
  | head {i : Nat} (h : x = freeList (descAt descs i)) : NodeOf descs x (.sentinels i)
  | tail {i : Nat} (h : x = listTail (freeList (descAt descs i))) : NodeOf descs x (.sentinels i)
  | slot {A : Arena} {k : Nat} (h : x = A.slot k) : NodeOf descs x (.slot A k)

/-- Sentinels and slots. -/
def heapNodes (descs : Vaddr) (arenas : List Arena) : Set Vaddr := {x | ∃ P, P.Of arenas ∧ NodeOf descs x P}

theorem HeapLayout.descAt_toNat (h : HeapLayout descs arenas) (hi : i < CLASSES) :
    (descAt descs i).toNat = descs.toNat + descBytes * i := by
  have hrange := h.inRange
  have hi7 : i < 7 := hi
  rw [descAt, BitVec.toNat_add, BitVec.toNat_ofNat]
  simp only [descBytes, DESC_MAX] at hrange ⊢
  omega

theorem HeapLayout.sentinels_toNat (h : HeapLayout descs arenas) (hi : i < CLASSES) :
    (freeList (descAt descs i)).toNat = HeapPart.lo descs (.sentinels i) ∧
      (listTail (freeList (descAt descs i))).toNat = HeapPart.lo descs (.sentinels i) + 16 := by
  have hrange := h.inRange
  have hi7 : i < 7 := hi
  have h16 : (16 : Vaddr).toNat = 16 := rfl
  have hhead : (freeList (descAt descs i)).toNat = HeapPart.lo descs (.sentinels i) := by
    rw [freeList, BitVec.toNat_add, h.descAt_toNat hi, h16, HeapPart.lo]
    simp only [descBytes, DESC_MAX] at hrange ⊢
    omega
  refine ⟨hhead, ?_⟩
  rw [listTail, BitVec.toNat_add, hhead, h16, HeapPart.lo]
  simp only [descBytes, DESC_MAX] at hrange ⊢
  omega

/-- A node takes 16 bytes of its part. -/
theorem HeapLayout.node (h : HeapLayout descs arenas) (hP : P.Of arenas) {x : Vaddr} (hx : NodeOf descs x P) :
    (x.toNat = P.lo descs ∨ x.toNat = P.lo descs + 16) ∧ x.toNat + 16 ≤ P.hi descs := by
  cases hx with
  | @head i hx =>
    rw [hx, (h.sentinels_toNat hP).1]
    refine ⟨.inl rfl, ?_⟩
    simp only [HeapPart.lo, HeapPart.hi]
    omega
  | @tail i hx =>
    rw [hx, (h.sentinels_toNat hP).2]
    refine ⟨.inr rfl, ?_⟩
    simp only [HeapPart.lo, HeapPart.hi]
    omega
  | @slot A k hx =>
    have hok := h.ok A hP.1
    have hge := hok.slotSize_ge
    rw [hx, hok.slot_toNat hP.2]
    refine ⟨.inl rfl, ?_⟩
    simp only [HeapPart.hi]
    omega

theorem HeapLayout.part_bounds (h : HeapLayout descs arenas) (hP : P.Of arenas) :
    0 < P.lo descs ∧ P.hi descs ≤ 2 ^ 64 := by
  have hpos := h.pos
  have hrange := h.inRange
  cases hh : P.home with
  | none =>
    obtain ⟨hlo, hhi⟩ := HeapPart.desc_bounds descs hP hh
    omega
  | some A =>
    obtain ⟨hA, hlo, hhi⟩ := h.arena_bounds hP hh
    have hAr := (h.ok A hA).inRange
    have hAp := (h.ok A hA).pos
    omega

/-- A node is in one part. -/
theorem HeapLayout.node_unique (h : HeapLayout descs arenas) (hP : P.Of arenas) (hQ : Q.Of arenas) {x : Vaddr}
    (hxP : NodeOf descs x P) (hxQ : NodeOf descs x Q) : P = Q := by
  by_contra hne
  obtain ⟨hnP, hleP⟩ := h.node hP hxP
  obtain ⟨hnQ, hleQ⟩ := h.node hQ hxQ
  rcases h.parts hP hQ hne with hap | hap <;> omega

/-- **Sentinels and slots can be elements of lists.** -/
theorem HeapLayout.elems (h : HeapLayout descs arenas) : Elems (heapNodes descs arenas) where
  elem := by
    rintro x ⟨P, hP, hx⟩
    obtain ⟨hnat, hle⟩ := h.node hP hx
    obtain ⟨hlo, -⟩ := h.part_aligned hP
    obtain ⟨hpos, hrange⟩ := h.part_bounds hP
    exact ⟨by omega, by omega, by omega⟩
  apart := by
    rintro x ⟨P, hP, hx⟩ y ⟨Q, hQ, hy⟩ hne
    obtain ⟨hxn, hxle⟩ := h.node hP hx
    obtain ⟨hyn, hyle⟩ := h.node hQ hy
    by_cases hPQ : P = Q
    · subst hPQ
      have hne' : x.toNat ≠ y.toNat := fun hc => hne (BitVec.eq_of_toNat_eq hc)
      omega
    · rcases h.parts hP hQ hPQ with hap | hap <;> omega

/-- The words of a part are off the nodes of others. -/
theorem HeapLayout.words_offElems (h : HeapLayout descs arenas) (hP : P.Of arenas) {nodes : List Vaddr}
    (hnodes : ∀ x ∈ nodes, ∃ Q, Q.Of arenas ∧ NodeOf descs x Q ∧ Q ≠ P) : P.words descs ⊆ offElems nodes := by
  intro w hw x hx
  obtain ⟨Q, hQ, hxQ, hne⟩ := hnodes x hx
  have hoff := h.notMem_words hP hQ (Ne.symm hne) hw
  have hin : x ∈ heapNodes descs arenas := ⟨Q, hQ, hxQ⟩
  have hnext := (h.elems.elem x hin).wordNo_next
  obtain ⟨hnat, hle⟩ := h.node hQ hxQ
  constructor
  · rintro rfl
    exact hoff ((h.mem_words hQ).mpr (by omega))
  · rintro rfl
    rw [← hnext] at hoff
    refine hoff ((h.mem_words hQ).mpr ?_)
    have h8 : (8 : Vaddr).toNat = 8 := rfl
    have hrange := (h.part_bounds hQ).2
    rw [BitVec.toNat_add, h8]
    omega

end Layout

end Pintos
