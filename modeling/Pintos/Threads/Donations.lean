import Pintos.Kernel.ListSort
import Pintos.Threads.Interleave

/-!
# The donations of a thread in memory

`remove_donation` and `re_priority` of `threads/thread.c` on the links of the list. A thread is known
by its address, which is that of its page. The other fields of the threads are those of `Sys`.

* `removeDonation` — the loop goes on over the links of an element it has removed
* `rePriority` — the list is sorted first, the priorities may have changed since the insertions
-/

namespace Pintos.Donations

open Function Interleave

/-- `&t->donations`. The fields before it take 48 bytes. -/
def donationsList (t : Tid) : Vaddr := BitVec.ofNat 64 (t + 48)

/-- `&t->d_elem`. -/
def dElem (t : Tid) : Vaddr := BitVec.ofNat 64 (t + 112)

/-- `list_entry (e, struct thread, d_elem)`. -/
def donorOf (e : Vaddr) : Tid := (e - 112).toNat

def cmpDonationPriority (priority : Tid → Int) (a b : Vaddr) : Bool :=
  decide (priority (donorOf a) > priority (donorOf b))

/-- The loop of `remove_donation` from the element `e` on, for at most `n` rounds. -/
def removeLoop (waitOnLock : Tid → Option LockId) (lock : LockId) (tail : Vaddr) :
    Nat → PageMem → Vaddr → Except Panic PageMem
  | 0, _, _ => .error .disabled
  | n + 1, mem, e =>
    if e = tail then .ok mem
    else do
      let t := donorOf e
      let mem ← if waitOnLock t = some lock then mem.listRemove (dElem t) else .ok mem
      let e ← mem.listNext e
      removeLoop waitOnLock lock tail n mem e

def removeDonation (mem : PageMem) (m : Sys) (curr : Tid) (lock : LockId) (n : Nat) : Except Panic PageMem :=
  removeLoop m.waitOnLock lock (listTail (donationsList curr)) n mem (mem.listBegin (donationsList curr))

/-- `re_priority`: the links and the priorities. -/
def rePriority (mem : PageMem) (m : Sys) (curr : Tid) (n : Nat) : Except Panic (PageMem × (Tid → Int)) :=
  let priority := update m.priority curr (m.initPriority curr)
  if mem.listEmpty (donationsList curr) then .ok (mem, priority)
  else do
    let mem ← mem.listSort (donationsList curr) (cmpDonationPriority priority) n
    let e ← mem.listFront (donationsList curr)
    let front := donorOf e
    .ok (mem, if priority curr < priority front then update priority curr (priority front) else priority)

/-- What `lock_release (lock)` does to the donations and to the priority of its caller. -/
def giveBack (mem : PageMem) (m : Sys) (curr : Tid) (lock : LockId) (n : Nat) :
    Except Panic (PageMem × (Tid → Int)) := do
  let mem ← removeDonation mem m curr lock n
  rePriority mem m curr n

/-! ## Threads in memory -/

/-- The address can be that of a thread. -/
structure IsThread (t : Nat) : Prop where
  aligned : t % 4096 = 0
  pos : 0 < t
  inRange : t + 4096 ≤ 2 ^ 64

/-- The sentinels of the donations of `t`, and the `d_elem` of every thread. -/
def donationElems (t : Tid) : Set Vaddr :=
  {donationsList t, listTail (donationsList t)} ∪ {e | ∃ d : Nat, IsThread d ∧ e = dElem d}

section Layout

variable {t : Nat} {e : Vaddr}

theorem IsThread.donationsList_toNat (h : IsThread t) : (donationsList t).toNat = t + 48 := by
  have hr := h.inRange
  rw [donationsList, BitVec.toNat_ofNat]
  exact Nat.mod_eq_of_lt (by omega)

theorem IsThread.tail_toNat (h : IsThread t) : (listTail (donationsList t)).toNat = t + 64 := by
  have hr := h.inRange
  have h16 : (16 : Vaddr).toNat = 16 := rfl
  rw [listTail, BitVec.toNat_add, h.donationsList_toNat, h16]
  omega

theorem IsThread.dElem_toNat (h : IsThread t) : (dElem t).toNat = t + 112 := by
  have hr := h.inRange
  rw [dElem, BitVec.toNat_ofNat]
  exact Nat.mod_eq_of_lt (by omega)

theorem IsThread.donorOf_dElem (h : IsThread t) : donorOf (dElem t) = t := by
  have hr := h.inRange
  have h112 : (112 : Vaddr).toNat = 112 := rfl
  show (dElem t - 112).toNat = t
  rw [BitVec.toNat_sub, h.dElem_toNat, h112]
  omega

/-- What the elements of the set have in common: where they are in their page. -/
theorem mem_donationElems (ht : IsThread t) (he : e ∈ donationElems t) :
    e.toNat = t + 48 ∨ e.toNat = t + 64 ∨ ∃ d : Nat, IsThread d ∧ e.toNat = d + 112 := by
  rcases he with (rfl | rfl) | ⟨d, hd, rfl⟩
  · exact Or.inl ht.donationsList_toNat
  · exact Or.inr (Or.inl ht.tail_toNat)
  · exact Or.inr (Or.inr ⟨d, hd, hd.dElem_toNat⟩)

theorem elems_donationElems (ht : IsThread t) : Elems (donationElems t) where
  elem e he := by
    have ha := ht.aligned
    have hr := ht.inRange
    rcases mem_donationElems ht he with h | h | ⟨d, hd, h⟩
    · exact ⟨by omega, by omega, by omega⟩
    · exact ⟨by omega, by omega, by omega⟩
    · have hda := hd.aligned
      have hdr := hd.inRange
      exact ⟨by omega, by omega, by omega⟩
  apart a ha b hb hab := by
    have hta := ht.aligned
    have hne : a.toNat ≠ b.toNat := fun hc => hab (BitVec.eq_of_toNat_eq hc)
    rcases mem_donationElems ht ha with h | h | ⟨d, hd, h⟩ <;>
      rcases mem_donationElems ht hb with h' | h' | ⟨d', hd', h'⟩
    -- a pair of addresses at a time; those of two threads are in two pages
    · omega
    · omega
    · have hda := hd'.aligned
      omega
    · omega
    · omega
    · have hda := hd'.aligned
      omega
    · have hda := hd.aligned
      omega
    · have hda := hd.aligned
      omega
    · have hda := hd.aligned
      have hda' := hd'.aligned
      omega

theorem listNodes_subset {ds : List Tid} (hds : ∀ d ∈ ds, IsThread d) :
    ∀ x ∈ listNodes (donationsList t) (ds.map dElem), x ∈ donationElems t := by
  intro x hx
  simp only [listNodes, List.mem_cons, List.mem_append, List.mem_map, List.not_mem_nil, or_false] at hx
  rcases hx with rfl | ⟨d, hd, rfl⟩ | rfl
  · exact Or.inl (Or.inl rfl)
  · exact Or.inr ⟨d, hds d hd, rfl⟩
  · exact Or.inl (Or.inr rfl)

end Layout

end Pintos.Donations
