import Pintos.Kernel.LinkedList
import Pintos.Kernel.List

/-!
# `list_sort` on the links

The merge sort of `lib/kernel/list.c` by its loads and stores, with its assertions. Each loop of the
source has a number of rounds; with more rounds than the list has elements none of them runs out.

* `IsList.splice` — one element moves in front of another
* `IsList.inplaceMerge`, `IsList.sortPass`, `IsList.sort` — what the links spell afterwards is what
  the functions of `Pintos/Kernel/List.lean` give
-/

namespace Pintos

open LinkedList

namespace PageMem

def isHead (mem : PageMem) (e : Vaddr) : Bool := e ≠ 0 && mem.elemPrev e = 0 && mem.elemNext e ≠ 0

def listNext (mem : PageMem) (e : Vaddr) : Except Panic Vaddr :=
  if mem.isHead e || mem.isInterior e then .ok (mem.elemNext e) else .error .assertion

def listPrev (mem : PageMem) (e : Vaddr) : Except Panic Vaddr :=
  if mem.isInterior e || mem.isTail e then .ok (mem.elemPrev e) else .error .assertion

def listFront (mem : PageMem) (l : Vaddr) : Except Panic Vaddr :=
  if mem.listEmpty l then .error .assertion else .ok (mem.elemNext l)

def listSplice (mem : PageMem) (before first last : Vaddr) : Except Panic PageMem :=
  if ¬ (mem.isInterior before || mem.isTail before) then .error .assertion
  else if first = last then .ok mem
  else do
    let last ← mem.listPrev last
    if ¬ (mem.isInterior first && mem.isInterior last) then .error .assertion
    else
      let mem := mem.setNext (mem.elemPrev first) (mem.elemNext last)
      let mem := mem.setPrev (mem.elemNext last) (mem.elemPrev first)
      let mem := mem.setPrev first (mem.elemPrev before)
      let mem := mem.setNext last before
      let mem := mem.setNext (mem.elemPrev before) first
      .ok (mem.setPrev before last)

/-- The loop of `is_sorted`. -/
def isSortedLoop (mem : PageMem) (less : Vaddr → Vaddr → Bool) (b : Vaddr) :
    Nat → Vaddr → Except Panic Bool
  | 0, _ => .error .disabled
  | n + 1, a => do
    let a ← mem.listNext a
    if a = b then .ok true
    else do
      let p ← mem.listPrev a
      if less a p then .ok false else mem.isSortedLoop less b n a

def isSorted (mem : PageMem) (less : Vaddr → Vaddr → Bool) (n : Nat) (a b : Vaddr) :
    Except Panic Bool :=
  if a = b then .ok true else mem.isSortedLoop less b n a

/-- The loop of `find_end_of_run`. -/
def endOfRunLoop (mem : PageMem) (less : Vaddr → Vaddr → Bool) (b : Vaddr) :
    Nat → Vaddr → Except Panic Vaddr
  | 0, _ => .error .disabled
  | n + 1, a => do
    let a ← mem.listNext a
    if a = b then .ok a
    else do
      let p ← mem.listPrev a
      if less a p then .ok a else mem.endOfRunLoop less b n a

def findEndOfRun (mem : PageMem) (less : Vaddr → Vaddr → Bool) (n : Nat) (a b : Vaddr) :
    Except Panic Vaddr :=
  if a = b then .error .assertion else mem.endOfRunLoop less b n a

/-- The loop of `inplace_merge`. -/
def mergeLoop (less : Vaddr → Vaddr → Bool) (b1 : Vaddr) :
    Nat → PageMem → Vaddr → Vaddr → Except Panic PageMem
  | 0, _, _, _ => .error .disabled
  | n + 1, mem, a0, a1b0 =>
    if a0 = a1b0 ∨ a1b0 = b1 then .ok mem
    else if !less a1b0 a0 then do
      let a0 ← mem.listNext a0
      mergeLoop less b1 n mem a0 a1b0
    else do
      let a1b0 ← mem.listNext a1b0
      let p ← mem.listPrev a1b0
      let mem ← mem.listSplice a0 p a1b0
      mergeLoop less b1 n mem a0 a1b0

def inplaceMerge (mem : PageMem) (less : Vaddr → Vaddr → Bool) (n : Nat) (a0 a1b0 b1 : Vaddr) :
    Except Panic PageMem := do
  let s ← mem.isSorted less n a0 a1b0
  let s' ← mem.isSorted less n a1b0 b1
  if s && s' then mergeLoop less b1 n mem a0 a1b0 else .error .assertion

/-- The inner loop of `list_sort` from `a0` on; `cnt` is `output_run_cnt`. -/
def sortPass (l : Vaddr) (less : Vaddr → Vaddr → Bool) (n : Nat) :
    Nat → PageMem → Vaddr → Nat → Except Panic (PageMem × Nat)
  | 0, _, _, _ => .error .disabled
  | k + 1, mem, a0, cnt =>
    if a0 = listTail l then .ok (mem, cnt)
    else do
      let a1b0 ← mem.findEndOfRun less n a0 (listTail l)
      if a1b0 = listTail l then .ok (mem, cnt + 1)
      else do
        let b1 ← mem.findEndOfRun less n a1b0 (listTail l)
        let mem ← mem.inplaceMerge less n a0 a1b0 b1
        sortPass l less n k mem b1 (cnt + 1)

/-- The outer loop of `list_sort`. -/
def sortLoop (l : Vaddr) (less : Vaddr → Vaddr → Bool) (n : Nat) : Nat → PageMem → Except Panic PageMem
  | 0, _ => .error .disabled
  | k + 1, mem => do
    let out ← sortPass l less n n mem (mem.listBegin l) 0
    if 1 < out.2 then sortLoop l less n k out.1 else .ok out.1

def listSort (mem : PageMem) (l : Vaddr) (less : Vaddr → Vaddr → Bool) (n : Nat) :
    Except Panic PageMem := do
  let mem ← sortLoop l less n n mem
  let s ← mem.isSorted less n (mem.listBegin l) (listTail l)
  if s then .ok mem else .error .assertion

end PageMem

/-! ## Walking -/

section Walk

variable {mem mem' : PageMem} {N : Set Vaddr} {l e p n a b : Vaddr} {X Y l₁ l₂ P Q R : List Vaddr}
  {less : Vaddr → Vaddr → Bool}

/-- The element a sequence begins with, or the tail of the list. -/
def firstOf (l : Vaddr) (X : List Vaddr) : Vaddr := X.headD (listTail l)

@[simp] theorem firstOf_nil (l : Vaddr) : firstOf l [] = listTail l := rfl

@[simp] theorem firstOf_cons (l x : Vaddr) (X : List Vaddr) : firstOf l (x :: X) = x := rfl

/-- Behind an element there is the first one of the rest. -/
theorem listNodes_split_next (l : Vaddr) (P R : List Vaddr) (e : Vaddr) :
    ∃ l₁ l₂, listNodes l (P ++ e :: R) = l₁ ++ e :: firstOf l R :: l₂ := by
  refine ⟨l :: P, (R ++ [listTail l]).tail, ?_⟩
  cases R with
  | nil => simp [listNodes]
  | cons x R => simp [listNodes]

theorem IsList.next_eq (h : IsList mem l X) (hxs : listNodes l X = l₁ ++ p :: n :: l₂) :
    mem.elemNext p = n ∧ mem.elemPrev n = p := by
  have hlinked := h.linked
  rw [hxs] at hlinked
  exact (chained_append_cons_cons.mp hlinked).2.1

theorem IsList.listNext (h : IsList mem l (P ++ e :: R)) (hN : Elems N)
    (hsub : ∀ x ∈ listNodes l (P ++ e :: R), x ∈ N) : mem.listNext e = .ok (firstOf l R) := by
  obtain ⟨l₁, l₂, hsplit⟩ := listNodes_split_next l P R e
  obtain ⟨hnext, -⟩ := h.next_eq hsplit
  rw [hsplit] at hsub
  have he0 := (hN.elem e (hsub e (by simp))).ne_zero
  have hn0 := (hN.elem _ (hsub (firstOf l R) (by simp))).ne_zero
  have hguard : (mem.isHead e || mem.isInterior e) = true := by
    by_cases hp : mem.elemPrev e = 0#64 <;>
      simp [PageMem.isHead, PageMem.isInterior, hnext, he0, hn0, hp]
  rw [PageMem.listNext, if_pos hguard, hnext]

theorem IsList.isInterior (h : IsList mem l (P ++ e :: R)) (hN : Elems N)
    (hsub : ∀ x ∈ listNodes l (P ++ e :: R), x ∈ N) : mem.isInterior e = true := by
  obtain ⟨l₁, l₂, hsplit⟩ := listNodes_split_next l P R e
  obtain ⟨l₁', p, hp⟩ := exists_concat l P
  have hsplit' := listNodes_append hp (e :: R)
  obtain ⟨hnext, -⟩ := h.next_eq hsplit
  obtain ⟨-, hprev⟩ := h.next_eq hsplit'
  have he0 := (hN.elem e (hsub e (by rw [hsplit]; simp))).ne_zero
  have hn0 := (hN.elem _ (hsub (firstOf l R) (by rw [hsplit]; simp))).ne_zero
  have hp0 := (hN.elem p (hsub p (by rw [hsplit']; simp))).ne_zero
  simp [PageMem.isInterior, hnext, hprev, he0, hn0, hp0]

/-- Behind an element, `list_prev` comes back to it. -/
theorem IsList.listPrev (h : IsList mem l (P ++ e :: R)) (hN : Elems N)
    (hsub : ∀ x ∈ listNodes l (P ++ e :: R), x ∈ N) : mem.listPrev (firstOf l R) = .ok e := by
  obtain ⟨l₁, l₂, hsplit⟩ := listNodes_split_next l P R e
  obtain ⟨-, hprev⟩ := h.next_eq hsplit
  rw [hsplit] at hsub
  have he0 := (hN.elem e (hsub e (by simp))).ne_zero
  have hn0 := (hN.elem _ (hsub (firstOf l R) (by simp))).ne_zero
  have hguard : (mem.isInterior (firstOf l R) || mem.isTail (firstOf l R)) = true := by
    by_cases hn : mem.elemNext (firstOf l R) = 0#64 <;>
      simp [PageMem.isTail, PageMem.isInterior, hprev, he0, hn0, hn]
  rw [PageMem.listPrev, if_pos hguard, hprev]

/-- Two parts of a list that begin at different places begin with different elements. -/
theorem IsList.firstOf_ne (h : IsList mem l (P ++ e :: R ++ Y)) : e ≠ firstOf l Y := by
  have hnd := h.nodup
  rw [listNodes, List.append_assoc, List.append_assoc, List.cons_append] at hnd
  have htail : (e :: (R ++ (Y ++ [listTail l]))).Nodup :=
    (List.nodup_append.mp (List.nodup_cons.mp hnd).2).2.1
  have hmem : firstOf l Y ∈ R ++ (Y ++ [listTail l]) := by
    cases Y with
    | nil => simp
    | cons y Y => simp
  intro hc
  rw [hc] at htail
  exact (List.nodup_cons.mp htail).1 hmem

/-- `list_remove` leaves the links of the element it removes. -/
theorem listRemove_self (hN : Elems N) (he : e ∈ N) (hp : mem.elemPrev e ∈ N) (hn : mem.elemNext e ∈ N)
    (hpe : mem.elemPrev e ≠ e) (hne : mem.elemNext e ≠ e) (hrem : mem.listRemove e = .ok mem') :
    mem'.elemNext e = mem.elemNext e ∧ mem'.elemPrev e = mem.elemPrev e := by
  rw [PageMem.listRemove] at hrem
  split at hrem
  · cases hrem
  · rw [← Except.ok.inj hrem, elemNext_setNext hN hp he, if_neg hpe, elemPrev_setNext hN hp he,
      elemNext_setPrev hN hn he, elemNext_setNext hN hp he, if_neg hpe, elemPrev_setPrev hN hn he,
      if_neg hne, elemPrev_setNext hN hp he]
    exact ⟨rfl, rfl⟩

/-- **A removed element still leads to the one behind it.** -/
theorem IsList.removeStale (h : IsList mem l (P ++ e :: R)) (hN : Elems N)
    (hsub : ∀ x ∈ listNodes l (P ++ e :: R), x ∈ N) :
    ∃ mem', mem.listRemove e = .ok mem' ∧ IsList mem' l (P ++ R) ∧
      mem'.listNext e = .ok (firstOf l R) := by
  have hnd := h.nodup
  have hpre : e ∉ P := by
    rw [listNodes, List.append_assoc] at hnd
    intro hc
    exact (List.nodup_append.mp (List.nodup_cons.mp hnd).2).2.2 e hc e (by simp) rfl
  obtain ⟨mem', hrem, hlist, -⟩ := h.remove hN hsub (e := e) (by simp)
  rw [List.erase_append_right _ hpre, List.erase_cons_head] at hlist
  refine ⟨mem', hrem, hlist, ?_⟩
  -- the links of `e` are those from before
  obtain ⟨l₁, p, hp⟩ := exists_concat l P
  obtain ⟨l₁', l₂', hsplit'⟩ := listNodes_split_next l P R e
  have hsplit := listNodes_append hp (e :: R)
  obtain ⟨hnext, -⟩ := h.next_eq hsplit'
  obtain ⟨-, hprev⟩ := h.next_eq hsplit
  have heN : e ∈ N := hsub e (by rw [hsplit]; simp)
  have hpN : p ∈ N := hsub p (by rw [hsplit]; simp)
  have hnN : firstOf l R ∈ N := hsub _ (by rw [hsplit']; simp)
  rw [hsplit] at hnd
  have hpe : p ≠ e := (nodup_gap hnd).2.2.1
  have hne : firstOf l R ≠ e := Ne.symm (IsList.firstOf_ne (R := []) (by simpa using h))
  obtain ⟨hnext', hprev'⟩ :=
    listRemove_self hN heN (hprev ▸ hpN) (hnext ▸ hnN) (hprev ▸ hpe) (hnext ▸ hne) hrem
  have hinterior := h.isInterior hN hsub
  have hinterior' : mem'.isInterior e = true := by
    rw [PageMem.isInterior, hnext', hprev']
    exact hinterior
  rw [PageMem.listNext, hinterior', Bool.or_true, if_pos rfl, hnext', hnext]

/-! ## Runs -/

/-- `is_sorted` of a part of the list that has no descent. -/
theorem IsList.isSortedLoop (hN : Elems N) : ∀ {n : Nat} {P : List Vaddr} {a : Vaddr} {S Q : List Vaddr},
    IsList mem l (P ++ a :: (S ++ Q)) → (∀ x ∈ listNodes l (P ++ a :: (S ++ Q)), x ∈ N) →
    descents less (a :: S) = 0 → S.length < n →
    mem.isSortedLoop less (firstOf l Q) n a = .ok true
  | 0, _, _, _, _, _, _, _, hn => absurd hn (Nat.not_lt_zero _)
  | n + 1, P, a, [], Q, h, hsub, _, _ => by
    rw [PageMem.isSortedLoop, h.listNext hN hsub]
    exact if_pos rfl
  | n + 1, P, a, b :: S, Q, h, hsub, hd, hn => by
    have hprev := h.listPrev hN hsub
    have hassoc : P ++ a :: (b :: S ++ Q) = (P ++ [a]) ++ b :: (S ++ Q) := by simp
    have hne : b ≠ firstOf l Q := by
      rw [hassoc] at h
      exact IsList.firstOf_ne (P := P ++ [a]) (R := S) (by simpa using h)
    rw [descents] at hd
    have hba : ¬ less b a = true := by
      intro hc
      rw [if_pos hc] at hd
      omega
    rw [if_neg hba, Nat.zero_add] at hd
    have ih := IsList.isSortedLoop hN (n := n) (P := P ++ [a]) (a := b) (S := S) (Q := Q)
      (hassoc ▸ h) (hassoc ▸ hsub) hd (by simpa using hn)
    rw [PageMem.isSortedLoop, h.listNext hN hsub]
    simp only [List.cons_append, firstOf_cons] at hprev ⊢
    show (if b = firstOf l Q then _ else _) = _
    rw [if_neg hne, hprev]
    show (if less b a = true then _ else _) = _
    rw [if_neg hba, ih]

theorem IsList.isSorted (h : IsList mem l (P ++ Y ++ Q)) (hN : Elems N)
    (hsub : ∀ x ∈ listNodes l (P ++ Y ++ Q), x ∈ N) (hd : descents less Y = 0) {n : Nat}
    (hn : Y.length ≤ n) : mem.isSorted less n (firstOf l (Y ++ Q)) (firstOf l Q) = .ok true := by
  cases Y with
  | nil => simp [PageMem.isSorted]
  | cons a S =>
    have hassoc : P ++ a :: S ++ Q = P ++ a :: (S ++ Q) := by simp
    have hne := h.firstOf_ne
    rw [hassoc] at h hsub
    have hloop := IsList.isSortedLoop hN h hsub hd (n := n) hn
    rw [PageMem.isSorted, List.cons_append, firstOf_cons, if_neg hne]
    exact hloop

/-- `find_end_of_run` finds what `findEndOfRun` leaves. -/
theorem IsList.endOfRunLoop (hN : Elems N) : ∀ {n : Nat} {P : List Vaddr} {a : Vaddr} {R : List Vaddr},
    IsList mem l (P ++ a :: R) → (∀ x ∈ listNodes l (P ++ a :: R), x ∈ N) →
    R.length < n →
    mem.endOfRunLoop less (listTail l) n a = .ok (firstOf l (Pintos.findEndOfRun less a R).2)
  | 0, _, _, _, _, _, hn => absurd hn (Nat.not_lt_zero _)
  | n + 1, P, a, [], h, hsub, _ => by
    rw [PageMem.endOfRunLoop, h.listNext hN hsub]
    exact if_pos rfl
  | n + 1, P, a, b :: R, h, hsub, hn => by
    have hprev := h.listPrev hN hsub
    have hassoc : P ++ a :: b :: R = (P ++ [a]) ++ b :: R := by simp
    have hne : b ≠ listTail l := by
      rw [hassoc] at h
      exact IsList.firstOf_ne (P := P ++ [a]) (R := R) (Y := []) (by simpa using h)
    have ih := IsList.endOfRunLoop hN (n := n) (P := P ++ [a]) (a := b) (R := R)
      (hassoc ▸ h) (hassoc ▸ hsub) (by simpa using hn)
    rw [PageMem.endOfRunLoop, h.listNext hN hsub, Pintos.findEndOfRun]
    simp only [firstOf_cons] at hprev ⊢
    show (if b = listTail l then _ else _) = _
    rw [if_neg hne, hprev]
    show (if less b a = true then _ else _) = _
    split
    · rfl
    · exact ih

theorem IsList.findEndOfRun (less : Vaddr → Vaddr → Bool) (h : IsList mem l (P ++ a :: R)) (hN : Elems N)
    (hsub : ∀ x ∈ listNodes l (P ++ a :: R), x ∈ N) {n : Nat} (hn : R.length < n) :
    mem.findEndOfRun less n a (listTail l) = .ok (firstOf l (Pintos.findEndOfRun less a R).2) := by
  have hne : a ≠ listTail l := IsList.firstOf_ne (P := P) (R := R) (Y := []) (by simpa using h)
  rw [PageMem.findEndOfRun, if_neg hne, IsList.endOfRunLoop hN h hsub hn]

/-! ## Merging -/

theorem listNodes_perm (h : X.Perm Y) : (listNodes l X).Perm (listNodes l Y) :=
  (h.append_right [listTail l]).cons l

theorem offElems_perm (h : X.Perm Y) : offElems (listNodes l X) = offElems (listNodes l Y) := by
  simp only [offElems, (listNodes_perm h).mem_iff]

/-- **`list_splice`** of one element, in front of one before it. -/
theorem IsList.splice {A B : List Vaddr} (h : IsList mem l (P ++ a :: A ++ b :: B)) (hN : Elems N)
    (hsub : ∀ x ∈ listNodes l (P ++ a :: A ++ b :: B), x ∈ N) :
    ∃ mem', mem.listSplice a b (firstOf l B) = .ok mem' ∧ IsList mem' l (P ++ b :: a :: A ++ B) ∧
      Agree (offElems (listNodes l (P ++ a :: A ++ b :: B))) mem mem' := by
  have hb : IsList mem l ((P ++ a :: A) ++ b :: B) := h
  have hassoc : P ++ a :: A ++ b :: B = P ++ a :: (A ++ b :: B) := by simp
  have hbi := hb.isInterior hN hsub
  have hprev := hb.listPrev hN hsub
  have hne : b ≠ firstOf l B :=
    IsList.firstOf_ne (P := P ++ a :: A) (R := []) (Y := B) (by simpa using h)
  have hai : mem.isInterior a = true := by
    rw [hassoc] at h hsub
    exact h.isInterior hN hsub
  -- out of the list
  obtain ⟨l₁, p, hp⟩ := exists_concat l (P ++ a :: A)
  obtain ⟨n, l₂, hn⟩ := List.exists_cons_of_ne_nil (l := B ++ [listTail l]) (by simp)
  have hcut : listNodes l (P ++ a :: A ++ b :: B) = l₁ ++ p :: b :: n :: l₂ := by
    rw [listNodes_append hp, List.cons_append, hn]
  have hcut' : listNodes l (P ++ a :: A ++ B) = l₁ ++ p :: n :: l₂ := by
    rw [listNodes_append hp, hn]
  obtain ⟨mem₁, hrem, h₁, hagree₁⟩ := h.cut hN hsub hcut hcut'
  -- and in again
  have hsub₁ : ∀ x ∈ listNodes l (P ++ a :: A ++ B), x ∈ N := by
    intro x hx
    rw [hcut'] at hx
    refine hsub x ?_
    rw [hcut]
    simp only [List.mem_append, List.mem_cons] at hx ⊢
    tauto
  have hbN : b ∈ N := hsub b (by simp [listNodes])
  have hnew : b ∉ listNodes l (P ++ a :: A ++ B) := by
    have hnd := h.nodup
    rw [hcut] at hnd
    rw [hcut']
    have hperm : (l₁ ++ p :: b :: n :: l₂).Perm (b :: (l₁ ++ p :: n :: l₂)) := by
      have hmid : (l₁ ++ [p] ++ b :: n :: l₂).Perm (b :: (l₁ ++ [p] ++ n :: l₂)) := List.perm_middle
      simpa using hmid
    exact (List.nodup_cons.mp (hperm.nodup_iff.mp hnd)).1
  obtain ⟨l₃, q, hq⟩ := exists_concat l P
  have hins : listNodes l (P ++ a :: A ++ B) = l₃ ++ q :: a :: (A ++ B ++ [listTail l]) := by
    rw [List.append_assoc, listNodes_append hq]
    simp
  have hins' : listNodes l (P ++ b :: a :: A ++ B) = l₃ ++ q :: b :: a :: (A ++ B ++ [listTail l]) := by
    rw [List.append_assoc, listNodes_append hq]
    simp
  obtain ⟨mem₂, hinsert, h₂, hagree₂⟩ := h₁.insert hN hsub₁ hbN hnew hins hins'
  refine ⟨mem₂, ?_, h₂, ?_⟩
  · -- the stores of `list_splice` are those of the two
    rw [PageMem.listRemove, if_neg (by simp [hbi])] at hrem
    rw [PageMem.listInsert] at hinsert
    split at hinsert
    · cases hinsert
    · rw [← Except.ok.inj hrem] at hinsert
      rw [PageMem.listSplice, if_neg (by simp [hai]), if_neg hne, hprev]
      show (if ¬ (mem.isInterior b && mem.isInterior b) = true then _ else _) = _
      rw [if_neg (by simp [hbi])]
      exact hinsert
  · refine hagree₁.trans ?_
    have hperm : (P ++ b :: a :: A ++ B).Perm (P ++ a :: A ++ b :: B) := by
      have hmid : (P ++ a :: A ++ b :: B).Perm (b :: (P ++ a :: A ++ B)) := List.perm_middle
      have hmid' : (P ++ b :: (a :: A ++ B)).Perm (b :: (P ++ (a :: A ++ B))) := List.perm_middle
      simpa using hmid'.trans (by simpa using hmid.symm)
    rw [← offElems_perm hperm]
    exact hagree₂

/-- The loop of `inplace_merge`, behind the elements it has put in order. -/
theorem IsList.mergeLoop (less : Vaddr → Vaddr → Bool) (hN : Elems N) :
    ∀ {n : Nat} {mem : PageMem} {P A B Q : List Vaddr},
    IsList mem l (P ++ A ++ B ++ Q) → (∀ x ∈ listNodes l (P ++ A ++ B ++ Q), x ∈ N) →
    A.length + B.length < n →
    ∃ mem', PageMem.mergeLoop less (firstOf l Q) n mem (firstOf l (A ++ B ++ Q))
        (firstOf l (B ++ Q)) = .ok mem' ∧
      IsList mem' l (P ++ Pintos.inplaceMerge less A B ++ Q) ∧
      Agree (offElems (listNodes l (P ++ A ++ B ++ Q))) mem mem'
  | 0, _, _, _, _, _, _, _, hn => absurd hn (Nat.not_lt_zero _)
  | n + 1, mem, P, [], B, Q, h, _, _ => by
    refine ⟨mem, ?_, ?_, Agree.refl _ _⟩
    · rw [PageMem.mergeLoop, List.nil_append, if_pos (Or.inl rfl)]
    · rw [Pintos.inplaceMerge, List.nil_merge]
      simpa using h
  | n + 1, mem, P, a :: A, [], Q, h, _, _ => by
    refine ⟨mem, ?_, ?_, Agree.refl _ _⟩
    · rw [PageMem.mergeLoop, List.nil_append, if_pos (Or.inr rfl)]
    · rw [Pintos.inplaceMerge, List.merge_right]
      simpa using h
  | n + 1, mem, P, a :: A, b :: B, Q, h, hsub, hn => by
    have hab : a ≠ b :=
      IsList.firstOf_ne (P := P) (R := A) (Y := b :: (B ++ Q)) (by simpa using h)
    have hbp : b ≠ firstOf l Q :=
      IsList.firstOf_ne (P := P ++ a :: A) (R := B) (Y := Q) (by simpa using h)
    have hguard : ¬ (firstOf l (a :: A ++ b :: B ++ Q) = firstOf l (b :: B ++ Q) ∨
        firstOf l (b :: B ++ Q) = firstOf l Q) := not_or.mpr ⟨hab, hbp⟩
    rw [Pintos.inplaceMerge, List.cons_merge_cons, PageMem.mergeLoop, if_neg hguard]
    show ∃ mem', (if (!less b a) = true then _ else _) = _ ∧ _
    by_cases hba : (!less b a) = true
    · -- `a` stays in front
      have hassoc : P ++ a :: A ++ b :: B ++ Q = P ++ a :: (A ++ b :: B ++ Q) := by simp
      have hassoc' : P ++ a :: A ++ b :: B ++ Q = (P ++ [a]) ++ A ++ b :: B ++ Q := by simp
      have hnext := IsList.listNext (hassoc ▸ h) hN (hassoc ▸ hsub)
      rw [hassoc'] at h hsub ⊢
      obtain ⟨mem', hloop, hlist, hagree⟩ :=
        IsList.mergeLoop less hN h hsub (n := n) (by simp only [List.length_cons] at hn ⊢; omega)
      refine ⟨mem', ?_, ?_, hagree⟩
      · rw [if_pos hba]
        show (mem.listNext a >>= fun a0 => _) = _
        rw [hnext]
        exact hloop
      · rw [if_pos hba]
        rw [Pintos.inplaceMerge] at hlist
        simpa using hlist
    · -- `b` moves in front of `a`
      have hassoc : P ++ a :: A ++ b :: B ++ Q = P ++ a :: A ++ b :: (B ++ Q) := by simp
      rw [hassoc] at h hsub ⊢
      have hnext := IsList.listNext h hN hsub
      have hprev := IsList.listPrev h hN hsub
      obtain ⟨mem₁, hsplice, h₁, hagree₁⟩ := h.splice hN hsub
      have hassoc₁ : P ++ b :: a :: A ++ (B ++ Q) = (P ++ [b]) ++ a :: A ++ B ++ Q := by simp
      have hperm : (P ++ b :: a :: A ++ (B ++ Q)).Perm (P ++ a :: A ++ b :: (B ++ Q)) := by
        have hmid : (P ++ a :: A ++ b :: (B ++ Q)).Perm (b :: (P ++ a :: A ++ (B ++ Q))) :=
          List.perm_middle
        have hmid' : (P ++ b :: (a :: A ++ (B ++ Q))).Perm
            (b :: (P ++ (a :: A ++ (B ++ Q)))) := List.perm_middle
        simpa using hmid'.trans (by simpa using hmid.symm)
      have hsub₁ : ∀ x ∈ listNodes l (P ++ b :: a :: A ++ (B ++ Q)), x ∈ N :=
        fun x hx => hsub x ((listNodes_perm hperm).mem_iff.mp hx)
      rw [← offElems_perm hperm] at hagree₁ ⊢
      rw [hassoc₁] at h₁ hsub₁ hagree₁ ⊢
      obtain ⟨mem', hloop, hlist, hagree⟩ :=
        IsList.mergeLoop less hN h₁ hsub₁ (n := n) (by simp only [List.length_cons] at hn ⊢; omega)
      refine ⟨mem', ?_, ?_, hagree₁.trans hagree⟩
      · rw [if_neg hba]
        show (mem.listNext b >>= fun a1b0 => _) = _
        rw [hnext]
        show (mem.listPrev (firstOf l (B ++ Q)) >>= fun p => _) = _
        rw [hprev]
        show (mem.listSplice a b (firstOf l (B ++ Q)) >>= fun mem => _) = _
        rw [hsplice]
        exact hloop
      · rw [if_neg hba]
        rw [Pintos.inplaceMerge] at hlist
        simpa using hlist

/-- **`inplace_merge`** of two neighbouring runs. -/
theorem IsList.inplaceMerge {A B : List Vaddr} (h : IsList mem l (P ++ A ++ B ++ Q)) (hN : Elems N)
    (hsub : ∀ x ∈ listNodes l (P ++ A ++ B ++ Q), x ∈ N) (hA : descents less A = 0)
    (hB : descents less B = 0) {n : Nat} (hn : A.length + B.length < n) :
    ∃ mem', mem.inplaceMerge less n (firstOf l (A ++ B ++ Q)) (firstOf l (B ++ Q))
        (firstOf l Q) = .ok mem' ∧
      IsList mem' l (P ++ Pintos.inplaceMerge less A B ++ Q) ∧
      Agree (offElems (listNodes l (P ++ A ++ B ++ Q))) mem mem' := by
  obtain ⟨mem', hloop, hlist, hagree⟩ := IsList.mergeLoop less hN h hsub hn
  have hassoc : P ++ A ++ B ++ Q = P ++ A ++ (B ++ Q) := by simp
  have hs₁ : mem.isSorted less n (firstOf l (A ++ B ++ Q)) (firstOf l (B ++ Q)) = .ok true := by
    rw [List.append_assoc]
    exact IsList.isSorted (hassoc ▸ h) hN (hassoc ▸ hsub) hA (by omega)
  have hs₂ : mem.isSorted less n (firstOf l (B ++ Q)) (firstOf l Q) = .ok true :=
    IsList.isSorted (P := P ++ A) h hN hsub hB (by omega)
  refine ⟨mem', ?_, hlist, hagree⟩
  rw [PageMem.inplaceMerge, hs₁, hs₂]
  exact hloop

/-! ## The passes -/

/-- **A pass of `list_sort`**, behind the runs it has put out. -/
theorem IsList.sortPass (less : Vaddr → Vaddr → Bool) (hN : Elems N) {n : Nat} :
    ∀ {f k c : Nat} {mem : PageMem} {P Y : List Vaddr},
    IsList mem l (P ++ Y) → (∀ x ∈ listNodes l (P ++ Y), x ∈ N) → Y.length ≤ f →
    Y.length < k → Y.length < n →
    ∃ mem', PageMem.sortPass l less n k mem (firstOf l Y) c =
        .ok (mem', c + (Pintos.sortPass less f Y).2) ∧
      IsList mem' l (P ++ (Pintos.sortPass less f Y).1) ∧
      Agree (offElems (listNodes l (P ++ Y))) mem mem'
  | _, 0, _, _, _, _, _, _, _, hk, _ => absurd hk (Nat.not_lt_zero _)
  | f, k + 1, c, mem, P, [], h, _, _, _, _ => by
    have hnil : Pintos.sortPass less f [] = ([], 0) := by cases f <;> rfl
    refine ⟨mem, ?_, by rw [hnil]; exact h, Agree.refl _ _⟩
    rw [PageMem.sortPass, if_pos (firstOf_nil l), hnil]
    rfl
  | 0, _ + 1, _, _, _, a :: Y, _, _, hfuel, _, _ => absurd hfuel (Nat.not_succ_le_zero _)
  | f + 1, k + 1, c, mem, P, a :: Y, h, hsub, hfuel, hk, hn => by
    have ha : a ≠ listTail l := IsList.firstOf_ne (P := P) (R := Y) (Y := []) (by simpa using h)
    have hfind := h.findEndOfRun less hN hsub (n := n) (Nat.lt_of_succ_lt hn)
    have happ := findEndOfRun_append less a Y
    obtain ⟨hrun, -⟩ := descents_findEndOfRun less a Y
    rw [PageMem.sortPass, firstOf_cons, if_neg ha, hfind, Pintos.sortPass]
    generalize hf : Pintos.findEndOfRun less a Y = r at happ hrun ⊢
    obtain ⟨A, R⟩ := r
    dsimp only at happ hrun ⊢
    cases R with
    | nil =>
      rw [List.append_nil] at happ
      subst happ
      exact ⟨mem, if_pos rfl, h, Agree.refl _ _⟩
    | cons b Y' =>
      have happ' := findEndOfRun_append less b Y'
      obtain ⟨hrun', -⟩ := descents_findEndOfRun less b Y'
      have hlen := congrArg List.length happ
      have hlen' := congrArg List.length happ'
      simp only [List.length_append, List.length_cons] at hlen hlen' hfuel hk hn
      rw [← happ] at h hsub ⊢
      have hassoc : P ++ (A ++ b :: Y') = (P ++ A) ++ b :: Y' := by simp
      have hb : b ≠ listTail l :=
        IsList.firstOf_ne (P := P ++ A) (R := Y') (Y := []) (by simpa using h)
      have hfind' := IsList.findEndOfRun less (hassoc ▸ h) hN (hassoc ▸ hsub) (n := n) (by omega)
      dsimp only
      generalize Pintos.findEndOfRun less b Y' = r' at happ' hrun' hlen' hfind' ⊢
      obtain ⟨B, R'⟩ := r'
      dsimp only at happ' hrun' hlen' hfind' ⊢
      have hApos : A ≠ [] := by
        rintro rfl
        have hz := congrArg Prod.fst hf
        cases Y with
        | nil => cases hz
        | cons c Y =>
          rw [Pintos.findEndOfRun] at hz
          split at hz <;> cases hz
      have hA := List.length_pos_iff.mpr hApos
      have hnodes : P ++ (A ++ b :: Y') = P ++ A ++ B ++ R' := by
        rw [← happ']
        simp
      rw [hnodes] at h hsub ⊢
      obtain ⟨mem₁, hmerge, h₁, hagree₁⟩ := h.inplaceMerge hN hsub hrun hrun' (n := n) (by omega)
      have hperm : (P ++ Pintos.inplaceMerge less A B ++ R').Perm (P ++ A ++ B ++ R') := by
        have hm := ((inplaceMerge_perm less A B).append_left P).append_right R'
        simpa using hm
      have hsub₁ : ∀ x ∈ listNodes l (P ++ Pintos.inplaceMerge less A B ++ R'), x ∈ N :=
        fun x hx => hsub x ((listNodes_perm hperm).mem_iff.mp hx)
      obtain ⟨mem', hpass, hlist, hagree⟩ := IsList.sortPass less hN (n := n) (f := f) (k := k)
        (c := c + 1) h₁ hsub₁ (by omega) (by omega) (by omega)
      rw [← offElems_perm hperm] at hagree₁ ⊢
      refine ⟨mem', ?_, by simpa using hlist, hagree₁.trans hagree⟩
      have hfirst : firstOf l (B ++ R') = b := by rw [happ', firstOf_cons]
      have hfirst' : firstOf l (A ++ B ++ R') = a := by
        rw [List.append_assoc, happ', happ, firstOf_cons]
      rw [hfirst, hfirst'] at hmerge
      show (if b = listTail l then _ else _) = _
      rw [if_neg hb]
      show (mem.findEndOfRun less n b (listTail l) >>= fun b1 => _) = _
      rw [hfind']
      show (mem.inplaceMerge less n a b (firstOf l R') >>= fun mem => _) = _
      rw [hmerge]
      show PageMem.sortPass l less n k mem₁ (firstOf l R') (c + 1) = _
      rw [hpass]
      congr 2
      omega

variable {β : Type*} [LinearOrder β] {key : Vaddr → β}

/-- The passes of `list_sort`. -/
theorem IsList.sortLoop (hless : ByKey less key) (hN : Elems N) {n : Nat} :
    ∀ {f k : Nat} {mem : PageMem} {X : List Vaddr}, IsList mem l X →
    (∀ x ∈ listNodes l X, x ∈ N) → descents less X ≤ f → f < k → X.length < n →
    ∃ mem', PageMem.sortLoop l less n k mem = .ok mem' ∧
      IsList mem' l (Pintos.sortLoop less f X) ∧ Agree (offElems (listNodes l X)) mem mem'
  | _, 0, _, _, _, _, _, hk, _ => absurd hk (Nat.not_lt_zero _)
  | 0, k + 1, mem, X, h, hsub, hd, _, hn => by
    obtain ⟨mem', hpass, hlist, hagree⟩ := IsList.sortPass less hN (n := n) (f := X.length)
      (k := n) (c := 0) (P := []) h hsub (Nat.le_refl _) hn hn
    obtain ⟨hsame, hcnt⟩ := sortPass_of_sorted (Nat.le_zero.mp hd)
    rw [List.nil_append, hsame] at hlist
    refine ⟨mem', ?_, hlist, hagree⟩
    have hbegin : mem.listBegin l = firstOf l X := by
      rw [h.begin]
      cases X <;> rfl
    rw [PageMem.sortLoop, hbegin, hpass]
    exact if_neg (by omega)
  | f + 1, k + 1, mem, X, h, hsub, hd, hk, hn => by
    obtain ⟨mem₁, hpass, hlist, hagree⟩ := IsList.sortPass less hN (n := n) (f := X.length)
      (k := n) (c := 0) (P := []) h hsub (Nat.le_refl _) hn hn
    have hbegin : mem.listBegin l = firstOf l X := by
      rw [h.begin]
      cases X <;> rfl
    have hperm := sortPass_perm less X.length X
    rw [List.nil_append] at hlist
    rw [PageMem.sortLoop, hbegin, hpass, Pintos.sortLoop, Nat.zero_add]
    show ∃ mem', (if 1 < (Pintos.sortPass less X.length X).2 then _ else _) = _ ∧ _
    by_cases hcnt : 1 < (Pintos.sortPass less X.length X).2
    · have hne : X ≠ [] := by
        rintro rfl
        exact absurd hcnt (Nat.not_lt_zero 1)
      obtain ⟨hruns, hle⟩ := hless.sortPass X.length X (Nat.le_refl _) hne
      have hsub₁ : ∀ x ∈ listNodes l (Pintos.sortPass less X.length X).1, x ∈ N :=
        fun x hx => hsub x ((listNodes_perm hperm).mem_iff.mp hx)
      obtain ⟨mem', hloop, hlist', hagree'⟩ := IsList.sortLoop hless hN (n := n) (f := f) (k := k)
        hlist hsub₁ (by omega) (by omega) (by rw [hperm.length_eq]; exact hn)
      rw [offElems_perm hperm] at hagree'
      rw [if_pos hcnt]
      exact ⟨mem', hloop, by simpa [hcnt] using hlist', hagree.trans hagree'⟩
    · rw [if_neg hcnt]
      exact ⟨mem₁, rfl, by simpa [hcnt] using hlist, hagree⟩

/-- **`list_sort`** passes its assertions and leaves the elements in the order of `listSort`. -/
theorem IsList.sort (h : IsList mem l X) (hless : ByKey less key) (hN : Elems N)
    (hsub : ∀ x ∈ listNodes l X, x ∈ N) {n : Nat} (hn : X.length < n) :
    ∃ mem', mem.listSort l less n = .ok mem' ∧ IsList mem' l (Pintos.listSort less X) ∧
      Agree (offElems (listNodes l X)) mem mem' := by
  obtain ⟨mem', hloop, hlist, hagree⟩ := IsList.sortLoop hless hN (n := n) (f := X.length) (k := n)
    h hsub (descents_le_length less X) hn hn
  have hperm := listSort_perm less X
  have hsub' : ∀ x ∈ listNodes l (Pintos.listSort less X), x ∈ N :=
    fun x hx => hsub x ((listNodes_perm hperm).mem_iff.mp hx)
  have hbegin : mem'.listBegin l = firstOf l (Pintos.listSort less X) := by
    rw [hlist.begin, Pintos.listSort]
    cases Pintos.sortLoop less X.length X <;> rfl
  have hsorted : mem'.isSorted less n (firstOf l (Pintos.listSort less X)) (listTail l) = .ok true := by
    have happ : [] ++ Pintos.listSort less X ++ [] = Pintos.listSort less X := List.append_nil _
    have hlist' : IsList mem' l ([] ++ Pintos.listSort less X ++ []) := happ.symm ▸ hlist
    have hs := hlist'.isSorted hN (happ.symm ▸ hsub') (hless.pairwise.mpr (hless.listSort X)) (n := n)
      (by rw [hperm.length_eq]; omega)
    rwa [List.append_nil, firstOf_nil] at hs
  refine ⟨mem', ?_, hlist, hagree⟩
  rw [PageMem.listSort, hloop]
  show (mem'.isSorted less n (mem'.listBegin l) (listTail l) >>= fun s => _) = _
  rw [hbegin, hsorted]
  rfl

end Walk

end Pintos
