import Pintos.Lib.LinkedList
import Pintos.Threads.Words

/-!
# Lists of `lib/kernel/list.c` in memory

The functions on `struct list` and `struct list_elem`, by their loads and stores. An element is known
by its address; the sentinels are the elements `head` and `tail` of the list itself.

* `IsList mem l xs` — the list at `l` has the elements `xs`
* `IsList.attach`, `IsList.detach` — a range of elements comes into a list, or goes
* `IsList.pushFront`, `IsList.pushBack`, `IsList.popFront`, `IsList.remove` — no assertion fails, and
  the elements are those of the sequence
-/

namespace Pintos

open LinkedList

/-- `&list->tail`. The head is at the address of the list. -/
def listTail (l : Vaddr) : Vaddr := l + 16

namespace PageMem

def elemPrev (mem : PageMem) (e : Vaddr) : Vaddr := mem.loadWord e

def elemNext (mem : PageMem) (e : Vaddr) : Vaddr := mem.loadWord (e + 8)

def setPrev (mem : PageMem) (e prev : Vaddr) : PageMem := mem.storeWord e prev

def setNext (mem : PageMem) (e next : Vaddr) : PageMem := mem.storeWord (e + 8) next

def isInterior (mem : PageMem) (e : Vaddr) : Bool := e ≠ 0 && mem.elemPrev e ≠ 0 && mem.elemNext e ≠ 0

def isTail (mem : PageMem) (e : Vaddr) : Bool := e ≠ 0 && mem.elemPrev e ≠ 0 && mem.elemNext e = 0

def listInit (mem : PageMem) (l : Vaddr) : PageMem :=
  let mem := mem.setPrev l 0
  let mem := mem.setNext l (listTail l)
  let mem := mem.setPrev (listTail l) l
  mem.setNext (listTail l) 0

def listBegin (mem : PageMem) (l : Vaddr) : Vaddr := mem.elemNext l

def listEmpty (mem : PageMem) (l : Vaddr) : Bool := mem.listBegin l = listTail l

def listInsert (mem : PageMem) (before elem : Vaddr) : Except Panic PageMem :=
  if ¬ (mem.isInterior before || mem.isTail before) ∨ elem = 0 then .error .assertion
  else
    let mem := mem.setPrev elem (mem.elemPrev before)
    let mem := mem.setNext elem before
    let mem := mem.setNext (mem.elemPrev before) elem
    .ok (mem.setPrev before elem)

def listPushFront (mem : PageMem) (l elem : Vaddr) : Except Panic PageMem :=
  mem.listInsert (mem.listBegin l) elem

def listPushBack (mem : PageMem) (l elem : Vaddr) : Except Panic PageMem :=
  mem.listInsert (listTail l) elem

def listRemove (mem : PageMem) (elem : Vaddr) : Except Panic PageMem :=
  if ¬ mem.isInterior elem then .error .assertion
  else
    let mem := mem.setNext (mem.elemPrev elem) (mem.elemNext elem)
    .ok (mem.setPrev (mem.elemNext elem) (mem.elemPrev elem))

def listPopFront (mem : PageMem) (l : Vaddr) : Except Panic (Vaddr × PageMem) :=
  if mem.listEmpty l then .error .assertion
  else
    let front := mem.elemNext l
    match mem.listRemove front with
    | .error e => .error e
    | .ok mem => .ok (front, mem)

/-- The stores that take the elements from `first` to `last` out of their list. -/
def detach (mem : PageMem) (first last : Vaddr) : PageMem :=
  let mem := mem.setNext (mem.elemPrev first) (mem.elemNext last)
  mem.setPrev (mem.elemNext last) (mem.elemPrev first)

/-- The stores that put them in front of `before`. -/
def attach (mem : PageMem) (before first last : Vaddr) : PageMem :=
  let mem := mem.setPrev first (mem.elemPrev before)
  let mem := mem.setNext last before
  let mem := mem.setNext (mem.elemPrev before) first
  mem.setPrev before last

end PageMem

/-! ## Elements that are apart -/

/-- The address can be that of an element. -/
structure IsElem (a : Vaddr) : Prop where
  aligned : a.toNat % 8 = 0
  pos : 0 < a.toNat
  inRange : a.toNat + 16 ≤ 2 ^ 64

/-- No two elements share a word. -/
structure Elems (N : Set Vaddr) : Prop where
  elem : ∀ a ∈ N, IsElem a
  apart : ∀ a ∈ N, ∀ b ∈ N, a ≠ b → a.toNat + 16 ≤ b.toNat ∨ b.toNat + 16 ≤ a.toNat

section Elems

open PageMem

variable {mem : PageMem} {N : Set Vaddr} {a b v : Vaddr}

theorem IsElem.ne_zero (h : IsElem a) : a ≠ 0#64 := by
  rintro rfl
  exact absurd h.pos (Nat.lt_irrefl 0)

theorem IsElem.wordNo_next (h : IsElem a) : wordNo (a + 8) = wordNo a + 1 := by
  have hr := h.inRange
  have h8 : (8 : Vaddr).toNat = 8 := rfl
  rw [wordNo, wordNo, BitVec.toNat_add, h8]
  omega

/-- The words of the elements of a set are different. -/
theorem Elems.wordNo_ne (h : Elems N) (ha : a ∈ N) (hb : b ∈ N) :
    wordNo a ≠ wordNo b + 1 ∧ (a ≠ b → wordNo a ≠ wordNo b) := by
  have hae := h.elem a ha
  have hbe := h.elem b hb
  have ha8 := hae.aligned
  have hb8 := hbe.aligned
  unfold wordNo
  by_cases hab : a = b
  · rw [hab]
    exact ⟨by omega, fun hc => absurd rfl hc⟩
  · have hap := h.apart a ha b hb hab
    exact ⟨by omega, fun _ => by omega⟩

theorem elemPrev_setPrev (h : Elems N) (ha : a ∈ N) (hb : b ∈ N) :
    (mem.setPrev a v).elemPrev b = if a = b then v else mem.elemPrev b := by
  rw [elemPrev, setPrev, loadWord_storeWord, elemPrev]
  by_cases hab : a = b
  · rw [if_pos (congrArg wordNo hab), if_pos hab]
  · rw [if_neg ((h.wordNo_ne ha hb).2 hab), if_neg hab]

theorem elemNext_setNext (h : Elems N) (ha : a ∈ N) (hb : b ∈ N) :
    (mem.setNext a v).elemNext b = if a = b then v else mem.elemNext b := by
  rw [elemNext, setNext, loadWord_storeWord, elemNext, (h.elem a ha).wordNo_next,
    (h.elem b hb).wordNo_next]
  by_cases hab : a = b
  · rw [if_pos (by rw [hab]), if_pos hab]
  · have hne := (h.wordNo_ne ha hb).2 hab
    rw [if_neg (by omega), if_neg hab]

theorem elemNext_setPrev (h : Elems N) (ha : a ∈ N) (hb : b ∈ N) :
    (mem.setPrev a v).elemNext b = mem.elemNext b := by
  rw [elemNext, setPrev, loadWord_storeWord, elemNext, (h.elem b hb).wordNo_next,
    if_neg (h.wordNo_ne ha hb).1]

theorem elemPrev_setNext (h : Elems N) (ha : a ∈ N) (hb : b ∈ N) :
    (mem.setNext a v).elemPrev b = mem.elemPrev b := by
  rw [elemPrev, setNext, loadWord_storeWord, elemPrev, (h.elem a ha).wordNo_next,
    if_neg (Ne.symm (h.wordNo_ne hb ha).1)]

end Elems

/-! ## A list and its elements -/

/-- The links in memory. -/
def PageMem.links (mem : PageMem) : Links Vaddr where
  prev := mem.elemPrev
  next := mem.elemNext

/-- The elements between the sentinels of the list at `l`. -/
def listNodes (l : Vaddr) (xs : List Vaddr) : List Vaddr := l :: (xs ++ [listTail l])

/-- The list at `l` has the elements `xs`. -/
structure IsList (mem : PageMem) (l : Vaddr) (xs : List Vaddr) : Prop where
  nodup : (listNodes l xs).Nodup
  linked : Chained mem.links (listNodes l xs)
  head : mem.elemPrev l = 0
  tail : mem.elemNext (listTail l) = 0

/-- The words that belong to none of the elements. -/
def offElems (s : List Vaddr) : Set Nat := {w | ∀ x ∈ s, w ≠ wordNo x ∧ w ≠ wordNo x + 1}

section Lists

open PageMem

variable {mem mem' : PageMem} {N : Set Vaddr} {l e p n a z : Vaddr} {xs ys l₁ l₂ X : List Vaddr}

theorem IsElem.notMem_offElems {s : List Vaddr} {a : Vaddr} (h : IsElem a) (ha : a ∈ s) :
    wordNo a ∉ offElems s ∧ wordNo (a + 8) ∉ offElems s := by
  refine ⟨fun hc => (hc a ha).1 rfl, fun hc => (hc a ha).2 h.wordNo_next⟩

/-- The head is before a gap, and the tail behind it. -/
theorem sentinels_around (h : listNodes l xs = l₁ ++ p :: n :: l₂) : l ∈ l₁ ++ [p] ∧ listTail l ∈ n :: l₂ := by
  constructor
  · cases l₁ with
    | nil =>
      have hl : l = p := (List.cons.inj h).1
      simp [hl]
    | cons a l₁ =>
      have hl : l = a := (List.cons.inj h).1
      simp [hl]
  · have hlast : (listNodes l xs).getLast? = some (listTail l) := by
      rw [listNodes, ← List.cons_append, List.getLast?_concat]
    have hsplit : (l₁ ++ p :: n :: l₂).getLast? = (n :: l₂).getLast? := by
      rw [show l₁ ++ p :: n :: l₂ = (l₁ ++ [p]) ++ n :: l₂ by simp,
        List.getLast?_append_of_ne_nil _ (List.cons_ne_nil n l₂)]
    rw [h, hsplit] at hlast
    exact List.mem_of_getLast? hlast

theorem sentinels_ne (hnodup : (listNodes l xs).Nodup) (hxs : listNodes l xs = l₁ ++ p :: n :: l₂) :
    n ≠ l ∧ p ≠ listTail l := by
  obtain ⟨hhead, htail⟩ := sentinels_around hxs
  rw [hxs] at hnodup
  obtain ⟨-, hn₁, hpn, hp₂, -⟩ := nodup_gap hnodup
  constructor
  · rintro rfl
    rcases List.mem_append.mp hhead with hc | hc
    · exact hn₁ hc
    · exact hpn (List.mem_singleton.mp hc).symm
  · intro hc
    rw [← hc] at htail
    rcases List.mem_cons.mp htail with hc | hc
    · exact hpn hc
    · exact hp₂ hc

theorem mem_listNodes_ends (l : Vaddr) (xs : List Vaddr) :
    l ∈ listNodes l xs ∧ listTail l ∈ listNodes l xs := by
  simp [listNodes]

/-- A range comes between two neighbours. -/
theorem IsList.attach (h : IsList mem l xs) (hN : Elems N) (hsub : ∀ x ∈ listNodes l ys, x ∈ N)
    (hX : Chained mem.links X) (hnodup : (listNodes l ys).Nodup) (hxs : listNodes l xs = l₁ ++ p :: n :: l₂)
    (hys : listNodes l ys = l₁ ++ p :: (X ++ n :: l₂)) (hfirst : X.head? = some a) (hlast : X.getLast? = some z) :
    IsList (mem.attach n a z) l ys ∧ Agree (offElems (listNodes l ys)) mem (mem.attach n a z) := by
  obtain ⟨hnl, hpt⟩ := sentinels_ne h.nodup hxs
  have hends := mem_listNodes_ends l xs
  have hlinked := h.linked
  have hmem : ∀ x ∈ l₁ ++ p :: n :: l₂, x ∈ N ∧ x ∉ X := by
    have hperm : (listNodes l ys).Perm (X ++ (l₁ ++ p :: n :: l₂)) := by
      have hmid : ((l₁ ++ [p]) ++ (X ++ n :: l₂)).Perm (X ++ ((l₁ ++ [p]) ++ n :: l₂)) :=
        List.perm_append_comm_assoc _ _ _
      rw [hys]
      simpa using hmid
    obtain ⟨-, -, hd⟩ := List.nodup_append.mp (hperm.nodup_iff.mp hnodup)
    intro x hx
    exact ⟨hsub x (hperm.mem_iff.mpr (List.mem_append_right X hx)), fun hc => hd x hc x hx rfl⟩
  rw [hxs] at hlinked hends
  rw [hys] at hnodup hsub
  have haX : a ∈ X := List.mem_of_mem_head? hfirst
  have hzX : z ∈ X := List.mem_of_mem_getLast? hlast
  obtain ⟨hp, hpX⟩ := hmem p (by simp)
  obtain ⟨hn, hnX⟩ := hmem n (by simp)
  have ha : a ∈ N := hsub a (by simp [haX])
  have hz : z ∈ N := hsub z (by simp [hzX])
  obtain ⟨-, ⟨hnext, hprev⟩, -⟩ := chained_append_cons_cons.mp hlinked
  have hprev' : mem.elemPrev n = p := hprev
  have han : a ≠ n := fun hc => hnX (hc ▸ haX)
  have hstores : mem.attach n a z = (((mem.setPrev a p).setNext z n).setNext p a).setPrev n z := by
    rw [PageMem.attach, elemPrev_setNext hN hz hn, elemPrev_setPrev hN ha hn, if_neg han, hprev']
  rw [hstores]
  refine ⟨?_, ?_⟩
  · have hnextOf : ∀ x ∈ N, ((((mem.setPrev a p).setNext z n).setNext p a).setPrev n z).elemNext x =
        if p = x then a else if z = x then n else mem.elemNext x := by
      intro x hx
      rw [elemNext_setPrev hN hn hx, elemNext_setNext hN hp hx, elemNext_setNext hN hz hx,
        elemNext_setPrev hN ha hx]
    have hprevOf : ∀ x ∈ N, ((((mem.setPrev a p).setNext z n).setNext p a).setPrev n z).elemPrev x =
        if n = x then z else if a = x then p else mem.elemPrev x := by
      intro x hx
      rw [elemPrev_setPrev hN hn hx, elemPrev_setNext hN hp hx, elemPrev_setNext hN hz hx,
        elemPrev_setPrev hN ha hx]
    have hpz : p ≠ z := fun hc => hpX (hc ▸ hzX)
    refine ⟨by rwa [hys], ?_, ?_, ?_⟩
    · rw [hys]
      refine hlinked.insertRange hX hnodup hfirst hlast ⟨?_, ?_⟩ ⟨?_, ?_⟩ (fun x hx hxp hxz => ?_)
        fun x hx hxn hxa => ?_
      · exact (hnextOf p hp).trans (if_pos rfl)
      · exact (hprevOf a ha).trans (by rw [if_neg (Ne.symm han), if_pos rfl])
      · exact (hnextOf z hz).trans (by rw [if_neg hpz, if_pos rfl])
      · exact (hprevOf n hn).trans (if_pos rfl)
      · exact (hnextOf x (hsub x hx)).trans (by rw [if_neg (Ne.symm hxp), if_neg (Ne.symm hxz)]; rfl)
      · exact (hprevOf x (hsub x hx)).trans (by rw [if_neg (Ne.symm hxn), if_neg (Ne.symm hxa)]; rfl)
    · obtain ⟨hl, hlX⟩ := hmem l hends.1
      have hal : a ≠ l := fun hc => hlX (hc ▸ haX)
      rw [hprevOf l hl, if_neg hnl, if_neg hal, h.head]
    · obtain ⟨ht, htX⟩ := hmem _ hends.2
      have hzt : z ≠ listTail l := fun hc => htX (hc ▸ hzX)
      rw [hnextOf _ ht, if_neg hpt, if_neg hzt, h.tail]
  · rw [hys]
    have hoff : ∀ x ∈ l₁ ++ p :: (X ++ n :: l₂), wordNo x ∉ offElems (l₁ ++ p :: (X ++ n :: l₂)) ∧
        wordNo (x + 8) ∉ offElems (l₁ ++ p :: (X ++ n :: l₂)) :=
      fun x hx => (hN.elem x (hsub x hx)).notMem_offElems hx
    refine Agree.trans (Agree.trans (Agree.trans (Agree.storeWord ?_ p) (Agree.storeWord ?_ n))
      (Agree.storeWord ?_ a)) (Agree.storeWord ?_ z)
    · exact (hoff a (by simp [haX])).1
    · exact (hoff z (by simp [hzX])).2
    · exact (hoff p (by simp)).2
    · exact (hoff n (by simp)).1

/-- A range goes, and stays linked. -/
theorem IsList.detach (h : IsList mem l xs) (hN : Elems N) (hsub : ∀ x ∈ listNodes l xs, x ∈ N)
    (hxs : listNodes l xs = l₁ ++ p :: (X ++ n :: l₂)) (hys : listNodes l ys = l₁ ++ p :: n :: l₂)
    (hfirst : X.head? = some a) (hlast : X.getLast? = some z) :
    IsList (mem.detach a z) l ys ∧ Chained (mem.detach a z).links X ∧
      Agree (offElems (listNodes l xs)) mem (mem.detach a z) := by
  have hlinked := h.linked
  have hnodup := h.nodup
  rw [hxs] at hlinked hnodup hsub
  have hnodup' : (listNodes l ys).Nodup := by
    rw [hys]
    exact hnodup.sublist (((List.sublist_append_right X _).cons_cons p).append_left l₁)
  obtain ⟨hnl, hpt⟩ := sentinels_ne hnodup' hys
  have hends := mem_listNodes_ends l ys
  rw [hys] at hends
  have haX : a ∈ X := List.mem_of_mem_head? hfirst
  have hzX : z ∈ X := List.mem_of_mem_getLast? hlast
  have hkept : ∀ x ∈ l₁ ++ p :: n :: l₂, x ∈ N := by
    intro x hx
    refine hsub x ?_
    simp only [List.mem_append, List.mem_cons] at hx ⊢
    tauto
  have hp : p ∈ N := hsub p (by simp)
  have ha : a ∈ N := hsub a (by simp [haX])
  have hz : z ∈ N := hsub z (by simp [hzX])
  have hn : n ∈ N := hsub n (by simp)
  obtain ⟨⟨-, hpX, -⟩, -, -⟩ := nodup_range hnodup
  obtain ⟨-, -, -, hpa, hzn⟩ := chained_range.mp hlinked
  have hprev' : mem.elemPrev a = p := by
    have hhead : (X ++ [n]).head? = some a := by rw [List.head?_append, hfirst, Option.some_or]
    exact (hpa a hhead).2
  have hnext' : mem.elemNext z = n := (hzn z hlast).1
  have hpz : p ≠ z := fun hc => hpX (hc ▸ hzX)
  have hstores : mem.detach a z = (mem.setNext p n).setPrev n p := by
    rw [PageMem.detach, hprev', hnext', elemNext_setNext hN hp hz, elemPrev_setNext hN hp ha, if_neg hpz, hprev',
      hnext']
  have hnextOf : ∀ x ∈ N, ((mem.setNext p n).setPrev n p).elemNext x = if p = x then n else mem.elemNext x := by
    intro x hx
    rw [elemNext_setPrev hN hn hx, elemNext_setNext hN hp hx]
  have hprevOf : ∀ x ∈ N, ((mem.setNext p n).setPrev n p).elemPrev x = if n = x then p else mem.elemPrev x := by
    intro x hx
    rw [elemPrev_setPrev hN hn hx, elemPrev_setNext hN hp hx]
  rw [hstores]
  have hjoined : ((mem.setNext p n).setPrev n p).links.next p = n ∧ ((mem.setNext p n).setPrev n p).links.prev n = p :=
    ⟨(hnextOf p hp).trans (if_pos rfl), (hprevOf n hn).trans (if_pos rfl)⟩
  obtain ⟨hrest, hX⟩ := hlinked.removeRange hnodup hjoined
    (fun x hx hxp => (hnextOf x (hsub x hx)).trans (if_neg (Ne.symm hxp)))
    (fun x hx hxn => (hprevOf x (hsub x hx)).trans (if_neg (Ne.symm hxn)))
  refine ⟨⟨hnodup', by rwa [hys], ?_, ?_⟩, hX, ?_⟩
  · rw [hprevOf l (hkept l hends.1), if_neg hnl, h.head]
  · rw [hnextOf _ (hkept _ hends.2), if_neg hpt, h.tail]
  · rw [hxs]
    refine (Agree.storeWord ?_ n).trans (Agree.storeWord ?_ p)
    · exact ((hN.elem p hp).notMem_offElems (by simp)).2
    · exact ((hN.elem n hn).notMem_offElems (by simp)).1

/-- Behind another element there is no head. -/
theorem IsList.not_head (h : IsList mem l xs) (hN : Elems N) (hsub : ∀ x ∈ listNodes l xs, x ∈ N)
    (hxs : listNodes l xs = l₁ ++ p :: n :: l₂) : (mem.isInterior n || mem.isTail n) = true := by
  have hlinked := h.linked
  rw [hxs] at hlinked hsub
  obtain ⟨-, ⟨-, hprev⟩, -⟩ := chained_append_cons_cons.mp hlinked
  have hprev' : mem.elemPrev n = p := hprev
  have hn0 := (hN.elem n (hsub n (by simp))).ne_zero
  have hp0 := (hN.elem p (hsub p (by simp))).ne_zero
  simp only [isInterior, isTail, hprev']
  by_cases hnx : mem.elemNext n = 0#64 <;> simp [hn0, hp0, hnx]

/-- **`list_insert`** between two neighbours. -/
theorem IsList.insert (h : IsList mem l xs) (hN : Elems N) (hsub : ∀ x ∈ listNodes l xs, x ∈ N)
    (he : e ∈ N) (hnew : e ∉ listNodes l xs) (hxs : listNodes l xs = l₁ ++ p :: n :: l₂)
    (hys : listNodes l ys = l₁ ++ p :: e :: n :: l₂) :
    ∃ mem', mem.listInsert n e = .ok mem' ∧ IsList mem' l ys ∧ Agree (offElems (listNodes l ys)) mem mem' := by
  have hguard : ¬ (¬ (mem.isInterior n || mem.isTail n) ∨ e = 0) := by
    rw [h.not_head hN hsub hxs]
    simpa using (hN.elem e he).ne_zero
  have hnodup := h.nodup
  rw [hxs] at hnodup hsub hnew
  have hperm : (listNodes l ys).Perm (e :: (l₁ ++ p :: n :: l₂)) := by
    have hmid : (l₁ ++ [p] ++ e :: n :: l₂).Perm (e :: (l₁ ++ [p] ++ n :: l₂)) := List.perm_middle
    rw [hys]
    simpa using hmid
  refine ⟨mem.attach n e e, by rw [listInsert, if_neg hguard]; rfl, ?_⟩
  refine h.attach hN (fun x hx => ?_) (.singleton e) ?_ hxs hys rfl rfl
  · rcases List.mem_cons.mp (hperm.mem_iff.mp hx) with rfl | hx
    · exact he
    · exact hsub x hx
  · exact hperm.nodup_iff.mpr (List.nodup_cons.mpr ⟨hnew, hnodup⟩)

/-- **`list_remove`** of an element between two. -/
theorem IsList.cut (h : IsList mem l xs) (hN : Elems N) (hsub : ∀ x ∈ listNodes l xs, x ∈ N)
    (hxs : listNodes l xs = l₁ ++ p :: e :: n :: l₂) (hys : listNodes l ys = l₁ ++ p :: n :: l₂) :
    ∃ mem', mem.listRemove e = .ok mem' ∧ IsList mem' l ys ∧ Agree (offElems (listNodes l xs)) mem mem' := by
  have hlinked := h.linked
  rw [hxs] at hlinked
  obtain ⟨-, ⟨-, hprev⟩, hrest⟩ := chained_append_cons_cons.mp hlinked
  have hprev' : mem.elemPrev e = p := hprev
  have hnext' : mem.elemNext e = n := (List.isChain_cons_cons.mp hrest).1.1
  have hguard : ¬ ¬ mem.isInterior e = true := by
    have hn0 := (hN.elem n (hsub n (by simp [hxs]))).ne_zero
    have hp0 := (hN.elem p (hsub p (by simp [hxs]))).ne_zero
    have he0 := (hN.elem e (hsub e (by simp [hxs]))).ne_zero
    simp [isInterior, hprev', hnext', hn0, hp0, he0]
  obtain ⟨hlist, -, hagree⟩ := h.detach hN hsub (X := [e]) hxs hys rfl rfl
  exact ⟨mem.detach e e, by rw [listRemove, if_neg hguard]; rfl, hlist, hagree⟩

/-! ## The ends and any element -/

theorem IsList.begin (h : IsList mem l xs) : mem.listBegin l = (xs ++ [listTail l]).headD 0 := by
  have hlinked := h.linked
  rw [listNodes] at hlinked
  cases xs with
  | nil => exact (List.isChain_cons_cons.mp hlinked).1.1
  | cons x xs => exact (List.isChain_cons_cons.mp hlinked).1.1

theorem IsList.listEmpty (h : IsList mem l xs) : mem.listEmpty l = xs.isEmpty := by
  rw [PageMem.listEmpty, h.begin]
  cases xs with
  | nil => simp
  | cons x xs =>
    have hnd := h.nodup
    have hne : x ≠ listTail l := by
      rintro rfl
      have hin := (List.nodup_cons.mp hnd).2
      exact (List.nodup_cons.mp hin).1 (by simp)
    simp [hne]

theorem IsList.pushFront (h : IsList mem l xs) (hN : Elems N) (hsub : ∀ x ∈ listNodes l xs, x ∈ N)
    (he : e ∈ N) (hnew : e ∉ listNodes l xs) :
    ∃ mem', mem.listPushFront l e = .ok mem' ∧ IsList mem' l (e :: xs) ∧
      Agree (offElems (listNodes l (e :: xs))) mem mem' := by
  rw [listPushFront, h.begin]
  cases xs with
  | nil =>
    have hxs : listNodes l [] = [] ++ l :: listTail l :: [] := rfl
    exact h.insert hN hsub he hnew hxs rfl
  | cons x xs =>
    have hxs : listNodes l (x :: xs) = [] ++ l :: x :: (xs ++ [listTail l]) := rfl
    exact h.insert hN hsub he hnew hxs rfl

/-- The nodes before a point of the list end with one. -/
theorem exists_concat (l : Vaddr) (xs : List Vaddr) : ∃ l₁ p, l :: xs = l₁ ++ [p] :=
  ⟨(l :: xs).dropLast, (l :: xs).getLast (List.cons_ne_nil l xs), (List.dropLast_append_getLast _).symm⟩

theorem listNodes_append (hp : l :: xs = l₁ ++ [p]) (ys : List Vaddr) :
    listNodes l (xs ++ ys) = l₁ ++ p :: (ys ++ [listTail l]) := by
  rw [listNodes, List.append_assoc, ← List.cons_append, hp]
  simp

theorem IsList.pushBack (h : IsList mem l xs) (hN : Elems N) (hsub : ∀ x ∈ listNodes l xs, x ∈ N)
    (he : e ∈ N) (hnew : e ∉ listNodes l xs) :
    ∃ mem', mem.listPushBack l e = .ok mem' ∧ IsList mem' l (xs ++ [e]) ∧
      Agree (offElems (listNodes l (xs ++ [e]))) mem mem' := by
  obtain ⟨l₁, p, hp⟩ := exists_concat l xs
  have hxs := listNodes_append hp []
  rw [List.append_nil] at hxs
  exact h.insert hN hsub he hnew hxs (listNodes_append hp [e])

theorem IsList.remove (h : IsList mem l xs) (hN : Elems N) (hsub : ∀ x ∈ listNodes l xs, x ∈ N)
    (he : e ∈ xs) :
    ∃ mem', mem.listRemove e = .ok mem' ∧ IsList mem' l (xs.erase e) ∧
      Agree (offElems (listNodes l xs)) mem mem' := by
  obtain ⟨ys, zs, hnot, hsplit, herase⟩ := List.exists_erase_eq he
  rw [herase]
  obtain ⟨l₁, p, hp⟩ := exists_concat l ys
  have hxs := listNodes_append hp (e :: zs)
  rw [← hsplit] at hxs
  cases zs with
  | nil => exact h.cut hN hsub hxs (listNodes_append hp [])
  | cons z zs => exact h.cut hN hsub hxs (listNodes_append hp (z :: zs))

theorem IsList.popFront (h : IsList mem l (e :: xs)) (hN : Elems N)
    (hsub : ∀ x ∈ listNodes l (e :: xs), x ∈ N) :
    ∃ mem', mem.listPopFront l = .ok (e, mem') ∧ IsList mem' l xs ∧
      Agree (offElems (listNodes l (e :: xs))) mem mem' := by
  obtain ⟨mem', hrem, hlist, hagree⟩ := h.remove hN hsub (List.mem_cons_self (a := e))
  rw [List.erase_cons_head] at hlist
  have hfront : mem.elemNext l = e := h.begin
  refine ⟨mem', ?_, hlist, hagree⟩
  rw [listPopFront, h.listEmpty, if_neg (by simp), hfront]
  simp only [hrem]

/-- A list is its own words. -/
theorem IsList.congr (h : IsList mem l xs) (hN : Elems N) (hsub : ∀ x ∈ listNodes l xs, x ∈ N)
    (hagree : ∀ x ∈ listNodes l xs, ∀ a, wordNo a = wordNo x ∨ wordNo a = wordNo x + 1 →
      mem'.loadWord a = mem.loadWord a) : IsList mem' l xs := by
  have hprev : ∀ x ∈ listNodes l xs, mem'.elemPrev x = mem.elemPrev x :=
    fun x hx => hagree x hx x (Or.inl rfl)
  have hnext : ∀ x ∈ listNodes l xs, mem'.elemNext x = mem.elemNext x :=
    fun x hx => hagree x hx (x + 8) (Or.inr (hN.elem x (hsub x hx)).wordNo_next)
  obtain ⟨hl, ht⟩ := mem_listNodes_ends l xs
  refine ⟨h.nodup, h.linked.congr hnext fun x hx => hprev x (List.mem_of_mem_tail hx), ?_, ?_⟩
  · rw [hprev l hl, h.head]
  · rw [hnext _ ht, h.tail]

/-- **`list_init`** makes an empty list. -/
theorem isList_listInit (hN : Elems N) (hl : l ∈ N) (ht : listTail l ∈ N) (hne : l ≠ listTail l) :
    IsList (mem.listInit l) l [] ∧ Agree (offElems (listNodes l [])) mem (mem.listInit l) := by
  refine ⟨⟨?_, ?_, ?_, ?_⟩, ?_⟩
  · simp [listNodes, hne]
  · refine List.isChain_pair.mpr ⟨?_, ?_⟩
    · show (mem.listInit l).elemNext l = _
      unfold listInit
      rw [elemNext_setNext hN ht hl, if_neg (Ne.symm hne), elemNext_setPrev hN ht hl,
        elemNext_setNext hN hl hl, if_pos rfl]
    · show (mem.listInit l).elemPrev (listTail l) = _
      unfold listInit
      rw [elemPrev_setNext hN ht ht, elemPrev_setPrev hN ht ht, if_pos rfl]
  · unfold listInit
    rw [elemPrev_setNext hN ht hl, elemPrev_setPrev hN ht hl, if_neg (Ne.symm hne),
      elemPrev_setNext hN hl hl, elemPrev_setPrev hN hl hl, if_pos rfl]
  · unfold listInit
    rw [elemNext_setNext hN ht ht, if_pos rfl]
  · have hlo := (hN.elem l hl).notMem_offElems (s := listNodes l []) (by simp [listNodes])
    have hto := (hN.elem _ ht).notMem_offElems (s := listNodes l []) (by simp [listNodes])
    exact Agree.trans (Agree.trans (Agree.trans (Agree.storeWord hlo.1 0) (Agree.storeWord hlo.2 _))
      (Agree.storeWord hto.1 l)) (Agree.storeWord hto.2 0)

end Lists

end Pintos
