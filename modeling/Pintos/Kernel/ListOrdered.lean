import Pintos.Kernel.ListSort
import Pintos.Kernel.Sorting

/-!
# `list_insert_ordered` and `list_unique` on the links

By their loads and stores, like `list_sort`.

* `IsList.insertOrdered`, `IsList.insertAll`, `IsList.pushAll` — an element, and one after the other
* `IsPair.unique` — a list and the separate list of its duplicates
-/

namespace Pintos

open LinkedList

namespace PageMem

/-- The loop of `list_insert_ordered` over `e`. -/
def insertOrderedLoop (mem : PageMem) (l elem : Vaddr) (less : Vaddr → Vaddr → Bool) :
    Nat → Vaddr → Except Panic Vaddr
  | 0, _ => .error .disabled
  | n + 1, e =>
    if e = listTail l then .ok e
    else if less elem e then .ok e
    else do
      let e ← mem.listNext e
      mem.insertOrderedLoop l elem less n e

def listInsertOrdered (mem : PageMem) (l elem : Vaddr) (less : Vaddr → Vaddr → Bool) (n : Nat) :
    Except Panic PageMem :=
  if elem = 0 then .error .assertion
  else do
    let e ← mem.insertOrderedLoop l elem less n (mem.listBegin l)
    mem.listInsert e elem

/-- The loop of `list_unique`. -/
def uniqueLoop (l duplicates : Vaddr) (less : Vaddr → Vaddr → Bool) :
    Nat → PageMem → Vaddr → Except Panic PageMem
  | 0, _, _ => .error .disabled
  | n + 1, mem, elem => do
    let next ← mem.listNext elem
    if next = listTail l then .ok mem
    else if !less elem next && !less next elem then do
      let mem ← mem.listRemove next
      if duplicates ≠ 0 then do
        let mem ← mem.listPushBack duplicates next
        uniqueLoop l duplicates less n mem elem
      else uniqueLoop l duplicates less n mem elem
    else uniqueLoop l duplicates less n mem next

def listUnique (mem : PageMem) (l duplicates : Vaddr) (less : Vaddr → Vaddr → Bool) (n : Nat) :
    Except Panic PageMem :=
  if mem.listEmpty l then .ok mem else uniqueLoop l duplicates less n mem (mem.listBegin l)

/-- `list_insert_ordered` for one element after the other. -/
def insertAll (l : Vaddr) (less : Vaddr → Vaddr → Bool) (n : Nat) : PageMem → List Vaddr → Except Panic PageMem
  | mem, [] => .ok mem
  | mem, elem :: xs => do
    let mem ← mem.listInsertOrdered l elem less n
    insertAll l less n mem xs

/-- `list_push_back` for one element after the other. -/
def pushAll (l : Vaddr) : PageMem → List Vaddr → Except Panic PageMem
  | mem, [] => .ok mem
  | mem, elem :: xs => do
    let mem ← mem.listPushBack l elem
    pushAll l mem xs

end PageMem

section

open PageMem

variable {mem mem' : PageMem} {N : Set Vaddr} {l d e elem : Vaddr} {X Y D P R s : List Vaddr}
  {less : Vaddr → Vaddr → Bool} {n : Nat}

/-- Whether a list is one can be evaluated. -/
instance : Decidable (IsList mem l X) :=
  decidable_of_iff ((listNodes l X).Nodup ∧
      (listNodes l X).IsChain (fun a b => mem.elemNext a = b ∧ mem.elemPrev b = a) ∧
      mem.elemPrev l = 0 ∧ mem.elemNext (listTail l) = 0)
    ⟨fun h => ⟨h.1, h.2.1, h.2.2.1, h.2.2.2⟩, fun h => ⟨h.nodup, h.linked, h.head, h.tail⟩⟩

/-- Whether elements are apart. -/
def elemsApart (s : List Vaddr) : Bool :=
  s.all fun a => a.toNat % 8 == 0 && 0 < a.toNat && a.toNat + 16 ≤ 2 ^ 64 &&
    s.all fun b => a == b || a.toNat + 16 ≤ b.toNat || b.toNat + 16 ≤ a.toNat

theorem Elems.of_elemsApart (h : elemsApart s = true) : Elems {x | x ∈ s} := by
  simp only [elemsApart, List.all_eq_true, Bool.and_eq_true, Bool.or_eq_true, beq_iff_eq, decide_eq_true_eq] at h
  refine ⟨fun a ha => ?_, fun a ha b hb hab => ?_⟩
  · obtain ⟨⟨⟨haligned, hpos⟩, hrange⟩, -⟩ := h a ha
    exact ⟨haligned, hpos, hrange⟩
  · rcases (h a ha).2 b hb with (hc | hc) | hc
    · exact absurd hc hab
    · exact .inl hc
    · exact .inr hc

/-- What is stored in some elements does not change a list of others. -/
theorem IsList.frame (h : IsList mem l X) (hN : Elems N) (hsub : ∀ x ∈ listNodes l X, x ∈ N)
    (hagree : Agree (offElems s) mem mem') (hs : ∀ x ∈ s, x ∈ N) (hoff : ∀ x ∈ listNodes l X, x ∉ s) :
    IsList mem' l X := by
  refine h.congr hN hsub fun x hx a ha => hagree a fun y hy => ?_
  have hne : x ≠ y := by
    rintro rfl
    exact hoff x hx hy
  obtain ⟨hxy, hwords⟩ := hN.wordNo_ne (hsub x hx) (hs y hy)
  obtain ⟨hyx, -⟩ := hN.wordNo_ne (hs y hy) (hsub x hx)
  have hword := hwords hne
  rcases ha with ha | ha <;> rw [ha] <;> constructor <;> omega

theorem IsList.begin_eq (h : IsList mem l X) : mem.listBegin l = firstOf l X := by
  rw [h.begin]
  cases X <;> rfl

/-! ## Ordered insertion -/

/-- The loop stops where the element goes. -/
theorem IsList.insertOrderedLoop (hN : Elems N) (less : Vaddr → Vaddr → Bool) (elem : Vaddr) :
    ∀ {n : Nat} {P R : List Vaddr}, IsList mem l (P ++ R) →
    (∀ x ∈ listNodes l (P ++ R), x ∈ N) → R.length < n →
    ∃ A B, R = A ++ B ∧ Pintos.listInsertOrdered less elem R = A ++ elem :: B ∧
      mem.insertOrderedLoop l elem less n (firstOf l R) = .ok (firstOf l B)
  | 0, _, _, _, _, hn => absurd hn (Nat.not_lt_zero _)
  | n + 1, P, [], _, _, _ => ⟨[], [], rfl, rfl, if_pos rfl⟩
  | n + 1, P, e :: R, h, hsub, hn => by
    have hne : e ≠ listTail l := IsList.firstOf_ne (P := P) (R := R) (Y := []) (by simpa using h)
    rw [Pintos.listInsertOrdered, PageMem.insertOrderedLoop, firstOf_cons, if_neg hne]
    by_cases hle : less elem e = true
    · rw [if_pos hle, if_pos hle]
      exact ⟨[], e :: R, rfl, rfl, rfl⟩
    · have hassoc : P ++ e :: R = (P ++ [e]) ++ R := by simp
      obtain ⟨A, B, hR, hins, hloop⟩ := IsList.insertOrderedLoop hN less elem (n := n) (P := P ++ [e])
        (R := R) (hassoc ▸ h) (hassoc ▸ hsub) (Nat.lt_of_succ_lt_succ hn)
      rw [if_neg hle, if_neg hle, h.listNext hN hsub, hins]
      exact ⟨e :: A, B, by rw [hR]; rfl, rfl, hloop⟩

/-- In front of what is behind a point of the list. -/
theorem listNodes_range (l : Vaddr) (A X B : List Vaddr) :
    ∃ l₁ p l₂, listNodes l (A ++ B) = l₁ ++ p :: firstOf l B :: l₂ ∧
      listNodes l (A ++ X ++ B) = l₁ ++ p :: (X ++ firstOf l B :: l₂) := by
  obtain ⟨l₁, p, hp⟩ := exists_concat l A
  refine ⟨l₁, p, (B ++ [listTail l]).tail, ?_, ?_⟩
  · rw [listNodes_append hp]
    cases B <;> rfl
  · rw [List.append_assoc, listNodes_append hp]
    cases B <;> simp

/-- **`list_insert_ordered`.** -/
theorem IsList.insertOrdered (h : IsList mem l X) (hN : Elems N) (hsub : ∀ x ∈ listNodes l X, x ∈ N)
    (he : elem ∈ N) (hnew : elem ∉ listNodes l X) (less : Vaddr → Vaddr → Bool) (hn : X.length < n) :
    ∃ mem', mem.listInsertOrdered l elem less n = .ok mem' ∧
      IsList mem' l (Pintos.listInsertOrdered less elem X) := by
  obtain ⟨A, B, hX, hins, hloop⟩ := IsList.insertOrderedLoop (P := []) hN less elem h hsub hn
  obtain ⟨l₁, p, l₂, hnodes, hnodes'⟩ := listNodes_range l A [elem] B
  rw [← hX] at hnodes
  rw [List.append_assoc, List.singleton_append, ← hins] at hnodes'
  obtain ⟨mem', hinsert, hlist, -⟩ := h.insert hN hsub he hnew hnodes hnodes'
  refine ⟨mem', ?_, hlist⟩
  have he0 : ¬ elem = 0 := (hN.elem elem he).ne_zero
  rw [PageMem.listInsertOrdered, if_neg he0, h.begin_eq, hloop]
  exact hinsert

theorem listNodes_insertOrdered_perm (l elem : Vaddr) (less : Vaddr → Vaddr → Bool) (X : List Vaddr) :
    (listNodes l (Pintos.listInsertOrdered less elem X)).Perm (elem :: listNodes l X) :=
  (listNodes_perm (listInsertOrdered_perm less elem X)).trans (List.Perm.swap elem l _)

theorem IsList.insertAll (hN : Elems N) (less : Vaddr → Vaddr → Bool) : ∀ {xs X : List Vaddr} {mem : PageMem},
    IsList mem l X → (∀ x ∈ xs ++ listNodes l X, x ∈ N) → (xs ++ listNodes l X).Nodup →
    X.length + xs.length ≤ n →
    ∃ mem', PageMem.insertAll l less n mem xs = .ok mem' ∧
      IsList mem' l (xs.foldl (fun X x => Pintos.listInsertOrdered less x X) X)
  | [], X, mem, h, _, _, _ => ⟨mem, rfl, h⟩
  | elem :: xs, X, mem, h, hsub, hnd, hn => by
    obtain ⟨hnot, hrest⟩ := List.nodup_cons.mp hnd
    rw [List.length_cons] at hn
    obtain ⟨mem₁, hins, h₁⟩ := h.insertOrdered hN (fun x hx => hsub x (by simp [hx])) (hsub elem (by simp))
      (fun hc => hnot (List.mem_append_right xs hc)) less (n := n) (by omega)
    have hperm := listNodes_insertOrdered_perm l elem less X
    have hall : (xs ++ listNodes l (Pintos.listInsertOrdered less elem X)).Perm (elem :: (xs ++ listNodes l X)) :=
      (hperm.append_left xs).trans List.perm_middle
    obtain ⟨mem', hloop, hlist⟩ := IsList.insertAll hN less h₁
      (fun x hx => hsub x (by simpa using hall.mem_iff.mp hx)) (hall.nodup_iff.mpr hnd)
      (by rw [(listInsertOrdered_perm less elem X).length_eq, List.length_cons]; omega)
    refine ⟨mem', ?_, hlist⟩
    rw [PageMem.insertAll, hins]
    exact hloop

theorem IsList.pushAll (hN : Elems N) : ∀ {xs X : List Vaddr} {mem : PageMem},
    IsList mem l X → (∀ x ∈ xs ++ listNodes l X, x ∈ N) → (xs ++ listNodes l X).Nodup →
    ∃ mem', PageMem.pushAll l mem xs = .ok mem' ∧ IsList mem' l (X ++ xs)
  | [], X, mem, h, _, _ => ⟨mem, rfl, by rwa [List.append_nil]⟩
  | elem :: xs, X, mem, h, hsub, hnd => by
    obtain ⟨hnot, hrest⟩ := List.nodup_cons.mp hnd
    obtain ⟨mem₁, hpush, h₁, -⟩ := h.pushBack hN (fun x hx => hsub x (by simp [hx])) (hsub elem (by simp))
      (fun hc => hnot (List.mem_append_right xs hc))
    have hperm : (listNodes l (X ++ [elem])).Perm (elem :: listNodes l X) :=
      (listNodes_perm List.perm_append_comm).trans (List.Perm.swap elem l _)
    have hall : (xs ++ listNodes l (X ++ [elem])).Perm (elem :: (xs ++ listNodes l X)) :=
      (hperm.append_left xs).trans List.perm_middle
    obtain ⟨mem', hloop, hlist⟩ := IsList.pushAll hN h₁
      (fun x hx => hsub x (by simpa using hall.mem_iff.mp hx)) (hall.nodup_iff.mpr hnd)
    rw [List.append_assoc, List.singleton_append] at hlist
    refine ⟨mem', ?_, hlist⟩
    rw [PageMem.pushAll, hpush]
    exact hloop

/-! ## Duplicates -/

/-- The lists at `l` and at `d` have the elements `X` and `D`, and share none. -/
structure IsPair (mem : PageMem) (l d : Vaddr) (X D : List Vaddr) : Prop where
  list : IsList mem l X
  duplicates : IsList mem d D
  nodup : (listNodes l X ++ listNodes d D).Nodup

/-- An element moves from the one list to the end of the other. -/
theorem IsPair.move (h : IsPair mem l d (P ++ e :: R) D) (hN : Elems N)
    (hsub : ∀ x ∈ listNodes l (P ++ e :: R) ++ listNodes d D, x ∈ N) :
    ∃ mem₁ mem', mem.listRemove e = .ok mem₁ ∧ mem₁.listPushBack d e = .ok mem' ∧
      IsPair mem' l d (P ++ R) (D ++ [e]) := by
  have hsubl : ∀ x ∈ listNodes l (P ++ e :: R), x ∈ N := fun x hx => hsub x (List.mem_append_left _ hx)
  have hsubd : ∀ x ∈ listNodes d D, x ∈ N := fun x hx => hsub x (List.mem_append_right _ hx)
  obtain ⟨hndl, hndd, hapart⟩ := List.nodup_append.mp h.nodup
  have hein : e ∈ listNodes l (P ++ e :: R) := by simp [listNodes]
  have hpre : e ∉ P := by
    rw [listNodes, List.append_assoc] at hndl
    intro hc
    exact (List.nodup_append.mp (List.nodup_cons.mp hndl).2).2.2 e hc e (by simp) rfl
  obtain ⟨mem₁, hrem, h₁, hagree₁⟩ := h.list.remove hN hsubl (e := e) (by simp)
  rw [List.erase_append_right _ hpre, List.erase_cons_head] at h₁
  have hd₁ : IsList mem₁ d D :=
    h.duplicates.frame hN hsubd hagree₁ hsubl fun x hx hc => hapart x hc x hx rfl
  have hnew : e ∉ listNodes d D := fun hc => hapart e hein e hc rfl
  obtain ⟨mem', hpush, hd', hagree⟩ := hd₁.pushBack hN hsubd (hsubl e hein) hnew
  -- the nodes of both lists are the same as before
  have hl : (listNodes l (P ++ e :: R)).Perm (e :: listNodes l (P ++ R)) :=
    (listNodes_perm List.perm_middle).trans (List.Perm.swap e l _)
  have hd : (listNodes d (D ++ [e])).Perm (e :: listNodes d D) :=
    (listNodes_perm List.perm_append_comm).trans (List.Perm.swap e d _)
  have hall : (listNodes l (P ++ R) ++ listNodes d (D ++ [e])).Perm (listNodes l (P ++ e :: R) ++ listNodes d D) :=
    calc List.Perm _ (listNodes l (P ++ R) ++ e :: listNodes d D) := hd.append_left _
      List.Perm _ (e :: (listNodes l (P ++ R) ++ listNodes d D)) := List.perm_middle
      List.Perm _ (listNodes l (P ++ e :: R) ++ listNodes d D) := hl.symm.append_right _
  have hnodup := hall.nodup_iff.mpr h.nodup
  refine ⟨mem₁, mem', hrem, hpush, ?_, hd', hnodup⟩
  refine h₁.frame hN (fun x hx => ?_) hagree (fun x hx => ?_) fun x hx hc => ?_
  · exact hsubl x (hl.mem_iff.mpr (List.mem_cons_of_mem e hx))
  · exact hsub x (hall.mem_iff.mp (List.mem_append_right _ hx))
  · exact (List.nodup_append.mp hnodup).2.2 x hx x hc rfl

/-- **The loop of `list_unique`**, behind the elements it has kept. -/
theorem IsPair.uniqueLoop (less : Vaddr → Vaddr → Bool) (hN : Elems N) :
    ∀ {n : Nat} {mem : PageMem} {P R D : List Vaddr} {a : Vaddr}, IsPair mem l d (P ++ a :: R) D →
    (∀ x ∈ listNodes l (P ++ a :: R) ++ listNodes d D, x ∈ N) → R.length < n →
    ∃ mem', PageMem.uniqueLoop l d less n mem a = .ok mem' ∧
      IsPair mem' l d (P ++ (uniqueFrom less a R).1) (D ++ (uniqueFrom less a R).2)
  | 0, _, _, _, _, _, _, _, hn => absurd hn (Nat.not_lt_zero _)
  | n + 1, mem, P, [], D, a, h, hsub, _ => by
    have hnext := h.list.listNext hN fun x hx => hsub x (List.mem_append_left _ hx)
    refine ⟨mem, ?_, by rwa [uniqueFrom, List.append_nil]⟩
    rw [PageMem.uniqueLoop, hnext]
    exact if_pos rfl
  | n + 1, mem, P, b :: R, D, a, h, hsub, hn => by
    have hnext := h.list.listNext hN fun x hx => hsub x (List.mem_append_left _ hx)
    have hassoc : P ++ a :: b :: R = (P ++ [a]) ++ b :: R := by simp
    have hne : b ≠ listTail l := by
      have hlist := h.list
      rw [hassoc] at hlist
      exact IsList.firstOf_ne (P := P ++ [a]) (R := R) (Y := []) (by simpa using hlist)
    have hn' : R.length < n := Nat.lt_of_succ_lt_succ hn
    rw [PageMem.uniqueLoop, hnext, uniqueFrom, firstOf_cons]
    show ∃ mem', (if b = listTail l then _ else _) = _ ∧ _
    rw [if_neg hne]
    by_cases htied : (!less a b && !less b a) = true
    · have hd0 : d ≠ 0 := (hN.elem d (hsub d (by simp [listNodes]))).ne_zero
      have hb : IsPair mem l d ((P ++ [a]) ++ b :: R) D := hassoc ▸ h
      have hsubb : ∀ x ∈ listNodes l ((P ++ [a]) ++ b :: R) ++ listNodes d D, x ∈ N := hassoc ▸ hsub
      obtain ⟨mem₁, mem₂, hrem, hpush, h₂⟩ := hb.move hN hsubb
      have hperm : ∀ x ∈ listNodes l (P ++ [a] ++ R) ++ listNodes d (D ++ [b]), x ∈ N := by
        intro x hx
        refine hsubb x ?_
        simp only [listNodes, List.mem_append, List.mem_cons, List.not_mem_nil, or_false] at hx ⊢
        tauto
      rw [List.append_assoc, List.singleton_append] at h₂ hperm
      obtain ⟨mem', hloop, hpair⟩ := IsPair.uniqueLoop less hN (n := n) h₂ hperm hn'
      refine ⟨mem', ?_, ?_⟩
      · rw [if_pos htied, hrem]
        show (if d ≠ 0 then mem₁.listPushBack d b >>= _ else _) = _
        rw [if_pos hd0, hpush]
        exact hloop
      · rw [if_pos htied]
        rwa [List.append_assoc, List.singleton_append] at hpair
    · obtain ⟨mem', hloop, hpair⟩ := IsPair.uniqueLoop less hN (n := n) (P := P ++ [a]) (hassoc ▸ h) (hassoc ▸ hsub) hn'
      refine ⟨mem', ?_, ?_⟩
      · rw [if_neg htied]
        exact hloop
      · rw [if_neg htied]
        rwa [List.append_assoc, List.singleton_append] at hpair

/-- **`list_unique`.** -/
theorem IsPair.unique (h : IsPair mem l d X D) (hN : Elems N) (hsub : ∀ x ∈ listNodes l X ++ listNodes d D, x ∈ N)
    (less : Vaddr → Vaddr → Bool) (hn : X.length ≤ n) :
    ∃ mem', mem.listUnique l d less n = .ok mem' ∧
      IsPair mem' l d (Pintos.listUnique less X).1 (D ++ (Pintos.listUnique less X).2) := by
  rw [PageMem.listUnique, h.list.listEmpty]
  cases X with
  | nil => exact ⟨mem, if_pos rfl, by rwa [Pintos.listUnique, List.append_nil]⟩
  | cons a R =>
    obtain ⟨mem', hloop, hpair⟩ := IsPair.uniqueLoop less hN (P := []) h hsub hn
    rw [h.list.begin_eq]
    exact ⟨mem', hloop, hpair⟩

end

end Pintos
