import Pintos.Kernel.ListSurgery
import Pintos.Properties.SortedLists

/-!
# Surgery keeps every list

Among any number of lists that share no element, each operation of `lib/kernel/list.c` that changes links changes the
sequences as it should, wherever the places are that it is given.

* `list_surgery` — **insertion, deletion, splicing and reversal leave all lists well-formed**
-/

namespace Pintos

open Function LinkedList

section

open PageMem

variable {mem : PageMem} {N heads : Set Vaddr} {items : Vaddr → List Vaddr} {l m e before : Vaddr} {A B X : List Vaddr}

/-- Neither an element nor the tail of a list is a head. -/
theorem ListHeap.not_head (h : ListHeap mem N heads items) (hm : m ∈ heads) (hitems : items m = A ++ B) :
    (mem.isInterior (firstOf m B) || mem.isTail (firstOf m B)) = true := by
  obtain ⟨l₁, p, l₂, hxs, -⟩ := listNodes_range m A [] B
  rw [← hitems] at hxs
  exact (h.list m hm).not_head h.elems (h.nodes hm) hxs

theorem ListHeap.tail_notMem (h : ListHeap mem N heads items) (hm : m ∈ heads) : listTail m ∉ items m := by
  have hnd := (List.nodup_cons.mp (h.list m hm).nodup).2
  exact fun hc => (List.nodup_append.mp hnd).2.2 _ hc _ (by simp) rfl

/-- **`list_insert`.** -/
theorem ListHeap.insert (h : ListHeap mem N heads items) (hm : m ∈ heads) (hb : before ∈ items m ++ [listTail m])
    (he : e ∈ N) (hnew : e ∉ linkedNodes heads items) :
    ∃ mem', mem.listInsert before e = .ok mem' ∧
      ListHeap mem' N heads (update items m (insertBefore before [e] (items m))) ∧
      Agree (offElems (e :: listNodes m (items m))) mem mem' := by
  obtain ⟨A, B, hitems, rfl, hins⟩ := exists_before (h.tail_notMem hm) hb
  have hguard : ¬ (¬ (mem.isInterior (firstOf m B) || mem.isTail (firstOf m B)) ∨ e = 0) := by
    rw [h.not_head hm hitems]
    simpa using (h.elems.elem e he).ne_zero
  have hin : ∀ x ∈ [e], x ∈ N := fun x hx => List.mem_singleton.mp hx ▸ he
  have hout : ∀ x ∈ [e], x ∉ linkedNodes heads items := fun x hx => List.mem_singleton.mp hx ▸ hnew
  obtain ⟨hheap, hagree⟩ := h.attach hm hitems (.singleton e) (List.nodup_singleton e) hin hout rfl rfl
  refine ⟨mem.attach (firstOf m B) e e, by rw [listInsert, if_neg hguard]; rfl, ?_, ?_⟩
  · rwa [hins]
  · refine hagree.mono (offElems_mono fun x hx => ?_)
    rw [hitems]
    simp only [listNodes, List.mem_cons, List.mem_append, List.not_mem_nil, or_false] at hx ⊢
    tauto

/-- **`list_remove`**, which returns the element that followed. -/
theorem ListHeap.remove (h : ListHeap mem N heads items) (hl : l ∈ heads) (hitems : items l = A ++ e :: B) :
    ∃ mem', mem.listRemove e = .ok mem' ∧ mem'.elemNext e = firstOf l B ∧
      ListHeap mem' N heads (update items l (A ++ B)) ∧ Agree (offElems (listNodes l (items l))) mem mem' := by
  have hlist := h.list l hl
  have hsub := h.nodes hl
  rw [hitems] at hlist hsub
  obtain ⟨mem', hrem, -, hnext⟩ := hlist.removeStale h.elems hsub
  have hguard : ¬ ¬ mem.isInterior e = true := not_not.mpr (hlist.isInterior h.elems hsub)
  have hitems' : items l = A ++ [e] ++ B := by rw [hitems, List.append_assoc, List.singleton_append]
  obtain ⟨hheap, -, -, -, -, hagree⟩ := h.detach hl hitems' rfl rfl
  have hmem : mem' = mem.detach e e := by
    rw [listRemove, if_neg hguard] at hrem
    exact (Except.ok.inj hrem).symm
  rw [PageMem.listNext] at hnext
  split at hnext
  · exact ⟨mem', hrem, Except.ok.inj hnext, hmem ▸ hheap, hmem ▸ hagree⟩
  · cases hnext

/-- **`list_splice`**: the range moves intact. -/
theorem ListHeap.splice (h : ListHeap mem N heads items) (hl : l ∈ heads) (hm : m ∈ heads)
    (hitems : items l = A ++ X ++ B) (hb : before ∈ items m ++ [listTail m]) (hbX : before ∉ X) :
    ∃ mem', mem.listSplice before (firstOf l (X ++ B)) (firstOf l B) = .ok mem' ∧
      ListHeap mem' N heads
        (update (update items l (A ++ B)) m (insertBefore before X (update items l (A ++ B) m))) ∧
      Agree (offElems (listNodes l (items l) ++ listNodes m (items m))) mem mem' := by
  have hbefore : (mem.isInterior before || mem.isTail before) = true := by
    obtain ⟨C, D, hC, rfl, -⟩ := exists_before (h.tail_notMem hm) hb
    exact h.not_head hm hC
  rw [listSplice, hbefore]
  by_cases hX : X = []
  · subst hX
    have hsame : update items l (A ++ B) = items := by
      rw [← List.append_nil A, ← hitems, update_eq_self]
    rw [insertBefore_nil, update_eq_self, hsame]
    exact ⟨mem, by rw [if_neg (by simp), List.nil_append, if_pos rfl], h, .refl _ _⟩
  obtain ⟨a, R, hXa⟩ := List.exists_cons_of_ne_nil hX
  obtain ⟨R', z, hXz⟩ := List.eq_nil_or_concat X |>.resolve_left hX
  have hfirst : X.head? = some a := by rw [hXa, List.head?_cons]
  have hlast : X.getLast? = some z := by rw [hXz, List.concat_eq_append, List.getLast?_concat]
  have hitemsa : items l = A ++ a :: R ++ B := by rw [hitems, hXa]
  have hitemsa' : items l = A ++ a :: (R ++ B) := by simp [hitemsa]
  have hitemsz : items l = (A ++ R') ++ z :: B := by simp [hitems, hXz]
  have hlist := h.list l hl
  have hsub := h.nodes hl
  have hne : a ≠ firstOf l B := IsList.firstOf_ne (hitemsa ▸ hlist)
  have hprev : mem.listPrev (firstOf l B) = .ok z := IsList.listPrev (hitemsz ▸ hlist) h.elems (hitemsz ▸ hsub)
  have hai : mem.isInterior a = true := IsList.isInterior (hitemsa' ▸ hlist) h.elems (hitemsa' ▸ hsub)
  have hzi : mem.isInterior z = true := IsList.isInterior (hitemsz ▸ hlist) h.elems (hitemsz ▸ hsub)
  have hfirstOf : firstOf l (X ++ B) = a := by rw [hXa, List.cons_append, firstOf_cons]
  -- out of the one list
  obtain ⟨h₁, hchain, hnd, hin, hout, hagree₁⟩ := h.detach hl hitems hfirst hlast
  have hb₁ : before ∈ update items l (A ++ B) m ++ [listTail m] := by
    by_cases hml : m = l
    · subst hml
      rw [update_self]
      rw [hitems] at hb
      simp only [List.mem_append] at hb ⊢
      tauto
    · rwa [update_of_ne hml]
  -- and into the other
  obtain ⟨C, D, hC, rfl, hins⟩ := exists_before (h₁.tail_notMem hm) hb₁
  obtain ⟨h₂, hagree₂⟩ := h₁.attach hm hC hchain hnd hin hout hfirst hlast
  refine ⟨(mem.detach a z).attach (firstOf m D) a z, ?_, ?_, ?_⟩
  · rw [if_neg (by simp), hfirstOf, if_neg hne, hprev]
    show (if ¬ (mem.isInterior a && mem.isInterior z) = true then _ else _) = _
    rw [hai, hzi, if_neg (by simp)]
    rfl
  · rwa [hins]
  · refine (hagree₁.mono (offElems_mono fun x hx => List.mem_append_left _ hx)).trans
      (hagree₂.mono (offElems_mono fun x hx => ?_))
    have hCD : ∀ y ∈ C ++ D, y ∈ items l ∨ y ∈ items m := by
      intro y hy
      rw [← hC] at hy
      by_cases hml : m = l
      · subst hml
        rw [update_self] at hy
        rw [hitems]
        simp only [List.mem_append] at hy ⊢
        tauto
      · rw [update_of_ne hml] at hy
        exact .inr hy
    have hx : x = m ∨ (x ∈ X ∨ x ∈ C ++ D) ∨ x = listTail m := by
      simp only [listNodes, List.mem_cons, List.mem_append, List.not_mem_nil, or_false] at hx ⊢
      tauto
    simp only [listNodes, List.mem_cons, List.mem_append, List.not_mem_nil, or_false]
    rcases hx with rfl | (hx | hx) | rfl
    · simp
    · have hxl : x ∈ items l := by simp [hitems, hx]
      simp [hxl]
    · rcases hCD x hx with hx | hx <;> simp [hx]
    · simp

theorem ListHeap.reverse (h : ListHeap mem N heads items) (hl : l ∈ heads) {n : Nat} (hn : (items l).length < n) :
    ∃ mem', mem.listReverse l n = .ok mem' ∧ ListHeap mem' N heads (update items l (items l).reverse) ∧
      Agree (offElems (listNodes l (items l))) mem mem' := by
  obtain ⟨mem', hrun, hlist, hagree⟩ := (h.list l hl).reverse h.elems (h.nodes hl) hn
  have hperm : (listNodes l (items l).reverse).Perm (listNodes l (items l)) := listNodes_perm (List.reverse_perm _)
  have hin : ∀ x ∈ listNodes l (items l).reverse, x ∈ listNodes l (items l) := fun x hx => hperm.mem_iff.mp hx
  refine ⟨mem', hrun, ?_, hagree⟩
  exact h.replace hl hlist (fun x hx => h.nodes hl x (hin x hx)) (fun x hx => .inl (hin x hx)) hagree
    fun x hx => .inl hx

/-- **Surgery on any of the lists leaves all of them well-formed and changes the sequences exactly**: an element comes
in front of a place, an element goes, a range moves to a place outside of it in the same list or in another one, and a
list is reversed. Nothing else in memory changes. -/
theorem list_surgery (h : ListHeap mem N heads items) :
    (∀ m ∈ heads, ∀ before ∈ items m ++ [listTail m], ∀ e ∈ N, e ∉ linkedNodes heads items →
      ∃ mem', mem.listInsert before e = .ok mem' ∧
        ListHeap mem' N heads (update items m (insertBefore before [e] (items m))) ∧
        Agree (offElems (e :: listNodes m (items m))) mem mem') ∧
    (∀ l ∈ heads, ∀ A e B, items l = A ++ e :: B →
      ∃ mem', mem.listRemove e = .ok mem' ∧ mem'.elemNext e = firstOf l B ∧
        ListHeap mem' N heads (update items l (A ++ B)) ∧ Agree (offElems (listNodes l (items l))) mem mem') ∧
    (∀ l ∈ heads, ∀ m ∈ heads, ∀ A X B, items l = A ++ X ++ B → ∀ before ∈ items m ++ [listTail m], before ∉ X →
      ∃ mem', mem.listSplice before (firstOf l (X ++ B)) (firstOf l B) = .ok mem' ∧
        ListHeap mem' N heads
          (update (update items l (A ++ B)) m (insertBefore before X (update items l (A ++ B) m))) ∧
        Agree (offElems (listNodes l (items l) ++ listNodes m (items m))) mem mem') ∧
    ∀ l ∈ heads, ∀ n, (items l).length < n →
      ∃ mem', mem.listReverse l n = .ok mem' ∧ ListHeap mem' N heads (update items l (items l).reverse) ∧
        Agree (offElems (listNodes l (items l))) mem mem' := by
  refine ⟨?_, ?_, ?_, ?_⟩
  · exact fun m hm before hb e he hnew => h.insert hm hb he hnew
  · exact fun l hl A e B hitems => h.remove hl hitems
  · exact fun l hl m hm A X B hitems before hb hbX => h.splice hl hm hitems hb hbX
  · exact fun l hl n hn => h.reverse hl hn

end

/-- A list with three elements, and an empty one. -/
def twoItems (l : Vaddr) : List Vaddr := if l = 1024 then [32, 48, 64] else []

theorem twoItems_eq : twoItems 1024 = [32, 48, 64] ∧ twoItems 2048 = [] := ⟨if_pos rfl, if_neg (by decide)⟩

theorem twoLists : ListHeap (someElems [32, 48, 64]) {x | x ∈ [32, 48, 64, 96, 1024, 1040, 2048, 2064]} {1024, 2048}
    twoItems where
  elems := .of_elemsApart (by decide +kernel)
  inside := by
    have hin : ∀ x ∈ listNodes 1024 [32, 48, 64] ++ listNodes 2048 [],
        x ∈ ([32, 48, 64, 96, 1024, 1040, 2048, 2064] : List Vaddr) := by simp [listNodes, listTail]
    rintro x ⟨l, rfl | rfl, hx⟩
    · rw [twoItems_eq.1] at hx
      exact hin x (List.mem_append_left _ hx)
    · rw [twoItems_eq.2] at hx
      exact hin x (List.mem_append_right _ hx)
  list := by
    rintro l (rfl | rfl)
    · rw [twoItems_eq.1]
      decide +kernel
    · rw [twoItems_eq.2]
      decide +kernel
  apart := by
    have hapart : ∀ x ∈ listNodes 1024 [32, 48, 64], x ∉ listNodes 2048 [] := by simp [listNodes, listTail]
    rintro l (rfl | rfl) m (rfl | rfl) hlm x hx hxm
    · exact hlm rfl
    · rw [twoItems_eq.1] at hx
      rw [twoItems_eq.2] at hxm
      exact hapart x hx hxm
    · rw [twoItems_eq.2] at hx
      rw [twoItems_eq.1] at hxm
      exact hapart x hxm hx
    · exact hlm rfl

theorem list_surgery_two : ∃ mem', (someElems [32, 48, 64]).listSplice 2064 32 64 = .ok mem' ∧
    IsList mem' 1024 [64] ∧ IsList mem' 2048 [32, 48] := by
  obtain ⟨h1, h2⟩ := twoItems_eq
  obtain ⟨-, -, hsplice, -⟩ := list_surgery twoLists
  obtain ⟨mem', hrun, hheap, -⟩ := hsplice 1024 (.inl rfl) 2048 (.inr rfl) [] [32, 48] [64] h1 2064
    (by rw [h2]; decide) (by decide)
  have hne : (1024 : Vaddr) ≠ 2048 := by decide
  have hlist := hheap.list 1024 (.inl rfl)
  have hlist' := hheap.list 2048 (.inr rfl)
  rw [update_of_ne hne, update_self] at hlist
  rw [update_self, update_of_ne hne.symm, h2] at hlist'
  exact ⟨mem', hrun, hlist, hlist'⟩

end Pintos
