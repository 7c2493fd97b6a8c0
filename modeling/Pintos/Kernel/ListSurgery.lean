import Pintos.Kernel.ListOrdered

/-!
# Surgery on lists in memory

`list_reverse` by its loads and stores, and what `list_insert`, `list_remove`, `list_splice` and `list_reverse`
do to the elements of one list while others are around.

* `IsList.reverse` — the links of every element are swapped, and then those at the ends
* `ListHeap` — many lists that share no element
* `ListHeap.attach`, `ListHeap.detach`, `ListHeap.reverse` — one of them changes, and the others do not
-/

namespace Pintos

open Function LinkedList

namespace PageMem

/-- `swap`: of the words at the two addresses. -/
def swap (mem : PageMem) (a b : Vaddr) : PageMem :=
  let t := mem.loadWord a
  let mem := mem.storeWord a (mem.loadWord b)
  mem.storeWord b t

/-- The loop of `list_reverse` over `e`. -/
def reverseLoop (l : Vaddr) : Nat → PageMem → Vaddr → Except Panic PageMem
  | 0, _, _ => .error .disabled
  | n + 1, mem, e =>
    if e = listTail l then .ok mem
    else
      let mem := mem.swap e (e + 8)
      reverseLoop l n mem (mem.elemPrev e)

def listReverse (mem : PageMem) (l : Vaddr) (n : Nat) : Except Panic PageMem :=
  if mem.listEmpty l then .ok mem
  else do
    let mem ← reverseLoop l n mem (mem.listBegin l)
    let mem := mem.swap (l + 8) (listTail l)
    .ok (mem.swap (mem.elemNext l) (mem.elemPrev (listTail l) + 8))

end PageMem

/-! ## `list_reverse` -/

section

open PageMem

variable {mem mem' : PageMem} {N : Set Vaddr} {l a b z : Vaddr} {X R : List Vaddr}

/-- The link back of one element is swapped with the link forward of another. -/
theorem swap_eq (mem : PageMem) (a b : Vaddr) :
    mem.swap a (b + 8) = (mem.setPrev a (mem.elemNext b)).setNext b (mem.elemPrev a) := rfl

/-- The links of the elements `R` were swapped. -/
structure Swapped (N : Set Vaddr) (R : List Vaddr) (mem mem' : PageMem) : Prop where
  next : ∀ x ∈ N, mem'.elemNext x = if x ∈ R then mem.elemPrev x else mem.elemNext x
  prev : ∀ x ∈ N, mem'.elemPrev x = if x ∈ R then mem.elemNext x else mem.elemPrev x
  agree : Agree (offElems R) mem mem'

theorem Swapped.refl (mem : PageMem) : Swapped N [] mem mem where
  next := fun _ _ => (if_neg List.not_mem_nil).symm
  prev := fun _ _ => (if_neg List.not_mem_nil).symm
  agree := .refl _ _

theorem offElems_mono {s s' : List Vaddr} (h : ∀ x ∈ s, x ∈ s') : offElems s' ⊆ offElems s :=
  fun _ hw x hx => hw x (h x hx)

/-- The element in front, and then the others. -/
theorem Swapped.cons (hN : Elems N) (ha : a ∈ N) (hnot : a ∉ R) (h : Swapped N R (mem.swap a (a + 8)) mem') :
    Swapped N (a :: R) mem mem' := by
  have hnext : ∀ x ∈ N, (mem.swap a (a + 8)).elemNext x = if a = x then mem.elemPrev a else mem.elemNext x := by
    intro x hx
    rw [swap_eq, elemNext_setNext hN ha hx, elemNext_setPrev hN ha hx]
  have hprev : ∀ x ∈ N, (mem.swap a (a + 8)).elemPrev x = if a = x then mem.elemNext a else mem.elemPrev x := by
    intro x hx
    rw [swap_eq, elemPrev_setNext hN ha hx, elemPrev_setPrev hN ha hx]
  refine ⟨fun x hx => ?_, fun x hx => ?_, ?_⟩
  · rw [h.next x hx, hnext x hx, hprev x hx]
    by_cases hax : a = x
    · subst hax
      simp [hnot]
    · simp [hax, Ne.symm hax]
  · rw [h.prev x hx, hnext x hx, hprev x hx]
    by_cases hax : a = x
    · subst hax
      simp [hnot]
    · simp [hax, Ne.symm hax]
  · have hoff := (hN.elem a ha).notMem_offElems (List.mem_cons_self (a := a) (l := R))
    have hfirst : Agree (offElems (a :: R)) mem (mem.swap a (a + 8)) :=
      (Agree.storeWord hoff.1 _).trans (Agree.storeWord hoff.2 _)
    exact hfirst.trans (h.agree.mono (offElems_mono fun x hx => List.mem_cons_of_mem a hx))

/-- **The loop of `list_reverse`** goes from an element to the tail. -/
theorem reverseLoop_swapped (hN : Elems N) : ∀ {n : Nat} {R : List Vaddr} {mem : PageMem},
    Chained mem.links (R ++ [listTail l]) → (R ++ [listTail l]).Nodup → (∀ x ∈ R ++ [listTail l], x ∈ N) →
    R.length < n → ∃ mem', reverseLoop l n mem (firstOf l R) = .ok mem' ∧ Swapped N R mem mem'
  | 0, _, _, _, _, _, hn => absurd hn (Nat.not_lt_zero _)
  | n + 1, [], mem, _, _, _, _ => ⟨mem, if_pos rfl, .refl mem⟩
  | n + 1, a :: R, mem, h, hnd, hsub, hn => by
    obtain ⟨hnot, hnd'⟩ := List.nodup_cons.mp hnd
    have ha : a ∈ N := hsub a (by simp)
    have hat : a ≠ listTail l := fun hc => hnot (by simp [hc])
    have hsub' : ∀ x ∈ R ++ [listTail l], x ∈ N := fun x hx => hsub x (List.mem_cons_of_mem a hx)
    have hne : ∀ x ∈ R ++ [listTail l], a ≠ x := fun x hx hc => hnot (hc ▸ hx)
    have hlink : mem.elemNext a = firstOf l R := by
      cases R with
      | nil => exact (List.isChain_cons_cons.mp h).1.1
      | cons b R => exact (List.isChain_cons_cons.mp h).1.1
    have hstep : (mem.swap a (a + 8)).elemPrev a = firstOf l R := by
      rw [swap_eq, elemPrev_setNext hN ha ha, elemPrev_setPrev hN ha ha, if_pos rfl, hlink]
    have hrest : Chained (mem.swap a (a + 8)).links (R ++ [listTail l]) := by
      have htail : Chained mem.links (R ++ [listTail l]) := List.IsChain.tail h
      refine htail.congr (fun x hx => ?_) fun x hx => ?_
      · show (mem.swap a (a + 8)).elemNext x = mem.elemNext x
        rw [swap_eq, elemNext_setNext hN ha (hsub' x hx), if_neg (hne x hx), elemNext_setPrev hN ha (hsub' x hx)]
      · have hx := List.mem_of_mem_tail hx
        show (mem.swap a (a + 8)).elemPrev x = mem.elemPrev x
        rw [swap_eq, elemPrev_setNext hN ha (hsub' x hx), elemPrev_setPrev hN ha (hsub' x hx), if_neg (hne x hx)]
    obtain ⟨mem', hloop, hs⟩ := reverseLoop_swapped hN hrest hnd' hsub' (Nat.lt_of_succ_lt_succ hn)
    refine ⟨mem', ?_, hs.cons hN ha fun hc => hnot (List.mem_append_left _ hc)⟩
    rw [reverseLoop, firstOf_cons, if_neg hat]
    dsimp only
    rw [hstep, hloop]

/-- **`list_reverse`.** -/
theorem IsList.reverse (h : IsList mem l X) (hN : Elems N) (hsub : ∀ x ∈ listNodes l X, x ∈ N) {n : Nat}
    (hn : X.length < n) :
    ∃ mem', mem.listReverse l n = .ok mem' ∧ IsList mem' l X.reverse ∧ Agree (offElems (listNodes l X)) mem mem' := by
  rw [PageMem.listReverse, h.listEmpty, h.begin_eq]
  by_cases hX : X = []
  · subst hX
    exact ⟨mem, if_pos rfl, h, .refl _ _⟩
  rw [if_neg (by simpa using hX)]
  obtain ⟨a, hfirst⟩ : ∃ a, X.head? = some a := ⟨_, List.head?_eq_some_head hX⟩
  obtain ⟨z, hlast⟩ : ∃ z, X.getLast? = some z := ⟨_, List.getLast?_eq_some_getLast hX⟩
  have haX : a ∈ X := List.mem_of_mem_head? hfirst
  have hzX : z ∈ X := List.mem_of_mem_getLast? hlast
  obtain ⟨hl, ht⟩ := mem_listNodes_ends l X
  have hXN : ∀ x ∈ X, x ∈ N := fun x hx => hsub x (by simp [listNodes, hx])
  have hlN := hsub l hl
  have htN := hsub _ ht
  have haN := hXN a haX
  have hzN := hXN z hzX
  have hnodup : ([] ++ l :: (X ++ listTail l :: [])).Nodup := h.nodup
  have hlinked : Chained mem.links ([] ++ l :: (X ++ listTail l :: [])) := h.linked
  obtain ⟨⟨-, hlX, -⟩, ⟨-, htX, -⟩, hlt⟩ := nodup_range hnodup
  obtain ⟨-, hchain, -, hla, hzt⟩ := chained_range.mp hlinked
  have hhead : (X ++ [listTail l]).head? = some a := by rw [List.head?_append, hfirst, Option.some_or]
  obtain ⟨hnextl, hpreva⟩ : mem.elemNext l = a ∧ mem.elemPrev a = l := hla a hhead
  obtain ⟨hnextz, hprevt⟩ : mem.elemNext z = listTail l ∧ mem.elemPrev (listTail l) = z := hzt z hlast
  have htail : Chained mem.links (X ++ [listTail l]) := List.IsChain.tail h.linked
  obtain ⟨mem₁, hloop, hs⟩ := reverseLoop_swapped hN htail (List.nodup_cons.mp hnodup).2
    (fun x hx => hsub x (List.mem_cons_of_mem l hx)) hn
  have hal : a ≠ l := fun hc => hlX (hc ▸ haX)
  have hzl : z ≠ l := fun hc => hlX (hc ▸ hzX)
  have hat : a ≠ listTail l := fun hc => htX (hc ▸ haX)
  have hzt' : z ≠ listTail l := fun hc => htX (hc ▸ hzX)
  -- the stores behind the loop
  have hstores₁ : mem₁.swap (l + 8) (listTail l) = (mem₁.setNext l z).setPrev (listTail l) a := by
    have hprev₁ : mem₁.elemPrev (listTail l) = z := by rw [hs.prev _ htN, if_neg htX, hprevt]
    have hnext₁ : mem₁.elemNext l = a := by rw [hs.next l hlN, if_neg hlX, hnextl]
    rw [← hprev₁, ← hnext₁]
    rfl
  set mem₂ := mem₁.swap (l + 8) (listTail l) with hmem₂
  have hnext₂ : ∀ x ∈ N, mem₂.elemNext x = if l = x then z else mem₁.elemNext x := by
    intro x hx
    rw [hstores₁, elemNext_setPrev hN htN hx, elemNext_setNext hN hlN hx]
  have hprev₂ : ∀ x ∈ N, mem₂.elemPrev x = if listTail l = x then a else mem₁.elemPrev x := by
    intro x hx
    rw [hstores₁, elemPrev_setPrev hN htN hx, elemPrev_setNext hN hlN hx]
  have hstores₂ : mem₂.swap (mem₂.elemNext l) (mem₂.elemPrev (listTail l) + 8) =
      (mem₂.setPrev z l).setNext a (listTail l) := by
    have hna : mem₂.elemNext a = l := by rw [hnext₂ a haN, if_neg (Ne.symm hal), hs.next a haN, if_pos haX, hpreva]
    have hpz : mem₂.elemPrev z = listTail l := by
      rw [hprev₂ z hzN, if_neg (Ne.symm hzt'), hs.prev z hzN, if_pos hzX, hnextz]
    rw [hnext₂ l hlN, if_pos rfl, hprev₂ _ htN, if_pos rfl, swap_eq, hna, hpz]
  have hnextOf : ∀ x ∈ N, ((mem₂.setPrev z l).setNext a (listTail l)).elemNext x =
      if a = x then listTail l else if l = x then z else mem₁.elemNext x := by
    intro x hx
    rw [elemNext_setNext hN haN hx, elemNext_setPrev hN hzN hx, hnext₂ x hx]
  have hprevOf : ∀ x ∈ N, ((mem₂.setPrev z l).setNext a (listTail l)).elemPrev x =
      if z = x then l else if listTail l = x then a else mem₁.elemPrev x := by
    intro x hx
    rw [elemPrev_setNext hN haN hx, elemPrev_setPrev hN hzN hx, hprev₂ x hx]
  refine ⟨(mem₂.setPrev z l).setNext a (listTail l), ?_, ⟨?_, ?_, ?_, ?_⟩, ?_⟩
  · rw [hloop]
    exact congrArg Except.ok hstores₂
  · have hperm : (listNodes l X.reverse).Perm (listNodes l X) := listNodes_perm (List.reverse_perm X)
    exact hperm.nodup_iff.mpr h.nodup
  · have hfirst' : X.reverse.head? = some z := by rw [List.head?_reverse, hlast]
    have hlast' : X.reverse.getLast? = some a := by rw [List.getLast?_reverse, hfirst]
    have hXnodup : X.reverse.Nodup := List.nodup_reverse.mpr (List.nodup_append.mp (List.nodup_cons.mp hnodup).2).1
    obtain ⟨hz', ha'⟩ := nodup_ends hXnodup hfirst' hlast'
    show Chained _ ([] ++ l :: (X.reverse ++ [listTail l]))
    refine chained_range.mpr ⟨.singleton l, ?_, .singleton _, ?_, ?_⟩
    · refine hchain.reverse.congr_ends (fun x hx => ?_) fun x hx => ?_
      · have hxX : x ∈ X := List.mem_reverse.mp (List.mem_of_mem_dropLast hx)
        have hax : a ≠ x := fun hc => ha' (hc ▸ hx)
        have hlx : l ≠ x := fun hc => hlX (hc ▸ hxX)
        exact (hnextOf x (hXN x hxX)).trans (by rw [if_neg hax, if_neg hlx, hs.next x (hXN x hxX), if_pos hxX]; rfl)
      · have hxX : x ∈ X := List.mem_reverse.mp (List.mem_of_mem_tail hx)
        have hzx : z ≠ x := fun hc => hz' (hc ▸ hx)
        have htx : listTail l ≠ x := fun hc => htX (hc ▸ hxX)
        exact (hprevOf x (hXN x hxX)).trans (by rw [if_neg hzx, if_neg htx, hs.prev x (hXN x hxX), if_pos hxX]; rfl)
    · rw [List.head?_append, hfirst', Option.some_or]
      rintro x ⟨⟩
      exact ⟨(hnextOf l hlN).trans (by rw [if_neg hal, if_pos rfl]), (hprevOf z hzN).trans (if_pos rfl)⟩
    · rw [hlast']
      rintro x ⟨⟩
      exact ⟨(hnextOf a haN).trans (if_pos rfl), (hprevOf _ htN).trans (by rw [if_neg hzt', if_pos rfl])⟩
  · rw [hprevOf l hlN, if_neg hzl, if_neg (Ne.symm hlt), hs.prev l hlN, if_neg hlX, h.head]
  · rw [hnextOf _ htN, if_neg hat, if_neg hlt, hs.next _ htN, if_neg htX, h.tail]
  · have hoff : ∀ x ∈ listNodes l X, wordNo x ∉ offElems (listNodes l X) ∧ wordNo (x + 8) ∉ offElems (listNodes l X) :=
      fun x hx => (hN.elem x (hsub x hx)).notMem_offElems hx
    have hin : ∀ x ∈ X, x ∈ listNodes l X := fun x hx => by simp [listNodes, hx]
    have hagree₁ : Agree (offElems (listNodes l X)) mem mem₁ := hs.agree.mono (offElems_mono hin)
    rw [hstores₁]
    refine hagree₁.trans (Agree.trans (Agree.trans (Agree.trans (Agree.storeWord ?_ z) (Agree.storeWord ?_ a))
      (Agree.storeWord ?_ l)) (Agree.storeWord ?_ _))
    · exact (hoff l hl).2
    · exact (hoff _ ht).1
    · exact (hoff z (hin z hzX)).1
    · exact (hoff a (hin a haX)).2

end

/-! ## Many lists -/

/-- The elements of the lists at `heads`, with their sentinels. -/
def linkedNodes (heads : Set Vaddr) (items : Vaddr → List Vaddr) : Set Vaddr :=
  {x | ∃ l ∈ heads, x ∈ listNodes l (items l)}

/-- The lists at `heads` have the elements that `items` gives, and share none. The elements `N` are in lists or not. -/
structure ListHeap (mem : PageMem) (N heads : Set Vaddr) (items : Vaddr → List Vaddr) : Prop where
  elems : Elems N
  inside : ∀ x ∈ linkedNodes heads items, x ∈ N
  list : ∀ l ∈ heads, IsList mem l (items l)
  apart : ∀ l ∈ heads, ∀ m ∈ heads, l ≠ m → (listNodes l (items l)).Disjoint (listNodes m (items m))

/-- In front of `before`, or at the end. -/
def insertBefore (before : Vaddr) (X xs : List Vaddr) : List Vaddr :=
  xs.takeWhile (· ≠ before) ++ X ++ xs.dropWhile (· ≠ before)

section

open PageMem

variable {mem mem' : PageMem} {N heads : Set Vaddr} {items : Vaddr → List Vaddr} {l m a z before : Vaddr}
  {A B X Y s xs : List Vaddr}

theorem insertBefore_nil (before : Vaddr) (xs : List Vaddr) : insertBefore before [] xs = xs := by
  rw [insertBefore, List.append_nil, List.takeWhile_append_dropWhile]

/-- The place of an element or of the tail. -/
theorem exists_before (ht : listTail m ∉ xs) (h : before ∈ xs ++ [listTail m]) :
    ∃ A B, xs = A ++ B ∧ before = firstOf m B ∧ ∀ X, insertBefore before X xs = A ++ X ++ B := by
  refine ⟨xs.takeWhile (· ≠ before), xs.dropWhile (· ≠ before), List.takeWhile_append_dropWhile.symm, ?_, fun _ => rfl⟩
  induction xs with
  | nil => exact List.mem_singleton.mp h
  | cons x xs ih =>
    by_cases hx : x = before
    · simp [hx]
    · rw [List.dropWhile_cons_of_pos (by simpa using hx)]
      refine ih (fun hc => ht (List.mem_cons_of_mem x hc)) ?_
      rcases List.mem_cons.mp h with hc | hc
      · exact absurd hc.symm hx
      · exact hc

theorem ListHeap.nodes (h : ListHeap mem N heads items) (hl : l ∈ heads) : ∀ x ∈ listNodes l (items l), x ∈ N :=
  fun x hx => h.inside x ⟨l, hl, hx⟩

/-- One list is replaced by another one that is apart from the rest. -/
theorem ListHeap.replace (h : ListHeap mem N heads items) (hl : l ∈ heads) (hlist : IsList mem' l xs)
    (hin : ∀ x ∈ listNodes l xs, x ∈ N)
    (hout : ∀ x ∈ listNodes l xs, x ∈ listNodes l (items l) ∨ x ∉ linkedNodes heads items)
    (hagree : Agree (offElems s) mem mem') (hs : ∀ x ∈ s, x ∈ listNodes l (items l) ∨ x ∈ listNodes l xs) :
    ListHeap mem' N heads (update items l xs) := by
  have hapart : ∀ m ∈ heads, m ≠ l → (listNodes m (items m)).Disjoint (listNodes l xs) := by
    intro m hm hne x hxm hx
    rcases hout x hx with hc | hc
    · exact h.apart m hm l hl hne hxm hc
    · exact hc ⟨m, hm, hxm⟩
  refine ⟨h.elems, ?_, fun m hm => ?_, fun m hm m' hm' hne => ?_⟩
  · rintro x ⟨m, hm, hx⟩
    by_cases hml : m = l
    · subst hml
      rw [update_self] at hx
      exact hin x hx
    · rw [update_of_ne hml] at hx
      exact h.nodes hm x hx
  · by_cases hml : m = l
    · subst hml
      rwa [update_self]
    · rw [update_of_ne hml]
      refine (h.list m hm).frame h.elems (h.nodes hm) hagree (fun x hx => ?_) fun x hx hc => ?_
      · rcases hs x hx with hx | hx
        · exact h.nodes hl x hx
        · exact hin x hx
      · rcases hs x hc with hc | hc
        · exact h.apart m hm l hl hml hx hc
        · exact hapart m hm hml hx hc
  · by_cases hml : m = l
    · subst hml
      rw [update_self, update_of_ne (Ne.symm hne)]
      exact fun x hx hxm => hapart m' hm' (Ne.symm hne) hxm hx
    · rw [update_of_ne hml]
      by_cases hml' : m' = l
      · subst hml'
        rw [update_self]
        exact hapart m hm hml
      · rw [update_of_ne hml']
        exact h.apart m hm m' hm' hne

/-- **A range of elements that is in no list comes into one.** -/
theorem ListHeap.attach (h : ListHeap mem N heads items) (hm : m ∈ heads) (hitems : items m = A ++ B)
    (hX : Chained mem.links X) (hnd : X.Nodup) (hin : ∀ x ∈ X, x ∈ N) (hout : ∀ x ∈ X, x ∉ linkedNodes heads items)
    (hfirst : X.head? = some a) (hlast : X.getLast? = some z) :
    ListHeap (mem.attach (firstOf m B) a z) N heads (update items m (A ++ X ++ B)) ∧
      Agree (offElems (listNodes m (A ++ X ++ B))) mem (mem.attach (firstOf m B) a z) := by
  obtain ⟨l₁, p, l₂, hxs, hys⟩ := listNodes_range m A X B
  have hlist := h.list m hm
  rw [hitems] at hlist
  have hperm : (listNodes m (A ++ X ++ B)).Perm (X ++ listNodes m (items m)) := by
    rw [hys, hitems, hxs]
    have hmid : ((l₁ ++ [p]) ++ (X ++ firstOf m B :: l₂)).Perm (X ++ ((l₁ ++ [p]) ++ firstOf m B :: l₂)) :=
      List.perm_append_comm_assoc _ _ _
    simpa using hmid
  have hnew : ∀ x ∈ listNodes m (A ++ X ++ B), x ∈ X ∨ x ∈ listNodes m (items m) :=
    fun x hx => List.mem_append.mp (hperm.mem_iff.mp hx)
  have hinN : ∀ x ∈ listNodes m (A ++ X ++ B), x ∈ N := by
    intro x hx
    rcases hnew x hx with hx | hx
    · exact hin x hx
    · exact h.nodes hm x hx
  have hnodup : (listNodes m (A ++ X ++ B)).Nodup := by
    refine hperm.nodup_iff.mpr (List.nodup_append.mpr ⟨hnd, (h.list m hm).nodup, ?_⟩)
    rintro x hx y hy rfl
    exact hout x hx ⟨m, hm, hy⟩
  obtain ⟨hlist', hagree⟩ := hlist.attach h.elems hinN hX hnodup hxs hys hfirst hlast
  refine ⟨h.replace hm hlist' hinN (fun x hx => ?_) hagree fun x hx => .inr hx, hagree⟩
  rcases hnew x hx with hx | hx
  · exact .inr (hout x hx)
  · exact .inl hx

/-- **A range of elements leaves its list**, and is in none then. -/
theorem ListHeap.detach (h : ListHeap mem N heads items) (hl : l ∈ heads) (hitems : items l = A ++ X ++ B)
    (hfirst : X.head? = some a) (hlast : X.getLast? = some z) :
    ListHeap (mem.detach a z) N heads (update items l (A ++ B)) ∧ Chained (mem.detach a z).links X ∧ X.Nodup ∧
      (∀ x ∈ X, x ∈ N) ∧ (∀ x ∈ X, x ∉ linkedNodes heads (update items l (A ++ B))) ∧
      Agree (offElems (listNodes l (items l))) mem (mem.detach a z) := by
  obtain ⟨l₁, p, l₂, hys, hxs⟩ := listNodes_range l A X B
  rw [← hitems] at hxs
  have hperm : (listNodes l (items l)).Perm (X ++ listNodes l (A ++ B)) := by
    rw [hxs, hys]
    have hmid : ((l₁ ++ [p]) ++ (X ++ firstOf l B :: l₂)).Perm (X ++ ((l₁ ++ [p]) ++ firstOf l B :: l₂)) :=
      List.perm_append_comm_assoc _ _ _
    simpa using hmid
  have hXin : ∀ x ∈ X, x ∈ listNodes l (items l) := fun x hx => hperm.mem_iff.mpr (List.mem_append_left _ hx)
  have hold : ∀ x ∈ listNodes l (A ++ B), x ∈ listNodes l (items l) :=
    fun x hx => hperm.mem_iff.mpr (List.mem_append_right X hx)
  obtain ⟨hnd, -, hapart⟩ := List.nodup_append.mp (hperm.nodup_iff.mp (h.list l hl).nodup)
  obtain ⟨hlist', hX, hagree⟩ := (h.list l hl).detach h.elems (h.nodes hl) hxs hys hfirst hlast
  refine ⟨?_, hX, hnd, fun x hx => h.nodes hl x (hXin x hx), ?_, hagree⟩
  · exact h.replace hl hlist' (fun x hx => h.nodes hl x (hold x hx)) (fun x hx => .inl (hold x hx)) hagree
      fun x hx => .inl hx
  · rintro x hx ⟨m, hm, hxm⟩
    by_cases hml : m = l
    · subst hml
      rw [update_self] at hxm
      exact hapart x hx x hxm rfl
    · rw [update_of_ne hml] at hxm
      exact h.apart m hm l hl hml hxm (hXin x hx)

end

end Pintos
