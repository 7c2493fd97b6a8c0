import Mathlib.Order.BourbakiWitt
import Mathlib.Order.CompletePartialOrder
import Pintos.Kernel.Hash
import Pintos.Kernel.ListOrdered

/-!
# Traversals of a hash table in memory

`hash_clear`, `hash_apply`, `hash_first` and `hash_next` of `lib/kernel/hash.c` by their loads and stores. A
`struct hash_elem` is at the address of its `list_elem`, and `buckets` is an array of `struct list`. Each function
also gives the elements that it calls its callback for, in order.

* `IsTable mem h b T` — the table at `h` is `T`, with its buckets at `b`
* `Callback` — what a callback leaves alone
* `IsTable.iterate`, `IsTable.apply`, `IsTable.clear` — what the traversals do with it
-/

namespace Pintos

open LinkedList

/-- `&buckets[i]`. -/
def bucketAt (b : Vaddr) (i : Nat) : Vaddr := b + BitVec.ofNat 64 (32 * i)

/-- `struct hash_iterator`. -/
structure HashIterator where
  hash : Vaddr
  bucket : Vaddr
  elem : Vaddr

/-- A `hash_action_func` with its `aux`. -/
abbrev HashAct := Vaddr → PageMem → Except Panic PageMem

namespace PageMem

/-- `h->elem_cnt`. -/
def hashElemCnt (mem : PageMem) (h : Vaddr) : BitVec 64 := mem.loadWord h

/-- `h->bucket_cnt`. -/
def hashBucketCnt (mem : PageMem) (h : Vaddr) : BitVec 64 := mem.loadWord (h + 8)

/-- `h->buckets`. -/
def hashBuckets (mem : PageMem) (h : Vaddr) : Vaddr := mem.loadWord (h + 16)

/-- The loop of `hash_clear` over one bucket. -/
def destroyBucket (destructor : HashAct) (bucket : Vaddr) : Nat → PageMem → Except Panic (PageMem × List Vaddr)
  | 0, _ => .error .disabled
  | n + 1, mem =>
    if mem.listEmpty bucket then .ok (mem, [])
    else do
      let front ← mem.listPopFront bucket
      let mem ← destructor front.1 front.2
      let rest ← destroyBucket destructor bucket n mem
      .ok (rest.1, front.1 :: rest.2)

/-- The loop of `hash_clear` over the buckets. -/
def clearLoop (h : Vaddr) (destructor : Option HashAct) (n : Nat) :
    Nat → PageMem → Nat → Except Panic (PageMem × List Vaddr)
  | 0, _, _ => .error .disabled
  | k + 1, mem, i =>
    if i < (mem.hashBucketCnt h).toNat then do
      let bucket := bucketAt (mem.hashBuckets h) i
      let out ← match destructor with
        | some destructor => destroyBucket destructor bucket n mem
        | none => .ok (mem, [])
      let rest ← clearLoop h destructor n k (out.1.listInit bucket) (i + 1)
      .ok (rest.1, out.2 ++ rest.2)
    else .ok (mem, [])

def hashClear (mem : PageMem) (h : Vaddr) (destructor : Option HashAct) (n : Nat) :
    Except Panic (PageMem × List Vaddr) := do
  let out ← clearLoop h destructor n n mem 0
  .ok (out.1.storeWord h 0, out.2)

/-- The loop of `hash_apply` over one bucket. -/
def applyBucket (action : HashAct) (bucket : Vaddr) : Nat → PageMem → Vaddr → Except Panic (PageMem × List Vaddr)
  | 0, _, _ => .error .disabled
  | n + 1, mem, elem =>
    if elem = listTail bucket then .ok (mem, [])
    else do
      let next ← mem.listNext elem
      let mem ← action elem mem
      let rest ← applyBucket action bucket n mem next
      .ok (rest.1, elem :: rest.2)

/-- The loop of `hash_apply` over the buckets. -/
def applyLoop (h : Vaddr) (action : HashAct) (n : Nat) : Nat → PageMem → Nat → Except Panic (PageMem × List Vaddr)
  | 0, _, _ => .error .disabled
  | k + 1, mem, i =>
    if i < (mem.hashBucketCnt h).toNat then do
      let bucket := bucketAt (mem.hashBuckets h) i
      let out ← applyBucket action bucket n mem (mem.listBegin bucket)
      let rest ← applyLoop h action n k out.1 (i + 1)
      .ok (rest.1, out.2 ++ rest.2)
    else .ok (mem, [])

def hashApply (mem : PageMem) (h : Vaddr) (action : HashAct) (n : Nat) : Except Panic (PageMem × List Vaddr) :=
  applyLoop h action n n mem 0

def hashFirst (mem : PageMem) (h : Vaddr) : Except Panic HashIterator :=
  if h = 0 then .error .assertion
  -- `list_head (i->bucket)` is at the address of the bucket
  else .ok { hash := h, bucket := mem.hashBuckets h, elem := mem.hashBuckets h }

/-- The loop of `hash_next`. -/
def hashNextLoop (mem : PageMem) (h : Vaddr) : Nat → Vaddr → Vaddr → Except Panic HashIterator
  | 0, _, _ => .error .disabled
  | n + 1, bucket, elem =>
    if elem = listTail bucket then
      if mem.hashBuckets h + 32 * mem.hashBucketCnt h ≤ bucket + 32 then
        .ok { hash := h, bucket := bucket + 32, elem := 0 }
      else mem.hashNextLoop h n (bucket + 32) (mem.listBegin (bucket + 32))
    else .ok { hash := h, bucket := bucket, elem := elem }

def hashNext (mem : PageMem) (i : HashIterator) (n : Nat) : Except Panic HashIterator := do
  let elem ← mem.listNext i.elem
  mem.hashNextLoop i.hash n i.bucket elem

/-- `while (hash_next (&i))`, with the body of the loop. -/
def iterateLoop (body : HashAct) (n : Nat) : Nat → PageMem → HashIterator → Except Panic (PageMem × List Vaddr)
  | 0, _, _ => .error .disabled
  | k + 1, mem, i => do
    let i ← mem.hashNext i n
    if i.elem = 0 then .ok (mem, [])
    else do
      let mem ← body i.elem mem
      let rest ← iterateLoop body n k mem i
      .ok (rest.1, i.elem :: rest.2)

/-- `hash_first (&i, h); while (hash_next (&i))`. -/
def hashIterate (mem : PageMem) (h : Vaddr) (body : HashAct) (n : Nat) : Except Panic (PageMem × List Vaddr) := do
  let i ← mem.hashFirst h
  iterateLoop body n n mem i

end PageMem

/-! ## A table and its parts -/

/-- The words of the elements. -/
def elemWords (s : List Vaddr) : Set Nat := {w | ∃ x ∈ s, w = wordNo x ∨ w = wordNo x + 1}

/-- The words of `elem_cnt`, `bucket_cnt` and `buckets`. -/
def fieldWords (h : Vaddr) : Set Nat := {wordNo h, wordNo h + 1, wordNo h + 2}

/-- The sentinels of the buckets. -/
def bucketEnds (b : Vaddr) (cnt : Nat) : List Vaddr :=
  (List.range cnt).flatMap fun i => [bucketAt b i, listTail (bucketAt b i)]

/-- The parts of a table with the elements `E` do not overlap. -/
structure TablePlace (h b : Vaddr) (cnt : Nat) (E : List Vaddr) : Prop where
  notNull : h ≠ 0
  aligned : h.toNat % 8 = 0
  inRange : h.toNat + 48 ≤ 2 ^ 64
  room : b.toNat + 32 * cnt < 2 ^ 64
  apart : Elems {x | x ∈ bucketEnds b cnt ++ E}
  nodup : E.Nodup
  notEnd : ∀ x ∈ E, x ∉ bucketEnds b cnt
  fields : Disjoint (fieldWords h) (elemWords (bucketEnds b cnt ++ E))

/-- The lists of the buckets from `i` on. -/
def IsBuckets (mem : PageMem) (b : Vaddr) : Nat → List (List Vaddr) → Prop
  | _, [] => True
  | i, X :: bs => IsList mem (bucketAt b i) X ∧ IsBuckets mem b (i + 1) bs

/-- The table at `h` is `T`, with its buckets at `b`. -/
structure IsTable (mem : PageMem) (h b : Vaddr) (T : Hash Vaddr) : Prop where
  place : TablePlace h b T.bucketCnt T.elems
  elemCnt : mem.hashElemCnt h = BitVec.ofNat 64 T.elemCnt
  bucketCnt : (mem.hashBucketCnt h).toNat = T.bucketCnt
  buckets : mem.hashBuckets h = b
  lists : IsBuckets mem b 0 T.buckets
  length : T.buckets.length = T.bucketCnt
  power : ∃ k, T.bucketCnt = 2 ^ k
  count : T.elemCnt = T.elems.length

/-- The words that a traversal reads when `xs` are still to be visited. -/
def tableWords (h b : Vaddr) (cnt : Nat) (xs : List Vaddr) : Set Nat :=
  fieldWords h ∪ elemWords (bucketEnds b cnt ++ xs)

/-- The callback returns, and leaves the table and the elements `keep` of those still to be visited; `Q` is what the
caller knows about the memory then. -/
def Callback (h b : Vaddr) (cnt : Nat) (keep : List Vaddr → List Vaddr) (act : HashAct)
    (Q : List Vaddr → PageMem → Prop) : Prop :=
  ∀ e post mem, Q (e :: post) mem → ∃ mem', act e mem = .ok mem' ∧ Q post mem' ∧
    Agree (tableWords h b cnt (keep (e :: post))) mem mem'

section

open PageMem

variable {mem mem' : PageMem} {h b l x : Vaddr} {cnt i j n k : Nat} {E R P X post : List Vaddr}
  {bs : List (List Vaddr)} {W : Set Nat}

/-! ## Where the parts are -/

theorem elemWords_mono {s s' : List Vaddr} (hs : ∀ x ∈ s, x ∈ s') : elemWords s ⊆ elemWords s' :=
  fun _ ⟨x, hx, hw⟩ => ⟨x, hs x hx, hw⟩

theorem mem_bucketEnds (hi : i < cnt) :
    bucketAt b i ∈ bucketEnds b cnt ∧ listTail (bucketAt b i) ∈ bucketEnds b cnt := by
  constructor <;> exact List.mem_flatMap.mpr ⟨i, List.mem_range.mpr hi, by simp⟩

/-- The nodes of a bucket are parts of the table. -/
theorem listNodes_mem_ends (hi : i < cnt) (hX : ∀ x ∈ X, x ∈ E) :
    ∀ x ∈ listNodes (bucketAt b i) X, x ∈ bucketEnds b cnt ++ E := by
  obtain ⟨hhead, htail⟩ := mem_bucketEnds (b := b) hi
  intro x hx
  simp only [listNodes, List.mem_cons, List.mem_append, List.not_mem_nil, or_false] at hx
  rcases hx with rfl | hx | rfl
  · exact List.mem_append_left _ hhead
  · exact List.mem_append_right _ (hX x hx)
  · exact List.mem_append_left _ htail

theorem TablePlace.bucketAt_toNat (hp : TablePlace h b cnt E) (hi : i ≤ cnt) :
    (bucketAt b i).toNat = b.toNat + 32 * i := by
  have hroom := hp.room
  rw [bucketAt, BitVec.toNat_add, BitVec.toNat_ofNat]
  omega

theorem TablePlace.tail_toNat (hp : TablePlace h b cnt E) (hi : i < cnt) :
    (listTail (bucketAt b i)).toNat = b.toNat + 32 * i + 16 := by
  have hroom := hp.room
  have h16 : (16 : Vaddr).toNat = 16 := rfl
  rw [listTail, BitVec.toNat_add, hp.bucketAt_toNat hi.le, h16]
  omega

/-- Different buckets have different sentinels. -/
theorem TablePlace.ends_ne (hp : TablePlace h b cnt E) (hi : i < cnt) (hj : j < cnt) (hij : i ≠ j)
    (hx : x = bucketAt b i ∨ x = listTail (bucketAt b i)) : x ≠ bucketAt b j ∧ x ≠ listTail (bucketAt b j) := by
  have hti := hp.tail_toNat hi
  have htj := hp.tail_toNat hj
  have hbi := hp.bucketAt_toNat hi.le
  have hbj := hp.bucketAt_toNat hj.le
  constructor <;> intro hc <;> rcases hx with hx | hx <;>
    (have hn := congrArg BitVec.toNat (hx.symm.trans hc); omega)

theorem TablePlace.bucketAt_succ (b : Vaddr) (i : Nat) : bucketAt b i + 32 = bucketAt b (i + 1) := by
  have h32 : (32 : Vaddr) = BitVec.ofNat 64 32 := rfl
  rw [bucketAt, bucketAt, h32, BitVec.add_assoc, ← BitVec.ofNat_add]
  rfl

theorem TablePlace.bucketAt_zero (b : Vaddr) : bucketAt b 0 = b := BitVec.add_zero b

/-- The fields are different words, in the order of the structure. -/
theorem TablePlace.wordNo_field (hp : TablePlace h b cnt E) :
    wordNo (h + 8) = wordNo h + 1 ∧ wordNo (h + 16) = wordNo h + 2 := by
  have haligned := hp.aligned
  have hrange := hp.inRange
  have h8 : (8 : Vaddr).toNat = 8 := rfl
  have h16 : (16 : Vaddr).toNat = 16 := rfl
  unfold wordNo
  rw [BitVec.toNat_add, BitVec.toNat_add, h8, h16]
  omega

/-! ## What agrees on some words -/

theorem elem_congr (hag : Agree W mem mem') (hx : IsElem x) (hw : ∀ w ∈ elemWords [x], w ∈ W) :
    mem'.elemPrev x = mem.elemPrev x ∧ mem'.elemNext x = mem.elemNext x := by
  refine ⟨hag x (hw _ ⟨x, List.mem_singleton_self x, .inl rfl⟩), hag (x + 8) ?_⟩
  rw [hx.wordNo_next]
  exact hw _ ⟨x, List.mem_singleton_self x, .inr rfl⟩

theorem listNext_congr (hag : Agree W mem mem') (hx : IsElem x) (hw : ∀ w ∈ elemWords [x], w ∈ W) :
    mem'.listNext x = mem.listNext x := by
  obtain ⟨hprev, hnext⟩ := elem_congr hag hx hw
  unfold PageMem.listNext PageMem.isHead PageMem.isInterior
  rw [hprev, hnext]

theorem IsList.agree (hl : IsList mem l X) {N : Set Vaddr} (hN : Elems N) (hsub : ∀ x ∈ listNodes l X, x ∈ N)
    (hag : Agree W mem mem') (hw : elemWords (listNodes l X) ⊆ W) : IsList mem' l X := by
  refine hl.congr hN hsub fun x hx a ha => hag a (hw ⟨x, hx, ?_⟩)
  exact ha

/-- The fields of the table. -/
structure HasFields (mem : PageMem) (h b : Vaddr) (cnt : Nat) : Prop where
  bucketCnt : (mem.hashBucketCnt h).toNat = cnt
  buckets : mem.hashBuckets h = b

theorem HasFields.congr (hf : HasFields mem h b cnt) (hp : TablePlace h b cnt E) (hag : Agree W mem mem')
    (hw : wordNo h + 1 ∈ W ∧ wordNo h + 2 ∈ W) : HasFields mem' h b cnt := by
  obtain ⟨h8, h16⟩ := hp.wordNo_field
  constructor
  · rw [hashBucketCnt, hag _ (by rw [h8]; exact hw.1)]
    exact hf.bucketCnt
  · rw [hashBuckets, hag _ (by rw [h16]; exact hw.2)]
    exact hf.buckets

/-- The end of the array of buckets. -/
theorem HasFields.end_eq (hf : HasFields mem h b cnt) :
    mem.hashBuckets h + 32 * mem.hashBucketCnt h = bucketAt b cnt := by
  have hcnt : mem.hashBucketCnt h = BitVec.ofNat 64 cnt := by
    rw [← hf.bucketCnt, BitVec.ofNat_toNat, BitVec.setWidth_eq]
  have h32 : (32 : Vaddr) = BitVec.ofNat 64 32 := rfl
  rw [hf.buckets, hcnt, h32, ← BitVec.ofNat_mul, bucketAt]

/-- Each of the elements leads to the next one, and the last one to the tail of the list. -/
def Leads (mem : PageMem) (l : Vaddr) : List Vaddr → Prop
  | [] => True
  | e :: R => e ≠ listTail l ∧ mem.listNext e = .ok (firstOf l R) ∧ Leads mem l R

theorem IsList.leads {N : Set Vaddr} (hN : Elems N) : ∀ {R P : List Vaddr}, IsList mem l (P ++ R) →
    (∀ x ∈ listNodes l (P ++ R), x ∈ N) → Leads mem l R
  | [], _, _, _ => trivial
  | e :: R, P, hl, hsub => by
    have hassoc : P ++ e :: R = (P ++ [e]) ++ R := by simp
    refine ⟨?_, hl.listNext hN hsub, IsList.leads hN (P := P ++ [e]) (hassoc ▸ hl) (hassoc ▸ hsub)⟩
    exact IsList.firstOf_ne (P := P) (R := R) (Y := []) (by simpa using hl)

/-- The head of a list leads to its first element. -/
theorem IsList.listNext_head {N : Set Vaddr} (hl : IsList mem l X) (hN : Elems N) (hsub : ∀ x ∈ listNodes l X, x ∈ N) :
    mem.listNext l = .ok (firstOf l X) := by
  have hbegin : mem.elemNext l = firstOf l X := hl.begin_eq
  have hl0 := (hN.elem l (hsub l (mem_listNodes_ends l X).1)).ne_zero
  have hfirst : firstOf l X ∈ listNodes l X := by cases X <;> simp [listNodes]
  have hn0 := (hN.elem _ (hsub _ hfirst)).ne_zero
  have hguard : (mem.isHead l || mem.isInterior l) = true := by
    simp [PageMem.isHead, hl.head, hbegin, hl0, hn0]
  rw [PageMem.listNext, if_pos hguard, hbegin]

theorem Leads.congr : ∀ {R : List Vaddr}, Leads mem l R → Agree W mem mem' → (∀ x ∈ R, IsElem x) →
    elemWords R ⊆ W → Leads mem' l R
  | [], _, _, _, _ => trivial
  | e :: R, hl, hag, helem, hw => by
    obtain ⟨hne, hnext, hrest⟩ := hl
    refine ⟨hne, ?_, hrest.congr hag (fun x hx => helem x (List.mem_cons_of_mem e hx)) ?_⟩
    · rw [listNext_congr hag (helem e List.mem_cons_self), hnext]
      exact (elemWords_mono (by simp)).trans hw
    · exact (elemWords_mono fun x hx => List.mem_cons_of_mem e hx).trans hw

/-- The buckets from `i` on can be walked. -/
def Ahead (mem : PageMem) (b : Vaddr) : Nat → List (List Vaddr) → Prop
  | _, [] => True
  | i, X :: bs => mem.listBegin (bucketAt b i) = firstOf (bucketAt b i) X ∧ Leads mem (bucketAt b i) X ∧
      Ahead mem b (i + 1) bs

theorem IsBuckets.ahead (hp : TablePlace h b cnt E) : ∀ {bs : List (List Vaddr)} {i : Nat}, IsBuckets mem b i bs →
    i + bs.length ≤ cnt → (∀ x ∈ bs.flatten, x ∈ E) → Ahead mem b i bs
  | [], _, _, _, _ => trivial
  | X :: bs, i, hb, hi, hE => by
    obtain ⟨hX, hrest⟩ := hb
    rw [List.length_cons] at hi
    have hsub : ∀ x ∈ listNodes (bucketAt b i) X, x ∈ bucketEnds b cnt ++ E :=
      listNodes_mem_ends (by omega) fun x hx => hE x (by simp [hx])
    refine ⟨hX.begin_eq, IsList.leads hp.apart (P := []) hX hsub, IsBuckets.ahead hp hrest (by omega) fun x hx => ?_⟩
    exact hE x (by simp only [List.flatten_cons, List.mem_append]; exact .inr hx)

/-- A callback that leaves the elements to come does not disturb the walk. -/
theorem Ahead.congr (hp : TablePlace h b cnt E) : ∀ {bs : List (List Vaddr)} {i : Nat}, Ahead mem b i bs →
    i + bs.length ≤ cnt → (∀ x ∈ bs.flatten, x ∈ E) → Agree (tableWords h b cnt R) mem mem' →
    (∀ x ∈ bs.flatten, x ∈ R) → Ahead mem' b i bs
  | [], _, _, _, _, _, _ => trivial
  | X :: bs, i, ha, hi, hE, hag, hR => by
    obtain ⟨hbegin, hleads, hrest⟩ := ha
    rw [List.length_cons] at hi
    rw [List.flatten_cons] at hE hR
    have hhead := (mem_bucketEnds (b := b) (show i < cnt by omega)).1
    refine ⟨?_, hleads.congr hag (fun x hx => ?_) ?_, hrest.congr hp (by omega) (fun x hx => ?_) hag fun x hx => ?_⟩
    · rw [← hbegin]
      refine (elem_congr hag (hp.apart.elem _ (List.mem_append_left _ hhead)) fun w hw => ?_).2
      exact .inr (elemWords_mono (fun x hx => List.mem_singleton.mp hx ▸ List.mem_append_left _ hhead) hw)
    · exact hp.apart.elem x (List.mem_append_right _ (hE x (List.mem_append_left _ hx)))
    · exact fun w hw => .inr (elemWords_mono
        (fun x hx => List.mem_append_right _ (hR x (List.mem_append_left _ hx))) hw)
    · exact hE x (List.mem_append_right _ hx)
    · exact hR x (List.mem_append_right _ hx)

/-! ## `hash_apply` -/

variable {act : HashAct} {Q : List Vaddr → PageMem → Prop}

theorem Agree.tableWords (hag : Agree (tableWords h b cnt X) mem mem') (hR : ∀ x ∈ R, x ∈ X) :
    Agree (tableWords h b cnt R) mem mem' := by
  refine hag.mono (Set.union_subset_union_right _ (elemWords_mono fun x hx => ?_))
  rcases List.mem_append.mp hx with hx | hx
  · exact List.mem_append_left _ hx
  · exact List.mem_append_right _ (hR x hx)

theorem tableWords_fields (h b : Vaddr) (cnt : Nat) (R : List Vaddr) :
    wordNo h + 1 ∈ tableWords h b cnt R ∧ wordNo h + 2 ∈ tableWords h b cnt R :=
  ⟨.inl (by simp [fieldWords]), .inl (by simp [fieldWords])⟩

theorem subset_tableWords (hR : ∀ x ∈ R, x ∈ X) : elemWords R ⊆ tableWords h b cnt X :=
  fun _ hw => .inr (elemWords_mono (fun x hx => List.mem_append_right _ (hR x hx)) hw)

/-- **One bucket**: the next element is read before the call. -/
theorem Leads.applyBucket (hcall : Callback h b cnt List.tail act Q) : ∀ {R : List Vaddr} {n : Nat} {mem : PageMem},
    Leads mem l R → (∀ x ∈ R, IsElem x) → Q (R ++ post) mem → R.length < n →
    ∃ mem', PageMem.applyBucket act l n mem (firstOf l R) = .ok (mem', R) ∧ Q post mem' ∧
      Agree (tableWords h b cnt post) mem mem'
  | _, 0, _, _, _, _, hn => absurd hn (Nat.not_lt_zero _)
  | [], n + 1, mem, _, _, hq, _ => ⟨mem, if_pos rfl, hq, Agree.refl _ _⟩
  | e :: R, n + 1, mem, hl, helem, hq, hn => by
    obtain ⟨hne, hnext, hrest⟩ := hl
    obtain ⟨mem₁, hact, hq₁, hag₁⟩ := hcall e (R ++ post) mem hq
    have hR : ∀ x ∈ R, IsElem x := fun x hx => helem x (List.mem_cons_of_mem e hx)
    have hrest₁ := hrest.congr hag₁ hR (subset_tableWords fun x hx => List.mem_append_left _ hx)
    obtain ⟨mem', hrun, hq', hag⟩ :=
      Leads.applyBucket hcall (n := n) hrest₁ hR hq₁ (Nat.lt_of_succ_lt_succ hn)
    refine ⟨mem', ?_, hq', (hag₁.tableWords fun x hx => List.mem_append_right R hx).trans hag⟩
    rw [PageMem.applyBucket, firstOf_cons, if_neg hne, hnext]
    show (act e mem >>= fun mem => _) = _
    rw [hact]
    show (PageMem.applyBucket act l n mem₁ (firstOf l R) >>= fun rest => _) = _
    rw [hrun]
    rfl

/-- **All buckets from `i` on.** -/
theorem Ahead.applyLoop (hp : TablePlace h b cnt E) (hcall : Callback h b cnt List.tail act Q) :
    ∀ {bs : List (List Vaddr)} {i k : Nat} {mem : PageMem}, Ahead mem b i bs → HasFields mem h b cnt →
    i + bs.length = cnt → (∀ x ∈ bs.flatten, x ∈ E) → Q bs.flatten mem → bs.length < k → bs.flatten.length < n →
    ∃ mem', PageMem.applyLoop h act n k mem i = .ok (mem', bs.flatten) ∧ Q [] mem'
  | _, _, 0, _, _, _, _, _, _, hk, _ => absurd hk (Nat.not_lt_zero _)
  | [], i, k + 1, mem, _, hf, hi, _, hq, _, _ => by
    refine ⟨mem, if_neg ?_, hq⟩
    rw [hf.bucketCnt, ← hi]
    exact Nat.lt_irrefl i
  | X :: bs, i, k + 1, mem, ha, hf, hi, hE, hq, hk, hn => by
    obtain ⟨hbegin, hleads, hrest⟩ := ha
    rw [List.length_cons] at hi hk
    rw [List.flatten_cons] at hE hq hn ⊢
    rw [List.length_append] at hn
    have helem : ∀ x ∈ X, IsElem x :=
      fun x hx => hp.apart.elem x (List.mem_append_right _ (hE x (List.mem_append_left _ hx)))
    have hE' : ∀ x ∈ bs.flatten, x ∈ E := fun x hx => hE x (List.mem_append_right _ hx)
    obtain ⟨mem₁, hbucket, hq₁, hag⟩ := hleads.applyBucket hcall (n := n) helem hq (by omega)
    have hf₁ := hf.congr hp hag (tableWords_fields h b cnt _)
    have ha₁ := hrest.congr hp (by omega) hE' hag fun _ hx => hx
    obtain ⟨mem', hrun, hq'⟩ := Ahead.applyLoop hp hcall ha₁ hf₁ (by omega) hE' hq₁ (k := k) (by omega) (by omega)
    refine ⟨mem', ?_, hq'⟩
    have hlt : i < (mem.hashBucketCnt h).toNat := by
      rw [hf.bucketCnt]
      omega
    rw [PageMem.applyLoop, if_pos hlt, hf.buckets]
    show (PageMem.applyBucket act (bucketAt b i) n mem (mem.listBegin (bucketAt b i)) >>= fun out => _) = _
    rw [hbegin, hbucket]
    show (PageMem.applyLoop h act n k mem₁ (i + 1) >>= fun rest => _) = _
    rw [hrun]
    rfl

/-! ## `hash_next` -/

/-- Where the iterator can be after it was moved: at the end, or at the first element of what was ahead. -/
def MovedTo (mem : PageMem) (h b : Vaddr) (cnt : Nat) (i : HashIterator) (rest : List Vaddr) : Prop :=
  i.elem = 0 ∧ rest = [] ∨
  ∃ j e R bs, i = ⟨h, bucketAt b j, e⟩ ∧ rest = e :: (R ++ bs.flatten) ∧ Leads mem (bucketAt b j) (e :: R) ∧
    Ahead mem b (j + 1) bs ∧ j + 1 + bs.length = cnt

/-- **It crosses empty buckets**, and stops at the end of the array. -/
theorem Ahead.hashNextLoop (hp : TablePlace h b cnt E) (hf : HasFields mem h b cnt) :
    ∀ {bs : List (List Vaddr)} {R : List Vaddr} {i n : Nat}, Leads mem (bucketAt b i) R → Ahead mem b (i + 1) bs →
    i + 1 + bs.length = cnt → bs.length < n →
    ∃ it, mem.hashNextLoop h n (bucketAt b i) (firstOf (bucketAt b i) R) = .ok it ∧
      MovedTo mem h b cnt it (R ++ bs.flatten)
  | _, _, _, 0, _, _, _, hn => absurd hn (Nat.not_lt_zero _)
  | bs, e :: R, i, n + 1, hl, ha, hi, _ => by
    refine ⟨⟨h, bucketAt b i, e⟩, ?_, .inr ⟨i, e, R, bs, rfl, rfl, hl, ha, hi⟩⟩
    rw [PageMem.hashNextLoop, firstOf_cons, if_neg hl.1]
  | [], [], i, n + 1, _, _, hi, _ => by
    refine ⟨⟨h, bucketAt b (i + 1), 0⟩, ?_, .inl ⟨rfl, rfl⟩⟩
    have hend : mem.hashBuckets h + 32 * mem.hashBucketCnt h ≤ bucketAt b (i + 1) := by
      rw [hf.end_eq, ← hi]
      exact BitVec.le_refl (bucketAt b (i + 1))
    rw [PageMem.hashNextLoop, firstOf_nil, if_pos rfl, TablePlace.bucketAt_succ, if_pos hend]
  | X :: bs, [], i, n + 1, _, ha, hi, hn => by
    obtain ⟨hbegin, hleads, hrest⟩ := ha
    rw [List.length_cons] at hi hn
    obtain ⟨it, hloop, hmoved⟩ := Ahead.hashNextLoop hp hf (n := n) hleads hrest (by omega) (by omega)
    refine ⟨it, ?_, hmoved⟩
    have hend : ¬ mem.hashBuckets h + 32 * mem.hashBucketCnt h ≤ bucketAt b (i + 1) := by
      rw [hf.end_eq, BitVec.le_def, hp.bucketAt_toNat le_rfl, hp.bucketAt_toNat (by omega)]
      omega
    rw [PageMem.hashNextLoop, firstOf_nil, if_pos rfl, TablePlace.bucketAt_succ, if_neg hend, hbegin]
    exact hloop

/-- **The iteration goes on** from an element that leads to the next one. -/
theorem Leads.iterateLoop (hp : TablePlace h b cnt E) (hcall : Callback h b cnt id act Q) (hn : cnt < n) :
    ∀ {k : Nat} {c : Vaddr} {R : List Vaddr} {bs : List (List Vaddr)} {i : Nat} {mem : PageMem},
    mem.listNext c = .ok (firstOf (bucketAt b i) R) → Leads mem (bucketAt b i) R → Ahead mem b (i + 1) bs →
    HasFields mem h b cnt → i + 1 + bs.length = cnt → (∀ x ∈ R ++ bs.flatten, x ∈ E) → Q (R ++ bs.flatten) mem →
    (R ++ bs.flatten).length < k →
    ∃ mem', PageMem.iterateLoop act n k mem ⟨h, bucketAt b i, c⟩ = .ok (mem', R ++ bs.flatten) ∧ Q [] mem'
  | 0, _, _, _, _, _, _, _, _, _, _, _, _, hk => absurd hk (Nat.not_lt_zero _)
  | k + 1, c, R, bs, i, mem, hnext, hl, ha, hf, hi, hE, hq, hk => by
    obtain ⟨it, hloop, hmoved⟩ := Ahead.hashNextLoop hp hf (n := n) hl ha hi (by omega)
    have hstep : mem.hashNext ⟨h, bucketAt b i, c⟩ n = .ok it := by
      rw [PageMem.hashNext, hnext]
      exact hloop
    rw [PageMem.iterateLoop, hstep]
    show ∃ mem', (if it.elem = 0 then _ else _) = _ ∧ _
    rcases hmoved with ⟨hend, hrest⟩ | ⟨j, e, R', bs', rfl, hrest, hl', ha', hj⟩
    · rw [hrest] at hq ⊢
      rw [if_pos hend]
      exact ⟨mem, rfl, hq⟩
    · rw [hrest] at hE hq hk ⊢
      have helem : IsElem e := hp.apart.elem e (List.mem_append_right _ (hE e List.mem_cons_self))
      have he0 : ¬ e = 0 := helem.ne_zero
      have hE' : ∀ x ∈ R' ++ bs'.flatten, x ∈ E := fun x hx => hE x (List.mem_cons_of_mem e hx)
      obtain ⟨mem₁, hact, hq₁, hag⟩ := hcall e (R' ++ bs'.flatten) mem hq
      -- the body leaves the element, so it still leads to the next one
      have hl₁ : Leads mem₁ (bucketAt b j) (e :: R') := by
        refine hl'.congr hag (fun x hx => ?_) (subset_tableWords fun x hx => ?_)
        · refine hp.apart.elem x (List.mem_append_right _ (hE x ?_))
          exact (List.mem_cons.mp hx).elim (fun hc => hc ▸ List.mem_cons_self)
            fun hx => List.mem_cons_of_mem e (List.mem_append_left _ hx)
        · exact (List.mem_cons.mp hx).elim (fun hc => hc ▸ List.mem_cons_self)
            fun hx => List.mem_cons_of_mem e (List.mem_append_left _ hx)
      have ha₁ : Ahead mem₁ b (j + 1) bs' :=
        ha'.congr hp (by omega) (fun x hx => hE' x (List.mem_append_right _ hx)) hag
          fun x hx => List.mem_cons_of_mem e (List.mem_append_right _ hx)
      have hf₁ := hf.congr hp hag (tableWords_fields h b cnt _)
      obtain ⟨-, hnext₁, hrest₁⟩ := hl₁
      obtain ⟨mem', hrun, hq'⟩ := Leads.iterateLoop hp hcall hn (k := k) hnext₁ hrest₁ ha₁ hf₁ hj hE' hq₁
        (by rw [List.length_cons] at hk; omega)
      refine ⟨mem', ?_, hq'⟩
      rw [if_neg he0]
      show (act e mem >>= fun mem => _) = _
      rw [hact]
      show (PageMem.iterateLoop act n k mem₁ ⟨h, bucketAt b j, e⟩ >>= fun rest => _) = _
      rw [hrun]
      rfl

/-! ## `hash_clear` -/

theorem offElems_anti {s s' : List Vaddr} (hs : ∀ x ∈ s, x ∈ s') : offElems s' ⊆ offElems s :=
  fun _ hw x hx => hw x (hs x hx)

theorem listNodes_tail (l e : Vaddr) (X : List Vaddr) : ∀ x ∈ listNodes l X, x ∈ listNodes l (e :: X) := by
  intro x hx
  simp only [listNodes, List.cons_append, List.mem_cons] at hx ⊢
  tauto

/-- Two buckets with different elements share no word. -/
theorem TablePlace.off (hp : TablePlace h b cnt E) {Y : List Vaddr} (hi : i < cnt) (hj : j < cnt) (hij : i ≠ j)
    (hX : ∀ x ∈ X, x ∈ E) (hY : ∀ x ∈ Y, x ∈ E) (hXY : ∀ x ∈ X, x ∉ Y) :
    elemWords (listNodes (bucketAt b j) Y) ⊆ offElems (listNodes (bucketAt b i) X) := by
  have hXin := listNodes_mem_ends (b := b) hi hX
  have hYin := listNodes_mem_ends (b := b) hj hY
  obtain ⟨hhi, hti⟩ := mem_bucketEnds (b := b) hi
  obtain ⟨hhj, htj⟩ := mem_bucketEnds (b := b) hj
  have hne : ∀ y ∈ listNodes (bucketAt b j) Y, ∀ x ∈ listNodes (bucketAt b i) X, y ≠ x := by
    intro y hy x hx hyx
    subst hyx
    simp only [listNodes, List.mem_cons, List.mem_append, List.not_mem_nil, or_false] at hx hy
    by_cases hyY : y ∈ Y
    · rcases hx with rfl | hx | rfl
      · exact hp.notEnd _ (hY _ hyY) hhi
      · exact hXY y hx hyY
      · exact hp.notEnd _ (hY _ hyY) hti
    · by_cases hyX : y ∈ X
      · rcases hy with rfl | hy | rfl
        · exact hp.notEnd _ (hX _ hyX) hhj
        · exact hyY hy
        · exact hp.notEnd _ (hX _ hyX) htj
      · obtain ⟨hhead, htail⟩ := hp.ends_ne hi hj hij (x := y) (by tauto)
        rcases hy with hy | hy | hy
        · exact hhead hy
        · exact hyY hy
        · exact htail hy
  rintro w ⟨y, hy, hw⟩ x hx
  obtain ⟨hyx, hwords⟩ := hp.apart.wordNo_ne (hYin y hy) (hXin x hx)
  obtain ⟨hxy, -⟩ := hp.apart.wordNo_ne (hXin x hx) (hYin y hy)
  have hword := hwords (hne y hy x hx)
  rcases hw with hw | hw <;> rw [hw] <;> constructor <;> omega

theorem listNodes_words (hi : i < cnt) (hX : ∀ x ∈ X, x ∈ R) :
    elemWords (listNodes (bucketAt b i) X) ⊆ tableWords h b cnt R :=
  fun _ hw => .inr (elemWords_mono (listNodes_mem_ends hi hX) hw)

/-- The fields are none of the words of a bucket. -/
theorem TablePlace.fields_off (hp : TablePlace h b cnt E) (hi : i < cnt) (hX : ∀ x ∈ X, x ∈ E) :
    fieldWords h ⊆ offElems (listNodes (bucketAt b i) X) := by
  intro w hw x hx
  have hin := listNodes_mem_ends (b := b) hi hX x hx
  constructor <;> rintro rfl
  · exact Set.disjoint_left.mp hp.fields hw ⟨x, hin, .inl rfl⟩
  · exact Set.disjoint_left.mp hp.fields hw ⟨x, hin, .inr rfl⟩

/-- **One bucket**: each element is out of the list before the destructor gets it. -/
theorem IsList.destroyBucket (hp : TablePlace h b cnt E) (hcall : Callback h b cnt List.tail act Q)
    (hstores : ∀ post mem mem', Q post mem → Agree (offElems (bucketEnds b cnt ++ E)) mem mem' → Q post mem')
    (hi : i < cnt) : ∀ {X : List Vaddr} {n : Nat} {mem : PageMem}, IsList mem (bucketAt b i) X →
    (∀ x ∈ X, x ∈ E) → Q (X ++ post) mem → X.length < n →
    ∃ mem', PageMem.destroyBucket act (bucketAt b i) n mem = .ok (mem', X) ∧ IsList mem' (bucketAt b i) [] ∧
      Q post mem' ∧ Agree (tableWords h b cnt post ∩ offElems (listNodes (bucketAt b i) X)) mem mem'
  | _, 0, _, _, _, _, hn => absurd hn (Nat.not_lt_zero _)
  | [], n + 1, mem, hl, _, hq, _ => by
    refine ⟨mem, ?_, hl, hq, Agree.refl _ _⟩
    rw [PageMem.destroyBucket, hl.listEmpty]
    rfl
  | e :: X, n + 1, mem, hl, hE, hq, hn => by
    have hsub := listNodes_mem_ends (b := b) hi hE
    have hE' : ∀ x ∈ X, x ∈ E := fun x hx => hE x (List.mem_cons_of_mem e hx)
    obtain ⟨mem₁, hpop, hl₁, hag₁⟩ := hl.popFront hp.apart hsub
    have hq₁ := hstores _ _ _ hq (hag₁.mono (offElems_anti hsub))
    obtain ⟨mem₂, hact, hq₂, hag₂⟩ := hcall e (X ++ post) mem₁ hq₁
    have hl₂ := hl₁.agree hp.apart (listNodes_mem_ends hi hE') hag₂
      (listNodes_words hi fun x hx => List.mem_append_left post hx)
    obtain ⟨mem', hrun, hl', hq', hag⟩ :=
      IsList.destroyBucket hp hcall hstores hi (n := n) hl₂ hE' hq₂ (Nat.lt_of_succ_lt_succ hn)
    refine ⟨mem', ?_, hl', hq', ?_⟩
    · rw [PageMem.destroyBucket, hl.listEmpty, List.isEmpty_cons, if_neg Bool.false_ne_true, hpop]
      show (act e mem₁ >>= fun mem => _) = _
      rw [hact]
      show (PageMem.destroyBucket act (bucketAt b i) n mem₂ >>= fun rest => _) = _
      rw [hrun]
      rfl
    · have hkeep := hag₂.tableWords (R := post) fun x hx => List.mem_append_right X hx
      have hpops := hag₁.mono (Set.inter_subset_right (s := tableWords h b cnt post))
      refine (hpops.trans (hkeep.mono Set.inter_subset_left)).trans (hag.mono ?_)
      exact Set.inter_subset_inter_right _ (offElems_anti (listNodes_tail _ e X))

theorem IsBuckets.agree (hp : TablePlace h b cnt E) : ∀ {bs : List (List Vaddr)} {j : Nat}, IsBuckets mem b j bs →
    Agree (tableWords h b cnt R ∩ offElems (listNodes (bucketAt b i) X)) mem mem' → i < j → j + bs.length ≤ cnt →
    (∀ x ∈ X, x ∈ E) → (∀ x ∈ bs.flatten, x ∈ E ∧ x ∈ R ∧ x ∉ X) → IsBuckets mem' b j bs
  | [], _, _, _, _, _, _, _ => trivial
  | Y :: bs, j, hb, hag, hij, hj, hX, hY => by
    obtain ⟨hl, hrest⟩ := hb
    rw [List.length_cons] at hj
    rw [List.flatten_cons] at hY
    have hin : ∀ x ∈ Y, x ∈ E ∧ x ∈ R ∧ x ∉ X := fun x hx => hY x (List.mem_append_left _ hx)
    refine ⟨?_, hrest.agree hp hag (by omega) (by omega) hX fun x hx => hY x (List.mem_append_right _ hx)⟩
    refine hl.agree hp.apart (listNodes_mem_ends (by omega) fun x hx => (hin x hx).1) hag (Set.subset_inter ?_ ?_)
    · exact listNodes_words (by omega) fun x hx => (hin x hx).2.1
    · exact hp.off (by omega) (by omega) (by omega) hX (fun x hx => (hin x hx).1) fun x hx hc => (hin x hc).2.2 hx

/-- **All buckets from `i` on.** -/
theorem IsBuckets.clearLoop (hp : TablePlace h b cnt E) (hcall : Callback h b cnt List.tail act Q)
    (hstores : ∀ post mem mem', Q post mem → Agree (offElems (bucketEnds b cnt ++ E)) mem mem' → Q post mem') :
    ∀ {bs : List (List Vaddr)} {i k : Nat} {mem : PageMem}, IsBuckets mem b i bs →
    (∀ j < i, IsList mem (bucketAt b j) []) → HasFields mem h b cnt → i + bs.length = cnt →
    (∀ x ∈ bs.flatten, x ∈ E) → bs.flatten.Nodup → Q bs.flatten mem → bs.length < k → bs.flatten.length < n →
    ∃ mem', PageMem.clearLoop h (some act) n k mem i = .ok (mem', bs.flatten) ∧
      (∀ j < cnt, IsList mem' (bucketAt b j) []) ∧ HasFields mem' h b cnt
  | _, _, 0, _, _, _, _, _, _, _, _, hk, _ => absurd hk (Nat.not_lt_zero _)
  | [], i, k + 1, mem, _, hdone, hf, hi, _, _, _, _, _ => by
    refine ⟨mem, if_neg ?_, fun j hj => hdone j (by rw [← hi] at hj; exact hj), hf⟩
    rw [hf.bucketCnt, ← hi]
    exact Nat.lt_irrefl i
  | X :: bs, i, k + 1, mem, hb, hdone, hf, hi, hE, hnd, hq, hk, hn => by
    obtain ⟨hl, hrest⟩ := hb
    rw [List.length_cons] at hi hk
    rw [List.flatten_cons] at hE hnd hq hn ⊢
    rw [List.length_append] at hn
    obtain ⟨-, hnd', hapart⟩ := List.nodup_append.mp hnd
    have hX : ∀ x ∈ X, x ∈ E := fun x hx => hE x (List.mem_append_left _ hx)
    have hE' : ∀ x ∈ bs.flatten, x ∈ E := fun x hx => hE x (List.mem_append_right _ hx)
    have hlt : i < cnt := by omega
    obtain ⟨mem₁, hdestroy, hl₁, hq₁, hag₁⟩ := hl.destroyBucket hp hcall hstores hlt (n := n) hX hq (by omega)
    -- `list_init` of the bucket that is empty
    obtain ⟨hhead, htail⟩ := mem_bucketEnds (b := b) hlt
    have hne : bucketAt b i ≠ listTail (bucketAt b i) := by
      have hnodes := hl₁.nodup
      simp only [listNodes, List.nil_append, List.nodup_cons, List.mem_singleton] at hnodes
      exact hnodes.1
    have hinit : IsList (mem₁.listInit (bucketAt b i)) (bucketAt b i) [] ∧
        Agree (offElems (listNodes (bucketAt b i) [])) mem₁ (mem₁.listInit (bucketAt b i)) :=
      isList_listInit hp.apart (List.mem_append_left E hhead) (List.mem_append_left E htail) hne
    obtain ⟨hl₂, hag₂⟩ := hinit
    have hag : Agree (tableWords h b cnt bs.flatten ∩ offElems (listNodes (bucketAt b i) X)) mem
        (mem₁.listInit (bucketAt b i)) := by
      refine hag₁.trans (hag₂.mono (Set.inter_subset_right.trans (offElems_anti fun x hx => ?_)))
      simp only [listNodes, List.nil_append, List.mem_cons, List.not_mem_nil, or_false] at hx
      rcases hx with rfl | rfl
      · exact (mem_listNodes_ends _ X).1
      · exact (mem_listNodes_ends _ X).2
    have hq₂ := hstores _ _ _ hq₁ (hag₂.mono (offElems_anti (listNodes_mem_ends hlt (by simp))))
    have hf₂ : HasFields (mem₁.listInit (bucketAt b i)) h b cnt := by
      have hoff := hp.fields_off hlt hX
      have hin := tableWords_fields h b cnt bs.flatten
      exact hf.congr hp hag ⟨⟨hin.1, hoff (by simp [fieldWords])⟩, ⟨hin.2, hoff (by simp [fieldWords])⟩⟩
    have hb₂ := hrest.agree hp hag (Nat.lt_succ_self i) (by omega) hX
      fun x hx => ⟨hE' x hx, hx, fun hc => hapart x hc x hx rfl⟩
    have hdone₂ : ∀ j < i + 1, IsList (mem₁.listInit (bucketAt b i)) (bucketAt b j) [] := by
      intro j hj
      by_cases hji : j = i
      · rwa [hji]
      · refine (hdone j (by omega)).agree hp.apart (listNodes_mem_ends (by omega) (by simp)) hag ?_
        exact Set.subset_inter (listNodes_words (by omega) (by simp))
          (hp.off hlt (by omega) (by omega) hX (by simp) (by simp))
    obtain ⟨mem', hrun, hlists, hf'⟩ := IsBuckets.clearLoop hp hcall hstores (k := k) hb₂ hdone₂ hf₂ (by omega) hE' hnd'
      hq₂ (by omega) (by omega)
    refine ⟨mem', ?_, hlists, hf'⟩
    have hguard : i < (mem.hashBucketCnt h).toNat := by
      rw [hf.bucketCnt]
      exact hlt
    rw [PageMem.clearLoop, if_pos hguard, hf.buckets]
    show (PageMem.destroyBucket act (bucketAt b i) n mem >>= fun out => _) = _
    rw [hdestroy]
    show (PageMem.clearLoop h (some act) n k (mem₁.listInit (bucketAt b i)) (i + 1) >>= fun rest => _) = _
    rw [hrun]
    rfl

end

end Pintos
