import Pintos.Kernel.HashTable

/-!
# Traversals of a hash table visit each element once

* `Callback.overwrite` — a callback that overwrites the element it gets
* `hash_traversals` — **`hash_next`, `hash_apply` and `hash_clear` visit each element exactly once**, and `hash_clear`
  leaves an empty table
-/

namespace Pintos

open LinkedList PageMem

section

variable {mem mem' : PageMem} {h b : Vaddr} {cnt i : Nat} {E : List Vaddr} {T : Hash Vaddr}

theorem IsTable.hasFields (ht : IsTable mem h b T) : HasFields mem h b T.bucketCnt := ⟨ht.bucketCnt, ht.buckets⟩

theorem TablePlace.empty (hp : TablePlace h b cnt E) : TablePlace h b cnt [] := by
  have hsub : ∀ x ∈ bucketEnds b cnt ++ [], x ∈ bucketEnds b cnt ++ E := by
    rw [List.append_nil]
    exact fun x hx => List.mem_append_left E hx
  refine { notNull := hp.notNull, aligned := hp.aligned, inRange := hp.inRange, room := hp.room, apart := ?_,
           nodup := List.nodup_nil, notEnd := by simp, fields := hp.fields.mono_right (elemWords_mono hsub) }
  exact ⟨fun a ha => hp.apart.elem a (hsub a ha), fun a ha c hc => hp.apart.apart a (hsub a ha) c (hsub c hc)⟩

theorem isBuckets_empty : ∀ {bs : List (List Vaddr)} {i : Nat}, (∀ j < cnt, IsList mem (bucketAt b j) []) →
    i + bs.length ≤ cnt → IsBuckets mem b i (bs.map fun _ => [])
  | [], _, _, _ => trivial
  | X :: bs, i, hl, hi => by
    rw [List.length_cons] at hi
    exact ⟨hl i (by omega), isBuckets_empty hl (by omega)⟩

/-- The last store of `hash_clear`. -/
theorem IsTable.cleared (ht : IsTable mem h b T) (hf : HasFields mem' h b T.bucketCnt)
    (hl : ∀ j < T.bucketCnt, IsList mem' (bucketAt b j) []) :
    IsTable (mem'.storeWord h 0) h b (T.hashClear true).1 := by
  have hp := ht.place.empty
  have helems : (T.hashClear true).1.elems = [] := by
    simp [Hash.elems, Hash.hashClear]
  have hag : Agree {w | w ≠ wordNo h} mem' (mem'.storeWord h 0) := Agree.storeWord (by simp) 0
  have hoff : ∀ j < T.bucketCnt, elemWords (listNodes (bucketAt b j) []) ⊆ {w | w ≠ wordNo h} := by
    intro j hj w hw hc
    have hin := elemWords_mono (listNodes_mem_ends (X := []) (E := []) (b := b) hj (by simp)) hw
    exact Set.disjoint_left.mp hp.fields (by simp [fieldWords]) (hc ▸ hin)
  have hf' := hf.congr hp hag ⟨by simp, by simp⟩
  refine { place := ?_, elemCnt := ?_, bucketCnt := hf'.bucketCnt, buckets := hf'.buckets, lists := ?_, length := ?_,
           power := ht.power, count := ?_ }
  · rw [helems]
    exact hp
  · rw [hashElemCnt, loadWord_storeWord, if_pos rfl]
    rfl
  · have hlen : 0 + T.buckets.length ≤ T.bucketCnt := by rw [ht.length, Nat.zero_add]
    refine isBuckets_empty (fun j hj => ?_) hlen
    exact (hl j hj).agree hp.apart (listNodes_mem_ends hj (by simp)) hag (hoff j hj)
  · show (T.buckets.map fun _ => []).length = T.bucketCnt
    rw [List.length_map, ht.length]
  · rw [helems]
    rfl

/-- **A callback may overwrite the element it gets.** -/
theorem Callback.overwrite (hp : TablePlace h b cnt E) (prev next : Vaddr) :
    Callback h b cnt List.tail (fun e mem => .ok ((mem.setPrev e prev).setNext e next)) fun post _ => post <:+ E := by
  intro e post mem hq
  have hsuffix : post <:+ E := (List.suffix_cons e post).trans hq
  have heE : e ∈ E := hq.subset List.mem_cons_self
  have hnot : e ∉ post := (List.nodup_cons.mp (hp.nodup.sublist hq.sublist)).1
  have hein : e ∈ bucketEnds b cnt ++ E := List.mem_append_right _ heE
  have hoff : ∀ w ∈ elemWords [e], w ∉ tableWords h b cnt post := by
    rintro w ⟨y, hy, hw⟩ hin
    rw [List.mem_singleton.mp hy] at hw
    rcases hin with hin | ⟨x, hx, hxw⟩
    · exact Set.disjoint_left.mp hp.fields hin ⟨e, hein, hw⟩
    · have hxin : x ∈ bucketEnds b cnt ++ E := by
        rcases List.mem_append.mp hx with hx | hx
        · exact List.mem_append_left _ hx
        · exact List.mem_append_right _ (hsuffix.subset hx)
      have hne : e ≠ x := by
        rintro rfl
        rcases List.mem_append.mp hx with hx | hx
        · exact hp.notEnd e heE hx
        · exact hnot hx
      obtain ⟨hex, hwords⟩ := hp.apart.wordNo_ne hein hxin
      obtain ⟨hxe, -⟩ := hp.apart.wordNo_ne hxin hein
      have hword := hwords hne
      omega
  refine ⟨_, rfl, hsuffix, (Agree.storeWord (hoff _ ⟨e, by simp, .inl rfl⟩) _).trans (Agree.storeWord (hoff _ ?_) _)⟩
  exact ⟨e, by simp, .inr (hp.apart.elem e hein).wordNo_next⟩

/-- And one that does nothing is a loop body. -/
theorem Callback.nothing (h b : Vaddr) (cnt : Nat) (keep : List Vaddr → List Vaddr) :
    Callback h b cnt keep (fun _ mem => .ok mem) fun _ _ => True :=
  fun _ _ mem _ => ⟨mem, rfl, trivial, Agree.refl _ mem⟩

/-- **Traversals visit each element exactly once.** A loop body may do what it likes to the elements before; the
action of `hash_apply` and the destructor of `hash_clear` may overwrite or free the element itself as well. -/
theorem hash_traversals (ht : IsTable mem h b T) :
    T.elems.Nodup ∧
    (∀ body Q, Callback h b T.bucketCnt id body Q → Q T.elems mem → ∀ n, T.bucketCnt + T.elems.length < n →
      ∃ mem', mem.hashIterate h body n = .ok (mem', T.elems) ∧ Q [] mem') ∧
    (∀ action Q, Callback h b T.bucketCnt List.tail action Q → Q T.elems mem →
      ∀ n, T.bucketCnt + T.elems.length < n →
      ∃ mem', mem.hashApply h action n = .ok (mem', T.elems) ∧ Q [] mem') ∧
    (∀ destructor Q, Callback h b T.bucketCnt List.tail destructor Q →
      (∀ post mem mem', Q post mem → Agree (offElems (bucketEnds b T.bucketCnt ++ T.elems)) mem mem' → Q post mem') →
      Q T.elems mem → ∀ n, T.bucketCnt + T.elems.length < n →
      ∃ mem', mem.hashClear h (some destructor) n = .ok (mem', T.elems) ∧
        IsTable mem' h b (T.hashClear true).1) := by
  have hp := ht.place
  have hf := ht.hasFields
  have hlen : 0 + T.buckets.length = T.bucketCnt := by rw [ht.length, Nat.zero_add]
  have hahead : Ahead mem b 0 T.buckets := ht.lists.ahead hp hlen.le fun _ hx => hx
  refine ⟨hp.nodup, ?_, ?_, ?_⟩
  · intro body Q hcall hq n hn
    -- the iterator begins at the head of the first bucket
    obtain ⟨k, hk⟩ := ht.power
    have hpos : 0 < T.bucketCnt := hk ▸ Nat.two_pow_pos k
    have hfirst : mem.hashFirst h = .ok ⟨h, bucketAt b 0, bucketAt b 0⟩ := by
      have h0 : ¬ h = 0 := hp.notNull
      rw [PageMem.hashFirst, if_neg h0, ht.buckets, TablePlace.bucketAt_zero]
    cases hbs : T.buckets with
    | nil =>
      rw [hbs] at hlen
      exact absurd hlen hpos.ne
    | cons X bs =>
      have hflat : T.elems = X ++ bs.flatten := by rw [Hash.elems, hbs, List.flatten_cons]
      rw [hbs] at hahead hlen
      obtain ⟨-, hleads, hrest⟩ := hahead
      have hl : IsList mem (bucketAt b 0) X := by
        have hlists := ht.lists
        rw [hbs] at hlists
        exact hlists.1
      have hnext : mem.listNext (bucketAt b 0) = .ok (firstOf (bucketAt b 0) X) := by
        refine hl.listNext_head hp.apart (listNodes_mem_ends hpos ?_)
        rw [hflat]
        exact fun x hx => List.mem_append_left _ hx
      obtain ⟨mem', hrun, hq'⟩ := Leads.iterateLoop hp hcall (n := n) (by omega) (k := n) hnext hleads hrest hf
        (by rw [List.length_cons] at hlen; omega) (by rw [← hflat]; exact fun _ hx => hx) (hflat ▸ hq)
        (by rw [← hflat]; omega)
      rw [← hflat] at hrun
      refine ⟨mem', ?_, hq'⟩
      rw [PageMem.hashIterate, hfirst]
      exact hrun
  · intro action Q hcall hq n hn
    rw [Hash.elems] at hn
    exact hahead.applyLoop hp hcall hf hlen (fun _ hx => hx) hq (by rw [ht.length]; omega) (by omega)
  · intro destructor Q hcall hstores hq n hn
    rw [Hash.elems] at hn
    have hnone : ∀ j < 0, IsList mem (bucketAt b j) [] := fun j hj => absurd hj (Nat.not_lt_zero j)
    obtain ⟨mem', hrun, hlists, hf'⟩ := ht.lists.clearLoop hp hcall hstores hnone hf hlen (fun _ hx => hx) hp.nodup hq
      (n := n) (k := n) (by rw [ht.length]; omega) (by omega)
    refine ⟨mem'.storeWord h 0, ?_, ht.cleared hf' hlists⟩
    rw [PageMem.hashClear, hrun]
    rfl

/-- A table with two empty buckets. -/
def threeElems : Hash Vaddr where
  elemCnt := 3
  bucketCnt := 4
  buckets := [[], [1024, 1056], [], [1088]]

def threeElemsMem : PageMem :=
  let mem : PageMem := fun _ _ => 0
  let mem := ((mem.storeWord 4096 3).storeWord 4104 4).storeWord 4112 8192
  let mem := (List.range 4).foldl (fun mem i => mem.listInit (bucketAt 8192 i)) mem
  let filled := do
    let mem ← PageMem.pushAll (bucketAt 8192 1) mem [1024, 1056]
    PageMem.pushAll (bucketAt 8192 3) mem [1088]
  filled.toOption.getD mem

theorem isTable_threeElems : IsTable threeElemsMem 4096 8192 threeElems := by
  refine { place := ?_, elemCnt := by decide +kernel, bucketCnt := by decide +kernel, buckets := by decide +kernel,
           lists := ?_, length := rfl, power := ⟨2, rfl⟩, count := rfl }
  · refine { notNull := by decide, aligned := by decide, inRange := by decide, room := by decide,
             apart := .of_elemsApart (by decide +kernel), nodup := by decide,
             notEnd := fun x hx => ?_, fields := Set.disjoint_left.mpr ?_ }
    · have hall : threeElems.elems.all fun x => !(bucketEnds 8192 4).contains x := by decide +kernel
      have hx' := List.all_eq_true.mp hall x hx
      rw [Bool.not_eq_true', List.contains_eq_mem, decide_eq_false_iff_not] at hx'
      exact hx'
    · rintro w hw ⟨x, hx, hxw⟩
      have hall : (bucketEnds 8192 4 ++ threeElems.elems).all fun x => wordNo x + 1 < 512 || 514 < wordNo x := by
        decide +kernel
      have hx' := List.all_eq_true.mp hall x hx
      have hw' : w = 512 ∨ w = 513 ∨ w = 514 := hw
      simp only [Bool.or_eq_true, decide_eq_true_eq] at hx'
      omega
  · exact ⟨by decide +kernel, by decide +kernel, by decide +kernel, by decide +kernel, trivial⟩

/-- The action and the destructor overwrite each element with null pointers. -/
theorem hash_traversals_three : ∃ mem₁ mem₂ mem₃,
    threeElemsMem.hashIterate 4096 (fun _ mem => .ok mem) 8 = .ok (mem₁, [1024, 1056, 1088]) ∧
    threeElemsMem.hashApply 4096 (fun e mem => .ok ((mem.setPrev e 0).setNext e 0)) 8 =
      .ok (mem₂, [1024, 1056, 1088]) ∧
    threeElemsMem.hashClear 4096 (some fun e mem => .ok ((mem.setPrev e 0).setNext e 0)) 8 =
      .ok (mem₃, [1024, 1056, 1088]) ∧
    IsTable mem₃ 4096 8192 (threeElems.hashClear true).1 := by
  have ht := isTable_threeElems
  obtain ⟨-, hiter, happly, hclear⟩ := hash_traversals ht
  have hover := Callback.overwrite ht.place 0 0
  obtain ⟨mem₁, h₁, -⟩ := hiter _ _ (Callback.nothing _ _ _ _) trivial 8 (by decide)
  obtain ⟨mem₂, h₂, -⟩ := happly _ _ hover (List.suffix_refl _) 8 (by decide)
  obtain ⟨mem₃, h₃, ht₃⟩ := hclear _ _ hover (fun _ _ _ hq _ => hq) (List.suffix_refl _) 8 (by decide)
  exact ⟨mem₁, mem₂, mem₃, h₁, h₂, h₃, ht₃⟩

end

end Pintos
