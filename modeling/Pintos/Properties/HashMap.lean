import Pintos.Kernel.Hash

/-!
# The hash table is a finite map

* `HashOrder.key` — the class of the elements that `less` does not tell apart
* `Hash.Refines F h m` — the table `h` holds the map `m` from these classes to elements
* `stripBits_eq` — the loop of `rehash` leaves the highest power of two
* `hash_table_refines_map` — every sequence of calls returns what the map returns
-/

namespace Pintos

open Function KeyedMap

/-! ## Powers of two -/

theorem turnOffLeast1bit_lt {x : Nat} (hx : x ≠ 0) : turnOffLeast1bit x < x := by
  have hle : x &&& (x - 1) ≤ x - 1 := Nat.and_le_right
  unfold turnOffLeast1bit
  omega

/-- The highest bit stays, unless it is the only one. -/
theorem le_turnOffLeast1bit {x k : Nat} (hlo : 2 ^ k < x) (hhi : x < 2 ^ (k + 1)) :
    2 ^ k ≤ turnOffLeast1bit x := by
  have hx : x.testBit k = true := Nat.testBit_of_two_pow_le_and_two_pow_add_one_gt hlo.le hhi
  have hx₁ : (x - 1).testBit k = true :=
    Nat.testBit_of_two_pow_le_and_two_pow_add_one_gt (by omega) (by omega)
  refine Nat.ge_two_pow_of_testBit ?_
  rw [turnOffLeast1bit, Nat.testBit_and, hx, hx₁]
  rfl

/-- **The loop of `rehash` leaves the highest power of two.** -/
theorem stripBits_eq {k : Nat} : ∀ {fuel x : Nat}, x ≤ fuel → 2 ^ k ≤ x → x < 2 ^ (k + 1) →
    stripBits fuel x = 2 ^ k
  | 0, x, hf, hlo, _ => by
    have hpos := Nat.two_pow_pos k
    omega
  | fuel + 1, x, hf, hlo, hhi => by
    have hpos := Nat.two_pow_pos k
    have hlt : turnOffLeast1bit x < x := turnOffLeast1bit_lt (by omega)
    rw [stripBits]
    rcases hlo.eq_or_lt with he | hlt'
    · have hpow : isPowerOf2 x = true := by
        rw [← he]
        simp [isPowerOf2, turnOffLeast1bit, Nat.and_two_pow_sub_one_eq_mod]
      rw [if_pos hpow, he]
    · have hle := le_turnOffLeast1bit hlt' hhi
      have hpow : isPowerOf2 x = false := by
        simp only [isPowerOf2, Bool.and_eq_false_iff, beq_eq_false_iff_ne]
        right
        omega
      rw [hpow, if_neg Bool.false_ne_true]
      exact stripBits_eq (by omega) hle (by omega)

/-- The number of buckets is a power of two. -/
theorem newBucketCnt_spec (n : Nat) : ∃ k, newBucketCnt n = 2 ^ k ∧ 2 ≤ k := by
  have key : ∀ m, 4 ≤ m → ∃ k, stripBits m m = 2 ^ k ∧ 2 ≤ k := by
    intro m hm
    refine ⟨m.log2, stripBits_eq le_rfl (Nat.log2_self_le (by omega)) Nat.lt_log2_self, ?_⟩
    exact (Nat.le_log2 (by omega)).mpr hm
  unfold newBucketCnt
  dsimp only
  split
  · exact key 4 le_rfl
  · next hlt => exact key _ (by omega)

/-! ## Keys -/

namespace HashOrder

variable {ε : Type*} (F : HashOrder ε)

/-- `less` tells neither before the other. -/
def Same (a b : ε) : Prop := F.less a b = false ∧ F.less b a = false

def setoid : Setoid ε where
  r := F.Same
  iseqv := by
    have := F.weakOrder
    refine ⟨fun a => ?_, fun h => ⟨h.2, h.1⟩, fun {a b c} hab hbc => ?_⟩
    · have hirr : F.less a a = false := Bool.eq_false_iff.mpr (irrefl (r := fun a b => F.less a b = true) a)
      exact ⟨hirr, hirr⟩
    · have hac := F.weakOrder.incomp_trans a b c
        ⟨Bool.eq_false_iff.mp hab.1, Bool.eq_false_iff.mp hab.2⟩
        ⟨Bool.eq_false_iff.mp hbc.1, Bool.eq_false_iff.mp hbc.2⟩
      exact ⟨Bool.eq_false_iff.mpr hac.1, Bool.eq_false_iff.mpr hac.2⟩

def Key : Type _ := Quotient F.setoid

/-- The class of an element. -/
def key (e : ε) : F.Key := Quotient.mk F.setoid e

theorem key_eq_iff {a b : ε} : F.key a = F.key b ↔ F.Same a b := Quotient.eq (r := F.setoid)

end HashOrder

/-! ## Buckets -/

namespace Hash

variable {ε : Type*} {F : HashOrder ε} {bs : List (List ε)} {cnt i j : Nat} {e : ε}

theorem pushFront_length : (pushFront bs i e).length = bs.length := List.length_modify ..

theorem pushFront_perm : ∀ {bs : List (List ε)} {i : Nat}, i < bs.length →
    (pushFront bs i e).flatten.Perm (e :: bs.flatten)
  | [], i, hi => absurd hi (Nat.not_lt_zero i)
  | b :: bs, 0, _ => List.Perm.refl _
  | b :: bs, i + 1, hi => by
    have hrest : (pushFront bs i e).flatten.Perm (e :: bs.flatten) :=
      pushFront_perm (Nat.lt_of_succ_lt_succ hi)
    exact (hrest.append_left b).trans List.perm_middle

theorem mem_pushFront {x : ε} (hx : x ∈ (pushFront bs i e).getD j []) :
    x ∈ bs.getD j [] ∨ (x = e ∧ j = i) := by
  rw [List.getD_eq_getElem?_getD, pushFront] at hx
  rw [List.getD_eq_getElem?_getD]
  by_cases hij : i = j
  · subst hij
    rw [List.getElem?_modify_eq] at hx
    cases hb : bs[i]? with
    | none =>
      rw [hb] at hx
      exact absurd hx List.not_mem_nil
    | some b =>
      rw [hb] at hx
      rcases List.mem_cons.mp hx with hx | hx
      · exact Or.inr ⟨hx, rfl⟩
      · exact Or.inl hx
  · rw [List.getElem?_modify_ne _ _ hij] at hx
    exact Or.inl hx

/-- Each element is in the bucket that it belongs in. -/
def Placed (F : HashOrder ε) (cnt : Nat) (bs : List (List ε)) : Prop :=
  ∀ i, ∀ e ∈ bs.getD i [], bucketIdx F cnt e = i

theorem Placed.pushFront (h : Placed F cnt bs) : Placed F cnt (pushFront bs (bucketIdx F cnt e) e) := by
  intro j x hx
  rcases mem_pushFront hx with hx | ⟨rfl, rfl⟩
  · exact h j x hx
  · rfl

theorem bucketIdx_lt (hcnt : 0 < cnt) : bucketIdx F cnt e < cnt := by
  have hle : (F.hash e).toNat &&& (cnt - 1) ≤ cnt - 1 := Nat.and_le_right
  unfold bucketIdx
  omega

theorem mem_elems_of_mem (h : e ∈ bs.getD i []) : e ∈ bs.flatten := by
  rw [List.getD_eq_getElem?_getD] at h
  cases hb : bs[i]? with
  | none =>
    rw [hb] at h
    exact absurd h List.not_mem_nil
  | some b =>
    rw [hb] at h
    exact List.mem_flatten.mpr ⟨b, List.mem_of_getElem? hb, h⟩

/-- An element of a placed table is in its own bucket. -/
theorem Placed.mem (h : Placed F cnt bs) (he : e ∈ bs.flatten) : e ∈ bs.getD (bucketIdx F cnt e) [] := by
  obtain ⟨b, hb, heb⟩ := List.mem_flatten.mp he
  obtain ⟨j, hj⟩ := List.getElem?_of_mem hb
  have hmem : e ∈ bs.getD j [] := by
    rw [List.getD_eq_getElem?_getD, hj]
    exact heb
  rwa [h j e hmem]

/-! ## Moving the elements -/

/-- What moving the elements of `l` into `bs` leaves. -/
structure Moved (F : HashOrder ε) (cnt : Nat) (l : List ε) (bs bs' : List (List ε)) : Prop where
  length : bs'.length = bs.length
  placed : Placed F cnt bs → Placed F cnt bs'
  perm : bs'.flatten.Perm (l ++ bs.flatten)

theorem Moved.bucket (hcnt : 0 < cnt) : ∀ {l : List ε} {bs : List (List ε)}, bs.length = cnt →
    Moved F cnt l bs (l.foldl (fun buckets e => pushFront buckets (bucketIdx F cnt e) e) bs)
  | [], bs, _ => ⟨rfl, id, List.Perm.refl _⟩
  | e :: l, bs, hlen => by
    have hpush : (Hash.pushFront bs (bucketIdx F cnt e) e).flatten.Perm (e :: bs.flatten) :=
      pushFront_perm (by rw [hlen]; exact bucketIdx_lt hcnt)
    have hrest : Moved F cnt l (Hash.pushFront bs (bucketIdx F cnt e) e) _ :=
      Moved.bucket hcnt (pushFront_length.trans hlen)
    refine ⟨hrest.length.trans pushFront_length, fun h => hrest.placed h.pushFront, ?_⟩
    exact (hrest.perm.trans (hpush.append_left l)).trans List.perm_middle

theorem Moved.buckets (hcnt : 0 < cnt) : ∀ {old bs : List (List ε)}, bs.length = cnt →
    Moved F cnt old.flatten bs (old.foldl (fun buckets bucket =>
      bucket.foldl (fun buckets e => Hash.pushFront buckets (bucketIdx F cnt e) e) buckets) bs)
  | [], bs, _ => ⟨rfl, id, List.Perm.refl _⟩
  | b :: old, bs, hlen => by
    have hb := Moved.bucket (F := F) (l := b) hcnt hlen
    have hrest : Moved F cnt old.flatten _ _ := Moved.buckets hcnt (hb.length.trans hlen)
    refine ⟨hrest.length.trans hb.length, fun h => hrest.placed (hb.placed h), ?_⟩
    refine (hrest.perm.trans (hb.perm.append_left _)).trans ?_
    rw [List.flatten_cons, ← List.append_assoc]
    exact List.perm_append_comm.append_right _

/-- **No element is lost or misplaced** when the elements move to new buckets. -/
theorem moveElems_spec (hcnt : 0 < cnt) (old : List (List ε)) :
    (moveElems F cnt old).length = cnt ∧ Placed F cnt (moveElems F cnt old) ∧
      (moveElems F cnt old).flatten.Perm old.flatten := by
  have hm : Moved F cnt old.flatten (List.replicate cnt []) (moveElems F cnt old) :=
    Moved.buckets hcnt List.length_replicate
  have hempty : (List.replicate cnt ([] : List ε)).flatten = [] := by simp
  refine ⟨hm.length.trans List.length_replicate, hm.placed ?_, ?_⟩
  · intro i e he
    have hmem := mem_elems_of_mem he
    rw [hempty] at hmem
    exact absurd hmem List.not_mem_nil
  · have hp := hm.perm
    rwa [hempty, List.append_nil] at hp

/-! ## Unlinking an element -/

theorem erase_perm [DecidableEq ε] : ∀ {bs : List (List ε)}, bs.flatten.Nodup →
    (bs.map (·.erase e)).flatten.Perm (bs.flatten.erase e)
  | [], _ => List.Perm.refl _
  | b :: bs, hnd => by
    obtain ⟨-, hbs, hdisj⟩ := List.nodup_append.mp hnd
    rw [List.map_cons, List.flatten_cons, List.flatten_cons]
    by_cases he : e ∈ b
    · rw [List.erase_append_left _ he]
      have hnot : e ∉ bs.flatten := fun hc => hdisj e he e hc rfl
      have hp := erase_perm hbs
      rw [List.erase_of_not_mem hnot] at hp
      exact hp.append_left _
    · rw [List.erase_append_right _ he, List.erase_of_not_mem he]
      exact (erase_perm hbs).append_left b

theorem Placed.erase [DecidableEq ε] (h : Placed F cnt bs) : Placed F cnt (bs.map (·.erase e)) := by
  intro i x hx
  refine h i x ?_
  rw [List.getD_eq_getElem?_getD, List.getElem?_map] at hx
  rw [List.getD_eq_getElem?_getD]
  cases hb : bs[i]? with
  | none =>
    rw [hb] at hx
    exact absurd hx List.not_mem_nil
  | some b =>
    rw [hb] at hx
    exact List.mem_of_mem_erase hx

/-! ## The map of a table -/

/-- The table holds the map. -/
structure Refines (F : HashOrder ε) (h : Hash ε) (m : F.Key → Option ε) : Prop where
  length : h.buckets.length = h.bucketCnt
  power : ∃ n, h.bucketCnt = 2 ^ n ∧ 2 ≤ n
  placed : Placed F h.bucketCnt h.buckets
  count : h.elemCnt = h.elems.length
  map : Represents F.key h.elems m

variable {h : Hash ε} {m : F.Key → Option ε} {x : ε}

namespace Refines

theorem bucketCnt_pos (hr : Refines F h m) : 0 < h.bucketCnt := by
  obtain ⟨n, hn, -⟩ := hr.power
  rw [hn]
  exact Nat.two_pow_pos n

/-- **A search of one bucket** finds what the map has. -/
theorem findElem (hr : Refines F h m) (e : ε) :
    Hash.findElem F (h.buckets.getD (h.findBucket F e) []) e = m (F.key e) := by
  have hpred : ∀ x, (!F.less x e && !F.less e x) = true ↔ F.key x = F.key e := by
    intro x
    rw [F.key_eq_iff]
    simp [HashOrder.Same]
  cases hf : Hash.findElem F (h.buckets.getD (h.findBucket F e) []) e with
  | none =>
    symm
    rw [hr.map.eq_none_iff]
    intro x hx hk
    -- equal elements hash equally, so it would be in the bucket that was searched
    obtain ⟨hxe, hex⟩ := F.key_eq_iff.mp hk
    have hidx : bucketIdx F h.bucketCnt x = h.findBucket F e := by
      unfold Hash.findBucket bucketIdx
      rw [F.hash_eq x e hxe hex]
    have hmem := hr.placed.mem hx
    rw [hidx] at hmem
    exact List.find?_eq_none.mp hf x hmem ((hpred x).mpr hk)
  | some x =>
    have hx := List.find?_some hf
    have hmem := mem_elems_of_mem (List.mem_of_find?_eq_some hf)
    exact ((hr.map.lookup _ _).mpr ⟨hmem, (hpred x).mp hx⟩).symm

theorem insertElem [DecidableEq F.Key] (hr : Refines F h m) (hn : m (F.key e) = none) :
    Refines F (h.insertElem (h.findBucket F e) e) (update m (F.key e) (some e)) := by
  have hlt : h.findBucket F e < h.buckets.length := by
    rw [hr.length]
    exact bucketIdx_lt hr.bucketCnt_pos
  have hp : (h.insertElem (h.findBucket F e) e).elems.Perm (e :: h.elems) := pushFront_perm hlt
  refine ⟨pushFront_length.trans hr.length, hr.power, hr.placed.pushFront, ?_, (hr.map.cons hn).perm hp⟩
  rw [hp.length_eq, List.length_cons, ← hr.count]
  rfl

theorem removeElem [DecidableEq ε] [DecidableEq F.Key] (hr : Refines F h m) (hx : m (F.key e) = some x) :
    Refines F (h.removeElem x) (update m (F.key e) none) := by
  have hmem : x ∈ h.elems := ((hr.map.lookup _ _).mp hx).1
  have hp : (h.removeElem x).elems.Perm (h.elems.erase x) := erase_perm hr.map.nodup
  refine ⟨?_, hr.power, hr.placed.erase, ?_, (hr.map.erase hx).perm hp⟩
  · exact List.length_map _ |>.trans hr.length
  · rw [hp.length_eq, List.length_erase_of_mem hmem, ← hr.count]
    rfl

/-- **Another number of buckets**, or the same one when there is no memory. -/
theorem rehash (hr : Refines F h m) (alloc : Bool) : Refines F (h.rehash F alloc) m := by
  obtain ⟨n, hn, hn2⟩ := newBucketCnt_spec h.elemCnt
  have hpos : 0 < newBucketCnt h.elemCnt := by
    rw [hn]
    exact Nat.two_pow_pos n
  obtain ⟨hlen, hplaced, hperm⟩ := moveElems_spec (F := F) hpos h.buckets
  unfold Hash.rehash
  dsimp only
  split
  · exact hr
  · split
    · exact ⟨hlen, ⟨n, hn, hn2⟩, hplaced, hr.count.trans hperm.length_eq.symm, hr.map.perm hperm⟩
    · exact hr

end Refines

end Hash

/-! ## Every sequence of calls -/

/-- What a call on the map returns, or the elements that are destroyed. -/
inductive MapResult (ε : Type*) where
  | elem (e : Option ε)
  | destroyed (s : Set ε)

open Classical in
/-- One call on the map. -/
noncomputable def HashOrder.mapStep {ε : Type*} (F : HashOrder ε) (m : F.Key → Option ε) :
    HashAction ε → (F.Key → Option ε) × MapResult ε
  | .insert e _ =>
    (if m (F.key e) = none then update m (F.key e) (some e) else m, .elem (m (F.key e)))
  | .replace e _ => (update m (F.key e) (some e), .elem (m (F.key e)))
  | .find e => (m, .elem (m (F.key e)))
  | .delete e _ => (update m (F.key e) none, .elem (m (F.key e)))
  | .clear destructor =>
    (fun _ => none, .destroyed {e | destructor = true ∧ m (F.key e) = some e})

/-- The same element is returned, and the destructor is called once for each element. -/
def HashResult.Agrees {ε : Type*} : HashResult ε → MapResult ε → Prop
  | .elem e, .elem e' => e = e'
  | .destroyed l, .destroyed s => l.Nodup ∧ ∀ e, e ∈ l ↔ e ∈ s
  | _, _ => False

namespace Hash

variable {ε : Type*} {F : HashOrder ε} {h : Hash ε} {m : F.Key → Option ε}

theorem Refines.clear (hlen : h.buckets.length = h.bucketCnt) (hpow : ∃ n, h.bucketCnt = 2 ^ n ∧ 2 ≤ n)
    (d : Bool) : Refines F (h.hashClear d).1 fun _ => none := by
  have helems : (h.hashClear d).1.elems = [] := by
    simp [Hash.elems, hashClear]
  refine ⟨List.length_map _ |>.trans hlen, hpow, ?_, ?_, ?_⟩
  · intro i e he
    have hmem : e ∈ (h.hashClear d).1.elems := mem_elems_of_mem he
    rw [helems] at hmem
    exact absurd hmem List.not_mem_nil
  · rw [helems]
    rfl
  · rw [helems]
    exact Represents.nil

theorem Refines.init (buckets : Fin 4 → List ε) : Refines F (hashInit buckets) fun _ => none :=
  Refines.clear (h := { elemCnt := 0, bucketCnt := 4, buckets := List.ofFn buckets })
    List.length_ofFn ⟨2, rfl, le_rfl⟩ false

/-- **One call**, whether or not there is memory for `rehash`. -/
theorem Refines.step [DecidableEq ε] (hr : Refines F h m) (a : HashAction ε) :
    Refines F (h.step F a).1 (F.mapStep m a).1 ∧ (h.step F a).2.Agrees (F.mapStep m a).2 := by
  classical
  cases a with
  | insert e alloc =>
    have hfind := hr.findElem e
    simp only [Hash.step, hashInsert, HashOrder.mapStep, hfind, HashResult.Agrees, and_true]
    refine Refines.rehash ?_ alloc
    split
    · next hn => exact hr.insertElem hn
    · exact hr
  | replace e alloc =>
    have hfind := hr.findElem e
    simp only [Hash.step, hashReplace, HashOrder.mapStep, hfind, HashResult.Agrees, and_true]
    refine Refines.rehash ?_ alloc
    cases hm : m (F.key e) with
    | none => exact hr.insertElem hm
    | some x =>
      have hdel := hr.removeElem hm
      have hins := hdel.insertElem (e := e) (update_self (F.key e) none m)
      rw [update_idem] at hins
      exact hins
  | find e =>
    exact ⟨hr, hr.findElem e⟩
  | delete e alloc =>
    have hfind : h.hashFind F e = m (F.key e) := hr.findElem e
    simp only [Hash.step, hashDelete, HashOrder.mapStep, hfind, HashResult.Agrees]
    cases hm : m (F.key e) with
    | none =>
      have hsame : update m (F.key e) none = m := by rw [← hm, update_eq_self]
      rw [hsame]
      exact ⟨hr, rfl⟩
    | some x => exact ⟨(hr.removeElem hm).rehash alloc, rfl⟩
  | clear destructor =>
    refine ⟨Refines.clear hr.length hr.power destructor, ?_⟩
    cases destructor with
    | false => exact ⟨List.nodup_nil, fun e => by simp [hashClear]⟩
    | true =>
      refine ⟨hr.map.nodup, fun e => ?_⟩
      show e ∈ h.elems ↔ true = true ∧ m (F.key e) = some e
      rw [hr.map.lookup]
      simp

/--
**The hash table is a finite map.** In every sequence of calls on a table that `hash_init` made, with
memory for new buckets or without, each call returns what the map returns; the elements are those of
the map, no two of them equal, each in its bucket.
-/
theorem hash_table_refines_map [DecidableEq ε] (F : HashOrder ε) (buckets : Fin 4 → List ε)
    (as : List (HashAction ε)) :
    let run := Mealy.run (Hash.step F) (hashInit buckets) as
    let spec := Mealy.run F.mapStep (fun _ => none) as
    List.Forall₂ HashResult.Agrees run.2 spec.2 ∧
    (∀ k e, spec.1 k = some e ↔ e ∈ run.1.elems ∧ F.key e = k) ∧
    (run.1.elems.Pairwise fun a b => ¬ F.Same a b) ∧
    run.1.hashSize = run.1.elems.length ∧ {k | spec.1 k ≠ none}.ncard = run.1.hashSize ∧
    (∀ i, ∀ e ∈ run.1.buckets.getD i [], (F.hash e).toNat &&& (run.1.bucketCnt - 1) = i) ∧
    run.1.buckets.length = run.1.bucketCnt ∧ (∃ n, run.1.bucketCnt = 2 ^ n) ∧ 4 ≤ run.1.bucketCnt := by
  have hstep : ∀ (h : Hash ε) (m : F.Key → Option ε) (a : HashAction ε), Refines F h m →
      Refines F (h.step F a).1 (F.mapStep m a).1 ∧ (h.step F a).2.Agrees (F.mapStep m a).2 :=
    fun _ _ a hr => hr.step a
  obtain ⟨hr, hout⟩ := Mealy.run_refines hstep as (Refines.init buckets)
  obtain ⟨n, hn, hn2⟩ := hr.power
  refine ⟨hout, hr.map.lookup, ?_, hr.count, hr.map.ncard.trans hr.count.symm, hr.placed, hr.length,
    ⟨n, hn⟩, ?_⟩
  · have hpair := List.pairwise_map.mp hr.map.distinct
    exact hpair.imp fun hne hs => hne (F.key_eq_iff.mpr hs)
  · rw [hn]
    have hle : 2 ^ 2 ≤ 2 ^ n := Nat.pow_le_pow_right Nat.two_pos hn2
    exact hle

/-- Numbers as elements, equal when their last two digits are. -/
def lastDigits : HashOrder Nat where
  hash n := BitVec.ofNat 64 (n % 100)
  less a b := decide (a % 100 < b % 100)
  weakOrder := by
    refine { irrefl := fun a => ?_, trans := fun a b c => ?_, incomp_trans := fun a b c => ?_ } <;>
      simp only [decide_eq_true_eq] <;> omega
  hash_eq a b hab hba := by
    simp only [decide_eq_false_iff_not] at hab hba
    rw [show a % 100 = b % 100 by omega]

-- 105 is not inserted beside 5, and 205 deletes 5; there is no memory to go back to four buckets
example : (Mealy.run (Hash.step lastDigits) (hashInit fun _ => [])
    ((List.range 16).map (.insert · true) ++ [.insert 105 true, .delete 205 false])).1.buckets =
    [[0, 8], [1, 9], [2, 10], [3, 11], [4, 12], [13], [6, 14], [7, 15]] := by decide +kernel

end Hash

end Pintos
