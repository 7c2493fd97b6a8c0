import Mathlib.Data.List.Infix
import Mathlib.Order.Basic
import Pintos.Lib.RadixTree

/-!
# Going through a radix tree

The leaves of a tree in the order of their paths, and calls of a function on one thing after the other until it
refuses. Nothing here is about one program.

* `leaves` — every leaf with its path; `mem_leaves`, `leaves_sorted`
* `SameTables` — the entries above the leaves are the same; so are the pages and the places of the leaves
* `Calls`, `Visits` — the calls that are made, and of which list they are a beginning
* `untilFalse_visits` — the rule of a loop whose body calls
-/

namespace RadixTree

variable {P I W : Type*} {child : W → Option P}

/-! ## The leaves in order -/

/-- What is below the entry `i` of `c`, where `sub` gives what is in a tree below. -/
def under (child : W → Option P) (m : P → I → W) (sub : P → List (List I × P × I)) (c : P) (i : I) :
    List (List I × P × I) :=
  match child (m c i) with
  | none => []
  | some d => (sub d).map fun v => (i :: v.1, v.2)

/-- The entries at the last level, with their paths. The indices are taken in the order of `is`. -/
def leaves (child : W → Option P) (is : List I) (m : P → I → W) : Nat → P → List (List I × P × I)
  | 0, c => is.map fun i => ([i], c, i)
  | n + 1, c => is.flatMap (under child m (leaves child is m n) c)

variable {m m' : P → I → W} {n : Nat} {c d q : P} {i k : I} {is : List I} {path : List I} {v : List I × P × I}

theorem under_some {sub : P → List (List I × P × I)} (h : child (m c i) = some d) :
    under child m sub c i = (sub d).map fun v => (i :: v.1, v.2) := by
  rw [under, h]

theorem under_none {sub : P → List (List I × P × I)} (h : child (m c i) = none) : under child m sub c i = [] := by
  rw [under, h]

theorem mem_under {sub : P → List (List I × P × I)} :
    v ∈ under child m sub c i ↔ ∃ d, child (m c i) = some d ∧ ∃ u ∈ sub d, (i :: u.1, u.2) = v := by
  unfold under
  cases child (m c i) with
  | none => simp
  | some d => simp

/-- **The leaves are where the paths lead.** -/
theorem mem_leaves (hall : ∀ i, i ∈ is) : ∀ {n : Nat} {c : P} {v : List I × P × I},
    v ∈ leaves child is m n c ↔ v.1.length = n + 1 ∧ slot child m c v.1 = some v.2
  | 0, c, (path, q, k) => by
    simp only [leaves, List.mem_map, Prod.mk.injEq, Nat.zero_add, List.length_eq_one_iff]
    constructor
    · rintro ⟨i, -, rfl, rfl, rfl⟩
      exact ⟨⟨i, rfl⟩, rfl⟩
    · rintro ⟨⟨i, rfl⟩, hs⟩
      cases hs
      exact ⟨k, hall k, rfl, rfl, rfl⟩
  | n + 1, c, (path, q, k) => by
    simp only [leaves, List.mem_flatMap, mem_under, Prod.mk.injEq]
    constructor
    · rintro ⟨i, -, d, hd, u, hu, rfl, hq⟩
      obtain ⟨hl, hs⟩ := (mem_leaves hall).mp hu
      refine ⟨by rw [List.length_cons, hl], ?_⟩
      rw [slot_cons (ne_nil_of_length hl), hd, Option.bind_some, hs, hq]
    · rintro ⟨hl, hs⟩
      match path, hl with
      | i :: path, hl =>
        have hl' : path.length = n + 1 := by simpa using hl
        rw [slot_cons (ne_nil_of_length hl')] at hs
        obtain ⟨d, hd, hs⟩ := Option.bind_eq_some_iff.mp hs
        exact ⟨i, hall i, d, hd, (path, q, k), (mem_leaves hall).mpr ⟨hl', hs⟩, rfl, rfl⟩

/-- **The leaves come in the order of their paths.** -/
theorem leaves_sorted [LT I] (h : is.Pairwise (· < ·)) : ∀ {n : Nat} {c : P},
    (leaves child is m n c).Pairwise fun u v => List.Lex (· < ·) u.1 v.1
  | 0, c => by
    rw [leaves, List.pairwise_map]
    exact h.imp fun hij => .rel hij
  | n + 1, c => by
    rw [leaves, List.pairwise_flatMap]
    refine ⟨fun i _ => ?_, h.imp fun hij u hu v hv => ?_⟩
    · cases hd : child (m c i) with
      | none =>
        rw [under_none hd]
        exact .nil
      | some d =>
        rw [under_some hd, List.pairwise_map]
        exact (leaves_sorted h).imp fun huv => .cons huv
    · obtain ⟨-, -, u', -, rfl⟩ := mem_under.mp hu
      obtain ⟨-, -, v', -, rfl⟩ := mem_under.mp hv
      exact .rel hij

/-- A leaf lies in the tree. -/
theorem leaves_mem_pages : ∀ {n : Nat} {c : P} {v : List I × P × I}, v ∈ leaves child is m n c →
    v.2.1 ∈ pages child m n c
  | 0, c, _, h => by
    obtain ⟨i, -, rfl⟩ := List.mem_map.mp h
    exact mem_pages_self
  | n + 1, c, _, h => by
    obtain ⟨i, -, hv⟩ := List.mem_flatMap.mp h
    obtain ⟨d, hd, u, hu, rfl⟩ := mem_under.mp hv
    have hu' : u.2.1 ∈ pages child m n d := leaves_mem_pages hu
    exact pages_subset hd hu'

/-- A page lies below one entry only. -/
theorem Sep.index {e : P} {j : I} (hs : Sep child m (n + 1) c) (hd : child (m c i) = some d)
    (hq : q ∈ pages child m n d) (he : child (m c j) = some e) (hq' : q ∈ pages child m n e) : i = j := by
  by_contra hij
  have hdisj := hs.2 i j hij
  rw [below_some hd, below_some he] at hdisj
  exact Set.disjoint_left.mp hdisj hq hq'

/-- No two leaves are the same entry. -/
theorem leaves_inj : ∀ {n : Nat} {c : P} {u v : List I × P × I}, Sep child m n c → u ∈ leaves child is m n c →
    v ∈ leaves child is m n c → u.2 = v.2 → u = v
  | 0, c, _, _, _, hu, hv, h => by
    obtain ⟨i, -, rfl⟩ := List.mem_map.mp hu
    obtain ⟨j, -, rfl⟩ := List.mem_map.mp hv
    obtain rfl : i = j := congrArg Prod.snd h
    rfl
  | n + 1, c, _, _, hs, huc, hvc, h => by
    obtain ⟨i, -, hui⟩ := List.mem_flatMap.mp huc
    obtain ⟨d, hd, u, hu, rfl⟩ := mem_under.mp hui
    obtain ⟨j, -, hvj⟩ := List.mem_flatMap.mp hvc
    obtain ⟨e, he, v, hv, rfl⟩ := mem_under.mp hvj
    have huv : u.2 = v.2 := h
    have hvu : u.2.1 ∈ pages child m n e := by
      rw [huv]
      exact leaves_mem_pages hv
    obtain rfl := hs.index hd (leaves_mem_pages hu) he hvu
    obtain rfl := Option.some.inj (hd.symm.trans he)
    rw [leaves_inj (hs.1 i d hd).1 hu hv huv]

/-! ## The same tables -/

/-- The entries above the leaves of the tree are the same. -/
def SameTables (child : W → Option P) (m m' : P → I → W) : Nat → P → Prop
  | 0, _ => True
  | n + 1, c => m' c = m c ∧ ∀ i d, child (m c i) = some d → SameTables child m m' n d

/-- Only leaves are written. -/
theorem SameTables.of_leaves (hall : ∀ i, i ∈ is) : ∀ {n : Nat} {c : P}, Sep child m n c →
    (∀ q k, q ∈ pages child m n c → (∀ v ∈ leaves child is m n c, v.2 ≠ (q, k)) → m' q k = m q k) →
    SameTables child m m' n c
  | 0, _, _, _ => trivial
  | n + 1, c, hs, h => by
    -- no leaf lies in the root
    have hroot : ∀ v ∈ leaves child is m (n + 1) c, v.2.1 ≠ c := by
      rintro v hv hc
      obtain ⟨i, -, hv⟩ := List.mem_flatMap.mp hv
      obtain ⟨d, hd, u, hu, rfl⟩ := mem_under.mp hv
      have hmem : u.2.1 ∈ pages child m n d := leaves_mem_pages hu
      exact (hs.1 i d hd).2 (by rwa [← show u.2.1 = c from hc])
    refine ⟨funext fun k => h c k mem_pages_self fun v hv hc => hroot v hv (congrArg Prod.fst hc), fun i d hd => ?_⟩
    refine SameTables.of_leaves hall (hs.1 i d hd).1 fun q k hq hno => h q k (pages_subset hd hq) fun v hv hc => ?_
    -- a leaf in a page below `i` is one of the leaves below `i`
    obtain ⟨j, -, hv⟩ := List.mem_flatMap.mp hv
    obtain ⟨e, he, u, hu, rfl⟩ := mem_under.mp hv
    have hqe : q ∈ pages child m n e := by
      rw [← show u.2.1 = q from congrArg Prod.fst hc]
      exact leaves_mem_pages hu
    obtain rfl := hs.index hd hq he hqe
    obtain rfl := Option.some.inj (hd.symm.trans he)
    exact hno u hu hc

theorem SameTables.pages : ∀ {n : Nat} {c : P}, SameTables child m m' n c →
    RadixTree.pages child m' n c = RadixTree.pages child m n c
  | 0, _, _ => rfl
  | n + 1, c, ⟨hc, hsub⟩ => by
    ext q
    constructor
    · rintro (rfl | ⟨i, d, hd, hq⟩)
      · exact mem_pages_self
      · rw [hc] at hd
        rw [(hsub i d hd).pages] at hq
        exact pages_subset hd hq
    · rintro (rfl | ⟨i, d, hd, hq⟩)
      · exact mem_pages_self
      · rw [← (hsub i d hd).pages] at hq
        exact pages_subset (by rw [hc]; exact hd) hq

theorem SameTables.slot : ∀ {path : List I} {n : Nat} {c : P}, path.length = n + 1 → SameTables child m m' n c →
    RadixTree.slot child m' c path = RadixTree.slot child m c path
  | [], _, _, hl, _ => by cases hl
  | [_], _, _, _, _ => rfl
  | i :: j :: path, 0, c, hl, _ => by simp at hl
  | i :: j :: path, n + 1, c, hl, ⟨hc, hsub⟩ => by
    have hl' : (j :: path).length = n + 1 := by simpa using hl
    rw [slot_cons (by simp), slot_cons (by simp), hc]
    cases hd : child (m c i) with
    | none => rfl
    | some d => exact SameTables.slot hl' (hsub i d hd)

end RadixTree

/-! ## Calls until one refuses -/

namespace Calling

variable {α σ ε : Type*} {func : α → σ → Except ε (Bool × σ)} {s s₁ s' : σ} {l l' L L' : List α} {a : α} {b : Bool}

/-- The function is called on the list, and says true to all but maybe the last. -/
inductive Calls (func : α → σ → Except ε (Bool × σ)) : σ → List α → Bool → σ → Prop
  | nil (s : σ) : Calls func s [] true s
  | stop {a : α} {s s' : σ} (h : func a s = .ok (false, s')) : Calls func s [a] false s'
  | cons {a : α} {l : List α} {b : Bool} {s s₁ s' : σ} (h : func a s = .ok (true, s₁))
    (hrest : Calls func s₁ l b s') : Calls func s (a :: l) b s'

/-- It is called on all of `L`, or up to the first to which it says false. -/
def Visits (func : α → σ → Except ε (Bool × σ)) (s : σ) (L : List α) (b : Bool) (s' : σ) : Prop :=
  ∃ l, Calls func s l b s' ∧ l <+: L ∧ (b = true → l = L)

theorem Calls.append (h : Calls func s l true s₁) (h' : Calls func s₁ l' b s') : Calls func s (l ++ l') b s' := by
  generalize ht : true = t at h
  induction h with
  | nil => exact h'
  | stop => cases ht
  | cons hf hrest ih => exact .cons hf (ih h' ht)

theorem Visits.nil (s : σ) : Visits func s [] true s := ⟨[], .nil s, List.prefix_rfl, fun _ => rfl⟩

theorem Visits.single (h : func a s = .ok (b, s')) : Visits func s [a] b s' := by
  refine ⟨[a], ?_, List.prefix_rfl, fun _ => rfl⟩
  cases b with
  | false => exact .stop h
  | true => exact .cons h (.nil s')

/-- It says false somewhere in the first part. -/
theorem Visits.left (h : Visits func s L false s') (L' : List α) : Visits func s (L ++ L') false s' := by
  obtain ⟨l, hl, hpre, -⟩ := h
  exact ⟨l, hl, hpre.trans (List.prefix_append L L'), nofun⟩

theorem Visits.append (h : Visits func s L true s₁) (h' : Visits func s₁ L' b s') : Visits func s (L ++ L') b s' := by
  obtain ⟨l, hl, -, hall⟩ := h
  obtain rfl := hall rfl
  obtain ⟨l', hl', hpre, hall'⟩ := h'
  exact ⟨l ++ l', hl.append hl', List.prefix_append_right_inj l |>.mpr hpre, fun hb => by rw [hall' hb]⟩

/-- If it never says false it is called on everything. -/
theorem Calls.all (hf : ∀ a s s', func a s ≠ .ok (false, s')) (h : Calls func s l b s') : b = true := by
  induction h with
  | nil => rfl
  | stop h => exact absurd h (hf _ _ _)
  | cons _ _ ih => exact ih

/-- What every call keeps, the calls keep. -/
theorem Calls.keeps {R : σ → σ → Prop} (hrefl : ∀ s, R s s) (htrans : ∀ {s s₁ s'}, R s s₁ → R s₁ s' → R s s')
    (hf : ∀ a ∈ L, ∀ s b s', func a s = .ok (b, s') → R s s') (h : Calls func s l b s') (hl : l ⊆ L) : R s s' := by
  induction h with
  | nil s => exact hrefl s
  | stop h => exact hf _ (hl (by simp)) _ _ _ h
  | cons h _ ih => exact htrans (hf _ (hl (by simp)) _ _ _ h) (ih fun a ha => hl (List.mem_cons_of_mem _ ha))

/-! ## A loop that ends when its body says false -/

section Loop

variable {ι : Type*} {body : ι → σ → Except ε (Bool × σ)} {calls : ι → List α}

/-- `for (…) if (!body (i)) return false; return true;` -/
def untilFalse (body : ι → σ → Except ε (Bool × σ)) : σ → List ι → Except ε (Bool × σ)
  | s, [] => .ok (true, s)
  | s, i :: rest =>
    match body i s with
    | .error e => .error e
    | .ok (false, s) => .ok (false, s)
    | .ok (true, s) => untilFalse body s rest

/-- **The rule of the loop.** `Inv rest` holds before the body runs on `rest`. -/
theorem untilFalse_visits (Inv : List ι → σ → Prop)
    (hbody : ∀ i rest s, Inv (i :: rest) s → ∃ b s', body i s = .ok (b, s') ∧ Visits func s (calls i) b s' ∧
      (b = true → Inv rest s')) :
    ∀ (is : List ι) (s : σ), Inv is s →
      ∃ b s', untilFalse body s is = .ok (b, s') ∧ Visits func s (is.flatMap calls) b s'
  | [], s, _ => ⟨true, s, rfl, .nil s⟩
  | i :: rest, s, h => by
    obtain ⟨b, s₁, hb, hv, hinv⟩ := hbody i rest s h
    rw [List.flatMap_cons]
    cases b with
    | false => exact ⟨false, s₁, by rw [untilFalse, hb], hv.left _⟩
    | true =>
      obtain ⟨b, s', he, hv'⟩ := untilFalse_visits Inv hbody rest s₁ (hinv rfl)
      exact ⟨b, s', by rw [untilFalse, hb]; exact he, hv.append hv'⟩

end Loop

end Calling
