import Mathlib.Data.Set.Lattice
import Mathlib.Logic.Function.Basic
import Mathlib.Order.CompletePartialOrder

/-!
# Radix trees in a memory of pages

A page is a table of entries; an entry refers to another page or to none (`child`). A page and the
pages it leads to in `n` steps form a tree with `n + 1` levels, whose entries at the last level are
the leaves. Nothing here is about one program.

* `pages`, `Sep` — the pages of a tree, and that no page is used twice in it
* `slot`, `value` — where a path leads, and the leaf found there
* `Grows` — one memory is another with fresh tables added to a tree; its rules follow a walk that
  creates the tables it misses, and the undoing of such a walk
* `value_write` — writing a leaf changes the value of its path and nothing else
-/

namespace RadixTree

open Function

variable {P I W : Type*} (child : W → Option P)

/-- The pages of the tree with `n` levels below its root `c`. -/
def pages (m : P → I → W) : Nat → P → Set P
  | 0, c => {c}
  | n + 1, c => insert c {q | ∃ i d, child (m c i) = some d ∧ q ∈ pages m n d}

/-- The pages of the tree an entry refers to. -/
def below (m : P → I → W) (n : Nat) (w : W) : Set P := {q | ∃ d, child w = some d ∧ q ∈ pages child m n d}

/-- No page occurs twice in the tree. -/
def Sep (m : P → I → W) : Nat → P → Prop
  | 0, _ => True
  | n + 1, c =>
    (∀ i d, child (m c i) = some d → Sep m n d ∧ c ∉ pages child m n d) ∧
    ∀ i j, i ≠ j → Disjoint (below child m n (m c i)) (below child m n (m c j))

/-- The entry a path leads to. -/
def slot (m : P → I → W) : P → List I → Option (P × I)
  | _, [] => none
  | c, [i] => some (c, i)
  | c, i :: j :: path => (child (m c i)).bind fun d => slot m d (j :: path)

/-- The leaf a path leads to, `z` where a table is missing. -/
def value (z : W) (m : P → I → W) (c : P) (path : List I) : W :=
  match slot child m c path with
  | none => z
  | some (p, i) => m p i

variable {child} {m m' : P → I → W} {n : Nat} {c d q : P} {i j : I} {w z : W} {path : List I}

theorem mem_pages_self : c ∈ pages child m n c := by
  cases n with
  | zero => exact rfl
  | succ n => exact Or.inl rfl

theorem mem_pages_succ : q ∈ pages child m (n + 1) c ↔ q = c ∨ ∃ i, q ∈ below child m n (m c i) :=
  Iff.rfl

theorem below_subset : below child m n (m c i) ⊆ pages child m (n + 1) c :=
  fun _ hq => Or.inr ⟨i, hq⟩

theorem pages_subset (h : child (m c i) = some d) : pages child m n d ⊆ pages child m (n + 1) c :=
  fun _ hq => Or.inr ⟨i, d, h, hq⟩

theorem below_some (h : child w = some d) : below child m n w = pages child m n d := by
  ext q
  constructor
  · rintro ⟨d', hd, hq⟩
    rw [h] at hd
    rwa [Option.some.inj hd]
  · exact fun hq => ⟨d, h, hq⟩

theorem below_none (h : child w = none) : below child m n w = ∅ := by
  ext q
  constructor
  · rintro ⟨d, hd, -⟩
    rw [h] at hd
    cases hd
  · exact fun hq => hq.elim

theorem slot_cons (h : path ≠ []) :
    slot child m c (i :: path) = (child (m c i)).bind fun d => slot child m d path := by
  cases path with
  | nil => exact absurd rfl h
  | cons j path => rfl

theorem value_singleton : value child z m c [i] = m c i := rfl

theorem value_cons_some (hp : path ≠ []) (h : child (m c i) = some d) :
    value child z m c (i :: path) = value child z m d path := by
  rw [value, slot_cons hp, h]
  rfl

theorem value_cons_none (hp : path ≠ []) (h : child (m c i) = none) :
    value child z m c (i :: path) = z := by
  rw [value, slot_cons hp, h]
  rfl

theorem ne_nil_of_length (h : path.length = n + 1) : path ≠ [] := by
  rintro rfl
  cases h

/-! ## Memories that agree on a tree -/

theorem pages_congr : ∀ {n : Nat} {c : P}, (∀ q ∈ pages child m n c, m' q = m q) →
    pages child m' n c = pages child m n c
  | 0, _, _ => rfl
  | n + 1, c, h => by
    have hc : m' c = m c := h c mem_pages_self
    ext q
    constructor
    · rintro (rfl | ⟨i, d, hd, hq⟩)
      · exact mem_pages_self
      · rw [hc] at hd
        rw [pages_congr fun r hr => h r (pages_subset hd hr)] at hq
        exact pages_subset hd hq
    · rintro (rfl | ⟨i, d, hd, hq⟩)
      · exact mem_pages_self
      · have hsub := pages_congr fun r hr => h r (pages_subset hd hr)
        refine Or.inr ⟨i, d, by rw [hc]; exact hd, ?_⟩
        rw [hsub]
        exact hq

theorem below_congr (h : ∀ q ∈ below child m n w, m' q = m q) :
    below child m' n w = below child m n w := by
  cases hw : child w with
  | none => rw [below_none hw, below_none hw]
  | some d =>
    rw [below_some hw] at h
    rw [below_some hw, below_some hw, pages_congr h]

theorem Sep.congr : ∀ {n : Nat} {c : P}, (∀ q ∈ pages child m n c, m' q = m q) →
    Sep child m n c → Sep child m' n c
  | 0, _, _, _ => trivial
  | n + 1, c, h, hs => by
    have hc : m' c = m c := h c mem_pages_self
    have hbelow : ∀ i, below child m' n (m c i) = below child m n (m c i) :=
      fun i => below_congr fun q hq => h q (below_subset hq)
    refine ⟨?_, ?_⟩
    · intro i d hd
      rw [hc] at hd
      have hd' : ∀ q ∈ pages child m n d, m' q = m q := fun q hq => h q (pages_subset hd hq)
      obtain ⟨hsep, hnot⟩ := hs.1 i d hd
      exact ⟨hsep.congr hd', by rw [pages_congr hd']; exact hnot⟩
    · intro i j hij
      rw [hc, hbelow i, hbelow j]
      exact hs.2 i j hij

theorem slot_congr : ∀ {path : List I} {n : Nat} {c : P}, path.length = n + 1 →
    (∀ q ∈ pages child m n c, m' q = m q) → slot child m' c path = slot child m c path
  | [], _, _, hl, _ => by cases hl
  | [_], _, _, _, _ => rfl
  | i :: j :: path, 0, c, hl, _ => by simp at hl
  | i :: j :: path, n + 1, c, hl, h => by
    have hc : m' c = m c := h c mem_pages_self
    have hl' : (j :: path).length = n + 1 := by simpa using hl
    rw [slot_cons (by simp), slot_cons (by simp), hc]
    cases hd : child (m c i) with
    | none => rfl
    | some d => exact slot_congr hl' fun q hq => h q (pages_subset hd hq)

/-- A path ends inside the tree. -/
theorem slot_mem : ∀ {path : List I} {n : Nat} {c : P}, path.length = n + 1 →
    slot child m c path = some (q, i) → q ∈ pages child m n c
  | [], _, _, hl, _ => by cases hl
  | [_], _, _, _, h => by
    cases h
    exact mem_pages_self
  | _ :: _ :: _, 0, _, hl, _ => by simp at hl
  | k :: j :: path, n + 1, c, hl, h => by
    have hl' : (j :: path).length = n + 1 := by simpa using hl
    rw [slot_cons (by simp)] at h
    obtain ⟨d, hd, hslot⟩ := Option.bind_eq_some_iff.mp h
    exact pages_subset hd (slot_mem hl' hslot)

theorem value_congr (hl : path.length = n + 1) (h : ∀ q ∈ pages child m n c, m' q = m q) :
    value child z m' c path = value child z m c path := by
  rw [value, value, slot_congr hl h]
  split
  · rfl
  · next p k hs => rw [h p (slot_mem hl hs)]

/-! ## A copy of the top page -/

section Copy

variable {p : P}

theorem below_copy (hp : m' p = m c) (h : ∀ q ∈ pages child m (n + 1) c, m' q = m q) (i : I) :
    below child m' n (m' p i) = below child m n (m c i) := by
  rw [hp]
  exact below_congr fun q hq => h q (below_subset hq)

/-- A page outside a separated tree with the same entries as its root. -/
theorem Sep.copy (hs : Sep child m (n + 1) c) (hp : m' p = m c)
    (hout : p ∉ pages child m (n + 1) c) (h : ∀ q ∈ pages child m (n + 1) c, m' q = m q) :
    Sep child m' (n + 1) p := by
  refine ⟨?_, ?_⟩
  · intro i d hd
    rw [hp] at hd
    have hd' : ∀ q ∈ pages child m n d, m' q = m q := fun q hq => h q (pages_subset hd hq)
    refine ⟨(hs.1 i d hd).1.congr hd', ?_⟩
    rw [pages_congr hd']
    exact fun hq => hout (pages_subset hd hq)
  · intro i j hij
    rw [below_copy hp h i, below_copy hp h j]
    exact hs.2 i j hij

theorem value_copy (hp : m' p = m c) (h : ∀ q ∈ pages child m (n + 1) c, m' q = m q)
    (hl : path.length = n + 1) :
    value child z m' p (i :: path) = value child z m c (i :: path) := by
  have hne := ne_nil_of_length hl
  cases hd : child (m c i) with
  | none => rw [value_cons_none hne hd, value_cons_none hne (by rw [hp]; exact hd)]
  | some d =>
    rw [value_cons_some hne hd, value_cons_some hne (by rw [hp]; exact hd)]
    exact value_congr hl fun q hq => h q (pages_subset hd hq)

end Copy

/-! ## Changing one subtree -/

section Subtree

/-- The two memories differ in the tree below the entry `i` of `c` only. -/
structure Aside (child : W → Option P) (m m' : P → I → W) (n : Nat) (c : P) (i : I) : Prop where
  entry : ∀ j, j ≠ i → m' c j = m c j
  frame : ∀ j, j ≠ i → ∀ q ∈ below child m n (m c j), m' q = m q

theorem Aside.trans {m₁ m₂ : P → I → W} (h₁ : Aside child m m₁ n c i)
    (h₂ : Aside child m₁ m₂ n c i) : Aside child m m₂ n c i where
  entry j hj := (h₂.entry j hj).trans (h₁.entry j hj)
  frame j hj q hq := by
    have hq₁ : q ∈ RadixTree.below child m₁ n (m₁ c j) := by
      rw [h₁.entry j hj, below_congr (h₁.frame j hj)]
      exact hq
    rw [h₂.frame j hj q hq₁, h₁.frame j hj q hq]

theorem Aside.below (h : Aside child m m' n c i) (hj : j ≠ i) :
    below child m' n (m' c j) = RadixTree.below child m n (m c j) := by
  rw [h.entry j hj]
  exact below_congr (h.frame j hj)

theorem Aside.pages (h : Aside child m m' n c i) :
    pages child m' (n + 1) c =
      insert c (RadixTree.below child m' n (m' c i) ∪
        {q | ∃ j, j ≠ i ∧ q ∈ RadixTree.below child m n (m c j)}) := by
  ext q
  rw [mem_pages_succ]
  constructor
  · rintro (rfl | ⟨j, hq⟩)
    · exact Or.inl rfl
    · by_cases hj : j = i
      · subst hj
        exact Or.inr (Or.inl hq)
      · rw [h.below hj] at hq
        exact Or.inr (Or.inr ⟨j, hj, hq⟩)
  · rintro (rfl | hq | ⟨j, hj, hq⟩)
    · exact Or.inl rfl
    · exact Or.inr ⟨i, hq⟩
    · exact Or.inr ⟨j, by rw [h.below hj]; exact hq⟩

/-- The new subtree is separated and meets nothing else in the tree. -/
theorem Aside.sep (h : Aside child m m' n c i) (hs : Sep child m (n + 1) c)
    (hsub : ∀ d, child (m' c i) = some d → Sep child m' n d)
    (hc : c ∉ RadixTree.below child m' n (m' c i))
    (hd : ∀ j, j ≠ i →
      Disjoint (RadixTree.below child m' n (m' c i)) (RadixTree.below child m n (m c j))) :
    Sep child m' (n + 1) c := by
  refine ⟨?_, ?_⟩
  · intro j d hjd
    by_cases hj : j = i
    · subst hj
      exact ⟨hsub d hjd, by rw [below_some hjd] at hc; exact hc⟩
    · rw [h.entry j hj] at hjd
      obtain ⟨hsep, hnot⟩ := hs.1 j d hjd
      have hframe := h.frame j hj
      rw [below_some hjd] at hframe
      exact ⟨hsep.congr hframe, by rw [pages_congr hframe]; exact hnot⟩
  · intro j k hjk
    by_cases hj : j = i
    · subst hj
      rw [h.below (Ne.symm hjk)]
      exact hd k (Ne.symm hjk)
    · by_cases hk : k = i
      · subst hk
        rw [h.below hj]
        exact (hd j hj).symm
      · rw [h.below hj, h.below hk]
        exact hs.2 j k hjk

theorem Aside.value (h : Aside child m m' n c i) (hj : j ≠ i)
    (hl : path.length = n + 1) :
    value child z m' c (j :: path) = RadixTree.value child z m c (j :: path) := by
  have hp := ne_nil_of_length hl
  cases hd : child (m c j) with
  | none => rw [value_cons_none hp hd, value_cons_none hp (by rw [h.entry j hj]; exact hd)]
  | some d =>
    have hframe := h.frame j hj
    rw [below_some hd] at hframe
    rw [value_cons_some hp hd, value_cons_some hp (by rw [h.entry j hj]; exact hd),
      value_congr hl hframe]

end Subtree

/-! ## Adding tables -/

/-- `m'` is `m` with tables of `fresh` added to the tree `c`, none of which changes a leaf. -/
structure Grows (child : W → Option P) (z : W) (m m' : P → I → W) (n : Nat) (c : P) (fresh : Set P) : Prop where
  sep : Sep child m' n c
  sub : pages child m n c ⊆ pages child m' n c
  new : pages child m' n c ⊆ pages child m n c ∪ fresh
  frame : ∀ q, q ∉ pages child m n c → q ∉ fresh → m' q = m q
  value : ∀ path, path.length = n + 1 → value child z m' c path = value child z m c path

namespace Grows

variable {m₁ m₂ : P → I → W} {fresh : Set P}

theorem refl (h : Sep child m n c) : Grows child z m m n c fresh where
  sep := h
  sub := fun _ hq => hq
  new := fun _ hq => Or.inl hq
  frame := fun _ _ _ => rfl
  value := fun _ _ => rfl

theorem trans (h₁ : Grows child z m m₁ n c fresh)
    (h₂ : Grows child z m₁ m₂ n c fresh) : Grows child z m m₂ n c fresh where
  sep := h₂.sep
  sub := fun _ hq => h₂.sub (h₁.sub hq)
  new := by
    intro q hq
    rcases h₂.new hq with hq | hq
    · exact h₁.new hq
    · exact Or.inr hq
  frame := by
    intro q hq hf
    have hq₁ : q ∉ pages child m₁ n c := by
      intro hc
      rcases h₁.new hc with hc | hc
      · exact hq hc
      · exact hf hc
    rw [h₂.frame q hq₁ hf, h₁.frame q hq hf]
  value := fun path hl => (h₂.value path hl).trans (h₁.value path hl)

theorem mono {fresh' : Set P} (hsub : fresh ⊆ fresh') (h : Grows child z m m' n c fresh) :
    Grows child z m m' n c fresh' where
  sep := h.sep
  sub := h.sub
  new := by
    intro q hq
    rcases h.new hq with hq | hq
    · exact Or.inl hq
    · exact Or.inr (hsub hq)
  frame := fun q hq hf => h.frame q hq fun hc => hf (hsub hc)
  value := h.value

/-- Tables added below an entry are added to the tree. -/
theorem descend (hs : Sep child m (n + 1) c) (hd : child (m c i) = some d)
    (hfresh : Disjoint fresh (pages child m (n + 1) c)) (h : Grows child z m m' n d fresh) :
    Grows child z m m' (n + 1) c fresh ∧ Aside child m m' n c i ∧ m' c = m c ∧
      pages child m' (n + 1) c ⊆ pages child m (n + 1) c ∪ pages child m' n d := by
  have hnot : ∀ q ∈ pages child m (n + 1) c, q ∉ fresh :=
    fun q hq hf => Set.disjoint_left.mp hfresh hf hq
  have hc : m' c = m c := h.frame c (hs.1 i d hd).2 (hnot c mem_pages_self)
  have hci : child (m' c i) = some d := by rw [hc]; exact hd
  have haside : Aside child m m' n c i := by
    refine ⟨fun j _ => by rw [hc], fun j hj q hq => h.frame q ?_ (hnot q (below_subset hq))⟩
    have hdisj := hs.2 j i hj
    rw [below_some hd] at hdisj
    exact Set.disjoint_left.mp hdisj hq
  have hbelow : below child m' n (m' c i) = pages child m' n d := below_some hci
  refine ⟨⟨?_, ?_, ?_, ?_, ?_⟩, haside, hc, ?_⟩
  · refine haside.sep hs ?_ ?_ ?_
    · intro d' hd'
      rw [hci] at hd'
      rw [← Option.some.inj hd']
      exact h.sep
    · rw [hbelow]
      intro hmem
      rcases h.new hmem with hm | hm
      · exact (hs.1 i d hd).2 hm
      · exact hnot c mem_pages_self hm
    · intro j hj
      rw [hbelow]
      refine Set.disjoint_left.mpr fun q hq hqj => ?_
      rcases h.new hq with hq | hq
      · have hdisj := hs.2 j i hj
        rw [below_some hd] at hdisj
        exact Set.disjoint_left.mp hdisj hqj hq
      · exact hnot q (below_subset hqj) hq
  · intro q hq
    rw [haside.pages, hbelow]
    rcases mem_pages_succ.mp hq with rfl | ⟨j, hq⟩
    · exact Or.inl rfl
    · by_cases hj : j = i
      · subst hj
        rw [below_some hd] at hq
        exact Or.inr (Or.inl (h.sub hq))
      · exact Or.inr (Or.inr ⟨j, hj, hq⟩)
  · intro q hq
    rw [haside.pages, hbelow] at hq
    rcases hq with rfl | hq | ⟨j, -, hq⟩
    · exact Or.inl mem_pages_self
    · rcases h.new hq with hq | hq
      · exact Or.inl (pages_subset hd hq)
      · exact Or.inr hq
    · exact Or.inl (below_subset hq)
  · exact fun q hq hf => h.frame q (fun hqd => hq (pages_subset hd hqd)) hf
  · intro path hl
    match path, hl with
    | j :: path, hl =>
      have hl' : path.length = n + 1 := by simpa using hl
      by_cases hj : j = i
      · subst hj
        rw [value_cons_some (ne_nil_of_length hl') hd, value_cons_some (ne_nil_of_length hl') hci,
          h.value path hl']
      · exact haside.value hj hl'
  · intro q hq
    rw [haside.pages, hbelow] at hq
    rcases hq with rfl | hq | ⟨j, -, hq⟩
    · exact Or.inl mem_pages_self
    · exact Or.inr hq
    · exact Or.inl (below_subset hq)

/-- A table without entries. -/
theorem pages_blank (hb : ∀ k, child (m d k) = none) : ∀ n, pages child m n d = {d}
  | 0 => rfl
  | n + 1 => by
    ext q
    constructor
    · rintro (rfl | ⟨k, e, hk, -⟩)
      · exact rfl
      · rw [hb k] at hk
        cases hk
    · rintro rfl
      exact mem_pages_self

theorem sep_blank (hb : ∀ k, child (m d k) = none) : ∀ n, Sep child m n d
  | 0 => trivial
  | n + 1 => by
    refine ⟨?_, ?_⟩
    · intro k e hk
      rw [hb k] at hk
      cases hk
    · intro j k _
      rw [below_none (hb j), below_none (hb k)]
      exact disjoint_bot_left

theorem value_blank (hb : ∀ k, child (m d k) = none) (hz : ∀ k, m d k = z)
    (hl : path.length = n + 1) : RadixTree.value child z m d path = z := by
  match path, hl with
  | [k], _ => exact hz k
  | k :: j :: path, _ => exact value_cons_none (by simp) (hb k)

/-- A fresh blank table is linked to an entry that referred to none. -/
theorem link (hs : Sep child m (n + 1) c) (hci : child (m c i) = none)
    (hfresh : Disjoint fresh (pages child m (n + 1) c)) (hd : d ∈ fresh)
    (hb : ∀ k, child (m' d k) = none) (hz : ∀ k, m' d k = z) (hi : child (m' c i) = some d)
    (hentry : ∀ j, j ≠ i → m' c j = m c j) (hframe : ∀ q, q ≠ c → q ∉ fresh → m' q = m q) :
    Grows child z m m' (n + 1) c fresh ∧ Aside child m m' n c i := by
  have hnot : ∀ q ∈ pages child m (n + 1) c, q ∉ fresh :=
    fun q hq hf => Set.disjoint_left.mp hfresh hf hq
  have hne : ∀ j, ∀ q ∈ below child m n (m c j), q ≠ c := by
    rintro j q ⟨e, he, hq⟩ rfl
    exact (hs.1 j e he).2 hq
  have haside : Aside child m m' n c i :=
    ⟨hentry, fun j _ q hq => hframe q (hne j q hq) (hnot q (below_subset hq))⟩
  have hbelow : below child m' n (m' c i) = {d} := by rw [below_some hi, pages_blank hb]
  refine ⟨⟨?_, ?_, ?_, ?_, ?_⟩, haside⟩
  · refine haside.sep hs ?_ ?_ ?_
    · intro e he
      rw [hi] at he
      rw [← Option.some.inj he]
      exact sep_blank hb n
    · rw [hbelow]
      rintro rfl
      exact hnot c mem_pages_self hd
    · intro j _
      rw [hbelow]
      refine Set.disjoint_left.mpr ?_
      rintro q rfl hq
      exact hnot q (below_subset hq) hd
  · intro q hq
    rw [haside.pages]
    rcases mem_pages_succ.mp hq with rfl | ⟨j, hq⟩
    · exact Or.inl rfl
    · by_cases hj : j = i
      · subst hj
        rw [below_none hci] at hq
        exact hq.elim
      · exact Or.inr (Or.inr ⟨j, hj, hq⟩)
  · intro q hq
    rw [haside.pages, hbelow] at hq
    rcases hq with rfl | rfl | ⟨j, -, hq⟩
    · exact Or.inl mem_pages_self
    · exact Or.inr hd
    · exact Or.inl (below_subset hq)
  · exact fun q hq hf => hframe q (fun hc => hq (hc ▸ mem_pages_self)) hf
  · intro path hl
    match path, hl with
    | j :: path, hl =>
      have hl' : path.length = n + 1 := by simpa using hl
      by_cases hj : j = i
      · subst hj
        rw [value_cons_some (ne_nil_of_length hl') hi, value_blank hb hz hl',
          value_cons_none (ne_nil_of_length hl') hci]
      · exact haside.value hj hl'

/-- The entry refers to no table again, whatever became of the fresh pages. -/
theorem undo (hs : Sep child m (n + 1) c) (hci : child (m c i) = none)
    (hfresh : Disjoint fresh (pages child m (n + 1) c)) (hi : child (m' c i) = none)
    (hentry : ∀ j, j ≠ i → m' c j = m c j) (hframe : ∀ q, q ≠ c → q ∉ fresh → m' q = m q) :
    Grows child z m m' (n + 1) c fresh ∧ Aside child m m' n c i ∧
      pages child m' (n + 1) c = pages child m (n + 1) c := by
  have hnot : ∀ q ∈ pages child m (n + 1) c, q ∉ fresh :=
    fun q hq hf => Set.disjoint_left.mp hfresh hf hq
  have hne : ∀ j, ∀ q ∈ below child m n (m c j), q ≠ c := by
    rintro j q ⟨e, he, hq⟩ rfl
    exact (hs.1 j e he).2 hq
  have haside : Aside child m m' n c i :=
    ⟨hentry, fun j _ q hq => hframe q (hne j q hq) (hnot q (below_subset hq))⟩
  have hbelow : below child m' n (m' c i) = ∅ := below_none hi
  have hpages : pages child m' (n + 1) c = pages child m (n + 1) c := by
    rw [haside.pages, hbelow]
    ext q
    rw [mem_pages_succ]
    constructor
    · rintro (rfl | hq | ⟨j, -, hq⟩)
      · exact Or.inl rfl
      · exact hq.elim
      · exact Or.inr ⟨j, hq⟩
    · rintro (rfl | ⟨j, hq⟩)
      · exact Or.inl rfl
      · by_cases hj : j = i
        · subst hj
          rw [below_none hci] at hq
          exact hq.elim
        · exact Or.inr (Or.inr ⟨j, hj, hq⟩)
  refine ⟨⟨?_, ?_, ?_, ?_, ?_⟩, haside, hpages⟩
  · refine haside.sep hs ?_ ?_ ?_
    · intro e he
      rw [hi] at he
      cases he
    · rw [hbelow]
      exact fun hq => hq
    · intro j _
      rw [hbelow]
      exact disjoint_bot_left
  · rw [hpages]
  · rw [hpages]
    exact fun q hq => Or.inl hq
  · exact fun q hq hf => hframe q (fun hc => hq (hc ▸ mem_pages_self)) hf
  · intro path hl
    match path, hl with
    | j :: path, hl =>
      have hl' : path.length = n + 1 := by simpa using hl
      by_cases hj : j = i
      · subst hj
        rw [value_cons_none (ne_nil_of_length hl') hi, value_cons_none (ne_nil_of_length hl') hci]
      · exact haside.value hj hl'

end Grows

/-! ## Writing a leaf -/

section Write

variable [DecidableEq P] [DecidableEq I] {k : I}

/-- `m` with the entry `k` of the page `q` set to `w`. -/
def write (m : P → I → W) (q : P) (k : I) (w : W) : P → I → W := update m q (update (m q) k w)

theorem write_of_ne (h : d ≠ q) : write m q k w d = m d := update_of_ne h _ _

/-- **A leaf is written.** The tree keeps its tables, and only the path's own value changes. -/
theorem value_write : ∀ {path : List I} {n : Nat} {c : P}, Sep child m n c →
    path.length = n + 1 → slot child m c path = some (q, k) →
    pages child (write m q k w) n c = pages child m n c ∧ Sep child (write m q k w) n c ∧
    ∀ t, t.length = n + 1 →
      value child z (write m q k w) c t = if t = path then w else value child z m c t
  | [], _, _, _, hl, _ => by cases hl
  | i :: j :: path, 0, c, _, hl, _ => by simp at hl
  | [i], 0, c, _, _, h => by
    cases h
    refine ⟨rfl, trivial, ?_⟩
    intro t hl
    match t, hl with
    | [j], _ =>
      rw [value_singleton, value_singleton]
      by_cases hj : j = k
      · subst hj
        simp [write]
      · simp [write, hj]
  | [i], n + 1, c, _, hl, _ => by simp at hl
  | i :: j :: path, n + 1, c, hs, hl, h => by
    have hl' : (j :: path).length = n + 1 := by simpa using hl
    rw [slot_cons (by simp)] at h
    obtain ⟨d, hd, hslot⟩ := Option.bind_eq_some_iff.mp h
    obtain ⟨hpages, hsep, hvalue⟩ := value_write (hs.1 i d hd).1 hl' hslot
    have hq : q ∈ pages child m n d := slot_mem hl' hslot
    have hqc : c ≠ q := by
      rintro rfl
      exact (hs.1 i d hd).2 hq
    have hc : write m q k w c = m c := write_of_ne hqc
    have hci : child (write m q k w c i) = some d := by rw [hc]; exact hd
    have haside : Aside child m (write m q k w) n c i := by
      refine ⟨fun j _ => by rw [hc], fun j hj r hr => write_of_ne ?_⟩
      rintro rfl
      have hdisj := hs.2 j i hj
      rw [below_some hd] at hdisj
      exact Set.disjoint_left.mp hdisj hr hq
    have hbelow : below child (write m q k w) n (write m q k w c i) =
        below child m n (m c i) := by
      rw [below_some hci, below_some hd, hpages]
    have hall : ∀ j, below child (write m q k w) n (write m q k w c j) =
        below child m n (m c j) := by
      intro j
      by_cases hj : j = i
      · subst hj
        exact hbelow
      · exact haside.below hj
    refine ⟨?_, ?_, ?_⟩
    · ext r
      rw [mem_pages_succ, mem_pages_succ]
      simp only [hall]
    · refine haside.sep hs ?_ ?_ ?_
      · intro e he
        rw [hci] at he
        rw [← Option.some.inj he]
        exact hsep
      · rw [hbelow, below_some hd]
        exact (hs.1 i d hd).2
      · intro j hj
        rw [hbelow]
        exact hs.2 i j (Ne.symm hj)
    · intro t ht
      match t, ht with
      | e :: t, ht =>
        have ht' : t.length = n + 1 := by simpa using ht
        by_cases he : e = i
        · subst he
          rw [value_cons_some (ne_nil_of_length ht') hci, value_cons_some (ne_nil_of_length ht') hd,
            hvalue t ht']
          simp
        · rw [haside.value he ht', if_neg]
          simp [he]

end Write

end RadixTree
