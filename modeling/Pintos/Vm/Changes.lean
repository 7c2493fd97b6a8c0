import Pintos.Filesys.Changes
import Pintos.Vm.Vm

/-!
# What paging leaves alone

Pages come and go between memory, swap slots and files without anything else being changed: the files
that are open, the supplemental page tables, and what a page is.

* `Moving` — swapping and lazy loading change where pages are
* `Claiming` — so does a claim, which may also take another frame
* `Accessing` — the kernel also stores to pages and loads from them
* `Plain`, `Loads` — how they fail
-/

namespace Pintos

open Function LittleEndian

/-! ## Pages -/

/-- What a page is, wherever it is. -/
def Page.still (page : Page) : Page := { page with operations := .uninit, frame := none, swapSlot := 0 }

/-- The state without what paging and accesses change. -/
def Vm.still (s : Vm) : Vm :=
  { s with
    fs := s.fs.handles
    userPool := []
    mem := fun _ _ => 0
    tables := fun _ => ∅
    pages := fun q => (s.pages q).map Page.still
    frames := fun _ => none
    frameList := []
    swapDisk := fun _ _ => 0
    swapBitmap := []
    swapLock := none
    brk := 0
    allocs := fun _ => true
    fileLock := none
    kernel := fun _ => 0
    input := fun _ => 0
    touched := [] }

/-- The tables have a present entry for the page. -/
def Vm.Present (s : Vm) (sp : Space) (va : Vaddr) : Prop :=
  ∃ pte, (s.tables sp).lookup va = some pte ∧ pte.present = true

/-- What accesses to user memory do. Entries become present for the pages `N` only. -/
structure Accessing (N : Vaddr → Prop) (s s' : Vm) : Prop where
  still : s'.still = s.still
  ptes : ∀ sp va, s'.Present sp va → s.Present sp va ∨ N va
  brk : s.brk ≤ s'.brk

/-- What system calls on buffers change, beside pages. -/
def Vm.calls (s : Vm) : List Vaddr × (Nat → Byte) × Option Tid := (s.touched, s.input, s.fileLock)

/-- What claims do. -/
structure Claiming (N : Vaddr → Prop) (s s' : Vm) : Prop extends Accessing N s s' where
  calls : s'.calls = s.calls

/-- The frames that there are. -/
def Vm.framed (s : Vm) : List FramePtr × Nat := (s.frameList, s.brk)

/-- What swapping and lazy loading do. -/
structure Moving (N : Vaddr → Prop) (s s' : Vm) : Prop extends Claiming N s s' where
  framed : s'.framed = s.framed

section

variable {N N' : Vaddr → Prop} {s s' : Vm} {q : PagePtr}

theorem Accessing.refl (s : Vm) : Accessing N s s := ⟨rfl, fun _ _ h => .inl h, le_rfl⟩

theorem Accessing.trans (s s₁ s' : Vm) (h : Accessing N s s₁) (h' : Accessing N s₁ s') : Accessing N s s' := by
  refine ⟨h'.still.trans h.still, fun sp va hp => ?_, h.brk.trans h'.brk⟩
  rcases h'.ptes sp va hp with h₁ | h₁
  · exact h.ptes sp va h₁
  · exact .inr h₁

/-- The tables stay as they are. -/
theorem Accessing.same (h : s'.still = s.still) (ht : s'.tables = s.tables) (hb : s.brk ≤ s'.brk) :
    Accessing N s s' := by
  refine ⟨h, fun sp va hp => .inl ?_, hb⟩
  unfold Vm.Present at hp ⊢
  rwa [ht] at hp

theorem Claiming.refl (s : Vm) : Claiming N s s := ⟨.refl s, rfl⟩

theorem Claiming.trans (s s₁ s' : Vm) (h : Claiming N s s₁) (h' : Claiming N s₁ s') : Claiming N s s' :=
  ⟨.trans _ _ _ h.toAccessing h'.toAccessing, h'.calls.trans h.calls⟩

theorem Claiming.same (h : s'.still = s.still) (ht : s'.tables = s.tables) (hc : s'.calls = s.calls)
    (hb : s.brk ≤ s'.brk) : Claiming N s s' := ⟨.same h ht hb, hc⟩

theorem Claiming.touched (h : Claiming N s s') : s'.touched = s.touched := (Prod.mk.inj h.calls).1

theorem Claiming.input (h : Claiming N s s') : s'.input = s.input :=
  (Prod.mk.inj (Prod.mk.inj h.calls).2).1

theorem Moving.refl (s : Vm) : Moving N s s := ⟨.refl s, rfl⟩

theorem Moving.trans (s s₁ s' : Vm) (h : Moving N s s₁) (h' : Moving N s₁ s') : Moving N s s' :=
  ⟨.trans _ _ _ h.toClaiming h'.toClaiming, h'.framed.trans h.framed⟩

theorem Moving.same (h : s'.still = s.still) (ht : s'.tables = s.tables) (hc : s'.calls = s.calls)
    (hf : s'.framed = s.framed) : Moving N s s' := ⟨.same h ht hc (Prod.mk.inj hf).2.ge, hf⟩

theorem Moving.frameList (h : Moving N s s') : s'.frameList = s.frameList := (Prod.mk.inj h.framed).1

theorem Moving.brk_eq (h : Moving N s s') : s'.brk = s.brk := (Prod.mk.inj h.framed).2

/-- An entry is changed, and is present only where it was or where it may be. -/
theorem Moving.setPte {t : Tid} {va : Vaddr} {pte : Pte}
    (hp : pte.present = true → (∃ old, s.pte t va = some old ∧ old.present = true) ∨ N va) :
    Moving N s (s.setPte t va pte) := by
  refine ⟨⟨⟨rfl, ?_, le_rfl⟩, rfl⟩, rfl⟩
  rintro sp va' ⟨e, he, hpe⟩
  have he : (update s.tables (space t va) ((s.tables (space t va)).insert va pte) sp).lookup va' = some e := he
  by_cases hsp : sp = space t va
  · subst hsp
    rw [update_self] at he
    by_cases hva : va' = va
    · subst hva
      rw [AList.lookup_insert] at he
      cases he
      exact hp hpe
    · rw [AList.lookup_insert_ne hva] at he
      exact .inl ⟨e, he, hpe⟩
  · rw [update_of_ne hsp] at he
    exact .inl ⟨e, he, hpe⟩

theorem Moving.clearPte (s : Vm) (t : Tid) (va : Vaddr) : Moving N s (s.clearPte t va) := by
  unfold Vm.clearPte
  split
  · exact .refl _
  · split
    · exact .setPte nofun
    · exact .refl _

/-- The entries of a table are removed. -/
theorem Moving.clearTable (s : Vm) (sp : Space) : Moving N s { s with tables := update s.tables sp ∅ } := by
  refine ⟨⟨⟨rfl, ?_, le_rfl⟩, rfl⟩, rfl⟩
  rintro sp' va ⟨e, he, hpe⟩
  have he : (update s.tables sp ∅ sp').lookup va = some e := he
  by_cases hsp : sp' = sp
  · subst hsp
    rw [update_self, AList.lookup_empty] at he
    cases he
  · rw [update_of_ne hsp] at he
    exact .inl ⟨e, he, hpe⟩

/-- What a page is stays. -/
theorem Accessing.pages (h : Accessing N s s') (q : PagePtr) :
    (s'.pages q).map Page.still = (s.pages q).map Page.still := by
  have hp : s'.still.pages q = s.still.pages q := by rw [h.still]
  exact hp

theorem Accessing.page {page : Page} (h : Accessing N s s') (hq : s'.pages q = some page) :
    ∃ old, s.pages q = some old ∧ page.still = old.still := by
  have hp := h.pages q
  rw [hq, Option.map_some] at hp
  obtain ⟨old, hold, he⟩ := Option.map_eq_some_iff.mp hp.symm
  exact ⟨old, hold, he.symm⟩

theorem Accessing.spt (h : Accessing N s s') : s'.spt = s.spt := by
  have hspt : s'.still.spt = s.still.spt := by rw [h.still]
  exact hspt

/-- The pages are looked up alike. -/
theorem Accessing.findPage {va : Vaddr} (h : Accessing N s s') (l : List PagePtr) :
    s'.findPage va l = s.findPage va l := by
  induction l with
  | nil => rfl
  | cons q rest ih =>
    unfold Vm.findPage
    rw [ih]
    have hq := h.pages q
    cases hs : s'.pages q with
    | none =>
      rw [hs, Option.map_none, eq_comm, Option.map_eq_none_iff] at hq
      rw [hq]
    | some page =>
      obtain ⟨old, hold, he⟩ := h.page hs
      have hva : page.still.va = old.still.va := by rw [he]
      have hva : page.va = old.va := hva
      rw [hold]
      dsimp only
      rw [hva]

end

/-- No double release, no assertion about an argument, and no exit of the process. -/
def VmFault.Plain : VmFault → Prop
  | .exit _ => False
  | .release => False
  | .setPage => False
  | .fs e => e.Plain
  | _ => True

/-- An assertion about the position in a file or about the address of a page. -/
def VmFault.Argument (e : VmFault) : Prop := e = .setPage ∨ e = .fs .argument

/-- How loading a page fails, that is `fine` or not. -/
def VmFault.Loads (fine : Prop) (e : VmFault) : Prop := e.Plain ∨ e = .release ∨ (¬ fine ∧ e.Argument)

/-- `file_seek` accepts the offset. -/
def FileInfo.Fine (info : FileInfo) : Prop := info.file ≠ none ∧ 0 ≤ info.ofs

/-- What a page refers to. -/
def Aux.Fine (aux : Option FileInfo) : Prop := ∀ info, aux = some info → info.Fine

/-- `pml4_set_page` accepts the address. -/
def Page.Fine (page : Page) : Prop := (Aligned page.va ∧ isUserVaddr page.va = true) ∧ Aux.Fine page.aux

section

variable {N : Vaddr → Prop} {t : Tid} {q : PagePtr} {f : FramePtr}

theorem does_liftFs {α : Type} {p : FsProg α} {E : FsFault → Prop} {D : VmFault → Prop}
    (hp : p.Does SameHandles E) (hD : ∀ e, E e → D (.fs e)) : (liftFs p).Does (Moving N) D := by
  refine hp.zoom (fun s fs h => ?_) hD
  unfold SameHandles at h
  refine .same ?_ rfl rfl rfl
  unfold Vm.still
  simp only [h]

theorem does_read {α : Type} (g : Vm → α) : (Prog.read fun s => .ok (g s) : VmProg α).Does (Moving N) VmFault.Plain :=
  .read .refl fun _ _ h => by cases h

/-- A change that paging makes. -/
theorem does_write {g : Vm → Vm} (h : ∀ s, Moving N s (g s)) :
    (Prog.write fun s => .ok (g s) : VmProg Unit).Does (Moving N) VmFault.Plain := by
  refine .write (fun s s' hs => ?_) (fun s e hs => ?_)
  · cases hs
    exact h s
  · cases hs

theorem does_derefPage : (derefPage q).Does (Moving N) VmFault.Plain := by
  refine .read .refl fun s e h => ?_
  split at h
  · cases h
    trivial
  · cases h

theorem does_derefFrame {fp : Option FramePtr} : (derefFrame fp).Does (Moving N) VmFault.Plain := by
  cases fp with
  | none => exact .fail trivial
  | some f =>
    refine .read .refl fun s e h => ?_
    split at h
    · cases h
      trivial
    · cases h

theorem does_updatePage {g : Page → Page} (hg : ∀ page, (g page).still = page.still) :
    (updatePage q g).Does (Moving N) VmFault.Plain := by
  refine .write (fun s s' h => ?_) (fun s e h => ?_)
  · split at h
    · cases h
    · next page hq =>
      cases h
      have hpages : (fun r => (update s.pages q (some (g page)) r).map Page.still) =
          fun r => (s.pages r).map Page.still := by
        funext r
        by_cases hr : r = q
        · subst hr
          rw [update_self, hq, Option.map_some, Option.map_some, hg]
        · rw [update_of_ne hr]
      refine .same ?_ rfl rfl rfl
      unfold Vm.still Vm.setPage
      simp only [hpages]
  · split at h
    · cases h
      trivial
    · cases h

theorem does_updateFrame {g : Frame → Frame} : (updateFrame f g).Does (Moving N) VmFault.Plain := by
  refine .write (fun s s' h => ?_) (fun s e h => ?_)
  · split at h
    · cases h
    · cases h
      exact .same rfl rfl rfl rfl
  · split at h
    · cases h
      trivial
    · cases h

theorem does_vmAlloc : vmAlloc.Does (Moving N) VmFault.Plain := by
  refine .lift (fun s b s' h => ?_) (fun s e h => ?_)
  · cases h
    exact .same rfl rfl rfl rfl
  · cases h

theorem does_pallocGetUser : pallocGetUser.Does (Moving N) VmFault.Plain := by
  refine .lift (fun s b s' h => ?_) (fun s e h => ?_)
  · cases h
    exact .same rfl rfl rfl rfl
  · cases h

theorem does_pallocFreeUser {kva : Kva} : (pallocFreeUser kva).Does (Moving N) fun e => e = .release := by
  refine .write (fun s s' h => ?_) (fun s e h => ?_)
  · simp only at h
    split at h
    · cases h
      exact .same rfl rfl rfl rfl
    · cases h
  · simp only at h
    split at h
    · cases h
    · cases h
      rfl

theorem does_pml4SetPage {upage : Vaddr} {kpage : Kva} {rw : Bool} (hN : N upage) :
    (pml4SetPage t upage kpage rw).Does (Moving N)
      (VmFault.Loads (Aligned upage ∧ isUserVaddr upage = true)) := by
  unfold pml4SetPage
  split
  · next hbad =>
    refine .fail (.inr (.inr ⟨fun ⟨hal, hu⟩ => ?_, .inl rfl⟩))
    rcases hbad with h | h
    · exact h hal
    · rw [hu] at h
      cases h
  · refine (does_vmAlloc.weaken fun _ => Or.inl).bind fun walked => ?_
    split
    · exact .bind (.weaken (fun _ => Or.inl) (does_write fun _ => .setPte fun _ => .inr hN)) fun _ => .pure _
    · exact .pure _

theorem does_pml4ClearPage {upage : Vaddr} : (pml4ClearPage t upage).Does (Moving N) VmFault.Plain := by
  unfold pml4ClearPage
  split
  · exact .fail trivial
  · exact does_write fun s => .clearPte s t upage

theorem does_pml4IsDirty {vpage : Vaddr} : (pml4IsDirty t vpage).Does (Moving N) VmFault.Plain := by
  refine .read .refl fun s e h => ?_
  split at h
  · cases h
  · cases h

theorem does_pml4SetDirty {vpage : Vaddr} {dirty : Bool} :
    (pml4SetDirty t vpage dirty).Does (Moving N) VmFault.Plain := by
  refine .write (fun s s' h => ?_) (fun s e h => ?_)
  · split at h
    · cases h
      exact .refl _
    · next pte hpte =>
      cases h
      exact .setPte fun hp => .inl ⟨pte, hpte, hp⟩
  · split at h
    · cases h
    · cases h

theorem does_destroyPtes (ptes : List Pte) : (destroyPtes ptes).Does (Moving N) Any := by
  induction ptes with
  | nil => exact .pure _
  | cons pte rest ih =>
    unfold destroyPtes
    split
    · exact does_pallocFreeUser.any.bind fun _ => ih
    · exact ih

theorem does_pml4Destroy : (pml4Destroy t).Does (Moving N) Any :=
  (does_read fun s => s.tables (some t)).any.bind fun _ => (does_destroyPtes _).bind fun _ =>
    .any (does_write fun s => .clearTable s (some t))

theorem does_lazySeek {info : FileInfo} : (lazySeek info).Does (Moving N) (VmFault.Loads info.Fine) := by
  unfold lazySeek
  split
  · next hnone => exact .fail (.inr (.inr ⟨fun h => h.1 hnone, .inr rfl⟩))
  · refine (does_liftFs does_fileSeek fun e he => ?_).bind fun _ => .pure _
    rcases he with hneg | hplain
    · by_cases hp : e.Plain
      · exact .inl hp
      · exact .inr (.inr ⟨fun h => absurd h.2 (by omega), .inr (congrArg _ (not_not.mp hp))⟩)
    · exact .inl hplain

theorem does_lazyLoadSegment {aux : Option FileInfo} :
    (lazyLoadSegment q aux).Does (Moving N) (VmFault.Loads (Aux.Fine aux)) := by
  refine (does_derefPage.weaken fun _ => Or.inl).bind fun page =>
    (does_derefFrame.weaken fun _ => Or.inl).bind fun frame => ?_
  cases aux with
  | none => exact .fail (.inl trivial)
  | some info =>
    refine (does_lazySeek.weaken fun e => Or.imp_right (Or.imp_right (And.imp_left (mt fun h => h _ rfl)))).bind
      fun file => (does_liftFs does_fileRead fun _ h => .inl h).bind fun bytes =>
      .bind (.weaken (fun _ => Or.inl) (does_write fun _ => .same rfl rfl rfl rfl)) fun _ => ?_
    split
    · exact (does_pallocFreeUser.weaken fun _ h => .inr (.inl h)).bind fun _ => .pure _
    · exact .bind (.weaken (fun _ => Or.inl) (does_write fun _ => .same rfl rfl rfl rfl)) fun _ => .pure _

/-! ## Swapping -/

theorem does_acquireSwap : (acquireSwap t).Does (Moving N) VmFault.Plain := by
  refine .write (fun s s' h => ?_) (fun s e h => ?_)
  · split at h
    · cases h
    · cases h
      exact .same rfl rfl rfl rfl
  · split at h
    · cases h
      trivial
    · cases h

theorem does_releaseSwap : releaseSwap.Does (Moving N) VmFault.Plain := does_write fun _ => .same rfl rfl rfl rfl

theorem does_readSwap {slot : BitVec 32} {kva : Kva} {k : Nat} :
    ∀ i, (readSwap slot kva i k).Does (Moving N) VmFault.Plain := by
  induction k with
  | zero => exact fun _ => .pure _
  | succ k ih =>
    intro i
    refine .bind (.write (fun s s' h => ?_) (fun s e h => ?_)) fun _ => ih (i + 1)
    · split at h
      · cases h
        exact .same rfl rfl rfl rfl
      · cases h
    · split at h
      · cases h
      · cases h
        trivial

theorem does_writeSwap {slot : BitVec 32} {kva : Kva} {k : Nat} :
    ∀ i, (writeSwap slot kva i k).Does (Moving N) VmFault.Plain := by
  induction k with
  | zero => exact fun _ => .pure _
  | succ k ih =>
    intro i
    refine .bind (.write (fun s s' h => ?_) (fun s e h => ?_)) fun _ => ih (i + 1)
    · split at h
      · cases h
        exact .same rfl rfl rfl rfl
      · cases h
    · split at h
      · cases h
      · cases h
        trivial

theorem does_takeSlot : takeSlot.Does (Moving N) VmFault.Plain := by
  refine .lift (fun s b s' h => ?_) (fun s e h => ?_)
  · split at h
    · cases h
      exact .same rfl rfl rfl rfl
    · cases h
      exact .same rfl rfl rfl rfl
  · split at h
    · cases h
    · cases h

theorem does_anonSwapIn : (anonSwapIn t q).Does (Moving N) VmFault.Plain := by
  refine does_derefPage.bind fun page => does_derefFrame.bind fun frame =>
    does_acquireSwap.bind fun _ => does_derefPage.bind fun page =>
    (does_readSwap 0).bind fun _ => .bind (.write (fun s s' h => ?_) (fun s e h => ?_)) fun _ =>
    does_releaseSwap.bind fun _ => .bind (does_updatePage fun _ => rfl) fun _ => .pure _
  · split at h
    · cases h
      exact .same rfl rfl rfl rfl
    · cases h
  · split at h
    · cases h
    · cases h
      trivial

theorem does_anonSwapOut : (anonSwapOut t q).Does (Moving N) VmFault.Plain :=
  does_derefPage.bind fun _ => does_derefFrame.bind fun _ =>
    does_acquireSwap.bind fun _ => does_takeSlot.bind fun _ =>
    (does_writeSwap 0).bind fun _ => .bind (does_updatePage fun _ => rfl) fun _ =>
    does_pml4ClearPage.bind fun _ => does_releaseSwap.bind fun _ => .pure _

theorem does_writeBack {info : FileInfo} {kva : Kva} : (writeBack info kva).Does (Moving N) VmFault.Plain := by
  unfold writeBack
  split
  · exact .fail trivial
  · exact (does_read fun s => s.bytes kva info.pageReadBytes).bind fun _ =>
      (does_liftFs does_fileWriteAt fun _ h => h).bind fun _ => .pure _

theorem does_writeDirty {page : Page} {va : Vaddr} : (writeDirty t page va).Does (Moving N) VmFault.Plain := by
  unfold writeDirty
  split
  · exact .pure _
  · refine does_pml4IsDirty.bind fun dirty => ?_
    split
    · exact does_derefFrame.bind fun _ => does_writeBack
    · exact .pure _

theorem does_fileBackedSwapOut : (fileBackedSwapOut t q).Does (Moving N) VmFault.Plain :=
  does_derefPage.bind fun _ => does_writeDirty.bind fun _ =>
    does_pml4SetDirty.bind fun _ => does_pml4ClearPage.bind fun _ => .pure _

theorem does_pageInitializer {type : VmType} : (pageInitializer q type).Does (Moving N) VmFault.Plain := by
  cases type with
  | uninit => exact .fail trivial
  | anon => exact .bind (does_updatePage fun _ => rfl) fun _ => .pure _
  | file => exact .bind (does_updatePage fun _ => rfl) fun _ => does_read fun s => s.leftover

theorem does_uninitInitialize : (uninitInitialize q).Does (Moving N) Any := by
  refine does_derefPage.any.bind fun page => does_pageInitializer.any.bind fun initialized => ?_
  split
  · split
    · exact does_lazyLoadSegment.any
    · exact .pure _
  · exact .pure _

theorem does_swapIn : (swapIn t q).Does (Moving N) Any := by
  refine does_derefPage.any.bind fun page => ?_
  split
  · exact does_uninitInitialize
  · exact does_anonSwapIn.any
  · exact does_derefPage.any.bind fun _ => does_lazyLoadSegment.any.bind fun _ => .pure _

theorem does_swapOut : (swapOut t q).Does (Moving N) VmFault.Plain := by
  refine does_derefPage.bind fun page => ?_
  split
  · exact .fail trivial
  · exact does_anonSwapOut
  · exact does_fileBackedSwapOut

theorem does_swapOutVictim : (swapOutVictim t f).Does (Moving N) VmFault.Plain := by
  refine does_derefFrame.bind fun frame => ?_
  split
  · exact .fail trivial
  · exact does_swapOut

/-- Any entry may become present. -/
theorem does_claimFrame : (claimFrame t q f).Does (Moving Any) Any := by
  refine does_updateFrame.any.bind fun _ => .bind (.any (does_updatePage fun _ => rfl)) fun _ =>
    does_derefPage.any.bind fun page => does_derefFrame.any.bind fun frame =>
    (does_pml4SetPage trivial).any.bind fun mapped => ?_
  split
  · exact does_swapIn
  · exact .pure _

/-! ## Claims -/

theorem claiming {α : Type} {p : VmProg α} {E : VmFault → Prop} (h : p.Does (Moving N) E) :
    p.Does (Claiming N) E := h.mono (fun _ _ h => h.toClaiming) fun _ h => h

theorem does_vmGetVictim : vmGetVictim.Does (Claiming N) VmFault.Plain := by
  refine .read .refl fun s e h => ?_
  split at h
  · cases h
    trivial
  · cases h

/-- The list of frames changes. -/
theorem does_setFrames {g : List FramePtr → List FramePtr} :
    (Prog.write fun s => .ok { s with frameList := g s.frameList } : VmProg Unit).Does (Claiming N) VmFault.Plain := by
  refine .write (fun s s' h => ?_) (fun s e h => ?_)
  · cases h
    exact .same rfl rfl rfl le_rfl
  · cases h

theorem does_takeVictim {swapped : Bool} : (takeVictim f swapped).Does (Claiming N) VmFault.Plain := by
  unfold takeVictim
  split
  · refine (does_setFrames (g := fun l => l.erase f)).bind fun _ => (claiming does_derefFrame).bind fun frame => ?_
    split
    · exact .fail trivial
    · exact .bind (claiming (does_updatePage fun _ => rfl)) fun _ => (claiming does_updateFrame).bind fun _ => .pure _
  · exact .fail trivial

theorem does_newFrame {kva : Kva} : (newFrame kva).Does (Claiming N) VmFault.Plain := by
  refine (claiming does_vmAlloc).bind fun allocated => ?_
  split
  · refine .lift (fun s f s' h => ?_) (fun s e h => ?_)
    · cases h
      exact .same rfl rfl rfl (Nat.le_succ _)
    · cases h
  · exact .fail trivial

theorem does_addFrame : (addFrame f).Does (Claiming N) VmFault.Plain :=
  (does_setFrames (g := fun l => l ++ [f])).bind fun _ => (claiming does_updateFrame).bind fun _ => .pure _

theorem does_vmEvictFrame : (vmEvictFrame t).Does (Claiming N) VmFault.Plain :=
  does_vmGetVictim.bind fun _ => (claiming does_swapOutVictim).bind fun _ => does_takeVictim

theorem does_vmGetFrame : (vmGetFrame t).Does (Claiming N) VmFault.Plain := by
  refine (claiming does_pallocGetUser).bind fun kva => ?_
  cases kva with
  | none => exact does_vmEvictFrame.bind fun _ => does_addFrame
  | some kva => exact does_newFrame.bind fun _ => does_addFrame

theorem does_anonDestroy : (anonDestroy q).Does (Claiming N) VmFault.Plain := by
  refine (claiming does_derefPage).bind fun page => ?_
  split
  · exact .pure _
  · next f _ =>
    exact (claiming does_derefFrame).bind fun _ => (does_setFrames (g := fun l => l.erase f)).bind fun _ =>
      (claiming does_updateFrame).bind fun _ => claiming (does_updatePage fun _ => rfl)

theorem does_fileBackedDestroy : (fileBackedDestroy t q).Does (Claiming N) VmFault.Plain := by
  refine (claiming does_derefPage).bind fun page => (claiming does_writeDirty).bind fun _ =>
    (claiming does_pml4ClearPage).bind fun _ => ?_
  split
  · exact .pure _
  · next f _ =>
    exact (claiming does_derefFrame).bind fun _ => (does_setFrames (g := fun l => l.erase f)).bind fun _ =>
      claiming (does_write fun _ => .same rfl rfl rfl rfl)

theorem does_destroy : (destroy t q).Does (Claiming N) VmFault.Plain := by
  refine (claiming does_derefPage).bind fun page => ?_
  split
  · exact .pure _
  · exact does_anonDestroy
  · exact does_fileBackedDestroy

theorem does_vmDoClaimPage : (vmDoClaimPage t q).Does (Claiming Any) Any :=
  does_vmGetFrame.any.bind fun _ => claiming does_claimFrame

end

/-! ## What a claim makes present -/

/-- The address of the page. -/
def Vm.At (s : Vm) (q : PagePtr) (va : Vaddr) : Prop := ∃ page, s.pages q = some page ∧ page.va = va

/-- The page can be loaded. -/
def Vm.Fine (s : Vm) (q : PagePtr) : Prop := ∀ page, s.pages q = some page → page.Fine

section

variable {N : Vaddr → Prop} {s₀ s : Vm} {t : Tid} {q : PagePtr} {f : FramePtr}

theorem Page.still_fine {page old : Page} (h : page.still = old.still) : page.Fine ↔ old.Fine := by
  have hva : page.still.va = old.still.va := by rw [h]
  have haux : page.still.aux = old.still.aux := by rw [h]
  have hva : page.va = old.va := hva
  have haux : page.aux = old.aux := haux
  unfold Page.Fine
  rw [hva, haux]

theorem Accessing.at {va : Vaddr} (h : Accessing N s₀ s) (hq : s.At q va) : s₀.At q va := by
  obtain ⟨page, hpage, rfl⟩ := hq
  obtain ⟨old, hold, hstill⟩ := h.page hpage
  have hva : page.still.va = old.still.va := by rw [hstill]
  exact ⟨old, hold, hva.symm⟩

theorem Accessing.fine (h : Accessing N s₀ s) (hq : s₀.Fine q) : s.Fine q := by
  intro page hpage
  obtain ⟨old, hold, hstill⟩ := h.page hpage
  exact (Page.still_fine hstill).mpr (hq old hold)

theorem wp_derefPage {I : Vm → Prop} {E : VmFault → Prop} {Q : Page → Vm → Prop} (hI : I s) (hE : E .dangling)
    (hQ : ∀ page, s.pages q = some page → Q page s) : (derefPage q).wp I E Q s := by
  refine Prog.wp_read hI (fun e h => ?_) (fun page h => ?_)
  · split at h
    · cases h
      exact hE
    · cases h
  · split at h
    · cases h
    · next hq =>
      cases h
      exact hQ _ hq

/-- The page that is read is the one at the start, as far as its address and file go. -/
theorem wp_derefPage_bind {α : Type} {g : Page → VmProg α} {Q : α → Vm → Prop} {E : VmFault → Prop}
    (h : Claiming N s₀ s) (hE : E .dangling)
    (hg : ∀ page, s₀.At q page.va → (s₀.Fine q → page.Fine) → (g page).wp (Claiming N s₀) E Q s) :
    (derefPage q >>= g).wp (Claiming N s₀) E Q s :=
  Prog.wp_bind <| wp_derefPage h hE fun page hpage => hg page (h.at ⟨page, hpage, rfl⟩) fun hq => h.fine hq page hpage

theorem VmFault.Loads.mono {fine fine' : Prop} (h : fine' → fine) {e : VmFault} (he : VmFault.Loads fine e) :
    VmFault.Loads fine' e := he.imp_right (Or.imp_right (And.imp_left (mt h)))

theorem wp_lazyLoadSegment {fine : Prop} {aux : Option FileInfo} (h : Claiming N s₀ s) (hfine : fine → Aux.Fine aux) :
    (lazyLoadSegment q aux).wp (Claiming N s₀) (VmFault.Loads fine) (fun _ => Claiming N s₀) s :=
  (claiming (does_lazyLoadSegment.weaken fun _ he => he.mono hfine)).wp .trans h

theorem wp_uninitInitialize (h : Claiming N s₀ s) :
    (uninitInitialize q).wp (Claiming N s₀) (VmFault.Loads (s₀.Fine q)) (fun _ => Claiming N s₀) s := by
  refine wp_derefPage_bind h (.inl trivial) fun page _ hfine => ?_
  refine (claiming does_pageInitializer).wp_bind .trans h (fun _ => .inl) fun initialized s h => ?_
  split
  · split
    · exact wp_lazyLoadSegment h fun hq => (hfine hq).2
    · exact Prog.wp_pure h h
  · exact Prog.wp_pure h h

theorem wp_swapIn (h : Claiming N s₀ s) :
    (swapIn t q).wp (Claiming N s₀) (VmFault.Loads (s₀.Fine q)) (fun _ => Claiming N s₀) s := by
  refine wp_derefPage_bind h (.inl trivial) fun page _ _ => ?_
  split
  · exact wp_uninitInitialize h
  · exact (claiming (does_anonSwapIn.weaken fun _ => .inl)).wp .trans h
  · refine wp_derefPage_bind h (.inl trivial) fun page _ hfine => ?_
    exact Prog.wp_bind <| Prog.wp_mono (fun _ h => h) (fun _ h => h) (fun _ s h => Prog.wp_pure h h)
      (wp_lazyLoadSegment h fun hq => (hfine hq).2)

/-- The page becomes present at its address, which is a user address. -/
theorem wp_claimFrame (h : Claiming N s₀ s) (hN : ∀ va, s₀.At q va → N va) :
    (claimFrame t q f).wp (Claiming N s₀) (VmFault.Loads (s₀.Fine q))
      (fun _ s' => Claiming N s₀ s' ∧ ∃ va, s₀.At q va ∧ isUserVaddr va = true) s := by
  refine (claiming does_updateFrame).wp_bind .trans h (fun _ => .inl) fun _ s h => ?_
  refine (claiming (does_updatePage (g := fun page => { page with frame := some f }) fun _ => rfl)).wp_bind
    .trans h (fun _ => .inl) fun _ s h => ?_
  refine wp_derefPage_bind h (.inl trivial) fun page hva hfine => ?_
  refine (claiming does_derefFrame).wp_bind .trans h (fun _ => .inl) fun frame s h => ?_
  by_cases hu : isUserVaddr page.va = true
  · refine (claiming (does_pml4SetPage (hN _ hva))).wp_bind .trans h
      (fun _ he => he.mono fun hq => (hfine hq).1) fun mapped s h => ?_
    split
    · exact Prog.wp_mono (fun _ h => h) (fun _ h => h) (fun _ _ h => ⟨h, page.va, hva, hu⟩) (wp_swapIn h)
    · exact Prog.wp_pure h ⟨h, page.va, hva, hu⟩
  · rw [pml4SetPage, if_pos (.inr (by simpa using hu))]
    exact Prog.wp_bind (Prog.wp_fail h (.inr (.inr ⟨fun hq => hu (hfine hq).1.2, .inl rfl⟩)))

theorem wp_vmDoClaimPage (h : Claiming N s₀ s) (hN : ∀ va, s₀.At q va → N va) :
    (vmDoClaimPage t q).wp (Claiming N s₀) (VmFault.Loads (s₀.Fine q))
      (fun _ s' => Claiming N s₀ s' ∧ ∃ va, s₀.At q va ∧ isUserVaddr va = true) s :=
  does_vmGetFrame.wp_bind .trans h (fun _ => .inl) fun _ _ h => wp_claimFrame h hN

/-- A page that is found has the address. -/
theorem Vm.at_of_findPage {va : Vaddr} {l : List PagePtr} (h : s.findPage va l = some q) : s.At q va := by
  induction l with
  | nil => cases h
  | cons q' rest ih =>
    unfold findPage at h
    split at h
    · exact ih h
    · next page hpage =>
      split at h
      · next hva =>
        cases h
        exact ⟨page, hpage, hva⟩
      · exact ih h

theorem Vm.At.unique {va va' : Vaddr} (h : s.At q va) (h' : s.At q va') : va = va' := by
  obtain ⟨page, hpage, rfl⟩ := h
  obtain ⟨page', hpage', rfl⟩ := h'
  rw [Option.some.inj (hpage.symm.trans hpage')]

/-- A claim makes the page of the address present. -/
theorem wp_vmClaimPage {va : Vaddr} (h : Claiming N s₀ s)
    (hN : ∀ q, s₀.findPage (pgRoundDown va) (s₀.spt t) = some q → N (pgRoundDown va)) :
    (vmClaimPage t va).wp (Claiming N s₀)
      (VmFault.Loads (∀ q, s₀.findPage (pgRoundDown va) (s₀.spt t) = some q → s₀.Fine q))
      (fun claimed s' => Claiming N s₀ s' ∧
        (claimed = true → s₀.findPage (pgRoundDown va) (s₀.spt t) ≠ none ∧ isUserVaddr (pgRoundDown va) = true)) s := by
  refine Prog.wp_bind <| Prog.wp_read h nofun fun found hfound => ?_
  cases hfound
  rw [h.findPage, h.spt]
  cases hfind : s₀.findPage (pgRoundDown va) (s₀.spt t) with
  | none => exact Prog.wp_pure h ⟨h, nofun⟩
  | some q =>
    have hat := Vm.at_of_findPage hfind
    refine Prog.wp_mono (fun _ h => h) (fun _ he => he.mono fun hq => hq q rfl) ?_
      (wp_vmDoClaimPage h fun va' hva' => ?_)
    · rintro _ s' ⟨h', va', hva', hu⟩
      rw [hva'.unique hat] at hu
      exact ⟨h', fun _ => ⟨nofun, hu⟩⟩
    · rw [hva'.unique hat]
      exact hN q hfind

end

end Pintos
