import Pintos.Userprog.Image
import Pintos.Vm.Changes

/-!
# What changes of pages leave alone

Pages are added, loaded, copied and removed without a file being opened or closed, and other processes
keep their pages. The files that pages are loaded from are those that a predicate allows.

* `Vm.Backs` — the files that the pages of a process are loaded from
* `Remaps` — what these calls do
* `remaps_load`, `remaps_mapPages`, `ends_processCleanup`, `ends_sptCopy`, … — one lemma for each
-/

namespace Pintos

open Function

/-! ## Pages and files -/

/-- A page of the thread is loaded from the file. -/
def Vm.Backs (s : Vm) (t : Tid) (f : FilePtr) : Prop :=
  ∃ q ∈ s.spt t, ∃ page info, s.pages q = some page ∧ page.aux = some info ∧ info.file = some f

/-- The next pointer is not of a page. -/
def Vm.Fresh (s : Vm) : Prop := ∀ t, ∀ q ∈ s.spt t, q < s.brk

/-- The pages of threads are loaded from the files that `B` allows. -/
structure Vm.Within (s : Vm) (B : Tid → FilePtr → Prop) : Prop where
  fresh : s.Fresh
  backs : ∀ t f, s.Backs t f → B t f

/-- The thread changes its own pages, and no file is opened or closed. -/
structure Remaps (t : Tid) (B : Tid → FilePtr → Prop) (s s' : Vm) : Prop where
  handles : SameHandles s.fs s'.fs
  fdt : s'.fdt = s.fdt
  fdIndex : s'.fdIndex = s.fdIndex
  runnFile : s'.runnFile = s.runnFile
  spt : ∀ u, u ≠ t → s'.spt u = s.spt u
  fresh : s.Fresh → s'.Fresh
  others : s.Fresh → ∀ u, u ≠ t → ∀ f, s'.Backs u f → s.Backs u f
  within : s.Within B → s'.Within B

/-- The files that `B` allows to the thread. -/
def Allows (B : Tid → FilePtr → Prop) (t : Tid) (aux : Option FileInfo) : Prop :=
  ∀ info f, aux = some info → info.file = some f → B t f

section

variable {α : Type} {N : Vaddr → Prop} {B : Tid → FilePtr → Prop} {s s' : Vm} {t parent : Tid} {q : PagePtr}
  {f : FilePtr} {E : VmFault → Prop}

theorem Remaps.refl (s : Vm) : Remaps t B s s :=
  ⟨.refl _, rfl, rfl, rfl, fun _ _ => rfl, fun h => h, fun _ _ _ _ h => h, fun h => h⟩

theorem Remaps.trans (s s₁ s' : Vm) (h : Remaps t B s s₁) (h' : Remaps t B s₁ s') : Remaps t B s s' :=
  ⟨.trans _ _ _ h.handles h'.handles, h'.fdt.trans h.fdt, h'.fdIndex.trans h.fdIndex,
    h'.runnFile.trans h.runnFile, fun u hu => (h'.spt u hu).trans (h.spt u hu), fun hf => h'.fresh (h.fresh hf),
    fun hf u hu f hb => h.others hf u hu f (h'.others (h.fresh hf) u hu f hb), fun hw => h'.within (h.within hw)⟩

/-- Paging changes no `aux`. -/
theorem Accessing.backs (h : Accessing N s s') : s'.Backs t f ↔ s.Backs t f := by
  unfold Vm.Backs
  rw [h.spt]
  have haux : ∀ q, (s'.pages q).map Page.aux = (s.pages q).map Page.aux := by
    intro q
    have hq := congrArg (Option.map Page.aux) (h.pages q)
    rw [Option.map_map, Option.map_map] at hq
    exact hq
  have hiff : ∀ q, (∃ page info, s'.pages q = some page ∧ page.aux = some info ∧ info.file = some f) ↔
      ∃ page info, s.pages q = some page ∧ page.aux = some info ∧ info.file = some f := by
    intro q
    have hq := haux q
    constructor
    · rintro ⟨page, info, hp, ha, hf⟩
      rw [hp, Option.map_some] at hq
      obtain ⟨old, hold, he⟩ := Option.map_eq_some_iff.mp hq.symm
      exact ⟨old, info, hold, he.trans ha, hf⟩
    · rintro ⟨page, info, hp, ha, hf⟩
      rw [hp, Option.map_some] at hq
      obtain ⟨new, hnew, he⟩ := Option.map_eq_some_iff.mp hq
      exact ⟨new, info, hnew, he.trans ha, hf⟩
  simp only [hiff]

theorem Accessing.remaps (h : Accessing N s s') : Remaps t B s s' := by
  have hstill := h.still
  have hfresh : s.Fresh → s'.Fresh := fun hf u q hq => by
    rw [h.spt] at hq
    exact (hf u q hq).trans_le h.brk
  refine ⟨?_, ?_, ?_, ?_, fun u _ => by rw [h.spt], hfresh, fun _ _ _ _ => h.backs.mp,
    fun hw => ⟨hfresh hw.fresh, fun u f hb => hw.backs u f (h.backs.mp hb)⟩⟩
  · have he : s'.still.fs = s.still.fs := by rw [hstill]
    exact he
  · have he : s'.still.fdt = s.still.fdt := by rw [hstill]
    exact he
  · have he : s'.still.fdIndex = s.still.fdIndex := by rw [hstill]
    exact he
  · have he : s'.still.runnFile = s.still.runnFile := by rw [hstill]
    exact he

theorem remaps_claiming {p : VmProg α} (hp : p.Does (Claiming Any) E) : p.Does (Remaps t B) Any :=
  hp.mono (fun _ _ h => h.toAccessing.remaps) fun _ _ => trivial

theorem remaps_moving {p : VmProg α} (hp : p.Does (Moving Any) E) : p.Does (Remaps t B) Any :=
  remaps_claiming (claiming hp)

/-- Pages are removed, and left out of the thread's table. -/
theorem Remaps.shrink (hfs : s'.fs = s.fs) (hfdt : s'.fdt = s.fdt) (hidx : s'.fdIndex = s.fdIndex)
    (hrunn : s'.runnFile = s.runnFile) (hb : s'.brk = s.brk) (hspt : ∀ u, u ≠ t → s'.spt u = s.spt u)
    (ht : ∀ u, s'.spt u ⊆ s.spt u) (hp : ∀ q page, s'.pages q = some page → s.pages q = some page) :
    Remaps t B s s' := by
  have hfresh : s.Fresh → s'.Fresh := fun hf u q hq => by
    rw [hb]
    exact hf u q (ht u hq)
  have hbacks : ∀ u f, s'.Backs u f → s.Backs u f := fun u f ⟨q, hq, page, info, hpage, hf⟩ =>
    ⟨q, ht u hq, page, info, hp q page hpage, hf⟩
  refine ⟨?_, hfdt, hidx, hrunn, hspt, hfresh, fun _ u _ f => hbacks u f,
    fun hw => ⟨hfresh hw.fresh, fun u f h => hw.backs u f (hbacks u f h)⟩⟩
  rw [hfs]
  exact .refl _

theorem remaps_write {g : Vm → Vm} (h : ∀ s, Remaps t B s (g s)) :
    (Prog.write fun s => .ok (g s) : VmProg Unit).Does (Remaps t B) Any := by
  refine .write (fun s s' hs => ?_) (fun _ _ _ => trivial)
  cases hs
  exact h s

theorem Remaps.setSpt {l : List PagePtr} (h : l ⊆ s.spt t) : Remaps t B s (s.setSpt t l) := by
  refine .shrink rfl rfl rfl rfl rfl (fun u hu => update_of_ne hu _ _) (fun u => ?_) fun _ _ h => h
  show update s.spt t l u ⊆ s.spt u
  by_cases hu : u = t
  · subst hu
    rwa [update_self]
  · rw [update_of_ne hu]
    exact List.Subset.refl _

theorem Remaps.freePage (s : Vm) (q : PagePtr) : Remaps t B s (s.setPage q none) := by
  refine .shrink rfl rfl rfl rfl rfl (fun _ _ => rfl) (fun _ => List.Subset.refl _) fun r page hr => ?_
  have hr : update s.pages q none r = some page := hr
  by_cases hq : r = q
  · subst hq
    rw [update_self] at hr
    cases hr
  · rwa [update_of_ne hq] at hr

/-! ## Pages that are removed -/

theorem remaps_vmDeallocPage : (vmDeallocPage t q).Does (Remaps t B) Any :=
  (remaps_claiming does_destroy).bind fun _ => remaps_write fun s => .freePage s q

theorem remaps_unmapPages (fuel : Nat) :
    ∀ page addr readBytes, (unmapPages t fuel page addr readBytes).Does (Remaps t B) Any := by
  induction fuel with
  | zero => exact fun _ _ _ => .pure _
  | succ fuel ih =>
    intro page addr readBytes
    cases page with
    | none => exact .pure _
    | some q =>
      unfold unmapPages
      dsimp only
      split
      · exact .pure _
      · exact .bind (remaps_write fun s => .setSpt List.erase_subset) fun _ =>
          remaps_vmDeallocPage.bind fun _ => .bind (remaps_moving (does_read _)) fun _ => ih _ _ _

theorem remaps_doMunmap {addr : Vaddr} : (doMunmap t addr).Does (Remaps t B) Any := by
  refine .bind (remaps_moving (does_read _)) fun found => ?_
  cases found with
  | none => exact .pure _
  | some q =>
    refine (remaps_moving does_derefPage).bind fun page => ?_
    split
    · exact .pure _
    · split
      · exact .fail trivial
      · exact remaps_unmapPages _ _ _ _

/-! ## Pages that are added -/

theorem allows_none : Allows B t none := nofun

theorem remaps_vmAllocPage {type : VmType} {upage : Vaddr} {writable init : Bool} {aux : Option FileInfo}
    (ha : Allows B t aux) : (vmAllocPage t type upage writable init aux).Does (Remaps t B) Any := by
  have hnew : ∀ (s : Vm) (l : List PagePtr) page, page.aux = aux → (l = s.spt t ∨ l = s.brk :: s.spt t) →
      Remaps t B s { (s.setPage s.brk (some page)).setSpt t l with brk := s.brk + 1 } := by
    intro s l page haux hl
    have hmem : ∀ u, ∀ q ∈ update s.spt t l u, q ∈ s.spt u ∨ (u = t ∧ q = s.brk) := by
      intro u q hq
      by_cases hu : u = t
      · subst hu
        rw [update_self] at hq
        rcases hl with rfl | rfl
        · exact .inl hq
        · rcases List.mem_cons.mp hq with rfl | hq
          · exact .inr ⟨rfl, rfl⟩
          · exact .inl hq
      · rw [update_of_ne hu] at hq
        exact .inl hq
    have hfresh : s.Fresh → ∀ u, ∀ q ∈ update s.spt t l u, q < s.brk + 1 := by
      intro hf u q hq
      rcases hmem u q hq with hq | ⟨-, rfl⟩
      · exact (hf u q hq).trans (Nat.lt_succ_self _)
      · exact Nat.lt_succ_self _
    -- the new page is only of this thread
    have hold : s.Fresh → ∀ u, ∀ q ∈ update s.spt t l u, ∀ page', update s.pages s.brk (some page) q = some page' →
        (q ∈ s.spt u ∧ s.pages q = some page') ∨ (u = t ∧ page' = page) := by
      intro hf u q hq page' hpage'
      rcases hmem u q hq with hq | ⟨hu, hq⟩
      · rw [update_of_ne (hf u q hq).ne] at hpage'
        exact .inl ⟨hq, hpage'⟩
      · rw [hq, update_self] at hpage'
        exact .inr ⟨hu, (Option.some.inj hpage').symm⟩
    refine ⟨.refl _, rfl, rfl, rfl, fun u hu => update_of_ne hu _ _, hfresh, ?_, fun hw => ⟨hfresh hw.fresh, ?_⟩⟩
    · rintro hf u hu f ⟨q, hq, page', info, hpage', hinfo, hfile⟩
      rcases hold hf u q hq page' hpage' with ⟨hq, hpage'⟩ | ⟨hc, -⟩
      · exact ⟨q, hq, page', info, hpage', hinfo, hfile⟩
      · exact absurd hc hu
    · rintro u f ⟨q, hq, page', info, hpage', hinfo, hfile⟩
      rcases hold hw.fresh u q hq page' hpage' with ⟨hq, hpage'⟩ | ⟨rfl, rfl⟩
      · exact hw.backs u f ⟨q, hq, page', info, hpage', hinfo, hfile⟩
      · exact ha info f (haux.symm.trans hinfo) hfile
  unfold vmAllocPage
  split
  · exact .fail trivial
  · refine (remaps_moving (does_read _)).bind fun found => ?_
    cases found with
    | some _ => exact .pure _
    | none =>
      refine (remaps_moving does_vmAlloc).bind fun allocated => ?_
      split
      · refine .lift (fun s r s' h => ?_) fun _ _ _ => trivial
        split at h
        · cases h
          have hself := hnew s (s.spt t) (uninitNew upage init type aux writable) rfl (.inl rfl)
          rwa [Vm.setSpt, show (s.setPage s.brk (some (uninitNew upage init type aux writable))).spt = s.spt from rfl,
            update_eq_self] at hself
        · cases h
          exact hnew s _ _ rfl (.inr rfl)
      · exact .pure _

theorem remaps_vmClaimPage {va : Vaddr} : (vmClaimPage t va).Does (Remaps t B) Any := by
  refine (remaps_moving (does_read _)).bind fun found => ?_
  cases found with
  | none => exact .pure _
  | some q => exact remaps_claiming does_vmDoClaimPage

theorem remaps_growStack (fuel : Nat) : ∀ addr, (growStack t fuel addr).Does (Remaps t B) Any := by
  induction fuel with
  | zero => exact fun _ => .pure _
  | succ fuel ih =>
    intro addr
    refine (remaps_moving (does_read _)).bind fun found => ?_
    cases found with
    | some _ => exact .pure _
    | none => exact (remaps_vmAllocPage allows_none).bind fun _ => remaps_vmClaimPage.bind fun _ => ih _

/-- A page fault. -/
theorem remaps_pageFault {rsp addr : Vaddr} : (pageFault t rsp addr).Does (Remaps t B) Any := by
  have hend : ∀ handled : Bool, (if handled then pure () else exit (-1) : VmProg Unit).Does (Remaps t B) Any := by
    intro handled
    split
    · exact .pure _
    · exact .fail trivial
  refine .bind ?_ hend
  unfold vmTryHandleFault
  split
  · refine (remaps_moving (does_read _)).bind fun found => ?_
    cases found with
    | some _ => exact remaps_vmClaimPage
    | none =>
      dsimp only
      split
      · exact (remaps_growStack _ _).bind fun _ => .pure _
      · exact .pure _
  · exact .pure _

theorem allows_file {info : FileInfo} (h : ∀ f, info.file = some f → B t f) : Allows B t (some info) := by
  rintro _ f ⟨⟩ hf
  exact h f hf

theorem remaps_loadPages {writable : Bool} (hf : B t f) (fuel : Nat) :
    ∀ ofs upage readBytes zeroBytes, (loadPages t f writable fuel ofs upage readBytes zeroBytes).Does (Remaps t B) Any := by
  induction fuel with
  | zero => exact fun _ _ _ _ => .pure _
  | succ fuel ih =>
    intro ofs upage readBytes zeroBytes
    unfold loadPages
    split
    · exact .pure _
    · refine (remaps_moving does_vmAlloc).bind fun allocated => ?_
      split
      · refine (remaps_vmAllocPage (allows_file fun g hg => ?_)).bind fun added => ?_
        · cases hg
          exact hf
        · split
          · exact ih _ _ _ _
          · exact .pure _
      · exact .pure _

theorem remaps_loadSegment {ofs : Int} {upage : Vaddr} {readBytes zeroBytes : BitVec 32} {writable : Bool}
    (hf : B t f) : (loadSegment t f ofs upage readBytes zeroBytes writable).Does (Remaps t B) Any := by
  unfold loadSegment
  split
  · exact .fail trivial
  · exact remaps_loadPages hf _ _ _ _ _

theorem remaps_loadPhdr {n : Int} {phdr : Phdr} (hf : B t f) : (loadPhdr t f n phdr).Does (Remaps t B) Any := by
  unfold loadPhdr
  split
  · exact .pure _
  · split
    · split
      · exact remaps_loadSegment hf
      · exact .pure _
    · exact .pure _

theorem remaps_loadPhdrs {n : Int} (hf : B t f) (phdrs : List Phdr) :
    (loadPhdrs t f n phdrs).Does (Remaps t B) Any := by
  induction phdrs with
  | nil => exact .pure _
  | cons phdr rest ih =>
    refine (remaps_loadPhdr hf).bind fun loaded => ?_
    split
    · exact ih
    · exact .pure _

theorem remaps_load {phdrs : List Phdr} (hf : B t f) : (load t f phdrs).Does (Remaps t B) Any := by
  refine (remaps_moving (does_liftFs (D := Any) does_fileLength fun _ _ => trivial)).bind fun n =>
    (remaps_loadPhdrs hf _).bind fun loaded => ?_
  split
  · refine (remaps_vmAllocPage allows_none).bind fun added => ?_
    split
    · exact remaps_vmClaimPage
    · exact .pure _
  · exact .pure _

theorem remaps_mapPages {file : Option FilePtr} {writable : Bool} (hf : ∀ f, file = some f → B t f) (fuel : Nat) :
    ∀ ofs upage readBytes, (mapPages t file writable fuel ofs upage readBytes).Does (Remaps t B) Any := by
  induction fuel with
  | zero => exact fun _ _ _ => .pure _
  | succ fuel ih =>
    intro ofs upage readBytes
    unfold mapPages
    split
    · exact .pure _
    · refine (remaps_moving does_vmAlloc).bind fun allocated => ?_
      split
      · refine (remaps_vmAllocPage (allows_file hf)).bind fun added => ?_
        split
        · exact ih _ _ _
        · exact .pure _
      · exact .pure _

/-! ## All the pages of a process -/

/-- Calls that also leave the tables of pages. -/
theorem keeps_spt {p : VmProg α} (hp : p.Does (Claiming N) E) :
    p.Does (fun s s' => Remaps t B s s' ∧ s'.spt = s.spt) Any :=
  hp.mono (fun _ _ h => ⟨h.toAccessing.remaps, h.toAccessing.spt⟩) fun _ _ => trivial

theorem vmDeallocPage_spt : (vmDeallocPage t q).Does (fun s s' => Remaps t B s s' ∧ s'.spt = s.spt) Any := by
  refine (keeps_spt (N := Any) does_destroy).bind fun _ => .write (fun s s' h => ?_) fun _ _ _ => trivial
  cases h
  exact ⟨.freePage s q, rfl⟩

/-- `hash_clear` leaves no page. -/
theorem ends_killPages {s₀ : Vm} (l : List PagePtr) (h : Remaps t B s₀ s) (hl : s.spt t = l) :
    (killPages t l).Ends (fun _ => Remaps t B s₀) (fun _ s' => Remaps t B s₀ s' ∧ s'.spt t = []) s := by
  induction l generalizing s with
  | nil => exact Prog.ends_pure ⟨h, hl⟩
  | cons q rest ih =>
    refine Prog.ends_bind <| Prog.ends_write nofun fun s₁ hs₁ => ?_
    cases hs₁
    have h₁ : Remaps t B s₀ (s.setSpt t rest) := .trans _ _ _ h (.setSpt (by rw [hl]; exact List.subset_cons_self q rest))
    have hrest : (s.setSpt t rest).spt t = rest := update_self _ _ _
    refine Prog.ends_bind <| vmDeallocPage_spt.ends (R := fun s s' => Remaps t B s s' ∧ s'.spt = s.spt)
      (fun _ _ _ h h' => ⟨.trans _ _ _ h.1 h'.1, h'.2.trans h.2⟩) ⟨.refl (s.setSpt t rest), rfl⟩
      (fun _ s' h' => .trans _ _ _ h₁ h'.1) fun _ s' h' => ?_
    exact ih (.trans _ _ _ h₁ h'.1) (by rw [h'.2, hrest])

theorem ends_processCleanup :
    (processCleanup t).Ends (fun _ => Remaps t B s) (fun _ s' => Remaps t B s s' ∧ s'.spt t = []) s := by
  refine Prog.ends_bind <| Prog.ends_bind <| Prog.ends_read nofun fun l hl => ?_
  cases hl
  refine Prog.ends_mono (fun _ _ h => h) (fun _ s₁ ⟨h₁, hspt⟩ => ?_) (ends_killPages _ (.refl s) rfl)
  exact (keeps_spt (N := Any) (claiming does_pml4Destroy)).ends
    (fun _ _ _ h h' => ⟨.trans _ _ _ h.1 h'.1, h'.2.trans h.2⟩) ⟨.refl s₁, rfl⟩
    (fun _ s' h' => .trans _ _ _ h₁ h'.1) fun _ s' h' => ⟨.trans _ _ _ h₁ h'.1, by rw [h'.2, hspt]⟩

/-! ## Pages that are copied -/

theorem remaps_vmDoClaimPage : (vmDoClaimPage t q).Does (Remaps t B) Any := remaps_claiming does_vmDoClaimPage

/-- What follows the read of the page that is copied, where the file of the page is allowed. -/
theorem pageCopyAction_eq : ∃ k, pageCopyAction t q = derefPage q >>= k ∧
    ∀ page, Allows B t page.aux → (k page).Does (Remaps t B) Any := by
  refine ⟨_, rfl, fun page ha => ?_⟩
  have hcopy : ∀ aux, Allows B t aux → (copyPage t q page aux).Does (Remaps t B) Any := by
    intro aux ha
    refine (remaps_vmAllocPage ha).bind fun allocated => ?_
    split
    · refine (remaps_moving (does_read _)).bind fun found => ?_
      cases found with
      | none => exact .pure _
      | some dst =>
        refine (remaps_moving does_derefPage).bind fun page => ?_
        split
        · refine remaps_vmDoClaimPage.bind fun claimed => ?_
          split
          · exact (remaps_moving does_derefPage).bind fun _ => (remaps_moving does_derefFrame).bind fun _ =>
              (remaps_moving does_derefPage).bind fun _ => (remaps_moving does_derefFrame).bind fun _ =>
              .bind (remaps_moving (does_write fun _ => .same rfl rfl rfl rfl)) fun _ => .pure _
          · exact .pure _
        · exact .pure _
    · exact .pure _
  cases haux : page.aux with
  | none => exact hcopy none allows_none
  | some info =>
    -- `vmAlloc` is the first action of `duplicateAux`
    refine .act (fun s b s' h => ?_) (fun _ _ _ => trivial) fun allocated => ?_
    · cases h
      exact Accessing.remaps (N := Any) (.same rfl rfl le_rfl)
    · cases allocated with
      | false => exact .pure _
      | true =>
        refine hcopy _ (allows_file fun f hf => ha info f haux hf)

/-- The pages of the parent are loaded from files that are allowed. -/
theorem ends_sptCopy_within {s₀ : Vm} {l : List PagePtr} (hB : ∀ f, B parent f → B t f) (hne : parent ≠ t)
    (hw : s₀.Within B) (hl : l ⊆ s₀.spt parent) (h : Remaps t B s₀ s) :
    (sptCopy t l).Ends (fun _ => Remaps t B s₀) (fun _ => Remaps t B s₀) s := by
  induction l generalizing s with
  | nil => exact Prog.ends_pure h
  | cons src rest ih =>
    obtain ⟨hsrc, hrest⟩ := List.cons_subset.mp hl
    obtain ⟨k, hk, hdoes⟩ := pageCopyAction_eq (t := t) (B := B) (q := src)
    unfold sptCopy
    rw [hk]
    refine Prog.ends_bind <| Prog.ends_bind <| Prog.ends_read (fun _ _ => h) fun page hpage => ?_
    have hpage : s.pages src = some page := by
      split at hpage
      · cases hpage
      · next hq =>
        cases hpage
        exact hq
    have ha : Allows B t page.aux := fun info f hinfo hf =>
      hB f ((h.within hw).backs parent f ⟨src, by rwa [h.spt parent hne], page, info, hpage, hinfo, hf⟩)
    refine (hdoes page ha).ends .trans h (fun _ _ h => h) fun copied s₁ h₁ => ?_
    split
    · exact ih hrest h₁
    · exact Prog.ends_pure h₁

theorem remaps_sptCopy (hB : ∀ f, B t f) (l : List PagePtr) : (sptCopy t l).Does (Remaps t B) Any := by
  induction l with
  | nil => exact .pure _
  | cons src rest ih =>
    obtain ⟨k, hk, hdoes⟩ := pageCopyAction_eq (t := t) (B := B) (q := src)
    unfold sptCopy
    rw [hk]
    refine ((remaps_moving does_derefPage).bind fun page => hdoes page fun _ f _ _ => hB f).bind fun copied => ?_
    split
    · exact ih
    · exact .pure _

/-- Where the pages were not loaded from files that are allowed there is nothing to show. -/
theorem Remaps.of_not_within (h : Remaps t (fun _ _ => True) s s') (hn : ¬ s.Within B) : Remaps t B s s' :=
  ⟨h.handles, h.fdt, h.fdIndex, h.runnFile, h.spt, h.fresh, h.others, fun hw => absurd hw hn⟩

theorem ends_supplementalPageTableCopy (hB : ∀ f, B parent f → B t f) (hne : parent ≠ t) :
    (supplementalPageTableCopy t parent).Ends (fun _ => Remaps t B s) (fun _ => Remaps t B s) s := by
  refine Prog.ends_bind <| Prog.ends_read nofun fun l hl => ?_
  cases hl
  by_cases hw : s.Within B
  · exact ends_sptCopy_within hB hne hw (List.Subset.refl _) (.refl s)
  · exact (remaps_sptCopy (fun _ => trivial) _).ends .trans (.refl s) (fun _ _ h => h.of_not_within hw)
      fun _ _ h => h.of_not_within hw

end

end Pintos
