import Pintos.Userprog.Fork
import Pintos.Vm.Changes

/-!
# The pages of a fork

The loop over the pages of a parent, with frames, swapping and page tables as `vm/` has them, does what the loop over
the requests does: the requests of a run are those that the run finds.

* `Tracks` — the pages of the child, whatever was loaded since
* `pageCopyAction_run` — one page
* `supplementalPageTableCopy_run` — the whole table
-/

namespace Pintos.Fork

open Function

/-- The page as `vm_alloc_page_with_initializer` makes it. -/
def ChildPage.fresh (page : ChildPage) : Page := uninitNew page.va page.init page.type page.aux page.writable

/-- The pages of the process, in the order of its table. -/
structure Tracks (s : Vm) (t : Tid) (dst : List ChildPage) : Prop where
  table : List.Forall₂ (fun q page => (s.pages q).map Page.still = some page.fresh) (s.spt t) dst
  fresh : ∀ q, s.pages q ≠ none → q < s.brk

/-- The pages that there were are still there. -/
def KeepsPages (s s' : Vm) : Prop := ∀ q page, s.pages q = some page → (s'.pages q).map Page.still = some page.still

section

variable {s s' s₁ : Vm} {t : Tid} {q : PagePtr} {l : List PagePtr} {dst : List ChildPage} {va : Vaddr} {b : Bool}
  {N : Vaddr → Prop} {page : ChildPage} {info : Option FileInfo}

theorem KeepsPages.trans (h : KeepsPages s s₁) (h' : KeepsPages s₁ s') : KeepsPages s s' := by
  intro q page hq
  obtain ⟨page₁, hq₁, hstill⟩ := Option.map_eq_some_iff.mp (h q page hq)
  rw [h' q page₁ hq₁, hstill]

theorem pages_still (h : Accessing N s s') (q : PagePtr) :
    (s'.pages q).map Page.still = (s.pages q).map Page.still := congrFun (congrArg Vm.pages h.still) q

theorem KeepsPages.accessing (h : Accessing N s s') : KeepsPages s s' := by
  intro q page hq
  rw [pages_still h, hq]
  rfl

theorem Tracks.accessing (h : Tracks s t dst) (hs : Accessing N s s') : Tracks s' t dst := by
  have hspt : s'.spt = s.spt := by
    show s'.still.spt = s.still.spt
    rw [hs.still]
  refine ⟨?_, fun q hq => (h.fresh q fun hnone => hq ?_).trans_le hs.brk⟩
  · rw [hspt]
    exact h.table.imp fun q page hq => (pages_still hs q).trans hq
  · have hstill := pages_still hs q
    rw [hnone] at hstill
    exact Option.map_eq_none_iff.mp hstill

theorem va_of_fresh (h : (s.pages q).map Page.still = some page.fresh) : ∃ p, s.pages q = some p ∧ p.va = page.va := by
  obtain ⟨p, hp, hstill⟩ := Option.map_eq_some_iff.mp h
  exact ⟨p, hp, congrArg Page.va hstill⟩

/-- A search finds a page in both tables or in none. -/
theorem find_isSome (h : List.Forall₂ (fun q page => (s.pages q).map Page.still = some page.fresh) l dst) :
    (s.findPage va l).isSome = (hashFind dst va).isSome := by
  induction h with
  | nil => rfl
  | @cons q page _ _ hq _ ih =>
    obtain ⟨p, hp, hva⟩ := va_of_fresh hq
    rw [Vm.findPage, hp, hashFind, List.find?_cons]
    dsimp only
    rw [hva]
    by_cases hfound : page.va = va
    · rw [if_pos hfound, decide_eq_true hfound]
      rfl
    · rw [if_neg hfound, decide_eq_false hfound]
      exact ih

theorem find_none (h : Tracks s t dst) : s.findPage va (s.spt t) = none ↔ hashFind dst va = none := by
  rw [← Option.not_isSome_iff_eq_none, ← Option.not_isSome_iff_eq_none, find_isSome h.table]

/-- A new page goes to memory that was free. -/
theorem Tracks.keep (h : Tracks s t dst) (p : Page) : Tracks { s.setPage s.brk (some p) with brk := s.brk + 1 } t dst := by
  refine ⟨h.table.imp fun q page hq => ?_, fun q hq => ?_⟩
  · obtain ⟨p', hp', -⟩ := va_of_fresh hq
    have hlt := h.fresh q (by rw [hp']; exact nofun)
    show (update s.pages s.brk (some p) q).map Page.still = _
    rwa [update_of_ne hlt.ne]
  · by_cases hqb : q = s.brk
    · rw [hqb]
      exact Nat.lt_succ_self _
    · have hq : update s.pages s.brk (some p) q ≠ none := hq
      rw [update_of_ne hqb] at hq
      exact (h.fresh q hq).trans (Nat.lt_succ_self _)

theorem Tracks.add (h : Tracks s t dst) (page : ChildPage) :
    Tracks { (s.setPage s.brk (some page.fresh)).setSpt t (s.brk :: s.spt t) with brk := s.brk + 1 } t (page :: dst) := by
  have hkeep := h.keep page.fresh
  refine ⟨?_, hkeep.fresh⟩
  show List.Forall₂ _ (update s.spt t (s.brk :: s.spt t) t) _
  rw [update_self, List.forall₂_cons]
  refine ⟨?_, hkeep.table⟩
  show (update s.pages s.brk (some page.fresh) s.brk).map Page.still = _
  rw [update_self]
  rfl

/-- A page that was there is not touched. -/
theorem Tracks.pages_setPage (h : Tracks s t dst) {p p' : Page} (hq : s.pages q = some p) :
    update s.pages s.brk (some p') q = some p := by
  have hlt := h.fresh q (by rw [hq]; exact nofun)
  rw [update_of_ne hlt.ne, hq]

theorem of_vmAlloc (h : vmAlloc.run s = .ok (b, s')) : s' = { s with allocs := fun n => s.allocs (n + 1) } := by
  rw [vmAlloc, Prog.run_lift] at h
  cases h
  rfl

theorem duplicateAux_run {r : Option (Option FileInfo)} (h : (Pintos.duplicateAux info).run s = .ok (r, s')) :
    (∃ alloc, duplicateAux alloc info = r) ∧ Accessing Any s s' ∧ s'.pages = s.pages := by
  cases info with
  | none =>
    cases h
    exact ⟨⟨true, rfl⟩, .refl _, rfl⟩
  | some info =>
    obtain ⟨alloc, s₁, halloc, h⟩ := Prog.of_run_bind h
    have hs₁ := of_vmAlloc halloc
    have hsame : Accessing Any s s₁ := by
      rw [hs₁]
      exact .same rfl rfl le_rfl
    have hpages : s₁.pages = s.pages := by rw [hs₁]
    cases alloc with
    | true =>
      cases h
      exact ⟨⟨true, rfl⟩, hsame, hpages⟩
    | false =>
      cases h
      exact ⟨⟨false, rfl⟩, hsame, hpages⟩

/-- What `vm_alloc_page_with_initializer` does with the table. -/
theorem vmAllocPage_run (h : Tracks s t dst)
    (hrun : (Pintos.vmAllocPage t page.type page.va page.writable page.init page.aux).run s = .ok (b, s')) :
    (∀ q p, s.pages q = some p → s'.pages q = some p) ∧ ∃ alloc,
      ((b = false ∧ vmAllocPage alloc dst page = .ok none ∧ Tracks s' t dst) ∨
        (b = true ∧ vmAllocPage alloc dst page = .ok (some (page :: dst)) ∧ Tracks s' t (page :: dst))) := by
  unfold Pintos.vmAllocPage at hrun
  split at hrun
  · rw [Prog.run_fail] at hrun
    cases hrun
  · next htype =>
    obtain ⟨found, s₁, hfind, hrun⟩ := Prog.of_run_bind hrun
    obtain ⟨hfound, rfl⟩ := Prog.of_run_read hfind
    obtain rfl : s.findPage (pgRoundDown page.va) (s.spt t) = found := Except.ok.inj hfound
    split at hrun
    · next q hq =>
      -- there is a page already
      cases hrun
      cases hdst : sptFindPage dst page.va with
      | none =>
        rw [(find_none h).mpr hdst] at hq
        cases hq
      | some other =>
        refine ⟨fun _ _ hp => hp, true, .inl ⟨rfl, ?_, h⟩⟩
        rw [vmAllocPage, if_neg htype, hdst]
    · next hq =>
      have hdst : sptFindPage dst page.va = none := (find_none h).mp hq
      obtain ⟨alloc, s₁, halloc, hrun⟩ := Prog.of_run_bind hrun
      have hs₁ := of_vmAlloc halloc
      have hsame : Accessing Any s s₁ := by
        rw [hs₁]
        exact .same rfl rfl le_rfl
      have h₁ := h.accessing hsame
      have hpages : s₁.pages = s.pages := by rw [hs₁]
      rw [← hpages]
      cases alloc with
      | false =>
        cases hrun
        refine ⟨fun _ _ hp => hp, false, .inl ⟨rfl, ?_, h₁⟩⟩
        rw [vmAllocPage, if_neg htype, hdst]
        rfl
      | true =>
        rw [if_pos rfl, Prog.run_lift] at hrun
        cases hfind : s₁.findPage page.va (s₁.spt t) with
        | some q =>
          rw [hfind] at hrun
          cases hrun
          refine ⟨fun q p hp => h₁.pages_setPage hp, true, .inl ⟨rfl, ?_, h₁.keep _⟩⟩
          cases hhash : hashFind dst page.va with
          | none =>
            rw [(find_none h₁).mpr hhash] at hfind
            cases hfind
          | some other =>
            rw [vmAllocPage, if_neg htype, hdst]
            dsimp only
            rw [if_pos rfl, hhash]
        | none =>
          rw [hfind] at hrun
          cases hrun
          refine ⟨fun q p hp => h₁.pages_setPage hp, true, .inr ⟨rfl, ?_, h₁.add page⟩⟩
          rw [vmAllocPage, if_neg htype, hdst]
          dsimp only
          rw [if_pos rfl, (find_none h₁).mp hfind]

theorem fresh_fillPage (bytes : Sector) :
    (fillPage dst va bytes).map ChildPage.fresh = dst.map ChildPage.fresh := by
  rw [fillPage, List.map_map]
  refine List.map_congr_left fun page _ => ?_
  rw [comp_apply]
  split <;> rfl

/-- What a page holds is not tracked. -/
theorem Tracks.fillPage (h : Tracks s t dst) (va : Vaddr) (bytes : Sector) : Tracks s t (fillPage dst va bytes) := by
  refine ⟨?_, h.fresh⟩
  have htable : ∀ {pages : List ChildPage},
      List.Forall₂ (fun q (p : Page) => (s.pages q).map Page.still = some p) (s.spt t) (pages.map ChildPage.fresh) ↔
        List.Forall₂ (fun q page => (s.pages q).map Page.still = some page.fresh) (s.spt t) pages :=
    List.forall₂_map_right_iff
  rw [← htable, fresh_fillPage, htable]
  exact h.table

/-- The page that `page_copy_action` adds. -/
def newPage (page : Page) (aux : Option FileInfo) : ChildPage :=
  { va := page.va, type := page.getType, writable := page.writable, init := page.init, aux := aux, contents := none }

/-- What `page_copy_action` does once the page is added. -/
def fillAction (dst : List ChildPage) (src : Source) : Except PageFault (Bool × List ChildPage) :=
  match sptFindPage dst src.page.va with
  | none => .ok (false, dst)
  | some page =>
    if src.page.operations ≠ .uninit then
      if src.grants.claim then
        match src.grants.frame with
        | none => .error .null
        | some bytes => .ok (true, fillPage dst page.va bytes)
      else .ok (true, dst)
    else .ok (true, dst)

theorem pageCopyAction_refused {src : Source} (haux : duplicateAux src.grants.aux src.page.aux = none) :
    pageCopyAction dst src = .ok (false, dst) := by
  rw [pageCopyAction, haux]

theorem pageCopyAction_full {src : Source} (haux : duplicateAux src.grants.aux src.page.aux = some info)
    (halloc : vmAllocPage src.grants.page dst (newPage src.page info) = .ok none) :
    pageCopyAction dst src = .ok (false, dst) := by
  rw [pageCopyAction, haux]
  show (vmAllocPage src.grants.page dst (newPage src.page info) >>= _) = _
  rw [halloc]
  rfl

theorem pageCopyAction_added {src : Source} {dst₁ : List ChildPage}
    (haux : duplicateAux src.grants.aux src.page.aux = some info)
    (halloc : vmAllocPage src.grants.page dst (newPage src.page info) = .ok (some dst₁)) :
    pageCopyAction dst src = fillAction dst₁ src := by
  rw [pageCopyAction, haux]
  show (vmAllocPage src.grants.page dst (newPage src.page info) >>= _) = _
  rw [halloc]
  rfl

/-- The rest of `page_copy_action`, for some claim and some frame. -/
theorem fill_run {p : Page} (h : Tracks s t dst) (hq : s.pages q = some p)
    (hrun : Prog.run (do
      let found ← Pintos.sptFindPage t p.va
      match found with
      | none => pure false
      | some dst => do
        let page ← derefPage q
        if page.operations ≠ .uninit then do
          let claimed ← vmDoClaimPage t dst
          if claimed then do
            let dstPage ← derefPage dst
            let dstFrame ← derefFrame dstPage.frame
            let srcPage ← derefPage q
            let srcFrame ← derefFrame srcPage.frame
            Prog.write fun s => .ok (s.copy dstFrame.kva 0 (s.bytes srcFrame.kva PGSIZE))
            pure true
          else pure true
        else pure true : VmProg Bool) s = .ok (b, s')) :
    ∃ claim frame dst', (∀ auxs pages, fillAction dst ⟨p, ⟨auxs, pages, claim, frame⟩⟩ = .ok (b, dst')) ∧
      Tracks s' t dst' ∧ KeepsPages s s' := by
  have hkeep : KeepsPages s s := .accessing (.refl (N := Any) s)
  obtain ⟨found, s₁, hfind, hrun⟩ := Prog.of_run_bind hrun
  obtain ⟨hfound, rfl⟩ := Prog.of_run_read hfind
  obtain rfl : s.findPage (pgRoundDown p.va) (s.spt t) = found := Except.ok.inj hfound
  cases hdst : sptFindPage dst p.va with
  | none =>
    rw [(find_none h).mpr hdst] at hrun
    cases hrun
    exact ⟨true, none, dst, fun _ _ => by rw [fillAction, hdst], h, hkeep⟩
  | some page =>
    split at hrun
    · next hnone =>
      rw [sptFindPage, (find_none h).mp hnone] at hdst
      cases hdst
    · next d hd =>
      obtain ⟨p', s₁, hderef, hrun⟩ := Prog.of_run_bind hrun
      obtain ⟨hp', rfl⟩ := of_derefPage hderef
      obtain rfl : p = p' := Option.some.inj (hq.symm.trans hp')
      split at hrun
      · next hops =>
        obtain ⟨claimed, s₂, hclaim, hrun⟩ := Prog.of_run_bind hrun
        have hs₂ : Claiming Any s s₂ := does_vmDoClaimPage.run Claiming.refl Claiming.trans hclaim
        have h₂ := h.accessing hs₂.toAccessing
        cases claimed with
        | false =>
          cases hrun
          exact ⟨false, none, dst, fun _ _ => by rw [fillAction, hdst]; exact if_pos hops, h₂,
            .accessing hs₂.toAccessing⟩
        | true =>
          rw [if_pos rfl] at hrun
          obtain ⟨dstPage, s₃, hderef, hrun⟩ := Prog.of_run_bind hrun
          obtain ⟨-, rfl⟩ := of_derefPage hderef
          obtain ⟨dstFrame, s₃, hderef, hrun⟩ := Prog.of_run_bind hrun
          obtain ⟨-, -, -, rfl⟩ := of_derefFrame hderef
          obtain ⟨srcPage, s₃, hderef, hrun⟩ := Prog.of_run_bind hrun
          obtain ⟨-, rfl⟩ := of_derefPage hderef
          obtain ⟨srcFrame, s₃, hderef, hrun⟩ := Prog.of_run_bind hrun
          obtain ⟨-, -, -, rfl⟩ := of_derefFrame hderef
          obtain ⟨_, s₃, hwrite, hrun⟩ := Prog.of_run_bind hrun
          have hs₃ := Prog.of_run_write hwrite
          cases hs₃
          cases hrun
          -- only the bytes of a frame change
          have hcopied : Accessing Any s₂ (s₂.copy dstFrame.kva 0 (s₂.bytes srcFrame.kva PGSIZE)) :=
            .same rfl rfl le_rfl
          refine ⟨true, some (s₂.mem srcFrame.kva), _, fun _ _ => ?_,
            (h₂.accessing hcopied).fillPage page.va (s₂.mem srcFrame.kva),
            (KeepsPages.accessing hs₂.toAccessing).trans (.accessing hcopied)⟩
          rw [fillAction, hdst]
          exact if_pos hops
      · next hops =>
        cases hrun
        exact ⟨true, none, dst, fun _ _ => by rw [fillAction, hdst]; exact if_neg hops, h, hkeep⟩

/-- A run of `page_copy_action` is one of those that requests allow. -/
theorem pageCopyAction_run (h : Tracks s t dst) (hrun : (Pintos.pageCopyAction t q).run s = .ok (b, s')) :
    ∃ src dst', s.pages q = some src.page ∧ pageCopyAction dst src = .ok (b, dst') ∧ Tracks s' t dst' ∧
      KeepsPages s s' := by
  unfold Pintos.pageCopyAction at hrun
  obtain ⟨p, s₁, hderef, hrun⟩ := Prog.of_run_bind hrun
  obtain ⟨hp, rfl⟩ := of_derefPage hderef
  obtain ⟨r, s₁, hcalloc, hrun⟩ := Prog.of_run_bind hrun
  obtain ⟨⟨auxs, haux⟩, hs₁, hpages⟩ := duplicateAux_run hcalloc
  have h₁ := h.accessing hs₁
  have hkeep₁ : KeepsPages s s₁ := .accessing hs₁
  cases r with
  | none =>
    cases hrun
    exact ⟨⟨p, ⟨auxs, true, true, none⟩⟩, dst, hp, pageCopyAction_refused haux, h₁, hkeep₁⟩
  | some info =>
    obtain ⟨added, s₂, halloc, hrun⟩ := Prog.of_run_bind hrun
    obtain ⟨hold, pages, ⟨rfl, hr, h₂⟩ | ⟨rfl, hr, h₂⟩⟩ :
        _ ∧ ∃ alloc, (added = false ∧ vmAllocPage alloc dst (newPage p info) = .ok none ∧ Tracks s₂ t dst) ∨ _ :=
      vmAllocPage_run h₁ halloc
    · have hkeep₂ : KeepsPages s₁ s₂ := fun q p hq => by rw [hold q p hq]; rfl
      cases hrun
      exact ⟨⟨p, ⟨auxs, pages, true, none⟩⟩, dst, hp, pageCopyAction_full haux hr, h₂, hkeep₁.trans hkeep₂⟩
    · have hkeep₂ : KeepsPages s₁ s₂ := fun q p hq => by rw [hold q p hq]; rfl
      have hp₂ : s₂.pages q = some p := hold q p (by rw [hpages, hp])
      obtain ⟨claim, frame, dst', hfill, h', hkeep'⟩ := fill_run h₂ hp₂ hrun
      exact ⟨⟨p, ⟨auxs, pages, claim, frame⟩⟩, dst', hp, (pageCopyAction_added haux hr).trans (hfill _ _), h',
        (hkeep₁.trans hkeep₂).trans hkeep'⟩

/-- The sources are the pages of the list, whatever was loaded since. -/
def SourcesOf (s : Vm) (l : List PagePtr) (spt : List Source) : Prop :=
  List.Forall₂ (fun q (src : Source) => (s.pages q).map Page.still = some src.page.still) l spt

/-- Some sources for pages that are there. -/
theorem exists_sources (l : List PagePtr) (hl : ∀ q ∈ l, s.pages q ≠ none) : ∃ spt, SourcesOf s l spt := by
  induction l with
  | nil => exact ⟨[], .nil⟩
  | cons q l ih =>
    obtain ⟨p, hp⟩ := Option.ne_none_iff_exists'.mp (hl q List.mem_cons_self)
    obtain ⟨spt, hspt⟩ := ih fun q hq => hl q (List.mem_cons_of_mem _ hq)
    exact ⟨⟨p, ⟨true, true, true, none⟩⟩ :: spt, .cons (by rw [hp]; rfl) hspt⟩

/-- The pages that were there are what they were. -/
theorem SourcesOf.back {spt : List Source} (hs : KeepsPages s s') (hl : ∀ q ∈ l, s.pages q ≠ none)
    (h : SourcesOf s' l spt) : SourcesOf s l spt := by
  induction h with
  | nil => exact .nil
  | @cons q src _ _ hq _ ih =>
    obtain ⟨p, hp⟩ := Option.ne_none_iff_exists'.mp (hl q List.mem_cons_self)
    refine .cons ?_ (ih fun q hq => hl q (List.mem_cons_of_mem _ hq))
    rw [hs q p hp] at hq
    rw [hp]
    exact hq

theorem sptCopy_run (l : List PagePtr) : ∀ {s dst}, Tracks s t dst → (∀ q ∈ l, s.pages q ≠ none) →
    (sptCopy t l).run s = .ok (b, s') →
    ∃ spt dst', SourcesOf s l spt ∧ supplementalPageTableCopy dst spt = .ok (b, dst') ∧ Tracks s' t dst' := by
  induction l with
  | nil =>
    intro s dst h _ hrun
    cases hrun
    exact ⟨[], dst, .nil, rfl, h⟩
  | cons q l ih =>
    intro s dst h hl hrun
    rw [List.forall_mem_cons] at hl
    obtain ⟨copied, s₁, hcopy, hrun⟩ := Prog.of_run_bind hrun
    obtain ⟨src, dst₁, hsrc, haction, h₁, hkeep⟩ := pageCopyAction_run h hcopy
    have hhead : (s.pages q).map Page.still = some src.page.still := by
      rw [hsrc]
      rfl
    have hl₁ : ∀ q ∈ l, s₁.pages q ≠ none := by
      intro q hq hnone
      obtain ⟨p, hp⟩ := Option.ne_none_iff_exists'.mp (hl.2 q hq)
      have hstill := hkeep q p hp
      rw [hnone] at hstill
      cases hstill
    cases copied with
    | true =>
      obtain ⟨spt, dst', hspt, hloop, h'⟩ := ih h₁ hl₁ hrun
      refine ⟨src :: spt, dst', .cons hhead (hspt.back hkeep hl.2), ?_, h'⟩
      rw [supplementalPageTableCopy, haction]
      exact hloop
    | false =>
      obtain ⟨spt, hspt⟩ := exists_sources l hl.2
      cases hrun
      refine ⟨src :: spt, dst₁, .cons hhead hspt, ?_, h₁⟩
      rw [supplementalPageTableCopy, haction]
      rfl

/-- **A run of `supplemental_page_table_copy` is one of those that requests allow.** -/
theorem supplementalPageTableCopy_run {parent : Tid} (hfresh : ∀ q, s.pages q ≠ none → q < s.brk)
    (hpages : ∀ q ∈ s.spt parent, s.pages q ≠ none) (hempty : s.spt t = [])
    (hrun : (Pintos.supplementalPageTableCopy t parent).run s = .ok (b, s')) :
    ∃ spt dst', SourcesOf s (s.spt parent) spt ∧ supplementalPageTableCopy [] spt = .ok (b, dst') ∧ Tracks s' t dst' := by
  obtain ⟨l, s₁, hread, hrun⟩ := Prog.of_run_bind hrun
  obtain ⟨hl, rfl⟩ := Prog.of_run_read hread
  obtain rfl : s.spt parent = l := Except.ok.inj hl
  exact sptCopy_run _ ⟨by rw [hempty]; exact .nil, hfresh⟩ hpages hrun

end

end Pintos.Fork
