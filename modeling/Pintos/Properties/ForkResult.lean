import Pintos.Properties.DescriptorFork
import Pintos.Properties.ForkPages
import Pintos.Userprog.Pages

/-!
# What `fork` reports

* `PageCopy`, `FullCopy` — the child has what the parent has
* `copy_cases` — the loop over the pages makes a copy of each exactly where every request is granted
* `duplicated_iff` — and so does the loop over the descriptors
* `fork_reports_iff` — **the parent is told the truth exactly where no thread is made or nothing is refused**
-/

namespace Pintos.Fork

open Function Descriptors

/-- What a page that is not loaded yet is loaded from. -/
def loadsFrom (info : FileInfo) : Option FilePtr × Int × Nat × Nat :=
  (info.file, info.ofs, info.pageReadBytes, info.pageZeroBytes)

/-- The page of the child is a copy. -/
structure PageCopy (src : Source) (dst : ChildPage) : Prop where
  va : dst.va = src.page.va
  type : dst.type = src.page.getType
  writable : dst.writable = src.page.writable
  init : dst.init = src.page.init
  aux : dst.aux.map loadsFrom = src.page.aux.map loadsFrom
  contents : src.page.operations ≠ .uninit → ∃ bytes, src.grants.frame = some bytes ∧ dst.contents = some bytes

/-- The child has a copy of each page and of each descriptor. The last page is at the front of its table. -/
structure FullCopy (spt : List Source) (s : Descs) (parent tid : Tid) (child : Child) : Prop where
  pages : List.Forall₂ PageCopy spt child.spt.reverse
  files : ∀ n < FDCOUNT_LIMIT, Duplicated s child.descs parent tid n

/-- The child goes on in user mode with a full copy. -/
def Forked.Runs (spt : List Source) (s : Descs) (parent tid : Tid) (out : Forked) : Prop :=
  ∃ child, out.child = some child ∧ child.ended = .user ∧ FullCopy spt s parent tid child

/-- The parent is told what has become of the child. -/
structure Forked.Reports (created : Option Tid) (spt : List Source) (s : Descs) (parent : Tid) (out : Forked) : Prop where
  failed : (∀ child, out.child = some child → child.ended ≠ .user) → out.value = some Process.TID_ERROR
  forked : ∀ tid, created = some tid → (out.value = some (tid : Int) ↔ out.Runs spt s parent tid)

/-- The requests for a page are granted. -/
structure Source.Granted (src : Source) : Prop where
  aux : src.page.aux.isSome → src.grants.aux = true
  page : src.grants.page = true
  claim : src.page.operations ≠ .uninit → src.grants.claim = true
  frame : src.page.operations ≠ .uninit → src.grants.frame.isSome

/-- No request of the child is refused, and each page of the parent is in memory when it is copied. -/
structure Granted (grants : Grants) (spt : List Source) (s : Descs) (parent : Tid) : Prop where
  create : grants.create = true
  pages : ∀ src ∈ spt, src.Granted
  files : ∀ n < FDCOUNT_LIMIT, ∀ f, s.fdt parent n = .file f → grants.files n = true

/-! ## Pages -/

section

variable {src : Source} {dst dst' : List ChildPage} {aux : Option FileInfo} {spt : List Source} {b : Bool}

theorem hashFind_none {va : Vaddr} (h : ∀ page ∈ dst, page.va ≠ va) : hashFind dst va = none := by
  rw [hashFind, List.find?_eq_none]
  intro page hpage
  simpa using h page hpage

theorem hashFind_head {page : ChildPage} : hashFind (page :: dst) page.va = some page := by
  rw [hashFind, List.find?_cons_of_pos (by simp)]

theorem fillPage_head {page : ChildPage} {bytes : Sector} (h : ∀ other ∈ dst, other.va ≠ page.va) :
    fillPage (page :: dst) page.va bytes = { page with contents := some bytes } :: dst := by
  rw [fillPage, List.map_cons, if_pos rfl, List.map_congr_left fun other hother => if_neg (h other hother), List.map_id']

theorem duplicateAux_some {alloc : Bool} {info aux : Option FileInfo} (h : duplicateAux alloc info = some aux) :
    aux.map loadsFrom = info.map loadsFrom ∧ (info.isSome → alloc = true) := by
  cases info with
  | none =>
    cases h
    exact ⟨rfl, nofun⟩
  | some info =>
    cases alloc with
    | true =>
      cases h
      exact ⟨rfl, fun _ => rfl⟩
    | false => cases h

theorem duplicateAux_none {alloc : Bool} {info : Option FileInfo} (h : duplicateAux alloc info = none) :
    info.isSome ∧ alloc = false := by
  cases info with
  | none => cases h
  | some info =>
    cases alloc with
    | true => cases h
    | false => exact ⟨rfl, rfl⟩

/-- A page that is not there yet is added if there is memory for it. -/
theorem vmAllocPage_new {alloc : Bool} {page : ChildPage} (htype : page.type ≠ .uninit) (hal : Aligned page.va)
    (h : ∀ other ∈ dst, other.va ≠ page.va) :
    vmAllocPage alloc dst page = .ok (if alloc then some (page :: dst) else none) := by
  rw [vmAllocPage, if_neg htype, sptFindPage, pgRoundDown_of_aligned hal, hashFind_none h]
  cases alloc with
  | false => rfl
  | true => rfl

/-- What `page_copy_action` does with a page that the child has not. -/
inductive CopyCases (src : Source) (dst : List ChildPage) : Except PageFault (Bool × List ChildPage) → Prop
  | copied {page} (hg : src.Granted) (hva : page.va = src.page.va) (hcopy : PageCopy src page) :
      CopyCases src dst (.ok (true, page :: dst))
  /-- It returns true, but the frame was not filled. -/
  | skipped {page} (hg : ¬ src.Granted) (hva : page.va = src.page.va) (hcopy : ¬ PageCopy src page) :
      CopyCases src dst (.ok (true, page :: dst))
  | failed (hg : ¬ src.Granted) : CopyCases src dst (.ok (false, dst))
  | fault (hg : ¬ src.Granted) : CopyCases src dst (.error .null)

theorem pageCopyAction_cases (htype : src.page.getType ≠ .uninit) (hal : Aligned src.page.va)
    (h : ∀ other ∈ dst, other.va ≠ src.page.va) : CopyCases src dst (pageCopyAction dst src) := by
  cases haux : duplicateAux src.grants.aux src.page.aux with
  | none =>
    obtain ⟨hsome, hfalse⟩ := duplicateAux_none haux
    rw [pageCopyAction_refused haux]
    refine .failed fun hg => ?_
    have htrue := hg.aux hsome
    rw [hfalse] at htrue
    cases htrue
  | some aux =>
    obtain ⟨hmap, hgranted⟩ := duplicateAux_some haux
    have halloc : vmAllocPage src.grants.page dst (newPage src.page aux) = _ := vmAllocPage_new htype hal h
    have hfind : sptFindPage (newPage src.page aux :: dst) src.page.va = some (newPage src.page aux) := by
      rw [sptFindPage, pgRoundDown_of_aligned hal]
      exact hashFind_head
    cases hpage : src.grants.page with
    | false =>
      rw [hpage, if_neg (by rintro ⟨⟩), ← hpage] at halloc
      rw [pageCopyAction_full haux halloc]
      refine .failed fun hg => ?_
      have htrue := hg.page
      rw [hpage] at htrue
      cases htrue
    | true =>
      rw [hpage, if_pos rfl, ← hpage] at halloc
      rw [pageCopyAction_added haux halloc, fillAction, hfind]
      dsimp only
      by_cases huninit : src.page.operations = .uninit
      · -- nothing was loaded yet
        rw [if_neg (not_not.mpr huninit)]
        exact .copied ⟨hgranted, hpage, fun hne => absurd huninit hne, fun hne => absurd huninit hne⟩ rfl
          ⟨rfl, rfl, rfl, rfl, hmap, fun hne => absurd huninit hne⟩
      · rw [if_pos huninit]
        cases hclaim : src.grants.claim with
        | false =>
          refine .skipped (fun hg => ?_) rfl fun hcopy => ?_
          · have htrue := hg.claim huninit
            rw [hclaim] at htrue
            cases htrue
          · obtain ⟨bytes, -, hbytes⟩ := hcopy.contents huninit
            cases hbytes
        | true =>
          rw [if_pos rfl]
          cases hframe : src.grants.frame with
          | none =>
            refine .fault fun hg => ?_
            have hsome := hg.frame huninit
            rw [hframe] at hsome
            cases hsome
          | some bytes =>
            show CopyCases src dst (.ok (true, fillPage (newPage src.page aux :: dst) (newPage src.page aux).va bytes))
            rw [fillPage_head h]
            exact .copied ⟨hgranted, hpage, fun _ => hclaim, fun _ => by rw [hframe]; rfl⟩ rfl
              ⟨rfl, rfl, rfl, rfl, hmap, fun _ => ⟨bytes, hframe, rfl⟩⟩

/-- What the loop over the pages does. -/
inductive LoopCases (spt : List Source) (dst : List ChildPage) : Except PageFault (Bool × List ChildPage) → Prop
  | copied {pages} (hg : ∀ src ∈ spt, src.Granted) (hcopy : List.Forall₂ PageCopy spt pages.reverse) :
      LoopCases spt dst (.ok (true, pages ++ dst))
  | skipped {pages} (hg : ¬ ∀ src ∈ spt, src.Granted) (hcopy : ¬ List.Forall₂ PageCopy spt pages.reverse) :
      LoopCases spt dst (.ok (true, pages ++ dst))
  | failed {pages} (hg : ¬ ∀ src ∈ spt, src.Granted) : LoopCases spt dst (.ok (false, pages))
  | fault {e} (hg : ¬ ∀ src ∈ spt, src.Granted) : LoopCases spt dst (.error e)

/-- The loop, after a round that has added a page. -/
theorem LoopCases.cons {page : ChildPage} {r : Except PageFault (Bool × List ChildPage)}
    (h : LoopCases spt (page :: dst) r) (hg : src.Granted ↔ PageCopy src page) : LoopCases (src :: spt) dst r := by
  have hsplit : ∀ pages : List ChildPage, List.Forall₂ PageCopy (src :: spt) (pages ++ [page]).reverse ↔
      PageCopy src page ∧ List.Forall₂ PageCopy spt pages.reverse := fun pages => by
    rw [List.reverse_append, List.reverse_singleton, List.singleton_append, List.forall₂_cons]
  cases h with
  | @copied pages hall hcopy =>
    rw [List.append_cons]
    by_cases hsrc : src.Granted
    · exact .copied (List.forall_mem_cons.mpr ⟨hsrc, hall⟩) ((hsplit pages).mpr ⟨hg.mp hsrc, hcopy⟩)
    · exact .skipped (fun h => hsrc (List.forall_mem_cons.mp h).1) fun h => hsrc (hg.mpr ((hsplit pages).mp h).1)
  | @skipped pages hall hcopy =>
    rw [List.append_cons]
    exact .skipped (fun h => hall (List.forall_mem_cons.mp h).2) fun h => hcopy ((hsplit pages).mp h).2
  | failed hall => exact .failed fun h => hall (List.forall_mem_cons.mp h).2
  | fault hall => exact .fault fun h => hall (List.forall_mem_cons.mp h).2

theorem copy_cases (htype : ∀ src ∈ spt, src.page.getType ≠ .uninit) (hal : ∀ src ∈ spt, Aligned src.page.va)
    (hdistinct : spt.Pairwise fun src src' => src.page.va ≠ src'.page.va)
    (h : ∀ src ∈ spt, ∀ other ∈ dst, other.va ≠ src.page.va) :
    LoopCases spt dst (supplementalPageTableCopy dst spt) := by
  induction spt generalizing dst with
  | nil =>
    rw [supplementalPageTableCopy, ← List.nil_append dst]
    exact .copied (fun src hsrc => absurd hsrc List.not_mem_nil) .nil
  | cons src spt ih =>
    rw [List.forall_mem_cons] at htype hal h
    rw [List.pairwise_cons] at hdistinct
    have hnext : ∀ {page : ChildPage}, page.va = src.page.va →
        LoopCases spt (page :: dst) (supplementalPageTableCopy (page :: dst) spt) := fun hva =>
      ih htype.2 hal.2 hdistinct.2 fun src' hsrc' => List.forall_mem_cons.mpr
        ⟨hva ▸ hdistinct.1 src' hsrc', h.2 src' hsrc'⟩
    have hnot : ¬ src.Granted → ¬ ∀ src' ∈ src :: spt, src'.Granted := fun hg h => hg (List.forall_mem_cons.mp h).1
    have hcases := pageCopyAction_cases htype.1 hal.1 h.1
    unfold supplementalPageTableCopy
    generalize pageCopyAction dst src = r at hcases
    cases hcases with
    | copied hg hva hcopy => exact (hnext hva).cons ⟨fun _ => hcopy, fun _ => hg⟩
    | skipped hg hva hcopy => exact (hnext hva).cons ⟨fun h => absurd h hg, fun h => absurd h hcopy⟩
    | failed hg => exact .failed (hnot hg)
    | fault hg => exact .fault (hnot hg)

end

/-! ## Descriptors -/

section

variable {s s₀ : Descs} {parent tid : Tid} {allocs : Nat → Bool} {n : Nat} {f : FilePtr}

theorem given_of_file (hok : Ok s) (hp : s.live parent = true) (hf : s.fdt parent n = .file f) :
    2 ≤ n ∧ s.given parent n = some f := by
  have h0 : n ≠ 0 := by
    rintro rfl
    rw [hok.stdin parent hp] at hf
    cases hf
  have h1 : n ≠ 1 := by
    rintro rfl
    rw [hok.stdout parent hp] at hf
    cases hf
  have h2 : 2 ≤ n := by omega
  refine ⟨h2, ?_⟩
  rw [hok.entry parent n hp h2] at hf
  cases hg : s.given parent n with
  | none =>
    rw [hg] at hf
    cases hf
  | some g =>
    rw [hg] at hf
    cases hf
    rfl

/-- Without memory for a file its descriptor is empty in the child. -/
theorem granted_of_duplicated (hcopied : Copied (s.newThread tid) s₀ parent tid allocs 0) (hok : Ok s)
    (hp : s.live parent = true) (hpc : parent ≠ tid) (hn : n < FDCOUNT_LIMIT) (hf : s.fdt parent n = .file f)
    (hdup : Duplicated s s₀ parent tid n) : allocs n = true := by
  obtain ⟨h2, hg⟩ := given_of_file hok hp hf
  have hgiven : (s.newThread tid).given parent n = some f := (congrFun (update_of_ne hpc _ _) n).trans hg
  have hlive : s₀.live tid = true := by
    rw [hcopied.live]
    exact update_self _ _ _
  have hcopy := hcopied.copies n (Nat.zero_le n) hn
  by_contra halloc
  rw [hgiven, CopyOf, if_neg halloc] at hcopy
  unfold Duplicated at hdup
  rw [hf] at hdup
  obtain ⟨g, file, hentry, -⟩ := hdup
  rw [hcopied.ok.entry tid n hlive h2, hcopy] at hentry
  cases hentry

theorem duplicated_iff (hcopied : Copied (s.newThread tid) s₀ parent tid allocs 0) (hok : Ok s)
    (hp : s.live parent = true) (hpc : parent ≠ tid) : (∀ n < FDCOUNT_LIMIT, Duplicated s s₀ parent tid n) ↔
      ∀ n < FDCOUNT_LIMIT, ∀ f, s.fdt parent n = .file f → allocs n = true :=
  ⟨fun h n hn _ hf => granted_of_duplicated hcopied hok hp hpc hn hf (h n hn),
    fun h n hn => hcopied.duplicated hok hp hpc hn (h n hn)⟩

end

/-! ## `fork` -/

section

variable {s : Descs} {parent tid : Tid} {grants : Grants} {spt : List Source} {created : Option Tid} {out : Forked}

/-- The child comes to the end of `__do_fork`, and runs with a full copy exactly where everything is granted. -/
theorem doFork_cases (hok : Ok s) (hp : s.live parent = true) (hc : s.live tid = false)
    (htype : ∀ src ∈ spt, src.page.getType ≠ .uninit) (hal : ∀ src ∈ spt, Aligned src.page.va)
    (hdistinct : spt.Pairwise fun src src' => src.page.va ≠ src'.page.va) :
    ∃ child, doFork grants spt parent tid (s.newThread tid) = .ok child ∧
      (child.loadSema = 0 ↔ child.ended = .fault) ∧
      (child.ended = .user ∧ FullCopy spt s parent tid child ↔ Granted grants spt s parent) := by
  have hpc : parent ≠ tid := by
    rintro rfl
    rw [hp] at hc
    cases hc
  unfold doFork
  by_cases hcreate : grants.create = true
  · rw [if_pos hcreate]
    have hcases : LoopCases spt [] (supplementalPageTableCopy [] spt) := copy_cases htype hal hdistinct fun _ _ => nofun
    generalize supplementalPageTableCopy [] spt = r at hcases
    have hduplicates : ∃ s₀,
        (Descriptors.duplicateFiles tid parent grants.files FDCOUNT_LIMIT 0).run (s.newThread tid) = .ok ((), s₀) ∧
          Copied (s.newThread tid) s₀ parent tid grants.files 0 := by
      have hnone : ∀ n, 0 ≤ n → (s.newThread tid).given tid n = none := fun n _ =>
        congrFun (update_self tid _ s.given) n
      have hlive : (s.newThread tid).live parent = true := (update_of_ne hpc _ _).trans hp
      have hends : (Descriptors.duplicateFiles tid parent grants.files FDCOUNT_LIMIT 0).Ends (fun _ _ => False)
          (fun _ s' => Copied (s.newThread tid) s' parent tid grants.files 0) (s.newThread tid) :=
        Descriptors.ends_duplicateFiles hpc FDCOUNT_LIMIT 0 (by omega) (hok.newThread hc) hlive (update_self _ _ _) hnone
      obtain ⟨u, s₀, hrun, hcopied⟩ := Prog.ends_total hends
      exact ⟨s₀, hrun, hcopied⟩
    obtain ⟨s₀, hrun, hcopied⟩ := hduplicates
    have hfiles := duplicated_iff hcopied hok hp hpc
    cases hcases with
    | @copied pages hg hcopy =>
      dsimp only
      rw [hrun, List.append_nil]
      refine ⟨_, rfl, ⟨nofun, nofun⟩, ?_⟩
      constructor
      · rintro ⟨-, hfull⟩
        exact ⟨hcreate, hg, hfiles.mp hfull.files⟩
      · intro hgranted
        exact ⟨rfl, hcopy, hfiles.mpr hgranted.files⟩
    | @skipped pages hg hcopy =>
      dsimp only
      rw [hrun, List.append_nil]
      exact ⟨_, rfl, ⟨nofun, nofun⟩, fun h => absurd h.2.pages hcopy, fun hgranted => absurd hgranted.pages hg⟩
    | failed hg =>
      exact ⟨_, rfl, ⟨nofun, nofun⟩, fun h => absurd h.1 nofun, fun hgranted => absurd hgranted.pages hg⟩
    | fault hg =>
      exact ⟨_, rfl, ⟨fun _ => rfl, fun _ => rfl⟩, fun h => absurd h.1 nofun,
        fun hgranted => absurd hgranted.pages hg⟩
  · rw [if_neg hcreate]
    exact ⟨_, rfl, ⟨nofun, nofun⟩, fun h => absurd h.1 nofun, fun hgranted => absurd hgranted.create hcreate⟩

/-- A parent that is given the number of its child is told the truth if the child runs. -/
theorem reports_iff_runs (hv : out.value = some (tid : Int)) :
    out.Reports (some tid) spt s parent ↔ out.Runs spt s parent tid := by
  constructor
  · exact fun h => (h.forked tid rfl).mp hv
  · intro hruns
    refine ⟨fun hfailed => ?_, fun tid' htid => ?_⟩
    · obtain ⟨child, hchild, hended, -⟩ := hruns
      exact absurd hended (hfailed child hchild)
    · cases htid
      exact ⟨fun _ => hruns, fun _ => hv⟩

/-- **The parent is told the truth exactly where no thread is made, or nothing is refused to the child.** -/
theorem fork_reports_iff {C : Descs → Action → Prop} {fs : FileSys} {input : Nat → LittleEndian.Byte} {t₀ : Tid}
    (hfs : fs.Counted) (h : Machine.Reach step C (boot fs input t₀) s) (hp : s.live parent = true)
    (hc : ∀ tid ∈ created, s.live tid = false) (grants : Grants) (table : ParentTable) :
    ∃ out, processFork created grants table.pages parent s = .ok out ∧
      (out.Reports created table.pages s parent ↔ created = none ∨ Granted grants table.pages s parent) := by
  cases created with
  | none => exact ⟨_, rfl, fun _ => .inl rfl, fun _ => ⟨fun _ => rfl, nofun⟩⟩
  | some tid =>
    obtain ⟨child, hrun, hsema, hruns⟩ :
        ∃ child, doFork grants table.pages parent tid (s.newThread tid) = .ok child ∧ _ :=
      doFork_cases (ok_of_reach hfs h) hp (hc tid rfl) table.typed table.aligned table.distinct
    have hsome : ((some tid : Option Tid) = none ∨ Granted grants table.pages s parent) ↔
        child.ended = .user ∧ FullCopy table.pages s parent tid child := by
      rw [hruns]
      exact ⟨fun h => h.resolve_left nofun, .inr⟩
    rw [hsome]
    show ∃ out, (doFork grants table.pages parent tid (s.newThread tid) >>= _) = .ok out ∧ _
    rw [hrun]
    by_cases hfault : child.ended = .fault
    · -- the parent waits for ever
      refine ⟨{ value := none, child := some child }, if_pos (hsema.mpr hfault), fun hreports => ?_, fun huser => ?_⟩
      · have hvalue := hreports.failed fun other hother => by
          cases hother
          rw [hfault]
          nofun
        cases hvalue
      · rw [hfault] at huser
        cases huser.1
    · refine ⟨{ value := some tid, child := some child }, if_neg (mt hsema.mp hfault), ?_⟩
      rw [reports_iff_runs rfl]
      exact ⟨fun ⟨other, hother, hcopy⟩ => by cases hother; exact hcopy, fun hcopy => ⟨child, rfl, hcopy⟩⟩

end

/-- A stack page that is in memory. -/
def stackPage : Source where
  page :=
    { operations := .anon, va := USER_STACK - BitVec.ofNat 64 PGSIZE, frame := some 0, writable := true, init := false
      type := .anon, aux := none, swapSlot := -1 }
  grants := { aux := true, page := true, claim := true, frame := some fun _ => 0 }

def stackTable : ParentTable where
  pages := [stackPage]
  aligned := by decide
  typed := by decide
  distinct := List.pairwise_singleton _ _

theorem fork_reports_iff_stack :
    ∃ out, processFork (some 1) { create := true, files := fun _ => true } stackTable.pages 0
        (boot oneNameDisk (fun _ => 0) 0) = .ok out ∧
      (out.Reports (some 1) stackTable.pages (boot oneNameDisk (fun _ => 0) 0) 0 ↔
        some 1 = none ∨ Granted { create := true, files := fun _ => true } stackTable.pages
          (boot oneNameDisk (fun _ => 0) 0) 0) :=
  fork_reports_iff (C := fun _ _ => True) oneName_faithful.counted .refl rfl (fun tid htid => by cases htid; rfl) _
    stackTable

/-- `pml4_create` finds no memory for the child, and the parent is given its number. -/
theorem failed_child_reported : ∃ out child,
    processFork (some 1) { create := false, files := fun _ => true } stackTable.pages 0
      (boot oneNameDisk (fun _ => 0) 0) = .ok out ∧
    out.child = some child ∧ child.ended = .exit ∧ out.value = some 1 ∧
    ¬ out.Reports (some 1) stackTable.pages (boot oneNameDisk (fun _ => 0) 0) 0 := by
  refine ⟨_, _, rfl, rfl, rfl, rfl, fun hreports => ?_⟩
  have hvalue := hreports.failed fun child hchild => by
    cases hchild
    nofun
  cases hvalue

end Pintos.Fork
