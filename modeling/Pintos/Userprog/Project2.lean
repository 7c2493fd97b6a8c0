import Pintos.Userprog.Loading

/-!
# Eager loading

`load_segment` and `install_page` of `userprog/process.c` as they are without `VM`.

* `Filled` — pages have got frames of their own, with given bytes
* `Project2.run_loadPages` — the segment is read page by page from the position of the file
-/

namespace Pintos

open Function LittleEndian

/-! ## The code -/

namespace Project2

/-- `pml4_get_page`. -/
def pml4GetPage (t : Tid) (uaddr : Vaddr) : VmProg (Option Kva) :=
  Prog.read fun s =>
    if isUserVaddr uaddr then .ok ((s.pte t uaddr).bind fun pte => if pte.present then some pte.kva else none)
    else .error .assertion

def installPage (t : Tid) (upage : Vaddr) (kpage : Kva) (writable : Bool) : VmProg Bool := do
  let mapped ← pml4GetPage t upage
  match mapped with
  | some _ => pure false
  | none => pml4SetPage t upage kpage writable

/-- The loop of `load_segment`. -/
def loadPages (t : Tid) (file : FilePtr) (writable : Bool) : Nat → Vaddr → Nat → Nat → VmProg Bool
  | 0, _, _, _ => pure true
  | fuel + 1, upage, readBytes, zeroBytes =>
    if readBytes = 0 ∧ zeroBytes = 0 then pure true
    else do
      let pageReadBytes := min readBytes PGSIZE
      let pageZeroBytes := PGSIZE - pageReadBytes
      let kpage ← pallocGetUser
      match kpage with
      | none => pure false
      | some kpage => do
        let bytes ← liftFs (fileRead file pageReadBytes)
        Prog.write fun s => .ok (s.copy kpage 0 bytes)
        if bytes.length ≠ pageReadBytes then do
          pallocFreeUser kpage
          pure false
        else do
          Prog.write fun s => .ok (s.copy kpage pageReadBytes (List.replicate pageZeroBytes 0))
          let installed ← installPage t upage kpage writable
          if installed then
            loadPages t file writable fuel (upage + BitVec.ofNat 64 PGSIZE) (readBytes - pageReadBytes)
              (zeroBytes - pageZeroBytes)
          else do
            pallocFreeUser kpage
            pure false

/-- `load_segment`. Each round takes a page from the sum of the two numbers. -/
def loadSegment (t : Tid) (file : FilePtr) (ofs : Int) (upage : Vaddr) (readBytes zeroBytes : BitVec 32)
    (writable : Bool) : VmProg Bool :=
  if (readBytes + zeroBytes).toNat % PGSIZE ≠ 0 ∨ ¬ Aligned upage ∨ ofs % PGSIZE ≠ 0 then
    Prog.fail .assertion
  else do
    liftFs (fileSeek file ofs)
    loadPages t file writable ((readBytes.toNat + zeroBytes.toNat) / PGSIZE) upage readBytes.toNat zeroBytes.toNat

end Project2

/-! ## Pages that are filled -/

/-- A page has got a free frame, with these bytes. -/
structure Put (t : Tid) (va : Vaddr) (writable : Bool) (bytes : List Byte) (kva : Kva) (s s' : Vm) : Prop where
  free : s.userPool[kva]? = some false
  pte : s'.pte t va = some { kva := kva, present := true, writable := writable, dirty := false }
  shows : s'.bytes kva PGSIZE = bytes
  mem : ∀ k, k ≠ kva → s'.mem k = s.mem k
  ptes : ∀ va', va' ≠ va → s'.pte t va' = s.pte t va'
  pool : s'.userPool = bitmapSetMultiple s.userPool kva 1 true

/-- The pages of a list have got frames, each with its bytes. -/
structure Filled (t : Tid) (upage : Vaddr) (writable : Bool) (bytes : Nat → List Byte) (l : List Nat) (s s' : Vm) :
    Prop where
  page : ∀ i ∈ l, ∃ kva, s.userPool[kva]? = some false ∧ s'.bytes kva PGSIZE = bytes i ∧
    s'.pte t (nthPage upage i) = some { kva := kva, present := true, writable := writable, dirty := false }
  ptes : ∀ va, (∀ i ∈ l, va ≠ nthPage upage i) → s'.pte t va = s.pte t va
  mem : ∀ k : Kva, s.userPool[k]? ≠ some false → s'.mem k = s.mem k
  pool : ∀ k : Kva, s.userPool[k]? ≠ some false → s'.userPool[k]? ≠ some false

section

variable {s s' s₁ : Vm} {t : Tid} {upage va : Vaddr} {writable : Bool} {bytes : Nat → List Byte} {l : List Nat}
  {i : Nat} {kva : Kva}

theorem Vm.bytes_congr (h : s'.mem kva = s.mem kva) (cnt : Nat) : s'.bytes kva cnt = s.bytes kva cnt := by
  rw [bytes, bytes, h]

theorem Filled.nil (s : Vm) : Filled t upage writable bytes [] s s :=
  ⟨fun _ h => absurd h List.not_mem_nil, fun _ _ => rfl, fun _ _ => rfl, fun _ h => h⟩

theorem Put.getElem?_pool {xs : List Byte} (h : Put t va writable xs kva s s') (k : Kva) :
    s'.userPool[k]? = if k = kva then some true else s.userPool[k]? := by
  have hlt := (List.getElem?_eq_some_iff.mp h.free).1
  rw [h.pool, getElem?_bitmapSetMultiple]
  by_cases hk : k = kva
  · subst hk
    rw [if_pos ⟨Nat.le_refl _, Nat.lt_succ_self _, hlt⟩, if_pos rfl]
  · rw [if_neg hk, if_neg]
    rintro ⟨hle, hlt', -⟩
    exact hk (Nat.le_antisymm (Nat.lt_succ_iff.mp hlt') hle)

/-- A page is filled, and then the others. -/
theorem Filled.cons (hput : Put t (nthPage upage i) writable (bytes i) kva s s₁)
    (h : Filled t upage writable bytes l s₁ s') (hne : ∀ j ∈ l, nthPage upage i ≠ nthPage upage j) :
    Filled t upage writable bytes (i :: l) s s' := by
  have htaken : ∀ k : Kva, s₁.userPool[k]? = some false → s.userPool[k]? = some false := by
    intro k hk
    rw [hput.getElem?_pool] at hk
    split at hk
    · cases hk
    · exact hk
  have hkva : s₁.userPool[kva]? ≠ some false := by
    rw [hput.getElem?_pool, if_pos rfl]
    simp
  refine ⟨fun j hj => ?_, fun va hva => ?_, fun k hk => ?_, fun k hk => h.pool k fun hc => hk (htaken k hc)⟩
  · rcases List.mem_cons.mp hj with rfl | hj
    · refine ⟨kva, hput.free, ?_, ?_⟩
      · rw [Vm.bytes_congr (h.mem kva hkva), hput.shows]
      · rw [h.ptes _ hne, hput.pte]
    · obtain ⟨k, hk, hbytes, hpte⟩ := h.page j hj
      exact ⟨k, htaken k hk, hbytes, hpte⟩
  · rw [h.ptes va fun j hj => hva j (List.mem_cons_of_mem i hj), hput.ptes va (hva i List.mem_cons_self)]
  · have hne : k ≠ kva := by
      rintro rfl
      exact hk hput.free
    rw [h.mem k fun hc => hk (htaken k hc), hput.mem k hne]

/-- A page that is shown for the first time has got a frame. -/
theorem Shown.put {q : PagePtr} {page : Page} {xs : List Byte} (h : Shown t va q page kva xs s s')
    (hfree : s.userPool[kva]? = some false) : Put t va page.writable xs kva s s' :=
  ⟨hfree, h.pte, h.shows, h.mem, h.ptes, h.pool⟩

end

/-! ## The loop -/

/-- The bytes of the page `i` of a segment that starts at the offset `ofs`. -/
def segmentBytes (disk : Nat → Sector) (start ofs readBytes i : Nat) : List Byte :=
  fileBytes disk start (ofs + min readBytes (PGSIZE * i)) (min (readBytes - PGSIZE * i) PGSIZE) ++
    List.replicate (PGSIZE - min (readBytes - PGSIZE * i) PGSIZE) 0

section

variable {s s' : Vm} {t : Tid} {upage : Vaddr} {writable : Bool} {f : FilePtr} {file : File} {inode : Inode}
  {fuel ofs readBytes zeroBytes k : Nat} {kva : Kva}

/-- The pages of a segment are pages of the user. -/
theorem user_nthPage {j : Nat} (h : upage.toNat + PGSIZE * k ≤ KERN_BASE.toNat) (hj : j < k) :
    isUserVaddr (nthPage upage j) = true := by
  have hk : KERN_BASE.toNat = 0x8004000000 := rfl
  rw [isUserVaddr_iff, nthPage_toNat (by unfold PGSIZE at *; omega)]
  unfold PGSIZE at *
  omega

/-- After a page is read and installed. -/
def Vm.installed (s : Vm) (t : Tid) (f : FilePtr) (file : File) (writable : Bool) (upage : Vaddr) (n : Nat) (kva : Kva)
    (xs : List Byte) : Vm :=
  ((((({ s with userPool := bitmapSetMultiple s.userPool kva 1 true }).atPos f file (file.pos + n)).copy kva 0 xs).copy
    kva n (List.replicate (PGSIZE - n) 0)).asked).setPte t upage
    { kva := kva, present := true, writable := writable, dirty := false }

/-- A round of the loop. -/
theorem Project2.run_loadPages_goes (hthere : FileThere s f file inode)
    (hlen : file.pos + min readBytes PGSIZE ≤ inode.data.length.toNat) (hscan : bitmapScan s.userPool 0 1 false = some kva)
    (hn : ¬ (readBytes = 0 ∧ zeroBytes = 0)) (h0 : s.allocs 0 = true) (hal : Aligned upage)
    (hu : isUserVaddr upage = true) (hpte : s.pte t upage = none) :
    (Project2.loadPages t f writable (fuel + 1) upage readBytes zeroBytes).run s =
      (Project2.loadPages t f writable fuel (nthPage upage 1) (readBytes - min readBytes PGSIZE)
        (zeroBytes - (PGSIZE - min readBytes PGSIZE))).run (s.installed t f file writable upage (min readBytes PGSIZE) kva
        (fileBytes s.fs.disk inode.data.start file.pos (min readBytes PGSIZE))) := by
  set n := min readBytes PGSIZE with hndef
  set s₁ : Vm := { s with userPool := bitmapSetMultiple s.userPool kva 1 true } with hs₁
  have hpalloc : pallocGetUser.run s = .ok (some kva, s₁) := by
    rw [pallocGetUser, Prog.run_lift, bitmapScanAndFlip, hscan]
    rfl
  have htrans : transferred inode.data n file.pos = n := by
    unfold transferred
    omega
  have hread : (liftFs (fileRead f n)).run s₁ =
      .ok (fileBytes s.fs.disk inode.data.start file.pos n, s₁.atPos f file (file.pos + n)) := by
    have hrun := run_fileRead (s := s₁.fs) hthere.files hthere.inodes hthere.onDisk n
    rw [htrans] at hrun
    exact run_liftFs hrun
  set xs := fileBytes s.fs.disk inode.data.start file.pos n with hxs
  set s₂ := ((s₁.atPos f file (file.pos + n)).copy kva 0 xs).copy kva n (List.replicate (PGSIZE - n) 0) with hs₂
  have hpte₂ : s₂.pte t upage = none := hpte
  have hget : (Project2.pml4GetPage t upage).run s₂ = .ok (none, s₂) := by
    refine Prog.run_read ?_
    rw [if_pos hu, hpte₂]
    rfl
  have hset : (pml4SetPage t upage kva writable).run s₂ = .ok (true, s.installed t f file writable upage n kva xs) := by
    have h₂ : s₂.allocs 0 = true := h0
    rw [pml4SetPage, if_neg (by rw [hu]; simpa using hal), Prog.run_bind_ok (run_vmAlloc s₂), h₂]
    rfl
  have hinstall : (Project2.installPage t upage kva writable).run s₂ =
      .ok (true, s.installed t f file writable upage n kva xs) := by
    rw [Project2.installPage, Prog.run_bind_ok hget]
    exact hset
  rw [Project2.loadPages, if_neg hn]
  dsimp only
  rw [← hndef, Prog.run_bind_ok hpalloc]
  dsimp only
  rw [Prog.run_bind_ok hread, Prog.run_bind_ok (Prog.run_write_ok _ _), if_neg (by simp [hxs]),
    Prog.run_bind_ok (Prog.run_write_ok _ _), Prog.run_bind_ok hinstall, if_pos rfl]
  rfl

theorem Vm.installed_put {n : Nat} (hn : n ≤ PGSIZE) (hfree : s.userPool[kva]? = some false) (pos : Nat) :
    Put t upage writable (fileBytes s.fs.disk inode.data.start pos n ++ List.replicate (PGSIZE - n) 0) kva s
      (s.installed t f file writable upage n kva (fileBytes s.fs.disk inode.data.start pos n)) := by
  set xs := fileBytes s.fs.disk inode.data.start pos n with hxs
  have hlen : xs.length = n := length_fileBytes _ _ _ _
  set s₁ := ({ s with userPool := bitmapSetMultiple s.userPool kva 1 true } : Vm).atPos f file (file.pos + n) with hs₁
  refine ⟨hfree, ?_, ?_, fun k hk => ?_, fun va' hva' => ?_, rfl⟩
  · rw [Vm.installed, Vm.pte_setPte, if_pos rfl]
  · have hcopy := bytes_copy_copy s₁ kva xs (List.replicate (PGSIZE - n) 0)
    rw [List.length_replicate, hlen, Nat.add_sub_cancel' hn] at hcopy
    exact hcopy
  · show update (update s.mem kva _) kva _ k = s.mem k
    rw [update_of_ne hk, update_of_ne hk]
  · rw [Vm.installed, Vm.pte_setPte, if_neg hva']
    rfl

/-- The loop, from the page `j` on. -/
theorem Project2.run_loadPages {m j : Nat} (hallocs : ∀ n, s.allocs n = true) (hframes : m ≤ s.userPool.count false)
    (hthere : FileThere s f file inode) (hpos : file.pos = ofs + min readBytes (PGSIZE * j))
    (hlen : ofs + readBytes ≤ inode.data.length.toNat) (hal : Aligned upage)
    (hu : upage.toNat + PGSIZE * (j + m) ≤ KERN_BASE.toNat)
    (hnone : ∀ i, j ≤ i → i < j + m → s.pte t (nthPage upage i) = none)
    (htotal : readBytes - PGSIZE * j + zeroBytes = PGSIZE * m) (hle : m ≤ fuel) :
    ∃ s', (Project2.loadPages t f writable fuel (nthPage upage j) (readBytes - PGSIZE * j) zeroBytes).run s = .ok (true, s') ∧
      Filled t upage writable (segmentBytes s.fs.disk inode.data.start ofs readBytes) (List.range' j m) s s' := by
  induction m generalizing s j zeroBytes fuel file with
  | zero =>
    have hzero : readBytes - PGSIZE * j = 0 ∧ zeroBytes = 0 := by omega
    refine ⟨s, ?_, .nil s⟩
    cases fuel with
    | zero => rfl
    | succ fuel => rw [loadPages, if_pos hzero]; rfl
  | succ m ih =>
    obtain ⟨fuel, rfl⟩ := Nat.exists_eq_succ_of_ne_zero (n := fuel) (by omega)
    have hn : ¬ (readBytes - PGSIZE * j = 0 ∧ zeroBytes = 0) := by
      unfold PGSIZE at htotal ⊢
      omega
    obtain ⟨kva, hscan, hfree, hcount⟩ := bitmapScan_free (b := s.userPool) (by omega)
    set n := min (readBytes - PGSIZE * j) PGSIZE with hndef
    have hfit : file.pos + n ≤ inode.data.length.toNat := by
      rw [hpos, hndef]
      unfold PGSIZE
      omega
    rw [run_loadPages_goes hthere hfit hscan hn (hallocs 0) (aligned_nthPage hal j) (user_nthPage hu (by omega))
      (hnone j le_rfl (by omega)), nthPage_add, ← hndef, hpos]
    set s₁ := s.installed t f file writable (nthPage upage j) n kva
      (fileBytes s.fs.disk inode.data.start (ofs + min readBytes (PGSIZE * j)) n) with hs₁
    have hput : Put t (nthPage upage j) writable (segmentBytes s.fs.disk inode.data.start ofs readBytes j) kva s s₁ :=
      Vm.installed_put (Nat.min_le_right _ _) hfree _
    have hthere₁ : FileThere s₁ f { file with pos := file.pos + n } inode :=
      ⟨update_self _ _ _, hthere.inodes, hthere.onDisk.congr rfl⟩
    have hne : ∀ i, j < i → i < j + (m + 1) → nthPage upage j ≠ nthPage upage i := by
      intro i hi hlt heq
      have hk : KERN_BASE.toNat = 0x8004000000 := rfl
      have := nthPage_inj (by unfold PGSIZE at hu; omega) (by unfold PGSIZE at hu; omega) heq
      omega
    have hcount₁ : m ≤ s₁.userPool.count false := by
      rw [hput.pool]
      omega
    have hpos₁ : file.pos + n = ofs + min readBytes (PGSIZE * (j + 1)) := by
      rw [hpos, hndef]
      unfold PGSIZE
      omega
    have hleft : readBytes - PGSIZE * j - n = readBytes - PGSIZE * (j + 1) := by
      rw [hndef]
      unfold PGSIZE
      omega
    have hnone₁ : ∀ i, j + 1 ≤ i → i < j + 1 + m → s₁.pte t (nthPage upage i) = none := by
      intro i hi hlt
      rw [hput.ptes _ (hne i (by omega) (by omega)).symm]
      exact hnone i (by omega) (by omega)
    have htotal₁ : readBytes - PGSIZE * (j + 1) + (zeroBytes - (PGSIZE - n)) = PGSIZE * m := by
      rw [hndef]
      unfold PGSIZE at *
      omega
    have hu₁ : upage.toNat + PGSIZE * (j + 1 + m) ≤ KERN_BASE.toNat := by
      rwa [Nat.add_assoc, Nat.add_comm 1]
    obtain ⟨s', hrun, hfilled⟩ := ih (s := s₁) (fun i => hallocs (i + 1)) hcount₁ hthere₁ hpos₁ hu₁ hnone₁ htotal₁
      (Nat.succ_le_succ_iff.mp hle)
    rw [hleft]
    refine ⟨s', hrun, ?_⟩
    rw [List.range'_succ]
    refine .cons hput hfilled fun i hi => ?_
    rw [List.mem_range'_1] at hi
    exact hne i (by omega) (by omega)

end

end Pintos
