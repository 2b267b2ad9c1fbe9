/-
  Kernel/Meaning.lean --- what a page means, before and after `munmap` and `mmap_region`.

  The store is viewed as a partial map from addresses to attributes.  `munmap` deletes
  its range from that map, whatever its arguments are.  `mmap_region` overrides its
  range exactly when the VMAs it is merged into have the requested protection: the
  test for merging compares flags and file, and not `page_prot`.
-/
import BufferVM.Kernel.WellFormed

set_option autoImplicit false

namespace BufferVM

open PtrTree PtrTree.PTree PtrList

variable {σ η : Type} {s t u : St σ η} {E : Env σ η}

/-- A well-formed store whose tree has a black root, as `rb_insert` leaves it. -/
structure Valid (s : St σ η) : Prop extends WellFormed s where
  black : RootBlack s

theorem Valid.step (F : E.toNodeHeap.Fresh) (hs : Valid s) (ho : NodesOwned F s) {A : Space σ η}
    (hA : A = s.space) : ∃ a, Holds s A a ∧ Gaps s A.nodes a ∧ Sound F A := by
  subst hA
  obtain ⟨a, hh, hg⟩ := hs.toWellFormed.holds hs.black
  exact ⟨a, hh, hg, hs.toWellFormed.sound ho⟩

/-- The attribute of the VMA that covers an address. -/
def St.view {β : Type} (f : VmRegion → U64 → β) (s : St σ η) (a : U64) : Option β :=
  BufferVM.view f s.regions a

/-! ## `munmap` -/

/-- What a page is, with its place in a file for a file mapping. -/
structure PageMeaning extends PageAttrs where
  offset : Option U64
  deriving DecidableEq, Repr

/-- What a region makes of an address. -/
def VmRegion.meaning (r : VmRegion) (a : U64) : PageMeaning :=
  { r.attrs with
    offset := if r.fileInfo.fd ≠ noFd then some (r.pageOffset + (a - r.startAddr)) else none }

/-- Both bounds of a region are page addresses. -/
structure VmRegion.Aligned (r : VmRegion) : Prop where
  start : r.startAddr.toNat % 4096 = 0
  limit : r.endAddr.toNat % 4096 = 0

/-- `kernel_dup` succeeds on a descriptor, and fails with `-1` on `-1`. -/
structure DupSucceeds (E : Env σ η) : Prop where
  file : ∀ host fd, fd ≠ noFd → (E.dup host fd).2 ≠ noFd
  none : ∀ host, (E.dup host noFd).2 = noFd

theorem DupSucceeds.eq_noFd (h : DupSucceeds E) (host : η) (fd : BitVec 32) :
    (E.dup host fd).2 = noFd ↔ fd = noFd := by
  constructor
  · intro h'
    by_contra hne
    exact h.file host fd hne h'
  · rintro rfl
    exact h.none host

theorem meaning_mapRegionFields (E : Env σ η) (host : η) (r : VmRegion) (a : U64) :
    (mapRegionFields E host r).meaning a = r.meaning a := by
  have := attrs_mapRegionFields E host r
  simp only [VmRegion.meaning, this]
  rfl

/-- The meaning depends on the descriptor only in that there is one. -/
theorem meaning_withFd {r : VmRegion} (fd : BitVec 32) (h : fd = noFd ↔ r.fileInfo.fd = noFd)
    (a : U64) : (r.withFd fd).meaning a = r.meaning a := by
  simp only [VmRegion.meaning, VmRegion.withFd, VmRegion.attrs, ne_eq, h]

/-- The part behind an aligned address keeps the file offsets. -/
theorem meaning_high {r : VmRegion} {addr : U64} (hlo : r.startAddr < addr)
    (halign : addr.toNat % 4096 = 0) (hr : r.Aligned) (a : U64) :
    (r.high addr).meaning a = r.meaning a := by
  have hdown : pageAlignDown (addr - r.startAddr) = addr - r.startAddr := by
    refine pageAlignDown_of_aligned ?_
    have := hr.start
    rw [BitVec.toNat_sub_of_le (BitVec.le_of_lt hlo)]
    have := BitVec.lt_def.mp hlo
    omega
  have hoff : r.pageOffset + (addr - r.startAddr) + (a - addr) =
      r.pageOffset + (a - r.startAddr) := by bv_omega
  simp only [VmRegion.meaning, VmRegion.high, VmRegion.attrs, hdown, hoff]

theorem splitStable_meaning (hdup : DupSucceeds E) {addr : U64} (halign : addr.toNat % 4096 = 0) :
    SplitStable E VmRegion.meaning VmRegion.Aligned addr := by
  intro x heap host nb hP hlo _
  have hfd := fun r => meaning_withFd (r := r) (E.dup host x.2.fileInfo.fd).2
  have hlow : ∀ a, (x.2.low addr).meaning a = x.2.meaning a := fun _ => rfl
  have hhigh := meaning_high hlo halign hP
  refine ⟨⟨?_, ?_⟩, fun a => ⟨fun _ => ?_, fun _ => ?_⟩⟩
  · cases nb <;> exact ⟨hP.start, halign⟩
  · cases nb <;> exact ⟨halign, hP.limit⟩
  · cases nb
    · exact meaning_mapRegionFields _ _ _ _
    · exact (meaning_mapRegionFields _ _ _ _).trans
        (hfd (x.2.low addr) (hdup.eq_noFd host _) a)
  · cases nb
    · exact (meaning_mapRegionFields _ _ _ _).trans
        ((hfd (x.2.high addr) (hdup.eq_noFd host _) a).trans (hhigh a))
    · exact (meaning_mapRegionFields _ _ _ _).trans (hhigh a)

/-- A request that `munmap` does not reject does not wrap around. -/
theorem munmap_no_wrap {kernelMinAddress addr length : U64}
    (hk : kernelMinAddress.toNat % 4096 = 0)
    (h : munmapRejects kernelMinAddress addr length = false) :
    addr.toNat % 4096 = 0 ∧ 0 < (pageAlign length).toNat ∧
      length.toNat ≤ (pageAlign length).toNat ∧
      addr.toNat + (pageAlign length).toNat ≤ kernelMinAddress.toNat := by
  simp only [munmapRejects, Bool.or_eq_false_iff, decide_eq_false_iff_not, ne_eq, not_not] at h
  obtain ⟨⟨⟨h1, h2⟩, h3⟩, h4⟩ := h
  have h1' := (pageOffset_eq_zero_iff addr).mp h1
  have hsub : (kernelMinAddress - addr).toNat = kernelMinAddress.toNat - addr.toNat :=
    BitVec.toNat_sub_of_le (by bv_omega)
  have h2' : addr.toNat ≤ kernelMinAddress.toNat := by bv_omega
  have h3' : length.toNat ≤ kernelMinAddress.toNat - addr.toNat := by
    rw [← hsub]
    bv_omega
  have h4' : 0 < length.toNat := by bv_omega
  have hlt := kernelMinAddress.isLt
  have hround : (pageAlign length).toNat = (length.toNat + 4095) / 4096 * 4096 := by
    rw [toNat_pageAlign]
    exact Nat.mod_eq_of_lt (by omega)
  omega

/-- **`munmap` is exact deletion.**  For every address and length it either rejects its
arguments and changes nothing, or deletes exactly the pages of its range. -/
theorem syscallMunmap_exact (F : E.toNodeHeap.Fresh) (hdup : DupSucceeds E) (s : St σ η)
    (hs : Valid s) (ho : NodesOwned F s) (hav : 2 ≤ F.avail s.heap)
    (halign : ∀ r ∈ s.regions, r.Aligned) (hk : s.glob.kernelMinAddress.toNat % 4096 = 0)
    (addr length : U64) :
    ((addr.toNat % 4096 ≠ 0 ∨ s.glob.kernelMinAddress < addr ∨ length = 0#64 ∨
        s.glob.kernelMinAddress - addr < length) →
      syscallMunmap E addr length s = some (intEINVAL, s)) ∧
    (¬ (addr.toNat % 4096 ≠ 0 ∨ s.glob.kernelMinAddress < addr ∨ length = 0#64 ∨
        s.glob.kernelMinAddress - addr < length) →
      length.toNat ≤ (pageAlign length).toNat ∧
      addr.toNat + (pageAlign length).toNat ≤ s.glob.kernelMinAddress.toNat ∧
      ∃ t, syscallMunmap E addr length s = some (0, t) ∧
        ∀ a, t.view VmRegion.meaning a =
          if addr.toNat ≤ a.toNat ∧ a.toNat < addr.toNat + (pageAlign length).toNat then none
          else s.view VmRegion.meaning a) := by
  have hrej : munmapRejects s.glob.kernelMinAddress addr length = true ↔
      (addr.toNat % 4096 ≠ 0 ∨ s.glob.kernelMinAddress < addr ∨ length = 0#64 ∨
        s.glob.kernelMinAddress - addr < length) := by
    simp only [munmapRejects, Bool.or_eq_true, decide_eq_true_eq, ne_eq, pageOffset_eq_zero_iff]
    tauto
  refine ⟨fun h => ?_, fun h => ?_⟩
  · rw [syscallMunmap, if_pos (hrej.mpr h)]
  · have hacc : munmapRejects s.glob.kernelMinAddress addr length = false := by
      rw [Bool.eq_false_iff]
      exact fun h' => h (hrej.mp h')
    obtain ⟨h1, h2, h3, h4⟩ := munmap_no_wrap hk hacc
    obtain ⟨a, hh, hg, hso⟩ := hs.step F ho rfl
    have hend : (addr + pageAlign length).toNat = addr.toNat + (pageAlign length).toNat := by
      rw [BitVec.toNat_add, Nat.mod_eq_of_lt]
      have := s.glob.kernelMinAddress.isLt
      omega
    have hlt : addr < addr + pageAlign length := by
      rw [BitVec.lt_def, hend]
      omega
    have halign' : (addr + pageAlign length).toNat % 4096 = 0 := by
      rw [hend, toNat_pageAlign]
      omega
    obtain ⟨t, b, hrun, hcar⟩ := syscallMunmap_spec F hh hso hav hacc rfl hlt
    obtain ⟨hview, -⟩ := view_unmap (splitStable_meaning hdup h1)
      (splitStable_meaning hdup halign') hso hav (by rw [St.space_regions]; exact halign)
    obtain ⟨hso', -⟩ := hso.unmap addr (addr + pageAlign length) hav
    obtain ⟨-, -, -, hregions⟩ := hcar.holds.wellFormed hso'.sorted (hcar.gaps hg)
    refine ⟨h3, h4, t, hrun, fun x => ?_⟩
    rw [St.view, hregions, hview x, St.space_regions]
    simp only [BitVec.le_def, BitVec.lt_def, hend]
    rfl

theorem aligned_oneVmaStore (color : Color) :
    ∀ r ∈ (oneVmaStore color).regions, r.Aligned := by
  intro r hr
  rw [St.regions, nodes_oneVmaStore] at hr
  obtain rfl := List.mem_singleton.mp hr
  cases color <;> exact ⟨by decide +kernel, by decide +kernel⟩

theorem valid_oneVmaStore : Valid (oneVmaStore .black) :=
  ⟨wellFormed_oneVmaStore .black, fun _ => by decide +kernel⟩

/-- A page in the middle of a VMA, by a length that is not a multiple of the page size. -/
theorem syscallMunmap_exact_oneVma :
    ∃ t, syscallMunmap quietEnv 0x2000#64 0x234#64 (oneVmaStore .black) = some (0, t) ∧
      t.view VmRegion.meaning 0x2000#64 = none ∧
      t.view VmRegion.meaning 0x3000#64 =
        (oneVmaStore .black).view VmRegion.meaning 0x3000#64 := by
  obtain ⟨-, h⟩ := syscallMunmap_exact (E := quietEnv) bumpFresh ⟨fun _ _ h => h, fun _ => rfl⟩
    (oneVmaStore .black) valid_oneVmaStore (nodesOwned_oneVmaStore .black) (by decide +kernel)
    (aligned_oneVmaStore .black) (by decide +kernel) 0x2000#64 0x234#64
  obtain ⟨-, -, t, ht, hview⟩ := h (by decide +kernel)
  refine ⟨t, ht, ?_, ?_⟩
  · rw [hview, if_pos (by decide +kernel)]
  · rw [hview, if_neg (by decide +kernel)]

/-! ## `mmap_region` -/

/-- The request that `mmap_region` makes of its arguments. -/
def mmapRequest (fileInfo : Option VmFile) (addr length flags prot offset : U64) : Request :=
  { fileInfo := fileInfo.getD nullFileInfo, addr, length, flags, prot, offset }

/-- The attributes of the VMA that covers an address. -/
def St.attrsAt (s : St σ η) (a : U64) : Option PageAttrs := s.view (fun r _ => r.attrs) a

/-- The VMAs that a request will be merged with have the protection it asks for.  They
are the VMA that reaches up to the range and the VMA that reaches out of it, cut off at
the range, where they pass the tests of `vma_merge`. -/
structure Request.ProtAgrees (q : Request) (l : List VmRegion) : Prop where
  prev : ∀ r ∈ l, r.startAddr < q.addr → q.addr ≤ r.endAddr →
    canVmaMergeAfter (r.low q.addr) q.flags q.fileInfo q.offset = true → r.pageProt = q.prot
  next : ∀ r ∈ l, r.startAddr ≤ q.end' → q.end' < r.endAddr →
    canVmaMergeBefore (r.high q.end') q.flags q.fileInfo (q.offset + q.pglen) = true →
      r.pageProt = q.prot

theorem splitStable_attrs (E : Env σ η) (addr : U64) :
    SplitStable E (fun r _ => r.attrs) (fun _ => True) addr := by
  intro x heap host nb _ _ _
  refine ⟨⟨trivial, trivial⟩, fun a => ⟨fun _ => ?_, fun _ => ?_⟩⟩ <;>
    cases nb <;> exact attrs_mapRegionFields _ _ _

/-- What the test on the VMA in front of a range reads. -/
def VmRegion.frontOf (addr : U64) (r : VmRegion) (a : U64) : Option (PageAttrs × U64 × U64) :=
  if a < addr then some (r.attrs, r.startAddr, r.pageOffset) else none

/-- What the test on the VMA behind a range reads. -/
def VmRegion.backOf (end' : U64) (r : VmRegion) (a : U64) : Option (PageAttrs × U64) :=
  if end' ≤ a then some (r.attrs, r.pageOffset + pageAlignDown (end' - r.startAddr)) else none

theorem splitStable_frontOf (E : Env σ η) {addr c : U64} (hle : addr ≤ c) :
    SplitStable E (VmRegion.frontOf addr) (fun _ => True) c := by
  intro x heap host nb _ _ _
  obtain ⟨h1, h2, h3, h4⟩ := splitArea_bounds E x c nb heap host
  refine ⟨⟨trivial, trivial⟩, fun a => ⟨fun _ => ?_, fun hc => ?_⟩⟩
  · unfold VmRegion.frontOf
    congr 1
    cases nb <;> simp [splitArea, attrs_mapRegionFields] <;> exact ⟨rfl, rfl, rfl⟩
  · have : ¬ a < addr := by
      have := hc.1
      rw [h3] at this
      bv_omega
    simp [VmRegion.frontOf, this]

/-- Rounding down at page boundaries adds up. -/
theorem pageAlignDown_add {start addr end' : U64} (h₁ : start ≤ addr) (h₂ : addr ≤ end')
    (ha : addr.toNat % 4096 = 0) (he : end'.toNat % 4096 = 0) :
    pageAlignDown (addr - start) + pageAlignDown (end' - addr) = pageAlignDown (end' - start) := by
  apply BitVec.eq_of_toNat_eq
  have h1 := BitVec.toNat_sub_of_le h₁
  have h2 := BitVec.toNat_sub_of_le h₂
  have h3 := BitVec.toNat_sub_of_le (BitVec.le_trans h₁ h₂)
  have h4 := BitVec.le_def.mp h₁
  have h5 := BitVec.le_def.mp h₂
  have h6 := end'.isLt
  rw [BitVec.toNat_add, toNat_pageAlignDown, toNat_pageAlignDown, toNat_pageAlignDown, h1, h2, h3]
  omega

theorem splitStable_backOf (E : Env σ η) {end' c : U64} (hle : c ≤ end')
    (hc : c.toNat % 4096 = 0) (he : end'.toNat % 4096 = 0) :
    SplitStable E (VmRegion.backOf end') (fun _ => True) c := by
  intro x heap host nb _ hlo _
  obtain ⟨h1, h2, h3, h4⟩ := splitArea_bounds E x c nb heap host
  have hoff := pageAlignDown_add (BitVec.le_of_lt hlo) hle hc he
  refine ⟨⟨trivial, trivial⟩, fun a => ⟨fun hcov => ?_, fun _ => ?_⟩⟩
  · have : ¬ end' ≤ a := by
      have := hcov.2
      rw [h2] at this
      bv_omega
    simp [VmRegion.backOf, this]
  · unfold VmRegion.backOf
    congr 1
    have hattrs : (splitArea E x c nb heap host).2.1.2.attrs = x.2.attrs :=
      ((splitStable_attrs E c x heap host nb trivial hlo ‹_›).2 c).2
        ⟨by rw [h3]; exact BitVec.le_refl _, by rw [h4]; assumption⟩
    have hpo : (splitArea E x c nb heap host).2.1.2.pageOffset =
        x.2.pageOffset + pageAlignDown (c - x.2.startAddr) := by cases nb <;> rfl
    rw [hattrs, h3, hpo, BitVec.add_assoc, hoff]

/-- `vma_can_merge` compares the attributes, but for the protection. -/
theorem vmaCanMerge_iff {r : VmRegion} {fileInfo : VmFile} {flags : U64} :
    vmaCanMerge r fileInfo flags = true ↔ r.attrs.flags = flags &&& flagMask ∧
      r.attrs.dev = fileInfo.dev ∧ r.attrs.inode = fileInfo.inode := by
  have hxor : (r.flags ^^^ flags) &&& flagMask = 0#64 ↔
      r.flags &&& flagMask = flags &&& flagMask := by
    rw [show (r.flags ^^^ flags) &&& flagMask = (r.flags &&& flagMask) ^^^ (flags &&& flagMask) by
      ext i hi
      simp [Bool.and_xor_distrib_right]]
    exact BitVec.xor_eq_zero_iff
  unfold vmaCanMerge
  rw [show ~~~(vmaIsPrefaulted ||| vmaHasResized) = flagMask from rfl]
  simp only [VmRegion.attrs]
  by_cases hf : (r.flags ^^^ flags) &&& flagMask = 0#64
  · simp only [hf, ne_eq, not_true_eq_false, if_false, hxor.mp hf, true_and]
    by_cases hd : r.fileInfo.dev = fileInfo.dev <;> by_cases hi : r.fileInfo.inode =
        fileInfo.inode <;>
      simp [hd, hi]
  · have hne : ¬ r.flags &&& flagMask = flags &&& flagMask := fun h => hf (hxor.mpr h)
    simp [hf, hne]

/-- The test in front of a range on two regions that look alike there. -/
theorem canVmaMergeAfter_congr {r k : VmRegion} {flags offset : U64} {fileInfo : VmFile}
    (hattrs : r.attrs = k.attrs) (hstart : r.startAddr = k.startAddr)
    (hend : r.endAddr = k.endAddr) (hoff : r.pageOffset = k.pageOffset) :
    canVmaMergeAfter r flags fileInfo offset = canVmaMergeAfter k flags fileInfo offset := by
  have hcan : vmaCanMerge r fileInfo flags = vmaCanMerge k fileInfo flags := by
    rw [Bool.eq_iff_iff, vmaCanMerge_iff, vmaCanMerge_iff, hattrs]
  simp only [canVmaMergeAfter, hcan, hstart, hend, hoff]

theorem canVmaMergeBefore_congr {r k : VmRegion} {flags offset : U64} {fileInfo : VmFile}
    (hattrs : r.attrs = k.attrs) (hoff : r.pageOffset = k.pageOffset) :
    canVmaMergeBefore r flags fileInfo offset = canVmaMergeBefore k flags fileInfo offset := by
  have hcan : vmaCanMerge r fileInfo flags = vmaCanMerge k fileInfo flags := by
    rw [Bool.eq_iff_iff, vmaCanMerge_iff, vmaCanMerge_iff, hattrs]
  simp only [canVmaMergeBefore, hcan, hoff]

section Unmapped

variable {A : Space σ η} {F : E.toNodeHeap.Fresh} {q : Request} {kernelMinAddress : U64}

/-- The VMA in front of the cleared range is the one that reached up to it, cut off. -/
theorem front_unmap (hso : Sound F A) (hav : 2 ≤ F.avail A.heap) (hlt : q.addr < q.end')
    {v : PageAttrs × U64 × U64} :
    (∃ r ∈ (A.unmap E q.addr q.end').regions, r.endAddr = q.addr ∧
        (r.attrs, r.startAddr, r.pageOffset) = v) ↔
      ∃ r ∈ A.regions, r.startAddr < q.addr ∧ q.addr ≤ r.endAddr ∧
        (r.attrs, r.startAddr, r.pageOffset) = v := by
  obtain ⟨hview, -⟩ := view_unmap (f := VmRegion.frontOf q.addr)
    (splitStable_frontOf E (BitVec.le_refl _)) (splitStable_frontOf E (BitVec.le_of_lt hlt)) hso hav
    (P := fun _ => True) fun _ _ => trivial
  have hso' := (hso.unmap q.addr q.end' hav).1
  have hfree := free_unmap hso q.addr q.end' hav
  constructor
  · rintro ⟨r, hr, hend, rfl⟩
    have hrlt := hso'.sorted.lt r hr
    -- the last byte in front of the range
    have hv := hview (q.addr - 1#64)
    rw [if_neg (by bv_omega),
      view_of_mem hso'.sorted hr (by unfold VmRegion.Covers; bv_omega)] at hv
    obtain ⟨r', hr', hc, hf⟩ := exists_of_view hv.symm
    unfold VmRegion.Covers at hc
    rw [VmRegion.frontOf, VmRegion.frontOf, if_pos (by bv_omega), if_pos (by bv_omega)] at hf
    exact ⟨r', hr', by bv_omega, by bv_omega, Option.some.inj hf⟩
  · rintro ⟨r, hr, hlo, hhi, rfl⟩
    have hv := hview (q.addr - 1#64)
    rw [if_neg (by bv_omega), view_of_mem hso.sorted hr (by unfold VmRegion.Covers; bv_omega)] at hv
    obtain ⟨r', hr', hc, hf⟩ := exists_of_view hv
    unfold VmRegion.Covers at hc
    rw [VmRegion.frontOf, VmRegion.frontOf, if_pos (by bv_omega), if_pos (by bv_omega)] at hf
    obtain ⟨x, hx, rfl⟩ := List.mem_map.mp hr'
    have := hfree x hx
    exact ⟨x.2, hr', by bv_omega, Option.some.inj hf⟩

/-- The VMA behind the cleared range is the one that reached out of it, cut off. -/
theorem back_unmap (hso : Sound F A) (hav : 2 ≤ F.avail A.heap) (hlt : q.addr < q.end')
    (ha : q.addr.toNat % 4096 = 0) (he : q.end'.toNat % 4096 = 0) {v : PageAttrs × U64} :
    (∃ r ∈ (A.unmap E q.addr q.end').regions, r.startAddr = q.end' ∧
        (r.attrs, r.pageOffset) = v) ↔
      ∃ r ∈ A.regions, r.startAddr ≤ q.end' ∧ q.end' < r.endAddr ∧
        (r.attrs, r.pageOffset + pageAlignDown (q.end' - r.startAddr)) = v := by
  obtain ⟨hview, -⟩ := view_unmap (f := VmRegion.backOf q.end')
    (splitStable_backOf E (BitVec.le_of_lt hlt) ha he)
    (splitStable_backOf E (BitVec.le_refl _) he he) hso hav
    (P := fun _ => True) fun _ _ => trivial
  have hso' := (hso.unmap q.addr q.end' hav).1
  have hfree := free_unmap hso q.addr q.end' hav
  have hzero : ∀ x : U64, x + pageAlignDown 0#64 = x := fun x => by
    rw [show pageAlignDown 0#64 = 0#64 by decide, BitVec.add_zero]
  have hv := hview q.end'
  rw [if_neg (by bv_omega)] at hv
  constructor
  · rintro ⟨r, hr, hstart, rfl⟩
    have hrlt := hso'.sorted.lt r hr
    rw [view_of_mem hso'.sorted hr (by unfold VmRegion.Covers; bv_omega)] at hv
    obtain ⟨r', hr', hc, hf⟩ := exists_of_view hv.symm
    unfold VmRegion.Covers at hc
    simp only [VmRegion.backOf, BitVec.le_refl, if_true, hstart, BitVec.sub_self, hzero] at hf
    exact ⟨r', hr', hc.1, hc.2, Option.some.inj hf⟩
  · rintro ⟨r, hr, hlo, hhi, rfl⟩
    rw [view_of_mem hso.sorted hr (by unfold VmRegion.Covers; bv_omega)] at hv
    obtain ⟨r', hr', hc, hf⟩ := exists_of_view hv
    unfold VmRegion.Covers at hc
    obtain ⟨x, hx, rfl⟩ := List.mem_map.mp hr'
    have hx2 : x.2.startAddr = q.end' := by
      have := hfree x hx
      bv_omega
    simp only [VmRegion.backOf, BitVec.le_refl, if_true, hx2, BitVec.sub_self, hzero] at hf
    exact ⟨x.2, hr', hx2, Option.some.inj hf⟩

/-- The VMAs that the cleared range can be appended to are those that reached up to it and
pass the test once they are cut off. -/
theorem joinsPrev_unmap (hso : Sound F A) (hav : 2 ≤ F.avail A.heap) (hlt : q.addr < q.end')
    {v : PageAttrs} :
    (∃ r ∈ (A.unmap E q.addr q.end').regions, q.joinsPrev r = true ∧ r.attrs = v) ↔
      ∃ r ∈ A.regions, r.startAddr < q.addr ∧ q.addr ≤ r.endAddr ∧
        canVmaMergeAfter (r.low q.addr) q.flags q.fileInfo q.offset = true ∧ r.attrs = v := by
  have hfront := fun v => front_unmap (E := E) (v := v) hso hav hlt
  constructor
  · rintro ⟨r, hr, hj, hv⟩
    have hend := Request.joinsPrev_end hj
    obtain ⟨r', hr', hlo, hhi, heq⟩ := (hfront _).mp ⟨r, hr, hend, rfl⟩
    simp only [Prod.mk.injEq] at heq
    refine ⟨r', hr', hlo, hhi, ?_, heq.1.trans hv⟩
    simp only [Request.joinsPrev, Bool.and_eq_true] at hj
    rw [← hj.2]
    exact canVmaMergeAfter_congr (r := r'.low q.addr) (k := r) heq.1 heq.2.1 hend.symm heq.2.2
  · rintro ⟨r, hr, hlo, hhi, hcan, hv⟩
    obtain ⟨r', hr', hend, heq⟩ := (hfront _).mpr ⟨r, hr, hlo, hhi, rfl⟩
    simp only [Prod.mk.injEq] at heq
    refine ⟨r', hr', ?_, heq.1.trans hv⟩
    simp only [Request.joinsPrev, hend, decide_true, Bool.true_and]
    rw [← hcan]
    exact canVmaMergeAfter_congr (r := r') (k := r.low q.addr) heq.1 heq.2.1 hend heq.2.2

/-- The VMAs that the cleared range can be put in front of are those that reached out of it
and pass the test once they are cut off. -/
theorem joinsNext_unmap (hso : Sound F A) (hav : 2 ≤ F.avail A.heap) (hlt : q.addr < q.end')
    (ha : q.addr.toNat % 4096 = 0) (he : q.end'.toNat % 4096 = 0) {v : PageAttrs} :
    (∃ r ∈ (A.unmap E q.addr q.end').regions, q.joinsNext r = true ∧ r.attrs = v) ↔
      ∃ r ∈ A.regions, r.startAddr ≤ q.end' ∧ q.end' < r.endAddr ∧
        canVmaMergeBefore (r.high q.end') q.flags q.fileInfo (q.offset + q.pglen) = true ∧
        r.attrs = v := by
  have hback := fun v => back_unmap (E := E) (v := v) hso hav hlt ha he
  constructor
  · rintro ⟨r, hr, hj, hv⟩
    have hstart := Request.joinsNext_start hj
    obtain ⟨r', hr', hlo, hhi, heq⟩ := (hback _).mp ⟨r, hr, hstart.symm, rfl⟩
    simp only [Prod.mk.injEq] at heq
    refine ⟨r', hr', hlo, hhi, ?_, heq.1.trans hv⟩
    simp only [Request.joinsNext, Bool.and_eq_true] at hj
    rw [← hj.2]
    exact canVmaMergeBefore_congr (r := r'.high q.end') (k := r) heq.1 heq.2
  · rintro ⟨r, hr, hlo, hhi, hcan, hv⟩
    obtain ⟨r', hr', hstart, heq⟩ := (hback _).mpr ⟨r, hr, hlo, hhi, rfl⟩
    simp only [Prod.mk.injEq] at heq
    refine ⟨r', hr', ?_, heq.1.trans hv⟩
    simp only [Request.joinsNext, hstart, decide_true, Bool.true_and]
    rw [← hcan]
    exact canVmaMergeBefore_congr (r := r') (k := r.high q.end') heq.1 heq.2

/-- The condition, said about the address space after the range has been cleared. -/
theorem protAgrees_iff_unmap (hso : Sound F A) (hav : 2 ≤ F.avail A.heap)
    (hlt : q.addr < q.end') (ha : q.addr.toNat % 4096 = 0) (he : q.end'.toNat % 4096 = 0) :
    q.ProtAgrees A.regions ↔ ∀ r ∈ (A.unmap E q.addr q.end').regions,
      (q.joinsPrev r = true ∨ q.joinsNext r = true) → r.pageProt = q.prot := by
  have hprev := fun v => joinsPrev_unmap (E := E) (v := v) hso hav hlt
  have hnext := fun v => joinsNext_unmap (E := E) (v := v) hso hav hlt ha he
  have hprot : ∀ {r r' : VmRegion}, r.attrs = r'.attrs → r.pageProt = r'.pageProt := fun h =>
    congrArg PageAttrs.prot h
  constructor
  · rintro h r hr (hj | hj)
    · obtain ⟨r', hr', hlo, hhi, hcan, heq⟩ := (hprev _).mp ⟨r, hr, hj, rfl⟩
      exact (hprot heq).symm.trans (h.prev r' hr' hlo hhi hcan)
    · obtain ⟨r', hr', hlo, hhi, hcan, heq⟩ := (hnext _).mp ⟨r, hr, hj, rfl⟩
      exact (hprot heq).symm.trans (h.next r' hr' hlo hhi hcan)
  · intro h
    refine ⟨fun r hr hlo hhi hcan => ?_, fun r hr hlo hhi hcan => ?_⟩
    · obtain ⟨r', hr', hj, heq⟩ := (hprev _).mpr ⟨r, hr, hlo, hhi, hcan, rfl⟩
      exact (hprot heq).symm.trans (h r' hr' (Or.inl hj))
    · obtain ⟨r', hr', hj, heq⟩ := (hnext _).mpr ⟨r, hr, hlo, hhi, hcan, rfl⟩
      exact (hprot heq).symm.trans (h r' hr' (Or.inr hj))

/-- A region that joins a request agrees with it in everything but the protection. -/
theorem attrs_of_joins {r : VmRegion} (h : q.joinsPrev r = true ∨ q.joinsNext r = true) :
    r.attrs = { q.attrs with prot := r.pageProt } := by
  have hcan : vmaCanMerge r q.fileInfo q.flags = true := by
    rcases h with h | h
    · simp only [Request.joinsPrev, canVmaMergeAfter, Bool.and_eq_true] at h
      exact h.2.1
    · simp only [Request.joinsNext, canVmaMergeBefore, Bool.and_eq_true] at h
      exact h.2.1
  obtain ⟨h1, h2, h3⟩ := vmaCanMerge_iff.mp hcan
  rw [Request.attrs, ← h1, ← h2, ← h3]
  rfl

/-- A placed request overrides its range exactly when the regions it is joined to have
its protection. -/
theorem place_exact_iff (hs : Sorted A.regions) (hlt : q.addr < q.end')
    (hfree : ∀ x ∈ A.areas, x.2.endAddr ≤ q.addr ∨ q.end' ≤ x.2.startAddr) :
    (∀ a, view (fun r _ => r.attrs) (A.place E q).regions a =
      if q.addr ≤ a ∧ a < q.end' then some q.attrs
      else view (fun r _ => r.attrs) A.regions a) ↔
    ∀ r ∈ A.regions, (q.joinsPrev r = true ∨ q.joinsNext r = true) → r.pageProt = q.prot := by
  obtain ⟨l₁, m, l₂, x, hpl⟩ := placedIn_place E hs hlt hfree
  have hmem : ∀ {y}, y ∈ m → y.2 ∈ A.regions := fun hy =>
    List.mem_map_of_mem ((hpl.joined _).mp hy).1
  have hjoins : ∀ {y}, y ∈ m → y.2.attrs = { q.attrs with prot := y.2.pageProt } := fun hy =>
    attrs_of_joins ((hpl.joined _).mp hy).2
  have hx : x.2 ∈ (A.place E q).regions := by rw [Space.regions, hpl.new]; simp
  have hsB := hpl.sorted hs
  constructor
  · intro h r hr hj
    obtain ⟨y, hy, rfl⟩ := List.mem_map.mp hr
    have hym : y ∈ m := (hpl.joined y).mpr ⟨hy, hj⟩
    -- the merged region has the requested attributes at the start of the range
    have hxq : x.2.attrs = q.attrs := by
      have := h q.addr
      rw [if_pos ⟨BitVec.le_refl _, hlt⟩, view_of_mem hsB hx
        ((hpl.covers _).mpr (Or.inr ⟨BitVec.le_refl _, hlt⟩))] at this
      exact Option.some.inj this
    -- and the ones of the joined region at the start of that
    have hyc : y.2.Covers y.2.startAddr := ⟨BitVec.le_refl _, hs.lt y.2 hr⟩
    have hout : ¬ (q.addr ≤ y.2.startAddr ∧ y.2.startAddr < q.end') := by
      have := hfree y hy
      have := hs.lt y.2 hr
      bv_omega
    have hxy : x.2.attrs = y.2.attrs := by
      have := h y.2.startAddr
      rw [if_neg hout, view_of_mem hsB hx ((hpl.covers _).mpr (Or.inl ⟨y, hym, hyc⟩)),
        view_of_mem hs hr hyc] at this
      exact Option.some.inj this
    exact congrArg PageAttrs.prot (hxy.symm.trans hxq)
  · intro h
    have hall : ∀ y ∈ m, y.2.attrs = q.attrs := by
      intro y hy
      rw [hjoins hy, h y.2 (hmem hy) ((hpl.joined y).mp hy).2]
      rfl
    have hxq : x.2.attrs = q.attrs := by
      rcases hpl.source with ⟨hx, -⟩ | ⟨y, hy, hxy⟩
      · exact hx
      · rw [hxy, hall y hy]
    intro a
    rw [view_placed hpl hs (fun y hy _ _ => by rw [hxq, hall y hy]), hxq]

end Unmapped

/-- **When `mmap_region` is exact override.**  On every valid store and every range inside
the bounds it succeeds; it then gives the requested attributes to exactly the pages of the
range if and only if the VMAs it merges the range with have the requested protection. -/
theorem mmapRegion_exact_iff (F : E.toNodeHeap.Fresh) (s : St σ η) (hs : Valid s)
    (ho : NodesOwned F s) (hav : 3 ≤ F.avail s.heap) (fileInfo : Option VmFile)
    (addr length flags prot offset : U64) (hop : InBounds s.glob.kernelMinAddress addr length) :
    ∃ vma t, mmapRegion E fileInfo addr length flags prot offset s = some (addr, vma, t) ∧
      ((∀ a, t.attrsAt a = if addr ≤ a ∧ a < addr + length then
            some (mmapRequest fileInfo addr length flags prot offset).attrs else s.attrsAt a) ↔
        (mmapRequest fileInfo addr length flags prot offset).ProtAgrees s.regions) := by
  generalize hq : mmapRequest fileInfo addr length flags prot offset = q
  have hop' : InBounds s.glob.kernelMinAddress q.addr q.length := by rw [← hq]; exact hop
  obtain ⟨a, hh, hg, hso⟩ := hs.step F ho rfl
  have hav' : 3 ≤ F.avail s.space.heap := hav
  obtain ⟨t, b, hrun, -, hcar⟩ := mmapRegion_spec (q := q) fileInfo F hh hso hav'
    (InBounds.request hop') (by rw [← hq]; rfl)
  obtain ⟨hso', hav''⟩ := hso.unmap q.addr q.end' (by omega)
  have hfree := free_unmap hso q.addr q.end' (by omega)
  have hmap := (hso.map (q := q) hop'.lt hav').1
  obtain ⟨-, -, -, hregions⟩ := hcar.holds.wellFormed hmap.sorted (hcar.gaps hg)
  refine ⟨(s.space.unmap E q.addr q.end').placedNode E q, t, ?_, ?_⟩
  · rw [← hq] at hrun ⊢
    exact hrun
  have he : q.end'.toNat % 4096 = 0 := by
    have h1 := hop'.addr_align
    have h2 := hop'.length_align
    have h3 := hop'.le
    have h4 := s.glob.kernelMinAddress.isLt
    rw [Request.end', BitVec.toNat_add]
    omega
  have hview := (view_unmap (P := fun _ => True) (splitStable_attrs E q.addr)
    (splitStable_attrs E q.end') hso (by omega) fun _ _ => trivial).1
  rw [← St.space_regions, protAgrees_iff_unmap (E := E) hso (by omega) hop'.lt hop'.addr_align he,
    ← place_exact_iff (E := E) hso'.sorted hop'.lt hfree]
  have hbounds : q.addr = addr ∧ q.end' = addr + length := by rw [← hq]; exact ⟨rfl, rfl⟩
  refine forall_congr' fun x => ?_
  rw [St.attrsAt, St.attrsAt, St.view, St.view, hregions, ← hbounds.2, ← hbounds.1]
  rw [show s.space.map E q = (s.space.unmap E q.addr q.end').place E q from rfl, hview,
    St.space_regions]
  by_cases hin : q.addr ≤ x ∧ x < q.end'
  · rw [if_pos hin, if_pos hin]
  · rw [if_neg hin, if_neg hin, if_neg hin]

/-- The range in front of the VMA of the small machine is mapped with its protection. -/
theorem mmapRegion_exact_iff_oneVma :
    ∃ vma t, mmapRegion quietEnv none 0#64 0x1000#64 0#64 vmaRead 0#64 (oneVmaStore .black) =
        some (0#64, vma, t) ∧
      ∀ a, t.attrsAt a = if 0#64 ≤ a ∧ a < 0#64 + 0x1000#64 then
        some (mmapRequest none 0#64 0x1000#64 0#64 vmaRead 0#64).attrs
        else (oneVmaStore .black).attrsAt a := by
  obtain ⟨vma, t, hrun, hiff⟩ := mmapRegion_exact_iff (E := quietEnv) bumpFresh
    (oneVmaStore .black) valid_oneVmaStore (nodesOwned_oneVmaStore .black) (by decide +kernel) none
    0#64 0x1000#64 0#64 vmaRead 0#64 ⟨by decide, by decide, by decide, by decide⟩
  refine ⟨vma, t, hrun, hiff.mpr ⟨fun r hr _ _ _ => ?_, fun r hr _ _ _ => ?_⟩⟩ <;>
    · rw [St.regions, nodes_oneVmaStore] at hr
      obtain rfl := List.mem_singleton.mp hr
      decide +kernel

/-- A writable page mapped behind a readable VMA is merged into it and is not writable. -/
theorem mmapRegion_drops_prot :
    ∃ vma t, mmapRegion quietEnv none 0x5000#64 0x1000#64 0#64 (vmaRead ||| vmaWrite) 0#64
        (oneVmaStore .black) = some (0x5000#64, vma, t) ∧
      t.attrsAt 0x5000#64 = some { prot := vmaRead, flags := 0#64, dev := -1#64, inode := -1#64 } ∧
      vmaRead ≠ vmaRead ||| vmaWrite := by
  have hrun : (mmapRegion quietEnv none 0x5000#64 0x1000#64 0#64 (vmaRead ||| vmaWrite) 0#64
      (oneVmaStore .black)).map (fun x => (x.1, x.2.2.attrsAt 0x5000#64)) =
      some (0x5000#64,
        some { prot := vmaRead, flags := 0#64, dev := -1#64, inode := -1#64 }) := by
    decide +kernel
  obtain ⟨⟨addr, vma, t⟩, heq, hpair⟩ := Option.map_eq_some_iff.mp hrun
  obtain ⟨rfl, hattrs⟩ := Prod.mk.inj hpair
  exact ⟨vma, t, heq, hattrs, by decide⟩

end BufferVM
