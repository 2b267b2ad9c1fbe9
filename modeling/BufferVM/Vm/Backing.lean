/-
  Vm/Backing.lean --- VMAs and the memory behind them.

  A VMA is held by the machine when the host's record of it is up to date, its frames hold
  no table, and the entry of each of its pages, where there is one, points at its own frame
  with the flags of the VMA.  It is backed when no entry is missing.  Mapping a VMA makes
  it backed, and neither mapping nor unmapping one touches another.
-/
import BufferVM.Vm.HostMap
import BufferVM.Vm.PageMap

set_option autoImplicit false

namespace BufferVM

variable {ω : Type} {vm vm' : Vm} {r x : VmRegion}

/-! ## Held and backed -/

/-- The host's record of a VMA is up to date, and its frames hold no table. -/
structure VmRegion.Placed (vm : Vm) (r : VmRegion) : Prop where
  inTables : r.InTables
  oldStart : r.oldStartAddr = r.startAddr
  oldEnd : r.oldEndAddr = r.endAddr
  phys : r.physPageStart = frameAddr r.frame
  physEnd : r.physPageEnd = frameAddr (r.frame + (r.last - r.first))
  data : ∀ i, i < r.last - r.first → vm.IsData (r.frame + i)

/-- The entry that a page of a VMA should have. -/
def VmRegion.entryOf (r : VmRegion) (k : Nat) : U64 :=
  leafEntry (vmaProtToPg r.pageProt) (frameAddr (r.frame + (k - r.first)))

/-- Every entry of a VMA's pages is its own; none is missing when `whole` holds. -/
structure VmRegion.Held (whole : Prop) (vm : Vm) (r : VmRegion) : Prop extends r.Placed vm where
  entries : ∀ k e, r.first ≤ k → k < r.last → vm.leaf k = some e → e = r.entryOf k
  present : whole → ∀ k, r.first ≤ k → k < r.last → vm.leaf k ≠ none

/-- The VMA covers a page. -/
def VmRegion.HasPage (r : VmRegion) (j : Nat) : Prop := r.first ≤ j ∧ j < r.last

/-- The pages of two VMAs are apart. -/
def VmRegion.Apart (r x : VmRegion) : Prop := x.last ≤ r.first ∨ r.last ≤ x.first

/-! ## Other VMAs -/

theorem VmRegion.Placed.keep (h : x.Placed vm) (hk : vm.KeepsData vm') : x.Placed vm' :=
  ⟨h.inTables, h.oldStart, h.oldEnd, h.phys, h.physEnd, fun i hi => hk _ (h.data i hi)⟩

/-- A VMA whose entries have not changed is still held. -/
theorem VmRegion.Held.keep {whole : Prop} (h : x.Held whole vm) (hk : vm.KeepsData vm')
    (hleaf : ∀ k, x.first ≤ k → k < x.last → vm'.leaf k = vm.leaf k) : x.Held whole vm' := by
  refine ⟨h.toPlaced.keep hk, fun k e h1 h2 he => ?_, fun hw k h1 h2 => ?_⟩
  · rw [hleaf k h1 h2] at he
    exact h.entries k e h1 h2 he
  · rw [hleaf k h1 h2]
    exact h.present hw k h1 h2

theorem VmRegion.Held.mapsVma {whole : Prop} (h : x.Held whole vm) (hmap : vm.MapsVma vm' r)
    (hap : r.Apart x) : x.Held whole vm' := by
  refine h.keep hmap.keepsData fun k h1 h2 => ?_
  have hle := h.inTables.le
  rw [hmap.leaf k (by omega), if_neg]
  rcases hap with hap | hap
  · omega
  · omega

/-- A VMA without all of its entries. -/
theorem VmRegion.Held.weaken {whole : Prop} (h : x.Held whole vm) : x.Held False vm :=
  ⟨h.toPlaced, h.entries, fun hf => hf.elim⟩

/-! ## The VMA that is mapped -/

theorem frame_mapped {newPhys : U64} : (r.mapped (r.mapFields newPhys)).frame =
    frameOf newPhys := rfl

/-- A VMA that has been mapped is backed. -/
theorem VmRegion.InTables.held_mapped (hr : r.InTables) (hp : vm.Paged)
    (hb : vm.pageCounter ≤ maxFrames) (hmap : vm.MapsVma vm' r) (whole : Prop) :
    (r.mapped (r.mapFields (frameAddr vm.pageCounter))).Held whole vm' := by
  rw [maxFrames] at hb
  have hframe : (r.mapped (r.mapFields (frameAddr vm.pageCounter))).frame = vm.pageCounter := by
    rw [frame_mapped, frameOf_frameAddr (by omega)]
  have hle := hr.le
  refine ⟨⟨⟨hr.start, hr.limit, hr.lt, hr.le⟩, rfl, rfl, ?_, ?_, fun i hi => ?_⟩,
    fun k e h1 h2 he => ?_, fun _ k h1 h2 => ?_⟩
  · rw [hframe]
    rfl
  · rw [hframe]
    show frameAddr vm.pageCounter + r.pages * pageSize = _
    rw [hr.pages_mul, frameAddr_add]
    rfl
  · rw [hframe]
    exact hmap.isData_new hp hi
  · have h1' : r.first ≤ k := h1
    have h2' : k < r.last := h2
    rw [hmap.leaf k (by omega), if_pos ⟨h1', h2'⟩] at he
    rw [VmRegion.entryOf, hframe]
    exact (Option.some.inj he).symm
  · have h1' : r.first ≤ k := h1
    have h2' : k < r.last := h2
    rw [hmap.leaf k (by omega), if_pos ⟨h1', h2'⟩]
    simp

/-! ## A VMA with other bounds -/

/-- The VMA with other bounds, as the kernel hands it to the host. -/
structure VmRegion.Reshapes (r k : VmRegion) : Prop where
  inTables : k.InTables
  prot : k.pageProt = r.pageProt
  phys : k.physPageStart = r.physPageStart
  physEnd : k.physPageEnd = r.physPageEnd
  oldStart : k.oldStartAddr = r.oldStartAddr
  oldEnd : k.oldEndAddr = r.oldEndAddr
  anonymous : r.fileInfo.fd = noFd → k.fileInfo.fd = noFd
  dev : k.fileInfo.dev = r.fileInfo.dev
  inode : k.fileInfo.inode = r.fileInfo.inode
  front : k.first < r.last
  back : r.first < k.last

variable {k : VmRegion}

theorem VmRegion.Placed.known (h : r.Placed vm) (hk : r.Reshapes k) : k.Known vm := by
  have hframe : k.frame = r.frame := congrArg frameOf hk.phys
  have hfirst : k.oldFirst = r.first := congrArg frameOf (hk.oldStart.trans h.oldStart)
  have hlast : k.oldLast = r.last := congrArg frameOf (hk.oldEnd.trans h.oldEnd)
  refine ⟨?_, ?_, ?_, ?_, ?_, ?_, ?_, ?_, fun i hi => ?_⟩
  · rw [hk.oldStart, h.oldStart]
    exact h.inTables.start
  · rw [hk.oldEnd, h.oldEnd]
    exact h.inTables.limit
  · rw [hfirst, hlast]
    exact h.inTables.lt
  · rw [hlast]
    exact h.inTables.le
  · rw [hk.phys, hframe]
    exact h.phys
  · rw [hk.physEnd, hframe, hlast, hfirst]
    exact h.physEnd
  · rw [hlast]
    exact hk.front
  · rw [hfirst]
    exact hk.back
  · rw [hframe]
    rw [hfirst, hlast] at hi
    exact h.data i hi

theorem VmRegion.Placed.phys_ne (h : r.Placed vm) : r.physPageStart ≠ -1#64 := by
  rw [h.phys]
  exact frameAddr_ne_neg_one _

/-- Bounds that have not changed. -/
theorem VmRegion.Reshapes.bounds_eq (h : r.Placed vm) (hk : r.Reshapes k) (hn : ¬ k.NeedsMap) :
    k.startAddr = r.startAddr ∧ k.endAddr = r.endAddr := by
  have hc : ¬ k.Changed := fun hc => hn (Or.inr hc)
  simp only [VmRegion.Changed, not_or, ne_eq, not_not] at hc
  exact ⟨hc.1.symm.trans (hk.oldStart.trans h.oldStart), hc.2.symm.trans (hk.oldEnd.trans h.oldEnd)⟩

/-! ## The host's calls -/

variable {O : HostOs ω} {h : Host ω} {whole : Prop}

theorem le_pageCounter_mapVmaPages (vm : Vm) (r : VmRegion) :
    vm.pageCounter ≤ (vm.mapVmaPages r).pageCounter := by
  have hle := le_pageCounter_mapRange (vmaProtToPg r.pageProt) false (r.last - r.first) r.startAddr
    (frameAddr vm.pageCounter) { vm with pageCounter := vm.pageCounter + (r.last - r.first) }
  exact (Nat.le_add_right _ _).trans hle

theorem le_pageCounter_kernelMapVma (hr : r.InTables) :
    h.vm.pageCounter ≤ (h.kernelMapVma O r).1.vm.pageCounter := by
  by_cases hn : r.NeedsMap
  · rw [pageCounter_kernelMapVma hr hn]
    exact le_pageCounter_mapVmaPages _ _
  · rw [kernelMapVma_unchanged hn]

/-- `kernel_map_vma` on a VMA without memory. -/
theorem held_kernelMapVma_fresh (whole : Prop) (hp : h.vm.Paged) (hr : r.InTables)
    (hphys : r.physPageStart = -1#64)
    (hb : (h.kernelMapVma O r).1.vm.pageCounter ≤ maxFrames) :
    (h.kernelMapVma O r).1.vm.Paged ∧
      (r.mapped (h.kernelMapVma O r).2).Held whole (h.kernelMapVma O r).1.vm ∧
      ∀ x : VmRegion, r.Apart x → x.Held whole h.vm → x.Held whole (h.kernelMapVma O r).1.vm := by
  obtain ⟨hmap, hfields⟩ := kernelMapVma_spec hp hr (Or.inl hphys)
    (fun hm => absurd hphys hm.1) hb
  have hle := (le_pageCounter_kernelMapVma hr).trans hb
  refine ⟨hmap.paged, ?_, fun x hap hx => hx.mapsVma hmap hap⟩
  rw [hfields]
  exact hr.held_mapped hp hle hmap whole

/-- `kernel_map_vma` on a VMA that has got other bounds. -/
theorem held_kernelMapVma_changed (whole : Prop) (hp : h.vm.Paged) (hr : r.Placed h.vm)
    (hk : r.Reshapes k)
    (hn : k.NeedsMap) (hb : (h.kernelMapVma O k).1.vm.pageCounter ≤ maxFrames) :
    (h.kernelMapVma O k).1.vm.Paged ∧
      (k.mapped (h.kernelMapVma O k).2).Held whole (h.kernelMapVma O k).1.vm ∧
      h.vm.KeepsData (h.kernelMapVma O k).1.vm ∧
      ∀ x : VmRegion, k.Apart x → x.Held whole h.vm → x.Held whole (h.kernelMapVma O k).1.vm := by
  obtain ⟨hmap, hfields⟩ := kernelMapVma_spec hp hk.inTables hn (fun _ => hr.known hk) hb
  have hle := (le_pageCounter_kernelMapVma hk.inTables).trans hb
  refine ⟨hmap.paged, ?_, hmap.keepsData, fun x hap hx => hx.mapsVma hmap hap⟩
  rw [hfields]
  exact hk.inTables.held_mapped hp hle hmap whole

/-- A VMA with the bounds it had is held as it was. -/
theorem VmRegion.Held.unchanged (hr : r.Held whole vm) (hk : r.Reshapes k) (hn : ¬ k.NeedsMap) :
    (k.mapped k.unmoved).Held whole vm := by
  obtain ⟨hstart, hend⟩ := hk.bounds_eq hr.toPlaced hn
  have hfirst : k.first = r.first := congrArg frameOf hstart
  have hlast : k.last = r.last := congrArg frameOf hend
  have hframe : k.frame = r.frame := congrArg frameOf hk.phys
  have hpl := hr.toPlaced
  refine ⟨⟨⟨hk.inTables.start, hk.inTables.limit, hk.inTables.lt, hk.inTables.le⟩, ?_, ?_, ?_,
    ?_, fun i hi => ?_⟩, fun j e h1 h2 he => ?_, fun hw j h1 h2 => ?_⟩
  · exact hk.oldStart.trans (hpl.oldStart.trans hstart.symm)
  · exact hk.oldEnd.trans (hpl.oldEnd.trans hend.symm)
  · exact hk.phys.trans (hpl.phys.trans (congrArg frameAddr hframe.symm))
  · show k.physPageEnd = frameAddr (k.frame + (k.last - k.first))
    rw [hframe, hlast, hfirst]
    exact hk.physEnd.trans hpl.physEnd
  · have hi' : i < k.last - k.first := hi
    rw [hlast, hfirst] at hi'
    show vm.IsData (k.frame + i)
    rw [hframe]
    exact hpl.data i hi'
  · have h1' : k.first ≤ j := h1
    have h2' : j < k.last := h2
    rw [hfirst] at h1'
    rw [hlast] at h2'
    have heq := hr.entries j e h1' h2' he
    show e = leafEntry (vmaProtToPg k.pageProt) (frameAddr (k.frame + (j - k.first)))
    rw [hk.prot, hframe, hfirst]
    exact heq
  · exact hr.present hw j (hfirst ▸ h1) (hlast ▸ h2)

/-- `kernel_map_vma` on a VMA that may have got other bounds. -/
theorem held_kernelMapVma (hp : h.vm.Paged) (hr : r.Held whole h.vm) (hk : r.Reshapes k)
    (hb : (h.kernelMapVma O k).1.vm.pageCounter ≤ maxFrames) :
    (h.kernelMapVma O k).1.vm.Paged ∧
      (k.mapped (h.kernelMapVma O k).2).Held whole (h.kernelMapVma O k).1.vm ∧
      h.vm.KeepsData (h.kernelMapVma O k).1.vm ∧
      ∀ x : VmRegion, k.Apart x → x.Held whole h.vm → x.Held whole (h.kernelMapVma O k).1.vm := by
  by_cases hn : k.NeedsMap
  · exact held_kernelMapVma_changed whole hp hr.toPlaced hk hn hb
  · rw [kernelMapVma_unchanged hn]
    exact ⟨hp, hr.unchanged hk hn, fun f hf => hf, fun x _ hx => hx⟩

/-- `kernel_unmap_vma` on a VMA that the machine holds. -/
theorem kernelUnmapVma_spec (hp : h.vm.Paged) (hr : r.Placed h.vm)
    (hb : (h.kernelUnmapVma r).vm.pageCounter ≤ maxFrames) :
    (h.kernelUnmapVma r).vm.Paged ∧ h.vm.KeepsData (h.kernelUnmapVma r).vm ∧
      (∀ k, k < 2 ^ 27 → (h.kernelUnmapVma r).vm.leaf k =
        if r.first ≤ k ∧ k < r.last then none else h.vm.leaf k) ∧
      ∀ f, ¬ (h.kernelUnmapVma r).vm.IsTable f →
        (h.kernelUnmapVma r).vm.mem f = h.vm.mem f := by
  have hcount : (pageDifference r.oldEndAddr r.oldStartAddr).toNat = r.last - r.first := by
    rw [hr.oldStart, hr.oldEnd]
    exact hr.inTables.toNat_pages
  have hrun : (h.kernelUnmapVma r).vm = unmapRange (r.last - r.first) r.startAddr h.vm := by
    rw [Host.kernelUnmapVma, if_pos hr.phys_ne, hcount, hr.oldStart]
  rw [hrun] at hb ⊢
  have hspec := unmapRange_spec hp (r.last - r.first) r.startAddr hb
  have hlt := hr.inTables.lt
  have hle := hr.inTables.le
  refine ⟨hspec.paged, Vm.Updates.keepsData hspec, fun k hk => ?_, hspec.mem⟩
  rw [Vm.leaf, hspec.pte, hr.inTables.startAddr_eq, updatedEntry_unmap _ _ _ hk (by omega), Vm.leaf]
  have hadd : r.first + (r.last - r.first) = r.last := by omega
  rw [hadd]

/-- Another VMA is held after `kernel_unmap_vma`, and one that is not, for what is left of
it. -/
theorem held_kernelUnmapVma (hp : h.vm.Paged) (hr : r.Placed h.vm)
    (hb : (h.kernelUnmapVma r).vm.pageCounter ≤ maxFrames) (hx : x.Held whole h.vm)
    (hap : whole → r.Apart x) : x.Held whole (h.kernelUnmapVma r).vm := by
  obtain ⟨-, hkeep, hleaf, -⟩ := kernelUnmapVma_spec hp hr hb
  have hle := hx.inTables.le
  refine ⟨hx.toPlaced.keep hkeep, fun k e h1 h2 he => ?_, fun hw k h1 h2 => ?_⟩
  · rw [hleaf k (by omega)] at he
    split at he
    · exact absurd he (by simp)
    · exact hx.entries k e h1 h2 he
  · rw [hleaf k (by omega), if_neg]
    · exact hx.present hw k h1 h2
    · rcases hap hw with hap | hap
      · omega
      · omega

theorem le_pageCounter_kernelUnmapVma (h : Host ω) (r : VmRegion) :
    h.vm.pageCounter ≤ (h.kernelUnmapVma r).vm.pageCounter := by
  unfold Host.kernelUnmapVma
  split
  · exact le_pageCounter_unmapRange _ _ _
  · exact le_rfl

/-! ## Translation -/

theorem vmaProtToPg_flagBits (prot : U64) : vmaProtToPg prot &&& ~~~flagBits = 0#64 := by
  unfold vmaProtToPg transferFlag transferInvFlag
  rw [or_and_distrib, or_and_distrib, or_and_distrib]
  split <;> split <;> split <;> split <;> decide

/-- An address on a page of a VMA that is backed translates to the frame of the page. -/
theorem VmRegion.Held.getPhysAddr (h : r.Held True vm) (hp : vm.Paged)
    (hb : vm.pageCounter ≤ maxFrames) {v : U64} (hv : r.HasPage (pageNumber v)) :
    BufferVM.getPhysAddr v vm = some (frameAddr (r.frame + (pageNumber v - r.first)) +
      (getVirtAddrInfo v).physOffset) := by
  have h1 := hv.1
  have h2 := hv.2
  have hdata := (h.data (pageNumber v - r.first) (by omega)).lt
  rw [maxFrames] at hb
  obtain ⟨e, he⟩ := Option.ne_none_iff_exists'.mp (h.present trivial (pageNumber v) h1 h2)
  have hframe : PhysPage (frameAddr (r.frame + (pageNumber v - r.first))) := by
    refine ⟨pageAligned_frameAddr _, ?_⟩
    rw [toNat_frameAddr (by omega)]
    omega
  rw [getPhysAddr_eq hp, Vm.pte_eq_leaf, he, Option.map_some, h.entries (pageNumber v) e h1 h2 he,
    VmRegion.entryOf, leafEntry_and_entryMask (vmaProtToPg_flagBits _) hframe]

/-- The host's record of a VMA is up to date, and its pages are present and in a row. -/
structure VmRegion.Consistent (vm : Vm) (r : VmRegion) : Prop where
  oldStart : r.oldStartAddr = r.startAddr
  oldEnd : r.oldEndAddr = r.endAddr
  translates : ∀ i, i < r.pages.toNat →
    BufferVM.getPhysAddr (r.startAddr + BitVec.ofNat 64 i * pageSize) vm =
      some (r.physPageStart + BitVec.ofNat 64 i * pageSize)

theorem ofNat_mul_pageSize (i : Nat) : BitVec.ofNat 64 i * pageSize = frameAddr i := by
  apply BitVec.eq_of_toNat_eq
  rw [BitVec.toNat_mul, frameAddr, BitVec.toNat_ofNat, BitVec.toNat_ofNat]
  show i % 2 ^ 64 * 4096 % 2 ^ 64 = _
  omega

/-- The pages of a VMA, as addresses. -/
theorem VmRegion.InTables.pageNumber_page (hr : r.InTables) {i : Nat} (hi : i < r.pages.toNat) :
    pageNumber (r.startAddr + BitVec.ofNat 64 i * pageSize) = r.first + i := by
  rw [hr.toNat_pages] at hi
  have hle := hr.le
  rw [ofNat_mul_pageSize, hr.startAddr_eq, frameAddr_add, pageNumber_frameAddr (by omega)]

/-- A VMA that is backed is consistent. -/
theorem VmRegion.Held.consistent (h : r.Held True vm) (hp : vm.Paged)
    (hb : vm.pageCounter ≤ maxFrames) : r.Consistent vm := by
  refine ⟨h.oldStart, h.oldEnd, fun i hi => ?_⟩
  have hpage := h.inTables.pageNumber_page hi
  rw [h.inTables.toNat_pages] at hi
  have hoff : (getVirtAddrInfo (r.startAddr + BitVec.ofNat 64 i * pageSize)).physOffset = 0#64 := by
    apply BitVec.eq_of_toNat_eq
    rw [toNat_physOffset, ofNat_mul_pageSize, h.inTables.startAddr_eq, frameAddr_add]
    exact pageAligned_frameAddr _
  rw [h.getPhysAddr hp hb (by rw [hpage]; exact ⟨by omega, by omega⟩), hpage, hoff, h.phys,
    ofNat_mul_pageSize, frameAddr_add, Nat.add_sub_cancel_left]
  simp

/-- A VMA whose entries have not changed is still consistent. -/
theorem VmRegion.Consistent.keep (h : r.Consistent vm) (hr : r.InTables) (hp : vm.Paged)
    (hp' : vm'.Paged) (hleaf : ∀ j, r.HasPage j → vm'.leaf j = vm.leaf j) : r.Consistent vm' := by
  refine ⟨h.oldStart, h.oldEnd, fun i hi => ?_⟩
  have hpage := hr.pageNumber_page hi
  have hold := h.translates i hi
  rw [hr.toNat_pages] at hi
  rw [getPhysAddr_eq hp, Vm.pte_eq_leaf, hpage] at hold
  rw [getPhysAddr_eq hp', Vm.pte_eq_leaf, hpage, hleaf _ ⟨by omega, by omega⟩]
  exact hold

end BufferVM
