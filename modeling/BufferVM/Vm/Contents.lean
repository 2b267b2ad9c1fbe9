/-
  Vm/Contents.lean --- what the pages of a VMA hold.

  `kernel_map_vma` gives a VMA new frames.  The frames of an anonymous VMA take over what
  the old ones held, as far as the old and the new range have pages in common, and are
  zero elsewhere; the frames of a file VMA hold what `mmap` put there, whatever the old
  ones held.  No other frame that holds data changes.
-/
import BufferVM.Vm.Backing

set_option autoImplicit false

namespace BufferVM

variable {ω : Type} {vm vm' : Vm} {r x k : VmRegion} {O : HostOs ω} {h : Host ω}

/-! ## `kernel_map_vma` -/

/-- The contents of a page that has never been handed out. -/
def zeroPage : U64 → U64 := fun _ => 0#64

theorem Vm.Fresh.eq_zeroPage (hf : vm.Fresh) {f : Nat} (hle : vm.pageCounter ≤ f) :
    vm.mem f = zeroPage := funext fun i => hf f i hle

/-- A frame that `kernel_map_vma` moves away. -/
def VmRegion.Takes (r : VmRegion) (f : Nat) : Prop :=
  r.Moves ∧ r.frame + (r.keptFirst - r.oldFirst) ≤ f ∧ f < r.frame + (r.keptLast - r.oldFirst)

/-- What `kernel_map_vma` does to the memory when it has to map. -/
structure Vm.MovesVma (vm vm' : Vm) (r : VmRegion) : Prop where
  fresh : vm.Fresh → vm'.Fresh
  keep : ∀ f, vm.IsData f → ¬ r.Takes f → vm'.mem f = vm.mem f
  moved : r.Moves → ∀ j, r.keptFirst ≤ j → j < r.keptLast →
    vm'.mem (vm.pageCounter + (j - r.first)) = vm.mem (r.frame + (j - r.oldFirst))
  blank : vm.Fresh → r.fileInfo.fd = noFd → ∀ j, r.first ≤ j → j < r.last →
    ¬ (r.Moves ∧ r.keptFirst ≤ j ∧ j < r.keptLast) →
    vm'.mem (vm.pageCounter + (j - r.first)) = zeroPage

/-- The memory after the tables have been changed and nothing has been moved. -/
structure Vm.KeepsMem (vm vm' : Vm) (r : VmRegion) : Prop where
  le : vm.pageCounter + (r.last - r.first) ≤ vm'.pageCounter
  data : ∀ f, vm.IsData f → vm'.mem f = vm.mem f
  new : ∀ i, i < r.last - r.first → vm'.mem (vm.pageCounter + i) = vm.mem (vm.pageCounter + i)
  free : ∀ f, vm'.pageCounter ≤ f → vm'.mem f = vm.mem f

theorem keepsMem_mapVmaPages (hp : vm.Paged) (hr : r.InTables)
    (hb : (vm.mapVmaPages r).pageCounter ≤ maxFrames) : vm.KeepsMem (vm.mapVmaPages r) r := by
  obtain ⟨hmap, hmem⟩ := mapVmaPages_spec hp hr hb
  refine ⟨hmap.le, fun f hf => hmem f (hmap.keepsData f hf).notTable,
    fun i hi => hmem _ (hmap.isData_new hp hi).notTable, fun f hf => hmem f fun ht => ?_⟩
  have hlt := hmap.paged.isTable_lt ht
  omega

/-- An anonymous VMA that has got other bounds. -/
theorem movesVma_resized (hr : r.InTables) (hk : r.Known vm) (hm : r.Moves)
    (hkeep : vm.KeepsMem (vm.mapVmaPages r) r) : vm.MovesVma (vm.resized O r) r := by
  have hlt := hr.lt
  have hle := hkeep.le
  have hfront := hk.front
  have hback := hk.back
  have hkf : r.keptFirst = max r.first r.oldFirst := rfl
  have hkl : r.keptLast = min r.last r.oldLast := rfl
  have hsrc : r.frame + (r.oldLast - r.oldFirst) ≤ vm.pageCounter := by
    have := hk.lt
    have := (hk.data (r.oldLast - r.oldFirst - 1) (by omega)).lt
    omega
  have hcount : (vm.resized O r).pageCounter = (vm.mapVmaPages r).pageCounter := rfl
  have hmem : ∀ f, (vm.resized O r).mem f =
      if vm.pageCounter + (r.keptFirst - r.first) ≤ f ∧
          f < vm.pageCounter + (r.keptFirst - r.first) + (r.keptLast - r.keptFirst) then
        (vm.mapVmaPages r).mem (f - (vm.pageCounter + (r.keptFirst - r.first)) +
          (r.frame + (r.keptFirst - r.oldFirst)))
      else if r.frame + (r.keptFirst - r.oldFirst) ≤ f ∧
          f < r.frame + (r.keptFirst - r.oldFirst) + (r.keptLast - r.keptFirst) then O.hole f
      else (vm.mapVmaPages r).mem f := fun _ => rfl
  refine ⟨fun hf f i hfi => ?_, fun f hf hno => ?_, fun _ j h1 h2 => ?_, fun hf _ j h1 h2 hno => ?_⟩
  · rw [hcount] at hfi
    rw [hmem, if_neg (by omega), if_neg (by omega), hkeep.free f hfi]
    exact hf f i (by omega)
  · have hlt' := hf.lt
    rw [hmem, if_neg (by omega), if_neg, hkeep.data f hf]
    intro hin
    exact hno ⟨hm, hin.1, by omega⟩
  · rw [hmem, if_pos (by omega)]
    have hframe : vm.pageCounter + (j - r.first) - (vm.pageCounter + (r.keptFirst - r.first)) +
        (r.frame + (r.keptFirst - r.oldFirst)) = r.frame + (j - r.oldFirst) := by omega
    rw [hframe, hkeep.data _ (hk.data (j - r.oldFirst) (by omega))]
  · have hout : ¬ (r.keptFirst ≤ j ∧ j < r.keptLast) := fun hin => hno ⟨hm, hin⟩
    rw [hmem, if_neg (by omega), if_neg (by omega), hkeep.new (j - r.first) (by omega)]
    exact hf.eq_zeroPage (by omega)

/-- A VMA whose contents are not moved. -/
theorem movesVma_unmoved (hm : ¬ r.Moves) (hkeep : vm.KeepsMem vm' r) : vm.MovesVma vm' r := by
  have hle := hkeep.le
  refine ⟨fun hf f i hfi => ?_, fun f hf _ => hkeep.data f hf, fun hmoves => absurd hmoves hm,
    fun hf _ j h1 h2 _ => ?_⟩
  · rw [hkeep.free f hfi]
    exact hf f i (by omega)
  · rw [hkeep.new (j - r.first) (by omega)]
    exact hf.eq_zeroPage (by omega)

/-- A file VMA: its frames hold the file, and nothing else changes. -/
theorem movesVma_filled (hr : r.InTables) (hb : vm.pageCounter ≤ maxFrames)
    (hfd : r.fileInfo.fd ≠ noFd) (hkeep : vm.KeepsMem vm' r) (page : Nat → U64 → U64) :
    vm.MovesVma (vm'.filled (frameAddr vm.pageCounter) (r.pages * pageSize) page) r ∧
      ∀ j, r.first ≤ j → j < r.last →
        (vm'.filled (frameAddr vm.pageCounter) (r.pages * pageSize) page).mem
          (vm.pageCounter + (j - r.first)) = page (j - r.first) := by
  have hle := hkeep.le
  have hle' := hr.le
  have hlt := hr.lt
  rw [maxFrames] at hb
  have hin : ∀ f, InRange (frameAddr vm.pageCounter) (r.pages * pageSize) f ↔
      vm.pageCounter ≤ f ∧ f < vm.pageCounter + (r.last - r.first) := by
    intro f
    rw [hr.pages_mul, inRange_frameAddr (by omega) (by omega)]
  have hmem : ∀ f, (vm'.filled (frameAddr vm.pageCounter) (r.pages * pageSize) page).mem f =
      if vm.pageCounter ≤ f ∧ f < vm.pageCounter + (r.last - r.first) then
        page (f - vm.pageCounter) else vm'.mem f := by
    intro f
    rw [Vm.filled]
    simp only [hin, frameOf_frameAddr (show vm.pageCounter < 2 ^ 52 by omega)]
  have hcount : (vm'.filled (frameAddr vm.pageCounter) (r.pages * pageSize) page).pageCounter =
      vm'.pageCounter := rfl
  refine ⟨⟨fun hf f i hfi => ?_, fun f hf _ => ?_, fun hm => absurd hm.2.2 hfd,
    fun _ hfd' => absurd hfd' hfd⟩, fun j h1 h2 => ?_⟩
  · rw [hcount] at hfi
    rw [hmem, if_neg (by omega), hkeep.free f hfi]
    exact hf f i (by omega)
  · have := hf.lt
    rw [hmem, if_neg (by omega), hkeep.data f hf]
  · rw [hmem, if_pos (by omega)]
    congr 1
    omega

/-- **What `kernel_map_vma` does** to the memory when it has to map. -/
theorem kernelMapVma_contents (hp : h.vm.Paged) (hr : r.InTables) (hn : r.NeedsMap)
    (hk : r.Moves → r.Known h.vm) (hb : (h.kernelMapVma O r).1.vm.pageCounter ≤ maxFrames) :
    h.vm.MovesVma (h.kernelMapVma O r).1.vm r ∧
      (r.fileInfo.fd ≠ noFd → (h.kernelMapVma O r).1.stopped = false →
        ∃ page, O.mmap h.os (r.pages * pageSize) (vmaToProt r.pageProt)
            (vmaToFlags r.flags ||| mapFixed) r.fileInfo.fd r.pageOffset = some page ∧
          ∀ j, r.first ≤ j → j < r.last →
            (h.kernelMapVma O r).1.vm.mem (h.vm.pageCounter + (j - r.first)) =
              page (j - r.first)) := by
  have hb' := hb
  rw [pageCounter_kernelMapVma hr hn] at hb'
  have hkeep := keepsMem_mapVmaPages hp hr hb'
  have hle := hkeep.le
  have hbc : h.vm.pageCounter ≤ maxFrames := by omega
  by_cases hm : r.Moves
  · rw [kernelMapVma_moves hr hm (hk hm) hbc]
    exact ⟨movesVma_resized hr (hk hm) hm hkeep, fun hfd => absurd hm.2.2 hfd⟩
  · rw [kernelMapVma_needs hr hn]
    simp only [hm, if_false]
    by_cases hfd : r.fileInfo.fd = noFd
    · simp only [hfd, ne_eq, not_true_eq_false, if_false, false_implies, and_true]
      exact movesVma_unmoved hm hkeep
    · simp only [hfd, ne_eq, not_false_eq_true, if_true]
      unfold mapFile
      split
      · rename_i page hpage
        obtain ⟨hmoves, hfile⟩ := movesVma_filled hr hbc hfd hkeep page
        exact ⟨hmoves, fun _ _ => ⟨page, hpage, hfile⟩⟩
      · exact ⟨movesVma_unmoved hm hkeep, fun _ hstop => absurd hstop (by simp)⟩

/-! ## VMAs -/

/-- The memory of a page of a VMA. -/
def VmRegion.page (r : VmRegion) (vm : Vm) (j : Nat) : U64 → U64 := vm.mem (r.frame + (j - r.first))

/-- The frame is one of the VMA's. -/
def VmRegion.HasFrame (r : VmRegion) (f : Nat) : Prop :=
  r.frame ≤ f ∧ f < r.frame + (r.last - r.first)

/-- Two VMAs have no frame in common. -/
def VmRegion.FramesApart (r x : VmRegion) : Prop := ∀ f, r.HasFrame f → ¬ x.HasFrame f

theorem VmRegion.FramesApart.symm (h : r.FramesApart x) : x.FramesApart r :=
  fun f hx hr => h f hr hx

theorem VmRegion.HasPage.hasFrame {j : Nat} (h : r.HasPage j) :
    r.HasFrame (r.frame + (j - r.first)) := by
  have h1 := h.1
  have h2 := h.2
  exact ⟨by omega, by omega⟩

theorem VmRegion.Placed.isData (h : r.Placed vm) {f : Nat} (hf : r.HasFrame f) : vm.IsData f := by
  have h1 := hf.1
  have h2 := hf.2
  have hd := h.data (f - r.frame) (by omega)
  rwa [show r.frame + (f - r.frame) = f by omega] at hd

/-- What the mapping of a VMA with other bounds does to the contents of the VMAs. -/
structure Vm.Remaps (vm vm' : Vm) (r k k' : VmRegion) : Prop where
  fresh : vm.Fresh → vm'.Fresh
  others : ∀ x : VmRegion, x.Placed vm → x.FramesApart r → ∀ j, x.HasPage j →
    x.page vm' j = x.page vm j
  rest : ∀ j, r.HasPage j → ¬ k.HasPage j → r.page vm' j = r.page vm j
  moved : r.fileInfo.fd = noFd → ∀ j, r.HasPage j → k.HasPage j → k'.page vm' j = r.page vm j
  blank : vm.Fresh → k.fileInfo.fd = noFd → ∀ j, k.HasPage j → ¬ r.HasPage j →
    k'.page vm' j = zeroPage
  apart : ∀ x : VmRegion, x.Placed vm → x.FramesApart r ∨ k.NeedsMap → x.FramesApart k'

/-- The frames of a VMA that has just been mapped. -/
theorem hasFrame_mapped {c : Nat} (hc : c ≤ maxFrames) {f : Nat} :
    (k.mapped (k.mapFields (frameAddr c))).HasFrame f ↔ c ≤ f ∧ f < c + (k.last - k.first) := by
  rw [maxFrames] at hc
  have hframe : (k.mapped (k.mapFields (frameAddr c))).frame = c := by
    rw [frame_mapped, frameOf_frameAddr (by omega)]
  rw [VmRegion.HasFrame, hframe]
  rfl

theorem page_mapped {c : Nat} (hc : c ≤ maxFrames) (j : Nat) :
    (k.mapped (k.mapFields (frameAddr c))).page vm j = vm.mem (c + (j - k.first)) := by
  rw [maxFrames] at hc
  have hframe : (k.mapped (k.mapFields (frameAddr c))).frame = c := by
    rw [frame_mapped, frameOf_frameAddr (by omega)]
  rw [VmRegion.page, hframe]
  rfl

/-- `kernel_map_vma` on a VMA that may have got other bounds. -/
theorem remaps_kernelMapVma (hp : h.vm.Paged) (hr : r.Placed h.vm) (hk : r.Reshapes k)
    (hb : (h.kernelMapVma O k).1.vm.pageCounter ≤ maxFrames) :
    h.vm.Remaps (h.kernelMapVma O k).1.vm r k (k.mapped (h.kernelMapVma O k).2) := by
  have hframe : k.frame = r.frame := congrArg frameOf hk.phys
  by_cases hn : k.NeedsMap
  · have hkn := hr.known hk
    have hfirst : k.oldFirst = r.first := congrArg frameOf (hk.oldStart.trans hr.oldStart)
    have hlast : k.oldLast = r.last := congrArg frameOf (hk.oldEnd.trans hr.oldEnd)
    have hkf : k.keptFirst = max k.first k.oldFirst := rfl
    have hkl : k.keptLast = min k.last k.oldLast := rfl
    obtain ⟨hmoves, -⟩ := kernelMapVma_contents hp hk.inTables hn (fun _ => hkn) hb
    have hfields := (kernelMapVma_spec hp hk.inTables hn (fun _ => hkn) hb).2
    have hc := (le_pageCounter_kernelMapVma hk.inTables).trans hb
    -- what is taken away is a part of what the VMA had
    have htakes : ∀ f, k.Takes f → r.HasFrame f := by
      rintro f ⟨-, h1, h2⟩
      rw [VmRegion.HasFrame]
      omega
    rw [hfields]
    refine ⟨hmoves.fresh, fun x hx hap j hj => ?_, fun j hj hno => ?_, fun hfd j hj hj' => ?_,
      fun hf hfd j hj hno => ?_, fun x hx _ f hf hf' => ?_⟩
    · exact hmoves.keep _ (hx.isData hj.hasFrame) fun ht => hap _ hj.hasFrame (htakes _ ht)
    · refine hmoves.keep _ (hr.isData hj.hasFrame) fun ht => hno ?_
      have h1 := hj.1
      have h2 := ht.2.1
      have h3 := ht.2.2
      rw [VmRegion.HasPage]
      omega
    · have h1 := hj.1
      have h2 := hj.2
      have h3 := hj'.1
      have h4 := hj'.2
      have hmv : k.Moves := ⟨hk.phys ▸ hr.phys_ne, hn.resolve_left (hk.phys ▸ hr.phys_ne),
        hk.anonymous hfd⟩
      rw [page_mapped hc, hmoves.moved hmv j (by omega) (by omega), hframe, hfirst]
      rfl
    · rw [page_mapped hc]
      refine hmoves.blank hf hfd j hj.1 hj.2 fun hin => hno ?_
      rw [VmRegion.HasPage]
      omega
    · have h1 := (hx.isData hf).lt
      have h2 := (hasFrame_mapped hc).mp hf'
      omega
  · rw [kernelMapVma_unchanged hn]
    obtain ⟨hstart, hend⟩ := hk.bounds_eq hr hn
    have hfirst : k.first = r.first := congrArg frameOf hstart
    have hlast : k.last = r.last := congrArg frameOf hend
    have hpage : ∀ j, (k.mapped k.unmoved).page h.vm j = r.page h.vm j := by
      intro j
      show h.vm.mem (k.frame + (j - k.first)) = h.vm.mem (r.frame + (j - r.first))
      rw [hframe, hfirst]
    have hsame : ∀ j, k.HasPage j ↔ r.HasPage j := by
      intro j
      rw [VmRegion.HasPage, VmRegion.HasPage, hfirst, hlast]
    have hsameFrame : ∀ f, (k.mapped k.unmoved).HasFrame f ↔ r.HasFrame f := by
      intro f
      show k.frame ≤ f ∧ f < k.frame + (k.last - k.first) ↔ _
      rw [hframe, hfirst, hlast]
      rfl
    refine ⟨id, fun _ _ _ _ _ => rfl, fun _ _ _ => rfl, fun _ j _ _ => hpage j,
      fun _ _ j hj hno => absurd ((hsame j).mp hj) hno, fun x _ hap f hf hf' => ?_⟩
    exact hap.resolve_right hn f hf ((hsameFrame f).mp hf')

/-- `kernel_map_vma` on a new VMA. -/
theorem remaps_kernelMapVma_fresh (hp : h.vm.Paged) (hr : r.InTables)
    (hphys : r.physPageStart = -1#64) (hb : (h.kernelMapVma O r).1.vm.pageCounter ≤ maxFrames) :
    (h.vm.Fresh → (h.kernelMapVma O r).1.vm.Fresh) ∧
      (∀ x : VmRegion, x.Placed h.vm → (∀ j, x.HasPage j →
          x.page (h.kernelMapVma O r).1.vm j = x.page h.vm j) ∧
        x.FramesApart (r.mapped (h.kernelMapVma O r).2)) ∧
      (h.vm.Fresh → r.fileInfo.fd = noFd → ∀ j, r.HasPage j →
        (r.mapped (h.kernelMapVma O r).2).page (h.kernelMapVma O r).1.vm j = zeroPage) := by
  have hno : ¬ r.Moves := fun hm => hm.1 hphys
  have hn : r.NeedsMap := Or.inl hphys
  obtain ⟨hmoves, -⟩ := kernelMapVma_contents hp hr hn (fun hm => absurd hm hno) hb
  have hfields := (kernelMapVma_spec hp hr hn (fun hm => absurd hm hno) hb).2
  have hc := (le_pageCounter_kernelMapVma hr).trans hb
  rw [hfields]
  refine ⟨hmoves.fresh, fun x hx => ⟨fun j hj => ?_, fun f hf hf' => ?_⟩, fun hf hfd j hj => ?_⟩
  · exact hmoves.keep _ (hx.isData hj.hasFrame) fun ht => hno ht.1
  · have h1 := (hx.isData hf).lt
    have h2 := (hasFrame_mapped hc).mp hf'
    omega
  · rw [page_mapped hc]
    exact hmoves.blank hf hfd j hj.1 hj.2 fun hin => hno hin.1

/-- `kernel_unmap_vma` changes tables only. -/
theorem kernelUnmapVma_contents (hp : h.vm.Paged) (hr : r.Placed h.vm)
    (hb : (h.kernelUnmapVma r).vm.pageCounter ≤ maxFrames) :
    (h.vm.Fresh → (h.kernelUnmapVma r).vm.Fresh) ∧
      ∀ x : VmRegion, x.Placed h.vm → ∀ j, x.HasPage j →
        x.page (h.kernelUnmapVma r).vm j = x.page h.vm j := by
  obtain ⟨hp', hkeep, -, hmem⟩ := kernelUnmapVma_spec hp hr hb
  have hle := le_pageCounter_kernelUnmapVma h r
  refine ⟨fun hf f i hfi => ?_, fun x hx j hj => ?_⟩
  · rw [hmem f fun ht => ?_]
    · exact hf f i (hle.trans hfi)
    · have := hp'.isTable_lt ht
      omega
  · exact hmem _ (hkeep _ (hx.isData hj.hasFrame)).notTable

/-! ## Reading through the page tables -/

/-- The byte of a page that an address points at; words are little endian. -/
def byteOf (page : U64 → U64) (a : U64) : BitVec 8 :=
  (page (BitVec.ofNat 64 (a.toNat % 4096 / 8)) >>> (a.toNat % 8 * 8)).setWidth 8

/-- The byte that the guest reads at an address. -/
def Vm.readByte (vm : Vm) (v : U64) : Option (BitVec 8) :=
  (getPhysAddr v vm).map fun p => byteOf (vm.mem (frameOf p)) p

theorem byteOf_zeroPage (a : U64) : byteOf zeroPage a = 0#8 := by simp [byteOf, zeroPage]

/-- An address on a frame is read from its memory. -/
theorem readByte_of_physAddr {v : U64} {f : Nat} (hf : f < 2 ^ 52)
    (h : getPhysAddr v vm = some (frameAddr f + (getVirtAddrInfo v).physOffset)) :
    vm.readByte v = some (byteOf (vm.mem f) v) := by
  have hoff := toNat_physOffset v
  have haddr : (frameAddr f + (getVirtAddrInfo v).physOffset).toNat =
      f * 4096 + v.toNat % 4096 := by
    rw [BitVec.toNat_add, toNat_frameAddr hf, hoff]
    omega
  have hframe : frameOf (frameAddr f + (getVirtAddrInfo v).physOffset) = f := by
    rw [frameOf, haddr]
    omega
  have hword : (f * 4096 + v.toNat % 4096) % 4096 / 8 = v.toNat % 4096 / 8 := by omega
  have hbyte : (f * 4096 + v.toNat % 4096) % 8 = v.toNat % 8 := by omega
  rw [Vm.readByte, h, Option.map_some, hframe, byteOf, byteOf, haddr, hword, hbyte]

/-- The guest reads the memory of the VMA. -/
theorem VmRegion.Held.readByte (hr : r.Held True vm) (hp : vm.Paged)
    (hb : vm.pageCounter ≤ maxFrames) {v : U64} (hv : r.HasPage (pageNumber v)) :
    vm.readByte v = some (byteOf (r.page vm (pageNumber v)) v) := by
  have hf := (hr.toPlaced.isData hv.hasFrame).lt
  rw [maxFrames] at hb
  exact readByte_of_physAddr (by omega) (hr.getPhysAddr hp (by rw [maxFrames]; omega) hv)

end BufferVM
