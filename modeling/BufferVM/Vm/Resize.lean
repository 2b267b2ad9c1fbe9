/-
  Vm/Resize.lean --- `kernel_map_vma` on an anonymous VMA that has got other bounds.

  The range may have grown or shrunk at either end.  What the old and the new range have in
  common is moved, and read at the same addresses as before; the rest of the new range reads
  as zero.  Only the translation of the old range is needed for that, not the entries that
  make it up.
-/
import BufferVM.Vm.Capacity
import BufferVM.Vm.GuestBytes

set_option autoImplicit false

namespace BufferVM

variable {ω : Type} {O : HostOs ω} {h : Host ω} {r : VmRegion} {vm : Vm}

/-! ## The old range -/

/-- The host had mapped the page. -/
def VmRegion.HadPage (r : VmRegion) (j : Nat) : Prop := r.oldFirst ≤ j ∧ j < r.oldLast

/-- The old range is mapped to the memory of the VMA, in a row. -/
def VmRegion.OldMapped (vm : Vm) (r : VmRegion) : Prop :=
  ∀ i, i < r.oldLast - r.oldFirst →
    getPhysAddr (r.oldStartAddr + BitVec.ofNat 64 i * pageSize) vm =
      some (r.physPageStart + BitVec.ofNat 64 i * pageSize)

/-- No subtraction of `kernel_map_vma` goes below zero. -/
structure VmRegion.NoUnderflow (r : VmRegion) : Prop where
  oldSize : r.physPageStart ≤ r.physPageEnd
  front : r.startAddr ≤ r.oldStartAddr → r.cutBack ≤ r.physPageEnd - r.physPageStart
  back : ¬ r.startAddr ≤ r.oldStartAddr →
    r.startAddr - r.oldStartAddr ≤ r.physPageEnd - r.physPageStart ∧
      r.cutBack ≤ r.physPageEnd - r.physPageStart - (r.startAddr - r.oldStartAddr)

/-- The VMA has been moved to its new bounds. -/
structure VmRegion.Resized (r : VmRegion) (h h' : Host ω) (fields : MapFields) : Prop where
  noUnderflow : r.NoUnderflow
  stopped : h'.stopped = h.stopped
  kept : ∀ v, r.HasPage (pageNumber v) → r.HadPage (pageNumber v) →
    h'.vm.readByte v = h.vm.readByte v ∧ (h'.vm.readByte v).isSome
  zero : ∀ v, r.HasPage (pageNumber v) → ¬ r.HadPage (pageNumber v) → h'.vm.readByte v = some 0#8
  consistent : (r.mapped fields).Consistent h'.vm
  physEnd : fields.physPageEnd = fields.physPageStart + r.pages * pageSize

/-! ## Reading the old range -/

/-- An address is translated with the page that the tables have for it. -/
theorem getPhysAddr_pageNumber (v : U64) (vm : Vm) :
    getPhysAddr v vm =
      (getPhysAddr (frameAddr (pageNumber v)) vm).map (· + (getVirtAddrInfo v).physOffset) := by
  have hdown := toNat_pageAlignDown v
  have hfold : getPhysAddr (frameAddr (pageNumber v)) vm = getPhysAddr (pageAlignDown v) vm := by
    apply getPhysAddr_congr
    rw [pageNumber, toNat_frameAddr (by omega), hdown]
    omega
  rw [hfold, physOffset_eq]
  exact getPhysAddr_page v vm

/-- The guest reads the memory that the VMA had. -/
theorem VmRegion.Known.readByte_old (hk : r.Known vm) (hmap : r.OldMapped vm)
    (hb : vm.pageCounter ≤ maxFrames) {v : U64} (hv : r.HadPage (pageNumber v)) :
    vm.readByte v = some (byteOf (vm.mem (r.frame + (pageNumber v - r.oldFirst))) v) := by
  have h1 := hv.1
  have h2 := hv.2
  have hframe := (hk.data (pageNumber v - r.oldFirst) (by omega)).lt
  rw [maxFrames] at hb
  have hpage := hmap (pageNumber v - r.oldFirst) (by omega)
  have hold : r.oldStartAddr = frameAddr r.oldFirst := hk.oldStart.eq_frameAddr
  rw [ofNat_mul_pageSize, hold, hk.phys, frameAddr_add, frameAddr_add,
    Nat.add_sub_cancel' h1] at hpage
  apply readByte_of_physAddr (by omega)
  rw [getPhysAddr_pageNumber, hpage, Option.map_some]

/-! ## The sizes -/

/-- **The sizes that are computed** are those of the memory that the VMA had. -/
theorem VmRegion.Known.noUnderflow (hk : r.Known vm) (hr : r.InTables)
    (hb : vm.pageCounter ≤ maxFrames) : r.NoUnderflow := by
  have hfront := hk.front
  have hback := hk.back
  have hlt := hr.lt
  have hle := hr.le
  have hlt' := hk.lt
  have hle' := hk.le
  have hkl : r.keptLast = min r.last r.oldLast := rfl
  have hframe := (hk.data 0 (by omega)).lt
  rw [maxFrames] at hb
  have hold : r.oldStartAddr = frameAddr r.oldFirst := hk.oldStart.eq_frameAddr
  have hcut := hk.cutBack_eq hr
  have hsize := hk.oldSize_eq
  refine ⟨?_, fun _ => ?_, fun hcase => ?_⟩
  · rw [hk.phys, hk.physEnd]
    exact (frameAddr_le_iff (by omega) (by omega)).mpr (Nat.le_add_right _ _)
  · rw [hcut, hsize]
    exact (frameAddr_le_iff (by omega) (by omega)).mpr (by omega)
  · rw [hk.start_le_iff hr] at hcase
    rw [hcut, hsize, hr.startAddr_eq, hold, frameAddr_sub (by omega), frameAddr_sub (by omega)]
    exact ⟨(frameAddr_le_iff (by omega) (by omega)).mpr (by omega),
      (frameAddr_le_iff (by omega) (by omega)).mpr (by omega)⟩

/-! ## `kernel_map_vma` -/

/-- A VMA with the bounds it had stays as it is. -/
theorem resized_unchanged (hr : r.InTables) (hk : r.Known h.vm) (hmap : r.OldMapped h.vm)
    (hb : h.vm.pageCounter ≤ maxFrames) (hn : ¬ r.NeedsMap) : r.Resized h h r.unmoved := by
  have hchanged : ¬ r.Changed := fun hc => hn (Or.inr hc)
  rw [VmRegion.Changed, not_or, not_not, not_not] at hchanged
  obtain ⟨hstart, hend⟩ := hchanged
  have hfirst : r.oldFirst = r.first := congrArg frameOf hstart
  have hlast : r.oldLast = r.last := congrArg frameOf hend
  refine ⟨hk.noUnderflow hr hb, rfl, fun v _ hv => ⟨rfl, ?_⟩, fun v hv hno => ?_,
    ⟨hstart, hend, fun i hi => ?_⟩, ?_⟩
  · rw [hk.readByte_old hmap hb hv]
    rfl
  · refine absurd ?_ hno
    rw [VmRegion.HadPage, hfirst, hlast]
    exact hv
  · have hi' : i < r.pages.toNat := hi
    rw [hr.toNat_pages, ← hfirst, ← hlast] at hi'
    have hpage := hmap i hi'
    rw [hstart] at hpage
    exact hpage
  · show r.physPageEnd = r.physPageStart + r.pages * pageSize
    rw [hk.physEnd, hk.phys, hr.pages_mul, frameAddr_add, hfirst, hlast]

/-- **Resizing an anonymous VMA moves every page that is left.** -/
theorem kernelMapVma_resized (O : HostOs ω) (hp : h.vm.Paged) (hfresh : h.vm.Fresh)
    (hr : r.InTables)
    (hk : r.Known h.vm) (hmap : r.OldMapped h.vm) (hfd : r.fileInfo.fd = noFd)
    (hb : (h.kernelMapVma O r).1.vm.pageCounter ≤ maxFrames) :
    r.Resized h (h.kernelMapVma O r).1 (h.kernelMapVma O r).2 := by
  have hc := (le_pageCounter_kernelMapVma hr).trans hb
  by_cases hn : r.NeedsMap
  · have hphys : r.physPageStart ≠ -1#64 := by
      rw [hk.phys]
      exact frameAddr_ne_neg_one _
    have hm : r.Moves := ⟨hphys, hn.resolve_left hphys, hfd⟩
    have hkf : r.keptFirst = max r.first r.oldFirst := rfl
    have hkl : r.keptLast = min r.last r.oldLast := rfl
    obtain ⟨hmaps, hfields⟩ := kernelMapVma_spec hp hr hn (fun _ => hk) hb
    obtain ⟨hmoves, -⟩ := kernelMapVma_contents hp hr hn (fun _ => hk) hb
    have hheld := hr.held_mapped hp hc hmaps True
    -- every page of the new range reads as its frame
    have hread : ∀ v, r.HasPage (pageNumber v) → (h.kernelMapVma O r).1.vm.readByte v =
        some (byteOf ((h.kernelMapVma O r).1.vm.mem
          (h.vm.pageCounter + (pageNumber v - r.first))) v) := by
      intro v hv
      rw [hheld.readByte hmaps.paged hb hv, page_mapped hc]
    rw [hfields]
    refine ⟨hk.noUnderflow hr hc, ?_, fun v hv hv' => ?_, fun v hv hno => ?_,
      hheld.consistent hmaps.paged hb, rfl⟩
    · rw [kernelMapVma_moves hr hm hk hc]
    · have h1 := hv.1
      have h2 := hv.2
      have h3 := hv'.1
      have h4 := hv'.2
      have hmoved := hmoves.moved hm (pageNumber v) (by omega) (by omega)
      rw [hread v hv, hmoved, hk.readByte_old hmap hc hv']
      exact ⟨rfl, rfl⟩
    · have hout : ¬ (r.Moves ∧ r.keptFirst ≤ pageNumber v ∧ pageNumber v < r.keptLast) := by
        intro hin
        refine hno ⟨?_, ?_⟩
        · omega
        · omega
      rw [hread v hv, hmoves.blank hfresh hfd _ hv.1 hv.2 hout, byteOf_zeroPage]
  · rw [kernelMapVma_unchanged hn]
    exact resized_unchanged hr hk hmap hc hn

/-! ## A VMA that shrinks at one end and grows at the other -/

/-- A VMA that the host has just mapped can be given other bounds. -/
theorem known_mapped {k : VmRegion} (hp : h.vm.Paged) (hr : r.InTables)
    (hphys : r.physPageStart = -1#64)
    (hb : (h.kernelMapVma O r).1.vm.pageCounter ≤ maxFrames)
    (hk : (r.mapped (h.kernelMapVma O r).2).Reshapes k) :
    k.Known (h.kernelMapVma O r).1.vm ∧ k.OldMapped (h.kernelMapVma O r).1.vm := by
  obtain ⟨hpaged, hheld, -⟩ := held_kernelMapVma_fresh True hp hr hphys hb
  have hsame := hheld.consistent hpaged hb
  refine ⟨hheld.toPlaced.known hk, fun i hi => ?_⟩
  have holdStart := hk.oldStart.trans hsame.oldStart
  have holdEnd := hk.oldEnd.trans hsame.oldEnd
  rw [holdStart, hk.phys]
  apply hsame.translates
  rw [VmRegion.oldFirst, VmRegion.oldLast, holdStart, holdEnd] at hi
  exact lt_of_lt_of_eq hi hr.toNat_pages.symm

/-- The machine with an anonymous VMA of two pages at 1 MiB. -/
def twoPageHost : Host Unit := (bareHost.kernelMapVma bareOs (newVma 0x2000#64)).1

/-- The VMA without its first page and with two more behind it. -/
def shiftedVma : VmRegion :=
  { (newVma 0x2000#64).mapped (bareHost.kernelMapVma bareOs (newVma 0x2000#64)).2 with
    startAddr := 0x101000#64, endAddr := 0x104000#64 }

theorem kernelMapVma_resized_shifted :
    shiftedVma.Resized twoPageHost (twoPageHost.kernelMapVma bareOs shiftedVma).1
      (twoPageHost.kernelMapVma bareOs shiftedVma).2 := by
  have hr : (newVma 0x2000#64).InTables := ⟨by decide, by decide, by decide, by decide⟩
  have hvm : bareHost.vm = buildPageTables blankVm := by rw [bareHost]
  have hp : bareHost.vm.Paged := by
    rw [hvm]
    exact initial_blankVm.refines.paged
  have hcount : (buildPageTables blankVm).pageCounter ≤ maxFrames := by
    rw [buildPageTables_eq]
    decide
  have hfresh : bareHost.vm.Fresh := by
    rw [hvm]
    exact (built_buildPageTables initial_blankVm.fresh hcount).fresh
  have hb₁ : (bareHost.kernelMapVma bareOs (newVma 0x2000#64)).1.vm.pageCounter ≤ maxFrames := by
    decide +kernel
  have hb₂ : (twoPageHost.kernelMapVma bareOs shiftedVma).1.vm.pageCounter ≤ maxFrames := by
    decide +kernel
  have hshift : shiftedVma.InTables := ⟨by decide, by decide, by decide, by decide⟩
  have hreshapes : ((newVma 0x2000#64).mapped
      (bareHost.kernelMapVma bareOs (newVma 0x2000#64)).2).Reshapes shiftedVma := by
    refine ⟨hshift, ?_, ?_, ?_, ?_, ?_, ?_, ?_, ?_, by decide +kernel, by decide +kernel⟩
    all_goals simp only [shiftedVma, imp_self]
  obtain ⟨hpaged, -, -⟩ := held_kernelMapVma_fresh True hp hr rfl hb₁
  obtain ⟨hfresh', -, -⟩ := remaps_kernelMapVma_fresh hp hr rfl hb₁
  obtain ⟨hk, hmap⟩ := known_mapped hp hr rfl hb₁ hreshapes
  rw [twoPageHost] at hb₂ ⊢
  exact kernelMapVma_resized bareOs hpaged (hfresh' hfresh) hshift hk hmap rfl hb₂

end BufferVM
