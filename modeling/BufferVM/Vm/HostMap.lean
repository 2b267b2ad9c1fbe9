/-
  Vm/HostMap.lean --- what `kernel_map_vma` and `kernel_unmap_vma` do to the machine.

  Everything here is in page numbers: a VMA covers the pages from `first` to `last` of the
  39-bit address space, and its memory is the frames from `frame` on.  `kernel_map_vma`
  takes the next frames in a row, points the entries of the VMA's pages at them and moves
  what the VMA held before; it touches no other entry, and no frame that holds a table.
-/
import BufferVM.Vm.PageCalls
import BufferVM.Vm.Vma

set_option autoImplicit false

namespace BufferVM

/-! ## Pages and frames -/

/-- The entry of a page number. -/
def Vm.leaf (vm : Vm) (k : Nat) : Option U64 := vm.pte (frameAddr k)

theorem pageNumber_frameAddr {k : Nat} (h : k < 2 ^ 27) : pageNumber (frameAddr k) = k := by
  rw [pageNumber, toNat_frameAddr (by omega)]
  omega

theorem Vm.pte_congr {vm : Vm} {v w : U64} (h : pageNumber v = pageNumber w) :
    vm.pte v = vm.pte w := by
  obtain ⟨h1, h2⟩ := (pageNumber_eq_iff v w).mp h
  rw [Vm.pte, Vm.pte, h1, h2]

theorem Vm.pte_eq_leaf (vm : Vm) (v : U64) : vm.pte v = vm.leaf (pageNumber v) := by
  refine Vm.pte_congr (pageNumber_frameAddr ?_).symm
  rw [pageNumber]
  omega

/-- The frame has been handed out and holds no table. -/
structure Vm.IsData (vm : Vm) (f : Nat) : Prop where
  lt : f < vm.pageCounter
  notTable : ¬ vm.IsTable f

/-- Frames that hold no table stay so. -/
def Vm.KeepsData (vm vm' : Vm) : Prop := ∀ f, vm.IsData f → vm'.IsData f

theorem Vm.Updates.keepsData {vm vm' : Vm} {k : Nat} {ps : Finset (List U64)}
    {us : List PageUpdate} (h : vm.Updates vm' k ps us) : vm.KeepsData vm' := by
  intro f hf
  exact ⟨Nat.lt_of_lt_of_le hf.lt h.pageCounter_le, fun ht => hf.notTable (h.old f hf.lt ht)⟩

theorem Vm.SameTables.isData {vm vm' : Vm} (h : vm.SameTables vm')
    (hc : vm'.pageCounter = vm.pageCounter) (f : Nat) : vm'.IsData f ↔ vm.IsData f := by
  constructor
  · intro hf
    exact ⟨hc ▸ hf.lt, fun ht => hf.notTable ((h.isTable f).mpr ht)⟩
  · intro hf
    exact ⟨hc ▸ hf.lt, fun ht => hf.notTable ((h.isTable f).mp ht)⟩

theorem frameAddr_add (f n : Nat) : frameAddr f + frameAddr n = frameAddr (f + n) := by
  apply BitVec.eq_of_toNat_eq
  rw [BitVec.toNat_add, frameAddr, frameAddr, frameAddr, BitVec.toNat_ofNat, BitVec.toNat_ofNat,
    BitVec.toNat_ofNat]
  omega

theorem frameAddr_sub {f n : Nat} (h : n ≤ f) : frameAddr f - frameAddr n = frameAddr (f - n) := by
  have hadd := frameAddr_add (f - n) n
  rw [Nat.sub_add_cancel h] at hadd
  rw [← hadd]
  simp

theorem frameAddr_lt_iff {a b : Nat} (ha : a < 2 ^ 52) (hb : b < 2 ^ 52) :
    frameAddr a < frameAddr b ↔ a < b := by
  rw [BitVec.lt_def, toNat_frameAddr ha, toNat_frameAddr hb]
  omega

theorem frameAddr_le_iff {a b : Nat} (ha : a < 2 ^ 52) (hb : b < 2 ^ 52) :
    frameAddr a ≤ frameAddr b ↔ a ≤ b := by
  rw [BitVec.le_def, toNat_frameAddr ha, toNat_frameAddr hb]
  omega

theorem pageSize_eq : pageSize = frameAddr 1 := by decide

/-- A page address is the address of its page. -/
theorem PageAligned.eq_frameAddr {a : U64} (h : PageAligned a) : a = frameAddr (frameOf a) := by
  have ha := a.isLt
  rw [PageAligned] at h
  apply BitVec.eq_of_toNat_eq
  rw [frameAddr, BitVec.toNat_ofNat, frameOf]
  omega

theorem pageAlignDown_eq_frameAddr (a : U64) : pageAlignDown a = frameAddr (frameOf a) := by
  have ha := a.isLt
  apply BitVec.eq_of_toNat_eq
  rw [toNat_pageAlignDown, frameAddr, BitVec.toNat_ofNat, frameOf]
  omega

/-! ## A range of pages -/

/-- The entries after a range of pages has been mapped. -/
theorem updatedEntry_range (prot : U64) (n a c k : Nat) (hk : k < 2 ^ 27) (ha : a + n ≤ 2 ^ 27)
    (x : Option U64) :
    updatedEntry (pageUpdates prot false (rangePages n (frameAddr c)) (frameAddr a))
      (frameAddr k) x =
      if a ≤ k ∧ k < a + n then some (leafEntry prot (frameAddr (c + (k - a)))) else x := by
  induction n generalizing a c x with
  | zero =>
      rw [if_neg (by omega)]
      rfl
  | succ n ih =>
      rw [rangePages, pageUpdates, updatedEntry_cons, pageSize_eq, frameAddr_add, frameAddr_add,
        ih (a + 1) (c + 1) (by omega)]
      have hfirst : updatedEntry [(frameAddr a, mapUpdate (frameAddr c) prot false)]
          (frameAddr k) x =
          if k = a then some (leafEntry prot (frameAddr c)) else x := by
        simp only [updatedEntry, List.foldl_cons, List.foldl_nil,
          pageNumber_frameAddr (show a < 2 ^ 27 by omega), pageNumber_frameAddr hk, mapUpdate,
          true_or, if_true]
      rw [hfirst]
      by_cases h1 : k = a
      · subst h1
        rw [if_neg (by omega), if_pos rfl, if_pos (by omega), Nat.sub_self, Nat.add_zero]
      · by_cases h2 : a + 1 ≤ k ∧ k < a + 1 + n
        · rw [if_pos h2, if_pos (by omega)]
          have : c + 1 + (k - (a + 1)) = c + (k - a) := by omega
          rw [this]
        · rw [if_neg h2, if_neg h1, if_neg (by omega)]

/-- The updates of `kernel_unmap_vma`. -/
def unmapUpdates : Nat → U64 → List PageUpdate
  | 0, _ => []
  | n + 1, virt => (virt, unmapUpdate) :: unmapUpdates n (virt + pageSize)

theorem updatedEntry_unmap (n a k : Nat) (hk : k < 2 ^ 27) (ha : a + n ≤ 2 ^ 27) (x : Option U64) :
    updatedEntry (unmapUpdates n (frameAddr a)) (frameAddr k) x =
      if a ≤ k ∧ k < a + n then none else x := by
  induction n generalizing a x with
  | zero =>
      rw [if_neg (by omega)]
      rfl
  | succ n ih =>
      rw [unmapUpdates, updatedEntry_cons, pageSize_eq, frameAddr_add, ih (a + 1) (by omega)]
      have hfirst : updatedEntry [(frameAddr a, unmapUpdate)] (frameAddr k) x =
          if k = a then none else x := by
        simp only [updatedEntry, List.foldl_cons, List.foldl_nil,
          pageNumber_frameAddr (show a < 2 ^ 27 by omega), pageNumber_frameAddr hk, unmapUpdate]
      rw [hfirst]
      by_cases h1 : k = a
      · rw [if_pos h1, if_pos (show a ≤ k ∧ k < a + (n + 1) by omega)]
        split
        · rfl
        · rfl
      · by_cases h2 : a + 1 ≤ k ∧ k < a + 1 + n
        · rw [if_pos h2, if_pos (by omega)]
        · rw [if_neg h2, if_neg h1, if_neg (by omega)]

theorem le_pageCounter_unmapRange (n : Nat) (virt : U64) (vm : Vm) :
    vm.pageCounter ≤ (unmapRange n virt vm).pageCounter := by
  induction n generalizing virt vm with
  | zero => exact le_rfl
  | succ n ih =>
      exact (le_pageCounter_lastTable (getVirtAddrInfo virt) vm).trans
        (ih (virt + pageSize) (unmapPhysicalPage virt vm))

theorem unmapRange_spec {vm : Vm} (h : vm.Paged) (n : Nat) (virt : U64)
    (hb : (unmapRange n virt vm).pageCounter ≤ maxFrames) :
    vm.Performs (unmapRange n virt vm) 0 (unmapUpdates n virt) := by
  induction n generalizing virt vm with
  | zero => exact Vm.Performs.refl h
  | succ n ih =>
      have hfirst := Vm.Performs.single (unmapPhysicalPage_spec h virt
        ((le_pageCounter_unmapRange n _ _).trans hb))
      exact hfirst.trans (ih hfirst.paged _ hb)

/-! ## Regions in page numbers -/

/-- The first page of a VMA. -/
def VmRegion.first (r : VmRegion) : Nat := frameOf r.startAddr

/-- The page behind a VMA. -/
def VmRegion.last (r : VmRegion) : Nat := frameOf r.endAddr

/-- The first frame of a VMA's memory. -/
def VmRegion.frame (r : VmRegion) : Nat := frameOf r.physPageStart

/-- A VMA with page addresses as bounds, inside the 39-bit address space. -/
structure VmRegion.InTables (r : VmRegion) : Prop where
  start : PageAligned r.startAddr
  limit : PageAligned r.endAddr
  lt : r.first < r.last
  le : r.last ≤ 2 ^ 27

namespace VmRegion.InTables

variable {r : VmRegion} (h : r.InTables)

include h

theorem startAddr_eq : r.startAddr = frameAddr r.first := h.start.eq_frameAddr

theorem endAddr_eq : r.endAddr = frameAddr r.last := h.limit.eq_frameAddr

theorem toNat_pages : r.pages.toNat = r.last - r.first := by
  have hlt := h.lt
  have hle := h.le
  rw [VmRegion.pages, toNat_pageDifference, h.startAddr_eq, h.endAddr_eq,
    frameAddr_sub (by omega), toNat_frameAddr (by omega)]
  omega

theorem pages_ne : r.pages ≠ 0#64 := by
  have hlt := h.lt
  intro hz
  have hn := h.toNat_pages
  rw [hz] at hn
  simp at hn
  omega

theorem pages_mul : r.pages * pageSize = frameAddr (r.last - r.first) := by
  have hn := h.toNat_pages
  have hle := h.le
  apply BitVec.eq_of_toNat_eq
  rw [BitVec.toNat_mul, hn, toNat_frameAddr (by omega)]
  have hs : pageSize.toNat = 4096 := by decide
  rw [hs, Nat.mod_eq_of_lt (by omega)]

end VmRegion.InTables

/-! ## What `map_physical_pages` does for a VMA -/

section Contiguous

variable {vm : Vm} {r : VmRegion}

/-- The flags that `kernel_map_vma` passes on. -/
def vmaMapFlags (r : VmRegion) : U64 :=
  mapContinuous ||| transferFlag r.flags vmaAllocZeroed mapZeroPages

theorem vmaMapFlags_and (r : VmRegion) :
    vmaMapFlags r &&& mapContinuous ≠ 0#64 ∧ vmaMapFlags r &&& mapNoOverwrite = 0#64 := by
  unfold vmaMapFlags transferFlag
  split
  · decide
  · decide

/-- The machine after the pages of a VMA have been mapped to the next frames. -/
def Vm.mapVmaPages (vm : Vm) (r : VmRegion) : Vm :=
  mapRange (vmaProtToPg r.pageProt) false (r.last - r.first) r.startAddr (frameAddr vm.pageCounter)
    { vm with pageCounter := vm.pageCounter + (r.last - r.first) }

theorem mapPhysicalPages_vma (hr : r.InTables) (vm : Vm) :
    mapPhysicalPages r.startAddr (-1#64) (vmaProtToPg r.pageProt) r.pages (vmaMapFlags r) vm =
      (frameAddr vm.pageCounter, vm.mapVmaPages r) := by
  obtain ⟨hc, hn⟩ := vmaMapFlags_and r
  unfold mapPhysicalPages
  simp only [hn, ne_eq, not_true_eq_false, decide_false, hc, not_false_eq_true, true_or, if_true]
  rw [allocatePages_of_ne hr.pages_ne]
  simp only [frameAddr_ne_neg_one, if_false, hr.toNat_pages]
  rfl

/-- The pages of a VMA have been mapped to the next frames. -/
structure Vm.MapsVma (vm vm' : Vm) (r : VmRegion) : Prop where
  paged : vm'.Paged
  counter : vm'.pageCounter =
    vm.pageCounter + (r.last - r.first) +
      (vm.missing (tablesFor (rangePages (r.last - r.first) r.startAddr))).card
  leaf : ∀ k, k < 2 ^ 27 → vm'.leaf k =
    if r.first ≤ k ∧ k < r.last then
      some (leafEntry (vmaProtToPg r.pageProt) (frameAddr (vm.pageCounter + (k - r.first))))
    else vm.leaf k
  old : ∀ f, f < vm.pageCounter + (r.last - r.first) → vm'.IsTable f → vm.IsTable f
  isTable : ∀ f, vm.IsTable f → vm'.IsTable f

theorem mapVmaPages_spec (h : vm.Paged) (hr : r.InTables)
    (hb : (vm.mapVmaPages r).pageCounter ≤ maxFrames) :
    vm.MapsVma (vm.mapVmaPages r) r ∧
      ∀ f, ¬ (vm.mapVmaPages r).IsTable f → (vm.mapVmaPages r).mem f = vm.mem f := by
  have halloc := h.updates_alloc (r.last - r.first)
  have halloc' : vm.Performs _ (r.last - r.first) [] := halloc
  have hmap := mapRange_spec halloc.paged (vmaProtToPg r.pageProt) false (r.last - r.first)
    r.startAddr (frameAddr vm.pageCounter) (pageAligned_frameAddr _) hb
  have hall : vm.Performs (vm.mapVmaPages r) (r.last - r.first)
      (pageUpdates (vmaProtToPg r.pageProt) false
        (rangePages (r.last - r.first) (frameAddr vm.pageCounter)) r.startAddr) :=
    halloc'.trans hmap
  have hlt := hr.lt
  have hle := hr.le
  refine ⟨⟨hall.paged, ?_, fun k hk => ?_, fun f hf ht => ?_, fun f hf => hall.isTable hf⟩,
    hall.mem⟩
  · have hcount := hall.counter
    rw [pathsOf, map_fst_pageUpdates, length_rangePages] at hcount
    exact hcount
  · rw [Vm.leaf, hall.pte, hr.startAddr_eq,
      updatedEntry_range _ _ _ _ _ hk (by omega), Vm.leaf]
    have hadd : r.first + (r.last - r.first) = r.last := by omega
    rw [hadd]
  · exact hmap.old f hf ht

theorem Vm.MapsVma.le {vm' : Vm} (h : vm.MapsVma vm' r) :
    vm.pageCounter + (r.last - r.first) ≤ vm'.pageCounter := by
  have := h.counter
  omega

theorem Vm.MapsVma.keepsData {vm' : Vm} (h : vm.MapsVma vm' r) : vm.KeepsData vm' := by
  intro f hf
  have hlt := hf.lt
  have hle := h.le
  exact ⟨by omega, fun ht => hf.notTable (h.old f (by omega) ht)⟩

/-- The frames that a VMA has been given hold no table. -/
theorem Vm.MapsVma.isData_new {vm' : Vm} (hp : vm.Paged) (h : vm.MapsVma vm' r) {i : Nat}
    (hi : i < r.last - r.first) : vm'.IsData (vm.pageCounter + i) := by
  have hle := h.le
  refine ⟨by omega, fun ht => ?_⟩
  have hlt := hp.isTable_lt (h.old _ (by omega) ht)
  omega

end Contiguous

/-! ## Moving the contents -/

variable {ω : Type}

/-- The memory after some frames have been moved. -/
def Vm.movedFrames (O : HostOs ω) (vm : Vm) (src cnt dst : Nat) : Vm :=
  { vm with mem := fun f =>
      if dst ≤ f ∧ f < dst + cnt then vm.mem (f - dst + src)
      else if src ≤ f ∧ f < src + cnt then O.hole f
      else vm.mem f }

theorem inRange_frameAddr {a n : Nat} (ha : a < 2 ^ 52) (hn : n < 2 ^ 51) (f : Nat) :
    InRange (frameAddr a) (frameAddr n) f ↔ a ≤ f ∧ f < a + n := by
  have hal : pageAlign (frameAddr n) = frameAddr n := pageAlign_of_aligned (pageAligned_frameAddr n)
  rw [InRange, hal, frameOf_frameAddr ha, toNat_frameAddr (by omega)]
  omega

theorem moved_frameAddr (O : HostOs ω) (vm : Vm) {src cnt dst : Nat} (hs : src < 2 ^ 52)
    (hc : cnt < 2 ^ 51) (hd : dst < 2 ^ 52) :
    vm.moved O (frameAddr src) (frameAddr cnt) (frameAddr dst) = vm.movedFrames O src cnt dst := by
  unfold Vm.moved Vm.movedFrames
  congr 1
  funext f
  simp only [inRange_frameAddr hs hc, inRange_frameAddr hd hc, frameOf_frameAddr hs,
    frameOf_frameAddr hd]

/-- `remap_region` on ranges of frames that are apart. -/
theorem remapRegion_frames (O : HostOs ω) (h : Host ω) {src cnt dst : Nat} (h0 : cnt ≠ 0)
    (hs : src + cnt ≤ dst) (hd : dst + cnt < 2 ^ 51) :
    remapRegion O (frameAddr src) (frameAddr cnt) (frameAddr dst) h =
      { h with vm := h.vm.movedFrames O src cnt dst } := by
  have hne : frameAddr cnt ≠ 0#64 := by
    intro hz
    have hn := congrArg BitVec.toNat hz
    rw [toNat_frameAddr (by omega)] at hn
    simp at hn
    omega
  have hacc : mremapAccepts (frameAddr src) (frameAddr cnt) (frameAddr dst) = true := by
    unfold mremapAccepts
    simp only [(pageOffset_eq_zero_iff _).mpr (pageAligned_frameAddr src),
      (pageOffset_eq_zero_iff _).mpr (pageAligned_frameAddr dst), hne, decide_true, ne_eq,
      not_false_eq_true, Bool.and_self, Bool.true_and, Bool.or_eq_true, decide_eq_true_eq]
    rw [toNat_frameAddr (by omega), toNat_frameAddr (by omega), toNat_frameAddr (by omega)]
    omega
  rw [remapRegion, if_pos hacc, moved_frameAddr O h.vm (by omega) (by omega) (by omega)]

/-- Moving data frames to data frames keeps the tables. -/
theorem Vm.Paged.sameTables_data {vm vm' : Vm} (h : vm.Paged) (hpml4 : vm'.pml4Addr = vm.pml4Addr)
    (hcount : vm'.pageCounter = vm.pageCounter)
    (hmem : ∀ f, ¬ vm.IsData f → vm'.mem f = vm.mem f) : vm.SameTables vm' := by
  refine h.sameTables hpml4 hcount.ge (fun f hf => hmem f fun hd => hd.notTable hf)
    fun f hf => hmem f fun hd => ?_
  have := hd.lt
  omega

theorem Vm.MapsVma.sameTables {vm vm₁ vm₂ : Vm} {r : VmRegion} (h : vm.MapsVma vm₁ r)
    (hs : vm₁.SameTables vm₂) (hc : vm₂.pageCounter = vm₁.pageCounter) : vm.MapsVma vm₂ r where
  paged := hs.paged
  counter := hc.trans h.counter
  leaf k hk := (hs.pte _).trans (h.leaf k hk)
  old f hf ht := h.old f hf ((hs.isTable f).mp ht)
  isTable f hf := (hs.isTable f).mpr (h.isTable f hf)

/-! ## `kernel_map_vma` -/

/-- The first page of the range that the host has mapped. -/
def VmRegion.oldFirst (r : VmRegion) : Nat := frameOf r.oldStartAddr

/-- The page behind the range that the host has mapped. -/
def VmRegion.oldLast (r : VmRegion) : Nat := frameOf r.oldEndAddr

/-- The host knows the VMA: it has memory for the range it had, and has kept a part of
it. -/
structure VmRegion.Known (vm : Vm) (r : VmRegion) : Prop where
  oldStart : PageAligned r.oldStartAddr
  oldLimit : PageAligned r.oldEndAddr
  lt : r.oldFirst < r.oldLast
  le : r.oldLast ≤ 2 ^ 27
  phys : r.physPageStart = frameAddr r.frame
  physEnd : r.physPageEnd = frameAddr (r.frame + (r.oldLast - r.oldFirst))
  front : r.first < r.oldLast
  back : r.oldFirst < r.last
  data : ∀ i, i < r.oldLast - r.oldFirst → vm.IsData (r.frame + i)

/-- The first page that the old and the new range have in common. -/
def VmRegion.keptFirst (r : VmRegion) : Nat := max r.first r.oldFirst

/-- The page behind those that the old and the new range have in common. -/
def VmRegion.keptLast (r : VmRegion) : Nat := min r.last r.oldLast

section MapVma

variable {O : HostOs ω} {h : Host ω} {r : VmRegion}

/-- The contents of a VMA are moved by `kernel_map_vma`. -/
def VmRegion.Moves (r : VmRegion) : Prop :=
  r.physPageStart ≠ -1#64 ∧ r.Changed ∧ r.fileInfo.fd = noFd

instance (r : VmRegion) : Decidable r.Moves := inferInstanceAs (Decidable (_ ∧ _ ∧ _))

/-- What `kernel_map_vma` writes back. -/
def VmRegion.mapFields (r : VmRegion) (newPhys : U64) : MapFields where
  physPageStart := newPhys
  physPageEnd := newPhys + r.pages * pageSize
  oldStartAddr := r.startAddr
  oldEndAddr := r.endAddr
  resized := decide r.Moves
  prefaulted := true

theorem kernelMapVma_needs (hr : r.InTables) (hn : r.NeedsMap) :
    h.kernelMapVma O r =
      (let h₁ : Host ω := { h with vm := h.vm.mapVmaPages r }
       let h₂ := if r.Moves then moveContents O r (frameAddr h.vm.pageCounter) h₁ else h₁
       if r.fileInfo.fd ≠ noFd then mapFile O r (frameAddr h.vm.pageCounter) h₂ else h₂,
       r.mapFields (frameAddr h.vm.pageCounter)) := by
  have hmap := mapPhysicalPages_vma hr h.vm
  rw [vmaMapFlags] at hmap
  have hmoves : (decide (r.physPageStart ≠ -1#64) && decide r.Changed &&
      decide (r.fileInfo.fd = noFd)) = decide r.Moves := by
    rw [Bool.and_assoc, ← Bool.decide_and, ← Bool.decide_and]
    rfl
  unfold Host.kernelMapVma
  rw [if_pos hn, hmap]
  simp only [frameAddr_ne_neg_one, if_false, hmoves, decide_eq_true_eq]
  rfl

theorem kernelMapVma_unchanged (hn : ¬ r.NeedsMap) : h.kernelMapVma O r = (h, r.unmoved) := by
  rw [Host.kernelMapVma, if_neg hn]

section Sizes

variable {vm : Vm}

/-- The bytes that the new range leaves out at the end, in pages. -/
theorem VmRegion.Known.cutBack_eq (hk : r.Known vm) (hr : r.InTables) :
    r.cutBack = frameAddr (r.oldLast - r.keptLast) := by
  have hback := hk.back
  have hlt := hr.lt
  have hle := hr.le
  have hle' := hk.le
  have hkl : r.keptLast = min r.last r.oldLast := rfl
  have hiff := frameAddr_lt_iff (a := r.last) (b := r.oldLast) (by omega) (by omega)
  have hold : r.oldEndAddr = frameAddr r.oldLast := hk.oldLimit.eq_frameAddr
  rw [VmRegion.cutBack, hold, hr.endAddr_eq, hkl]
  by_cases hcmp : r.last < r.oldLast
  · rw [if_pos (hiff.mpr hcmp), frameAddr_sub (by omega)]
    congr 1
    omega
  · have hzero : r.oldLast - min r.last r.oldLast = 0 := by omega
    rw [if_neg (fun hlt => hcmp (hiff.mp hlt)), hzero]
    rfl

/-- The memory that the VMA had, in pages. -/
theorem VmRegion.Known.oldSize_eq (hk : r.Known vm) :
    r.physPageEnd - r.physPageStart = frameAddr (r.oldLast - r.oldFirst) := by
  rw [hk.phys, hk.physEnd, frameAddr_sub (Nat.le_add_right _ _)]
  congr 1
  omega

/-- The two cases of `kernel_map_vma`. -/
theorem VmRegion.Known.start_le_iff (hk : r.Known vm) (hr : r.InTables) :
    r.startAddr ≤ r.oldStartAddr ↔ r.first ≤ r.oldFirst := by
  have hlt := hr.lt
  have hle := hr.le
  have hlt' := hk.lt
  have hle' := hk.le
  have hold : r.oldStartAddr = frameAddr r.oldFirst := hk.oldStart.eq_frameAddr
  rw [hr.startAddr_eq, hold]
  exact frameAddr_le_iff (by omega) (by omega)

end Sizes

/-- The contents that are moved, as frames. -/
theorem moveContents_frames (hr : r.InTables) {vm : Vm} (hk : r.Known vm) {c : Nat}
    (hc : ∀ i, i < r.oldLast - r.oldFirst → r.frame + i < c) (hb : c + 2 ^ 27 < 2 ^ 50)
    (h : Host ω) :
    moveContents O r (frameAddr c) h =
      { h with
        vm := h.vm.movedFrames O (r.frame + (r.keptFirst - r.oldFirst))
          (r.keptLast - r.keptFirst) (c + (r.keptFirst - r.first)) } := by
  have hfront := hk.front
  have hback := hk.back
  have hlt := hr.lt
  have hle := hr.le
  have hlt' := hk.lt
  have hle' := hk.le
  have hold : r.oldStartAddr = frameAddr r.oldFirst := hk.oldStart.eq_frameAddr
  have hkf : r.keptFirst = max r.first r.oldFirst := rfl
  have hkl : r.keptLast = min r.last r.oldLast := rfl
  have hroom : r.frame + (r.oldLast - r.oldFirst) ≤ c := by
    have := hc (r.oldLast - r.oldFirst - 1) (by omega)
    omega
  have hcut := hk.cutBack_eq hr
  have hsize := hk.oldSize_eq
  have hcmp := hk.start_le_iff hr
  unfold moveContents
  simp only [hcmp, hsize, hcut]
  by_cases hcase : r.first ≤ r.oldFirst
  · -- the old range begins inside the new one
    rw [if_pos hcase, hk.phys, hr.startAddr_eq, hold, frameAddr_sub hcase, frameAddr_add,
      frameAddr_sub (by omega), remapRegion_frames O h (by omega) (by omega) (by omega)]
    congr 2
    · omega
    · omega
    · omega
  · rw [if_neg hcase, hk.phys, hr.startAddr_eq, hold, frameAddr_sub (by omega), frameAddr_add,
      frameAddr_sub (by omega), frameAddr_sub (by omega),
      show frameAddr c = frameAddr (c + (r.keptFirst - r.first)) by congr 1; omega,
      remapRegion_frames O h (by omega) (by omega) (by omega)]
    congr 2
    · omega
    · omega

theorem pageCounter_moveContents (newPhys : U64) (h : Host ω) :
    (moveContents O r newPhys h).vm.pageCounter = h.vm.pageCounter := by
  unfold moveContents remapRegion
  simp only
  split
  · split
    · rfl
    · rfl
  · split
    · rfl
    · rfl

theorem pageCounter_mapFile (newPhys : U64) (h : Host ω) :
    (mapFile O r newPhys h).vm.pageCounter = h.vm.pageCounter := by
  unfold mapFile
  split
  · rfl
  · rfl

theorem pageCounter_kernelMapVma (hr : r.InTables) (hn : r.NeedsMap) :
    (h.kernelMapVma O r).1.vm.pageCounter = (h.vm.mapVmaPages r).pageCounter := by
  rw [kernelMapVma_needs hr hn]
  simp only
  split
  · rw [pageCounter_mapFile]
    split
    · rw [pageCounter_moveContents]
    · rfl
  · split
    · rw [pageCounter_moveContents]
    · rfl

/-- An anonymous VMA that has no memory yet. -/
theorem kernelMapVma_fresh (hr : r.InTables) (hphys : r.physPageStart = -1#64)
    (hfd : r.fileInfo.fd = noFd) :
    h.kernelMapVma O r =
      ({ h with vm := h.vm.mapVmaPages r }, r.mapFields (frameAddr h.vm.pageCounter)) := by
  have hmoves : ¬ r.Moves := fun hm => hm.1 hphys
  rw [kernelMapVma_needs hr (Or.inl hphys)]
  simp only [hmoves, if_false, hfd, ne_eq, not_true_eq_false]

/-- The machine after an anonymous VMA has got other bounds. -/
def Vm.resized (O : HostOs ω) (vm : Vm) (r : VmRegion) : Vm :=
  (vm.mapVmaPages r).movedFrames O (r.frame + (r.keptFirst - r.oldFirst))
    (r.keptLast - r.keptFirst) (vm.pageCounter + (r.keptFirst - r.first))

/-- An anonymous VMA that has got other bounds. -/
theorem kernelMapVma_moves (hr : r.InTables) (hm : r.Moves) (hk : r.Known h.vm)
    (hb : h.vm.pageCounter ≤ maxFrames) :
    h.kernelMapVma O r =
      ({ h with vm := h.vm.resized O r }, r.mapFields (frameAddr h.vm.pageCounter)) := by
  rw [kernelMapVma_needs hr (Or.inr hm.2.1)]
  simp only [hm, if_true, hm.2.2, ne_eq, not_true_eq_false, if_false]
  rw [maxFrames] at hb
  rw [moveContents_frames hr hk (fun i hi => (hk.data i hi).lt) (by omega)]
  rfl

/-- The frames that a move writes to hold no table. -/
theorem isData_of_moved (hp : h.vm.Paged) {vm' : Vm} (hmap : h.vm.MapsVma vm' r) (hr : r.InTables)
    (hk : r.Known h.vm) {f : Nat}
    (hf : (h.vm.pageCounter + (r.keptFirst - r.first) ≤ f ∧
        f < h.vm.pageCounter + (r.keptFirst - r.first) + (r.keptLast - r.keptFirst)) ∨
      (r.frame + (r.keptFirst - r.oldFirst) ≤ f ∧
        f < r.frame + (r.keptFirst - r.oldFirst) + (r.keptLast - r.keptFirst))) :
    vm'.IsData f := by
  have hlt := hr.lt
  have hkf : r.keptFirst = max r.first r.oldFirst := rfl
  have hkl : r.keptLast = min r.last r.oldLast := rfl
  rcases hf with ⟨h1, h2⟩ | ⟨h1, h2⟩
  · have hnew := hmap.isData_new hp (i := f - h.vm.pageCounter) (by omega)
    rwa [show h.vm.pageCounter + (f - h.vm.pageCounter) = f by omega] at hnew
  · have hold := hmap.keepsData _ (hk.data (f - r.frame) (by omega))
    rwa [show r.frame + (f - r.frame) = f by omega] at hold

/-- **What `kernel_map_vma` does** to the page tables when it has to map. -/
theorem kernelMapVma_spec (hp : h.vm.Paged) (hr : r.InTables) (hn : r.NeedsMap)
    (hk : r.Moves → r.Known h.vm)
    (hb : (h.kernelMapVma O r).1.vm.pageCounter ≤ maxFrames) :
    h.vm.MapsVma (h.kernelMapVma O r).1.vm r ∧
      (h.kernelMapVma O r).2 = r.mapFields (frameAddr h.vm.pageCounter) := by
  have hb' := hb
  rw [pageCounter_kernelMapVma hr hn] at hb'
  obtain ⟨hmap, -⟩ := mapVmaPages_spec hp hr hb'
  have hle := hmap.le
  have hlt := hr.lt
  have hbc : h.vm.pageCounter ≤ maxFrames := by omega
  refine ⟨?_, by rw [kernelMapVma_needs hr hn]⟩
  by_cases hm : r.Moves
  · rw [kernelMapVma_moves hr hm (hk hm) hbc]
    refine hmap.sameTables (hmap.paged.sameTables_data rfl rfl fun f hf => ?_) rfl
    unfold Vm.resized Vm.movedFrames
    simp only
    have hnot := fun hd => hf (isData_of_moved hp hmap hr (hk hm) hd)
    rw [if_neg (fun hd => hnot (Or.inl hd)), if_neg (fun hd => hnot (Or.inr hd))]
  · rw [kernelMapVma_needs hr hn]
    simp only [hm, if_false]
    split
    · unfold mapFile
      split
      · refine hmap.sameTables (hmap.paged.sameTables_data rfl rfl fun f hf => ?_) rfl
        unfold Vm.filled
        simp only
        rw [if_neg]
        rw [hr.pages_mul]
        rw [maxFrames] at hbc
        have hle' := hr.le
        rw [inRange_frameAddr (by omega) (by omega)]
        intro hin
        have hnew := hmap.isData_new hp (i := f - h.vm.pageCounter) (by omega)
        rw [show h.vm.pageCounter + (f - h.vm.pageCounter) = f by omega] at hnew
        exact hf hnew
      · exact hmap
    · exact hmap

end MapVma

end BufferVM
