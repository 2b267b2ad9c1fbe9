/-
  Vm/LoadSegment.lean --- `load_address_space` and the bytes of a segment.

  Every page of the range gets a frame, which is cleared and then filled from the segment.
  How much is copied depends on what is left of the segment: the counter is unsigned, and is
  decremented for every page, so that it wraps round on a page that begins behind the end of
  the segment.  Such a page is filled with what lies behind the segment in the file.
-/
import BufferVM.Vm.Capacity
import BufferVM.Vm.GuestBytes

set_option autoImplicit false

namespace BufferVM

/-! ## `load_address_space` with its copies -/

/-- `memset(vm.mem + phys, 0x0, 0x1000)`. -/
def Vm.clearPage (vm : Vm) (phys : U64) : Vm :=
  { vm with mem := fun f => if f = frameOf phys then zeroPage else vm.mem f }

/-- The number of bytes that are copied to a page. -/
def copySize (sizeLeftElf : U64) : Nat :=
  if sizeLeftElf < 0x1000#64 then sizeLeftElf.toNat else 0x1000

/-- The loop of `load_address_space`.  It also says which bytes of the segment it has read:
from which one on, and how many. -/
def loadSegmentLoop (end' flags : U64) (elfSegStart : Nat → BitVec 8) :
    Nat → U64 → U64 → U64 → Vm → Option (List (Nat × Nat) × Vm)
  | 0, _, _, _, _ => none
  | fuel + 1, i, sizeLeftElf, p, vm =>
      if p < end' then
        let (phyAddr, vm) := allocatePages 1#64 vm
        let vm := vm.clearPage phyAddr
        let vm := vm.memcpy (fun j => elfSegStart (i.toNat + j)) (copySize sizeLeftElf) phyAddr
        let vm := (mapPhysicalPages p phyAddr flags 1#64 0#64 vm).2
        (loadSegmentLoop end' flags elfSegStart fuel (i + 0x1000#64) (sizeLeftElf - 0x1000#64)
          (p + pageSize) vm).map fun x => ((i.toNat, copySize sizeLeftElf) :: x.1, x.2)
      else some ([], vm)

/-- `load_address_space` of a segment, whose bytes and the ones behind them in memory are
`elf_seg_start`. -/
def loadSegment (startAddr memSize : U64) (elfSegStart : Nat → BitVec 8) (elfSegSize flags : U64)
    (vm : Vm) : Option (List (Nat × Nat) × Vm) :=
  loadSegmentLoop (startAddr + memSize) flags elfSegStart (2 ^ 52 + 1) 0#64 elfSegSize startAddr vm

/-! ## The pages of a segment -/

/-- A page with `n` bytes at its beginning, and zero behind them. -/
def filledPage (source : Nat → BitVec 8) : Nat → U64 → U64
  | 0 => zeroPage
  | n + 1 => fun i =>
      if i = BitVec.ofNat 64 (n / 8) then setWordByte (filledPage source n i) (n % 8) (source n)
      else filledPage source n i

/-- What the copy leaves in a page of the range. -/
def segmentPage (elfSegStart : Nat → BitVec 8) (elfSegSize : U64) (i : Nat) : U64 → U64 :=
  filledPage (fun j => elfSegStart ((frameAddr i).toNat + j)) (copySize (elfSegSize - frameAddr i))

/-- The bytes of the segment that are read for some pages. -/
def segmentReads (elfSegSize : U64) : Nat → Nat → List (Nat × Nat)
  | _, 0 => []
  | i, n + 1 =>
      ((frameAddr i).toNat, copySize (elfSegSize - frameAddr i)) :: segmentReads elfSegSize
      (i + 1) n

theorem copySize_le (sizeLeftElf : U64) : copySize sizeLeftElf ≤ 4096 := by
  unfold copySize
  split
  · rename_i h
    exact Nat.le_of_lt (BitVec.lt_def.mp h)
  · exact le_rfl

/-- The bytes of a filled page. -/
theorem byteOf_filledPage (source : Nat → BitVec 8) {n : Nat} (hn : n ≤ 4096) (a : U64) :
    byteOf (filledPage source n) a =
      if a.toNat % 4096 < n then source (a.toNat % 4096) else 0#8 := by
  induction n with
  | zero => exact byteOf_zeroPage a
  | succ n ih =>
      have hrest := ih (by omega)
      have hword : BitVec.ofNat 64 (a.toNat % 4096 / 8) = BitVec.ofNat 64 (n / 8) ↔
          a.toNat % 4096 / 8 = n / 8 := by
        rw [← BitVec.toNat_inj, BitVec.toNat_ofNat, BitVec.toNat_ofNat]
        omega
      rw [byteOf] at hrest ⊢
      simp only [filledPage, hword]
      by_cases hw : a.toNat % 4096 / 8 = n / 8
      · rw [if_pos hw]
        by_cases hk : a.toNat % 8 = n % 8
        · have heq : a.toNat % 4096 = n := by omega
          rw [hk, setWordByte_same _ (Nat.mod_lt _ (by decide)), heq, if_pos (Nat.lt_succ_self n)]
        · rw [setWordByte_other _ (Nat.mod_lt _ (by decide)) hk, hrest]
          exact if_congr (by omega) rfl rfl
      · rw [if_neg hw, hrest]
        exact if_congr (by omega) rfl rfl

/-- A page that has been allocated, cleared and filled. -/
theorem memcpy_clearPage (vm : Vm) (source : Nat → BitVec 8) {n : Nat} (hn : n ≤ 4096) :
    Vm.memcpy source n (frameAddr vm.pageCounter)
        (Vm.clearPage { vm with pageCounter := vm.pageCounter + 1 } (frameAddr vm.pageCounter)) =
      vm.loaded (filledPage source n) := by
  induction n with
  | zero => rfl
  | succ n ih =>
      have hal : (frameAddr vm.pageCounter).toNat % 4096 = 0 := pageAligned_frameAddr _
      have hadd := toNat_add_page (a := frameAddr vm.pageCounter) (k := n) (by omega)
      have hframe := frameOf_add (p := frameAddr vm.pageCounter) (k := n) (by omega)
      have hword : (frameAddr vm.pageCounter + BitVec.ofNat 64 n).toNat % 4096 / 8 = n / 8 := by
        omega
      have hbyte : (frameAddr vm.pageCounter + BitVec.ofNat 64 n).toNat % 8 = n % 8 := by omega
      rw [Vm.memcpy, ih (by omega), Vm.setByte, hword, hbyte, Vm.setEntry, Vm.entry, hframe,
        Vm.loaded, Vm.loaded]
      simp only [Vm.mk.injEq, and_true]
      funext f i
      by_cases hf : f = frameOf (frameAddr vm.pageCounter)
      · by_cases hi : i = BitVec.ofNat 64 (n / 8)
        · simp [Radix.write, hf, hi, filledPage]
        · simp [Radix.write, hf, hi, filledPage]
      · simp [Radix.write, hf]

/-! ## The same loop as the one with abstract pages -/

section Refines

variable {end' flags : U64} {elfSegStart : Nat → BitVec 8} {elfSegSize : U64}

theorem loadSegmentLoop_succ {p : U64} (fuel i : Nat) (vm : Vm) (hp : p < end') :
    loadSegmentLoop end' flags elfSegStart (fuel + 1) (frameAddr i)
      (elfSegSize - frameAddr i) p vm =
      (loadSegmentLoop end' flags elfSegStart fuel (frameAddr (i + 1))
        (elfSegSize - frameAddr (i + 1))
        (p + pageSize) (mapPhysicalPage p (frameAddr vm.pageCounter) flags false
          (vm.loaded (segmentPage elfSegStart elfSegSize i)))).map fun x =>
        (((frameAddr i).toNat, copySize (elfSegSize - frameAddr i)) :: x.1, x.2) := by
  have hnext : frameAddr i + 0x1000#64 = frameAddr (i + 1) := frameAddr_add i 1
  have hleft : elfSegSize - frameAddr i - 0x1000#64 = elfSegSize - frameAddr (i + 1) := by
    rw [← hnext]
    bv_omega
  rw [loadSegmentLoop, if_pos hp]
  simp only [allocatePages_of_ne (show (1#64 : U64) ≠ 0#64 by decide)]
  rw [mapPhysicalPages_one, hnext, hleft]
  rw [show (1#64 : U64).toNat = 1 by decide, memcpy_clearPage vm _ (copySize_le _)]
  rfl

/-- **The loop with its copies** is the loop that is given the pages it leaves. -/
theorem loadSegmentLoop_eq (fuel : Nat) : ∀ (i : Nat) (p : U64) (vm : Vm),
    loadSegmentLoop end' flags elfSegStart fuel (frameAddr i) (elfSegSize - frameAddr i) p vm =
      (loadLoop end' flags (segmentPage elfSegStart elfSegSize) fuel i p vm).map fun vm' =>
        (segmentReads elfSegSize i (segmentPages p end'), vm') := by
  induction fuel with
  | zero => intro i p vm; rfl
  | succ fuel ih =>
      intro i p vm
      by_cases hp : p < end'
      · rw [loadSegmentLoop_succ fuel i vm hp, loadLoop_succ flags _ fuel i vm hp, ih,
          Option.map_map]
        rcases Nat.lt_or_ge (p.toNat + 4096) (2 ^ 64) with hw | hw
        · rw [segmentPages_succ hp hw]
          rfl
        · -- the last page of all: the loop does not come back
          have hnone : loadLoop end' flags (segmentPage elfSegStart elfSegSize) fuel (i + 1)
              (p + pageSize) (mapPhysicalPage p (frameAddr vm.pageCounter) flags false
                (vm.loaded (segmentPage elfSegStart elfSegSize i))) = none := by
            apply loadLoop_none
            intro q hq
            have hs : pageSize.toNat = 4096 := by decide
            have hlt := BitVec.lt_def.mp hp
            have hq' := q.isLt
            rw [BitVec.toNat_add, hs] at hq
            exact BitVec.lt_def.mpr (by omega)
          rw [hnone]
          rfl
      · rw [loadSegmentLoop, if_neg hp, loadLoop, if_neg hp, segmentPages, if_neg hp]
        rfl

theorem loadSegment_eq (startAddr memSize : U64) (vm : Vm) :
    loadSegment startAddr memSize elfSegStart elfSegSize flags vm =
      (loadAddressSpace startAddr memSize flags (segmentPage elfSegStart elfSegSize) vm).map
        fun vm' => (segmentReads elfSegSize 0 (segmentPages startAddr (startAddr + memSize)),
          vm') := by
  have heq : loadSegmentLoop (startAddr + memSize) flags elfSegStart (2 ^ 52 + 1) (frameAddr 0)
      (elfSegSize - frameAddr 0) startAddr vm = _ := loadSegmentLoop_eq (2 ^ 52 + 1) 0 startAddr vm
  have hzero : frameAddr 0 = 0#64 := by decide
  rw [hzero, BitVec.sub_zero] at heq
  exact heq

end Refines

/-! ## What the range reads as -/

/-- The memory after a frame has been mapped holds it for the page. -/
theorem readByte_of_pte {vm : Vm} (hp : vm.Paged) {v prot : U64} {f : Nat}
    (hprot : prot &&& ~~~flagBits = 0#64) (hf : f < maxFrames)
    (hpte : vm.pte v = some (leafEntry prot (frameAddr f))) :
    vm.readByte v = some (byteOf (vm.mem f) v) := by
  rw [maxFrames] at hf
  have hframe : PhysPage (frameAddr f) := by
    refine ⟨pageAligned_frameAddr f, ?_⟩
    rw [toNat_frameAddr (by omega)]
    omega
  apply readByte_of_physAddr (by omega)
  rw [getPhysAddr_eq hp, hpte, Option.map_some, leafEntry_and_entryMask hprot hframe]

section Reads

variable {end' flags : U64} {page : Nat → U64 → U64} {vm vm' : Vm}

/-- The data of a frame is kept. -/
def Vm.KeepsFrames (vm vm' : Vm) : Prop := ∀ f, vm.IsData f → vm'.IsData f ∧ vm'.mem f = vm.mem f

theorem Vm.KeepsFrames.trans {vm'' : Vm} (h : vm.KeepsFrames vm') (h' : vm'.KeepsFrames vm'') :
    vm.KeepsFrames vm'' := by
  intro f hf
  obtain ⟨hdata, hmem⟩ := h f hf
  obtain ⟨hdata', hmem'⟩ := h' f hdata
  exact ⟨hdata', hmem'.trans hmem⟩

/-- One turn of the loop: a frame is taken, filled and mapped. -/
theorem loadPage_spec (h : vm.Paged) (p : U64) (contents : U64 → U64)
    (hb : (mapPhysicalPage p (frameAddr vm.pageCounter) flags false
      (vm.loaded contents)).pageCounter ≤ maxFrames) :
    (mapPhysicalPage p (frameAddr vm.pageCounter) flags false (vm.loaded contents)).Paged ∧
      vm.KeepsFrames (mapPhysicalPage p (frameAddr vm.pageCounter) flags false
        (vm.loaded contents)) ∧
      (∀ v, (mapPhysicalPage p (frameAddr vm.pageCounter) flags false (vm.loaded contents)).pte v =
        if pageNumber v = pageNumber p then some (leafEntry flags (frameAddr vm.pageCounter))
        else vm.pte v) ∧
      (mapPhysicalPage p (frameAddr vm.pageCounter) flags false (vm.loaded contents)).IsData
        vm.pageCounter ∧
      (mapPhysicalPage p (frameAddr vm.pageCounter) flags false (vm.loaded contents)).mem
        vm.pageCounter = contents := by
  have hge := le_pageCounter_mapPhysicalPage p (frameAddr vm.pageCounter) flags false
    (vm.loaded contents)
  have hone : (vm.loaded contents).pageCounter = vm.pageCounter + 1 := rfl
  have hlt : vm.pageCounter < maxFrames := by omega
  have hsame := h.loaded hlt contents
  have hspec := mapPhysicalPage_spec hsame.paged p (frameAddr vm.pageCounter) flags false
    (pageAligned_frameAddr _).ne_pageCreate hb
  have hframe : frameOf (frameAddr vm.pageCounter) = vm.pageCounter := by
    rw [maxFrames] at hlt
    exact frameOf_frameAddr (by omega)
  have hnew : (vm.loaded contents).IsData vm.pageCounter := by
    refine ⟨Nat.lt_succ_self _, fun ht => ?_⟩
    have hold := h.isTable_lt ((hsame.isTable _).mp ht)
    omega
  refine ⟨hspec.paged, fun f hf => ?_, fun v => ?_, hspec.keepsData _ hnew, ?_⟩
  · have hdata : (vm.loaded contents).IsData f := by
      refine ⟨Nat.lt_succ_of_lt hf.lt, fun ht => ?_⟩
      exact hf.notTable ((hsame.isTable _).mp ht)
    have hkept := hspec.keepsData f hdata
    refine ⟨hkept, (hspec.mem f hkept.notTable).trans (if_neg ?_)⟩
    have := hf.lt
    omega
  · rw [hspec.pte v, hsame.pte v]
    simp only [updatedEntry, List.foldl_cons, List.foldl_nil, mapUpdate, true_or, if_true]
    rfl
  · rw [hspec.mem _ (hspec.keepsData _ hnew).notTable]
    exact if_pos hframe.symm

/-- **What loading leaves**: every page of the range that is not mapped again holds its own
contents. -/
theorem loadLoop_reads {fuel i : Nat} {p : U64} (h : vm.Paged)
    (hrun : loadLoop end' flags page fuel i p vm = some vm') (hb : vm'.pageCounter ≤ maxFrames) :
    vm.KeepsFrames vm' ∧
      (∀ v, (∀ j, j < segmentPages p end' → pageNumber v ≠ pageNumber (p + frameAddr j)) →
        vm'.pte v = vm.pte v) ∧
      ∀ j, j < segmentPages p end' → (∀ l, j < l → l < segmentPages p end' →
          pageNumber (p + frameAddr j) ≠ pageNumber (p + frameAddr l)) →
        ∃ f, vm'.IsData f ∧ vm'.pte (p + frameAddr j) = some (leafEntry flags (frameAddr f)) ∧
          vm'.mem f = page (i + j) := by
  induction fuel generalizing i p vm with
  | zero => exact absurd hrun (by simp [loadLoop])
  | succ fuel ih =>
      by_cases hp : p < end'
      · have hw : p.toNat + 4096 < 2 ^ 64 := by
          by_contra hc
          rw [loadLoop_none (fuel + 1) i p vm fun q hq => ?_] at hrun
          · exact absurd hrun (by simp)
          · have hq' := q.isLt
            have hlt := BitVec.lt_def.mp hp
            exact BitVec.lt_def.mpr (by omega)
        rw [loadLoop_succ flags page fuel i vm hp] at hrun
        have hle := le_pageCounter_loadLoop hrun
        obtain ⟨hpaged, hkeeps, hpte, hdata, hmem⟩ := loadPage_spec h p (page i) (hle.trans hb)
        obtain ⟨hkeeps', hrest, hpages⟩ := ih hpaged hrun
        have hshift : ∀ j, p + pageSize + frameAddr j = p + frameAddr (j + 1) := by
          intro j
          rw [pageSize_eq, BitVec.add_assoc, frameAddr_add, Nat.add_comm 1 j]
        have hzero : p + frameAddr 0 = p := BitVec.add_zero p
        simp only [hshift] at hrest hpages
        rw [segmentPages_succ hp hw]
        refine ⟨hkeeps.trans hkeeps', fun v hv => ?_, fun j hj hlater => ?_⟩
        · rw [hrest v fun j hj => hv (j + 1) (by omega), hpte v, if_neg]
          rw [← hzero]
          exact hv 0 (by omega)
        · cases j with
          | zero =>
              obtain ⟨hdata', hmem'⟩ := hkeeps' _ hdata
              refine ⟨vm.pageCounter, hdata', ?_, hmem'.trans hmem⟩
              rw [hrest _ fun l hl => hlater (l + 1) (by omega) (by omega), hpte, hzero, if_pos rfl]
          | succ j =>
              obtain ⟨f, hf⟩ := hpages j (by omega) fun l hl hl' =>
                hlater (l + 1) (by omega) (by omega)
              refine ⟨f, ?_⟩
              rwa [Nat.add_right_comm, Nat.add_assoc] at hf
      · rw [loadLoop, if_neg hp] at hrun
        obtain rfl := Option.some.inj hrun
        have hnone : segmentPages p end' = 0 := if_neg hp
        refine ⟨fun f hf => ⟨hf, rfl⟩, fun v _ => rfl, fun j hj => ?_⟩
        omega

/-- A range that does not end in the last page of all is loaded. -/
theorem loadLoop_some {fuel i : Nat} {p : U64} (hend : end'.toNat + 4096 ≤ 2 ^ 64)
    (hfuel : segmentPages p end' < fuel) : ∃ vm', loadLoop end' flags page fuel i p vm =
    some vm' := by
  induction fuel generalizing i p vm with
  | zero => omega
  | succ fuel ih =>
      by_cases hp : p < end'
      · have hlt := BitVec.lt_def.mp hp
        rw [segmentPages_succ hp (by omega)] at hfuel
        rw [loadLoop_succ flags page fuel i vm hp]
        exact ih (by omega)
      · exact ⟨vm, by rw [loadLoop, if_neg hp]⟩

end Reads

/-! ## The segment in memory -/

/-- The byte of the segment at an index: that of the file, and zero behind them. -/
def segmentByte (elfSegStart : Nat → BitVec 8) (elfSegSize : U64) (k : Nat) : BitVec 8 :=
  if k < elfSegSize.toNat then elfSegStart k else 0#8

/-- After `load_address_space` the range reads as the segment, and nothing behind the
segment has been read. -/
def LoadsSegment (startAddr memSize : U64) (elfSegStart : Nat → BitVec 8) (elfSegSize flags : U64)
    (vm : Vm) : Prop :=
  ∃ reads vm', loadSegment startAddr memSize elfSegStart elfSegSize flags vm = some (reads, vm') ∧
    (∀ k, k < memSize.toNat → vm'.readByte (startAddr + BitVec.ofNat 64 k) =
      some (segmentByte elfSegStart elfSegSize k)) ∧
    ∀ x ∈ reads, ∀ j, j < x.2 → x.1 + j < elfSegSize.toNat

/-- The frames that the pages of the range and their tables take are left. -/
def SegmentRoom (startAddr memSize : U64) (vm : Vm) : Prop :=
  vm.pageCounter + segmentPages startAddr (startAddr + memSize) +
    vm.missingTables (segmentPages startAddr (startAddr + memSize)) startAddr + 4 ≤ maxFrames

/-- The last page of a range of `n` that has the entry of page `j` in the page tables. -/
def lastAlias (n j : Nat) : Nat := j + 2 ^ 27 * ((n - 1 - j) / 2 ^ 27)

/-- No page of the range begins behind the end of the file's part.  A range that goes round
the end of the address space is not loaded at all, and one that ends in the last page of it
for ever; of the pages that have one entry, the last one is read for all. -/
structure SegmentFits (startAddr memSize : U64) (elfSegStart : Nat → BitVec 8) (elfSegSize : U64)
    (vm : Vm) : Prop where
  unloaded : ¬ startAddr < startAddr + memSize → ∀ k, k < memSize.toNat →
    vm.readByte (startAddr + BitVec.ofNat 64 k) = some (segmentByte elfSegStart elfSegSize k)
  ends : startAddr < startAddr + memSize → (startAddr + memSize).toNat + 4096 ≤ 2 ^ 64
  covered : startAddr < startAddr + memSize →
    4096 * segmentPages startAddr (startAddr + memSize) ≤ elfSegSize.toNat + 4096
  folded : startAddr < startAddr + memSize → ∀ k, k < memSize.toNat →
    segmentByte elfSegStart elfSegSize
        (4096 * lastAlias (segmentPages startAddr (startAddr + memSize)) (k / 4096) + k % 4096) =
      segmentByte elfSegStart elfSegSize k

section Segment

variable {startAddr memSize elfSegSize flags : U64} {elfSegStart : Nat → BitVec 8} {vm : Vm}

theorem mem_segmentReads {x : Nat × Nat} (n : Nat) : ∀ i : Nat, x ∈ segmentReads elfSegSize i n ↔
    ∃ l, l < n ∧ x = ((frameAddr (i + l)).toNat, copySize (elfSegSize - frameAddr (i + l))) := by
  induction n with
  | zero =>
      intro i
      simp [segmentReads]
  | succ n ih =>
      intro i
      rw [segmentReads, List.mem_cons, ih (i + 1)]
      constructor
      · intro hx
        rcases hx with hx | ⟨l, hl, hx⟩
        · exact ⟨0, by omega, hx⟩
        · exact ⟨l + 1, by omega, by rw [hx, Nat.add_assoc, Nat.add_comm 1 l]⟩
      · intro hx
        obtain ⟨l, hl, hx⟩ := hx
        cases l with
        | zero => exact Or.inl hx
        | succ l => exact Or.inr ⟨l, by omega, by rw [hx, Nat.add_assoc, Nat.add_comm 1 l]⟩

/-- What is copied to a page that does not begin behind the segment. -/
theorem copySize_covered {j : Nat} (hj : 4096 * j ≤ elfSegSize.toNat) :
    (frameAddr j).toNat = 4096 * j ∧
      copySize (elfSegSize - frameAddr j) = min 4096 (elfSegSize.toNat - 4096 * j) := by
  have hlt := elfSegSize.isLt
  have hframe : (frameAddr j).toNat = 4096 * j := by
    rw [toNat_frameAddr (by omega)]
    omega
  have hsub : (elfSegSize - frameAddr j).toNat = elfSegSize.toNat - 4096 * j := by
    rw [BitVec.toNat_sub_of_le (BitVec.le_def.mpr (by omega)), hframe]
  have hpage : (0x1000#64 : U64).toNat = 4096 := by decide
  refine ⟨hframe, ?_⟩
  unfold copySize
  rw [hsub]
  split
  · rename_i hs
    rw [BitVec.lt_def, hsub] at hs
    omega
  · rename_i hs
    rw [BitVec.lt_def, hsub] at hs
    omega

/-- Such a page holds its part of the segment. -/
theorem byteOf_segmentPage {j : Nat} (hj : 4096 * j ≤ elfSegSize.toNat) (a : U64) :
    byteOf (segmentPage elfSegStart elfSegSize j) a =
      segmentByte elfSegStart elfSegSize (4096 * j + a.toNat % 4096) := by
  obtain ⟨hframe, hcopy⟩ := copySize_covered hj
  rw [segmentPage, byteOf_filledPage _ (copySize_le _), hcopy, hframe, segmentByte]
  exact if_congr (by omega) rfl rfl

/-- On a page that begins behind the segment the counter has wrapped round. -/
theorem copySize_behind {j : Nat} (hj : elfSegSize.toNat < 4096 * j)
    (hle : 4096 * j + 4096 ≤ 2 ^ 64) :
    (frameAddr j).toNat = 4096 * j ∧ copySize (elfSegSize - frameAddr j) = 0x1000 := by
  have hframe : (frameAddr j).toNat = 4096 * j := by
    rw [toNat_frameAddr (by omega)]
    omega
  have hpage : (0x1000#64 : U64).toNat = 4096 := by decide
  refine ⟨hframe, ?_⟩
  unfold copySize
  rw [if_neg]
  rw [BitVec.lt_def, BitVec.toNat_sub, hframe, hpage]
  omega

/-- A call that reads nothing behind the segment has no such page. -/
theorem covered_of_reads {n : Nat} (hn : 4096 * n ≤ 2 ^ 64)
    (h : ∀ x ∈ segmentReads elfSegSize 0 n, ∀ j, j < x.2 → x.1 + j < elfSegSize.toNat) :
    4096 * n ≤ elfSegSize.toNat + 4096 := by
  by_contra hno
  have hbehind : elfSegSize.toNat < 4096 * (0 + (n - 1)) := by omega
  obtain ⟨hframe, hcopy⟩ := copySize_behind hbehind (by omega)
  have hread := h _ ((mem_segmentReads n 0).mpr ⟨n - 1, by omega, rfl⟩) 0 (by
    rw [hcopy]
    exact Nat.succ_pos _)
  simp only at hread
  omega

theorem reads_of_covered {n : Nat} (h : 4096 * n ≤ elfSegSize.toNat + 4096) :
    ∀ x ∈ segmentReads elfSegSize 0 n, ∀ j, j < x.2 → x.1 + j < elfSegSize.toNat := by
  intro x hx j hj
  obtain ⟨l, hl, rfl⟩ := (mem_segmentReads n 0).mp hx
  rw [Nat.zero_add] at hj ⊢
  have hcov : 4096 * l ≤ elfSegSize.toNat := by omega
  obtain ⟨hframe, hcopy⟩ := copySize_covered hcov
  simp only at hj ⊢
  omega

theorem segmentPages_le (startAddr memSize : U64) :
    4096 * segmentPages startAddr (startAddr + memSize) ≤ 2 ^ 64 := by
  have hlt := (startAddr + memSize - startAddr).isLt
  unfold segmentPages
  split
  · omega
  · omega

theorem LoadsSegment.covered
    (h : LoadsSegment startAddr memSize elfSegStart elfSegSize flags vm) :
    4096 * segmentPages startAddr (startAddr + memSize) ≤ elfSegSize.toNat + 4096 := by
  obtain ⟨reads, vm', hrun, -, hreads⟩ := h
  rw [loadSegment_eq, Option.map_eq_some_iff] at hrun
  obtain ⟨vm'', -, heq⟩ := hrun
  obtain ⟨rfl, -⟩ := Prod.mk.inj heq
  exact covered_of_reads (segmentPages_le startAddr memSize) hreads

/-- A range that is loaded at all does not go round. -/
theorem toNat_range (h : startAddr < startAddr + memSize) :
    (startAddr + memSize).toNat = startAddr.toNat + memSize.toNat ∧
      segmentPages startAddr (startAddr + memSize) = (memSize.toNat + 4095) / 4096 := by
  have hlt := BitVec.lt_def.mp h
  have hm := memSize.isLt
  have hadd : (startAddr + memSize).toNat = startAddr.toNat + memSize.toNat := by
    rw [BitVec.toNat_add] at hlt ⊢
    omega
  have hsub : startAddr + memSize - startAddr = memSize := by
    rw [BitVec.add_comm, BitVec.add_sub_cancel]
  exact ⟨hadd, by rw [segmentPages, if_pos h, hsub]⟩

/-- The bytes of a range that is covered by the segment, as they are read in the end. -/
theorem readByte_loaded {reads : List (Nat × Nat)} {vm' : Vm} (hp : vm.Paged)
    (hal : PageAligned startAddr) (hflags : flags &&& ~~~flagBits = 0#64)
    (h : startAddr < startAddr + memSize)
    (hroom : SegmentRoom startAddr memSize vm)
    (hrun : loadSegment startAddr memSize elfSegStart elfSegSize flags vm = some (reads, vm'))
    (hend : (startAddr + memSize).toNat + 4096 ≤ 2 ^ 64)
    (hcov : 4096 * segmentPages startAddr (startAddr + memSize) ≤ elfSegSize.toNat + 4096)
    {k : Nat} (hk : k < memSize.toNat) :
    vm'.readByte (startAddr + BitVec.ofNat 64 k) = some (segmentByte elfSegStart elfSegSize
      (4096 * lastAlias (segmentPages startAddr (startAddr + memSize)) (k / 4096) + k % 4096)) := by
  obtain ⟨hadd, hpages⟩ := toNat_range h
  rw [SegmentRoom] at hroom
  rw [loadSegment_eq, Option.map_eq_some_iff] at hrun
  obtain ⟨vm'', hload, heq⟩ := hrun
  obtain ⟨-, rfl⟩ := Prod.mk.inj heq
  obtain ⟨hpaged, hcount⟩ := loadLoop_spec hp hload (Or.inl hroom)
  obtain ⟨-, -, hreads⟩ := loadLoop_reads hp hload (by omega)
  rw [PageAligned] at hal
  generalize segmentPages startAddr (startAddr + memSize) = n at *
  have haddr : (startAddr + BitVec.ofNat 64 k).toNat = startAddr.toNat + k := by
    rw [BitVec.toNat_add, BitVec.toNat_ofNat]
    omega
  have hpage : ∀ j, j < n → (startAddr + frameAddr j).toNat = startAddr.toNat + 4096 * j := by
    intro j hj
    rw [BitVec.toNat_add, toNat_frameAddr (by omega)]
    omega
  have hq : lastAlias n (k / 4096) = k / 4096 + 2 ^ 27 * ((n - 1 - k / 4096) / 2 ^ 27) := rfl
  have hlt : lastAlias n (k / 4096) < n := by omega
  obtain ⟨f, hdata, hpte, hmem⟩ := hreads _ hlt fun l hl hl' => by
    rw [pageNumber, pageNumber, hpage _ hlt, hpage l hl']
    omega
  have hsame : pageNumber (startAddr + BitVec.ofNat 64 k) =
      pageNumber (startAddr + frameAddr (lastAlias n (k / 4096))) := by
    rw [pageNumber, pageNumber, haddr, hpage _ hlt]
    omega
  have hf := hdata.lt
  rw [readByte_of_pte hpaged hflags (by omega) ((Vm.pte_congr hsame).trans hpte), hmem,
    Nat.zero_add, byteOf_segmentPage (by omega)]
  congr 2
  omega

/-- **A kernel segment is loaded with zeroed bss** exactly when none of its pages begins
behind the bytes of the file. -/
theorem loadsSegment_iff (hp : vm.Paged) (hal : PageAligned startAddr)
    (hflags : flags &&& ~~~flagBits = 0#64)
    (hroom : SegmentRoom startAddr memSize vm)
    (elfSegStart : Nat → BitVec 8) :
    LoadsSegment startAddr memSize elfSegStart elfSegSize flags vm ↔
      SegmentFits startAddr memSize elfSegStart elfSegSize vm := by
  by_cases h : startAddr < startAddr + memSize
  · constructor
    · intro hloads
      have hcov := hloads.covered
      obtain ⟨reads, vm', hrun, hbytes, -⟩ := hloads
      have hend : (startAddr + memSize).toNat + 4096 ≤ 2 ^ 64 := by
        by_contra hc
        rw [PageAligned] at hal
        have hrun' := hrun
        rw [loadSegment_eq, loadAddressSpace,
          loadLoop_none _ _ _ _ fun q hq => BitVec.lt_def.mpr (by omega)] at hrun'
        exact absurd hrun' (by simp)
      refine ⟨fun hno => absurd h hno, fun _ => hend, fun _ => hcov, fun _ k hk => ?_⟩
      have hbyte := readByte_loaded hp hal hflags h hroom hrun hend hcov hk
      rw [hbytes k hk] at hbyte
      exact (Option.some.inj hbyte).symm
    · intro hfits
      have hend := hfits.ends h
      have hcov := hfits.covered h
      have hle := segmentPages_le startAddr memSize
      have hfuel : segmentPages startAddr (startAddr + memSize) < 2 ^ 52 + 1 := by omega
      obtain ⟨vm', hload⟩ : ∃ vm', loadLoop (startAddr + memSize) flags
          (segmentPage elfSegStart elfSegSize) (2 ^ 52 + 1) 0 startAddr vm = some vm' :=
        loadLoop_some hend hfuel
      have hrun : loadSegment startAddr memSize elfSegStart elfSegSize flags vm =
          some (segmentReads elfSegSize 0 (segmentPages startAddr (startAddr + memSize)), vm') := by
        rw [loadSegment_eq, loadAddressSpace, hload, Option.map_some]
      refine ⟨_, vm', hrun, fun k hk => ?_, reads_of_covered hcov⟩
      rw [readByte_loaded hp hal hflags h hroom hrun hend hcov hk, hfits.folded h k hk]
  · have hrun : loadSegment startAddr memSize elfSegStart elfSegSize flags vm = some ([], vm) := by
      rw [loadSegment, loadSegmentLoop, if_neg h]
    constructor
    · intro hloads
      obtain ⟨reads, vm', hrun', hbytes, -⟩ := hloads
      rw [hrun] at hrun'
      obtain ⟨-, rfl⟩ := Prod.mk.inj (Option.some.inj hrun')
      exact ⟨fun _ => hbytes, fun hlt => absurd hlt h, fun hlt => absurd hlt h,
        fun hlt => absurd hlt h⟩
    · intro hfits
      exact ⟨[], vm, hrun, hfits.unloaded h, fun x hx => absurd hx List.not_mem_nil⟩

/-- A range of the usual size is loaded when no page of it begins behind the file's part. -/
theorem segmentFits_of_small (h : startAddr < startAddr + memSize)
    (hend : (startAddr + memSize).toNat + 4096 ≤ 2 ^ 64) (hsmall : memSize.toNat ≤ 2 ^ 39)
    (hcov : 4096 * segmentPages startAddr (startAddr + memSize) ≤ elfSegSize.toNat + 4096) :
    SegmentFits startAddr memSize elfSegStart elfSegSize vm := by
  refine ⟨fun hno => absurd h hno, fun _ => hend, fun _ => hcov, fun _ k hk => ?_⟩
  obtain ⟨-, hpages⟩ := toNat_range h
  have hlast : lastAlias (segmentPages startAddr (startAddr + memSize)) (k / 4096) = k / 4096 := by
    rw [lastAlias, hpages]
    omega
  rw [hlast, Nat.div_add_mod]

end Segment

/-- A segment of a page and a half whose first page comes from the file. -/
theorem loadsSegment_twoPages :
    LoadsSegment 0x1000#64 0x1800#64 (fun k => BitVec.ofNat 8 k) 0x1000#64 pde64Writeable
      (buildPageTables blankVm) := by
  have hpaged : (buildPageTables blankVm).Paged := initial_blankVm.refines.paged
  have hroom : SegmentRoom 0x1000#64 0x1800#64 (buildPageTables blankVm) := by
    unfold SegmentRoom
    decide +kernel
  have hal : PageAligned 0x1000#64 := by decide
  have hflags : pde64Writeable &&& ~~~flagBits = 0#64 := by decide
  apply (loadsSegment_iff hpaged hal hflags hroom _).mpr
  exact segmentFits_of_small (by decide) (by decide) (by decide) (by decide)

/-- Of a segment with 16 bytes in the file and two pages in memory, the second page is filled
with what lies behind it in the file. -/
theorem secondPage_notZero :
    ¬ LoadsSegment 0x1000#64 0x2000#64 (fun _ => 0x41#8) 0x10#64 pde64Writeable
      (buildPageTables blankVm) := by
  intro h
  exact absurd h.covered (by decide)

end BufferVM
