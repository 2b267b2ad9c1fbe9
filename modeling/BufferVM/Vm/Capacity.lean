/-
  Vm/Capacity.lean --- physical memory is handed out without a bound.

  `allocate_pages` adds to a counter and never compares it with the size of the machine's
  memory, so a call that needs more pages than are left is served all the same.  What a
  call takes can be read off the state before it: the pages it is asked for, and the tables
  on the way to them that are not there yet.  Along every run in which each call finds
  that many pages left, every page handed out lies in the machine's memory.
-/
import BufferVM.Lib.Run
import BufferVM.Vm.HostMap
import BufferVM.Vm.PageMap

set_option autoImplicit false

namespace BufferVM

variable {ω : Type}

/-! ## The calls and what they need -/

/-- A call that hands out physical pages. -/
inductive MemoryCall where
  | mapPages (virt phys prot numPages flags : U64)
  | unmapPage (virt : U64)
  | mapVma (r : VmRegion)
  | load (startAddr memSize flags : U64) (page : Nat → U64 → U64)

/-- The host after a call. -/
def MemoryCall.run (O : HostOs ω) (h : Host ω) : MemoryCall → Option (Host ω)
  | .mapPages virt phys prot numPages flags =>
      some { h with vm := (mapPhysicalPages virt phys prot numPages flags h.vm).2 }
  | .unmapPage virt => some { h with vm := unmapPhysicalPage virt h.vm }
  | .mapVma r => some (h.kernelMapVma O r).1
  | .load startAddr memSize flags page =>
      (loadAddressSpace startAddr memSize flags page h.vm).map fun vm => { h with vm := vm }

/-- The calls as they are issued: physical pages are given by page addresses, and a VMA
that has been mapped before has the memory that the host gave it. -/
def MemoryCall.Issued (h : Host ω) : MemoryCall → Prop
  | .mapPages _ phys _ _ _ => phys ≠ -1#64 → PageAligned phys
  | .unmapPage _ => True
  | .mapVma r => r.InTables ∧ (r.Moves → r.Known h.vm)
  | .load _ _ _ _ => True

/-- The number of pages from an address to the end of a segment. -/
def segmentPages (p end' : U64) : Nat := if p < end' then ((end' - p).toNat + 4095) / 4096 else 0

/-- The tables that a range of pages needs and that are not there. -/
def Vm.missingTables (vm : Vm) (n : Nat) (virt : U64) : Nat :=
  (vm.missing (tablesFor (rangePages n virt))).card

/-- The number of pages that a call takes. -/
def MemoryCall.demand (vm : Vm) : MemoryCall → Nat
  | .mapPages virt phys _ numPages _ =>
      dataPages phys numPages + vm.missingTables numPages.toNat virt
  | .unmapPage virt => vm.missingTables 1 virt
  | .mapVma r =>
      if r.NeedsMap then r.last - r.first + vm.missingTables (r.last - r.first) r.startAddr else 0
  | .load startAddr memSize _ _ =>
      segmentPages startAddr (startAddr + memSize) +
        vm.missingTables (segmentPages startAddr (startAddr + memSize)) startAddr

/-- The pages that the call takes are left. -/
def MemoryCall.Fits (vm : Vm) (c : MemoryCall) : Prop :=
  vm.pageCounter + c.demand vm ≤ physicalHeapPages

/-! ## The loops -/

section Loops

variable {vm : Vm}

theorem missingTables_succ (vm : Vm) (n : Nat) (virt : U64) :
    vm.missingTables (n + 1) virt =
      (vm.missing (tablePaths virt ∪ tablesFor (rangePages n (virt + pageSize)))).card := by
  rw [Vm.missingTables, rangePages, tablesFor]

theorem missingTables_one (vm : Vm) (virt : U64) :
    vm.missingTables 1 virt = (vm.missing (tablePaths virt)).card := by
  rw [missingTables_succ, rangePages, tablesFor, Finset.union_empty]

/-- One page, counted: what it takes, and what the rest of the range still needs. -/
theorem Vm.Updates.missingTables {vm' : Vm} {v : U64} {us : List PageUpdate}
    (h : vm.Updates vm' 0 (tablePaths v) us) (n : Nat) :
    vm'.pageCounter + vm'.missingTables n (v + pageSize) =
      vm.pageCounter + vm.missingTables (n + 1) v := by
  rw [missingTables_succ, h.card_missing fun p hp => length_of_mem_tablesFor hp, h.counter,
    Vm.missingTables]
  omega

theorem mapPageEntry_le_succ (table index flags page : U64) (vm : Vm) :
    (mapPageEntry table index flags page vm).2.pageCounter ≤ vm.pageCounter + 1 := by
  unfold mapPageEntry
  split
  · split
    · exact le_rfl
    · exact Nat.le_succ _
  · exact Nat.le_succ _

theorem lastTable_le (info : VirtAddrInfo) (vm : Vm) :
    (lastTable info vm).2.pageCounter ≤ vm.pageCounter + 3 := by
  rcases h₁ : mapPageEntry vm.pml4Addr 0#64 tableFlags pageCreate vm with ⟨pdpt, vm₁⟩
  rcases h₂ : mapPageEntry pdpt info.pgDirPtrOffset tableFlags pageCreate vm₁ with ⟨pd, vm₂⟩
  have hle₁ := mapPageEntry_le_succ vm.pml4Addr 0#64 tableFlags pageCreate vm
  have hle₂ := mapPageEntry_le_succ pdpt info.pgDirPtrOffset tableFlags pageCreate vm₁
  have hle₃ := mapPageEntry_le_succ pd info.pgDirOffset tableFlags pageCreate vm₂
  rw [h₁] at hle₁
  rw [h₂] at hle₂
  have hlast : lastTable info vm = mapPageEntry pd info.pgDirOffset tableFlags pageCreate vm₂ := by
    rw [lastTable, h₁]
    simp only [h₂]
  rw [hlast]
  simp only at hle₁ hle₂
  omega

theorem mapPhysicalPage_le {phys : U64} (hphys : phys ≠ pageCreate) (v flags : U64)
    (noOverwrite : Bool) (vm : Vm) :
    (mapPhysicalPage v phys flags noOverwrite vm).pageCounter ≤ vm.pageCounter + 3 := by
  refine le_trans ?_ (lastTable_le (getVirtAddrInfo v) vm)
  unfold mapPhysicalPage
  simp only
  split
  · unfold mapPageEntry
    rw [if_neg hphys]
    exact le_rfl
  · exact le_rfl

theorem mapRange_fits (h : vm.Paged) (prot : U64) (noOverwrite : Bool) (n : Nat) (virt phys : U64)
    (hphys : PageAligned phys)
    (hb : vm.pageCounter + vm.missingTables n virt + 3 ≤ maxFrames) :
    (mapRange prot noOverwrite n virt phys vm).pageCounter ≤ maxFrames := by
  induction n generalizing virt phys vm with
  | zero =>
      show vm.pageCounter ≤ maxFrames
      omega
  | succ n ih =>
      have hle := mapPhysicalPage_le hphys.ne_pageCreate virt prot noOverwrite vm
      have hpage := mapPhysicalPage_spec h virt phys prot noOverwrite hphys.ne_pageCreate (by omega)
      have hcount := hpage.missingTables n
      exact ih hpage.paged _ _ hphys.add (by omega)

theorem mapEach_fits (h : vm.Paged) (prot : U64) (noOverwrite : Bool) (n : Nat) (virt phys : U64)
    (hb : vm.pageCounter + n + vm.missingTables n virt + 3 ≤ maxFrames) :
    (mapEach prot noOverwrite n virt phys vm).2.pageCounter ≤ maxFrames := by
  induction n generalizing virt phys vm with
  | zero =>
      show vm.pageCounter ≤ maxFrames
      omega
  | succ n ih =>
      have halloc := h.updates_alloc 1
      have hal : PageAligned (allocatePages 1#64 vm).1 := pageAligned_frameAddr _
      have hle := mapPhysicalPage_le hal.ne_pageCreate virt prot noOverwrite
        { vm with pageCounter := vm.pageCounter + 1 }
      simp only at hle
      have hpage := mapPhysicalPage_spec halloc.paged virt _ prot noOverwrite hal.ne_pageCreate
        (by omega)
      have hcount : (mapPhysicalPage virt (allocatePages 1#64 vm).1 prot noOverwrite
          { vm with pageCounter := vm.pageCounter + 1 }).pageCounter + _ =
          vm.pageCounter + 1 + vm.missingTables (n + 1) virt := hpage.missingTables n
      rw [mapEach_succ]
      refine ih hpage.paged _ _ ?_
      show (mapPhysicalPage virt (allocatePages 1#64 vm).1 prot noOverwrite
          { vm with pageCounter := vm.pageCounter + 1 }).pageCounter + n + _ + 3 ≤ maxFrames
      omega

/-! ## Loading a segment -/

/-- The machine after a page has been taken and filled. -/
def Vm.loaded (vm : Vm) (page : U64 → U64) : Vm :=
  { vm with
    mem := fun f => if f = frameOf (frameAddr vm.pageCounter) then page else vm.mem f
    pageCounter := vm.pageCounter + 1 }

/-- One page at a frame that is given. -/
theorem mapPhysicalPages_one (p flags : U64) (f : Nat) (vm : Vm) :
    (mapPhysicalPages p (frameAddr f) flags 1#64 0#64 vm).2 =
      mapPhysicalPage p (frameAddr f) flags false vm := by
  have hne := frameAddr_ne_neg_one f
  simp only [mapPhysicalPages, ne_eq, hne, not_false_eq_true, or_true, if_true, if_false]
  rfl

theorem loadLoop_succ {end' p : U64} (flags : U64) (page : Nat → U64 → U64) (fuel i : Nat) (vm : Vm)
    (hp : p < end') :
    loadLoop end' flags page (fuel + 1) i p vm =
      loadLoop end' flags page fuel (i + 1) (p + pageSize)
        (mapPhysicalPage p (frameAddr vm.pageCounter) flags false (vm.loaded (page i))) := by
  rw [loadLoop, if_pos hp]
  simp only [allocatePages_of_ne (show (1#64 : U64) ≠ 0#64 by decide)]
  rw [mapPhysicalPages_one]
  rfl

/-- A segment that no page address lies behind is loaded for ever. -/
theorem loadLoop_none {end' flags : U64} {page : Nat → U64 → U64} (fuel i : Nat) (p : U64) (vm : Vm)
    (h : ∀ q : U64, q.toNat % 4096 = p.toNat % 4096 → q < end') :
    loadLoop end' flags page fuel i p vm = none := by
  induction fuel generalizing i p vm with
  | zero => rfl
  | succ fuel ih =>
      rw [loadLoop_succ flags page fuel i vm (h p rfl)]
      refine ih _ _ _ fun q hq => h q ?_
      have hs : pageSize.toNat = 4096 := by decide
      rw [BitVec.toNat_add, hs] at hq
      omega

theorem segmentPages_succ {p end' : U64} (hp : p < end') (hw : p.toNat + 4096 < 2 ^ 64) :
    segmentPages p end' = segmentPages (p + pageSize) end' + 1 := by
  have hs : pageSize.toNat = 4096 := by decide
  have hadd : (p + pageSize).toNat = p.toNat + 4096 := by
    rw [BitVec.toNat_add, hs, Nat.mod_eq_of_lt hw]
  have hlt := BitVec.lt_def.mp hp
  have hsub := BitVec.toNat_sub_of_le (BitVec.le_of_lt hp)
  rw [segmentPages, if_pos hp, hsub, segmentPages]
  by_cases hq : p + pageSize < end'
  · rw [if_pos hq, BitVec.toNat_sub_of_le (BitVec.le_of_lt hq), hadd]
    have hlt' := BitVec.lt_def.mp hq
    omega
  · have hge : ¬ (p + pageSize).toNat < end'.toNat := fun hc => hq (BitVec.lt_def.mpr hc)
    rw [if_neg hq]
    omega

theorem Vm.Paged.loaded (h : vm.Paged) (hb : vm.pageCounter < maxFrames) (page : U64 → U64) :
    Vm.SameTables { vm with pageCounter := vm.pageCounter + 1 } (vm.loaded page) := by
  rw [maxFrames] at hb
  refine (h.updates_alloc 1).paged.sameTables_data rfl rfl fun f hf => ?_
  refine if_neg ?_
  rintro rfl
  refine hf ⟨?_, fun ht => ?_⟩
  · rw [frameOf_frameAddr (by omega)]
    exact Nat.lt_succ_self _
  · have hlt := h.isTable_lt ht
    rw [frameOf_frameAddr (by omega)] at hlt
    exact absurd hlt (lt_irrefl _)

theorem missingTables_congr {vm vm' : Vm}
    (h : ∀ p : List U64, p.length < 3 → vm'.tableAt p = vm.tableAt p) (n : Nat) (virt : U64) :
    vm'.missingTables n virt = vm.missingTables n virt := by
  unfold Vm.missingTables Vm.missing
  congr 1
  refine Finset.filter_congr fun p hp => ?_
  rw [h p (length_of_mem_tablesFor hp)]

theorem le_pageCounter_loadLoop {end' flags : U64} {page : Nat → U64 → U64} {fuel i : Nat} {p : U64}
    {vm' : Vm} (hrun : loadLoop end' flags page fuel i p vm = some vm') :
    vm.pageCounter ≤ vm'.pageCounter := by
  induction fuel generalizing i p vm with
  | zero => exact absurd hrun (by simp [loadLoop])
  | succ fuel ih =>
      by_cases hp : p < end'
      · rw [loadLoop_succ flags page fuel i vm hp] at hrun
        have hle := (le_pageCounter_mapPhysicalPage p (frameAddr vm.pageCounter) flags false
          (vm.loaded (page i))).trans (ih hrun)
        have hone : (vm.loaded (page i)).pageCounter = vm.pageCounter + 1 := rfl
        omega
      · rw [loadLoop, if_neg hp] at hrun
        exact (congrArg Vm.pageCounter (Option.some.inj hrun)).le

/-- What loading a segment takes, when it takes no more than there are frames. -/
theorem loadLoop_spec {end' flags : U64} {page : Nat → U64 → U64} {fuel i : Nat} {p : U64}
    {vm' : Vm}
    (h : vm.Paged) (hrun : loadLoop end' flags page fuel i p vm = some vm')
    (hb : vm.pageCounter + segmentPages p end' + vm.missingTables (segmentPages p end') p + 4 ≤
        maxFrames ∨ vm'.pageCounter ≤ maxFrames) :
    vm'.Paged ∧ vm'.pageCounter =
      vm.pageCounter + segmentPages p end' + vm.missingTables (segmentPages p end') p := by
  induction fuel generalizing i p vm with
  | zero => exact absurd hrun (by simp [loadLoop])
  | succ fuel ih =>
      by_cases hp : p < end'
      · -- an address that wraps round never reaches the end
        have hw : p.toNat + 4096 < 2 ^ 64 := by
          by_contra hc
          rw [loadLoop_none (fuel + 1) i p vm fun q hq => ?_] at hrun
          · exact absurd hrun (by simp)
          · have hq' := q.isLt
            have hlt := BitVec.lt_def.mp hp
            exact BitVec.lt_def.mpr (by omega)
        rw [segmentPages_succ hp hw] at hb ⊢
        rw [loadLoop_succ flags page fuel i vm hp] at hrun
        have hal := pageAligned_frameAddr vm.pageCounter
        have hle := mapPhysicalPage_le hal.ne_pageCreate p flags false (vm.loaded (page i))
        have hle' := le_pageCounter_loadLoop hrun
        have hge := le_pageCounter_mapPhysicalPage p (frameAddr vm.pageCounter) flags false
          (vm.loaded (page i))
        have hone : (vm.loaded (page i)).pageCounter = vm.pageCounter + 1 := rfl
        have hsame := h.loaded (by omega) (page i)
        have hpage := mapPhysicalPage_spec hsame.paged p (frameAddr vm.pageCounter) flags false
          hal.ne_pageCreate (by omega)
        have hcount := hpage.missingTables (segmentPages (p + pageSize) end')
        rw [missingTables_congr hsame.tableAt] at hcount
        have hcount' : _ = vm.pageCounter + 1 +
            vm.missingTables (segmentPages (p + pageSize) end' + 1) p := hcount
        obtain ⟨hpaged, hfin⟩ := ih hpage.paged hrun (by omega)
        exact ⟨hpaged, by omega⟩
      · rw [loadLoop, if_neg hp] at hrun
        obtain rfl := Option.some.inj hrun
        have hzero : segmentPages p end' = 0 := if_neg hp
        rw [hzero]
        exact ⟨h, by simp [Vm.missingTables, rangePages, tablesFor, Vm.missing]⟩

end Loops

/-! ## Each call -/

section Calls

variable {O : HostOs ω} {h h' : Host ω} {c : MemoryCall}

theorem mapPhysicalPages_fits {vm : Vm} (hv : vm.Paged) {virt phys prot numPages flags : U64}
    (hphys : phys ≠ -1#64 → PageAligned phys)
    (hb : vm.pageCounter + dataPages phys numPages + vm.missingTables numPages.toNat virt + 3 ≤
      maxFrames) :
    (mapPhysicalPages virt phys prot numPages flags vm).2.pageCounter ≤ maxFrames := by
  unfold mapPhysicalPages
  unfold dataPages at hb
  simp only
  by_cases hp : phys = -1#64
  · rw [if_pos hp] at hb
    by_cases hcont : flags &&& mapContinuous = 0#64
    · rw [if_neg (by simp [hcont, hp])]
      exact mapEach_fits hv _ _ _ _ _ hb
    · rw [if_pos (Or.inl hcont)]
      simp only [hp, if_true]
      by_cases hn : numPages = 0#64
      · simp only [hn, allocatePages, if_true]
        omega
      · simp only [allocatePages_of_ne hn, frameAddr_ne_neg_one, if_false]
        exact mapRange_fits (hv.updates_alloc numPages.toNat).paged _ _ _ _ _
          (pageAligned_frameAddr _) hb
  · rw [if_neg hp] at hb
    rw [if_pos (Or.inr hp)]
    simp only [hp, if_false]
    exact mapRange_fits hv _ _ _ _ _ (hphys hp) hb

theorem heapPages_add_lt : physicalHeapPages + 4 ≤ maxFrames := by decide

/-- **What a call takes**: exactly its demand, when that is left or when the memory has
not run out after it. -/
theorem MemoryCall.counter_eq (hp : h.vm.Paged) (hi : c.Issued h) (hrun : c.run O h = some h')
    (hb : c.Fits h.vm ∨ h'.vm.pageCounter ≤ physicalHeapPages) :
    h'.vm.Paged ∧ h'.vm.pageCounter = h.vm.pageCounter + c.demand h.vm := by
  have hheap := heapPages_add_lt
  unfold MemoryCall.Fits at hb
  cases c with
  | mapPages virt phys prot numPages flags =>
      obtain rfl := Option.some.inj hrun
      simp only [MemoryCall.demand] at hb ⊢
      have hmax : (mapPhysicalPages virt phys prot numPages flags h.vm).2.pageCounter ≤
          maxFrames := by
        rcases hb with hb | hb
        · exact mapPhysicalPages_fits hp hi (by omega)
        · exact hb.trans (by omega)
      have hspec := mapPhysicalPages_spec hp hi hmax
      refine ⟨hspec.paged, hspec.counter.trans ?_⟩
      rw [pathsOf, map_fst_pageUpdates, length_mappedPages, Vm.missingTables]
      omega
  | unmapPage virt =>
      obtain rfl := Option.some.inj hrun
      simp only [MemoryCall.demand] at hb ⊢
      have hmax : (unmapPhysicalPage virt h.vm).pageCounter ≤ maxFrames := by
        rcases hb with hb | hb
        · have hle : (unmapPhysicalPage virt h.vm).pageCounter ≤ h.vm.pageCounter + 3 :=
            lastTable_le (getVirtAddrInfo virt) h.vm
          omega
        · exact hb.trans (by omega)
      have hspec := unmapPhysicalPage_spec hp virt hmax
      refine ⟨hspec.paged, hspec.counter.trans ?_⟩
      rw [missingTables_one]
      omega
  | mapVma r =>
      obtain rfl := Option.some.inj hrun
      obtain ⟨hr, hk⟩ := hi
      simp only [MemoryCall.demand] at hb ⊢
      by_cases hn : r.NeedsMap
      · rw [if_pos hn] at hb ⊢
        have hmax : (h.kernelMapVma O r).1.vm.pageCounter ≤ maxFrames := by
          rcases hb with hb | hb
          · rw [pageCounter_kernelMapVma hr hn]
            refine mapRange_fits (hp.updates_alloc (r.last - r.first)).paged _ _ _ _ _
              (pageAligned_frameAddr _) ?_
            show h.vm.pageCounter + (r.last - r.first) + _ + 3 ≤ maxFrames
            have hmiss : Vm.missingTables
                { h.vm with pageCounter := h.vm.pageCounter + (r.last - r.first) }
                (r.last - r.first) r.startAddr =
                h.vm.missingTables (r.last - r.first) r.startAddr := rfl
            rw [hmiss]
            omega
          · exact hb.trans (by omega)
        have hspec := (kernelMapVma_spec hp hr hn hk hmax).1
        refine ⟨hspec.paged, hspec.counter.trans ?_⟩
        rw [Vm.missingTables]
        omega
      · rw [kernelMapVma_unchanged hn, if_neg hn]
        exact ⟨hp, rfl⟩
  | load startAddr memSize flags page =>
      obtain ⟨vm, hload, rfl⟩ := Option.map_eq_some_iff.mp hrun
      simp only [MemoryCall.demand] at hb ⊢
      obtain ⟨hpaged, hcount⟩ := loadLoop_spec hp hload (by
        rcases hb with hb | hb
        · exact Or.inl (by omega)
        · exact Or.inr (le_trans hb (by omega)))
      refine ⟨hpaged, ?_⟩
      show vm.pageCounter = _
      omega

/-- Every page handed out so far lies in the machine's memory. -/
def Vm.InHeap (vm : Vm) : Prop :=
  ∀ f, f < vm.pageCounter → (frameAddr f).toNat + 4096 ≤ physicalHeapPages * 4096

theorem inHeap_of_le {vm : Vm} (h : vm.pageCounter ≤ physicalHeapPages) : vm.InHeap := by
  intro f hf
  have hmax : physicalHeapPages < 2 ^ 52 := by decide
  rw [toNat_frameAddr (by omega)]
  omega

theorem le_of_inHeap {vm : Vm} (h : vm.InHeap) : vm.pageCounter ≤ physicalHeapPages := by
  by_contra hc
  have hmax : physicalHeapPages < 2 ^ 52 := by decide
  have hf := h physicalHeapPages (by omega)
  rw [toNat_frameAddr hmax] at hf
  omega

/-- **Guest-physical allocation stays in the machine's memory** along every run whose calls
find the pages they take; no table lies outside it either.  A call that does not find them
hands out a page behind the end. -/
theorem inHeap_of_runs (O : HostOs ω) (vm₀ : Vm) (h₀ : vm₀.Initial) (os : ω)
    (cs : List MemoryCall) (h : Host ω)
    (hrun : Run.Steps (MemoryCall.run O) (fun h c => c.Issued h ∧ c.Fits h.vm)
      { vm := buildPageTables vm₀, os := os, stopped := false } cs h) :
    h.vm.InHeap ∧ (∀ f, h.vm.IsTable f → f < physicalHeapPages) ∧
      ∀ (c : MemoryCall) (h' : Host ω), c.Issued h → c.run O h = some h' →
        (h'.vm.InHeap ↔ c.Fits h.vm) := by
  have hstart := h₀.refines
  generalize buildPageTables vm₀ = vm₁ at hrun hstart
  obtain ⟨hp, hle⟩ := Run.Steps.invariant
    (fun h : Host ω => h.vm.Paged ∧ h.vm.pageCounter ≤ physicalHeapPages) hrun
    (fun s c t hs hc hstep => by
      obtain ⟨hpt, hcount⟩ := MemoryCall.counter_eq hs.1 hc.1 hstep (Or.inl hc.2)
      exact ⟨hpt, hcount.trans_le hc.2⟩)
    ⟨hstart.paged, hstart.room⟩
  refine ⟨inHeap_of_le hle, fun f hf => (hp.isTable_lt hf).trans_le hle, fun c h' hi hc => ?_⟩
  constructor
  · intro hin
    have hcount := (MemoryCall.counter_eq hp hi hc (Or.inr (le_of_inHeap hin))).2
    have hle' := le_of_inHeap hin
    rw [hcount] at hle'
    exact hle'
  · intro hfit
    obtain ⟨-, hcount⟩ := MemoryCall.counter_eq hp hi hc (Or.inl hfit)
    exact inHeap_of_le (hcount.trans_le hfit)

/-- An operating system without files. -/
def bareOs : HostOs Unit where
  dup _ _ := ((), noFd)
  close _ _ := ()
  fstat _ _ := ((), 0#64, 0#64)
  mmap _ _ _ _ _ _ := none
  hole _ _ := 0#64

/-- The host of a machine whose page tables have been built. -/
def bareHost : Host Unit := { vm := buildPageTables blankVm, os := (), stopped := false }

/-- A new anonymous VMA of some bytes at 1 MiB. -/
def newVma (length : U64) : VmRegion where
  startAddr := 0x100000#64
  endAddr := 0x100000#64 + length
  pageProt := vmaRead ||| vmaWrite
  flags := 0#64
  physPageStart := -1#64
  physPageEnd := 0#64
  oldStartAddr := 0#64
  oldEndAddr := 0#64
  pageOffset := 0#64
  fileInfo := nullFileInfo

/-- A new VMA of two pages fits. -/
theorem inHeap_of_runs_newVma :
    ∃ h, Run.Steps (MemoryCall.run bareOs) (fun h c => c.Issued h ∧ c.Fits h.vm) bareHost
        [.mapVma (newVma 0x2000#64)] h ∧ h.vm.InHeap := by
  have hr : (newVma 0x2000#64).InTables := ⟨by decide, by decide, by decide, by decide⟩
  have hissued : (MemoryCall.mapVma (newVma 0x2000#64)).Issued bareHost :=
    ⟨hr, fun hm => absurd rfl hm.1⟩
  have hfits : (MemoryCall.mapVma (newVma 0x2000#64)).Fits bareHost.vm := by
    unfold MemoryCall.Fits
    decide +kernel
  have hrun : Run.Steps (MemoryCall.run bareOs) (fun h c => c.Issued h ∧ c.Fits h.vm) bareHost
      [.mapVma (newVma 0x2000#64)] (bareHost.kernelMapVma bareOs (newVma 0x2000#64)).1 :=
    .cons ⟨hissued, hfits⟩ rfl (.nil _)
  exact ⟨_, hrun, (inHeap_of_runs bareOs blankVm initial_blankVm () _ _ hrun).1⟩

/-- A new VMA as large as the whole memory is mapped without a failure, and pages behind
the end of the memory are handed out for it. -/
theorem newVma_leaves_the_heap :
    (bareHost.kernelMapVma bareOs (newVma 0xFFF00000#64)).1.stopped = false ∧
      ¬ (bareHost.kernelMapVma bareOs (newVma 0xFFF00000#64)).1.vm.InHeap := by
  have hr : (newVma 0xFFF00000#64).InTables := ⟨by decide, by decide, by decide, by decide⟩
  rw [kernelMapVma_fresh hr rfl rfl]
  refine ⟨rfl, fun hin => ?_⟩
  have hle := le_of_inHeap hin
  have hge := le_pageCounter_mapRange (vmaProtToPg (newVma 0xFFF00000#64).pageProt) false
    ((newVma 0xFFF00000#64).last - (newVma 0xFFF00000#64).first) (newVma 0xFFF00000#64).startAddr
    (frameAddr bareHost.vm.pageCounter)
    { bareHost.vm with pageCounter := bareHost.vm.pageCounter +
        ((newVma 0xFFF00000#64).last - (newVma 0xFFF00000#64).first) }
  have hcount : bareHost.vm.pageCounter = 12 := by
    rw [bareHost, buildPageTables_eq]
    rfl
  have hpages : (newVma 0xFFF00000#64).last - (newVma 0xFFF00000#64).first =
      physicalHeapPages := by decide
  have hge' : bareHost.vm.pageCounter +
      ((newVma 0xFFF00000#64).last - (newVma 0xFFF00000#64).first) ≤ physicalHeapPages :=
    hge.trans hle
  omega

end Calls

end BufferVM
