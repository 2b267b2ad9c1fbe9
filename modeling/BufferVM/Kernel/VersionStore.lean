/-
  Kernel/VersionStore.lean --- `set_version` and the faults of its writes, `kernel/c/version.c`
  and `kernel/c/page_fault.c`.

  The version store lies below the kernel and is filled on demand: a write of `set_version`
  to a page of it that is not there ends up in `handle_kernel_page_fault`, which maps the
  page.  The handler's bound is one page too far, and `set_version` has no bound at all.
  What has been written and mapped is recorded in the state; `Kernel/VersionMap.lean` has the
  bytes in memory.
-/
import BufferVM.Kernel.Version
import BufferVM.Kernel.WellFormed
import BufferVM.Vm.Capacity
import Mathlib.Order.Interval.Finset.Nat

set_option autoImplicit false

namespace BufferVM

/-! ## The machine -/

/-- What the version calls work on.  `stopped` is set where the kernel does not come back. -/
structure VersionStore (σ η : Type) where
  vm : Vm
  vmas : St σ η
  userVersionStart : U64
  userVersionEnd : U64
  wrote : List (U64 × BitVec 8)
  mapped : List U64
  stopped : Bool

/-- `KERNEL_CS`. -/
def kernelCs : U64 := 0x10#64

/-- `CHECK_BIT`. -/
def checkBit (var : U64) (pos : Nat) : Bool := decide (var &&& (1#64 <<< pos) ≠ 0#64)

/-- An address that the processor accepts. -/
def Canonical (a : U64) : Prop := a.toNat < 2 ^ 47 ∨ 2 ^ 64 - 2 ^ 47 ≤ a.toNat

instance (a : U64) : Decidable (Canonical a) := inferInstanceAs (Decidable (_ ∨ _))

namespace VersionStore

variable {σ η : Type} (s : VersionStore σ η)

/-- The kernel does not go on. -/
def stop : VersionStore σ η := { s with stopped := true }

/-- The VMA of a user address supports versioning. -/
def IsVersioned (userAddr : U64) : Prop :=
  ∃ vma ∈ vmaFind userAddr s.vmas, vma ≠ 0#64 ∧ (s.vmas.region vma).flags &&& vmaIsVersioned ≠ 0#64

instance (userAddr : U64) : Decidable (s.IsVersioned userAddr) :=
  inferInstanceAs (Decidable (∃ vma ∈ vmaFind userAddr s.vmas, _))

/-- `map_physical_pages` as the fault handler calls it.  A page or a table behind the end of
physical memory is the end of the machine. -/
def mapStorePage (page : U64) : VersionStore σ η :=
  let vm := (mapPhysicalPages page (-1#64) (pde64NoExe ||| pde64Writeable) 1#64 mapZeroPages s.vm).2
  { s with
    vm := vm, mapped := page :: s.mapped, stopped := decide (physicalHeapPages < vm.pageCounter) }

/-- `handle_kernel_page_fault`. -/
def handleKernelPageFault (addr errorCode : U64) : VersionStore σ η :=
  if s.userVersionStart ≤ addr ∧ addr < s.userVersionEnd + pageSize then
    if checkBit errorCode 2 = true ∧ ¬ s.IsVersioned (addr - s.userVersionStart) then s.stop
    else s.mapStorePage (pageAlignDown addr)
  else s.stop

/-- The kernel can write the byte.  Every entry that is made is writeable. -/
def CanWrite (a : U64) : Prop := Canonical a ∧ isVpagePresent a s.vm = true

instance (a : U64) : Decidable (s.CanWrite a) := inferInstanceAs (Decidable (_ ∧ _))

/-- The byte is written. -/
def writeByte (a : U64) (b : BitVec 8) : VersionStore σ η := { s with wrote := (a, b) :: s.wrote }

/-- One write of the kernel.  `idt_page_fault_handler` passes on the code segment for the
error code, which it takes from the wrong place of the stack; after the handler the write is
made again.  An address that is not canonical is a general protection fault, which ends the
kernel. -/
def storeByte (a : U64) (b : BitVec 8) : VersionStore σ η :=
  if s.CanWrite a then s.writeByte a b
  else if Canonical a then
    let s := s.handleKernelPageFault a kernelCs
    if s.stopped = false ∧ s.CanWrite a then s.writeByte a b else s.stop
  else s.stop

/-- The loop of `set_version`. -/
def storeBytes (buf : U64) (version : BitVec 8) : Nat → VersionStore σ η
  | 0 => s
  | n + 1 =>
      let s := storeBytes buf version n
      if s.stopped = true then s else s.storeByte (byteOffset buf n) version

/-- `version_buf`. -/
def versionBuf (addr : U64) : U64 := s.userVersionStart + normaliseVersionPtr addr

/-- `set_version`, with the faults of its writes. -/
def setVersion (addr length version : U64) : U64 × VersionStore σ η :=
  (setVersionPtr version addr,
    s.storeBytes (s.versionBuf addr) (version.setWidth 8) length.toNat)

/-! ## Confinement -/

/-- The address is in the version store. -/
def InStore (a : U64) : Prop := s.userVersionStart ≤ a ∧ a < s.userVersionEnd

instance (a : U64) : Decidable (s.InStore a) := inferInstanceAs (Decidable (_ ∧ _))

/-- What has been written and mapped is in the version store. -/
def Confined (t : VersionStore σ η) : Prop :=
  (∀ x ∈ t.wrote, s.InStore x.1) ∧ ∀ p ∈ t.mapped, ∀ a, pageAlignDown a = p → s.InStore a

/-- The store as `kernel_main` has laid it out, below the lowest address of the kernel, when
the call is made. -/
structure Laid (kernelMinAddress : U64) : Prop where
  below : kernelMinAddress.toNat < 2 ^ 39
  limit : s.userVersionEnd = p2Align kernelMinAddress (2#64 * pageSize)
  start : s.userVersionStart = s.userVersionEnd / 2#64
  paged : s.vm.Paged
  room : s.vm.pageCounter ≤ physicalHeapPages
  wrote : s.wrote = []
  mapped : s.mapped = []
  stopped : s.stopped = false

end VersionStore

/-! ## What the pages of a range take -/

/-- The tables on the way to the pages of a range. -/
def rangeTables (first last : Nat) : Finset (List U64) :=
  (Finset.Ico first last).biUnion fun k => tablePaths (frameAddr k)

/-- The pages of a range that are not there, and the tables on the way to them. -/
def Vm.rangeNeeds (vm : Vm) (first last : Nat) : Nat :=
  ((Finset.Ico first last).filter fun k => vm.leaf k = none).card +
    (vm.missing (rangeTables first last)).card

theorem length_of_mem_rangeTables {first last : Nat} {q : List U64}
    (hq : q ∈ rangeTables first last) :
    q.length < 3 := by
  obtain ⟨k, -, hk⟩ := Finset.mem_biUnion.mp hq
  exact length_of_mem_tablePaths hk

/-- The tables on the way to a page that is there are there. -/
theorem Vm.tableAt_ne_none {vm : Vm} {v : U64} (hv : vm.pte v ≠ none) {q : List U64}
    (hq : q ∈ tablePaths v) : vm.tableAt q ≠ none := by
  have hlast : vm.tableAt (tablePath v) ≠ none := by
    intro hn
    rw [Vm.tableAt] at hn
    rw [Vm.pte, Radix.entry, hn] at hv
    exact hv rfl
  have hsnoc : vm.tableAt (tablePath v) = _ :=
    Radix.walk_snoc [(getVirtAddrInfo v).pgDirPtrOffset] (getVirtAddrInfo v).pgDirOffset
  simp only [tablePaths, Finset.mem_insert, Finset.mem_singleton] at hq
  rcases hq with rfl | rfl
  · intro hn
    rw [hsnoc, Radix.entry] at hlast
    rw [Vm.tableAt] at hn
    rw [hn] at hlast
    exact hlast rfl
  · exact hlast

theorem Vm.rangeNeeds_eq_zero {vm : Vm} {first last : Nat}
    (h : ∀ k, first ≤ k → k < last → vm.leaf k ≠ none) : vm.rangeNeeds first last = 0 := by
  have hpages : ((Finset.Ico first last).filter fun k => vm.leaf k = none) = ∅ := by
    apply Finset.filter_eq_empty_iff.mpr
    intro k hk
    obtain ⟨h1, h2⟩ := Finset.mem_Ico.mp hk
    exact h k h1 h2
  have htables : vm.missing (rangeTables first last) = ∅ := by
    apply Finset.filter_eq_empty_iff.mpr
    intro q hq
    obtain ⟨k, hk, hkq⟩ := Finset.mem_biUnion.mp hq
    obtain ⟨h1, h2⟩ := Finset.mem_Ico.mp hk
    exact Vm.tableAt_ne_none (h k h1 h2) hkq
  rw [Vm.rangeNeeds, hpages, htables, Finset.card_empty, Finset.card_empty]

/-- The entries after one page has been mapped. -/
theorem Vm.Updates.leaf {vm vm' : Vm} {n k : Nat} {ps : Finset (List U64)} {p prot : U64}
    (h : vm.Updates vm' n ps [(frameAddr k, mapUpdate p prot false)]) (hk : k < 2 ^ 27) {j : Nat}
    (hj : j < 2 ^ 27) : vm'.leaf j = if j = k then some (leafEntry prot p) else vm.leaf j := by
  have hpte := h.pte (frameAddr j)
  simp only [updatedEntry, List.foldl_cons, List.foldl_nil, pageNumber_frameAddr hj,
    pageNumber_frameAddr hk] at hpte
  exact hpte

/-- A page of the range takes what the range needs less afterwards. -/
theorem Vm.Updates.rangeNeeds {vm vm' : Vm} {first last k : Nat} {p prot : U64}
    (h : vm.Updates vm' 1 (tablePaths (frameAddr k)) [(frameAddr k, mapUpdate p prot false)])
    (hfirst : first ≤ k) (hlast : k < last) (hbound : last ≤ 2 ^ 27) (hk : vm.leaf k = none) :
    vm'.pageCounter + vm'.rangeNeeds first last = vm.pageCounter + vm.rangeNeeds first last := by
  have hsub : tablePaths (frameAddr k) ∪ rangeTables first last = rangeTables first last := by
    apply Finset.union_eq_right.mpr
    exact Finset.subset_biUnion_of_mem (fun k => tablePaths (frameAddr k))
      (Finset.mem_Ico.mpr ⟨hfirst, hlast⟩)
  have hpaths : ∀ q ∈ rangeTables first last, q.length < 3 :=
      fun q hq => length_of_mem_rangeTables hq
  have htables := h.card_missing hpaths
  rw [hsub] at htables
  have hpages : ((Finset.Ico first last).filter fun j => vm'.leaf j = none) =
      ((Finset.Ico first last).filter fun j => vm.leaf j = none).erase k := by
    ext j
    simp only [Finset.mem_filter, Finset.mem_erase, Finset.mem_Ico]
    constructor
    · rintro ⟨⟨h1, h2⟩, hj⟩
      rw [h.leaf (by omega) (by omega)] at hj
      by_cases hjk : j = k
      · rw [if_pos hjk] at hj
        exact absurd hj (by simp)
      · rw [if_neg hjk] at hj
        exact ⟨hjk, ⟨h1, h2⟩, hj⟩
    · rintro ⟨hjk, ⟨h1, h2⟩, hj⟩
      rw [h.leaf (by omega) (by omega), if_neg hjk]
      exact ⟨⟨h1, h2⟩, hj⟩
  have hmem : k ∈ (Finset.Ico first last).filter fun j => vm.leaf j = none :=
    Finset.mem_filter.mpr ⟨Finset.mem_Ico.mpr ⟨hfirst, hlast⟩, hk⟩
  have hcard := Finset.card_erase_add_one hmem
  have hcount := h.counter
  rw [Vm.rangeNeeds, Vm.rangeNeeds, hpages]
  omega

namespace VersionStore

variable {σ η : Type} {s : VersionStore σ η}

theorem mapStorePage_updates (hp : s.vm.Paged) (hroom : s.vm.pageCounter ≤ physicalHeapPages)
    (page : U64) :
    ∃ p, s.vm.Updates (s.mapStorePage page).vm 1 (tablePaths page)
      [(page, mapUpdate p (pde64NoExe ||| pde64Writeable) false)] := by
  have hneed : s.vm.missingTables 1 page ≤ 2 := by
    rw [missingTables_one]
    exact (Finset.card_filter_le _ _).trans Finset.card_le_two
  have hfits : s.vm.pageCounter + dataPages (-1#64) 1#64 + s.vm.missingTables
      (1#64).toNat page + 3 ≤
      maxFrames := by
    have hmax : physicalHeapPages + 6 ≤ maxFrames := by decide
    show s.vm.pageCounter + 1 + s.vm.missingTables 1 page + 3 ≤ maxFrames
    omega
  have hb : (s.mapStorePage page).vm.pageCounter ≤ maxFrames :=
    mapPhysicalPages_fits hp (fun hne => absurd rfl hne) hfits
  have hspec := mapPhysicalPages_spec hp (fun hne => absurd rfl hne) hb
  have hlen := length_mappedPages page (-1#64)
    (pde64NoExe ||| pde64Writeable) 1#64 mapZeroPages s.vm
  obtain ⟨p, hps⟩ := List.length_eq_one_iff.mp hlen
  have hpaths : pathsOf [(page, mapUpdate p (pde64NoExe ||| pde64Writeable) false)] =
      tablePaths page :=
    Finset.union_empty _
  rw [hps, Vm.Performs] at hspec
  exact ⟨p, hpaths ▸ hspec⟩

/-! ## The layout -/

/-- The bounds of the store, as numbers. -/
structure Bounds (s : VersionStore σ η) : Prop where
  limit : s.userVersionEnd.toNat < 2 ^ 39
  whole : s.userVersionEnd.toNat % 4096 = 0
  start : s.userVersionStart.toNat ≤ s.userVersionEnd.toNat
  startWhole : s.userVersionStart.toNat % 4096 = 0

theorem Laid.bounds {kernelMinAddress : U64} (h : s.Laid kernelMinAddress) : s.Bounds := by
  have hmask : -(2#64 * pageSize) = BitVec.allOnes 64 <<< 13 := by decide
  have hbelow := h.below
  have hlimit : s.userVersionEnd.toNat = kernelMinAddress.toNat / 8192 * 8192 := by
    rw [h.limit, p2Align, hmask]
    exact toNat_and_allOnes_shiftLeft kernelMinAddress 13
  have hstart : s.userVersionStart.toNat = s.userVersionEnd.toNat / 2 := by
    rw [h.start, BitVec.toNat_udiv]
    rfl
  exact ⟨by omega, by omega, by omega, by omega⟩

section InStore

variable {a : U64}

/-- The frame of the first page behind the store. -/
def lastFrame (s : VersionStore σ η) : Nat := frameOf s.userVersionEnd

theorem InStore.lt (h : s.InStore a) (hs : s.Bounds) : a.toNat < 2 ^ 39 := by
  have h1 := h.2
  have h2 := hs.limit
  bv_omega

theorem InStore.canonical (h : s.InStore a) (hs : s.Bounds) : Canonical a := by
  have := h.lt hs
  exact Or.inl (by omega)

theorem InStore.frameOf_lt (h : s.InStore a) (hs : s.Bounds) : frameOf a < s.lastFrame := by
  have h1 := h.2
  have h2 := hs.whole
  rw [BitVec.lt_def] at h1
  rw [lastFrame, frameOf, frameOf]
  omega

theorem Bounds.lastFrame_le (hs : s.Bounds) : s.lastFrame ≤ 2 ^ 27 := by
  have h1 := hs.limit
  rw [lastFrame, frameOf]
  omega

/-- The page of an address of the store is in the store. -/
theorem InStore.page (h : s.InStore a) (hs : s.Bounds) {b : U64}
    (hb : pageAlignDown b = pageAlignDown a) :
    s.InStore b := by
  obtain ⟨h1, h2⟩ := h
  have hpage := congrArg BitVec.toNat hb
  rw [toNat_pageAlignDown, toNat_pageAlignDown] at hpage
  have h3 := hs.whole
  have h4 := hs.startWhole
  constructor
  · bv_omega
  · bv_omega

theorem isVpagePresent_iff {vm : Vm} (hp : vm.Paged) (ha : a.toNat < 2 ^ 39) :
    isVpagePresent a vm = true ↔ vm.leaf (frameOf a) ≠ none := by
  have hnum : pageNumber a = frameOf a := by
    rw [pageNumber, frameOf]
    omega
  rw [isVpagePresent, getPhysAddr_eq hp, Vm.pte_eq_leaf, hnum]
  simp [Option.isSome_iff_ne_none]

end InStore

/-! ## The handler -/

theorem checkBit_kernelCs : checkBit kernelCs 2 = false := by decide

/-- In the kernel the handler maps every page that its bounds allow. -/
theorem handleKernelPageFault_eq (s : VersionStore σ η) (a : U64) :
    s.handleKernelPageFault a kernelCs =
      if s.userVersionStart ≤ a ∧ a < s.userVersionEnd + pageSize then s.mapStorePage
        (pageAlignDown a)
      else s.stop := by
  unfold handleKernelPageFault
  simp [checkBit_kernelCs]

/-! ## Writes in the store -/

/-- `t` is reached from `s` by writes in the store from page `first` on.  What the pages from
there on still need and what has been handed out add up to the same. -/
structure Serves (s : VersionStore σ η) (first : Nat) (t : VersionStore σ η) : Prop where
  start : t.userVersionStart = s.userVersionStart
  limit : t.userVersionEnd = s.userVersionEnd
  paged : t.vm.Paged
  confined : s.Confined t
  needs : t.vm.pageCounter + t.vm.rangeNeeds first s.lastFrame =
    s.vm.pageCounter + s.vm.rangeNeeds first s.lastFrame
  room : t.stopped = false ↔ t.vm.pageCounter ≤ physicalHeapPages

/-- The pages that are there stay. -/
def KeepsPages (t u : VersionStore σ η) : Prop :=
  ∀ k, k < 2 ^ 27 → t.vm.leaf k ≠ none → u.vm.leaf k ≠ none

section Serves

variable {t : VersionStore σ η} {first : Nat} {a : U64}

theorem Serves.writeByte (h : Serves s first t) (ha : s.InStore a) (b : BitVec 8) :
    Serves s first (t.writeByte a b) := by
  refine ⟨h.start, h.limit, h.paged, ⟨?_, h.confined.2⟩, h.needs, h.room⟩
  intro c hc
  rcases List.mem_cons.mp hc with rfl | hc
  · exact ha
  · exact h.confined.1 c hc

/-- The page of an address in the store is mapped. -/
theorem Serves.mapStorePage (hs : s.Bounds) (h : Serves s first t) (ha : s.InStore a)
    (hfirst : first ≤ frameOf a) (hrun : t.stopped = false) (hnone : t.vm.leaf (frameOf a) = none) :
    Serves s first (t.mapStorePage (pageAlignDown a)) ∧
      (t.mapStorePage (pageAlignDown a)).vm.leaf (frameOf a) ≠ none ∧
      KeepsPages t (t.mapStorePage (pageAlignDown a)) := by
  have hlast := ha.frameOf_lt hs
  have hbound := hs.lastFrame_le
  obtain ⟨p, hup⟩ := mapStorePage_updates h.paged (h.room.mp hrun) (pageAlignDown a)
  have hup' := hup
  rw [pageAlignDown_eq_frameAddr a] at hup
  have hneeds := hup.rangeNeeds hfirst hlast hbound hnone
  rw [← pageAlignDown_eq_frameAddr a] at hneeds
  have hleaf : ∀ j, j < 2 ^ 27 → (t.mapStorePage (pageAlignDown a)).vm.leaf j =
      if j = frameOf a then some (leafEntry (pde64NoExe |||
        pde64Writeable) p) else t.vm.leaf j := by
    intro j hj
    rw [pageAlignDown_eq_frameAddr a]
    exact hup.leaf (by omega) hj
  refine ⟨⟨h.start, h.limit, hup'.paged, ⟨h.confined.1, ?_⟩, hneeds.trans h.needs, ?_⟩, ?_, ?_⟩
  · intro q hq c hc
    rcases List.mem_cons.mp hq with rfl | hq
    · exact ha.page hs hc
    · exact h.confined.2 q hq c hc
  · show decide (physicalHeapPages < (t.mapStorePage (pageAlignDown a)).vm.pageCounter) = false ↔ _
    rw [decide_eq_false_iff_not, Nat.not_lt]
  · rw [hleaf _ (by omega), if_pos rfl]
    simp
  · intro k hk hthere
    rw [hleaf k hk]
    split
    · simp
    · exact hthere

/-- One write in the store. -/
theorem Serves.storeByte (hs : s.Bounds) (h : Serves s first t) (ha : s.InStore a)
    (hfirst : first ≤ frameOf a) (hrun : t.stopped = false) (b : BitVec 8) :
    Serves s first (t.storeByte a b) ∧ KeepsPages t (t.storeByte a b) ∧
      ((t.storeByte a b).stopped = false → (t.storeByte a b).vm.leaf (frameOf a) ≠ none) := by
  have hlt := ha.lt hs
  have hcanon := ha.canonical hs
  unfold VersionStore.storeByte
  by_cases hcan : t.CanWrite a
  · rw [if_pos hcan]
    exact ⟨h.writeByte ha b, fun k _ => id, fun _ => (isVpagePresent_iff h.paged hlt).mp hcan.2⟩
  · rw [if_neg hcan, if_pos hcanon, handleKernelPageFault_eq]
    have hbounds : t.userVersionStart ≤ a ∧ a < t.userVersionEnd + pageSize := by
      have h1 := ha.1
      have h2 := ha.2
      have h3 := hs.limit
      rw [h.start, h.limit]
      refine ⟨h1, ?_⟩
      rw [pageSize]
      bv_omega
    have hnone : t.vm.leaf (frameOf a) = none := by
      by_contra hne
      exact hcan ⟨hcanon, (isVpagePresent_iff h.paged hlt).mpr hne⟩
    rw [if_pos hbounds]
    obtain ⟨hserves, hthere, hkeep⟩ := h.mapStorePage hs ha hfirst hrun hnone
    have hpresent := (isVpagePresent_iff hserves.paged hlt).mpr hthere
    by_cases hstop : (t.mapStorePage (pageAlignDown a)).stopped = false
    · simp only [hstop, true_and]
      rw [if_pos ⟨hcanon, hpresent⟩]
      exact ⟨hserves.writeByte ha b, hkeep, fun _ => hthere⟩
    · have hneg : ¬ ((t.mapStorePage (pageAlignDown a)).stopped = false ∧
          (t.mapStorePage (pageAlignDown a)).CanWrite a) := fun hc => hstop hc.1
      simp only [hneg, if_false]
      have hroom : (t.mapStorePage (pageAlignDown a)).stop.stopped = false ↔ _ :=
        (iff_of_false (by simp [stop]) hstop).trans hserves.room
      exact ⟨⟨hserves.start, hserves.limit, hserves.paged, hserves.confined, hserves.needs, hroom⟩,
        hkeep, fun hc => absurd hc (by simp [stop])⟩

/-- The pages of the first bytes are there. -/
def Fills (buf : U64) (n : Nat) (t : VersionStore σ η) : Prop :=
  ∀ i, i < n → t.vm.leaf (frameOf (byteOffset buf i)) ≠ none

theorem toNat_byteOffset (buf : U64) (n : Nat) (h : buf.toNat + n < 2 ^ 64) :
    (byteOffset buf n).toNat = buf.toNat + n := by
  rw [byteOffset, BitVec.toNat_add, BitVec.toNat_ofNat]
  omega

/-- The writes as long as they stay in the store. -/
theorem Laid.storeBytes {kernelMinAddress buf : U64} (h : s.Laid kernelMinAddress)
    (hbuf : s.InStore buf) (version : BitVec 8) (n : Nat)
    (hn : buf.toNat + n ≤ s.userVersionEnd.toNat) :
    Serves s (frameOf buf) (s.storeBytes buf version n) ∧
      ((s.storeBytes buf version n).stopped = false → Fills buf n
        (s.storeBytes buf version n)) := by
  have hs := h.bounds
  have hlimit := hs.limit
  induction n with
  | zero =>
      refine ⟨⟨rfl, rfl, h.paged, ⟨?_, ?_⟩, rfl, ?_⟩, ?_⟩
      · intro a ha
        rw [VersionStore.storeBytes, h.wrote] at ha
        exact absurd ha List.not_mem_nil
      · intro p hp
        rw [VersionStore.storeBytes, h.mapped] at hp
        exact absurd hp List.not_mem_nil
      · exact iff_of_true h.stopped h.room
      · exact fun _ i hi => absurd hi (Nat.not_lt_zero i)
  | succ n ih =>
      obtain ⟨hserves, hfills⟩ := ih (by omega)
      rw [VersionStore.storeBytes]
      by_cases hstop : (s.storeBytes buf version n).stopped = true
      · simp only [hstop, if_true]
        exact ⟨hserves, fun hc => absurd hc (by simp)⟩
      · have hrun : (s.storeBytes buf version n).stopped = false := by simpa using hstop
        have hoff := toNat_byteOffset buf n (by omega)
        have hin : s.InStore (byteOffset buf n) := by
          have h1 := hbuf.1
          constructor
          · rw [BitVec.le_def] at h1 ⊢
            omega
          · rw [BitVec.lt_def]
            omega
        have hfirst : frameOf buf ≤ frameOf (byteOffset buf n) := by
          rw [frameOf, frameOf]
          omega
        simp only [hrun, Bool.false_eq_true, if_false]
        obtain ⟨hnext, hkeep, hthere⟩ := hserves.storeByte hs hin hfirst hrun version
        refine ⟨hnext, fun hgo i hi => ?_⟩
        by_cases hold : i < n
        · have hini := toNat_byteOffset buf i (by omega)
          have hframe : frameOf (byteOffset buf i) < 2 ^ 27 := by
            rw [frameOf]
            omega
          exact hkeep _ hframe (hfills hrun i hold)
        · have heq : i = n := by omega
          exact heq ▸ hthere hgo

end Serves

/-! ## Writes behind the store -/

/-- What has been written and mapped stays so. -/
structure Logged (t u : VersionStore σ η) : Prop where
  wrote : t.wrote ⊆ u.wrote
  mapped : t.mapped ⊆ u.mapped

theorem Logged.trans {t u v : VersionStore σ η} (h : Logged t u) (h' : Logged u v) : Logged t v :=
  ⟨List.Subset.trans h.wrote h'.wrote, List.Subset.trans h.mapped h'.mapped⟩

theorem logged_writeByte (t : VersionStore σ η) (a : U64) (b : BitVec 8) :
    Logged t (t.writeByte a b) :=
  ⟨List.subset_cons_self _ _, List.Subset.refl _⟩

theorem logged_stop (t : VersionStore σ η) :
    Logged t t.stop := ⟨List.Subset.refl _, List.Subset.refl _⟩

theorem logged_mapStorePage (t : VersionStore σ η) (page : U64) : Logged t (t.mapStorePage page) :=
  ⟨List.Subset.refl _, List.subset_cons_self _ _⟩

theorem logged_handleKernelPageFault (t : VersionStore σ η) (a : U64) :
    Logged t (t.handleKernelPageFault a kernelCs) := by
  rw [handleKernelPageFault_eq]
  split
  · exact logged_mapStorePage t _
  · exact logged_stop t

/-- A write after a fault. -/
theorem logged_retry (t : VersionStore σ η) (a : U64) (b : BitVec 8) :
    Logged (t.handleKernelPageFault a kernelCs)
      (if (t.handleKernelPageFault a kernelCs).stopped = false ∧
          (t.handleKernelPageFault a kernelCs).CanWrite a
        then (t.handleKernelPageFault a kernelCs).writeByte a b
        else (t.handleKernelPageFault a kernelCs).stop) := by
  split
  · exact logged_writeByte _ a b
  · exact logged_stop _

theorem logged_storeByte (t : VersionStore σ η) (a : U64) (b : BitVec 8) :
    Logged t (t.storeByte a b) := by
  unfold VersionStore.storeByte
  split
  · exact logged_writeByte t a b
  · split
    · exact (logged_handleKernelPageFault t a).trans (logged_retry t a b)
    · exact logged_stop t

theorem logged_storeBytes (s : VersionStore σ η) (buf : U64) (version : BitVec 8) (m n : Nat) :
    Logged (s.storeBytes buf version m) (s.storeBytes buf version (m + n)) := by
  induction n with
  | zero => exact ⟨List.Subset.refl _, List.Subset.refl _⟩
  | succ n ih =>
      rw [← Nat.add_assoc, VersionStore.storeBytes]
      refine ih.trans ?_
      by_cases hstop : (s.storeBytes buf version (m + n)).stopped = true
      · simp only [hstop, if_true]
        exact ⟨List.Subset.refl _, List.Subset.refl _⟩
      · simp only [hstop]
        exact logged_storeByte _ _ _

/-- When the kernel has stopped, nothing more is written. -/
theorem storeBytes_of_stopped {buf : U64} {version : BitVec 8} {m : Nat}
    (hstop : (s.storeBytes buf version m).stopped = true) (n : Nat) :
    s.storeBytes buf version (m + n) = s.storeBytes buf version m := by
  induction n with
  | zero => rfl
  | succ n ih =>
      rw [← Nat.add_assoc, VersionStore.storeBytes, ih]
      simp only [hstop, if_true]

theorem Confined.of_logged {t u : VersionStore σ η} (h : Logged t u) (hu : s.Confined u) :
    s.Confined t :=
  ⟨fun a ha => hu.1 a (h.wrote ha), fun p hp => hu.2 p (h.mapped hp)⟩

/-- A write to an address that the handler serves and that is not in the store. -/
theorem not_confined_storeByte {t : VersionStore σ η} {a : U64} (hout : ¬ s.InStore a)
    (hcanon : Canonical a) (hserved : t.userVersionStart ≤ a ∧ a < t.userVersionEnd + pageSize)
    (b : BitVec 8) : ¬ s.Confined (t.storeByte a b) := by
  unfold VersionStore.storeByte
  by_cases hcan : t.CanWrite a
  · rw [if_pos hcan]
    intro hc
    exact hout (hc.1 (a, b) List.mem_cons_self)
  · rw [if_neg hcan, if_pos hcanon]
    intro hc
    have hfault := Confined.of_logged (logged_retry t a b) hc
    rw [handleKernelPageFault_eq, if_pos hserved] at hfault
    exact hout (hfault.2 (pageAlignDown a) List.mem_cons_self a rfl)

/-- A write to an address that is not in the store. -/
theorem confined_storeByte_iff {t : VersionStore σ η} (ht : s.Confined t) {a : U64}
    (hout : ¬ s.InStore a)
    (hserved : ¬ (t.userVersionStart ≤ a ∧ a < t.userVersionEnd + pageSize)) (b : BitVec 8) :
    (s.Confined (t.storeByte a b) ↔ ¬ t.CanWrite a) ∧
      (¬ t.CanWrite a → (t.storeByte a b).stopped = true) := by
  unfold VersionStore.storeByte
  by_cases hcan : t.CanWrite a
  · rw [if_pos hcan]
    refine ⟨iff_of_false (fun hc => ?_) (fun hn => hn hcan), fun hn => absurd hcan hn⟩
    exact hout (hc.1 (a, b) List.mem_cons_self)
  · rw [if_neg hcan, handleKernelPageFault_eq, if_neg hserved]
    by_cases hcanon : Canonical a
    · have hneg : ¬ (t.stop.stopped = false ∧ t.stop.CanWrite a) := fun hc => absurd hc.1
        (by simp [stop])
      rw [if_pos hcanon]
      simp only [hneg, if_false]
      exact ⟨iff_of_true ht hcan, fun _ => rfl⟩
    · rw [if_neg hcanon]
      exact ⟨iff_of_true ht hcan, fun _ => rfl⟩

/-! ## The condition -/

/-- The pages from an address on to the end of the store fit into physical memory. -/
def HasRoom (s : VersionStore σ η) (buf : U64) : Prop :=
  s.vm.pageCounter + s.vm.rangeNeeds (frameOf buf) s.lastFrame ≤ physicalHeapPages

/-- Nothing is written, or the bytes begin in the store and end in it, unless physical memory is
used up before they have left it; or the first of them cannot be written. -/
def StaysInside (s : VersionStore σ η) (buf length : U64) : Prop :=
  length = 0#64 ∨
    (s.InStore buf ∧ (length ≤ s.userVersionEnd - buf ∨ ¬ s.HasRoom buf)) ∨
    (¬ (s.userVersionStart ≤ buf ∧ buf < s.userVersionEnd + pageSize) ∧ ¬ s.CanWrite buf)

theorem InStore.page_buf {buf : U64} (h : s.InStore buf) (hs : s.Bounds) {k : Nat}
    (hk : frameOf buf ≤ k)
    (hlast : k < s.lastFrame) :
    ∃ i, i < (s.userVersionEnd - buf).toNat ∧ frameOf (byteOffset buf i) = k := by
  have hwhole := hs.whole
  have hlimit := hs.limit
  have hsub : (s.userVersionEnd - buf).toNat = s.userVersionEnd.toNat - buf.toNat := by
    have := h.2
    bv_omega
  rw [lastFrame, frameOf] at hlast
  rw [frameOf] at hk
  refine ⟨k * 4096 - buf.toNat, by omega, ?_⟩
  rw [frameOf, toNat_byteOffset buf _ (by omega)]
  omega

/-- The kernel gets to the end of the store exactly when its pages fit into physical memory. -/
theorem Laid.stopped_iff {kernelMinAddress buf : U64} (h : s.Laid kernelMinAddress)
    (hbuf : s.InStore buf) (version : BitVec 8) :
    (s.storeBytes buf version (s.userVersionEnd - buf).toNat).stopped = false ↔ s.HasRoom buf := by
  have hs := h.bounds
  have hsub : buf.toNat + (s.userVersionEnd - buf).toNat ≤ s.userVersionEnd.toNat := by
    have := hbuf.2
    bv_omega
  obtain ⟨hserves, hfills⟩ := h.storeBytes hbuf version _ hsub
  have hneeds := hserves.needs
  rw [HasRoom]
  constructor
  · intro hrun
    have hzero := Vm.rangeNeeds_eq_zero (fun k hk hlast => by
      obtain ⟨i, hi, hik⟩ := hbuf.page_buf hs hk hlast
      exact hik ▸ hfills hrun i hi)
    have hroom := hserves.room.mp hrun
    rw [hzero] at hneeds
    omega
  · intro hroom
    apply hserves.room.mpr
    omega

/-- Before the call nothing has been written. -/
theorem Laid.confined_self {kernelMinAddress : U64} (h : s.Laid kernelMinAddress) :
    s.Confined s := by
  refine ⟨fun a ha => ?_, fun p hp => ?_⟩
  · rw [h.wrote] at ha
    exact absurd ha List.not_mem_nil
  · rw [h.mapped] at hp
    exact absurd hp List.not_mem_nil

/-- When the first byte is in the store, the bytes up to its end are, and the byte behind it is
mapped by the handler and written. -/
theorem Laid.confined_inside_iff {kernelMinAddress buf : U64} (h : s.Laid kernelMinAddress)
    (hbuf : s.InStore buf) (length : U64) (v : BitVec 8) :
    s.Confined (s.storeBytes buf v length.toNat) ↔
      length ≤ s.userVersionEnd - buf ∨ ¬ s.HasRoom buf := by
  have hs := h.bounds
  have hlimit := hs.limit
  have hlt := BitVec.lt_def.mp hbuf.2
  have hsub : (s.userVersionEnd - buf).toNat = s.userVersionEnd.toNat - buf.toNat := by
    have := hbuf.2
    bv_omega
  by_cases hfit : length ≤ s.userVersionEnd - buf
  · refine iff_of_true ?_ (Or.inl hfit)
    rw [BitVec.le_def] at hfit
    exact (h.storeBytes hbuf v length.toNat (by omega)).1.confined
  · obtain ⟨m, hm⟩ : ∃ m, length.toNat = (s.userVersionEnd - buf).toNat + 1 + m := by
      rw [BitVec.le_def] at hfit
      exact ⟨length.toNat - (s.userVersionEnd - buf).toNat - 1, by omega⟩
    obtain ⟨hserves, -⟩ := h.storeBytes hbuf v (s.userVersionEnd - buf).toNat (by omega)
    have hroom := h.stopped_iff hbuf v
    by_cases hrun : (s.storeBytes buf v (s.userVersionEnd - buf).toNat).stopped = false
    · refine iff_of_false (fun hc => ?_) ?_
      · have hend : byteOffset buf (s.userVersionEnd - buf).toNat = s.userVersionEnd := by
          rw [byteOffset, BitVec.ofNat_toNat, BitVec.setWidth_eq]
          bv_omega
        have hlog := logged_storeBytes s buf v ((s.userVersionEnd - buf).toNat + 1) m
        have hbyte := Confined.of_logged (hm ▸ hlog) hc
        rw [VersionStore.storeBytes, hend] at hbyte
        simp only [hrun, Bool.false_eq_true, if_false] at hbyte
        refine not_confined_storeByte (fun hin => ?_) (Or.inl (by omega)) ?_ v hbyte
        · exact absurd hin.2 (BitVec.lt_irrefl _)
        · rw [hserves.start, hserves.limit, pageSize]
          have := hs.start
          constructor
          · bv_omega
          · bv_omega
      · rintro (hc | hc)
        · exact hfit hc
        · exact hc (hroom.mp hrun)
    · refine iff_of_true ?_ (Or.inr fun hc => hrun (hroom.mpr hc))
      rw [hm, Nat.add_assoc, storeBytes_of_stopped (by simpa using hrun)]
      exact hserves.confined

/-- When the first byte is not in the store, it decides: either it is written, or the kernel
stops at it. -/
theorem Laid.confined_outside_iff {kernelMinAddress buf : U64} (h : s.Laid kernelMinAddress)
    (hbuf : ¬ s.InStore buf) {n : Nat} (hn : 0 < n) (v : BitVec 8) :
    s.Confined (s.storeBytes buf v n) ↔
      ¬ (s.userVersionStart ≤ buf ∧ buf < s.userVersionEnd + pageSize) ∧ ¬ s.CanWrite buf := by
  have hlimit := h.bounds.limit
  obtain ⟨m, hm⟩ : ∃ m, n = 1 + m := ⟨n - 1, by omega⟩
  have hzero : byteOffset buf 0 = buf := BitVec.add_zero buf
  have hfirst : s.storeBytes buf v 1 = s.storeByte buf v := by
    rw [VersionStore.storeBytes, VersionStore.storeBytes, hzero]
    simp only [h.stopped, Bool.false_eq_true, if_false]
  have hlog := logged_storeBytes s buf v 1 m
  rw [hfirst, ← hm] at hlog
  by_cases hserved : s.userVersionStart ≤ buf ∧ buf < s.userVersionEnd + pageSize
  · refine iff_of_false (fun hc => ?_) fun hc => hc.1 hserved
    have hcanon : Canonical buf := by
      have := hserved.2
      rw [pageSize] at this
      exact Or.inl (by bv_omega)
    exact not_confined_storeByte hbuf hcanon hserved v (Confined.of_logged hlog hc)
  · obtain ⟨hone, hstop⟩ := confined_storeByte_iff h.confined_self hbuf hserved v
    by_cases hcan : s.CanWrite buf
    · refine iff_of_false (fun hc => ?_) fun hc => hc.2 hcan
      exact hone.mp (Confined.of_logged hlog hc) hcan
    · refine iff_of_true ?_ ⟨hserved, hcan⟩
      have hstopped : (s.storeBytes buf v 1).stopped = true := by
        rw [hfirst]
        exact hstop hcan
      rw [hm, storeBytes_of_stopped hstopped, hfirst]
      exact hone.mpr hcan

/-- **What `set_version` writes and what is mapped for it is in the version store** exactly
when the bytes stay inside: neither the loop nor the fault handler ends with the store. -/
theorem setVersion_confined_iff {kernelMinAddress : U64} (h : s.Laid kernelMinAddress)
    (addr length version : U64) :
    s.Confined (s.setVersion addr length version).2 ↔ s.StaysInside (s.versionBuf addr) length := by
  have hlimit := h.bounds.limit
  rw [VersionStore.setVersion, StaysInside]
  generalize s.versionBuf addr = buf
  by_cases hlen : length = 0#64
  · subst hlen
    exact iff_of_true h.confined_self (Or.inl rfl)
  have hpos : 0 < length.toNat := by
    rw [Nat.pos_iff_ne_zero]
    exact fun hc => hlen (BitVec.eq_of_toNat_eq hc)
  by_cases hbuf : s.InStore buf
  · have hserved : s.userVersionStart ≤ buf ∧ buf < s.userVersionEnd + pageSize := by
      refine ⟨hbuf.1, ?_⟩
      have := hbuf.2
      rw [pageSize]
      bv_omega
    refine (h.confined_inside_iff hbuf length _).trans ?_
    simp only [hlen, hbuf, hserved, and_self, not_true_eq_false, true_and, false_and, false_or,
      or_false]
  · refine (h.confined_outside_iff hbuf hpos _).trans ?_
    simp only [hlen, hbuf, false_and, false_or]

end VersionStore

open VersionStore

/-- A machine whose version store ends right below the kernel. -/
def storeMachine : VersionStore (Nat × List Ptr) Unit where
  vm := buildPageTables blankVm
  vmas := St.empty (1, []) () smallGlobals
  userVersionStart := 0x3ffffff000#64
  userVersionEnd := 0x7fffffe000#64
  wrote := []
  mapped := []
  stopped := false

theorem laid_storeMachine : storeMachine.Laid 0x7fffffe000#64 := by
  have htables := initial_blankVm.refines
  have hvm : storeMachine.vm = buildPageTables blankVm := by simp only [storeMachine]
  refine ⟨by decide, by decide, by decide, ?_, ?_, rfl, rfl, rfl⟩
  · rw [hvm]
    exact htables.paged
  · rw [hvm]
    exact htables.room

/-- Eight bytes of a user's page. -/
theorem setVersion_confined_iff_eight :
    storeMachine.Confined (storeMachine.setVersion 0x1000#64 8#64 5#64).2 := by
  apply (setVersion_confined_iff laid_storeMachine 0x1000#64 8#64 5#64).mpr
  exact Or.inr (Or.inl ⟨by decide, Or.inl (by decide)⟩)

/-- The version of the lowest address that does not belong to the user is written behind the
store, to a page that the handler has mapped there. -/
theorem setVersion_leaves_store :
    storeMachine.Laid 0x7fffffe000#64 ∧
      (storeMachine.setVersion 0x3ffffff000#64 1#64 5#64).2.wrote = [(0x7fffffe000#64, 5#8)] ∧
      (storeMachine.setVersion 0x3ffffff000#64 1#64 5#64).2.mapped = [0x7fffffe000#64] ∧
      ¬ storeMachine.Confined (storeMachine.setVersion 0x3ffffff000#64 1#64 5#64).2 := by
  have hwrote : (storeMachine.setVersion 0x3ffffff000#64 1#64 5#64).2.wrote =
      [(0x7fffffe000#64, 5#8)] := by
    decide +kernel
  refine ⟨laid_storeMachine, hwrote, by decide +kernel, fun hc => ?_⟩
  have hin := hc.1 (0x7fffffe000#64, 5#8) (by rw [hwrote]; exact List.mem_cons_self)
  exact absurd hin (by decide)

end BufferVM
