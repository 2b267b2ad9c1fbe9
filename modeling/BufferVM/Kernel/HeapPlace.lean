/-
  Kernel/HeapPlace.lean --- where the host looks for a VMA node.

  `vma_heap_ptr` of `vm/vma.c` translates the start of the heap once and takes every node to
  lie at its distance from there.  The guest maps the pages of the heap one at a time, each on
  the next free frame, and everybody else takes frames from the same counter.  The two agree
  as long as the frame behind the heap's last one is the next to be handed out whenever the
  heap grows into another page.
-/
import BufferVM.Kernel.HeapPages

set_option autoImplicit false

namespace BufferVM

variable {ω : Type}

/-! ## The host -/

/-- The guest's heap beside the host: its operating system, whether it has stopped, the
cached start of the heap (`0` when there is none), and the nodes that `vma_alloc` has
returned. -/
structure HeapHost (ω : Type) where
  heap : VmaHeap
  os : ω
  stopped : Bool
  vmaHeapPhysAddr : U64
  nodes : List Ptr

namespace HeapHost

/-- The host as the hypercalls see it. -/
def host (x : HeapHost ω) : Host ω := ⟨x.heap.vm, x.os, x.stopped⟩

/-- A hypercall has changed the host. -/
def withHost (x : HeapHost ω) (h : Host ω) : HeapHost ω :=
  { x with heap := { x.heap with vm := h.vm }, os := h.os, stopped := h.stopped }

/-- `vma_heap_ptr`: the offset in `vm.mem`, and the host with its cache. -/
def vmaHeapPtr (x : HeapHost ω) (vma : Ptr) : Option U64 × HeapHost ω :=
  if vma = 0#64 then (none, x)
  else if x.vmaHeapPhysAddr ≠ 0#64 then
    (some (x.vmaHeapPhysAddr + (vma - x.heap.vmaHeapAddr)), x)
  else
    match getPhysAddr x.heap.vmaHeapAddr x.heap.vm with
    | none => (none, x)
    | some phys => (some (phys + (vma - x.heap.vmaHeapAddr)), { x with vmaHeapPhysAddr := phys })

end HeapHost

/-- An operation of the guest.  `mmap` and `munmap` are made of calls of the allocator and of
`kernel_map_vma` and `kernel_unmap_vma`, which take the node as the guest means it. -/
inductive GuestOp where
  | heap (c : HeapCall)
  | paging (c : PagingCall)
  | mapVma (vma : Ptr) (r : VmRegion)
  | unmapVma (vma : Ptr) (r : VmRegion)
  /-- `vma_find` and `vma_print`. -/
  | look (vma : Ptr)

/-- The machine after an operation. -/
def GuestOp.run (O : HostOs ω) (x : HeapHost ω) : GuestOp → Option (HeapHost ω)
  | .heap c => (c.run (x.heap, [])).map fun y => { x with heap := y.1, nodes := y.2 ++ x.nodes }
  | .paging c => some { x with heap := { x.heap with vm := c.run x.heap.vm } }
  | .mapVma vma r =>
      let x := (x.vmaHeapPtr vma).2
      some (x.withHost (x.host.kernelMapVma O r).1)
  | .unmapVma vma r =>
      let x := (x.vmaHeapPtr vma).2
      some (x.withHost (x.host.kernelUnmapVma r))
  | .look vma => some (x.vmaHeapPtr vma).2

/-! ## The condition -/

/-- A page of the heap. -/
def VmaHeap.HoldsPage (g : VmaHeap) (k : Nat) : Prop :=
  frameOf g.vmaHeapAddr ≤ k ∧ k ≤ frameOf g.vmaHeapHead

instance (g : VmaHeap) (k : Nat) : Decidable (g.HoldsPage k) := inferInstanceAs (Decidable (_ ∧ _))

/-- `vma_alloc` is about to carve a node. -/
def VmaHeap.Carves (g : VmaHeap) : Prop :=
  g.vmaFreeList = 0#64 ∧ g.vmaAllocNum ≠ g.vmaMaxNum + 1#64

instance (g : VmaHeap) : Decidable g.Carves := inferInstanceAs (Decidable (_ ∧ _))

/-- The next frame to be handed out is the one behind those of the heap. -/
def VmaHeap.InRow (g : VmaHeap) : Prop :=
  (getPhysAddr g.vmaHeapAddr g.vm).map
    (fun phys => frameOf phys + (frameOf g.newHead - frameOf g.vmaHeapAddr)) = some g.vm.pageCounter

instance (g : VmaHeap) : Decidable g.InRow := inferInstanceAs (Decidable (_ = _))

/-- The condition on a call of `vma_alloc` that carves a node: there is room, and the heap
grows into the next frame. -/
structure VmaHeap.AllocOk (g : VmaHeap) : Prop where
  row : g.Carves → g.Crosses → g.InRow
  head : g.Carves → g.vmaHeapHead.toNat + 8192 ≤ 2 ^ 39
  room : g.Carves → g.carvedVm.pageCounter ≤ physicalHeapPages

instance (g : VmaHeap) : Decidable g.AllocOk :=
  decidable_of_iff ((g.Carves → g.Crosses → g.InRow) ∧
    (g.Carves → g.vmaHeapHead.toNat + 8192 ≤ 2 ^ 39) ∧
    (g.Carves → g.carvedVm.pageCounter ≤ physicalHeapPages))
    ⟨fun h => ⟨h.1, h.2.1, h.2.2⟩, fun h => ⟨h.row, h.head, h.room⟩⟩

/-- The pages that a call on the page tables is about. -/
def PagingCall.pages : PagingCall → List U64
  | .map virt _ _ numPages _ => rangePages numPages.toNat virt
  | .unmap virt => [virt]

/-- The condition on an operation: nobody else maps or unmaps a page of the heap, and only
nodes that have been handed out are given back. -/
def GuestOp.Ok (O : HostOs ω) (x : HeapHost ω) : GuestOp → Prop
  | .heap .alloc => x.heap.AllocOk
  | .heap .zalloc => x.heap.AllocOk
  | .heap (.free addr) => addr ∈ x.nodes
  | .paging c => c.Ok x.heap.vm ∧ ∀ u ∈ c.pages, ¬ x.heap.HoldsPage (pageNumber u)
  | .mapVma _ r => r.NeedsMap →
      r.InTables ∧ (r.Moves → r.Known x.heap.vm) ∧
        (x.host.kernelMapVma O r).1.vm.pageCounter ≤ physicalHeapPages ∧
        ∀ k, r.first ≤ k → k < r.last → ¬ x.heap.HoldsPage k
  | .unmapVma _ r =>
      (x.host.kernelUnmapVma r).vm.pageCounter ≤ physicalHeapPages ∧
        ∀ u ∈ rangePages (pageDifference r.oldEndAddr r.oldStartAddr).toNat r.oldStartAddr,
          ¬ x.heap.HoldsPage (pageNumber u)
  | .look _ => True

/-! ## Translations that an operation leaves alone -/

theorem updatedEntry_of_not_mem {v : U64} (us : List PageUpdate) :
    (∀ u ∈ us.map Prod.fst, pageNumber v ≠ pageNumber u) → ∀ x, updatedEntry us v x = x := by
  induction us with
  | nil => exact fun _ x => rfl
  | cons u us ih =>
      intro h x
      rw [updatedEntry_cons, ih fun w hw => h w (by simp [hw])]
      simp only [updatedEntry, List.foldl_cons, List.foldl_nil]
      rw [if_neg (h u.1 (by simp))]

/-- Addresses on pages that a call is not about are translated as before. -/
theorem Vm.Performs.getPhysAddr {vm vm' : Vm} {k : Nat} {us : List PageUpdate}
    (h : vm.Performs vm' k us) (hp : vm.Paged) {v : U64}
    (hv : ∀ u ∈ us.map Prod.fst, pageNumber v ≠ pageNumber u) :
    BufferVM.getPhysAddr v vm' = BufferVM.getPhysAddr v vm := by
  rw [getPhysAddr_eq h.paged, getPhysAddr_eq hp, h.pte v, updatedEntry_of_not_mem us hv]

theorem getPhysAddr_heapPage {vm : Vm} (hp : vm.Paged) {page v : U64}
    (hroom : (mapPhysicalPages page (-1#64) VmaHeap.heapPageFlags 1#64 0#64 vm).2.pageCounter ≤
      physicalHeapPages) :
    getPhysAddr v (mapPhysicalPages page (-1#64) VmaHeap.heapPageFlags 1#64 0#64 vm).2 =
      if pageNumber v = pageNumber page then some (frameAddr vm.pageCounter + offsetInPage v)
      else getPhysAddr v vm := by
  have hspec := mapPhysicalPages_spec hp (fun hne => absurd rfl hne)
    (hroom.trans physicalHeapPages_le_maxFrames)
  have hphys : PhysPage (frameAddr vm.pageCounter) :=
    mappedPages_phys hp (fun hne => absurd rfl hne) (hroom.trans physicalHeapPages_le_maxFrames)
      (frameAddr vm.pageCounter) (List.mem_singleton.mpr rfl)
  have hpte : (mapPhysicalPages page (-1#64) VmaHeap.heapPageFlags 1#64 0#64 vm).2.pte v =
      if pageNumber v = pageNumber page then
        some (leafEntry VmaHeap.heapPageFlags (frameAddr vm.pageCounter))
      else vm.pte v := hspec.pte v
  rw [getPhysAddr_eq hspec.paged, getPhysAddr_eq hp, hpte]
  split
  · rw [Option.map_some, leafEntry_and_entryMask heapPageFlags_and hphys, physOffset_eq]
  · rfl

/-! ## The invariant -/

/-- A node between the start of a heap and its head. -/
structure HeapNode (start head : U64) (node : Ptr) : Prop where
  le : start.toNat ≤ node.toNat
  lt : node.toNat + 152 ≤ head.toNat

/-- A link of the free list. -/
def HeapLink (start head : U64) (node : Ptr) : Prop := node = 0#64 ∨ HeapNode start head node

theorem HeapNode.mono {start head head' : U64} {node : Ptr} (hn : HeapNode start head node)
    (hle : head.toNat ≤ head'.toNat) : HeapNode start head' node := ⟨hn.le, hn.lt.trans hle⟩

theorem HeapLink.mono {start head head' : U64} {node : Ptr} (hn : HeapLink start head node)
    (hle : head.toNat ≤ head'.toNat) : HeapLink start head' node :=
  hn.imp id fun hn => hn.mono hle

/-- The frames of the heap are in a row from frame `f`. -/
structure VmaHeap.InPlace (f : Nat) (g : VmaHeap) : Prop where
  paged : g.vm.Paged
  room : g.vm.pageCounter ≤ physicalHeapPages
  align : PageAligned g.vmaHeapAddr
  le : g.vmaHeapAddr.toNat ≤ g.vmaHeapHead.toNat
  lt : g.vmaHeapHead.toNat < 2 ^ 39
  place : ∀ v : U64, v.toNat < 2 ^ 39 → g.HoldsPage (frameOf v) →
    getPhysAddr v g.vm = some (frameAddr f + (v - g.vmaHeapAddr))
  free : HeapLink g.vmaHeapAddr g.vmaHeapHead g.vmaFreeList
  next : ∀ node, HeapLink g.vmaHeapAddr g.vmaHeapHead (g.nextFreed node)

/-- The host has the right start in its cache, if any, and every node that has been handed
out is in the heap. -/
structure HeapHost.Sound (f : Nat) (x : HeapHost ω) : Prop where
  heap : x.heap.InPlace f
  frame : 0 < f ∧ f < 2 ^ 40
  cache : x.vmaHeapPhysAddr = 0#64 ∨ x.vmaHeapPhysAddr = frameAddr f
  nodes : ∀ p ∈ x.nodes, HeapNode x.heap.vmaHeapAddr x.heap.vmaHeapHead (nodeOfVma p)

variable {f : Nat} {g g' : VmaHeap} {x y : HeapHost ω} {p : Ptr}

theorem VmaHeap.InPlace.start (hg : g.InPlace f) :
    getPhysAddr g.vmaHeapAddr g.vm = some (frameAddr f) := by
  have hle := hg.le
  have hlt := hg.lt
  rw [hg.place g.vmaHeapAddr (by omega) ⟨le_rfl, Nat.div_le_div_right hle⟩]
  simp

/-- The heap is where it was when no page of it has been touched. -/
theorem VmaHeap.InPlace.withVm (hg : g.InPlace f) {vm : Vm} (hp : vm.Paged)
    (hroom : vm.pageCounter ≤ physicalHeapPages)
    (hkeep : ∀ v : U64, v.toNat < 2 ^ 39 → g.HoldsPage (frameOf v) →
      getPhysAddr v vm = getPhysAddr v g.vm) : VmaHeap.InPlace f { g with vm := vm } :=
  ⟨hp, hroom, hg.align, hg.le, hg.lt,
    fun v hv hpage => (hkeep v hv hpage).trans (hg.place v hv hpage), hg.free, hg.next⟩

/-! ## `vma_heap_ptr` -/

theorem HeapHost.Sound.vmaHeapPtr (hx : x.Sound f) {vma : Ptr} (hne : vma ≠ 0#64) :
    (x.vmaHeapPtr vma).1 = some (frameAddr f + (vma - x.heap.vmaHeapAddr)) := by
  have hne0 : frameAddr f ≠ 0#64 := by
    intro hc
    have hz := congrArg BitVec.toNat hc
    have hf := hx.frame
    rw [toNat_frameAddr (by omega), show (0#64 : U64).toNat = 0 from rfl] at hz
    omega
  rw [HeapHost.vmaHeapPtr, if_neg hne]
  rcases hx.cache with hc | hc
  · simp only [hc, ne_eq, not_true_eq_false, if_false, hx.heap.start]
  · rw [hc, if_pos hne0]

theorem HeapHost.Sound.look (hx : x.Sound f) (vma : Ptr) : (x.vmaHeapPtr vma).2.Sound f := by
  unfold HeapHost.vmaHeapPtr
  split
  · exact hx
  · split
    · exact hx
    · rw [hx.heap.start]
      exact ⟨hx.heap, hx.frame, Or.inr rfl, hx.nodes⟩

theorem HeapHost.heap_vmaHeapPtr (x : HeapHost ω) (vma : Ptr) :
    (x.vmaHeapPtr vma).2.heap = x.heap ∧ (x.vmaHeapPtr vma).2.host = x.host := by
  unfold HeapHost.vmaHeapPtr
  split
  · exact ⟨rfl, rfl⟩
  · split
    · exact ⟨rfl, rfl⟩
    · split
      · exact ⟨rfl, rfl⟩
      · exact ⟨rfl, rfl⟩

/-! ## Operations on the page tables -/

theorem pageNumber_eq_frameOf {v : U64} (hv : v.toNat < 2 ^ 39) : pageNumber v = frameOf v := by
  rw [pageNumber, frameOf, Nat.mod_eq_of_lt hv]

/-- A call that touches no page of the heap. -/
theorem VmaHeap.InPlace.performs (hg : g.InPlace f) {vm : Vm} {k : Nat} {us : List PageUpdate}
    (h : g.vm.Performs vm k us) (hroom : vm.pageCounter ≤ physicalHeapPages)
    (hus : ∀ u ∈ us.map Prod.fst, ¬ g.HoldsPage (pageNumber u)) :
    VmaHeap.InPlace f { g with vm := vm } := by
  refine hg.withVm h.paged hroom fun v hv hpage => h.getPhysAddr hg.paged fun u hu heq => ?_
  rw [pageNumber_eq_frameOf hv] at heq
  exact hus u hu (heq ▸ hpage)

theorem VmaHeap.InPlace.call (hg : g.InPlace f) {c : PagingCall} (hok : c.Ok g.vm)
    (hpages : ∀ u ∈ c.pages, ¬ g.HoldsPage (pageNumber u)) :
    VmaHeap.InPlace f { g with vm := c.run g.vm } := by
  have hb := hok.room.trans physicalHeapPages_le_maxFrames
  cases c with
  | map virt phys prot numPages flags =>
      have hal := hok.pages _ _ _ _ _ rfl
      refine hg.performs (mapPhysicalPages_spec hg.paged (fun hne => (hal hne).1) hb) hok.room ?_
      rw [map_fst_pageUpdates, length_mappedPages]
      exact hpages
  | unmap virt =>
      have hspec := Vm.Performs.single (unmapPhysicalPage_spec hg.paged virt hb)
      exact hg.performs hspec hok.room hpages

theorem map_fst_unmapUpdates (n : Nat) (virt : U64) :
    (unmapUpdates n virt).map Prod.fst = rangePages n virt := by
  induction n generalizing virt with
  | zero => rfl
  | succ n ih => rw [unmapUpdates, List.map_cons, ih, rangePages]

theorem VmaHeap.InPlace.unmapRange (hg : g.InPlace f) (n : Nat) (virt : U64)
    (hroom : (BufferVM.unmapRange n virt g.vm).pageCounter ≤ physicalHeapPages)
    (hpages : ∀ u ∈ rangePages n virt, ¬ g.HoldsPage (pageNumber u)) :
    VmaHeap.InPlace f { g with vm := BufferVM.unmapRange n virt g.vm } := by
  have hspec := unmapRange_spec hg.paged n virt (hroom.trans physicalHeapPages_le_maxFrames)
  refine hg.performs hspec hroom ?_
  rw [map_fst_unmapUpdates]
  exact hpages

/-- The pages of a VMA are mapped. -/
theorem VmaHeap.InPlace.mapsVma (hg : g.InPlace f) {vm : Vm} {r : VmRegion} (h : g.vm.MapsVma vm r)
    (hroom : vm.pageCounter ≤ physicalHeapPages)
    (hpages : ∀ k, r.first ≤ k → k < r.last → ¬ g.HoldsPage k) :
    VmaHeap.InPlace f { g with vm := vm } := by
  refine hg.withVm h.paged hroom fun v hv hpage => ?_
  have hnum := pageNumber_eq_frameOf hv
  have hleaf := h.leaf (pageNumber v) (by rw [hnum, frameOf]; omega)
  rw [if_neg (fun hc => hpages _ hc.1 hc.2 (hnum ▸ hpage))] at hleaf
  rw [getPhysAddr_eq h.paged, getPhysAddr_eq hg.paged, Vm.pte_eq_leaf, Vm.pte_eq_leaf, hleaf]

/-! ## The allocator -/

/-- An address in a row of frames. -/
theorem frameAddr_row {f : Nat} {start v : U64} (hal : PageAligned start)
    (hle : frameOf start ≤ frameOf v) :
    frameAddr (f + (frameOf v - frameOf start)) + offsetInPage v = frameAddr f + (v - start) := by
  have hsub : v - start = frameAddr (frameOf v - frameOf start) + offsetInPage v := by
    have hv := eq_frameAddr_add_offset v
    have hstart : start = frameAddr (frameOf start) := hal.eq_frameAddr
    rw [← frameAddr_sub hle, ← hstart]
    generalize offsetInPage v = o at hv ⊢
    rw [show frameAddr (frameOf v) = v - o by rw [eq_sub_iff_add_eq]; exact hv.symm,
      sub_right_comm, sub_add_cancel]
  rw [hsub, ← frameAddr_add, add_assoc]

theorem VmaHeap.InPlace.paged_carvedVm (hg : g.InPlace f)
    (hroom : g.carvedVm.pageCounter ≤ physicalHeapPages) : g.carvedVm.Paged := by
  unfold VmaHeap.carvedVm at hroom ⊢
  split
  · rename_i hc
    rw [if_pos hc] at hroom
    exact (mapPhysicalPages_spec hg.paged (fun hne => absurd rfl hne)
      (hroom.trans physicalHeapPages_le_maxFrames)).paged
  · exact hg.paged

/-- A node is carved and the heap stays in a row. -/
theorem VmaHeap.InPlace.carved (hg : g.InPlace f) (hf : f < 2 ^ 40) (hok : g.AllocOk)
    (hc : g.Carves) : g.carved.InPlace f := by
  have hhead := hok.head hc
  have hroom := hok.room hc
  have hle := hg.le
  have hnew := toNat_newHead (g := g) (by omega)
  have hpaged := hg.paged_carvedVm hroom
  refine ⟨hpaged, hroom, hg.align, ?_, ?_, fun v hv hpage => ?_, ?_, fun node => ?_⟩
  · show g.vmaHeapAddr.toNat ≤ g.newHead.toNat
    omega
  · show g.newHead.toNat < _
    omega
  · obtain ⟨hlo, hhi⟩ : frameOf g.vmaHeapAddr ≤ frameOf v ∧ frameOf v ≤ frameOf g.newHead := hpage
    show getPhysAddr v g.carvedVm = some (frameAddr f + (v - g.vmaHeapAddr))
    unfold VmaHeap.carvedVm at hroom ⊢
    by_cases hcross : g.Crosses
    · rw [if_pos hcross] at hroom ⊢
      rw [getPhysAddr_heapPage hg.paged hroom, pageNumber_eq_frameOf hv,
        pageNumber_frameAddr (by rw [frameOf]; omega)]
      split
      · -- the page that has been mapped
        rename_i heq
        have hrow := hok.row hc hcross
        rw [VmaHeap.InRow, hg.start, Option.map_some, frameOf_frameAddr (by omega), ← heq] at hrow
        rw [← Option.some.inj hrow, frameAddr_row hg.align hlo]
      · rename_i hne
        refine hg.place v hv ⟨hlo, ?_⟩
        rw [frameOf, frameOf] at *
        omega
    · rw [if_neg hcross]
      rw [VmaHeap.Crosses, not_not] at hcross
      exact hg.place v hv ⟨hlo, hcross ▸ hhi⟩
  · exact hg.free.mono (by show _ ≤ g.newHead.toNat; omega)
  · exact (hg.next node).mono (by show _ ≤ g.newHead.toNat; omega)

/-- `vma_alloc` keeps the heap in a row, and what it returns is in the heap. -/
theorem VmaHeap.InPlace.vmaAlloc (hg : g.InPlace f) (hf : f < 2 ^ 40) (hok : g.AllocOk)
    (hrun : g.vmaAlloc = some (p, g')) :
    g'.InPlace f ∧ g'.vmaHeapAddr = g.vmaHeapAddr ∧ g.vmaHeapHead.toNat ≤ g'.vmaHeapHead.toNat ∧
      (p ≠ 0#64 → HeapNode g'.vmaHeapAddr g'.vmaHeapHead (nodeOfVma p)) := by
  rcases VmaHeap.vmaAlloc_cases hrun with ⟨hfree, rfl, rfl⟩ | ⟨hfree, -, rfl, rfl⟩ |
    ⟨hfree, hnum, -, -⟩
  · -- the top of the free list
    have hnode := hg.free.resolve_left hfree
    refine ⟨⟨hg.paged, hg.room, hg.align, hg.le, hg.lt, hg.place, hg.next _, hg.next⟩, rfl, le_rfl,
      fun _ => ?_⟩
    rw [VmaHeap.nodeOfVma_vmaOfNode]
    exact hnode
  · refine ⟨⟨hg.paged, hg.room, hg.align, hg.le, hg.lt, hg.place, hg.free, hg.next⟩, rfl, le_rfl,
      fun hc => absurd rfl hc⟩
  · -- the node at the head
    have hc : g.Carves := ⟨hfree, hnum⟩
    have hhead := hok.head hc
    have hle := hg.le
    have hnew := VmaHeap.toNat_newHead (g := g) (by omega)
    have hcarve := VmaHeap.vmaAlloc_carves hfree hnum (by omega)
    obtain ⟨rfl, rfl⟩ := Prod.mk.inj (Option.some.inj (hrun.symm.trans hcarve))
    refine ⟨hg.carved hf hok hc, rfl, ?_, fun _ => ⟨?_, ?_⟩⟩
    · show _ ≤ g.newHead.toNat
      omega
    · rw [VmaHeap.nodeOfVma_vmaOfNode]
      exact hle
    · rw [VmaHeap.nodeOfVma_vmaOfNode]
      exact hnew.ge

/-- `vma_free` links nodes of the heap. -/
theorem VmaHeap.InPlace.vmaFree (hg : g.InPlace f) {b : Bool}
    (hp : HeapNode g.vmaHeapAddr g.vmaHeapHead (nodeOfVma p)) (hrun : g.vmaFree p = some (b, g')) :
    g'.InPlace f ∧ g'.vmaHeapAddr = g.vmaHeapAddr ∧ g'.vmaHeapHead = g.vmaHeapHead := by
  unfold VmaHeap.vmaFree at hrun
  obtain ⟨found, -, hrun⟩ := Option.bind_eq_some_iff.mp hrun
  split at hrun
  · obtain ⟨rfl, rfl⟩ := Prod.mk.inj (Option.some.inj hrun)
    exact ⟨hg, rfl, rfl⟩
  · obtain ⟨rfl, rfl⟩ := Prod.mk.inj (Option.some.inj hrun)
    refine ⟨⟨hg.paged, hg.room, hg.align, hg.le, hg.lt, hg.place, Or.inr hp, fun node => ?_⟩,
      rfl, rfl⟩
    by_cases hlist : g.vmaFreeList ≠ 0#64
    · simp only [hlist, if_true, ne_eq, not_false_eq_true]
      by_cases hn : node = nodeOfVma p
      · rw [hn, Function.update_self]
        exact hg.free
      · rw [Function.update_of_ne hn]
        exact hg.next node
    · simp only [hlist, if_false]
      exact hg.next node

/-! ## One operation -/

variable {O : HostOs ω}

theorem HeapHost.Sound.withHeap (hx : x.Sound f) (hg : g.InPlace f)
    (haddr : g.vmaHeapAddr = x.heap.vmaHeapAddr)
    (hhead : x.heap.vmaHeapHead.toNat ≤ g.vmaHeapHead.toNat) (ps : List Ptr)
    (hps : ∀ p ∈ ps, HeapNode g.vmaHeapAddr g.vmaHeapHead (nodeOfVma p)) :
    HeapHost.Sound f { x with heap := g, nodes := ps ++ x.nodes } := by
  refine ⟨hg, hx.frame, hx.cache, fun p hp => ?_⟩
  rcases List.mem_append.mp hp with hp | hp
  · exact hps p hp
  · show HeapNode g.vmaHeapAddr g.vmaHeapHead (nodeOfVma p)
    rw [haddr]
    exact (hx.nodes p hp).mono hhead

theorem HeapHost.Sound.alloc (hx : x.Sound f) (hok : x.heap.AllocOk)
    (hrun : (x.heap.vmaAlloc.map (handOut [])).map
      (fun y => { x with heap := y.1, nodes := y.2 ++ x.nodes }) = some y) : y.Sound f := by
  obtain ⟨z, hz, rfl⟩ := Option.map_eq_some_iff.mp hrun
  obtain ⟨⟨p, g'⟩, halloc, rfl⟩ := Option.map_eq_some_iff.mp hz
  obtain ⟨hg, haddr, hhead, hp⟩ := hx.heap.vmaAlloc hx.frame.2 hok halloc
  refine hx.withHeap hg haddr hhead _ fun q hq => ?_
  simp only [handOut] at hq
  split at hq
  · simp at hq
  · rename_i hne
    obtain rfl := List.mem_singleton.mp hq
    exact hp hne

theorem HeapHost.Sound.withHost (hx : x.Sound f) {h : Host ω}
    (hg : VmaHeap.InPlace f { x.heap with vm := h.vm }) : (x.withHost h).Sound f :=
  ⟨hg, hx.frame, hx.cache, hx.nodes⟩

theorem VmaHeap.InPlace.kernelMapVma (hx : x.heap.InPlace f) {r : VmRegion}
    (hok : r.NeedsMap → r.InTables ∧ (r.Moves → r.Known x.heap.vm) ∧
      (x.host.kernelMapVma O r).1.vm.pageCounter ≤ physicalHeapPages ∧
      ∀ k, r.first ≤ k → k < r.last → ¬ x.heap.HoldsPage k) :
    VmaHeap.InPlace f { x.heap with vm := (x.host.kernelMapVma O r).1.vm } := by
  by_cases hn : r.NeedsMap
  · obtain ⟨hr, hk, hroom, hpages⟩ := hok hn
    have hspec := kernelMapVma_spec (O := O) (h := x.host) hx.paged hr hn hk
      (hroom.trans physicalHeapPages_le_maxFrames)
    exact hx.mapsVma hspec.1 hroom hpages
  · rw [kernelMapVma_unchanged hn]
    exact hx

theorem VmaHeap.InPlace.kernelUnmapVma (hx : x.heap.InPlace f) {r : VmRegion}
    (hroom : (x.host.kernelUnmapVma r).vm.pageCounter ≤ physicalHeapPages)
    (hpages : ∀ u ∈ rangePages (pageDifference r.oldEndAddr r.oldStartAddr).toNat r.oldStartAddr,
      ¬ x.heap.HoldsPage (pageNumber u)) :
    VmaHeap.InPlace f { x.heap with vm := (x.host.kernelUnmapVma r).vm } := by
  unfold Host.kernelUnmapVma at hroom ⊢
  split
  · rename_i hne
    rw [if_pos hne] at hroom
    exact hx.unmapRange _ _ hroom hpages
  · exact hx

theorem HeapHost.Sound.step {op : GuestOp} (hx : x.Sound f) (hok : op.Ok O x)
    (hrun : op.run O x = some y) : y.Sound f := by
  cases op with
  | heap c =>
      cases c with
      | alloc => exact hx.alloc hok hrun
      | zalloc => exact hx.alloc hok hrun
      | free addr =>
          obtain ⟨z, hz, rfl⟩ := Option.map_eq_some_iff.mp hrun
          obtain ⟨⟨b, g'⟩, hfree, rfl⟩ := Option.map_eq_some_iff.mp hz
          obtain ⟨hg, haddr, hhead⟩ := hx.heap.vmaFree (hx.nodes addr hok) hfree
          exact hx.withHeap hg haddr (by rw [hhead]) [] (by simp)
  | paging c =>
      obtain rfl := Option.some.inj hrun
      exact hx.withHeap (hx.heap.call hok.1 hok.2) rfl le_rfl [] (by simp)
  | mapVma vma r =>
      obtain rfl := Option.some.inj hrun
      obtain ⟨hheap, hhost⟩ := x.heap_vmaHeapPtr vma
      refine (hx.look vma).withHost ?_
      rw [hheap, hhost]
      exact hx.heap.kernelMapVma hok
  | unmapVma vma r =>
      obtain rfl := Option.some.inj hrun
      obtain ⟨hheap, hhost⟩ := x.heap_vmaHeapPtr vma
      refine (hx.look vma).withHost ?_
      rw [hheap, hhost]
      exact hx.heap.kernelUnmapVma hok.1 hok.2
  | look vma =>
      obtain rfl := Option.some.inj hrun
      exact hx.look vma

/-! ## Runs -/

/-- The machine after `vma_init`: the host has not looked for a node yet. -/
def HeapHost.start (g : VmaHeap) (os : ω) : HeapHost ω where
  heap := g
  os := os
  stopped := false
  vmaHeapPhysAddr := 0#64
  nodes := []

namespace VmaHeap

variable {h : VmaHeap} {m : U64}

theorem InitOk.toNat_reservedPages (hi : h.InitOk m) :
    (h.reservedPages m).toNat = reserved m.toNat / 4096 := by
  have hle := reserved_le hi.entries
  have hroom := hi.room
  have hlt := hi.lt
  rw [reservedPages, toNat_pageDifference, BitVec.toNat_sub, hi.toNat_head]
  congr 1
  omega

theorem pageAligned_head (h : VmaHeap) (m : U64) : PageAligned (h.vmaInit m).vmaHeapHead := by
  rw [PageAligned]
  show (pageAlignDown _).toNat % 4096 = 0
  rw [toNat_pageAlignDown]
  omega

/-- The first page of the heap is on the first frame that `vma_init` has been given. -/
theorem InitOk.place (hi : h.InitOk m) (hp : h.vm.Paged)
    (hroom : (h.vmaInit m).vm.pageCounter ≤ physicalHeapPages) {v : U64} (hv : v.toNat < 2 ^ 39)
    (hpage : frameOf v = frameOf (h.vmaInit m).vmaHeapHead) :
    getPhysAddr v (h.vmaInit m).vm =
      some (frameAddr h.vm.pageCounter + (v - (h.vmaInit m).vmaHeapHead)) := by
  have hb := hroom.trans physicalHeapPages_le_maxFrames
  have hspec : h.vm.Performs (h.vmaInit m).vm (dataPages (-1#64) (h.reservedPages m))
      (pageUpdates heapPageFlags false
        (rangePages (h.reservedPages m).toNat (frameAddr h.vm.pageCounter))
        (h.vmaInit m).vmaHeapHead) :=
    mapPhysicalPages_spec hp (fun hne => absurd rfl hne) hb
  have hcount := hspec.counter
  have hpages := hi.toNat_reservedPages
  have hpos := reserved_pos hi.entries
  have hle := reserved_le hi.entries
  have hKroom := hi.room
  have hlt := hi.lt
  have hhead := hi.toNat_head
  have hal := pageAligned_head h m
  have hfit : frameOf (h.vmaInit m).vmaHeapHead + (h.reservedPages m).toNat ≤ 2 ^ 27 := by
    rw [hpages, frameOf]
    omega
  have hphys : PhysPage (frameAddr h.vm.pageCounter) := by
    have hsmall : physicalHeapPages < 2 ^ 40 := by decide
    refine ⟨pageAligned_frameAddr _, ?_⟩
    rw [toNat_frameAddr (by omega)]
    omega
  have hrow := frameAddr_row (f := h.vm.pageCounter) hal (le_of_eq hpage.symm)
  rw [hpage, Nat.sub_self, Nat.add_zero] at hrow
  rw [getPhysAddr_eq hspec.paged, Vm.pte_eq_leaf, pageNumber_eq_frameOf hv, hpage, Vm.leaf,
    hspec.pte]
  nth_rewrite 1 [hal.eq_frameAddr]
  rw [updatedEntry_range _ _ _ _ _ (by omega) hfit, if_pos (by omega), Option.map_some,
    Nat.sub_self, Nat.add_zero, leafEntry_and_entryMask heapPageFlags_and hphys, physOffset_eq,
      hrow]

theorem InitOk.inPlace (hi : h.InitOk m) (hp : h.vm.Paged) (hzero : ∀ node, h.nextFreed node = 0#64)
    (hroom : (h.vmaInit m).vm.pageCounter ≤ physicalHeapPages) :
    (h.vmaInit m).InPlace h.vm.pageCounter := by
  have hhead := hi.toNat_head
  have hlt := hi.lt
  have hb := hroom.trans physicalHeapPages_le_maxFrames
  refine ⟨(mapPhysicalPages_spec hp (fun hne => absurd rfl hne) hb).paged, hroom, ?_, le_rfl, ?_,
    fun v hv hpage => ?_, Or.inl rfl, fun node => Or.inl (hzero node)⟩
  · exact pageAligned_head h m
  · omega
  · exact hi.place hp hroom hv (le_antisymm hpage.2 hpage.1)

end VmaHeap

/-- The host finds every byte of a node where the guest has it. -/
def HeapHost.Agrees (x : HeapHost ω) (vma : Ptr) : Prop :=
  ∃ q, (x.vmaHeapPtr vma).1 = some q ∧ ∀ i < 144,
    getPhysAddr (vma + BitVec.ofNat 64 i) x.heap.vm = some (q + BitVec.ofNat 64 i)

theorem HeapHost.Sound.agrees (hx : x.Sound f) (hp : p ∈ x.nodes) : x.Agrees p := by
  have hnode := hx.nodes p hp
  have hlo := hnode.le
  have hhi := hnode.lt
  have hlt := hx.heap.lt
  have hp8 : p.toNat = (nodeOfVma p).toNat + 8 := by
    nth_rewrite 1 [← VmaHeap.vmaOfNode_nodeOfVma p]
    rw [vmaOfNode, BitVec.toNat_add, show (8#64 : U64).toNat = 8 from rfl,
      Nat.mod_eq_of_lt (by omega)]
  have hne : p ≠ 0#64 := by
    intro hc
    rw [hc, show (0#64 : U64).toNat = 0 from rfl] at hp8
    omega
  refine ⟨_, hx.vmaHeapPtr hne, fun i hi => ?_⟩
  have hbyte : (p + BitVec.ofNat 64 i).toNat = (nodeOfVma p).toNat + 8 + i := by
    rw [BitVec.toNat_add, BitVec.toNat_ofNat, hp8]
    omega
  rw [hx.heap.place _ (by omega) ⟨?_, ?_⟩, add_sub_right_comm, add_assoc]
  · rw [frameOf, frameOf, hbyte]
    omega
  · rw [frameOf, frameOf, hbyte]
    omega

/-- **Guest and host agree on where a node is** along every run in which the heap grows into
the frame behind its own. -/
theorem heapPtr_agrees_of_runs (O : HostOs ω) (h : VmaHeap) (maxEntries : U64) (os : ω)
    (hi : h.InitOk maxEntries) (htables : h.Tables) (hzero : ∀ node, h.nextFreed node = 0#64)
    (hroom : (h.vmaInit maxEntries).vm.pageCounter ≤ physicalHeapPages) (ops : List GuestOp)
    (x : HeapHost ω)
    (hruns : Run.Steps (GuestOp.run O) (GuestOp.Ok O) (.start (h.vmaInit maxEntries) os) ops x) :
    ∀ p ∈ x.nodes, x.Agrees p := by
  obtain ⟨M, hM, -⟩ := htables
  have hstart : (HeapHost.start (h.vmaInit maxEntries) os).Sound h.vm.pageCounter := by
    refine ⟨hi.inPlace hM.paged hzero hroom, ?_, Or.inl rfl, by simp [HeapHost.start]⟩
    have hbelow := hM.paged.below
    have hsmall : physicalHeapPages < 2 ^ 40 := by decide
    have hcount := hM.room
    omega
  have hx : x.Sound h.vm.pageCounter := Run.Steps.invariant (HeapHost.Sound h.vm.pageCounter) hruns
    (fun s op t hs hok hstep => hs.step hok hstep) hstart
  exact fun p hp => hx.agrees hp

/-! ## The 27th node -/

/-- An operating system without files. -/
def noFiles : HostOs Unit where
  dup _ fd := ((), fd)
  close _ _ := ()
  fstat _ _ := ((), 0#64, 0#64)
  mmap _ _ _ _ _ _ := none
  hole _ _ := 0#64

/-- The test of a call of the allocator. -/
def allocTest (x : HeapHost Unit) : GuestOp → Bool
  | .heap .alloc => decide x.heap.AllocOk
  | .look _ => true
  | _ => false

theorem ok_of_allocTest (x : HeapHost Unit) (op : GuestOp) (hop : allocTest x op = true) :
    op.Ok noFiles x := by
  cases op with
  | heap c =>
      cases c with
      | alloc => exact of_decide_eq_true (p := x.heap.AllocOk) hop
      | zalloc => exact absurd hop (by simp [allocTest])
      | free addr => exact absurd hop (by simp [allocTest])
  | paging c => exact absurd hop (by simp [allocTest])
  | mapVma vma r => exact absurd hop (by simp [allocTest])
  | unmapVma vma r => exact absurd hop (by simp [allocTest])
  | look vma => trivial

/-- The heap takes the next frame for the 27th node when nobody has been in between. -/
theorem heapPtr_agrees_of_runs_nextFrame :
    ∃ x : HeapHost Unit, Run.Steps (GuestOp.run noFiles) (GuestOp.Ok noFiles)
        (.start (gdtHeap.vmaInit 1000#64) ()) (.heap .alloc :: .look firstVma ::
          List.replicate 26 (.heap .alloc)) x ∧
      x.nodes.length = 27 ∧ ∀ p ∈ x.nodes, x.Agrees p := by
  have hrun : (Run.exec (GuestOp.run noFiles) allocTest (.heap .alloc :: .look firstVma ::
      List.replicate 26 (.heap .alloc)) (.start (gdtHeap.vmaInit 1000#64) ())).map
        (fun x => x.nodes.length) = some 27 := by decide +kernel
  obtain ⟨x, hx, hlen⟩ := Option.map_eq_some_iff.mp hrun
  have hruns := Run.Steps.of_exec ok_of_allocTest _ hx
  exact ⟨x, hruns, hlen, heapPtr_agrees_of_runs noFiles gdtHeap 1000#64 ()
    ⟨by decide, by decide, by decide, by decide⟩ tables_gdtHeap (fun _ => rfl) (by decide +kernel)
    _ x hruns⟩

/-- A page of the user. -/
def userPage : PagingCall := .map 0x1000#64 (-1#64) pde64User 1#64 0#64

/-- The 27th node of that heap; its last eight bytes are in the next page. -/
def lastVma : Ptr := 0xfff78#64

/-- One page of the user is mapped in between: the second page of the heap is not behind the
first, and the host takes the end of the 27th node to be in the page of the user. -/
theorem heapPtr_misses_node :
    ∃ x : HeapHost Unit, Run.Steps (GuestOp.run noFiles) (fun _ _ => True)
        (.start (gdtHeap.vmaInit 1000#64) ())
        (List.replicate 26 (.heap .alloc) ++ [.paging userPage, .heap .alloc]) x ∧
      lastVma ∈ x.nodes ∧ ¬ x.Agrees lastVma := by
  have hrun : (Run.exec (GuestOp.run noFiles) (fun _ _ => true) (List.replicate 26 (.heap .alloc) ++
      [.paging userPage, .heap .alloc]) (.start (gdtHeap.vmaInit 1000#64) ())).map
        (fun x => (decide (lastVma ∈ x.nodes), (x.vmaHeapPtr lastVma).1,
          getPhysAddr (lastVma + BitVec.ofNat 64 136) x.heap.vm)) =
      some (true, some 0xef78#64, some 0x10000#64) := by decide +kernel
  obtain ⟨x, hx, hfacts⟩ := Option.map_eq_some_iff.mp hrun
  simp only [Prod.mk.injEq, decide_eq_true_eq] at hfacts
  obtain ⟨hmem, hhost, hguest⟩ := hfacts
  refine ⟨x, Run.Steps.of_exec (fun _ _ _ => trivial) _ hx, hmem, fun ⟨q, hq, hbytes⟩ => ?_⟩
  rw [hhost] at hq
  have hlast := hbytes 136 (by decide)
  rw [hguest, ← Option.some.inj hq] at hlast
  exact absurd hlast (by decide)

end BufferVM
