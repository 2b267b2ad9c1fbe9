/-
  Kernel/HeapPages.lean --- where the nodes of the VMA heap are.

  `vma_init` reserves as many bytes as there may be nodes, rounded up to pages, and maps
  them in a row.  `vma_alloc` maps the page of the new head whenever the head moves on to
  another page, whether the page has been reserved or not, on the next free frame.  So the
  heap leaves its reservation and maps over the kernel, and the host, which takes the heap
  to be in a row, looks for the nodes in the wrong frames.
-/
import BufferVM.Kernel.VmaHeap
import BufferVM.Vm.HostMap
import BufferVM.Vm.PageMap

set_option autoImplicit false

namespace BufferVM

variable {M : PageMap} {vm : Vm} {g g' h : VmaHeap} {p v : U64}

/-! ## Mapping the page of the head -/

theorem heapPageFlags_and : VmaHeap.heapPageFlags &&& ~~~flagBits = 0#64 := by decide

/-- The map after one page of the heap has been mapped on the next free frame. -/
theorem PageMap.Refines.heapPage (hM : M.Refines vm) (page : U64)
    (hroom : (mapPhysicalPages page (-1#64) VmaHeap.heapPageFlags 1#64 0#64 vm).2.pageCounter ≤
      physicalHeapPages) :
    PageMap.Refines (Function.update M (pageNumber page) (some (frameAddr vm.pageCounter)))
      (mapPhysicalPages page (-1#64) VmaHeap.heapPageFlags 1#64 0#64 vm).2 := by
  have hok : (PagingCall.map page (-1#64) VmaHeap.heapPageFlags 1#64 0#64).Ok vm := by
    refine ⟨hroom, fun _ _ _ _ _ hc => ?_, fun _ _ _ _ _ hc hne => ?_⟩
    · cases hc
      exact heapPageFlags_and
    · cases hc
      exact absurd rfl hne
  exact hM.call hok

/-- Every page that is mapped is on a frame that has been handed out. -/
def PageMap.HandedOut (M : PageMap) (vm : Vm) : Prop :=
  ∀ k p, M k = some p → frameOf p < vm.pageCounter

/-- The loop of `vma_alloc` maps one page. -/
theorem mapHeapPages_one {page : U64} (hpage : page.toNat + 4096 < 2 ^ 64) :
    VmaHeap.mapHeapPages page walkBound page vm =
      some (mapPhysicalPages page (-1#64) VmaHeap.heapPageFlags 1#64 0#64 vm).2 := by
  have hnext : ¬ page + pageSize ≤ page := by
    have hs : pageSize.toNat = 4096 := by decide
    rw [BitVec.le_def, BitVec.toNat_add, hs]
    omega
  show VmaHeap.mapHeapPages page (walkBound - 2 + 1 + 1) page vm = _
  rw [VmaHeap.mapHeapPages, if_pos (BitVec.le_refl _), VmaHeap.mapHeapPages, if_neg hnext]

namespace VmaHeap

/-- The head after one more node. -/
def newHead (g : VmaHeap) : U64 := g.vmaHeapHead + vmaNodeSize

/-- The next node reaches into another page. -/
def Crosses (g : VmaHeap) : Prop := frameOf g.vmaHeapHead ≠ frameOf g.newHead

instance (g : VmaHeap) : Decidable g.Crosses := inferInstanceAs (Decidable (_ ≠ _))

/-- The machine after one more node. -/
def carvedVm (g : VmaHeap) : Vm :=
  if g.Crosses then
    (mapPhysicalPages (frameAddr (frameOf g.newHead)) (-1#64) heapPageFlags 1#64 0#64 g.vm).2
  else g.vm

theorem toNat_newHead (hlt : g.vmaHeapHead.toNat + 8192 < 2 ^ 64) :
    g.newHead.toNat = g.vmaHeapHead.toNat + 152 := by
  rw [newHead, BitVec.toNat_add, show vmaNodeSize.toNat = 152 from rfl, Nat.mod_eq_of_lt (by omega)]

/-- A node is carved from the head, and the page of the new head is mapped if it is another
one. -/
theorem carve_eq (hlt : g.vmaHeapHead.toNat + 8192 < 2 ^ 64) :
    g.carve = some (vmaOfNode g.vmaHeapHead,
      { g with vmaHeapHead := g.newHead, vm := g.carvedVm }) := by
  have hnew := toNat_newHead hlt
  have hcross : pageAlignDown g.vmaHeapHead ≠ pageAlignDown g.newHead ↔ g.Crosses := by
    rw [pageAlignDown_eq_frameAddr, pageAlignDown_eq_frameAddr, Crosses]
    refine not_congr ⟨fun heq => ?_, fun heq => by rw [heq]⟩
    have hframes := congrArg frameOf heq
    rw [frameOf_frameAddr (by rw [frameOf]; omega), frameOf_frameAddr (by rw [frameOf]; omega)]
      at hframes
    exact hframes
  have hcarve : g.carve =
      (if pageAlignDown g.vmaHeapHead ≠ pageAlignDown g.newHead then
        mapHeapPages (pageAlignDown g.newHead) walkBound
          (pageAlignDown g.vmaHeapHead + pageSize) g.vm
      else some g.vm).map fun vm =>
        (vmaOfNode g.vmaHeapHead, { g with vmaHeapHead := g.newHead, vm := vm }) := rfl
  rw [hcarve, carvedVm]
  by_cases hc : g.Crosses
  · -- the page behind the old one is the page of the new head
    have hpage : pageAlignDown g.vmaHeapHead + pageSize = frameAddr (frameOf g.newHead) := by
      have hne : frameOf g.vmaHeapHead ≠ frameOf g.newHead := hc
      rw [pageAlignDown_eq_frameAddr, pageSize_eq, frameAddr_add]
      congr 1
      rw [frameOf, frameOf] at hne ⊢
      omega
    have hsmall : (frameAddr (frameOf g.newHead)).toNat + 4096 < 2 ^ 64 := by
      rw [toNat_frameAddr (by rw [frameOf]; omega), frameOf]
      omega
    simp only [hcross, hc, if_true]
    rw [hpage, pageAlignDown_eq_frameAddr, mapHeapPages_one hsmall]
    rfl
  · simp only [hcross, hc, if_false]
    rfl

/-- The translations after one more node. -/
def carvedMap (g : VmaHeap) (M : PageMap) : PageMap :=
  if g.Crosses then
    Function.update M (pageNumber (frameAddr (frameOf g.newHead)))
      (some (frameAddr g.vm.pageCounter))
  else M

theorem carvedMap_refines (hM : M.Refines g.vm)
    (hroom : g.carvedVm.pageCounter ≤ physicalHeapPages) : (g.carvedMap M).Refines g.carvedVm := by
  unfold carvedVm at hroom ⊢
  unfold carvedMap
  split
  · rename_i hc
    rw [if_pos hc] at hroom
    exact hM.heapPage _ hroom
  · exact hM

theorem le_pageCounter_carvedVm (g : VmaHeap) : g.vm.pageCounter ≤ g.carvedVm.pageCounter := by
  unfold carvedVm
  split
  · exact le_pageCounter_mapEach _ _ 1 _ (-1#64) g.vm
  · exact le_rfl

theorem pageCounter_lt_carvedVm (hp : g.vm.Paged) (hc : g.Crosses)
    (hroom : g.carvedVm.pageCounter ≤ physicalHeapPages) :
    g.vm.pageCounter < g.carvedVm.pageCounter := by
  rw [carvedVm, if_pos hc] at hroom ⊢
  have hcount := (mapPhysicalPages_spec hp (fun hne => absurd rfl hne)
    (hroom.trans physicalHeapPages_le_maxFrames)).counter
  have hone : dataPages (-1#64) 1#64 = 1 := by decide
  omega

theorem carvedMap_handedOut (hM : M.Refines g.vm) (hand : M.HandedOut g.vm)
    (hroom : g.carvedVm.pageCounter ≤ physicalHeapPages) :
    (g.carvedMap M).HandedOut g.carvedVm := by
  intro k q hk
  have hle := le_pageCounter_carvedVm g
  unfold carvedMap at hk
  split at hk
  · rename_i hc
    have hlt := pageCounter_lt_carvedVm hM.paged hc hroom
    by_cases heq : k = pageNumber (frameAddr (frameOf g.newHead))
    · rw [heq, Function.update_self] at hk
      rw [← Option.some.inj hk]
      have hsmall : physicalHeapPages < 2 ^ 52 := by decide
      rw [frameOf_frameAddr (by omega)]
      exact hlt
    · rw [Function.update_of_ne heq] at hk
      exact (hand k q hk).trans_le hle
  · exact (hand k q hk).trans_le hle

end VmaHeap

/-- Pages that are installed are the given ones or were there before. -/
theorem installAll_cases (noOverwrite : Bool) (ps : List U64) :
    ∀ (u : U64) (M : PageMap) (k : Nat) (q : U64), M.installAll noOverwrite ps u k = some q →
      q ∈ ps ∨ M k = some q := by
  induction ps with
  | nil => exact fun u M k q hq => Or.inr hq
  | cons x ps ih =>
      intro u M k q hq
      rcases ih _ _ k q hq with hq | hq
      · exact Or.inl (by simp [hq])
      · rw [PageMap.install] at hq
        split at hq
        · exact Or.inr hq
        · by_cases hk : k = pageNumber u
          · rw [hk, Function.update_self] at hq
            exact Or.inl (by simp [Option.some.inj hq])
          · rw [Function.update_of_ne hk] at hq
            exact Or.inr hq

theorem frameOf_of_mem_rangePages {n c : Nat} (hc : c + n < 2 ^ 52) :
    ∀ q ∈ rangePages n (frameAddr c), c ≤ frameOf q ∧ frameOf q < c + n := by
  induction n generalizing c with
  | zero => simp [rangePages]
  | succ n ih =>
      intro q hq
      rw [rangePages, pageSize_eq, frameAddr_add] at hq
      rcases List.mem_cons.mp hq with rfl | hq
      · rw [frameOf_frameAddr (by omega)]
        omega
      · have := ih (c := c + 1) (by omega) q hq
        omega

namespace VmaHeap

/-- The pages that `vma_init` reserves. -/
def reservedPages (h : VmaHeap) (maxEntries : U64) : U64 :=
  pageDifference h.kernelMinAddress (h.vmaInit maxEntries).vmaHeapHead

/-- The translations after `vma_init`: the reserved pages are mapped in a row. -/
def initMap (h : VmaHeap) (maxEntries : U64) (M : PageMap) : PageMap :=
  M.installAll false (rangePages (h.reservedPages maxEntries).toNat (frameAddr h.vm.pageCounter))
    (h.vmaInit maxEntries).vmaHeapHead

theorem initMap_refines (maxEntries : U64) (hM : M.Refines h.vm)
    (hroom : (h.vmaInit maxEntries).vm.pageCounter ≤ physicalHeapPages) :
    (h.initMap maxEntries M).Refines (h.vmaInit maxEntries).vm := by
  have hok : (PagingCall.map (h.vmaInit maxEntries).vmaHeapHead (-1#64) heapPageFlags
      (h.reservedPages maxEntries) mapContinuous).Ok h.vm := by
    refine ⟨hroom, fun _ _ _ _ _ hc => ?_, fun _ _ _ _ _ hc hne => ?_⟩
    · cases hc
      exact heapPageFlags_and
    · cases hc
      exact absurd rfl hne
  exact hM.call hok

theorem initMap_handedOut (maxEntries : U64) (hM : M.Refines h.vm) (hand : M.HandedOut h.vm)
    (hroom : (h.vmaInit maxEntries).vm.pageCounter ≤ physicalHeapPages) :
    (h.initMap maxEntries M).HandedOut (h.vmaInit maxEntries).vm := by
  have hspec : h.vm.Performs (h.vmaInit maxEntries).vm
      (dataPages (-1#64) (h.reservedPages maxEntries)) _ :=
    mapPhysicalPages_spec hM.paged (fun hne => absurd rfl hne)
      (hroom.trans physicalHeapPages_le_maxFrames)
  have hcount := hspec.counter
  have hnew : dataPages (-1#64) (h.reservedPages maxEntries) =
      (h.reservedPages maxEntries).toNat := if_pos rfl
  have hsmall : physicalHeapPages < 2 ^ 52 := by decide
  intro k q hk
  rcases installAll_cases _ _ _ _ k q hk with hq | hq
  · have := frameOf_of_mem_rangePages (by omega) q hq
    omega
  · have := hand k q hq
    omega

/-! ## The size of the reservation -/

/-- Bytes, rounded up to pages. -/
def roundUp (n : Nat) : Nat := (n + 4095) / 4096 * 4096

/-- `vma_max_num` for a number of entries. -/
def maxNum (m : Nat) : Nat := roundUp (152 * m) / 152 - 1

/-- The bytes that `vma_init` reserves: one for each node. -/
def reserved (m : Nat) : Nat := roundUp (maxNum m)

/-- The call of `vma_init`: at least one entry, and the kernel is above what the entries take,
in the 39-bit address space. -/
structure InitOk (h : VmaHeap) (maxEntries : U64) : Prop where
  entries : 1 ≤ maxEntries.toNat
  align : PageAligned h.kernelMinAddress
  room : roundUp (152 * maxEntries.toNat) ≤ h.kernelMinAddress.toNat
  lt : h.kernelMinAddress.toNat < 2 ^ 39

theorem maxNum_pos {m : Nat} (hm : 1 ≤ m) : 25 ≤ maxNum m := by
  have hr : 4096 ≤ roundUp (152 * m) := by
    rw [roundUp]
    omega
  rw [maxNum]
  omega

theorem maxNum_le (m : Nat) (hm : 1 ≤ m) : 152 * (maxNum m + 1) ≤ roundUp (152 * m) := by
  have hpos := maxNum_pos hm
  rw [maxNum] at hpos ⊢
  omega

theorem reserved_le {m : Nat} (hm : 1 ≤ m) : reserved m ≤ roundUp (152 * m) := by
  have hle := maxNum_le m hm
  have hpos := maxNum_pos hm
  rw [reserved, roundUp]
  rw [roundUp] at hle ⊢
  omega

theorem reserved_pos {m : Nat} (hm : 1 ≤ m) : 4096 ≤ reserved m := by
  have hpos := maxNum_pos hm
  rw [reserved, roundUp]
  omega

theorem InitOk.toNat_maxNum {maxEntries : U64} (hi : h.InitOk maxEntries) :
    (h.vmaInit maxEntries).vmaMaxNum.toNat = maxNum maxEntries.toNat := by
  obtain ⟨hm, -, hroom, hlt⟩ := hi
  have hpos := maxNum_pos hm
  have hsize : vmaNodeSize.toNat = 152 := rfl
  have hle : 152 * maxEntries.toNat ≤ roundUp (152 * maxEntries.toNat) := by
    rw [roundUp]
    omega
  have hmul : (maxEntries * vmaNodeSize).toNat = 152 * maxEntries.toNat := by
    rw [BitVec.toNat_mul, hsize, Nat.mod_eq_of_lt (by omega)]
    omega
  have hal : (pageAlign (maxEntries * vmaNodeSize)).toNat = roundUp (152 * maxEntries.toNat) := by
    rw [toNat_pageAlign, hmul]
    exact Nat.mod_eq_of_lt (by rw [roundUp] at hroom; omega)
  show (pageAlign (maxEntries * vmaNodeSize) / vmaNodeSize - 1#64).toNat = _
  rw [maxNum] at hpos ⊢
  rw [BitVec.toNat_sub, BitVec.toNat_udiv, hal, hsize, show (1#64 : U64).toNat = 1 from rfl]
  omega

theorem InitOk.toNat_head {maxEntries : U64} (hi : h.InitOk maxEntries) :
    (h.vmaInit maxEntries).vmaHeapHead.toNat =
      h.kernelMinAddress.toNat - reserved maxEntries.toNat := by
  have hnum := hi.toNat_maxNum
  have hle := reserved_le hi.entries
  have hroom := hi.room
  have hlt := hi.lt
  have hal := hi.align
  rw [PageAligned] at hal
  have hhead : (h.vmaInit maxEntries).vmaHeapHead =
      pageAlignDown (h.kernelMinAddress - (h.vmaInit maxEntries).vmaMaxNum) := rfl
  rw [hhead, toNat_pageAlignDown, BitVec.toNat_sub, hnum]
  rw [reserved, roundUp] at hle ⊢
  omega

/-! ## One call on a heap without freed nodes -/

/-- The heap after a node has been carved by `vma_alloc`. -/
def carved (g : VmaHeap) : VmaHeap :=
  { g with
    vmaAllocNum := g.vmaAllocNum + 1#64
    vmaHeapHead := g.newHead
    vm := g.carvedVm }

theorem vmaAlloc_carves (hfree : g.vmaFreeList = 0#64) (hne : g.vmaAllocNum ≠ g.vmaMaxNum + 1#64)
    (hlt : g.vmaHeapHead.toNat + 8192 < 2 ^ 64) :
    g.vmaAlloc = some (vmaOfNode g.vmaHeapHead, g.carved) := by
  have hcarve := carve_eq (g := { g with vmaAllocNum := g.vmaAllocNum + 1#64 }) hlt
  have halloc : g.vmaAlloc = ({ g with vmaAllocNum := g.vmaAllocNum + 1#64 } : VmaHeap).carve := by
    simp only [vmaAlloc, vmaNextFreed, hfree, hne, if_true, decide_false, Bool.false_eq_true,
      if_false]
  rw [halloc, hcarve]
  rfl

theorem vmaAlloc_full (hfree : g.vmaFreeList = 0#64) (heq : g.vmaAllocNum = g.vmaMaxNum + 1#64) :
    g.vmaAlloc = some (0#64, { g with vmaAllocNum := g.vmaAllocNum + 1#64 }) := by
  simp only [vmaAlloc, vmaNextFreed, hfree, heq, if_true, decide_true]

/-- The heap after `vma_init` and `i` calls of `vma_alloc`, up to the first that returns
`NULL`. -/
structure HeadAt (h : VmaHeap) (maxEntries : U64) (i : Nat) (g : VmaHeap) : Prop where
  free : g.vmaFreeList = 0#64
  num : g.vmaMaxNum.toNat = maxNum maxEntries.toNat
  count : g.vmaAllocNum.toNat = i
  head : g.vmaHeapHead.toNat = h.kernelMinAddress.toNat - reserved maxEntries.toNat +
    152 * min i (maxNum maxEntries.toNat + 1)

variable {m : U64} {i : Nat}

theorem InitOk.headAt (hi : h.InitOk m) : HeadAt h m 0 (h.vmaInit m) :=
  ⟨rfl, hi.toNat_maxNum, rfl, by rw [hi.toNat_head]; omega⟩

theorem HeadAt.lt (hi : h.InitOk m) (hg : HeadAt h m i g) : g.vmaHeapHead.toNat < 2 ^ 40 := by
  have hhead := hg.head
  have hle := maxNum_le m.toNat hi.entries
  have hroom := hi.room
  have hlt := hi.lt
  omega

theorem HeadAt.full_iff (hi : h.InitOk m) (hg : HeadAt h m i g) :
    g.vmaAllocNum = g.vmaMaxNum + 1#64 ↔ i = maxNum m.toNat + 1 := by
  have hle := maxNum_le m.toNat hi.entries
  have hroom := hi.room
  have hlt := hi.lt
  have hadd : (g.vmaMaxNum + 1#64).toNat = maxNum m.toNat + 1 := by
    rw [BitVec.toNat_add, hg.num, show (1#64 : U64).toNat = 1 from rfl, Nat.mod_eq_of_lt (by omega)]
  rw [← BitVec.toNat_inj, hg.count, hadd]

/-- A call other than the one that returns `NULL` carves the node at the head. -/
theorem HeadAt.carves (hi : h.InitOk m) (hg : HeadAt h m i g) (hne : i ≠ maxNum m.toNat + 1) :
    g.vmaAlloc = some (vmaOfNode g.vmaHeapHead, g.carved) := by
  have hlt := hg.lt hi
  exact vmaAlloc_carves hg.free (fun hc => hne ((hg.full_iff hi).mp hc)) (by omega)

theorem HeadAt.carved (hi : h.InitOk m) (hg : HeadAt h m i g) (hle : i ≤ maxNum m.toNat) :
    HeadAt h m (i + 1) g.carved := by
  have hlt := hg.lt hi
  have hmax := maxNum_le m.toNat hi.entries
  have hroom := hi.room
  have hK := hi.lt
  refine ⟨hg.free, hg.num, ?_, ?_⟩
  · show (g.vmaAllocNum + 1#64).toNat = i + 1
    rw [BitVec.toNat_add, hg.count, show (1#64 : U64).toNat = 1 from rfl, Nat.mod_eq_of_lt
      (by omega)]
  · show g.newHead.toNat = _
    rw [toNat_newHead (by omega), hg.head]
    omega

/-- The call after the last node returns `NULL`. -/
theorem HeadAt.full (hi : h.InitOk m) (hg : HeadAt h m (maxNum m.toNat + 1) g) :
    ∃ g', g.vmaAlloc = some (0#64, g') ∧ HeadAt h m (maxNum m.toNat + 2) g' ∧ g'.vm = g.vm := by
  have hmax := maxNum_le m.toNat hi.entries
  have hroom := hi.room
  have hK := hi.lt
  refine ⟨_, vmaAlloc_full hg.free ((hg.full_iff hi).mpr rfl), ⟨hg.free, hg.num, ?_, ?_⟩, rfl⟩
  · show (g.vmaAllocNum + 1#64).toNat = _
    rw [BitVec.toNat_add, hg.count, show (1#64 : U64).toNat = 1 from rfl, Nat.mod_eq_of_lt
      (by omega)]
  · show g.vmaHeapHead.toNat = _
    rw [hg.head]
    omega

/-! ## A sequence of calls -/

/-- The heap after calls of `vma_alloc`. -/
def vmaAllocs : Nat → VmaHeap → Option VmaHeap
  | 0, h => some h
  | n + 1, h => (vmaAllocs n h).bind fun g => g.vmaAlloc.map Prod.snd

theorem vmaAllocs_succ {n : Nat} (hrun : vmaAllocs n h = some g)
    (hnext : g.vmaAlloc = some (p, g')) :
    vmaAllocs (n + 1) h = some g' := by
  rw [vmaAllocs, hrun, Option.bind_some, hnext]
  rfl

/-- The heap after calls, up to the first that returns `NULL`. -/
theorem InitOk.vmaAllocs (hi : h.InitOk m) :
    ∀ i ≤ maxNum m.toNat + 2, ∃ g, VmaHeap.vmaAllocs i (h.vmaInit m) = some g ∧ HeadAt h m i g := by
  intro i
  induction i with
  | zero => exact fun _ => ⟨_, rfl, hi.headAt⟩
  | succ i ih =>
      intro hle
      obtain ⟨g, hrun, hg⟩ := ih (by omega)
      rcases Nat.lt_or_ge (maxNum m.toNat) i with hlt | hge
      · obtain rfl : i = maxNum m.toNat + 1 := by omega
        obtain ⟨g', hnext, hg', -⟩ := hg.full hi
        exact ⟨g', vmaAllocs_succ hrun hnext, hg'⟩
      · exact ⟨_, vmaAllocs_succ hrun (hg.carves hi (by omega)), hg.carved hi hge⟩

/-- A call maps pages and takes none back. -/
theorem InitOk.le_pageCounter (hi : h.InitOk m) {n : Nat} (hle : i ≤ n)
    (hn : n ≤ maxNum m.toNat + 2)
    {k : VmaHeap} (hrun : VmaHeap.vmaAllocs i (h.vmaInit m) = some g)
    (hlast : VmaHeap.vmaAllocs n (h.vmaInit m) = some k) : g.vm.pageCounter ≤ k.vm.pageCounter := by
  induction n, hle using Nat.le_induction generalizing k with
  | base =>
      obtain rfl := Option.some.inj (hrun.symm.trans hlast)
      exact le_rfl
  | succ n hin ih =>
      obtain ⟨g', hrun', hg'⟩ := hi.vmaAllocs n (by omega)
      have hih := ih (by omega) hrun'
      rcases Nat.lt_or_ge (maxNum m.toNat) n with hlt | hge
      · obtain rfl : n = maxNum m.toNat + 1 := by omega
        obtain ⟨k', hnext, -, hvm⟩ := hg'.full hi
        obtain rfl := Option.some.inj ((vmaAllocs_succ hrun' hnext).symm.trans hlast)
        rw [hvm]
        exact hih
      · have hnext := hg'.carves hi (by omega)
        obtain rfl := Option.some.inj ((vmaAllocs_succ hrun' hnext).symm.trans hlast)
        exact hih.trans (le_pageCounter_carvedVm g')

/-- The tables of the heap refine a map of pages that have been handed out. -/
def Tables (g : VmaHeap) : Prop := ∃ M : PageMap, M.Refines g.vm ∧ M.HandedOut g.vm

theorem InitOk.tables (hi : h.InitOk m) (htables : h.Tables) :
    ∀ i ≤ maxNum m.toNat + 2, ∀ g, VmaHeap.vmaAllocs i (h.vmaInit m) = some g →
      g.vm.pageCounter ≤ physicalHeapPages → g.Tables := by
  intro i
  induction i with
  | zero =>
      intro _ g hrun hroom
      obtain ⟨M, hM, hand⟩ := htables
      obtain rfl := Option.some.inj hrun
      exact ⟨_, initMap_refines m hM hroom, initMap_handedOut m hM hand hroom⟩
  | succ i ih =>
      intro hle k hlast hroom
      obtain ⟨g, hrun, hg⟩ := hi.vmaAllocs i (by omega)
      have hmono := hi.le_pageCounter (Nat.le_succ i) hle hrun hlast
      obtain ⟨M, hM, hand⟩ := ih (by omega) g hrun (hmono.trans hroom)
      rcases Nat.lt_or_ge (maxNum m.toNat) i with hlt | hge
      · obtain rfl : i = maxNum m.toNat + 1 := by omega
        obtain ⟨k', hnext, -, hvm⟩ := hg.full hi
        obtain rfl := Option.some.inj ((vmaAllocs_succ hrun hnext).symm.trans hlast)
        refine ⟨M, ?_, ?_⟩
        · rw [hvm]
          exact hM
        · rw [hvm]
          exact hand
      · have hnext := hg.carves hi (by omega)
        obtain rfl := Option.some.inj ((vmaAllocs_succ hrun hnext).symm.trans hlast)
        exact ⟨_, carvedMap_refines hM hroom, carvedMap_handedOut hM hand hroom⟩

/-! ## The reservation -/

/-- What is asked of the `i`-th call: one of the first `vma_max_num + 1` nodes is in the
reservation, no page of the kernel is mapped anew, and after those nodes the call returns
`NULL`. -/
structure CallInside (h : VmaHeap) (maxEntries : U64) (i : Nat) (g : VmaHeap) (p : Ptr)
    (g' : VmaHeap) : Prop where
  inside : i ≤ (h.vmaInit maxEntries).vmaMaxNum.toNat →
    (h.vmaInit maxEntries).vmaHeapAddr.toNat ≤ (nodeOfVma p).toNat ∧
      (nodeOfVma p).toNat + 152 ≤ h.kernelMinAddress.toNat
  kernel : ∀ v : U64, h.kernelMinAddress ≤ v → v.toNat < 2 ^ 39 →
    getPhysAddr v g'.vm = getPhysAddr v g.vm
  full : (h.vmaInit maxEntries).vmaMaxNum.toNat < i → p = 0#64

/-- The heap stays in its reservation for `n` calls of `vma_alloc` after `vma_init`. -/
structure StaysInside (h : VmaHeap) (maxEntries : U64) (n : Nat) : Prop where
  returns : ∃ g, vmaAllocs n (h.vmaInit maxEntries) = some g
  calls : ∀ i < n, ∀ g p g', vmaAllocs i (h.vmaInit maxEntries) = some g →
    g.vmaAlloc = some (p, g') → h.CallInside maxEntries i g p g'
  apart : ∀ i j, i < j → j < n → j ≤ (h.vmaInit maxEntries).vmaMaxNum.toNat →
    ∀ g p g' k q k', vmaAllocs i (h.vmaInit maxEntries) = some g → g.vmaAlloc = some (p, g') →
      vmaAllocs j (h.vmaInit maxEntries) = some k → k.vmaAlloc = some (q, k') →
      (nodeOfVma p).toNat + 152 ≤ (nodeOfVma q).toNat ∨
        (nodeOfVma q).toNat + 152 ≤ (nodeOfVma p).toNat

/-- A node is carved below the kernel. -/
theorem HeadAt.callInside (hi : h.InitOk m) (hg : HeadAt h m i g) (htables : g.Tables)
    (hroom : g.carvedVm.pageCounter ≤ physicalHeapPages) (hle : i ≤ maxNum m.toNat)
    (hfit : 152 * (i + 1) < reserved m.toNat) :
    h.CallInside m i g (vmaOfNode g.vmaHeapHead) g.carved := by
  obtain ⟨M, hM, -⟩ := htables
  have hlt := hg.lt hi
  have hhead := hg.head
  have hres := reserved_le hi.entries
  have hK := hi.lt
  have hKroom := hi.room
  have hnew := toNat_newHead (g := g) (by omega)
  refine ⟨fun _ => ?_, fun v hv hv39 => ?_, fun hc => ?_⟩
  · have haddr : (h.vmaInit m).vmaHeapAddr.toNat = h.kernelMinAddress.toNat - reserved m.toNat :=
      hi.toNat_head
    rw [nodeOfVma_vmaOfNode, haddr]
    omega
  · show getPhysAddr v g.carvedVm = _
    rw [(carvedMap_refines hM hroom).getPhysAddr, hM.getPhysAddr, carvedMap]
    split
    · rw [Function.update_of_ne]
      -- the page of the new head is below the kernel
      have hal := hi.align
      rw [PageAligned] at hal
      have hv := BitVec.le_def.mp hv
      rw [pageNumber_frameAddr (by rw [frameOf]; omega), pageNumber, frameOf,
        Nat.mod_eq_of_lt hv39]
      omega
    · rfl
  · rw [hi.toNat_maxNum] at hc
    omega

/-- The node that reaches the kernel has its first page mapped anew. -/
theorem HeadAt.not_callInside (hi : h.InitOk m) (hg : HeadAt h m i g) (htables : g.Tables)
    (hroom : g.carvedVm.pageCounter ≤ physicalHeapPages) (hle : i ≤ maxNum m.toNat)
    (hfit : 152 * i < reserved m.toNat) (hout : reserved m.toNat ≤ 152 * (i + 1)) :
    ¬ h.CallInside m i g (vmaOfNode g.vmaHeapHead) g.carved := by
  intro hc
  obtain ⟨M, hM, hand⟩ := htables
  have hlt := hg.lt hi
  have hhead := hg.head
  have hres := reserved_le hi.entries
  have hK := hi.lt
  have hKroom := hi.room
  have hal := hi.align
  rw [PageAligned] at hal
  have hnew := toNat_newHead (g := g) (by omega)
  have hpage : frameOf g.newHead = frameOf h.kernelMinAddress := by
    rw [frameOf, frameOf]
    omega
  have hcross : g.Crosses := by
    rw [Crosses, hpage, frameOf, frameOf]
    omega
  have hkernel : getPhysAddr h.kernelMinAddress g.carvedVm = getPhysAddr h.kernelMinAddress g.vm :=
    hc.kernel h.kernelMinAddress (BitVec.le_refl _) hK
  have hnum : pageNumber (frameAddr (frameOf g.newHead)) = pageNumber h.kernelMinAddress := by
    rw [hpage, pageNumber_frameAddr (by rw [frameOf]; omega), pageNumber, frameOf,
      Nat.mod_eq_of_lt hK]
  rw [(carvedMap_refines hM hroom).getPhysAddr, hM.getPhysAddr, carvedMap, if_pos hcross, hnum,
    Function.update_self, Option.map_some] at hkernel
  obtain ⟨q, hq, heq⟩ := Option.map_eq_some_iff.mp hkernel.symm
  -- the old page had been handed out before the new one
  have hold := hand _ q hq
  have hsame : q = frameAddr g.vm.pageCounter := add_right_cancel heq
  have hcount := le_pageCounter_carvedVm g
  have hsmall : physicalHeapPages < 2 ^ 52 := by decide
  rw [hsame, frameOf_frameAddr (by omega)] at hold
  omega

variable {n : Nat}

/-- The test for a full heap fires once: the call after the one that returns `NULL` carves
a node. -/
theorem StaysInside.le (hi : h.InitOk m) (hs : h.StaysInside m n) : n ≤ maxNum m.toNat + 2 := by
  by_contra hgt
  have hnum := hi.toNat_maxNum
  obtain ⟨g, hrun, hg⟩ := hi.vmaAllocs (maxNum m.toNat + 2) le_rfl
  have hcall := hs.calls (maxNum m.toNat + 2) (by omega) g _ _ hrun (hg.carves hi (by omega))
  have hnull := congrArg BitVec.toNat (hcall.full (by omega))
  have hlt := hg.lt hi
  rw [vmaOfNode, BitVec.toNat_add, show (8#64 : U64).toNat = 8 from rfl,
    show (0#64 : U64).toNat = 0 from rfl] at hnull
  omega

/-- The room for the machine after every call is room for the machine after one of them. -/
theorem InitOk.room_at (hi : h.InitOk m) (hin : i < n) (hn : n ≤ maxNum m.toNat + 2) {k : VmaHeap}
    (hlast : VmaHeap.vmaAllocs n (h.vmaInit m) = some k)
    (hroom : k.vm.pageCounter ≤ physicalHeapPages)
    (hrun : VmaHeap.vmaAllocs i (h.vmaInit m) = some g) (hnext : g.vmaAlloc = some (p, g')) :
    g'.vm.pageCounter ≤ physicalHeapPages :=
  (hi.le_pageCounter hin hn (vmaAllocs_succ hrun hnext) hlast).trans hroom

theorem StaysInside.fits (hi : h.InitOk m) (htables : h.Tables)
    (hroom : ∀ g, VmaHeap.vmaAllocs n (h.vmaInit m) = some g → g.vm.pageCounter ≤ physicalHeapPages)
    (hs : h.StaysInside m n) : 152 * min n (maxNum m.toNat + 1) < reserved m.toNat := by
  by_contra hgt
  have hle := hs.le hi
  have hpos := reserved_pos hi.entries
  -- the first node that reaches the kernel
  obtain ⟨i, hlow, hhigh⟩ : ∃ i, 152 * i < reserved m.toNat ∧ reserved m.toNat ≤ 152 * (i + 1) :=
    ⟨(reserved m.toNat - 1) / 152, by omega, by omega⟩
  obtain ⟨g, hrun, hg⟩ := hi.vmaAllocs i (by omega)
  obtain ⟨k, hlast⟩ := hs.returns
  have hcarve := hg.carves hi (by omega)
  have hk : g.carvedVm.pageCounter ≤ physicalHeapPages :=
    hi.room_at (by omega) hle hlast (hroom k hlast) hrun hcarve
  have ht := hi.tables htables i (by omega) g hrun ((g.le_pageCounter_carvedVm).trans hk)
  exact hg.not_callInside hi ht hk (by omega) hlow hhigh (hs.calls i (by omega) g _ _ hrun hcarve)

/-- Nodes are carved one behind the other. -/
theorem InitOk.apart (hi : h.InitOk m) {j : Nat} {k k' : VmaHeap} {q : Ptr} (hij : i < j)
    (hj : j ≤ maxNum m.toNat) (hrun : VmaHeap.vmaAllocs i (h.vmaInit m) = some g)
    (hnext : g.vmaAlloc = some (p, g')) (hrun' : VmaHeap.vmaAllocs j (h.vmaInit m) = some k)
    (hnext' : k.vmaAlloc = some (q, k')) : (nodeOfVma p).toNat + 152 ≤ (nodeOfVma q).toNat := by
  obtain ⟨g₀, hrun₀, hg⟩ := hi.vmaAllocs i (by omega)
  obtain ⟨k₀, hrun₁, hk⟩ := hi.vmaAllocs j (by omega)
  obtain rfl := Option.some.inj (hrun.symm.trans hrun₀)
  obtain rfl := Option.some.inj (hrun'.symm.trans hrun₁)
  obtain ⟨rfl, -⟩ := Prod.mk.inj (Option.some.inj (hnext.symm.trans (hg.carves hi (by omega))))
  obtain ⟨rfl, -⟩ := Prod.mk.inj (Option.some.inj (hnext'.symm.trans (hk.carves hi (by omega))))
  rw [nodeOfVma_vmaOfNode, nodeOfVma_vmaOfNode, hg.head, hk.head]
  omega

theorem InitOk.staysInside (hi : h.InitOk m) (htables : h.Tables)
    (hroom : ∀ g, VmaHeap.vmaAllocs n (h.vmaInit m) = some g → g.vm.pageCounter ≤ physicalHeapPages)
    (hle : n ≤ maxNum m.toNat + 2)
    (hfit : 152 * min n (maxNum m.toNat + 1) < reserved m.toNat) : h.StaysInside m n := by
  have hnum := hi.toNat_maxNum
  obtain ⟨k, hlast, -⟩ := hi.vmaAllocs n hle
  refine ⟨⟨k, hlast⟩, fun i hin g p g' hrun hnext => ?_, fun i j hij hjn hj g p g' k q k' => ?_⟩
  · obtain ⟨g₀, hrun₀, hg⟩ := hi.vmaAllocs i (by omega)
    obtain rfl := Option.some.inj (hrun.symm.trans hrun₀)
    have hk := hi.room_at hin hle hlast (hroom k hlast) hrun hnext
    rcases Nat.lt_or_ge (maxNum m.toNat) i with hlt | hge
    · obtain rfl : i = maxNum m.toNat + 1 := by omega
      obtain ⟨g₁, hnext₁, -, hvm⟩ := hg.full hi
      obtain ⟨rfl, rfl⟩ := Prod.mk.inj (Option.some.inj (hnext.symm.trans hnext₁))
      exact ⟨fun hc => by omega, fun v _ _ => by rw [hvm], fun _ => rfl⟩
    · have hcarve := hg.carves hi (by omega)
      obtain ⟨rfl, rfl⟩ := Prod.mk.inj (Option.some.inj (hnext.symm.trans hcarve))
      have ht := hi.tables htables i (by omega) g hrun ((g.le_pageCounter_carvedVm).trans hk)
      exact hg.callInside hi ht hk hge (by omega)
  · intro hrun hnext hrun' hnext'
    exact Or.inl (hi.apart hij (by omega) hrun hnext hrun' hnext')

end VmaHeap

/-- **The heap stays in its reservation** for `n` calls exactly when the nodes end below the
kernel, and no call comes after the one that returns `NULL`. -/
theorem heap_staysInside_iff (h : VmaHeap) (maxEntries : U64) (n : Nat) (hi : h.InitOk maxEntries)
    (htables : h.Tables)
    (hroom : ∀ g, VmaHeap.vmaAllocs n (h.vmaInit maxEntries) = some g →
      g.vm.pageCounter ≤ physicalHeapPages) :
    h.StaysInside maxEntries n ↔
      n ≤ VmaHeap.maxNum maxEntries.toNat + 2 ∧
        152 * min n (VmaHeap.maxNum maxEntries.toNat + 1) < VmaHeap.reserved maxEntries.toNat :=
  ⟨fun hs => ⟨hs.le hi, hs.fits hi htables hroom⟩,
    fun hc => hi.staysInside htables hroom hc.1 hc.2⟩

/-! ## The kernel's own call -/

/-- The machine with the page of the GDT mapped below the kernel, where `vma_init` finds it. -/
def gdtHeap : VmaHeap :=
  { bareHeap with
    vm := (mapPhysicalPages 0x100000#64 0x1000#64 pde64Writeable 1#64 1#64 bareHeap.vm).2 }

theorem tables_bareHeap : bareHeap.Tables := by
  have hvm : bareHeap.vm = buildPageTables blankVm := by simp only [bareHeap, blankVm]
  refine ⟨fun _ => none, ?_, fun k p hk => absurd hk (by simp)⟩
  rw [hvm]
  exact initial_blankVm.refines

theorem tables_gdtHeap : gdtHeap.Tables := by
  obtain ⟨M, hM, hand⟩ := tables_bareHeap
  have hok : (PagingCall.map 0x100000#64 0x1000#64 pde64Writeable 1#64 1#64).Ok bareHeap.vm := by
    refine ⟨by decide +kernel, fun _ _ _ _ _ hc => ?_, fun _ _ _ _ _ hc _ => ?_⟩
    · cases hc
      decide
    · cases hc
      decide
  refine ⟨_, hM.call hok, fun k q hk => ?_⟩
  have hcount : 10 < gdtHeap.vm.pageCounter ∧ bareHeap.vm.pageCounter ≤ gdtHeap.vm.pageCounter := by
    decide +kernel
  rcases installAll_cases _ _ _ _ k q hk with hq | hq
  · obtain rfl : q = 0x1000#64 := by simpa [mappedPages, rangePages] using hq
    exact lt_trans (by decide) hcount.1
  · exact (hand k q hq).trans_le hcount.2

/-- One entry: a page of nodes is reserved, and they fit. -/
theorem heap_staysInside_iff_oneEntry : gdtHeap.StaysInside 1#64 27 := by
  refine (heap_staysInside_iff gdtHeap 1#64 27 ⟨by decide, by decide, by decide, by decide⟩
    tables_gdtHeap fun g hg => ?_).mpr (by decide)
  have hrun : (VmaHeap.vmaAllocs 27 (gdtHeap.vmaInit 1#64)).map
      (fun g => decide (g.vm.pageCounter ≤ physicalHeapPages)) = some true := by decide +kernel
  rw [hg] at hrun
  simpa using hrun

/-- The kernel asks for 1000 entries and one page is reserved: the 27th node takes the page
of the GDT. -/
theorem gdt_page_taken :
    gdtHeap.InitOk 1000#64 ∧ gdtHeap.Tables ∧ ¬ gdtHeap.StaysInside 1000#64 27 := by
  refine ⟨⟨by decide, by decide, by decide, by decide⟩, tables_gdtHeap, fun hs => ?_⟩
  have hrun : (VmaHeap.vmaAllocs 26 (gdtHeap.vmaInit 1000#64)).bind
      (fun g => g.vmaAlloc.map fun x =>
      (getPhysAddr 0x100000#64 g.vm, getPhysAddr 0x100000#64 x.2.vm)) =
        some (some 0x1000#64, some 0xf000#64) := by decide +kernel
  obtain ⟨g, hg, hrun⟩ := Option.bind_eq_some_iff.mp hrun
  obtain ⟨⟨p, g'⟩, hnext, hfacts⟩ := Option.map_eq_some_iff.mp hrun
  obtain ⟨hold, hnew⟩ := Prod.mk.inj hfacts
  have hkernel :=
    (hs.calls 26 (by decide) g p g' hg hnext).kernel 0x100000#64 (by decide) (by decide)
  rw [hold, hnew] at hkernel
  exact absurd hkernel (by decide)

end BufferVM
