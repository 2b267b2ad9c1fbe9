/-
  Kernel/VmaHeap.lean --- the VMA node allocator, `kernel/c/vma_heap.c`.

  Nodes are carved from a bump pointer, and freed nodes are kept on a list that is threaded
  through `next_freed`, a field in front of the VMA that survives the allocation of a node.
  `vma_free` on an empty list leaves the field as it is: a node that was popped while others
  were on the list brings them back with it, whoever uses them by now.
  The links never have a cycle all the same, and the search always ends.
-/
import BufferVM.Kernel.State
import BufferVM.Lib.PtrStack
import BufferVM.Lib.Run
import BufferVM.Vm.Paging

set_option autoImplicit false

namespace BufferVM

open PtrStack

/-! ## The state -/

/-- `sizeof(vma_node_t)`: eight bytes for `next_freed`, and the VMA. -/
def vmaNodeSize : U64 := 152#64

/-- The VMA of a node, `&node->vma`. -/
def vmaOfNode (node : Ptr) : Ptr := node + 8#64

/-- `container_of(addr, vma_node_t, vma)`. -/
def nodeOfVma (vma : Ptr) : Ptr := vma - 8#64

/-- The globals of `vma_heap.c`, the field `next_freed` of every node, and the machine. -/
structure VmaHeap where
  vmaFreeList : Ptr
  vmaMaxNum : U64
  vmaAllocNum : U64
  vmaHeapHead : U64
  vmaHeapAddr : U64
  kernelMinAddress : U64
  nextFreed : Ptr → Ptr
  vm : Vm

namespace VmaHeap

variable {h h' : VmaHeap} {p node : Ptr}

/-! ## The functions -/

/-- The flags of the pages of the heap. -/
def heapPageFlags : U64 := pde64NoExe ||| pde64Writeable

/-- `vma_list_find`. -/
def vmaListFind (h : VmaHeap) (addr : Ptr) : Nat → Ptr → Option Bool
  | 0, _ => none
  | fuel + 1, next =>
      if next = 0#64 then some false
      else if vmaOfNode next = addr then some true
      else vmaListFind h addr fuel (h.nextFreed next)

/-- `vma_next_freed`. -/
def vmaNextFreed (h : VmaHeap) : Ptr × VmaHeap :=
  if h.vmaFreeList = 0#64 then (0#64, h)
  else (h.vmaFreeList, { h with vmaFreeList := h.nextFreed h.vmaFreeList })

/-- `vma_init`; the roots of the store are set in the state of the store. -/
def vmaInit (maxEntries : U64) (h : VmaHeap) : VmaHeap :=
  let vmaMaxNum := pageAlign (maxEntries * vmaNodeSize) / vmaNodeSize - 1#64
  let vmaHeapHead := pageAlignDown (h.kernelMinAddress - vmaMaxNum)
  { h with
    vmaFreeList := 0#64
    vmaAllocNum := 0#64
    vmaMaxNum := vmaMaxNum
    vmaHeapHead := vmaHeapHead
    vmaHeapAddr := vmaHeapHead
    kernelMinAddress := vmaHeapHead
    vm := (mapPhysicalPages vmaHeapHead (-1#64) heapPageFlags
      (pageDifference h.kernelMinAddress vmaHeapHead) mapContinuous h.vm).2 }

/-- The loop of `vma_alloc` that maps the pages up to the one of the new head.  It does not
end when that is the last page of the address space. -/
def mapHeapPages (last : U64) : Nat → U64 → Vm → Option Vm
  | 0, _, _ => none
  | fuel + 1, page, vm =>
      if page ≤ last then
        mapHeapPages last fuel (page + pageSize)
          (mapPhysicalPages page (-1#64) heapPageFlags 1#64 0#64 vm).2
      else some vm

/-- The end of `vma_alloc`: a node is carved from the head. -/
def carve (h : VmaHeap) : Option (Ptr × VmaHeap) :=
  let oldHead := h.vmaHeapHead
  let newHead := oldHead + vmaNodeSize
  let vm :=
    if pageAlignDown oldHead ≠ pageAlignDown newHead then
      mapHeapPages (pageAlignDown newHead) walkBound (pageAlignDown oldHead + pageSize) h.vm
    else some h.vm
  vm.map fun vm => (vmaOfNode oldHead, { h with vmaHeapHead := newHead, vm := vm })

/-- `vma_alloc`.  The counter is incremented whether or not the test fires. -/
def vmaAlloc (h : VmaHeap) : Option (Ptr × VmaHeap) :=
  let (node, h) := h.vmaNextFreed
  if node = 0#64 then
    let full := decide (h.vmaAllocNum = h.vmaMaxNum + 1#64)
    let h := { h with vmaAllocNum := h.vmaAllocNum + 1#64 }
    if full then some (0#64, h) else h.carve
  else some (vmaOfNode node, h)

/-- `vma_free`: whether it reports a double free, and the heap. -/
def vmaFree (addr : Ptr) (h : VmaHeap) : Option (Bool × VmaHeap) := do
  let found ← h.vmaListFind addr walkBound h.vmaFreeList
  if found then some (true, h)
  else
    let freeNode := nodeOfVma addr
    -- if the list is not empty, slip in at the front
    let nextFreed := if h.vmaFreeList ≠ 0#64 then
        Function.update h.nextFreed freeNode h.vmaFreeList
      else h.nextFreed
    some (false, { h with nextFreed := nextFreed, vmaFreeList := freeNode })

/-- `vma_zalloc`: `memset` begins behind `next_freed`, in the state of the store. -/
def vmaZalloc (h : VmaHeap) : Option (Ptr × VmaHeap) := h.vmaAlloc

/-! ## Nodes -/

@[simp] theorem nodeOfVma_vmaOfNode (node : Ptr) : nodeOfVma (vmaOfNode node) = node := by
  simp [nodeOfVma, vmaOfNode]

@[simp] theorem vmaOfNode_nodeOfVma (p : Ptr) : vmaOfNode (nodeOfVma p) = p := by
  simp [nodeOfVma, vmaOfNode]

theorem vmaOfNode_inj {a b : Ptr} : vmaOfNode a = vmaOfNode b ↔ a = b := by
  constructor
  · intro hab
    rw [← nodeOfVma_vmaOfNode a, hab, nodeOfVma_vmaOfNode]
  · rintro rfl
    rfl

/-- The node has been carved from the heap below a head. -/
structure Carved (head : U64) (node : Ptr) : Prop where
  ne_null : node ≠ 0#64
  le : node.toNat + 152 ≤ head.toNat

theorem Carved.vmaOfNode_ne {head : U64} (hn : Carved head node) : vmaOfNode node ≠ 0#64 := by
  have hle := hn.le
  have hlt := head.isLt
  intro hc
  have hz := congrArg BitVec.toNat hc
  rw [vmaOfNode, BitVec.toNat_add] at hz
  have h8 : (8#64 : U64).toNat = 8 := rfl
  have h0 : (0#64 : U64).toNat = 0 := rfl
  omega

/-! ## The invariant -/

/-- The free list is a stack of carved nodes, none of which is in use. -/
structure FreeNodes (h : VmaHeap) (live : List Ptr) (l : List Ptr) : Prop where
  stack : Stack 0#64 h.nextFreed h.vmaFreeList l
  nodup : l.Nodup
  free : ∀ node ∈ l, vmaOfNode node ∉ live
  carved : ∀ node ∈ l, Carved h.vmaHeapHead node

/-- The allocator beside the list of nodes in use. -/
structure Sane (x : VmaHeap × List Ptr) : Prop where
  freeNodes : ∃ l, x.1.FreeNodes x.2 l
  live : ∀ p ∈ x.2, Carved x.1.vmaHeapHead (nodeOfVma p)
  head : x.1.vmaHeapHead ≠ 0#64

/-- `vma_list_find` searches the free list. -/
theorem vmaListFind_eq (addr : Ptr) {l : List Ptr} (fuel : Nat) (hlen : l.length < fuel)
    (hl : Stack 0#64 h.nextFreed p l) :
    h.vmaListFind addr fuel p = some (decide (nodeOfVma addr ∈ l)) := by
  induction fuel generalizing p l with
  | zero => exact absurd hlen (by simp)
  | succ n ih =>
      cases l with
      | nil =>
          rw [vmaListFind, if_pos (show p = 0#64 from hl)]
          simp
      | cons x l =>
          obtain ⟨rfl, hx0, hrest⟩ := hl
          rw [vmaListFind, if_neg hx0]
          by_cases hx : vmaOfNode p = addr
          · rw [if_pos hx, ← hx]
            simp
          · have hne : nodeOfVma addr ≠ p := by
              rintro rfl
              exact hx (vmaOfNode_nodeOfVma addr)
            rw [if_neg hx, ih (by simpa using hlen) hrest]
            simp [hne]

/-- `vma_free` comes back where the walk along the free list ends. -/
theorem vmaFree_of_stack {l : List Ptr} (hl : Stack 0#64 h.nextFreed h.vmaFreeList l) (addr : Ptr) :
    h.vmaFree addr = some (if nodeOfVma addr ∈ l then (true, h) else
      (false, { h with
        nextFreed := if h.vmaFreeList ≠ 0#64 then
            Function.update h.nextFreed (nodeOfVma addr) h.vmaFreeList
          else h.nextFreed
        vmaFreeList := nodeOfVma addr })) := by
  have hfind := vmaListFind_eq addr walkBound
    (length_lt_walkBound hl.nodup fun h0 => hl.ne_null _ h0 rfl) hl
  rw [VmaHeap.vmaFree, hfind]
  by_cases hin : nodeOfVma addr ∈ l <;> simp [hin]

/-! ## One call -/

/-- The three ways in which `vma_alloc` comes back: a freed node, `NULL`, or the node at the
head. -/
theorem vmaAlloc_cases (hrun : h.vmaAlloc = some (p, h')) :
    (h.vmaFreeList ≠ 0#64 ∧ p = vmaOfNode h.vmaFreeList ∧
        h' = { h with vmaFreeList := h.nextFreed h.vmaFreeList }) ∨
      (h.vmaFreeList = 0#64 ∧ h.vmaAllocNum = h.vmaMaxNum + 1#64 ∧ p = 0#64 ∧
        h' = { h with vmaAllocNum := h.vmaAllocNum + 1#64 }) ∨
      (h.vmaFreeList = 0#64 ∧ h.vmaAllocNum ≠ h.vmaMaxNum + 1#64 ∧
        p = vmaOfNode h.vmaHeapHead ∧ ∃ vm, h' = { h with
          vmaAllocNum := h.vmaAllocNum + 1#64
          vmaHeapHead := h.vmaHeapHead + vmaNodeSize
          vm := vm }) := by
  unfold vmaAlloc vmaNextFreed at hrun
  by_cases hf : h.vmaFreeList = 0#64
  · by_cases hfull : h.vmaAllocNum = h.vmaMaxNum + 1#64
    · simp only [hf, hfull, if_true, decide_true, Option.some.injEq, Prod.mk.injEq] at hrun
      obtain ⟨rfl, rfl⟩ := hrun
      exact Or.inr (Or.inl ⟨hf, hfull, rfl, by simp [hf, hfull]⟩)
    · simp only [hf, hfull, if_true, decide_false, Bool.false_eq_true, if_false, carve,
        Option.map_eq_some_iff, Prod.mk.injEq] at hrun
      obtain ⟨vm, -, rfl, rfl⟩ := hrun
      exact Or.inr (Or.inr ⟨hf, hfull, rfl, vm, by simp [hf]⟩)
  · simp only [hf, if_false, Option.some.injEq, Prod.mk.injEq] at hrun
    obtain ⟨rfl, rfl⟩ := hrun
    exact Or.inl ⟨hf, rfl, rfl⟩

/-- The top of the free list is handed out next. -/
theorem vmaAlloc_top (hf : h.vmaFreeList = node) (h0 : node ≠ 0#64) :
    ∃ h', h.vmaAlloc = some (vmaOfNode node, h') := by
  subst hf
  refine ⟨{ h with vmaFreeList := h.nextFreed h.vmaFreeList }, ?_⟩
  simp only [vmaAlloc, vmaNextFreed, h0, if_false]

/-- A node that has been carved stays so while the head moves up. -/
theorem Carved.mono {head head' : U64} (hn : Carved head node) (hle : head.toNat ≤ head'.toNat) :
    Carved head' node := ⟨hn.ne_null, hn.le.trans hle⟩

theorem FreeNodes.mono {live l : List Ptr} (hl : h.FreeNodes live l)
    (hnext : h'.nextFreed = h.nextFreed) (hlist : h'.vmaFreeList = h.vmaFreeList)
    (hle : h.vmaHeapHead.toNat ≤ h'.vmaHeapHead.toNat) : h'.FreeNodes live l := by
  refine ⟨?_, hl.nodup, hl.free, fun node hn => (hl.carved node hn).mono hle⟩
  rw [hnext, hlist]
  exact hl.stack

variable {live : List Ptr}

/-- `vma_alloc` hands out a node that is not in use. -/
theorem Sane.vmaAlloc (hx : Sane (h, live))
    (hok : h.vmaFreeList ≠ 0#64 ∨ h.vmaHeapHead.toNat + 152 < 2 ^ 64)
    (hrun : h.vmaAlloc = some (p, h')) :
    p ∉ live ∧ Sane (h', if p = 0#64 then live else p :: live) := by
  obtain ⟨l, hl⟩ := hx.freeNodes
  rcases vmaAlloc_cases hrun with ⟨hf, rfl, rfl⟩ | ⟨hf, -, rfl, rfl⟩ | ⟨hf, -, rfl, vm, rfl⟩
  · -- the top of the free list
    obtain ⟨x, l, rfl⟩ := List.exists_cons_of_ne_nil fun hc => hf (hl.stack.eq_nil_iff.mp hc)
    obtain ⟨htop, -, hrest⟩ := hl.stack
    obtain ⟨hx', hnd⟩ := List.nodup_cons.mp hl.nodup
    have hcarved := hl.carved x (by simp)
    rw [htop, if_neg hcarved.vmaOfNode_ne]
    refine ⟨hl.free x (by simp), ⟨l, hrest, hnd, fun node hn hc => ?_, fun node hn => ?_⟩,
      fun q hq => ?_, hx.head⟩
    · rcases List.mem_cons.mp hc with hc | hc
      · exact hx' (vmaOfNode_inj.mp hc ▸ hn)
      · exact hl.free node (by simp [hn]) hc
    · exact hl.carved node (by simp [hn])
    · rcases List.mem_cons.mp hq with rfl | hq
      · rw [nodeOfVma_vmaOfNode]
        exact hcarved
      · exact hx.live q hq
  · -- the test fires
    have hnull : (0#64 : Ptr) ∉ live := by
      intro hc
      have hcarved := hx.live _ hc
      have hne := hcarved.vmaOfNode_ne
      rw [vmaOfNode_nodeOfVma] at hne
      exact hne rfl
    rw [if_pos rfl]
    exact ⟨hnull, ⟨l, hl.mono rfl rfl le_rfl⟩, hx.live, hx.head⟩
  · -- a node that nobody has had
    have hroom := hok.resolve_left fun hc => hc hf
    have hadd : (h.vmaHeapHead + vmaNodeSize).toNat = h.vmaHeapHead.toNat + 152 := by
      rw [BitVec.toNat_add, show vmaNodeSize.toNat = 152 from rfl, Nat.mod_eq_of_lt hroom]
    have hle : h.vmaHeapHead.toNat ≤ (h.vmaHeapHead + vmaNodeSize).toNat := by omega
    have hnot : ∀ node, Carved h.vmaHeapHead node → node ≠ h.vmaHeapHead := by
      rintro node hn rfl
      have := hn.le
      omega
    have hcarved : Carved (h.vmaHeapHead + vmaNodeSize) h.vmaHeapHead := ⟨hx.head, by rw [hadd]⟩
    have hfresh : vmaOfNode h.vmaHeapHead ∉ live := by
      intro hc
      have hn := hx.live _ hc
      rw [nodeOfVma_vmaOfNode] at hn
      exact hnot _ hn rfl
    rw [if_neg hcarved.vmaOfNode_ne]
    refine ⟨hfresh, ⟨l, ?_⟩, fun q hq => ?_, fun hc => ?_⟩
    · have hmono : FreeNodes { h with
          vmaAllocNum := h.vmaAllocNum + 1#64
          vmaHeapHead := h.vmaHeapHead + vmaNodeSize
          vm := vm } live l := hl.mono rfl rfl hle
      obtain ⟨hs, hnd, hfree, hcar⟩ := hmono
      refine ⟨hs, hnd, fun node hn hc => ?_, hcar⟩
      rcases List.mem_cons.mp hc with hc | hc
      · exact hnot node (hl.carved node hn) (vmaOfNode_inj.mp hc)
      · exact hfree node hn hc
    · rcases List.mem_cons.mp hq with rfl | hq
      · rw [nodeOfVma_vmaOfNode]
        exact hcarved
      · exact (hx.live q hq).mono hle
    · have hz := congrArg BitVec.toNat hc
      rw [hadd] at hz
      simp at hz

/-- `vma_free` takes a node in use back, and it is the next to be handed out. -/
theorem Sane.vmaFree (hx : Sane (h, live)) (hp : p ∈ live)
    (hempty : h.vmaFreeList = 0#64 → h.nextFreed (nodeOfVma p) = 0#64) :
    ∃ h', h.vmaFree p = some (false, h') ∧ Sane (h', live.filter (· ≠ p)) ∧
      ∃ h'', h'.vmaAlloc = some (p, h'') := by
  obtain ⟨l, hl⟩ := hx.freeNodes
  have hcarved := hx.live p hp
  have hnot : nodeOfVma p ∉ l := by
    intro hc
    have hfree := hl.free _ hc
    rw [vmaOfNode_nodeOfVma] at hfree
    exact hfree hp
  refine ⟨{ h with
    nextFreed := if h.vmaFreeList ≠ 0#64 then
        Function.update h.nextFreed (nodeOfVma p) h.vmaFreeList
      else h.nextFreed
    vmaFreeList := nodeOfVma p }, ?_, ⟨⟨nodeOfVma p :: l, ?_, ?_, ?_, ?_⟩, ?_, hx.head⟩, ?_⟩
  · rw [vmaFree_of_stack hl.stack, if_neg hnot]
  · -- the field is set, or it was clear
    by_cases hf : h.vmaFreeList = 0#64
    · have hnil := hl.stack.eq_nil_iff.mpr hf
      simp only [hf, ne_eq, not_true_eq_false, if_false, hnil]
      exact ⟨rfl, hcarved.ne_null, hempty hf⟩
    · simp only [hf, ne_eq, not_false_eq_true, if_true]
      exact hl.stack.push hnot hcarved.ne_null
  · exact List.nodup_cons.mpr ⟨hnot, hl.nodup⟩
  · intro node hn hc
    obtain ⟨hc, hne⟩ := List.mem_filter.mp hc
    rcases List.mem_cons.mp hn with rfl | hn
    · rw [vmaOfNode_nodeOfVma] at hne
      simp at hne
    · exact hl.free node hn hc
  · intro node hn
    rcases List.mem_cons.mp hn with rfl | hn
    · exact hcarved
    · exact hl.carved node hn
  · exact fun q hq => hx.live q (List.mem_filter.mp hq).1
  · rw [← vmaOfNode_nodeOfVma p]
    exact vmaAlloc_top (by rw [vmaOfNode_nodeOfVma]) hcarved.ne_null

/-! ## Runs -/

end VmaHeap

/-- A call of the allocator. -/
inductive HeapCall where
  | alloc
  | zalloc
  | free (addr : Ptr)

/-- The nodes in use after one more has been handed out. -/
def handOut (live : List Ptr) (x : Ptr × VmaHeap) : VmaHeap × List Ptr :=
  (x.2, if x.1 = 0#64 then live else x.1 :: live)

/-- The allocator and the nodes in use after a call. -/
def HeapCall.run (x : VmaHeap × List Ptr) : HeapCall → Option (VmaHeap × List Ptr)
  | .alloc => x.1.vmaAlloc.map (handOut x.2)
  | .zalloc => x.1.vmaZalloc.map (handOut x.2)
  | .free addr => (x.1.vmaFree addr).map fun y => (y.2, x.2.filter (· ≠ addr))

/-- The head does not run past the end of the address space. -/
def VmaHeap.HeadRoom (h : VmaHeap) : Prop :=
  h.vmaFreeList ≠ 0#64 ∨ h.vmaHeapHead.toNat + 152 < 2 ^ 64

instance (h : VmaHeap) : Decidable h.HeadRoom := inferInstanceAs (Decidable (_ ∨ _))

/-- A node in use is given back, and if the free list is empty it has no link left. -/
def VmaHeap.FreeOk (h : VmaHeap) (live : List Ptr) (addr : Ptr) : Prop :=
  addr ∈ live ∧ (h.vmaFreeList = 0#64 → h.nextFreed (nodeOfVma addr) = 0#64)

instance (h : VmaHeap) (live : List Ptr) (addr : Ptr) : Decidable (h.FreeOk live addr) :=
  inferInstanceAs (Decidable (_ ∧ _))

/-- The condition on a call. -/
def HeapCall.Ok (x : VmaHeap × List Ptr) : HeapCall → Prop
  | .alloc => x.1.HeadRoom
  | .zalloc => x.1.HeadRoom
  | .free addr => x.1.FreeOk x.2 addr

instance (x : VmaHeap × List Ptr) (c : HeapCall) : Decidable (c.Ok x) := by
  cases c with
  | alloc => exact inferInstanceAs (Decidable x.1.HeadRoom)
  | zalloc => exact inferInstanceAs (Decidable x.1.HeadRoom)
  | free addr => exact inferInstanceAs (Decidable (x.1.FreeOk x.2 addr))

/-- A run of calls. -/
def HeapRuns : VmaHeap × List Ptr → List HeapCall → VmaHeap × List Ptr → Prop :=
  Run.Steps HeapCall.run HeapCall.Ok

theorem VmaHeap.Sane.call {x y : VmaHeap × List Ptr} {c : HeapCall} (hx : Sane x) (hok : c.Ok x)
    (hrun : c.run x = some y) : Sane y := by
  cases c with
  | alloc =>
      obtain ⟨⟨p, h'⟩, ha, rfl⟩ := Option.map_eq_some_iff.mp hrun
      exact (hx.vmaAlloc hok ha).2
  | zalloc =>
      obtain ⟨⟨p, h'⟩, ha, rfl⟩ := Option.map_eq_some_iff.mp hrun
      exact (hx.vmaAlloc hok ha).2
  | free addr =>
      obtain ⟨h', hf, hsane, -⟩ := hx.vmaFree hok.1 hok.2
      obtain ⟨y', hy, rfl⟩ := Option.map_eq_some_iff.mp hrun
      rw [hf] at hy
      obtain rfl := Option.some.inj hy
      exact hsane

/-- The heap that `vma_init` sets up, in memory that reads as zero. -/
theorem VmaHeap.sane_vmaInit (h : VmaHeap) (maxEntries : U64)
    (hhead : (h.vmaInit maxEntries).vmaHeapHead ≠ 0#64) : Sane (h.vmaInit maxEntries, []) :=
  ⟨⟨[], rfl, List.nodup_nil, by simp, by simp⟩, by simp, hhead⟩

/-- What is asked of the allocator: a node that is handed out is not in use, and a node that
is given back is accepted and is there for the next call. -/
structure VmaHeap.Serves (h : VmaHeap) (live : List Ptr) : Prop where
  alloc : h.HeadRoom → ∀ p h', h.vmaAlloc = some (p, h') → p ≠ 0#64 → p ∉ live
  free : ∀ addr, h.FreeOk live addr →
    ∃ h', h.vmaFree addr = some (false, h') ∧ ∃ h'', h'.vmaAlloc = some (addr, h'')

/-- **No node is handed out twice** along every run in which a node that is given back to an
empty free list has no link left. -/
theorem heap_serves_of_runs (h₀ : VmaHeap) (maxEntries : U64)
    (hhead : (h₀.vmaInit maxEntries).vmaHeapHead ≠ 0#64) (cs : List HeapCall) (h : VmaHeap)
    (live : List Ptr) (hruns : HeapRuns (h₀.vmaInit maxEntries, []) cs (h, live)) :
    h.Serves live := by
  have hsane : VmaHeap.Sane (h, live) := Run.Steps.invariant VmaHeap.Sane hruns
    (fun x c y hx hok hrun => hx.call hok hrun) (h₀.sane_vmaInit maxEntries hhead)
  refine ⟨fun hok p h' hrun _ => (hsane.vmaAlloc hok hrun).1, fun addr hok => ?_⟩
  obtain ⟨h', hfree, -, hnext⟩ := hsane.vmaFree hok.1 hok.2
  exact ⟨h', hfree, hnext⟩

/-! ## A small heap -/

/-- A machine before `vma_init`, with its kernel from 1 MiB on. -/
def bareHeap : VmaHeap where
  vmaFreeList := 0#64
  vmaMaxNum := 0#64
  vmaAllocNum := 0#64
  vmaHeapHead := 0#64
  vmaHeapAddr := 0#64
  kernelMinAddress := 0x100000#64
  nextFreed _ := 0#64
  vm := buildPageTables { mem := fun _ _ => 0#64, pageCounter := 10, pml4Addr := 0#64 }

/-- The first node of that heap. -/
def firstVma : Ptr := 0xff008#64

/-- The second node. -/
def secondVma : Ptr := 0xff0a0#64

/-- Run calls on that heap, testing each. -/
def heapRun (test : VmaHeap × List Ptr → HeapCall → Bool) (cs : List HeapCall) :
    Option (VmaHeap × List Ptr) :=
  Run.exec (fun x c => c.run x) test cs (bareHeap.vmaInit 1000#64, [])

/-- Two nodes are given back and handed out again. -/
theorem heap_serves_of_runs_twice :
    ∃ h live, HeapRuns (bareHeap.vmaInit 1000#64, [])
        [.alloc, .zalloc, .free firstVma, .free secondVma, .alloc, .alloc] (h, live) ∧
      live = [firstVma, secondVma] ∧ h.Serves live := by
  have hrun : (heapRun (fun x c => decide (c.Ok x))
      [.alloc, .zalloc, .free firstVma, .free secondVma, .alloc, .alloc]).map Prod.snd =
        some [firstVma, secondVma] := by decide +kernel
  obtain ⟨⟨h, live⟩, hx, hlive⟩ := Option.map_eq_some_iff.mp hrun
  have hruns : HeapRuns (bareHeap.vmaInit 1000#64, []) _ (h, live) :=
    Run.Steps.of_exec (fun x c hc => of_decide_eq_true hc) _ hx
  exact ⟨h, live, hruns, hlive, heap_serves_of_runs bareHeap 1000#64
    (by decide +kernel) _ h live hruns⟩

/-- What the callers promise: only nodes in use are given back. -/
def HeapCall.Proper (x : VmaHeap × List Ptr) : HeapCall → Prop
  | .alloc => True
  | .zalloc => True
  | .free addr => addr ∈ x.2

/-- The test for that. -/
def properTest (x : VmaHeap × List Ptr) : HeapCall → Bool
  | .alloc => true
  | .zalloc => true
  | .free addr => decide (addr ∈ x.2)

theorem proper_of_test (x : VmaHeap × List Ptr) (c : HeapCall) (hc : properTest x c = true) :
    c.Proper x := by
  cases c with
  | alloc => trivial
  | zalloc => trivial
  | free addr =>
      show addr ∈ x.2
      simpa [properTest] using hc

/-- The second node still has the first as its link when it is given back once more: the
first is handed out although it is in use, and cannot be given back. -/
theorem stale_link_hands_out_live_node :
    ∃ h live p h', Run.Steps (fun x c => HeapCall.run x c) HeapCall.Proper
        (bareHeap.vmaInit 1000#64, [])
        [.alloc, .alloc, .free firstVma, .free secondVma, .alloc, .alloc, .free secondVma, .alloc]
        (h, live) ∧
      h.vmaAlloc = some (p, h') ∧ p ≠ 0#64 ∧ p ∈ live ∧ ∃ h'', h.vmaFree p = some (true, h'') := by
  have hrun : (heapRun properTest
      [.alloc, .alloc, .free firstVma, .free secondVma, .alloc, .alloc, .free secondVma,
        .alloc]).bind
        (fun x => (x.1.vmaAlloc).bind fun y => (x.1.vmaFree y.1).map fun z => (y.1, x.2, z.1)) =
      some (firstVma, [secondVma, firstVma], true) := by decide +kernel
  obtain ⟨⟨h, live⟩, hx, hrun⟩ := Option.bind_eq_some_iff.mp hrun
  obtain ⟨⟨p, h'⟩, ha, hrun⟩ := Option.bind_eq_some_iff.mp hrun
  obtain ⟨⟨b, h''⟩, hf, hfacts⟩ := Option.map_eq_some_iff.mp hrun
  simp only [Prod.mk.injEq] at hfacts
  obtain ⟨rfl, rfl, rfl⟩ := hfacts
  exact ⟨h, _, _, h', Run.Steps.of_exec proper_of_test _ hx, ha, by decide, by simp, h'', hf⟩

/-! ## The links of all nodes -/

/-- A call beside the list of all nodes that have ever been handed out. -/
def HeapCall.runEver (x : VmaHeap × List Ptr) : HeapCall → Option (VmaHeap × List Ptr)
  | .alloc => x.1.vmaAlloc.map (handOut x.2)
  | .zalloc => x.1.vmaZalloc.map (handOut x.2)
  | .free addr => (x.1.vmaFree addr).map fun y => (y.2, x.2)

/-- The links of all nodes, in use or not: only nodes that have been handed out have one and
are at the end of one, and every walk along them ends. -/
structure VmaHeap.LinksOk (x : VmaHeap × List Ptr) : Prop where
  grounded : Grounded 0#64 x.1.nextFreed
  top : x.1.vmaFreeList ≠ 0#64 → vmaOfNode x.1.vmaFreeList ∈ x.2
  link : ∀ node, x.1.nextFreed node ≠ 0#64 →
    vmaOfNode node ∈ x.2 ∧ vmaOfNode (x.1.nextFreed node) ∈ x.2

namespace VmaHeap

variable {h h' : VmaHeap} {p addr : Ptr} {ever : List Ptr}

theorem mem_handOut {x : Ptr × VmaHeap} {q : Ptr} (hq : q ∈ ever) : q ∈ (handOut ever x).2 := by
  rw [handOut]
  split
  · exact hq
  · exact List.mem_cons_of_mem _ hq

/-- `vma_alloc` writes no link, and what it leaves on top was below the node it hands out. -/
theorem LinksOk.vmaAlloc (hx : LinksOk (h, ever)) (hrun : h.vmaAlloc = some (p, h')) :
    LinksOk (handOut ever (p, h')) := by
  have keep : h'.nextFreed = h.nextFreed →
      (h'.vmaFreeList ≠ 0#64 → vmaOfNode h'.vmaFreeList ∈ ever) →
      LinksOk (handOut ever (p, h')) := by
    intro hnext htop
    refine ⟨?_, fun h0 => mem_handOut (htop h0), fun node h0 => ?_⟩
    · show Grounded 0#64 h'.nextFreed
      rw [hnext]
      exact hx.grounded
    · change h'.nextFreed node ≠ 0#64 at h0
      rw [hnext] at h0
      obtain ⟨h1, h2⟩ := hx.link node h0
      refine ⟨mem_handOut h1, mem_handOut ?_⟩
      show vmaOfNode (h'.nextFreed node) ∈ ever
      rwa [hnext]
  rcases vmaAlloc_cases hrun with ⟨-, -, rfl⟩ | ⟨-, -, -, rfl⟩ | ⟨-, -, -, vm, rfl⟩
  · exact keep rfl fun h0 => (hx.link _ h0).2
  · exact keep rfl hx.top
  · exact keep rfl hx.top

/-- `vma_free` writes a link to the top of the list only into a node that is not on it. -/
theorem LinksOk.vmaFree (hx : LinksOk (h, ever)) (haddr : addr ∈ ever) {b : Bool}
    (hrun : h.vmaFree addr = some (b, h')) : LinksOk (h', ever) := by
  obtain ⟨l, hl⟩ := hx.grounded h.vmaFreeList
  rw [vmaFree_of_stack hl addr] at hrun
  have hrun' := Option.some.inj hrun
  split at hrun'
  · obtain ⟨-, rfl⟩ := Prod.mk.inj hrun'
    exact hx
  · rename_i hnot
    obtain ⟨-, rfl⟩ := Prod.mk.inj hrun'
    have htop : vmaOfNode (nodeOfVma addr) ∈ ever := by rwa [vmaOfNode_nodeOfVma]
    by_cases h0 : h.vmaFreeList = 0#64
    · -- the node keeps the link that it has
      simp only [h0, ne_eq, not_true_eq_false, if_false]
      exact ⟨hx.grounded, fun _ => htop, hx.link⟩
    · simp only [ne_eq, h0, not_false_eq_true, if_true]
      refine ⟨hx.grounded.update hl hnot, fun _ => htop, fun node hnode => ?_⟩
      by_cases heq : node = nodeOfVma addr
      · subst heq
        refine ⟨htop, ?_⟩
        simp only [Function.update_self]
        exact hx.top h0
      · simp only [Function.update_of_ne heq] at hnode ⊢
        exact hx.link node hnode

theorem LinksOk.call {x y : VmaHeap × List Ptr} {c : HeapCall} (hx : LinksOk x)
    (hok : c.Proper x) (hrun : c.runEver x = some y) : LinksOk y := by
  cases c with
  | alloc =>
      obtain ⟨⟨p, h'⟩, ha, rfl⟩ := Option.map_eq_some_iff.mp hrun
      exact hx.vmaAlloc ha
  | zalloc =>
      obtain ⟨⟨p, h'⟩, ha, rfl⟩ := Option.map_eq_some_iff.mp hrun
      exact hx.vmaAlloc ha
  | free addr =>
      obtain ⟨⟨b, h'⟩, hf, rfl⟩ := Option.map_eq_some_iff.mp hrun
      exact hx.vmaFree hok hf

/-- The heap that `vma_init` sets up has no links. -/
theorem linksOk_vmaInit (h : VmaHeap) (maxEntries : U64)
    (hfresh : ∀ node, h.nextFreed node = 0#64) : LinksOk (h.vmaInit maxEntries, []) :=
  ⟨Grounded.of_null hfresh, fun h0 => absurd rfl h0, fun node h0 => absurd (hfresh node) h0⟩

end VmaHeap

/-- **The free-list search always ends.**  Along every run, whatever nodes are given back and
however often, the links of all nodes that were ever carved lead to such nodes only and have no
cycle, and `vma_free` comes back from every call. -/
theorem heap_links_acyclic (h₀ : VmaHeap) (maxEntries : U64)
    (hfresh : ∀ node, h₀.nextFreed node = 0#64) (cs : List HeapCall) (h : VmaHeap)
    (ever : List Ptr)
    (hruns : Run.Steps HeapCall.runEver HeapCall.Proper (h₀.vmaInit maxEntries, []) cs (h, ever)) :
    (∀ node, h.nextFreed node ≠ 0#64 →
      vmaOfNode node ∈ ever ∧ vmaOfNode (h.nextFreed node) ∈ ever) ∧
    (∀ node, ¬ Relation.TransGen (Leads 0#64 h.nextFreed) node node) ∧
    ∀ addr, ∃ found h', h.vmaFree addr = some (found, h') := by
  have hlinks : VmaHeap.LinksOk (h, ever) := hruns.invariant VmaHeap.LinksOk
    (fun x c y hx hok hrun => hx.call hok hrun) (h₀.linksOk_vmaInit maxEntries hfresh)
  refine ⟨hlinks.link, hlinks.grounded.acyclic, fun addr => ?_⟩
  obtain ⟨l, hl⟩ := hlinks.grounded h.vmaFreeList
  exact ⟨_, _, VmaHeap.vmaFree_of_stack hl addr⟩

/-- The second node brings the first back with its stale link, and both are given back twice. -/
theorem heap_links_acyclic_stale :
    ∃ h ever, Run.Steps HeapCall.runEver HeapCall.Proper (bareHeap.vmaInit 1000#64, [])
        [.alloc, .zalloc, .free firstVma, .free secondVma, .free secondVma, .alloc, .alloc,
          .free secondVma, .free firstVma] (h, ever) ∧
      h.vmaFreeList = nodeOfVma secondVma ∧
      h.nextFreed (nodeOfVma secondVma) = nodeOfVma firstVma ∧
      ¬ Relation.TransGen (Leads 0#64 h.nextFreed) (nodeOfVma secondVma) (nodeOfVma secondVma) ∧
      ∃ found h', h.vmaFree firstVma = some (found, h') := by
  have hrun : (Run.exec HeapCall.runEver properTest
      [.alloc, .zalloc, .free firstVma, .free secondVma, .free secondVma, .alloc, .alloc,
        .free secondVma, .free firstVma] (bareHeap.vmaInit 1000#64, [])).map
        (fun x => (x.1.vmaFreeList, x.1.nextFreed (nodeOfVma secondVma))) =
      some (nodeOfVma secondVma, nodeOfVma firstVma) := by decide +kernel
  obtain ⟨⟨h, ever⟩, hx, hfacts⟩ := Option.map_eq_some_iff.mp hrun
  obtain ⟨htop, hlink⟩ := Prod.mk.inj hfacts
  have hruns := Run.Steps.of_exec proper_of_test _ hx
  obtain ⟨-, hacyclic, hfree⟩ :=
    heap_links_acyclic bareHeap 1000#64 (fun _ => rfl) _ h ever hruns
  exact ⟨h, ever, hruns, htop, hlink, hacyclic _, hfree _⟩

end BufferVM
