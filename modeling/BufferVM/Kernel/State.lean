/-
  Kernel/State.lean --- the kernel's state, the host calls and the node heap.

  A kernel function is a partial function on `St`: it yields `none` where the
  code dereferences `NULL` or walks links for ever.  Two things it uses are
  interfaces: the hypercalls that `vm/host.c` serves (`HostCalls`) and the VMA
  node allocator of `kernel/c/vma_heap.c` (`NodeHeap`).  Results about the store
  alone hold for every host; the host of `vm/vma.c` and `vm/paging.c` is one of
  them.
-/
import BufferVM.Common.Vma
import BufferVM.Lib.PtrList
import Mathlib.Data.BitVec
import Mathlib.Data.Fintype.Card
import Mathlib.Data.FinEnum

set_option autoImplicit false

namespace BufferVM

open PtrTree

/-! ## Interfaces -/

/-- The hypercalls the VMA code makes. -/
structure HostCalls (η : Type) where
  /-- `kernel_map_vma`: the host reads the node and writes some fields back. -/
  mapVma : η → VmRegion → η × MapFields
  /-- `kernel_unmap_vma`. -/
  unmapVma : η → VmRegion → η
  /-- `kernel_dup`. -/
  dup : η → BitVec 32 → η × BitVec 32
  /-- `kernel_close`. -/
  close : η → BitVec 32 → η
  /-- `kernel_fstat`: the fields `st_dev` and `st_ino`. -/
  fstat : η → BitVec 32 → η × U64 × U64

/-- The VMA node allocator. -/
structure NodeHeap (σ : Type) where
  /-- `vma_alloc`: a node address, or `NULL`. -/
  alloc : σ → Ptr × σ
  /-- `vma_free`. -/
  free : σ → Ptr → σ

/-- Everything the store code calls out to. -/
structure Env (σ η : Type) extends NodeHeap σ, HostCalls η

/-- An allocator that hands out a node not in use as long as it has one, and
takes back what it has handed out. -/
structure NodeHeap.Fresh {σ : Type} (H : NodeHeap σ) where
  /-- The nodes in use. -/
  live : σ → Ptr → Prop
  /-- A number of nodes that are certainly still available. -/
  avail : σ → Nat
  alloc_fresh : ∀ h, 0 < avail h →
    (H.alloc h).1 ≠ 0#64 ∧ ¬ live h (H.alloc h).1 ∧
      (∀ q, live (H.alloc h).2 q ↔ q = (H.alloc h).1 ∨ live h q) ∧
      avail h ≤ avail (H.alloc h).2 + 1
  free_live : ∀ h p, live h p →
    (∀ q, live (H.free h p) q ↔ q ≠ p ∧ live h q) ∧ avail h ≤ avail (H.free h p)

/-! ## The state -/

/-- The globals of `kernel.c`, `stack.c` and `syscall.c` that the store code
reads or writes. -/
structure Globals where
  kernelMinAddress : U64
  userStackStart : U64
  userStackPage : U64
  userStackMin : U64
  userStackPageLimit : U64
  userStackVma : Ptr
  userHeapStart : U64
  userHeapVma : Ptr
  currBrk : U64
  deriving DecidableEq, Repr

/-- The kernel's state: the memory of the VMA nodes, the roots of the list and of
the tree, and what the interfaces keep. -/
structure St (σ η : Type) where
  vma : Ptr → VmArea
  vmaRbRoot : Ptr
  vmaListStart : Ptr
  vmaHighestAddr : U64
  heap : σ
  host : η
  glob : Globals

/-- The bound on every walk along links.  There are fewer node addresses than
this, so a longer walk has come back to a node it had seen. -/
def walkBound : Nat := 2 ^ 64

/-- Use of a pointer: a fault when it is `NULL`. -/
def deref {α : Type} (p : Ptr) (x : α) : Option α := if p = 0#64 then none else some x

@[simp] theorem deref_of_ne {α : Type} {p : Ptr} (x : α) (h : p ≠ 0#64) :
    deref p x = some x := by
  simp [deref, h]

@[simp] theorem deref_null {α : Type} (x : α) : deref 0#64 x = none := rfl

/-- The links of distinct nodes are never longer than the bound. -/
theorem length_lt_walkBound {l : List Ptr} (hnd : l.Nodup) (h : 0#64 ∉ l) :
    l.length < walkBound := by
  have hcons : (0#64 :: l).Nodup := by simp [hnd, h]
  have hcard : Fintype.card Ptr = 2 ^ 64 := by
    rw [Fintype.card_congr (show Ptr ≃ Fin (2 ^ 64) from
      ⟨BitVec.toFin, BitVec.ofFin, fun _ => rfl, fun _ => rfl⟩)]
    simp
  have hlen : (0#64 :: l).length ≤ 2 ^ 64 := hcard ▸ hcons.length_le_card
  exact hlen

namespace St

variable {σ η : Type}

/-- Overwrite one node. -/
def update (s : St σ η) (p : Ptr) (f : VmArea → VmArea) : St σ η :=
  { s with vma := fun q => if q = p then f (s.vma p) else s.vma q }

/-- `rb_left` or `rb_right` of a node. -/
def child (s : St σ η) (d : Side) (p : Ptr) : Ptr := (s.vma p).child d

/-- `rb_parent` of a node. -/
def parent (s : St σ η) (p : Ptr) : Ptr := (s.vma p).rbParent

/-- The colour of a node. -/
def color (s : St σ η) (p : Ptr) : Color := (s.vma p).rbColor

/-- `rb_subtree_gap` of a node. -/
def gap (s : St σ η) (p : Ptr) : U64 := (s.vma p).rbSubtreeGap

/-- The region a node describes. -/
def region (s : St σ η) (p : Ptr) : VmRegion := (s.vma p).toVmRegion

/-- Write one child link. -/
def setChild (s : St σ η) (d : Side) (p v : Ptr) : St σ η :=
  s.update p fun x => match d with
    | .left => { x with rbLeft := v }
    | .right => { x with rbRight := v }

/-- Write `__rb_parent_color`. -/
def setParentColor (s : St σ η) (p par : Ptr) (c : Color) : St σ η :=
  s.update p fun x => { x with rbParent := par, rbColor := c }

/-- Write `rb_subtree_gap`. -/
def setGap (s : St σ η) (p : Ptr) (g : U64) : St σ η :=
  s.update p fun x => { x with rbSubtreeGap := g }

/-- Write `vma_rb_root.rb_node`. -/
def setRoot (s : St σ η) (p : Ptr) : St σ η := { s with vmaRbRoot := p }

/-- Write the region fields of a node. -/
def setRegion (s : St σ η) (p : Ptr) (r : VmRegion) : St σ η :=
  s.update p fun x => { x with toVmRegion := r }

/-- Write `prev`. -/
def setPrev (s : St σ η) (p v : Ptr) : St σ η := s.update p fun x => { x with prev := v }

/-- Write `next`. -/
def setNext (s : St σ η) (p v : Ptr) : St σ η := s.update p fun x => { x with next := v }

/-- Write `vma_list_start`. -/
def setListStart (s : St σ η) (p : Ptr) : St σ η := { s with vmaListStart := p }

/-- Write `vma_highest_addr`. -/
def setHighest (s : St σ η) (a : U64) : St σ η := { s with vmaHighestAddr := a }

/-- The tree links of the store. -/
def rbLinks (s : St σ η) : PtrTree.Links Ptr := ⟨0#64, s.child, s.parent⟩

/-- The list links of the store; the head of the list follows `NULL`. -/
def listLinks (s : St σ η) : PtrList.Links Ptr :=
  ⟨0#64, fun p => if p = 0#64 then s.vmaListStart else (s.vma p).next, fun p => (s.vma p).prev⟩

/-- Everything in the state but the tree links and the gaps. -/
def base (s : St σ η) : (Ptr → VmRegion × Ptr × Ptr) × Ptr × U64 × σ × η × Globals :=
  (fun p => (s.region p, (s.vma p).prev, (s.vma p).next), s.vmaListStart,
    s.vmaHighestAddr, s.heap, s.host, s.glob)

/-- The gap in front of a VMA: `start_addr` less the end of its predecessor. -/
def own (s : St σ η) (p : Ptr) : Nat :=
  ((s.vma p).startAddr -
    if (s.vma p).prev = 0#64 then 0#64 else (s.vma (s.vma p).prev).endAddr).toNat

/-! ## How the writes act on the reads -/

section Reads

variable (s : St σ η) (d e : Side) (p q v w : Ptr) (c : Color) (g : U64) (r : VmRegion)

@[simp] theorem child_setChild :
    (s.setChild d p v).child e q = if q = p ∧ e = d then v else s.child e q := by
  cases d <;> cases e <;> by_cases h : q = p <;> simp [setChild, update, child, h, VmArea.child]

@[simp] theorem parent_setChild : (s.setChild d p v).parent q = s.parent q := by
  cases d <;> by_cases h : q = p <;> simp [setChild, update, parent, h]

@[simp] theorem color_setChild : (s.setChild d p v).color q = s.color q := by
  cases d <;> by_cases h : q = p <;> simp [setChild, update, color, h]

@[simp] theorem gap_setChild : (s.setChild d p v).gap q = s.gap q := by
  cases d <;> by_cases h : q = p <;> simp [setChild, update, gap, h]

@[simp] theorem root_setChild : (s.setChild d p v).vmaRbRoot = s.vmaRbRoot := rfl

@[simp] theorem base_setChild : (s.setChild d p v).base = s.base := by
  have : ∀ q, ((s.setChild d p v).region q, ((s.setChild d p v).vma q).prev,
      ((s.setChild d p v).vma q).next) = (s.region q, (s.vma q).prev, (s.vma q).next) := by
    intro q
    cases d <;> by_cases h : q = p <;> simp [setChild, update, region, h]
  simp only [base, this]
  rfl

@[simp] theorem child_setParentColor : (s.setParentColor p w c).child e q = s.child e q := by
  by_cases h : q = p <;> cases e <;> simp [setParentColor, update, child, h, VmArea.child]

@[simp] theorem parent_setParentColor :
    (s.setParentColor p w c).parent q = if q = p then w else s.parent q := by
  by_cases h : q = p <;> simp [setParentColor, update, parent, h]

@[simp] theorem color_setParentColor :
    (s.setParentColor p w c).color q = if q = p then c else s.color q := by
  by_cases h : q = p <;> simp [setParentColor, update, color, h]

@[simp] theorem gap_setParentColor : (s.setParentColor p w c).gap q = s.gap q := by
  by_cases h : q = p <;> simp [setParentColor, update, gap, h]

@[simp] theorem root_setParentColor : (s.setParentColor p w c).vmaRbRoot = s.vmaRbRoot := rfl

@[simp] theorem base_setParentColor : (s.setParentColor p w c).base = s.base := by
  have : ∀ q, ((s.setParentColor p w c).region q, ((s.setParentColor p w c).vma q).prev,
      ((s.setParentColor p w c).vma q).next) = (s.region q, (s.vma q).prev, (s.vma q).next) := by
    intro q
    by_cases h : q = p <;> simp [setParentColor, update, region, h]
  simp only [base, this]
  rfl

@[simp] theorem child_setGap : (s.setGap p g).child e q = s.child e q := by
  by_cases h : q = p <;> cases e <;> simp [setGap, update, child, h, VmArea.child]

@[simp] theorem parent_setGap : (s.setGap p g).parent q = s.parent q := by
  by_cases h : q = p <;> simp [setGap, update, parent, h]

@[simp] theorem color_setGap : (s.setGap p g).color q = s.color q := by
  by_cases h : q = p <;> simp [setGap, update, color, h]

@[simp] theorem gap_setGap : (s.setGap p g).gap q = if q = p then g else s.gap q := by
  by_cases h : q = p <;> simp [setGap, update, gap, h]

@[simp] theorem root_setGap : (s.setGap p g).vmaRbRoot = s.vmaRbRoot := rfl

@[simp] theorem base_setGap : (s.setGap p g).base = s.base := by
  have : ∀ q, ((s.setGap p g).region q, ((s.setGap p g).vma q).prev,
      ((s.setGap p g).vma q).next) = (s.region q, (s.vma q).prev, (s.vma q).next) := by
    intro q
    by_cases h : q = p <;> simp [setGap, update, region, h]
  simp only [base, this]
  rfl

@[simp] theorem child_setRoot : (s.setRoot v).child e q = s.child e q := rfl
@[simp] theorem parent_setRoot : (s.setRoot v).parent q = s.parent q := rfl
@[simp] theorem color_setRoot : (s.setRoot v).color q = s.color q := rfl
@[simp] theorem gap_setRoot : (s.setRoot v).gap q = s.gap q := rfl
@[simp] theorem root_setRoot : (s.setRoot v).vmaRbRoot = v := rfl
@[simp] theorem base_setRoot : (s.setRoot v).base = s.base := rfl

end Reads

@[simp] theorem rbLinks_null (s : St σ η) : s.rbLinks.null = 0#64 := rfl
@[simp] theorem rbLinks_child (s : St σ η) : s.rbLinks.child = s.child := rfl
@[simp] theorem rbLinks_parent (s : St σ η) : s.rbLinks.parent = s.parent := rfl
@[simp] theorem listLinks_null (s : St σ η) : s.listLinks.null = 0#64 := rfl

/-! ## The writes outside the tree -/

/-- The tree links, the colours and the gaps. -/
def tree (s : St σ η) : (Ptr → Ptr × Color × Ptr × Ptr × U64) × Ptr :=
  (fun p => ((s.vma p).rbParent, (s.vma p).rbColor, (s.vma p).rbRight, (s.vma p).rbLeft,
    (s.vma p).rbSubtreeGap), s.vmaRbRoot)

section TreePart

variable {s t : St σ η}

theorem child_of_tree (h : t.tree = s.tree) (d : Side) (p : Ptr) : t.child d p = s.child d p := by
  have := congrFun (congrArg Prod.fst h) p
  cases d
  · exact congrArg (fun x => x.2.2.2.1) this
  · exact congrArg (fun x => x.2.2.1) this

theorem parent_of_tree (h : t.tree = s.tree) (p : Ptr) : t.parent p = s.parent p :=
  congrArg Prod.fst (congrFun (congrArg Prod.fst h) p)

theorem color_of_tree (h : t.tree = s.tree) (p : Ptr) : t.color p = s.color p :=
  congrArg (fun x => x.2.1) (congrFun (congrArg Prod.fst h) p)

theorem gap_of_tree (h : t.tree = s.tree) (p : Ptr) : t.gap p = s.gap p :=
  congrArg (fun x => x.2.2.2.2) (congrFun (congrArg Prod.fst h) p)

theorem root_of_tree (h : t.tree = s.tree) : t.vmaRbRoot = s.vmaRbRoot := congrArg Prod.snd h

theorem rbLinks_of_tree (h : t.tree = s.tree) : t.rbLinks = s.rbLinks := by
  unfold rbLinks
  congr 1
  · funext d p; exact child_of_tree h d p
  · funext p; exact parent_of_tree h p

end TreePart

section ListWrites

variable (s : St σ η) (p q v : Ptr) (r : VmRegion) (a : U64)

/-- A write that keeps the tree fields of a node keeps the tree. -/
theorem tree_update {f : VmArea → VmArea}
    (h : ∀ x, ((f x).rbParent, (f x).rbColor, (f x).rbRight, (f x).rbLeft, (f x).rbSubtreeGap) =
      (x.rbParent, x.rbColor, x.rbRight, x.rbLeft, x.rbSubtreeGap)) :
    (s.update p f).tree = s.tree := by
  unfold tree update
  congr 1
  funext q
  by_cases hq : q = p
  · subst hq
    simpa using h (s.vma q)
  · simp [hq]

@[simp] theorem tree_setPrev : (s.setPrev p v).tree = s.tree := tree_update s p fun _ => rfl
@[simp] theorem tree_setNext : (s.setNext p v).tree = s.tree := tree_update s p fun _ => rfl
@[simp] theorem tree_setRegion : (s.setRegion p r).tree = s.tree := tree_update s p fun _ => rfl
@[simp] theorem tree_setListStart : (s.setListStart v).tree = s.tree := rfl
@[simp] theorem tree_setHighest : (s.setHighest a).tree = s.tree := rfl

@[simp] theorem prev_setPrev :
    ((s.setPrev p v).vma q).prev = if q = p then v else (s.vma q).prev := by
  by_cases h : q = p <;> simp [setPrev, update, h]

@[simp] theorem next_setPrev : ((s.setPrev p v).vma q).next = (s.vma q).next := by
  by_cases h : q = p <;> simp [setPrev, update, h]

@[simp] theorem region_setPrev : (s.setPrev p v).region q = s.region q := by
  by_cases h : q = p <;> simp [setPrev, update, region, h]

@[simp] theorem prev_setNext : ((s.setNext p v).vma q).prev = (s.vma q).prev := by
  by_cases h : q = p <;> simp [setNext, update, h]

@[simp] theorem next_setNext :
    ((s.setNext p v).vma q).next = if q = p then v else (s.vma q).next := by
  by_cases h : q = p <;> simp [setNext, update, h]

@[simp] theorem region_setNext : (s.setNext p v).region q = s.region q := by
  by_cases h : q = p <;> simp [setNext, update, region, h]

@[simp] theorem prev_setRegion : ((s.setRegion p r).vma q).prev = (s.vma q).prev := by
  by_cases h : q = p <;> simp [setRegion, update, h]

@[simp] theorem next_setRegion : ((s.setRegion p r).vma q).next = (s.vma q).next := by
  by_cases h : q = p <;> simp [setRegion, update, h]

@[simp] theorem region_setRegion :
    (s.setRegion p r).region q = if q = p then r else s.region q := by
  by_cases h : q = p <;> simp [setRegion, update, region, h]

@[simp] theorem prev_setListStart : ((s.setListStart v).vma q).prev = (s.vma q).prev := rfl
@[simp] theorem next_setListStart : ((s.setListStart v).vma q).next = (s.vma q).next := rfl
@[simp] theorem region_setListStart : (s.setListStart v).region q = s.region q := rfl
@[simp] theorem prev_setHighest : ((s.setHighest a).vma q).prev = (s.vma q).prev := rfl
@[simp] theorem next_setHighest : ((s.setHighest a).vma q).next = (s.vma q).next := rfl
@[simp] theorem region_setHighest : (s.setHighest a).region q = s.region q := rfl

@[simp] theorem listStart_setPrev : (s.setPrev p v).vmaListStart = s.vmaListStart := rfl
@[simp] theorem listStart_setNext : (s.setNext p v).vmaListStart = s.vmaListStart := rfl
@[simp] theorem listStart_setRegion : (s.setRegion p r).vmaListStart = s.vmaListStart := rfl
@[simp] theorem listStart_setListStart : (s.setListStart v).vmaListStart = v := rfl
@[simp] theorem listStart_setHighest : (s.setHighest a).vmaListStart = s.vmaListStart := rfl

end ListWrites

/-! ## What depends on the base only -/

section Base

variable {s t : St σ η}

theorem region_of_base (h : t.base = s.base) (p : Ptr) : t.region p = s.region p := by
  have := congrFun (congrArg Prod.fst h) p
  exact congrArg Prod.fst this

theorem prev_of_base (h : t.base = s.base) (p : Ptr) : (t.vma p).prev = (s.vma p).prev := by
  have := congrFun (congrArg Prod.fst h) p
  exact congrArg (fun x => x.2.1) this

theorem next_of_base (h : t.base = s.base) (p : Ptr) : (t.vma p).next = (s.vma p).next := by
  have := congrFun (congrArg Prod.fst h) p
  exact congrArg (fun x => x.2.2) this

theorem listLinks_of_base (h : t.base = s.base) : t.listLinks = s.listLinks := by
  have hstart : t.vmaListStart = s.vmaListStart := congrArg (fun x => x.2.1) h
  simp only [listLinks, hstart, prev_of_base h, next_of_base h]

theorem own_of_base (h : t.base = s.base) : t.own = s.own := by
  funext p
  have hr : ∀ q, (t.vma q).toVmRegion = (s.vma q).toVmRegion := region_of_base h
  simp only [own, prev_of_base h, hr]

end Base

end St

end BufferVM
