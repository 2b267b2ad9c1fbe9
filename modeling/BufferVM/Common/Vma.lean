/-
  Common/Vma.lean --- the VMA record of `common/vma.h`.

  `struct vm_area` is split in two.  `VmRegion` holds what a VMA says about the
  address space and is all the host ever reads or writes; `VmArea` adds the links
  that thread the node into the list and the tree, which only the kernel touches.
  The word `__rb_parent_color` is kept as the pair it packs: nodes are 8-byte
  aligned, so the parent and the colour bit never overlap.
-/
import BufferVM.Common.Word
import BufferVM.Lib.PtrTree

set_option autoImplicit false

namespace BufferVM

open PtrTree

/-- `vm_file_t`. -/
structure VmFile where
  fd : BitVec 32
  dev : U64
  inode : U64
  deriving DecidableEq, Repr

/-- The descriptor `-1` of an anonymous mapping. -/
def noFd : BitVec 32 := -1#32

/-- `null_file_info`. -/
def nullFileInfo : VmFile := { fd := noFd, dev := -1#64, inode := -1#64 }

/-- What a VMA says about the address space. -/
structure VmRegion where
  startAddr : U64
  endAddr : U64
  pageProt : U64
  flags : U64
  physPageStart : U64
  physPageEnd : U64
  oldStartAddr : U64
  oldEndAddr : U64
  pageOffset : U64
  fileInfo : VmFile
  deriving DecidableEq, Repr

/-- `RB_RED` and `RB_BLACK`. -/
inductive Color where
  | red
  | black
  deriving DecidableEq, Repr

/-- `struct vm_area`. -/
structure VmArea extends VmRegion where
  prev : Ptr
  next : Ptr
  rbParent : Ptr
  rbColor : Color
  rbRight : Ptr
  rbLeft : Ptr
  rbSubtreeGap : U64
  deriving DecidableEq, Repr

/-- The node `memset` to zero. -/
def VmArea.zero : VmArea where
  startAddr := 0#64
  endAddr := 0#64
  pageProt := 0#64
  flags := 0#64
  physPageStart := 0#64
  physPageEnd := 0#64
  oldStartAddr := 0#64
  oldEndAddr := 0#64
  pageOffset := 0#64
  fileInfo := { fd := 0#32, dev := 0#64, inode := 0#64 }
  prev := 0#64
  next := 0#64
  rbParent := 0#64
  rbColor := .red
  rbRight := 0#64
  rbLeft := 0#64
  rbSubtreeGap := 0#64

/-- `rb_left` or `rb_right`. -/
def VmArea.child (v : VmArea) : Side → Ptr
  | .left => v.rbLeft
  | .right => v.rbRight

/-! ## Flags -/

/-- `VMA_READ`. -/
def vmaRead : U64 := 0x1#64
/-- `VMA_WRITE`. -/
def vmaWrite : U64 := 0x2#64
/-- `VMA_EXEC`. -/
def vmaExec : U64 := 0x4#64
/-- `VMA_SHARED`. -/
def vmaShared : U64 := 0x8#64
/-- `VMA_IS_VERSIONED`. -/
def vmaIsVersioned : U64 := 0x10#64
/-- `VMA_ALLOC_ZEROED`. -/
def vmaAllocZeroed : U64 := 0x12#64
/-- `VMA_GROWS`. -/
def vmaGrows : U64 := 0x10#64
/-- `VMA_IS_PREFAULTED`. -/
def vmaIsPrefaulted : U64 := 0x20#64
/-- `VMA_HAS_RESIZED`. -/
def vmaHasResized : U64 := 0x40#64

/-- The flag bits that say what a mapping is: all but the two the host sets. -/
def flagMask : U64 := ~~~(vmaIsPrefaulted ||| vmaHasResized)

/-- What `kernel_map_vma` writes back into the node it is given. -/
structure MapFields where
  physPageStart : U64
  physPageEnd : U64
  oldStartAddr : U64
  oldEndAddr : U64
  resized : Bool
  prefaulted : Bool

/-- The node after `kernel_map_vma` has written its fields. -/
def VmRegion.mapped (r : VmRegion) (m : MapFields) : VmRegion :=
  { r with
    physPageStart := m.physPageStart
    physPageEnd := m.physPageEnd
    oldStartAddr := m.oldStartAddr
    oldEndAddr := m.oldEndAddr
    flags := r.flags ||| (if m.resized then vmaHasResized else 0#64) |||
      (if m.prefaulted then vmaIsPrefaulted else 0#64) }

@[simp] theorem VmRegion.mapped_startAddr (r : VmRegion) (m : MapFields) :
    (r.mapped m).startAddr = r.startAddr := rfl

@[simp] theorem VmRegion.mapped_endAddr (r : VmRegion) (m : MapFields) :
    (r.mapped m).endAddr = r.endAddr := rfl

@[simp] theorem VmRegion.mapped_pageProt (r : VmRegion) (m : MapFields) :
    (r.mapped m).pageProt = r.pageProt := rfl

@[simp] theorem VmRegion.mapped_pageOffset (r : VmRegion) (m : MapFields) :
    (r.mapped m).pageOffset = r.pageOffset := rfl

@[simp] theorem VmRegion.mapped_fileInfo (r : VmRegion) (m : MapFields) :
    (r.mapped m).fileInfo = r.fileInfo := rfl

/-- The host sets no flag but the two it owns. -/
@[simp] theorem VmRegion.mapped_flags_and (r : VmRegion) (m : MapFields) :
    (r.mapped m).flags &&& flagMask = r.flags &&& flagMask := by
  have hres : vmaHasResized &&& flagMask = 0#64 := by decide
  have hpre : vmaIsPrefaulted &&& flagMask = 0#64 := by decide
  have hor : ∀ x y : U64, (x ||| y) &&& flagMask = x &&& flagMask ||| y &&& flagMask := by
    intro x y
    ext i hi
    simp [Bool.and_or_distrib_right]
  simp only [mapped, hor]
  cases m.resized <;> cases m.prefaulted <;> simp [hres, hpre]

/-- The VMA covers the address. -/
def VmRegion.Covers (r : VmRegion) (a : U64) : Prop := r.startAddr ≤ a ∧ a < r.endAddr

instance (r : VmRegion) (a : U64) : Decidable (r.Covers a) :=
  inferInstanceAs (Decidable (_ ∧ _))

end BufferVM
