/-
  Vm/Vma.lean --- `kernel_map_vma` and `kernel_unmap_vma` of `vm/vma.c`.

  The host keeps the guest's memory, and the operating system it runs on keeps the open
  files.  Of the operating system the code needs the calls on descriptors, `mmap` of a
  file, and `mremap`; what a page holds after `mremap` has moved it away is unspecified.
  `exit` and the endless loop after a failed `mremap` stop the machine.
-/
import BufferVM.Kernel.Mmap
import BufferVM.Vm.Paging

set_option autoImplicit false

namespace BufferVM

/-! ## The operating system -/

/-- What the host asks of its operating system. -/
structure HostOs (ω : Type) where
  /-- `dup`. -/
  dup : ω → BitVec 32 → ω × BitVec 32
  /-- `close`. -/
  close : ω → BitVec 32 → ω
  /-- `fstat`: the fields `st_dev` and `st_ino`. -/
  fstat : ω → BitVec 32 → ω × U64 × U64
  /-- `mmap` of a number of pages of a file with `MAP_FIXED`: the pages, or a failure. -/
  mmap : ω → (length prot flags : U64) → (fd : BitVec 32) → (offset : U64) →
    Option (Nat → U64 → U64)
  /-- What is found in a page that `mremap` has moved away. -/
  hole : Nat → U64 → U64

/-- The host: the guest's memory, the operating system, and whether it has stopped. -/
structure Host (ω : Type) where
  vm : Vm
  os : ω
  stopped : Bool

variable {ω : Type}

/-! ## Flags -/

/-- `vma_to_flags`. -/
def vmaToFlags (flags : U64) : U64 :=
  transferFlag flags vmaShared mapShared ||| transferInvFlag flags vmaShared mapPrivate

/-- `vma_to_prot`. -/
def vmaToProt (prot : U64) : U64 :=
  transferFlag prot vmaRead protRead ||| transferFlag prot vmaWrite protWrite

/-- `vma_prot_to_pg`. -/
def vmaProtToPg (prot : U64) : U64 :=
  transferFlag prot vmaRead pde64Present ||| transferFlag prot vmaWrite pde64Writeable |||
    transferInvFlag prot vmaExec pde64NoExe ||| transferInvFlag prot vmaIsVersioned pde64User

/-! ## Memory -/

/-- The frame is one of the pages of a range of physical memory. -/
def InRange (start size : U64) (f : Nat) : Prop :=
  frameOf start ≤ f ∧ f < frameOf start + (pageAlign size).toNat / 4096

instance (start size : U64) (f : Nat) : Decidable (InRange start size f) :=
  inferInstanceAs (Decidable (_ ∧ _))

/-- `mremap` with `MREMAP_FIXED` accepts the ranges: page addresses, not empty, and apart.  The
range that is moved is taken to lie in one mapping of the host. -/
def mremapAccepts (oldStart size newStart : U64) : Bool :=
  decide (pageOffset oldStart = 0#64) && decide (pageOffset newStart = 0#64) &&
    decide (size ≠ 0#64) &&
    (decide (oldStart.toNat + size.toNat ≤ newStart.toNat) ||
      decide (newStart.toNat + size.toNat ≤ oldStart.toNat))

/-- The memory after `mremap` has moved a range. -/
def Vm.moved (O : HostOs ω) (vm : Vm) (oldStart size newStart : U64) : Vm :=
  { vm with mem := fun f =>
      if InRange newStart size f then vm.mem (f - frameOf newStart + frameOf oldStart)
      else if InRange oldStart size f then O.hole f
      else vm.mem f }

/-- `remap_region`. -/
def remapRegion (O : HostOs ω) (oldStart size newStart : U64) (h : Host ω) : Host ω :=
  if mremapAccepts oldStart size newStart then
    { h with vm := h.vm.moved O oldStart size newStart }
  else { h with stopped := true }

/-- The memory after the pages of a file have been mapped into a range. -/
def Vm.filled (vm : Vm) (start size : U64) (page : Nat → U64 → U64) : Vm :=
  { vm with mem := fun f => if InRange start size f then page (f - frameOf start) else vm.mem f }

/-! ## `kernel_map_vma` -/

/-- `vma_changed`. -/
def VmRegion.Changed (r : VmRegion) : Prop :=
  r.oldStartAddr ≠ r.startAddr ∨ r.oldEndAddr ≠ r.endAddr

instance (r : VmRegion) : Decidable r.Changed := inferInstanceAs (Decidable (_ ∨ _))

/-- The host has to map the VMA. -/
def VmRegion.NeedsMap (r : VmRegion) : Prop := r.physPageStart = -1#64 ∨ r.Changed

instance (r : VmRegion) : Decidable r.NeedsMap := inferInstanceAs (Decidable (_ ∨ _))

/-- `PAGE_DIFFERENCE(vma->end_addr, vma->start_addr)`. -/
def VmRegion.pages (r : VmRegion) : U64 := pageDifference r.endAddr r.startAddr

/-- The bytes at the end of the old range that the new one leaves out. -/
def VmRegion.cutBack (r : VmRegion) : U64 :=
  if r.endAddr < r.oldEndAddr then r.oldEndAddr - r.endAddr else 0#64

/-- The calls of `remap_region`: what was mapped before moves to its new place. -/
def moveContents (O : HostOs ω) (r : VmRegion) (newPhys : U64) (h : Host ω) : Host ω :=
  let oldSize := r.physPageEnd - r.physPageStart
  if r.startAddr ≤ r.oldStartAddr then
    remapRegion O r.physPageStart (oldSize - r.cutBack)
      (newPhys + (r.oldStartAddr - r.startAddr)) h
  else
    remapRegion O (r.physPageStart + (r.startAddr - r.oldStartAddr))
      (oldSize - (r.startAddr - r.oldStartAddr) - r.cutBack) newPhys h

/-- The `mmap` of a file mapping. -/
def mapFile (O : HostOs ω) (r : VmRegion) (newPhys : U64) (h : Host ω) : Host ω :=
  match O.mmap h.os (r.pages * pageSize) (vmaToProt r.pageProt) (vmaToFlags r.flags ||| mapFixed)
    r.fileInfo.fd r.pageOffset with
  | some page => { h with vm := h.vm.filled newPhys (r.pages * pageSize) page }
  | none => { h with stopped := true }

/-- The fields of a node that the host leaves as they are. -/
def VmRegion.unmoved (r : VmRegion) : MapFields where
  physPageStart := r.physPageStart
  physPageEnd := r.physPageEnd
  oldStartAddr := r.oldStartAddr
  oldEndAddr := r.oldEndAddr
  resized := false
  prefaulted := false

/-- `kernel_map_vma`. -/
def Host.kernelMapVma (O : HostOs ω) (h : Host ω) (r : VmRegion) : Host ω × MapFields :=
  if r.NeedsMap then
    let (newPhys, vm) := mapPhysicalPages r.startAddr (-1#64) (vmaProtToPg r.pageProt) r.pages
      (mapContinuous ||| transferFlag r.flags vmaAllocZeroed mapZeroPages) h.vm
    let h := { h with vm := vm }
    if newPhys = -1#64 then ({ h with stopped := true }, r.unmoved)
    else
      let moves := decide (r.physPageStart ≠ -1#64) && decide r.Changed &&
        decide (r.fileInfo.fd = noFd)
      let h := if moves then moveContents O r newPhys h else h
      let h := if r.fileInfo.fd ≠ noFd then mapFile O r newPhys h else h
      (h, { physPageStart := newPhys
            physPageEnd := newPhys + r.pages * pageSize
            oldStartAddr := r.startAddr
            oldEndAddr := r.endAddr
            resized := moves
            prefaulted := true })
  else (h, r.unmoved)

/-! ## `kernel_unmap_vma` -/

/-- The loop of `kernel_unmap_vma`. -/
def unmapRange : Nat → U64 → Vm → Vm
  | 0, _, vm => vm
  | n + 1, virt, vm => unmapRange n (virt + pageSize) (unmapPhysicalPage virt vm)

/-- `kernel_unmap_vma`. -/
def Host.kernelUnmapVma (h : Host ω) (r : VmRegion) : Host ω :=
  if r.physPageStart ≠ -1#64 then
    { h with
      vm := unmapRange (pageDifference r.oldEndAddr r.oldStartAddr).toNat r.oldStartAddr h.vm }
  else h

/-- The hypercalls of the VMA code, as the host serves them. -/
def hostCalls (O : HostOs ω) : HostCalls (Host ω) where
  mapVma := Host.kernelMapVma O
  unmapVma := Host.kernelUnmapVma
  dup h fd := ({ h with os := (O.dup h.os fd).1 }, (O.dup h.os fd).2)
  close h fd := { h with os := O.close h.os fd }
  fstat h fd := ({ h with os := (O.fstat h.os fd).1 }, (O.fstat h.os fd).2)

end BufferVM
