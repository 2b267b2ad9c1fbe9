/-
  Vm/Paging.lean --- `vm/paging.c`: the guest's page tables and its physical memory.

  Guest-physical memory is kept page by page: `mem f i` is the `i`-th 64-bit word of page
  `f`, and the pointer `vm.mem + addr` to a page table is the page `addr` lies in.  The
  counter of pages handed out is a natural number; the address of a page is computed in
  64 bits, as the code does it.
-/
import BufferVM.Common.Word
import BufferVM.Lib.Radix

set_option autoImplicit false

namespace BufferVM

/-! ## `common/paging.h` -/

/-- `PDE64_PRESENT`. -/
def pde64Present : U64 := 0x1#64
/-- `PDE64_WRITEABLE`. -/
def pde64Writeable : U64 := 0x2#64
/-- `PDE64_USER`. -/
def pde64User : U64 := 0x4#64
/-- `PDE64_PS`. -/
def pde64Ps : U64 := 0x80#64
/-- `PDE64_NO_EXE`. -/
def pde64NoExe : U64 := 0x8000000000000000#64
/-- `PAGE_CREATE`. -/
def pageCreate : U64 := -1#64
/-- `MAP_CONTINUOUS`. -/
def mapContinuous : U64 := 0x1#64
/-- `MAP_NO_OVERWRITE`. -/
def mapNoOverwrite : U64 := 0x2#64
/-- `MAP_ZERO_PAGES`. -/
def mapZeroPages : U64 := 0x4#64
/-- `PHYSICAL_HEAP_PAGES`. -/
def physicalHeapPages : Nat := 0xFFF00000 / 4096

/-- The bits of an entry that hold a physical address. -/
def entryMask : U64 := 0xFFFFFFFFFFF000#64

/-- `virt_addr_info_t`. -/
structure VirtAddrInfo where
  version : U64
  pgDirPtrOffset : U64
  pgDirOffset : U64
  pgTblOffset : U64
  physOffset : U64
  deriving DecidableEq, Repr

/-- `get_virt_addr_info`. -/
def getVirtAddrInfo (addr : U64) : VirtAddrInfo where
  physOffset := addr &&& 0x0000000000000FFF#64
  pgTblOffset := (addr &&& 0x00000000001FF000#64) >>> 12
  pgDirOffset := (addr &&& 0x000000003fe00000#64) >>> 21
  pgDirPtrOffset := (addr &&& 0x0000007fc0000000#64) >>> 30
  version := (addr &&& 0x0000ff8000000000#64) >>> 39

/-! ## The machine's memory -/

/-- Guest-physical memory, `page_counter` and `pml4_addr`. -/
structure Vm where
  mem : Nat → U64 → U64
  pageCounter : Nat
  pml4Addr : U64

/-- The page a physical address lies in. -/
def frameOf (addr : U64) : Nat := addr.toNat / 4096

/-- The address of a page. -/
def frameAddr (f : Nat) : U64 := BitVec.ofNat 64 (f * 4096)

/-- `table[index]`. -/
def Vm.entry (vm : Vm) (table index : U64) : U64 := vm.mem (frameOf table) index

/-- `table[index] = value`. -/
def Vm.setEntry (vm : Vm) (table index value : U64) : Vm :=
  { vm with mem := Radix.write vm.mem (frameOf table) index value }

/-- `allocate_pages`; `zero_page` is not used by the code. -/
def allocatePages (numPages : U64) (vm : Vm) : U64 × Vm :=
  if numPages = 0#64 then (-1#64, vm)
  else (frameAddr vm.pageCounter, { vm with pageCounter := vm.pageCounter + numPages.toNat })

/-- `get_page_entry`. -/
def getPageEntry (table index : U64) (vm : Vm) : Option U64 :=
  if vm.entry table index &&& pde64Present ≠ 0#64 then some (vm.entry table index &&& entryMask)
  else none

/-- `map_page_entry`. -/
def mapPageEntry (table index flags page : U64) (vm : Vm) : U64 × Vm :=
  let vm :=
    if page = pageCreate then
      if vm.entry table index &&& pde64Present = 0#64 then
        let (new, vm) := allocatePages 1#64 vm
        vm.setEntry table index (pde64Present ||| flags ||| new)
      else vm.setEntry table index (vm.entry table index ||| flags)
    else vm.setEntry table index (pde64Present ||| flags ||| (page &&& entryMask))
  (vm.entry table index &&& entryMask, vm)

/-- `unmap_page_entry`. -/
def unmapPageEntry (table index : U64) (vm : Vm) : Vm := vm.setEntry table index 0#64

/-- `get_phys_addr`. -/
def getPhysAddr (virtualAddr : U64) (vm : Vm) : Option U64 := do
  let info := getVirtAddrInfo virtualAddr
  let pdpt ← getPageEntry vm.pml4Addr 0#64 vm
  let pd ← getPageEntry pdpt info.pgDirPtrOffset vm
  let pd2 ← getPageEntry pd info.pgDirOffset vm
  let pageAddr ← getPageEntry pd2 info.pgTblOffset vm
  some (pageAddr + info.physOffset)

/-- `build_page_tables`: every entry of the first table leads to one `pdpt`. -/
def buildPageTables (vm : Vm) : Vm :=
  let (pml4, vm) := allocatePages 1#64 vm
  let (pdpt, vm) := allocatePages 1#64 { vm with pml4Addr := pml4 }
  (List.range 512).foldl (fun vm i => vm.setEntry pml4 (BitVec.ofNat 64 i)
    (pdpt ||| pde64Present ||| pde64User ||| pde64Writeable)) vm

/-- The flags of the entries that lead to tables. -/
def tableFlags : U64 := pde64User ||| pde64Writeable

/-- The first lines of `map_physical_page` and of `unmap_physical_page`: the last table
for an address, with the tables on the way to it created. -/
def lastTable (info : VirtAddrInfo) (vm : Vm) : U64 × Vm :=
  let (pdpt, vm) := mapPageEntry vm.pml4Addr 0#64 tableFlags pageCreate vm
  let (pd, vm) := mapPageEntry pdpt info.pgDirPtrOffset tableFlags pageCreate vm
  mapPageEntry pd info.pgDirOffset tableFlags pageCreate vm

/-- `map_physical_page`. -/
def mapPhysicalPage (virtualPageAddr physicalPageAddr flags : U64) (noOverwrite : Bool) (vm : Vm) :
    Vm :=
  let info := getVirtAddrInfo virtualPageAddr
  let (pd2, vm) := lastTable info vm
  if noOverwrite = false ∨ getPageEntry pd2 info.pgTblOffset vm = none then
    (mapPageEntry pd2 info.pgTblOffset (flags ||| pde64Writeable) physicalPageAddr vm).2
  else vm

/-- `unmap_physical_page`. -/
def unmapPhysicalPage (virtualPageAddr : U64) (vm : Vm) : Vm :=
  let info := getVirtAddrInfo virtualPageAddr
  let (pd2, vm) := lastTable info vm
  unmapPageEntry pd2 info.pgTblOffset vm

/-- The loop of `map_physical_pages` over a range of physical pages. -/
def mapRange (pageProt : U64) (noOverwrite : Bool) : Nat → U64 → U64 → Vm → Vm
  | 0, _, _, vm => vm
  | n + 1, virt, phys, vm =>
      mapRange pageProt noOverwrite n (virt + pageSize) (phys + pageSize)
        (mapPhysicalPage virt phys pageProt noOverwrite vm)

/-- The loop of `map_physical_pages` that allocates each page; `phys` is
`physical_page_addr`. -/
def mapEach (pageProt : U64) (noOverwrite : Bool) : Nat → U64 → U64 → Vm → U64 × Vm
  | 0, _, phys, vm => (phys, vm)
  | n + 1, virt, _, vm =>
      let (phys, vm) := allocatePages 1#64 vm
      if phys = -1#64 then (-1#64, vm)
      else mapEach pageProt noOverwrite n (virt + pageSize) phys
        (mapPhysicalPage virt phys pageProt noOverwrite vm)

/-- `map_physical_pages`. -/
def mapPhysicalPages (virtualPageAddr physicalPageAddr pageProt numPages flags : U64) (vm : Vm) :
    U64 × Vm :=
  let noOverwrite := decide (flags &&& mapNoOverwrite ≠ 0#64)
  if flags &&& mapContinuous ≠ 0#64 ∨ physicalPageAddr ≠ -1#64 then
    let (phys, vm) :=
      if physicalPageAddr = -1#64 then allocatePages numPages vm else (physicalPageAddr, vm)
    if phys = -1#64 then (-1#64, vm)
    else (phys, mapRange pageProt noOverwrite numPages.toNat virtualPageAddr phys vm)
  else mapEach pageProt noOverwrite numPages.toNat virtualPageAddr physicalPageAddr vm

/-- The loop of `load_address_space`; `page i` is what the copy leaves in the `i`-th page. -/
def loadLoop (end' flags : U64) (page : Nat → U64 → U64) : Nat → Nat → U64 → Vm → Option Vm
  | 0, _, _, _ => none
  | fuel + 1, i, p, vm =>
      if p < end' then
        let (phys, vm) := allocatePages 1#64 vm
        let vm := { vm with mem := fun f => if f = frameOf phys then page i else vm.mem f }
        loadLoop end' flags page fuel (i + 1) (p + pageSize)
          (mapPhysicalPages p phys flags 1#64 0#64 vm).2
      else some vm

/-- `load_address_space`.  An address that wraps round after `2 ^ 52` pages keeps the loop
going for ever. -/
def loadAddressSpace (startAddr memSize flags : U64) (page : Nat → U64 → U64) (vm : Vm) :
    Option Vm :=
  loadLoop (startAddr + memSize) flags page (2 ^ 52 + 1) 0 startAddr vm

end BufferVM
