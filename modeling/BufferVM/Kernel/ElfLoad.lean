/-
  Kernel/ElfLoad.lean --- the loader of `kernel/c/elf.c`: `load_elf64_pg_hdrs` on the program
  headers of an image, with `elf_map`, `total_mapping_size` and `pad_zero`.

  The loader keeps beside the store what it has asked for: the calls with their ranges, and
  the address at which each header has been placed.  A failed `VERIFY` ends the machine.
-/
import BufferVM.Kernel.Mmap

set_option autoImplicit false

namespace BufferVM

variable {σ η : Type}

/-! ## Program headers -/

/-- `e_type` of an image that passes the first `VERIFY` of `load_elf64`. -/
inductive ElfType where
  | exec
  | dyn
  deriving DecidableEq, Repr

/-- The fields of `elf64_phdr_t` that the loader reads. -/
structure Phdr where
  pType : BitVec 32
  pFlags : BitVec 32
  pOffset : U64
  pVaddr : U64
  pFilesz : U64
  pMemsz : U64
  deriving DecidableEq, Repr

/-- `PT_LOAD`. -/
def ptLoad : BitVec 32 := 1#32
/-- `PF_X`. -/
def pfX : BitVec 32 := 1#32
/-- `PF_W`. -/
def pfW : BitVec 32 := 2#32
/-- `PF_R`. -/
def pfR : BitVec 32 := 4#32

/-- `prot` of a header. -/
def elfProt (pFlags : BitVec 32) : U64 :=
  let prot := if pFlags &&& pfR ≠ 0#32 then protRead else 0#64
  let prot := if pFlags &&& pfW ≠ 0#32 then prot ||| protWrite else prot
  if pFlags &&& pfX ≠ 0#32 then prot ||| protExec else prot

/-- The headers that are loaded. -/
def loads (phdrs : List Phdr) : List Phdr := phdrs.filter fun p => p.pType = ptLoad

/-- `total_mapping_size`. -/
def totalMappingSize (phdrs : List Phdr) : U64 :=
  match (loads phdrs).head?, (loads phdrs).getLast? with
  | some first, some last => last.pVaddr + last.pMemsz - pageAlignDown first.pVaddr
  | _, _ => 0#64

/-! ## Calls of the loader -/

/-- A call of the loader.  `syscall_mmap` comes with the address it has returned. -/
inductive ElfCall where
  | mmap (addr length flags mapAddr : U64)
  | munmap (addr length : U64)
  | doBrk (addr length : U64)
  | memset (addr length : U64)
  deriving DecidableEq, Repr

/-- The first address of the range.  Without `MAP_FIXED` it is the one that was returned. -/
def ElfCall.addr : ElfCall → U64
  | .mmap addr _ flags mapAddr => if flags &&& mapFixed = 0#64 then mapAddr else addr
  | .munmap addr _ => addr
  | .doBrk addr _ => addr
  | .memset addr _ => addr

/-- The length of the range. -/
def ElfCall.length : ElfCall → U64
  | .mmap _ length _ _ => length
  | .munmap _ length => length
  | .doBrk _ length => length
  | .memset _ length => length

/-- The store, what has been asked for, and where each header has been placed. -/
structure Loader (σ η : Type) where
  store : St σ η
  calls : List ElfCall
  placed : List (Phdr × U64)

/-- `syscall_mmap` in the loader. -/
def Loader.mmap (E : Env σ η) (stray addr length prot flags : U64) (fd : BitVec 32) (offset : U64)
    (x : Loader σ η) : Option (U64 × Loader σ η) := do
  let (mapAddr, s) ← syscallMmap E stray addr length prot flags fd offset x.store
  some (mapAddr, { x with store := s, calls := x.calls ++ [.mmap addr length flags mapAddr] })

/-- `syscall_munmap` in the loader, which does not look at the result. -/
def Loader.munmap (E : Env σ η) (addr length : U64) (x : Loader σ η) : Option (Loader σ η) := do
  let (_, s) ← syscallMunmap E addr length x.store
  some { x with store := s, calls := x.calls ++ [.munmap addr length] }

/-- `do_brk` in the loader. -/
def Loader.doBrk (E : Env σ η) (addr request flags : U64) (x : Loader σ η) :
    Option (U64 × Loader σ η) := do
  let (error, s) ← BufferVM.doBrk E addr request flags x.store
  some (error, { x with store := s, calls := x.calls ++ [.doBrk addr request] })

/-- `pad_zero`. -/
def Loader.padZero (elfBss : U64) (x : Loader σ η) : Loader σ η :=
  let nbyte := pageOffset elfBss
  if nbyte ≠ 0#64 then { x with calls := x.calls ++ [.memset elfBss (pageSize - nbyte)] } else x

/-- `size` of `elf_map`. -/
def Phdr.mapSize (p : Phdr) : U64 := pageAlign (p.pFilesz + pageOffset p.pVaddr)

/-- `elf_map`. -/
def elfMap (E : Env σ η) (stray : U64) (fd : BitVec 32) (addr : U64) (p : Phdr)
    (prot flags totalSize : U64) (x : Loader σ η) : Option (U64 × Loader σ η) :=
  let off := p.pOffset - pageOffset p.pVaddr
  let addr := pageAlignDown addr
  if p.mapSize = 0#64 then some (addr, x)
  else if totalSize ≠ 0#64 then do
    let totalSize := pageAlign totalSize
    let (mapAddr, x) ← x.mmap E stray addr totalSize prot flags fd off
    if mapAddr < x.store.glob.kernelMinAddress then do
      let x ← x.munmap E (mapAddr + p.mapSize) (totalSize - p.mapSize)
      some (mapAddr, x)
    else some (mapAddr, x)
  else x.mmap E stray addr p.mapSize prot flags fd off

/-! ## `load_elf64_pg_hdrs` -/

/-- The variables of the loop. -/
structure ElfProgress where
  foundEntry : Bool
  totalSize : U64
  loadOffset : U64
  loadAddr : U64
  minAddr : U64
  maxFaddr : U64
  maxMaddr : U64

/-- The end of the loop's body, after the mapping. -/
def ElfProgress.next (type : ElfType) (isInterp : Bool) (p : Phdr) (startAddr : U64)
    (g : ElfProgress) : ElfProgress :=
  let g :=
    if g.foundEntry = true then g
    else if isInterp = true ∧ type = .dyn then
      { g with foundEntry := true, loadOffset := startAddr - pageAlignDown p.pVaddr }
    else
      let loadAddr := p.pVaddr - p.pOffset
      match type with
      | .exec => { g with foundEntry := true, loadAddr := loadAddr }
      | .dyn =>
          let loadOffset :=
            g.loadOffset + (startAddr - pageAlignDown (g.loadOffset + p.pVaddr))
          { g with foundEntry := true, loadOffset := loadOffset, loadAddr := loadAddr + loadOffset }
  let bias := if isInterp = true then g.loadOffset else 0#64
  let sectionMaxMaddr := p.pVaddr + p.pMemsz + bias
  let sectionMaxFaddr := p.pVaddr + p.pFilesz + bias
  { g with
    minAddr := if startAddr < g.minAddr then startAddr else g.minAddr
    maxMaddr := if g.maxMaddr < sectionMaxMaddr then sectionMaxMaddr else g.maxMaddr
    maxFaddr := if g.maxFaddr < sectionMaxFaddr then sectionMaxFaddr else g.maxFaddr }

/-- The body of the loop. -/
def loadPhdr (E : Env σ η) (stray : U64) (fd : BitVec 32) (type : ElfType) (phdrs : List Phdr)
    (isInterp : Bool) (gx : ElfProgress × Loader σ η) (p : Phdr) :
    Option (ElfProgress × Loader σ η) :=
  let (g, x) := gx
  if p.pType ≠ ptLoad then some (g, x)
  else do
    let kernelMinAddress := x.store.glob.kernelMinAddress
    let fixed := type = .exec ∨ g.foundEntry = true
    let flags := if fixed then mapPrivate ||| mapFixed else mapPrivate
    -- the first header of a program that may be anywhere
    let hinted := ¬ fixed ∧ isInterp = false
    let g :=
      if hinted then
        { g with
          totalSize := totalMappingSize phdrs
          loadOffset := pageAlignDown (kernelMinAddress / 3#64 * 2#64 - p.pVaddr) }
      else if isInterp = true then g
      else { g with totalSize := 0#64 }
    if hinted ∧ g.totalSize = 0#64 then none
    else do
      let (startAddr, x) ←
        elfMap E stray fd (p.pVaddr + g.loadOffset) p (elfProt p.pFlags) flags g.totalSize x
      let g := if isInterp = true then { g with totalSize := 0#64 } else g
      if isErrValue startAddr = true ∨ ¬ startAddr < kernelMinAddress then none
      else if fixed ∧ startAddr ≠ pageAlignDown (p.pVaddr + g.loadOffset) then none
      else some (g.next type isInterp p startAddr,
        { x with placed := x.placed ++ [(p, startAddr)] })

/-- What the loader reports: the bias, and fields of `elf_info`.  `load_addr` is not written
for an interpreter. -/
structure ElfLoaded where
  elfBias : U64
  loadAddr : Option U64
  minPageAddr : U64
  maxPageAddr : U64

/-- `load_elf64_pg_hdrs`. -/
def loadElf64PgHdrs (E : Env σ η) (stray : U64) (fd : BitVec 32) (type : ElfType)
    (phdrs : List Phdr)
    (isInterp : Bool) (s : St σ η) : Option (ElfLoaded × Loader σ η) := do
  let totalSize := if isInterp = true then totalMappingSize phdrs else 0#64
  if isInterp = true ∧ totalSize = 0#64 then none
  else do
    let start : ElfProgress := ⟨false, totalSize, 0#64, 0#64, -1#64, 0#64, 0#64⟩
    let (g, x) ← phdrs.foldlM (loadPhdr E stray fd type phdrs isInterp) (start, ⟨s, [], []⟩)
    let bias := if isInterp = true then 0#64 else g.loadOffset
    let maxMaddr := g.maxMaddr + bias
    let maxFaddr := g.maxFaddr + bias
    let x := x.padZero maxFaddr
    if isInterp = true then do
      let maxFaddr := pageAlign maxFaddr
      let maxMaddr := pageAlign maxMaddr
      if maxFaddr < maxMaddr then do
        let (error, x) ← x.doBrk E maxFaddr (maxMaddr - maxFaddr) vmaAllocZeroed
        if error ≠ 0#64 then none
        else some (⟨g.loadOffset, none, pageAlign g.minAddr, pageAlign maxMaddr⟩, x)
      else some (⟨g.loadOffset, none, pageAlign g.minAddr, pageAlign maxMaddr⟩, x)
    else
      some (⟨g.loadOffset, some g.loadAddr, pageAlign g.minAddr, pageAlign maxMaddr⟩, x)

end BufferVM
