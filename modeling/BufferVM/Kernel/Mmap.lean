/-
  Kernel/Mmap.lean --- `kernel/c/mmap.c`.

  `get_unmapped_area_unchecked` runs off its end without a `return` when an address
  hint is taken; what its caller then finds in the return register is the parameter
  `stray`.
-/
import BufferVM.Kernel.Vma

set_option autoImplicit false

namespace BufferVM

open PtrTree

variable {σ η : Type}

/-! ## Flags of `common/syscall.h` -/

/-- `MAP_SHARED`. -/
def mapShared : U64 := 0x01#64
/-- `MAP_PRIVATE`. -/
def mapPrivate : U64 := 0x02#64
/-- `MAP_TYPE`. -/
def mapType : U64 := 0x0f#64
/-- `MAP_FIXED`. -/
def mapFixed : U64 := 0x10#64
/-- `MAP_ANONYMOUS`. -/
def mapAnonymous : U64 := 0x20#64
/-- `MAP_GROWSDOWN`. -/
def mapGrowsdown : U64 := 0x0100#64
/-- `PROT_READ`. -/
def protRead : U64 := 0x1#64
/-- `PROT_WRITE`. -/
def protWrite : U64 := 0x2#64
/-- `PROT_EXEC`. -/
def protExec : U64 := 0x4#64

/-- `prot_to_vma`. -/
def protToVma (prot : U64) : U64 :=
  transferFlag prot protRead vmaRead ||| transferFlag prot protWrite vmaWrite |||
    transferFlag prot protExec vmaExec

/-- `flag_to_vma`. -/
def flagToVma (flags : U64) : U64 := transferFlag flags mapGrowsdown vmaGrows

/-! ## The gap search -/

/-- Where in its loops `find_next_gap` is. -/
inductive GapPhase where
  /-- The head of the outer loop. -/
  | descend
  /-- The label `check_current`. -/
  | checkCurrent (gapStart : U64)
  /-- The head of the loop back up the tree. -/
  | climb

/-- `vma->prev ? vma->prev->end_addr : 0`. -/
def prevEnd (s : St σ η) (vma : Ptr) : U64 :=
  if (s.vma vma).prev ≠ 0#64 then (s.region (s.vma vma).prev).endAddr else 0#64

/-- The loops of `find_next_gap`: `some none` is `-ENOMEM`, otherwise `gap_start`
and `gap_end` of the gap found. -/
def findNextGapLoop (lowRange highRange length : U64) :
    Nat → GapPhase → Ptr → St σ η → Option (Option (U64 × U64))
  | 0, _, _, _ => none
  | fuel + 1, .descend, vma, s =>
      let gapStart := prevEnd s vma
      let right := s.child .right vma
      if gapStart ≤ highRange ∧ right ≠ 0#64 ∧ length ≤ s.gap right then
        findNextGapLoop lowRange highRange length fuel .descend right s
      else findNextGapLoop lowRange highRange length fuel (.checkCurrent gapStart) vma s
  | fuel + 1, .checkCurrent gapStart, vma, s =>
      let gapEnd := (s.region vma).startAddr
      let left := s.child .left vma
      if gapEnd < lowRange then some none
      else if gapStart ≤ highRange ∧ length ≤ gapEnd - gapStart then
        some (some (gapStart, gapEnd))
      else if left ≠ 0#64 ∧ length ≤ s.gap left then
        findNextGapLoop lowRange highRange length fuel .descend left s
      else findNextGapLoop lowRange highRange length fuel .climb vma s
  | fuel + 1, .climb, prev, s =>
      let vma := s.parent prev
      if vma = 0#64 then some none
      else if prev = s.child .right vma then
        findNextGapLoop lowRange highRange length fuel (.checkCurrent (prevEnd s vma)) vma s
      else findNextGapLoop lowRange highRange length fuel .climb vma s

/-- The end of `find_next_gap` from `found_highest` on; the two `ASSERT`s stop the
machine. -/
def findNextGapFound (inputLowRange gapStart gapEnd length : U64) : Option U64 :=
  let gapEnd := gapEnd - length
  if inputLowRange ≤ gapEnd ∧ gapStart ≤ gapEnd then some gapEnd else none

/-- `find_next_gap`. -/
def findNextGap (inputLowRange inputHighRange length : U64) (s : St σ η) : Option U64 :=
  if inputHighRange < length then some eNOMEM
  else
    let highRange := inputHighRange - length
    if highRange < inputLowRange then some eNOMEM
    else
      let lowRange := inputLowRange + length
      if s.vmaHighestAddr ≤ highRange then
        findNextGapFound inputLowRange s.vmaHighestAddr inputHighRange length
      else if s.vmaRbRoot = 0#64 then some eNOMEM
      else if s.gap s.vmaRbRoot < length then some eNOMEM
      else do
        -- every node is entered, checked and left at most once
        let found ← findNextGapLoop lowRange highRange length (4 * walkBound) .descend s.vmaRbRoot s
        match found with
        | none => some eNOMEM
        | some (gapStart, gapEnd) =>
            let gapEnd := if inputHighRange < gapEnd then inputHighRange else gapEnd
            findNextGapFound inputLowRange gapStart gapEnd length

/-- `get_unmapped_area_unchecked`. -/
def getUnmappedAreaUnchecked (stray addr length flags : U64) (s : St σ η) : Option U64 :=
  if flags &&& mapFixed = 0#64 then
    if addr ≠ 0#64 then do
      let addr := pageAlign addr
      let vma ← vmaFind addr s
      if addr ≤ s.glob.kernelMinAddress - length ∧
          (vma = 0#64 ∨ addr + length ≤ (s.region vma).startAddr) then some addr
      else some stray
    else findNextGap 0#64 s.glob.userStackMin length s
  else some addr

/-- `get_unmapped_area`. -/
def getUnmappedArea (stray addr length flags : U64) (s : St σ η) : Option U64 :=
  if flags &&& mapFixed ≠ 0#64 then some addr
  else do
    let addr ← getUnmappedAreaUnchecked stray addr length flags s
    if s.glob.kernelMinAddress - length < addr then some eNOMEM
    else if pageOffset addr ≠ 0#64 then some eINVAL
    else some addr

/-! ## `syscall_munmap` -/

/-- `-EINVAL` as an `int`. -/
def intEINVAL : Int := -22

/-- The test at the head of `syscall_munmap`. -/
def munmapRejects (kernelMinAddress addr length : U64) : Bool :=
  decide (pageOffset addr ≠ 0#64) || decide (kernelMinAddress < addr) ||
    decide (kernelMinAddress - addr < length) || decide (length = 0#64)

/-- `syscall_munmap`. -/
def syscallMunmap (E : Env σ η) (addr length : U64) (s : St σ η) : Option (Int × St σ η) :=
  if munmapRejects s.glob.kernelMinAddress addr length then some (intEINVAL, s)
  else do
    let length := pageAlign length
    let vma ← vmaFind addr s
    if vma = 0#64 then some (0, s)
    else
      let prev := (s.vma vma).prev
      let end' := addr + length
      if end' ≤ (s.region vma).startAddr then some (0, s)
      else do
        -- is the address past the start of the VMA?
        let (error, s, prev) ← (
          if (s.region vma).startAddr < addr then do
            let (error, s) ← vmaSplit E vma addr false s
            some (error, s, vma)
          else some (0, s, prev))
        if error ≠ 0 then some (error, s)
        else do
          -- is the end inside the last VMA?
          let last ← vmaFind end' s
          let (error, s) ← (
            if last ≠ 0#64 ∧ (s.region last).startAddr < end' then vmaSplit E last end' true s
            else some (0, s))
          if error ≠ 0 then some (error, s)
          else do
            let vma := if prev ≠ 0#64 then (s.vma prev).next else s.vmaListStart
            let s ← detachVmasToBeUnmapped vma prev end' s
            let s ← vmaListRemove E walkBound vma s
            some (0, s)

/-! ## Mapping -/

/-- The loop at the head of `mmap_region` and of `do_brk`: clear the range, then
find the place.  `none` inside stands for the failure of `syscall_munmap`. -/
def clearRange (E : Env σ η) (addr length : U64) :
    Nat → St σ η → Option (Option FindLinks × St σ η)
  | 0, _ => none
  | fuel + 1, s => do
      let found ← vmaFindLinks addr (addr + length) s
      match found with
      | some f => some (some f, s)
      | none => do
          let (error, s) ← syscallMunmap E addr length s
          if error ≠ 0 then some (none, s) else clearRange E addr length fuel s

/-- The end of `mmap_region` and of `do_brk`: merge with a neighbour, or link a new
VMA. -/
def mergeOrLink (E : Env σ η) (fileInfo : VmFile) (addr length vmaFlags vmaProt offset : U64)
    (found : FindLinks) (s : St σ η) : Option (Ptr × St σ η) := do
  let (vma, s) ← vmaMerge E found.prev addr (addr + length) vmaFlags fileInfo offset s
  if vma = 0#64 then do
    let (vma, s) := vmaZalloc E s
    let s ← deref vma (s.setRegion vma { s.region vma with
      startAddr := addr
      endAddr := addr + length
      flags := vmaFlags
      pageOffset := offset
      pageProt := vmaProt
      fileInfo := fileInfo
      physPageStart := -1#64 })
    let s ← vmaLink E vma found.prev found.link found.parent s
    some (vma, s)
  else some (vma, s)

/-- `mmap_region`: the address or `-ENOMEM`, and `*vma_out`. -/
def mmapRegion (E : Env σ η) (fileInfo : Option VmFile) (addr length vmaFlags vmaProt offset : U64)
    (s : St σ η) : Option (U64 × Ptr × St σ η) := do
  let fileInfo := fileInfo.getD nullFileInfo
  let (found, s) ← clearRange E addr length walkBound s
  match found with
  | none => some (eNOMEM, 0#64, s)
  | some found => do
      let (vma, s) ← mergeOrLink E fileInfo addr length vmaFlags vmaProt offset found s
      some (addr, vma, s)

/-- What `syscall_mmap` derives from `flags & MAP_TYPE`: the extra VMA flags and the
offset, or `-EINVAL`. -/
def mmapType (anonymous : Bool) (flags vmaFlags offset : U64) : Option (U64 × U64) :=
  if flags &&& mapType = mapShared then
    if anonymous then
      if vmaFlags &&& vmaGrows ≠ 0#64 then none else some (vmaFlags ||| vmaShared, 0#64)
    else some (vmaFlags ||| vmaShared, offset)
  else if flags &&& mapType = mapPrivate then some (vmaFlags, offset)
  else none

/-- `syscall_mmap`. -/
def syscallMmap (E : Env σ η) (stray addr length prot flags : U64) (fd : BitVec 32)
    (offset : U64) (s : St σ η) : Option (U64 × St σ η) :=
  if pageOffset offset ≠ 0#64 then some (eINVAL, s)
  else if length = 0#64 then some (eINVAL, s)
  else
    let length := pageAlign length
    if length = 0#64 then some (eINVAL, s)
    else do
      let addr ← getUnmappedArea stray addr length flags s
      let vmaFlags := flagToVma flags
      let vmaProt := protToVma prot ||| transferFlag flags mapAnonymous vmaIsVersioned
      if fd ≠ noFd then
        let dup := E.dup s.host fd
        let stat := E.fstat dup.1 dup.2
        let s := { s with host := stat.1 }
        let fileInfo : VmFile := { fd := dup.2, dev := stat.2.1, inode := stat.2.2 }
        match mmapType false flags vmaFlags offset with
        | none => some (eINVAL, s)
        | some (vmaFlags, offset) => do
            let (addr, _, s) ← mmapRegion E (some fileInfo) addr length vmaFlags vmaProt offset s
            some (addr, s)
      else
        match mmapType true flags vmaFlags offset with
        | none => some (eINVAL, s)
        | some (vmaFlags, offset) => do
            let (addr, _, s) ←
              mmapRegion E (some nullFileInfo) addr length vmaFlags vmaProt offset s
            some (addr, s)

/-- `do_brk`. -/
def doBrk (E : Env σ η) (addr request flags : U64) (s : St σ η) : Option (U64 × St σ η) :=
  let pgoff := addr >>> pageShift
  let len := pageAlign request
  if len < request then some (eNOMEM, s)
  else if len = 0#64 then some (0#64, s)
  else
    -- `get_unmapped_area` with `MAP_FIXED` is the address itself
    if pageOffset addr ≠ 0#64 then some (addr, s)
    else do
      let (found, s) ← clearRange E addr len walkBound s
      match found with
      | none => some (eNOMEM, s)
      | some found => do
          let (_, s) ← mergeOrLink E nullFileInfo addr len flags
            (vmaRead ||| vmaWrite ||| vmaExec) pgoff found s
          some (0#64, s)

end BufferVM
