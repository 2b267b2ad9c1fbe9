/-
  Kernel/Vma.lean --- `kernel/c/vma.c` and `vma_find` of `common/vma.c`.

  A function yields `none` where the machine stops: a use of `NULL`, a walk that
  does not end, or a failed `ASSERT`, whose `kernel_exit` does not come back.
  `unmap_vma` also flushes the pages from the TLB; the model has none, so that part
  of it is not here.
-/
import BufferVM.Kernel.RbTree

set_option autoImplicit false

namespace BufferVM

open PtrTree

variable {σ η : Type}

/-! ## Looking up -/

/-- The loop of `vma_find`. -/
def vmaFindLoop (addr : U64) : Nat → Ptr → Ptr → St σ η → Option Ptr
  | 0, _, _, _ => none
  | fuel + 1, rbNode, vma, s =>
      if rbNode = 0#64 then some vma
      else if addr < (s.region rbNode).endAddr then
        if (s.region rbNode).startAddr ≤ addr then some rbNode
        else vmaFindLoop addr fuel (s.child .left rbNode) rbNode s
      else vmaFindLoop addr fuel (s.child .right rbNode) vma s

/-- `vma_find`: the first VMA that ends above `addr`. -/
def vmaFind (addr : U64) (s : St σ η) : Option Ptr :=
  vmaFindLoop addr walkBound s.vmaRbRoot 0#64 s

/-- What `vma_find_links` hands back through its pointers. -/
structure FindLinks where
  prev : Ptr
  link : Link
  parent : Ptr

/-- The loop of `vma_find_links`; `node` is `*__rb_link`. -/
def vmaFindLinksLoop (addr end' : U64) : Nat → Ptr → FindLinks → St σ η → Option (Option FindLinks)
  | 0, _, _, _ => none
  | fuel + 1, node, found, s =>
      if node = 0#64 then some (some found)
      else if addr < (s.region node).endAddr then
        -- an existing VMA overlaps the area: `-ENOMEM`
        if (s.region node).startAddr < end' then some none
        else vmaFindLinksLoop addr end' fuel (s.child .left node)
          { found with link := .child .left node, parent := node } s
      else vmaFindLinksLoop addr end' fuel (s.child .right node)
        { prev := node, link := .child .right node, parent := node } s

/-- `vma_find_links`: `some none` stands for `-ENOMEM`. -/
def vmaFindLinks (addr end' : U64) (s : St σ η) : Option (Option FindLinks) :=
  vmaFindLinksLoop addr end' walkBound s.vmaRbRoot
    { prev := 0#64, link := .root, parent := 0#64 } s

/-! ## Linking -/

/-- `vma_link_list`. -/
def vmaLinkList (vma prev rbParent : Ptr) (s : St σ η) : St σ η :=
  let s := s.setPrev vma prev
  let next := if prev ≠ 0#64 then (s.vma prev).next else rbParent
  let s := if prev ≠ 0#64 then s.setNext prev vma else s.setListStart vma
  let s := s.setNext vma next
  if next ≠ 0#64 then s.setPrev next vma else s

/-- `vma_gap_update`. -/
def vmaGapUpdate (vma : Ptr) (s : St σ η) : Option (St σ η) := do
  let s ← deref vma s
  vmaRbGapPropagate walkBound vma 0#64 s

/-- `vma_link_rb`. -/
def vmaLinkRb (vma : Ptr) (rbLink : Link) (rbParent : Ptr) (s : St σ η) : Option (St σ η) := do
  let next := (s.vma vma).next
  let s ← (if next ≠ 0#64 then vmaGapUpdate next s
    else some (s.setHighest (s.region vma).endAddr))
  let s ← rbLinkNode vma rbParent rbLink s
  let s ← vmaGapUpdate vma (s.setGap vma 0#64)
  rbInsert vma s

/-- The hypercall `kernel_map_vma`. -/
def kernelMapVma (E : Env σ η) (vma : Ptr) (s : St σ η) : St σ η :=
  let r := E.mapVma s.host (s.region vma)
  { s.setRegion vma ((s.region vma).mapped r.2) with host := r.1 }

/-- `vma_link`. -/
def vmaLink (E : Env σ η) (vma prev : Ptr) (rbLink : Link) (rbParent : Ptr) (s : St σ η) :
    Option (St σ η) := do
  let s ← vmaLinkRb vma rbLink rbParent (vmaLinkList vma prev rbParent s)
  some (kernelMapVma E vma s)

/-- `vma_insert`. -/
def vmaInsert (E : Env σ η) (vma : Ptr) (s : St σ η) : Option (St σ η) := do
  let found ← vmaFindLinks (s.region vma).startAddr (s.region vma).endAddr s
  -- `ASSERT(false)` when the area is taken
  let found ← found
  vmaLink E vma found.prev found.link found.parent s

/-! ## Unlinking -/

/-- The loop of `detach_vmas_to_be_unmapped`: the last VMA erased and the first
one kept. -/
def detachLoop (end' : U64) : Nat → Ptr → St σ η → Option (Ptr × Ptr × St σ η)
  | 0, _, _ => none
  | fuel + 1, vma, s => do
      let (_, s) ← rbErase vma s
      let next := (s.vma vma).next
      if next ≠ 0#64 ∧ (s.region next).startAddr < end' then detachLoop end' fuel next s
      else some (vma, next, s)

/-- `detach_vmas_to_be_unmapped`. -/
def detachVmasToBeUnmapped (vma prev : Ptr) (end' : U64) (s : St σ η) : Option (St σ η) := do
  let s ← deref vma (s.setPrev vma 0#64)
  let (tailVma, vma, s) ← detachLoop end' walkBound vma s
  let s := if prev ≠ 0#64 then s.setNext prev vma else s.setListStart vma
  let s ← (if vma ≠ 0#64 then vmaGapUpdate vma (s.setPrev vma prev)
    else some (s.setHighest (if prev ≠ 0#64 then (s.region prev).endAddr else 0#64)))
  some (s.setNext tailVma 0#64)

/-- `vma_unlink`. -/
def vmaUnlink (vma prev : Ptr) (s : St σ η) : Option (St σ η) := do
  let (_, s) ← rbErase vma s
  let next := (s.vma vma).next
  let s := s.setNext prev next
  some (if next ≠ 0#64 then s.setPrev next prev else s)

/-- `unmap_vma`. -/
def unmapVma (E : Env σ η) (vma : Ptr) (s : St σ η) : St σ η :=
  { s with host := E.unmapVma s.host (s.region vma) }

/-- `kernel_close`, made for file mappings only. -/
def closeFile (E : Env σ η) (file : VmFile) (s : St σ η) : St σ η :=
  if file.fd ≠ noFd then { s with host := E.close s.host file.fd } else s

/-- `vma_free`. -/
def vmaFree (E : Env σ η) (vma : Ptr) (s : St σ η) : St σ η :=
  { s with heap := E.free s.heap vma }

/-- `vma_remove`: the VMA that follows the one removed. -/
def vmaRemove (E : Env σ η) (vma : Ptr) (s : St σ η) : Option (Ptr × St σ η) := do
  let s ← deref vma (closeFile E (s.region vma).fileInfo s)
  let s := vmaFree E vma (unmapVma E vma s)
  some ((s.vma vma).next, s)

/-- `vma_list_remove`. -/
def vmaListRemove (E : Env σ η) : Nat → Ptr → St σ η → Option (St σ η)
  | 0, _, _ => none
  | fuel + 1, vma, s => do
      let (vma, s) ← vmaRemove E vma s
      if vma ≠ 0#64 then vmaListRemove E fuel vma s else some s

/-! ## Adjusting -/

/-- The `remove_next`, `insert` and plain branches of `vma_adjust`. -/
def vmaAdjustLinks (E : Env σ η) (vma : Ptr) (end' : U64) (insert next : Ptr)
    (removeNext : Bool) (adjustNext : U64) (startChanged endChanged : Bool) (s : St σ η) :
    Option (St σ η) :=
  if removeNext then vmaUnlink next vma s
  else if insert ≠ 0#64 then vmaInsert E insert s
  else do
    let s ← (if startChanged then vmaGapUpdate vma s else some s)
    if endChanged then
      if next = 0#64 then some (s.setHighest end')
      else if adjustNext = 0#64 then vmaGapUpdate next s
      else some s
    else some s

/-- The part of `vma_adjust` from `again:` to the call of `vma_remove`.  It returns
the flags `start_changed` and `end_changed`, which a second round keeps. -/
def vmaAdjustPass (E : Env σ η) (vma : Ptr) (start end' pgoff : U64) (insert next : Ptr)
    (removeNext : Bool) (adjustNext : U64) (startChanged endChanged : Bool) (s : St σ η) :
    Option (Bool × Bool × St σ η) := do
  let startChanged := startChanged || decide (start ≠ (s.region vma).startAddr)
  let endChanged := endChanged || decide (end' ≠ (s.region vma).endAddr)
  let s := s.setRegion vma
    { s.region vma with startAddr := start, endAddr := end', pageOffset := pgoff }
  let s := if adjustNext ≠ 0#64 then
      kernelMapVma E next (s.setRegion next
        { s.region next with
          startAddr := (s.region next).startAddr + adjustNext <<< pageShift
          pageOffset := (s.region next).pageOffset + adjustNext })
    else s
  let s ← vmaAdjustLinks E vma end' insert next removeNext adjustNext startChanged endChanged s
  let s := if startChanged || endChanged then kernelMapVma E vma s else s
  let s ← (if removeNext then (vmaRemove E next s).map Prod.snd else some s)
  some (startChanged, endChanged, s)

/-- The last lines of `vma_adjust` after a removal. -/
def vmaAdjustNext (vma : Ptr) (end' : U64) (s : St σ η) : Option (St σ η) :=
  if (s.vma vma).next ≠ 0#64 then vmaGapUpdate (s.vma vma).next s
  else some (s.setHighest end')

/-- `vma_adjust`; the `int` it returns is `0` on every path. -/
def vmaAdjust (E : Env σ η) (vma : Ptr) (start end' pgoff : U64) (insert : Ptr) (s : St σ η) :
    Option (Int × St σ η) := do
  let next ← deref vma (s.vma vma).next
  let nextStart := (s.region next).startAddr
  let nextEnd := (s.region next).endAddr
  if next ≠ 0#64 ∧ insert = 0#64 ∧ nextEnd ≤ end' then
    -- `vma` expands over the whole of `next`, and perhaps over the one after too
    let (startChanged, endChanged, s) ←
      vmaAdjustPass E vma start nextEnd pgoff insert next true 0#64 false false s
    if nextEnd < end' then
      let next ← deref (s.vma vma).next (s.vma vma).next
      let end' := (s.region next).endAddr
      let (_, _, s) ←
        vmaAdjustPass E vma start end' pgoff insert next true 0#64 startChanged endChanged s
      let s ← vmaAdjustNext vma end' s
      some (0, s)
    else
      let s ← vmaAdjustNext vma nextEnd s
      some (0, s)
  else
    let adjustNext :=
      if next ≠ 0#64 ∧ insert = 0#64 then
        if nextStart < end' then pageDifference end' nextStart
        else if end' < (s.region vma).endAddr then
          -pageDifference (s.region vma).endAddr end'
        else 0#64
      else 0#64
    let (_, _, s) ←
      vmaAdjustPass E vma start end' pgoff insert next false adjustNext false false s
    some (0, s)

/-! ## Merging -/

/-- `vma_can_merge`. -/
def vmaCanMerge (r : VmRegion) (fileInfo : VmFile) (vmFlags : U64) : Bool :=
  if (r.flags ^^^ vmFlags) &&& ~~~(vmaIsPrefaulted ||| vmaHasResized) ≠ 0#64 then false
  else if r.fileInfo.dev ≠ fileInfo.dev ∨ r.fileInfo.inode ≠ fileInfo.inode then false
  else true

/-- `can_vma_merge_before`. -/
def canVmaMergeBefore (r : VmRegion) (vmFlags : U64) (fileInfo : VmFile) (vmPgoff : U64) : Bool :=
  vmaCanMerge r fileInfo vmFlags && decide (r.pageOffset = vmPgoff)

/-- `can_vma_merge_after`. -/
def canVmaMergeAfter (r : VmRegion) (vmFlags : U64) (fileInfo : VmFile) (vmPgoff : U64) : Bool :=
  let vmPglen := if fileInfo.fd ≠ noFd then pageDifference r.endAddr r.startAddr else 0#64
  vmaCanMerge r fileInfo vmFlags && decide (r.pageOffset + vmPglen = vmPgoff)

/-- `vma_merge`: the VMA merged into, or `NULL`. -/
def vmaMerge (E : Env σ η) (prev : Ptr) (addr end' vmFlags : U64) (fileInfo : VmFile)
    (pgoff : U64) (s : St σ η) : Option (Ptr × St σ η) :=
  let pglen := if fileInfo.fd ≠ noFd then pageDifference end' addr else 0#64
  let area := if prev ≠ 0#64 then (s.vma prev).next else s.vmaListStart
  let next := if area ≠ 0#64 ∧ (s.region area).endAddr = end' then (s.vma area).next else area
  let before := decide (next ≠ 0#64) && decide (end' = (s.region next).startAddr) &&
    canVmaMergeBefore (s.region next) vmFlags fileInfo (pgoff + pglen)
  if prev ≠ 0#64 ∧ (s.region prev).endAddr = addr ∧
      canVmaMergeAfter (s.region prev) vmFlags fileInfo pgoff = true then do
    let (err, s) ← (
      if before then
        -- cases 1, 6
        vmaAdjust E prev (s.region prev).startAddr (s.region next).endAddr
          (s.region prev).pageOffset 0#64 s
      else
        -- cases 2, 5, 7
        vmaAdjust E prev (s.region prev).startAddr end' (s.region prev).pageOffset 0#64 s)
    some (if err ≠ 0 then 0#64 else prev, s)
  else if before then do
    let (err, s) ← (
      if prev ≠ 0#64 ∧ addr < (s.region prev).endAddr then
        -- case 4
        vmaAdjust E prev (s.region prev).startAddr addr (s.region prev).pageOffset 0#64 s
      else
        -- cases 3, 8
        vmaAdjust E area addr (s.region next).endAddr ((s.region next).pageOffset - pglen) 0#64 s)
    some (if err ≠ 0 then 0#64 else area, s)
  else some (0#64, s)

/-! ## Splitting -/

/-- `vma_zalloc`. -/
def vmaZalloc (E : Env σ η) (s : St σ η) : Ptr × St σ η :=
  let r := E.alloc s.heap
  let s := { s with heap := r.2 }
  (r.1, if r.1 ≠ 0#64 then s.update r.1 fun _ => VmArea.zero else s)

/-- `vma_split`.  The node is written to before it is compared with `NULL`. -/
def vmaSplit (E : Env σ η) (vma : Ptr) (addr : U64) (newBelow : Bool) (s : St σ η) :
    Option (Int × St σ η) := do
  let (new, s) := vmaZalloc E s
  let s ← deref new (s.setRegion new { s.region new with physPageStart := -1#64 })
  let s := s.update new fun _ => s.vma vma
  let shift := pageAlignDown (addr - (s.region vma).startAddr)
  let s := s.setRegion new <|
    if newBelow then { s.region new with endAddr := addr }
    else { s.region new with
      startAddr := addr, pageOffset := (s.region new).pageOffset + shift }
  let dup := E.dup s.host (s.region new).fileInfo.fd
  let s := { s.setRegion new { s.region new with
    fileInfo := { (s.region new).fileInfo with fd := dup.2 } } with host := dup.1 }
  let (err, s) ← (
    if newBelow then
      vmaAdjust E vma addr (s.region vma).endAddr ((s.region vma).pageOffset + shift) new s
    else vmaAdjust E vma (s.region vma).startAddr addr (s.region vma).pageOffset new s)
  if err = 0 then some (0, s)
  else
    let s := if (s.region vma).fileInfo.fd ≠ noFd then
        { s with host := E.close s.host (s.region new).fileInfo.fd } else s
    some (err, vmaFree E new s)

end BufferVM
