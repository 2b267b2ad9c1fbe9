/-
  Kernel/Areas.lean --- the address space as a sorted list of areas.

  This is what the store is for, stated without links: an address space is a list of
  areas in ascending order, each with the node that holds it.  The operations say
  what `munmap` and `mmap_region` do to that list and in which order they call the
  host and the node allocator.  `Kernel/Simulation.lean` shows that the code on the
  pointer store does exactly this.
-/
import BufferVM.Kernel.Mmap

set_option autoImplicit false

namespace BufferVM

variable {σ η : Type}

/-- A node and the region it holds. -/
abbrev Area : Type := Ptr × VmRegion

/-- The state that a VMA operation changes, without the links. -/
structure Space (σ η : Type) where
  areas : List Area
  heap : σ
  host : η

/-- The areas that end at or below an address. -/
def below (addr : U64) (l : List Area) : List Area :=
  l.takeWhile fun a => decide (a.2.endAddr ≤ addr)

/-- The areas from the first one that ends above an address. -/
def above (addr : U64) (l : List Area) : List Area :=
  l.dropWhile fun a => decide (a.2.endAddr ≤ addr)

/-! ## Splitting -/

/-- The part of a region in front of an address. -/
def VmRegion.low (r : VmRegion) (addr : U64) : VmRegion := { r with endAddr := addr }

/-- The part of a region from an address on. -/
def VmRegion.high (r : VmRegion) (addr : U64) : VmRegion :=
  { r with
    startAddr := addr
    pageOffset := r.pageOffset + pageAlignDown (addr - r.startAddr) }

/-- The region with another descriptor. -/
def VmRegion.withFd (r : VmRegion) (fd : BitVec 32) : VmRegion :=
  { r with fileInfo := { r.fileInfo with fd := fd } }

/-- The region as the host leaves it after `kernel_map_vma`. -/
def mapRegionFields (E : Env σ η) (host : η) (r : VmRegion) : VmRegion :=
  r.mapped (E.mapVma host r).2

/-- The host after `kernel_map_vma`. -/
def mapHost (E : Env σ η) (host : η) (r : VmRegion) : η := (E.mapVma host r).1

/-- The two halves of an area, in ascending order, with the allocator and the host
after the split.  The new node gets a descriptor of its own and is mapped first. -/
def splitArea (E : Env σ η) (a : Area) (addr : U64) (newBelow : Bool) (heap : σ) (host : η) :
    Area × Area × σ × η :=
  let new := E.alloc heap
  let dup := E.dup host a.2.fileInfo.fd
  let fresh := ((if newBelow then a.2.low addr else a.2.high addr).withFd dup.2)
  let kept := if newBelow then a.2.high addr else a.2.low addr
  let fresh' := mapRegionFields E dup.1 fresh
  let host₁ := mapHost E dup.1 fresh
  let kept' := mapRegionFields E host₁ kept
  let host₂ := mapHost E host₁ kept
  if newBelow then ((new.1, fresh'), (a.1, kept'), new.2, host₂)
  else ((a.1, kept'), (new.1, fresh'), new.2, host₂)

/-- Split the area that contains an address in its inside, if there is one. -/
def Space.splitAt (E : Env σ η) (addr : U64) (newBelow : Bool) (A : Space σ η) : Space σ η :=
  match above addr A.areas with
  | [] => A
  | a :: l =>
      if a.2.startAddr < addr then
        let x := splitArea E a addr newBelow A.heap A.host
        { areas := below addr A.areas ++ x.1 :: x.2.1 :: l, heap := x.2.2.1, host := x.2.2.2 }
      else A

/-! ## Removing -/

/-- Close, unmap and free one area. -/
def removeArea (E : Env σ η) (x : σ × η) (a : Area) : σ × η :=
  (E.free x.1 a.1,
    E.unmapVma (if a.2.fileInfo.fd ≠ noFd then E.close x.2 a.2.fileInfo.fd else x.2) a.2)

/-- Remove the areas of a list one after the other. -/
def removeAreas (E : Env σ η) (l : List Area) (x : σ × η) : σ × η := l.foldl (removeArea E) x

/-- Remove the areas that lie between two addresses where the list has been split. -/
def Space.removeRange (E : Env σ η) (addr end' : U64) (A : Space σ η) : Space σ η :=
  let rest := above addr A.areas
  let x := removeAreas E (rest.takeWhile fun a => decide (a.2.startAddr < end')) (A.heap, A.host)
  { areas := below addr A.areas ++ rest.dropWhile fun a => decide (a.2.startAddr < end')
    heap := x.1
    host := x.2 }

/-- Some area overlaps the range. -/
def overlapping (addr end' : U64) (l : List Area) : Bool :=
  match above addr l with
  | [] => false
  | a :: _ => decide (a.2.startAddr < end')

/-- `munmap` of `[addr, end')`. -/
def Space.unmap (E : Env σ η) (addr end' : U64) (A : Space σ η) : Space σ η :=
  if overlapping addr end' A.areas then
    ((A.splitAt E addr false).splitAt E end' true).removeRange E addr end'
  else A

/-! ## Mapping -/

/-- What a page of a mapping is, apart from its place in a file. -/
structure PageAttrs where
  prot : U64
  flags : U64
  dev : U64
  inode : U64
  deriving DecidableEq, Repr

/-- The attributes a region gives to its pages. -/
def VmRegion.attrs (r : VmRegion) : PageAttrs :=
  { prot := r.pageProt
    flags := r.flags &&& flagMask
    dev := r.fileInfo.dev
    inode := r.fileInfo.inode }

/-- What a request asks for. -/
structure Request where
  fileInfo : VmFile
  addr : U64
  length : U64
  flags : U64
  prot : U64
  offset : U64

/-- The end of the requested range. -/
def Request.end' (q : Request) : U64 := q.addr + q.length

/-- `vm_pglen` of a request. -/
def Request.pglen (q : Request) : U64 :=
  if q.fileInfo.fd ≠ noFd then pageDifference q.end' q.addr else 0#64

/-- The VMA that `mmap_region` sets up when it cannot merge. -/
def Request.fresh (q : Request) : VmRegion :=
  { VmArea.zero.toVmRegion with
    startAddr := q.addr
    endAddr := q.end'
    flags := q.flags
    pageOffset := q.offset
    pageProt := q.prot
    fileInfo := q.fileInfo
    physPageStart := -1#64 }

/-- The attributes that a request asks for. -/
def Request.attrs (q : Request) : PageAttrs :=
  { prot := q.prot
    flags := q.flags &&& flagMask
    dev := q.fileInfo.dev
    inode := q.fileInfo.inode }

/-- The request can be appended to the region in front of it. -/
def Request.joinsPrev (q : Request) (r : VmRegion) : Bool :=
  decide (r.endAddr = q.addr) && canVmaMergeAfter r q.flags q.fileInfo q.offset

/-- The request can be put in front of the region behind it. -/
def Request.joinsNext (q : Request) (r : VmRegion) : Bool :=
  decide (q.end' = r.startAddr) && canVmaMergeBefore r q.flags q.fileInfo (q.offset + q.pglen)

/-- Which of the four ways a request is served. -/
inductive Placement where
  | fresh
  | extendPrev (p : Area)
  | extendNext (n : Area)
  | bridge (p n : Area)

/-- The way `vma_merge` decides for, given the neighbours of the range. -/
def Request.place (q : Request) (prev next : Option Area) : Placement :=
  match prev.filter (fun a => q.joinsPrev a.2), next.filter (fun a => q.joinsNext a.2) with
  | some p, some n => .bridge p n
  | some p, none => .extendPrev p
  | none, some n => .extendNext n
  | none, none => .fresh

/-- The placement of a request in an address space. -/
def Request.placement (q : Request) (l : List Area) : Placement :=
  q.place (below q.addr l).getLast? (above q.addr l).head?

/-- Map a request into a free range. -/
def Space.place (E : Env σ η) (q : Request) (A : Space σ η) : Space σ η :=
  let l₁ := below q.addr A.areas
  let l₂ := above q.addr A.areas
  match q.placement A.areas with
  | .fresh =>
      let new := E.alloc A.heap
      { areas := l₁ ++ (new.1, mapRegionFields E A.host q.fresh) :: l₂
        heap := new.2
        host := mapHost E A.host q.fresh }
  | .extendPrev p =>
      let r := { p.2 with endAddr := q.end' }
      { areas := l₁.dropLast ++ (p.1, mapRegionFields E A.host r) :: l₂
        heap := A.heap
        host := mapHost E A.host r }
  | .extendNext n =>
      let r := { n.2 with startAddr := q.addr, pageOffset := n.2.pageOffset - q.pglen }
      { areas := l₁ ++ (n.1, mapRegionFields E A.host r) :: l₂.tail
        heap := A.heap
        host := mapHost E A.host r }
  | .bridge p n =>
      -- the merged VMA is mapped before the one it has swallowed is removed
      let r := { p.2 with endAddr := n.2.endAddr }
      let x := removeArea E (A.heap, mapHost E A.host r) n
      { areas := l₁.dropLast ++ (p.1, mapRegionFields E A.host r) :: l₂.tail
        heap := x.1
        host := x.2 }

/-- The node that covers the range once the request has been placed. -/
def Space.placedNode (E : Env σ η) (q : Request) (A : Space σ η) : Ptr :=
  match q.placement A.areas with
  | .fresh => (E.alloc A.heap).1
  | .extendPrev p => p.1
  | .extendNext n => n.1
  | .bridge p _ => p.1

/-- `mmap_region`: clear the range and map it. -/
def Space.map (E : Env σ η) (q : Request) (A : Space σ η) : Space σ η :=
  (A.unmap E q.addr q.end').place E q

end BufferVM
