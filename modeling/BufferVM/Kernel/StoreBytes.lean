/-
  Kernel/StoreBytes.lean --- what the bytes of the store come from.

  A byte that a VMA covers is zero or a byte of a file.  A call of `mmap` gives the pages of its
  range new bytes, `munmap` takes them away, and no other byte changes.
-/
import BufferVM.Kernel.Interp
import BufferVM.Kernel.Offsets

set_option autoImplicit false

namespace BufferVM

variable {σ η : Type} {s t : St σ η} {E : Env σ η}

/-! ## What the bytes of the store come from -/

/-- What a byte of memory holds. -/
inductive PageByte where
  | zero
  /-- A byte of a file, by its place there. -/
  | file (dev inode : U64) (offset : U64)
  | other
  deriving DecidableEq, Repr

/-- What a page has been mapped to. -/
def PageMeaning.byte (m : PageMeaning) : PageByte :=
  match m.offset with
  | some offset => .file m.dev m.inode offset
  | none => .other

/-- What a VMA has at an address. -/
def St.byte (s : St σ η) (a : U64) : Option PageByte :=
  (s.view VmRegion.meaning a).map PageMeaning.byte

/-- All VMAs start and end at page addresses. -/
def PageEdges (s : St σ η) : Prop := EdgesIn (fun e => e.toNat % 4096 = 0) s.space

theorem St.byte_isSome (s : St σ η) (a : U64) : (s.byte a).isSome = true ↔ s.Covered a := by
  rw [St.byte, Option.isSome_map, St.view, BufferVM.view, Option.isSome_map, List.find?_isSome]
  simp only [decide_eq_true_eq]
  rfl

theorem PageEdges.aligned (h : PageEdges s) : ∀ r ∈ s.space.regions, r.Aligned := by
  intro r hr
  obtain ⟨x, hx, rfl⟩ := List.mem_map.mp hr
  exact ⟨(h x hx).1, (h x hx).2⟩

theorem Linked.byte_withHost {F : E.toNodeHeap.Fresh} (h : Linked F s) (host : η) (a : U64) :
    St.byte { s with host := host } a = s.byte a := by
  have hregions : St.regions { s with host := host } = s.regions := by
    rw [← St.space_regions, (h.withHost host).2, ← St.space_regions]
    rfl
  rw [St.byte, St.byte, St.view, St.view, hregions]

theorem Linked.pageEdges_withHost {F : E.toNodeHeap.Fresh} (h : Linked F s) (hal : PageEdges s)
    (host : η) : PageEdges { s with host := host } := by
  rw [PageEdges, (h.withHost host).2]
  exact hal

/-! ## One call -/

/-- A call has left a linked store with other bytes. -/
structure Paged {H : NodeHeap σ} (F : H.Fresh) (k : Nat) (s t : St σ η)
    (byte : U64 → Option PageByte) : Prop where
  linked : Linked F t
  edges : PageEdges t
  glob : t.glob = s.glob
  avail : F.avail s.heap ≤ F.avail t.heap + k
  byte : ∀ a, t.byte a = byte a

/-- The bytes after a mapping that has a VMA of its own. -/
def Request.bytes (q : Request) (byte : U64 → Option PageByte) (a : U64) : Option PageByte :=
  if q.addr ≤ a ∧ a < q.end' then some (q.fresh.meaning a).byte else byte a

/-- The bytes after a removal. -/
def clearBytes (addr end' : U64) (byte : U64 → Option PageByte) (a : U64) : Option PageByte :=
  if addr ≤ a ∧ a < end' then none else byte a

/-- The request asks for whole pages. -/
structure Request.Pages (q : Request) : Prop where
  addr_align : q.addr.toNat % 4096 = 0
  length_align : q.length.toNat % 4096 = 0
  length_pos : q.length ≠ 0#64
  no_wrap : q.addr.toNat + q.length.toNat < 2 ^ 64

theorem Request.Pages.inBounds {q : Request} (h : q.Pages) : InBounds (-1#64) q.addr q.length := by
  refine ⟨h.addr_align, h.length_align, h.length_pos, ?_⟩
  have hwrap := h.no_wrap
  have htop : (-1#64 : U64).toNat = 2 ^ 64 - 1 := by decide
  omega

section Calls

variable {F : E.toNodeHeap.Fresh} {q : Request}

theorem paged_of_map (h : Linked F s) (hal : PageEdges s) (hav : 3 ≤ F.avail s.heap)
    (hdup : DupSucceeds E) (hq : q.Pages) (hun : q.Unmerged s.regions) (ht : Linked F t)
    (hglob : t.glob = s.glob) (hspace : t.space = s.space.map E q) :
    Paged F 3 s t (q.bytes s.byte) := by
  have hb := hq.inBounds
  have hadd : q.end'.toNat % 4096 = 0 := hb.end_align
  have hav' : 2 ≤ F.avail s.space.heap := Nat.le_of_succ_le hav
  refine ⟨ht, ?_, hglob, ?_, fun a => ?_⟩
  · rw [PageEdges, hspace]
    exact EdgesIn.map hal h.sound hav hq.addr_align hadd
  · have havail := (h.sound.map (E := E) (q := q) hb.lt hav).2
    rw [← hspace] at havail
    exact havail
  · rw [St.byte, St.view, ← St.space_regions, hspace, view_map_unmerged h.sound hav hb (by
      rw [St.space_regions]
      exact hun), Request.bytes]
    by_cases hin : q.addr ≤ a ∧ a < q.end'
    · rw [if_pos hin, if_pos hin, meaning_mapRegionFields]
      rfl
    · rw [if_neg hin, if_neg hin, (view_unmap (splitStable_meaning hdup hq.addr_align)
        (splitStable_meaning hdup hadd) h.sound hav' hal.aligned).1 a, if_neg hin, St.byte, St.view,
        St.space_regions]

/-- A request that comes back without an error has been mapped: inside the bounds always, and
outside of them when there is no VMA in its way. -/
theorem Request.Pages.mapped (hq : q.Pages) (h : Linked F s) (hal : PageEdges s)
    (hav : 3 ≤ F.avail s.heap) (hdup : DupSucceeds E) (hun : q.Unmerged s.regions)
    {x : U64 × Ptr × St σ η} (hrun : q.run E s = some x) (hv : isErrValue x.1 = false) :
    x.1 = q.addr ∧ Paged F 3 s x.2.2 (q.bytes s.byte) := by
  by_cases hb : InBounds s.glob.kernelMinAddress q.addr q.length
  · obtain ⟨t, p, hrun', -, ht, hglob, hspace, -⟩ := h.mmapRegion (E := E) hav hb
    obtain rfl := Option.some.inj (hrun'.symm.trans hrun)
    exact ⟨rfl, paged_of_map h hal hav hdup hq hun ht hglob hspace⟩
  · have hrej := munmapRejects_of_not_inBounds hq.length_pos hq.length_align hb
    obtain ⟨a, hh⟩ := h.holds
    by_cases hover : overlapping q.addr q.end' s.space.areas = true
    · have hblocked : q.Blocked s := (hh.vmaFindLinks h.sound.sorted q.addr q.end').1 hover
      rw [Request.run_blocked hblocked hrej] at hrun
      obtain rfl := Option.some.inj hrun
      rw [isErrValue_eNOMEM] at hv
      cases hv
    · have hfree : ∀ y ∈ s.space.areas, y.2.endAddr ≤ q.addr ∨ q.end' ≤ y.2.startAddr := by
        intro y hy
        by_contra hc
        rw [not_or] at hc
        exact hover ((overlapping_iff h.sound.sorted).mpr
          ⟨y, hy, BitVec.not_le.mp hc.1, BitVec.not_le.mp hc.2⟩)
      obtain ⟨t, p, hrun', ht, hglob, hspace⟩ := h.run_free (E := E) (by omega) hq.inBounds.lt hfree
      obtain rfl := Option.some.inj (hrun'.symm.trans hrun)
      have hunmap : s.space.unmap E q.addr q.end' = s.space := by
        rw [Space.unmap, if_neg hover]
      refine ⟨rfl, paged_of_map h hal hav hdup hq hun ht hglob ?_⟩
      rw [Space.map, hunmap]
      exact hspace

/-- A removal inside the bounds, or one of nothing. -/
theorem paged_munmap (h : Linked F s) (hal : PageEdges s) (hav : 3 ≤ F.avail s.heap)
    (hdup : DupSucceeds E) {addr length : U64} {error : Int}
    (hin : length ≠ 0#64 → InBounds s.glob.kernelMinAddress addr length)
    (hrun : syscallMunmap E addr length s = some (error, t)) :
    Paged F 3 s t (clearBytes addr (addr + length) s.byte) := by
  by_cases hlen : length = 0#64
  · have hrej : munmapRejects s.glob.kernelMinAddress addr length = true := by
      simp [munmapRejects, hlen]
    rw [syscallMunmap_rejected hrej] at hrun
    obtain ⟨-, rfl⟩ := Prod.mk.inj (Option.some.inj hrun)
    refine ⟨h, hal, rfl, Nat.le_add_right _ _, fun a => ?_⟩
    rw [clearBytes, hlen, BitVec.add_zero, if_neg fun hc => absurd hc.2 (BitVec.not_lt.mpr hc.1)]
  · have hb := hin hlen
    obtain ⟨a, hh⟩ := h.holds
    obtain ⟨u, b, hu, hcar⟩ := Op.run_spec F hh h.sound hav (.munmap addr length) hb
    have hsound : Sound F ((Op.munmap addr length).space E s.space) := Op.sound_space h.sound hav hb
    obtain ⟨hlinked, hspace⟩ := hcar.holds.linked hsound
    have hut : u = t := by
      rw [Op.run, hrun] at hu
      exact (Option.some.inj hu).symm
    subst hut
    have hav' : 2 ≤ F.avail s.space.heap := Nat.le_of_succ_le hav
    have hadd : (addr + length).toNat % 4096 = 0 := hb.edges.2.align
    refine ⟨hlinked, ?_, hcar.glob, ?_, fun a => ?_⟩
    · rw [PageEdges, hspace]
      exact EdgesIn.unmap hal h.sound hav' hb.addr_align hadd
    · have havail := (Op.munmap addr length).avail_space F h.sound hav hb
      rw [← hspace] at havail
      exact havail
    · have hview := (view_unmap (splitStable_meaning hdup hb.addr_align)
        (splitStable_meaning hdup hadd) h.sound hav' hal.aligned).1 a
      rw [St.byte, St.view, ← St.space_regions, hspace, clearBytes]
      rw [show (Op.munmap addr length).space E s.space = s.space.unmap E addr
        (addr + length) from rfl,
        hview, St.byte, St.view, St.space_regions]
      split
      · rfl
      · rfl

end Calls

/-! ## `syscall_mmap` of the program's file -/

/-- A duplicate of the descriptor is one of the same file. -/
def IsFile (E : Env σ η) (fd : BitVec 32) (dev inode : U64) : Prop :=
  ∀ host, (E.fstat (E.dup host fd).1 (E.dup host fd).2).2 = (dev, inode)

/-- The bytes after a mapping of a file. -/
def fileBytes (dev inode addr length offset : U64) (byte : U64 → Option PageByte) (a : U64) :
    Option PageByte :=
  if a - addr < length then some (.file dev inode (offset + (a - addr))) else byte a

section File

variable {F : E.toNodeHeap.Fresh} {x y : Loader σ η} {stray addr length prot flags offset v : U64}
  {fd : BitVec 32} {dev inode : U64}

theorem Request.bytes_file {q : Request} (hq : q.Pages) (hfd : q.fileInfo.fd ≠ noFd)
    (hdev : q.fileInfo.dev = dev) (hinode : q.fileInfo.inode = inode)
    (byte : U64 → Option PageByte) (a : U64) :
    q.bytes byte a = fileBytes dev inode q.addr q.length q.offset byte a := by
  have hwrap := hq.no_wrap
  have hrange : (q.addr ≤ a ∧ a < q.end') ↔ a - q.addr < q.length := by
    rw [Request.end']
    bv_omega
  have hbyte : (q.fresh.meaning a).byte = .file dev inode (q.offset + (a - q.addr)) := by
    subst hdev hinode
    rw [VmRegion.meaning, if_pos (show q.fresh.fileInfo.fd ≠ noFd from hfd)]
    rfl
  rw [Request.bytes, fileBytes, hbyte]
  simp only [hrange]

/-- A mapping of the file that comes back without an error and is not merged. -/
theorem Loader.mmap_file (h : Linked F x.store) (hal : PageEdges x.store)
    (hav : 3 ≤ F.avail x.store.heap) (hdup : DupSucceeds E) (hfd : fd ≠ noFd)
    (hfile : IsFile E fd dev inode)
    (hplace : ∀ a, getUnmappedArea stray addr (pageAlign length) flags x.store = some a →
      isErrValue a = false → a.toNat % 4096 = 0 ∧ a.toNat + (pageAlign length).toNat < 2 ^ 64)
    (hun : ∀ q host, mmapPrepare E stray addr length prot flags fd offset x.store =
      some (some q, host) → q.Unmerged x.store.regions)
    (hrun : x.mmap E stray addr length prot flags fd offset = some (v, y))
    (hv : isErrValue v = false) :
    getUnmappedArea stray addr (pageAlign length) flags x.store = some v ∧ y.placed = x.placed ∧
      y.calls = x.calls ++ [.mmap addr length flags v] ∧
      Paged F 3 x.store y.store
        (fileBytes dev inode v (pageAlign length) offset x.store.byte) := by
  simp only [Loader.mmap, Option.bind_eq_bind, Option.bind_eq_some_iff] at hrun
  obtain ⟨⟨w, t⟩, hmap, hrun⟩ := hrun
  obtain ⟨rfl, rfl⟩ := Prod.mk.inj (Option.some.inj hrun)
  rw [syscallMmap_eq, Option.bind_eq_some_iff] at hmap
  obtain ⟨⟨q, host⟩, hprep, hmap⟩ := hmap
  cases q with
  | none =>
      have hval : eINVAL = w := congrArg Prod.fst (Option.some.inj hmap)
      rw [← hval, isErrValue_eINVAL] at hv
      cases hv
  | some q =>
      obtain ⟨z, hz, hzt⟩ := Option.map_eq_some_iff.mp hmap
      obtain ⟨hlen, hpos, hlal, haddr, hinfo⟩ := mmapPrepare_length hprep
      have hoff := mmapPrepare_offset hfd hprep
      obtain ⟨hval, htz⟩ := Prod.mk.inj hzt
      have hzv : isErrValue z.1 = false := by
        rw [hval]
        exact hv
      have hzq : z.1 = q.addr := by
        rcases Request.run_value hz with heq | heq
        · exact heq
        · rw [heq, isErrValue_eNOMEM] at hzv
          cases hzv
      obtain ⟨halign, hwrap⟩ := hplace q.addr haddr (by
        rw [← hzq]
        exact hzv)
      rw [← hlen] at hwrap
      have hq : q.Pages := ⟨halign, hlal, hpos, hwrap⟩
      have hinfo' : q.fileInfo = (mmapFile E x.store.host fd).1 := congrArg Prod.fst hinfo
      have hdupFd : q.fileInfo.fd ≠ noFd := by
        rw [hinfo', mmapFile, if_pos hfd]
        exact hdup.file _ _ hfd
      have hstat : q.fileInfo.dev = dev ∧ q.fileInfo.inode = inode := by
        have hfs := hfile x.store.host
        rw [hinfo', mmapFile, if_pos hfd]
        exact ⟨congrArg Prod.fst hfs, congrArg Prod.snd hfs⟩
      obtain ⟨hlinked, -⟩ := h.withHost host
      have hregions : St.regions { x.store with host := host } = x.store.regions := by
        rw [← St.space_regions, (h.withHost host).2, ← St.space_regions]
        rfl
      obtain ⟨-, hpaged⟩ := hq.mapped hlinked (h.pageEdges_withHost hal host) hav hdup (by
        rw [hregions]
        exact hun q host hprep) hz hzv
      subst htz
      rw [← hval, hzq]
      refine ⟨haddr, rfl, rfl, hpaged.linked, hpaged.edges, hpaged.glob, hpaged.avail, fun a => ?_⟩
      rw [hpaged.byte, Request.bytes_file hq hdupFd hstat.1 hstat.2, hlen, hoff, fileBytes,
        fileBytes,
        h.byte_withHost]

end File

end BufferVM
