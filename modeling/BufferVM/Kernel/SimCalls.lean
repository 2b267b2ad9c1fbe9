/-
  Kernel/SimCalls.lean --- system calls and faults on a linked store.

  `Linked` is the part of the store's invariant that lookups, insertions and removals
  rest on: the links thread the VMAs in order and the allocator knows the nodes.  It
  leaves the gaps out, which `syscall_brk` does not keep.  Each call is described here by
  what it does to the address space of the store.
-/
import BufferVM.Kernel.Meaning
import BufferVM.Kernel.SpaceEdges
import BufferVM.Kernel.Syscall

set_option autoImplicit false

namespace BufferVM

open PtrTree PtrTree.PTree PtrList

variable {σ η : Type} {s t : St σ η} {E : Env σ η} {A : Space σ η} {addr length : U64}

/-! ## Linked stores -/

/-- The links thread the VMAs of the store, which are in order and in use. -/
structure Linked {H : NodeHeap σ} (F : H.Fresh) (s : St σ η) : Prop where
  holds : ∃ a, Holds s s.space a
  sound : Sound F s.space

/-- A store holds one address space only. -/
theorem Holds.space_eq {a : PTree Ptr} (h : Holds s A a) : s.space = A := by
  have hareas : areasAt s s.nodes = A.areas := by
    rw [h.laid.nodes_eq, areasAt, Space.nodes, List.map_map]
    refine (List.map_congr_left fun x hx => ?_).trans (List.map_id _)
    exact Prod.ext rfl (h.region x hx)
  rw [St.space, hareas, h.heap, h.host]

theorem Holds.linked {F : E.toNodeHeap.Fresh} {a : PTree Ptr} (h : Holds s A a)
    (hso : Sound F A) : Linked F s ∧ s.space = A := by
  have hsp := h.space_eq
  exact ⟨⟨⟨a, hsp.symm ▸ h⟩, hsp.symm ▸ hso⟩, hsp⟩

theorem Valid.linked (F : E.toNodeHeap.Fresh) (h : Valid s) (ho : NodesOwned F s) : Linked F s := by
  obtain ⟨a, hh, -, hso⟩ := h.step F ho rfl
  exact ⟨⟨a, hh⟩, hso⟩

/-- The host state of the store is not part of its links. -/
theorem Linked.withHost {F : E.toNodeHeap.Fresh} (h : Linked F s) (host : η) :
    Linked F { s with host := host } ∧
      St.space { s with host := host } = { s.space with host := host } := by
  obtain ⟨a, hh⟩ := h.holds
  have hh' : Holds { s with host := host } { s.space with host := host } a :=
    ⟨hh.laid.of_tree rfl rfl, hh.region, hh.heap, rfl⟩
  exact hh'.linked (F := F) ⟨h.sound.sorted, h.sound.nodup, h.sound.owned⟩

/-- The globals of the store are not part of its links. -/
theorem Linked.withGlob {F : E.toNodeHeap.Fresh} (h : Linked F s) (glob : Globals) :
    Linked F { s with glob := glob } ∧ St.space { s with glob := glob } = s.space := by
  obtain ⟨a, hh⟩ := h.holds
  have hh' : Holds { s with glob := glob } s.space a :=
    ⟨hh.laid.of_tree rfl rfl, hh.region, hh.heap, hh.host⟩
  exact hh'.linked (F := F) h.sound

theorem St.mem_space_areas (p : Ptr) (r : VmRegion) :
    (p, r) ∈ s.space.areas ↔ p ∈ s.nodes ∧ s.region p = r := by
  simp only [St.space, areasAt, List.mem_map, Prod.mk.injEq]
  constructor
  · rintro ⟨q, hq, rfl, rfl⟩
    exact ⟨hq, rfl⟩
  · rintro ⟨hp, rfl⟩
    exact ⟨p, hp, rfl, rfl⟩

/-! ## `syscall_munmap` -/

/-- The ranges that `syscall_munmap` accepts are inside the bounds. -/
theorem inBounds_of_accept {kernelMinAddress : U64} (hk : kernelMinAddress.toNat % 4096 = 0)
    (h : munmapRejects kernelMinAddress addr length = false) :
    InBounds kernelMinAddress addr (pageAlign length) := by
  obtain ⟨h1, h2, -, h4⟩ := munmap_no_wrap hk h
  refine ⟨h1, ?_, fun h0 => ?_, h4⟩
  · rw [toNat_pageAlign]
    omega
  · rw [h0] at h2
    simp at h2

theorem syscallMunmap_rejected (h : munmapRejects s.glob.kernelMinAddress addr length = true) :
    syscallMunmap E addr length s = some (intEINVAL, s) := by
  rw [syscallMunmap, if_pos h]

theorem Linked.munmap {F : E.toNodeHeap.Fresh} (h : Linked F s) (hav : 2 ≤ F.avail s.heap)
    (hk : s.glob.kernelMinAddress.toNat % 4096 = 0)
    (hacc : munmapRejects s.glob.kernelMinAddress addr length = false) :
    ∃ t, syscallMunmap E addr length s = some (0, t) ∧ Linked F t ∧ t.glob = s.glob ∧
      t.space = s.space.unmap E addr (addr + pageAlign length) := by
  obtain ⟨a, hh⟩ := h.holds
  obtain ⟨t, b, hrun, hcar⟩ := syscallMunmap_spec F hh h.sound hav hacc rfl
    (inBounds_of_accept hk hacc).lt
  obtain ⟨hl, hsp⟩ := hcar.holds.linked (h.sound.unmap _ _ hav).1
  exact ⟨t, hrun, hl, hcar.glob, hsp⟩

/-! ## `mmap_region` -/

/-- Call `mmap_region` with the fields of a request. -/
def Request.run (E : Env σ η) (q : Request) (s : St σ η) : Option (U64 × Ptr × St σ η) :=
  mmapRegion E (some q.fileInfo) q.addr q.length q.flags q.prot q.offset s

/-- `vma_find_links` finds a VMA in the way of the request. -/
def Request.Blocked (q : Request) (s : St σ η) : Prop := vmaFindLinks q.addr q.end' s = some none

/-- The search for a place does not look at the host. -/
theorem vmaFindLinks_withHost (addr end' : U64) (s : St σ η) (host : η) :
    vmaFindLinks addr end' { s with host := host } = vmaFindLinks addr end' s := by
  have hloop : ∀ (fuel : Nat) (node : Ptr) (found : FindLinks),
      vmaFindLinksLoop addr end' fuel node found { s with host := host } =
        vmaFindLinksLoop addr end' fuel node found s := by
    intro fuel
    induction fuel with
    | zero => intro node found; rfl
    | succ n ih =>
        intro node found
        unfold vmaFindLinksLoop
        rw [ih, ih]
        rfl
  exact hloop _ _ _

theorem Linked.mmapRegion {F : E.toNodeHeap.Fresh} {q : Request} (h : Linked F s)
    (hav : 3 ≤ F.avail s.heap) (hq : InBounds s.glob.kernelMinAddress q.addr q.length) :
    ∃ t p, q.run E s = some (q.addr, p, t) ∧ p ≠ 0#64 ∧ Linked F t ∧ t.glob = s.glob ∧
      t.space = s.space.map E q ∧ p = (s.space.unmap E q.addr q.end').placedNode E q := by
  obtain ⟨a, hh⟩ := h.holds
  obtain ⟨t, b, hrun, h0, hcar⟩ := mmapRegion_spec (some q.fileInfo) F hh h.sound hav
    (InBounds.request hq) rfl
  obtain ⟨hl, hsp⟩ := hcar.holds.linked (h.sound.map hq.lt hav).1
  exact ⟨t, _, hrun, h0, hl, hcar.glob, hsp, rfl⟩

/-- A place that is found at once is not cleared. -/
theorem clearRange_found {q : Request} {found : FindLinks}
    (h : vmaFindLinks q.addr q.end' s = some (some found)) :
    clearRange E q.addr q.length walkBound s = some (some found, s) := by
  show clearRange E q.addr q.length (walkBound - 1 + 1) s = _
  rw [clearRange, ← Request.end', h]
  rfl

/-- A request out of the bounds that a VMA is in the way of fails before anything is
changed. -/
theorem Request.run_blocked {q : Request} (hb : q.Blocked s)
    (hrej : munmapRejects s.glob.kernelMinAddress q.addr q.length = true) :
    q.run E s = some (eNOMEM, 0#64, s) := by
  have hclear : clearRange E q.addr q.length walkBound s = some (none, s) := by
    show clearRange E q.addr q.length (walkBound - 1 + 1) s = _
    rw [clearRange, ← Request.end', hb]
    simp [syscallMunmap_rejected hrej, intEINVAL]
  simp [Request.run, BufferVM.mmapRegion, hclear]

/-- A request in whose way there is no VMA is placed at once. -/
theorem Linked.run_free {F : E.toNodeHeap.Fresh} {q : Request} (h : Linked F s)
    (hav : 1 ≤ F.avail s.heap) (hlt : q.addr < q.end')
    (hfree : ∀ x ∈ s.space.areas, x.2.endAddr ≤ q.addr ∨ q.end' ≤ x.2.startAddr) :
    ∃ t p, q.run E s = some (q.addr, p, t) ∧ Linked F t ∧ t.glob = s.glob ∧
      t.space = s.space.place E q := by
  obtain ⟨a, hh⟩ := h.holds
  have hover : overlapping q.addr q.end' s.space.areas = false := by
    rw [Bool.eq_false_iff]
    intro hov
    obtain ⟨x, hx, h1, h2⟩ := (overlapping_iff h.sound.sorted).mp hov
    have := hfree x hx
    bv_omega
  obtain ⟨c, par, hfind, hlink⟩ := (hh.vmaFindLinks h.sound.sorted q.addr q.end').2 hover
  obtain ⟨t, b, hrun, -, hcar⟩ := mergeOrLink_spec F hh h.sound hav hlink hlt hfree
  obtain ⟨hl, hsp⟩ := hcar.holds.linked (h.sound.place hlt hfree hav).1
  refine ⟨t, s.space.placedNode E q, ?_, hl, hcar.glob, hsp⟩
  simp [Request.run, BufferVM.mmapRegion, clearRange_found hfind, hrun]

/-- A page address is below every error value. -/
theorem above_of_isErrValue {A : Space σ η} {e : U64}
    (hal : EdgesIn (fun x => x.toNat % 4096 = 0) A) (he : isErrValue e = true) :
    below e A.areas = A.areas ∧ above e A.areas = [] := by
  have hle : ∀ x ∈ A.areas, decide (x.2.endAddr ≤ e) = true := by
    intro x hx
    have hlt := lt_of_isErrValue he (hal x hx).2
    rw [decide_eq_true_eq]
    bv_omega
  exact ⟨List.takeWhile_eq_self_iff.mpr hle, List.dropWhile_eq_nil_iff.mpr hle⟩

/-- A request at an error value is served, with a VMA of its own behind all others. -/
theorem Linked.run_isErrValue {F : E.toNodeHeap.Fresh} {q : Request} (h : Linked F s)
    (hal : EdgesIn (fun x => x.toNat % 4096 = 0) s.space) (hav : 1 ≤ F.avail s.heap)
    (he : isErrValue q.addr = true) :
    ∃ p r t, q.run E s = some (q.addr, p, t) ∧ t.space.areas = s.space.areas ++ [(p, r)] := by
  obtain ⟨a, hh⟩ := h.holds
  obtain ⟨hbelow, habove⟩ := above_of_isErrValue hal he
  have hover : overlapping q.addr q.end' s.space.areas = false := by
    rw [overlapping, habove]
  obtain ⟨c, par, hfind, hlink⟩ := (hh.vmaFindLinks h.sound.sorted q.addr q.end').2 hover
  have hprev : (foundAt c par).prev = lastPtr 0#64 ((below q.addr s.space.areas).map Prod.fst) := by
    rw [← hlink.before]
    rfl
  -- no VMA ends at an address that is not a page address
  have hjoin : ∀ x ∈ s.space.areas, q.joinsPrev x.2 = false := by
    intro x hx
    have hne : x.2.endAddr ≠ q.addr := by
      intro hc
      exact not_aligned_of_isErrValue he (hc ▸ (hal x hx).2)
    simp [Request.joinsPrev, hne]
  have hmerge : vmaMerge E (foundAt c par).prev q.addr q.end' q.flags q.fileInfo q.offset s =
      some (0#64, s) := by
    have hjp : ((below q.addr s.space.areas).getLast?.filter fun x => q.joinsPrev x.2).isSome =
        false := by
      rw [hbelow]
      cases hlast : s.space.areas.getLast? with
      | none => rfl
      | some x => simp [Option.filter, hjoin x (List.mem_of_getLast? hlast)]
    have hjn : ((above q.addr s.space.areas).head?.filter fun x => q.joinsNext x.2).isSome =
        false := by
      rw [habove]
      rfl
    rw [vmaMerge_eq hh h.sound.sorted (by rw [habove]; simp) hprev rfl hjp hjn]
    rfl
  obtain ⟨t, b, hrun, -, hcar⟩ := mergeOrLink_fresh F hh h.sound hav hlink hmerge
  refine ⟨(E.alloc s.space.heap).1, mapRegionFields E s.space.host q.fresh, t, ?_, ?_⟩
  · simp [Request.run, BufferVM.mmapRegion, clearRange_found hfind, hrun]
  · rw [hcar.holds.space_eq]
    simp [hbelow, habove]

/-! ## `syscall_mmap` -/

/-- The descriptor that `syscall_mmap` keeps, and the host after it has been made. -/
def mmapFile (E : Env σ η) (host : η) (fd : BitVec 32) : VmFile × η :=
  if fd ≠ noFd then
    let dup := E.dup host fd
    let stat := E.fstat dup.1 dup.2
    ({ fd := dup.2, dev := stat.2.1, inode := stat.2.2 }, stat.1)
  else (nullFileInfo, host)

/-- The checks of `syscall_mmap` on its offset and its length. -/
def mmapArgsRejected (length offset : U64) : Bool :=
  decide (pageOffset offset ≠ 0#64) || decide (length = 0#64) || decide (pageAlign length = 0#64)

/-- Everything `syscall_mmap` does before it calls `mmap_region`: the request it calls it
with, or none when it returns `-EINVAL`, and the host after the calls on the descriptor. -/
def mmapPrepare (E : Env σ η) (stray addr length prot flags : U64) (fd : BitVec 32)
    (offset : U64) (s : St σ η) : Option (Option Request × η) :=
  if mmapArgsRejected length offset then some (none, s.host)
  else do
    let addr ← getUnmappedArea stray addr (pageAlign length) flags s
    let file := mmapFile E s.host fd
    some ((mmapType (decide (fd = noFd)) flags (flagToVma flags) offset).map fun x =>
      { fileInfo := file.1
        addr := addr
        length := pageAlign length
        flags := x.1
        prot := protToVma prot ||| transferFlag flags mapAnonymous vmaIsVersioned
        offset := x.2 }, file.2)

/-- `syscall_mmap` is the preparation followed by `mmap_region`. -/
theorem syscallMmap_eq (stray addr length prot flags : U64) (fd : BitVec 32) (offset : U64)
    (s : St σ η) :
    syscallMmap E stray addr length prot flags fd offset s =
      (mmapPrepare E stray addr length prot flags fd offset s).bind fun x =>
        match x.1 with
        | none => some (eINVAL, { s with host := x.2 })
        | some q => (q.run E { s with host := x.2 }).map fun y => (y.1, y.2.2) := by
  unfold syscallMmap mmapPrepare mmapArgsRejected
  by_cases h1 : pageOffset offset = 0#64
  · by_cases h2 : length = 0#64
    · simp [h1, h2]
    · by_cases h3 : pageAlign length = 0#64
      · simp [h1, h2, h3]
      · simp only [h1, h2, h3, ne_eq, not_true_eq_false, if_false, decide_false, Bool.or_self,
          Bool.false_eq_true, Option.bind_eq_bind]
        cases getUnmappedArea stray addr (pageAlign length) flags s with
        | none => rfl
        | some a =>
            by_cases hfd : fd = noFd
            · simp only [hfd, not_true_eq_false, if_false, decide_true, Option.bind_some]
              cases mmapType true flags (flagToVma flags) offset with
              | none => simp [mmapFile]
              | some x => simp [mmapFile, Request.run, Option.map_eq_bind]
            · simp only [hfd, not_false_eq_true, if_true, decide_false, Option.bind_some]
              cases mmapType false flags (flagToVma flags) offset with
              | none => simp [mmapFile, hfd]
              | some x =>
                  simp [mmapFile, hfd, Request.run, Option.map_eq_bind]
  · simp [h1]

/-- The length of a prepared request is a positive number of whole pages. -/
theorem mmapPrepare_length {stray addr length prot flags : U64} {fd : BitVec 32} {offset : U64}
    {q : Request} {host : η}
    (h : mmapPrepare E stray addr length prot flags fd offset s = some (some q, host)) :
    q.length = pageAlign length ∧ q.length ≠ 0#64 ∧ q.length.toNat % 4096 = 0 ∧
      getUnmappedArea stray addr (pageAlign length) flags s = some q.addr ∧
      (q.fileInfo, host) = mmapFile E s.host fd := by
  unfold mmapPrepare at h
  by_cases hrej : mmapArgsRejected length offset = true
  · simp [hrej] at h
  · rw [if_neg hrej] at h
    simp only [mmapArgsRejected, Bool.or_eq_true, decide_eq_true_eq, not_or] at hrej
    simp only [Option.bind_eq_bind, Option.bind_eq_some_iff] at h
    obtain ⟨a, ha, h⟩ := h
    obtain ⟨hq, rfl⟩ := Prod.mk.inj (Option.some.inj h)
    obtain ⟨x, -, rfl⟩ := Option.map_eq_some_iff.mp hq
    refine ⟨rfl, hrej.2, ?_, ha, rfl⟩
    simp only [toNat_pageAlign]
    omega

/-! ## One VMA resized -/

/-- The bounds that an area may be given: it keeps one of its own, and it stays between
its neighbours. -/
structure Resizes (kernelMinAddress : U64) (A : Space σ η) (l₁ : List Area) (p : Ptr) (r : VmRegion)
    (l₂ : List Area) (start end' : U64) : Prop where
  areas : A.areas = l₁ ++ (p, r) :: l₂
  keeps : start = r.startAddr ∨ (end' = r.endAddr ∧ start < r.startAddr)
  lt : start < end'
  front : ∀ x ∈ l₁, x.2.endAddr ≤ start
  back : ∀ x ∈ l₂, end' ≤ x.2.startAddr
  start_align : start = r.startAddr ∨ start.toNat % 4096 = 0
  end_align : end' = r.endAddr ∨ end'.toNat % 4096 = 0
  le : end' = r.endAddr ∨ end' ≤ kernelMinAddress

/-- The address space after an area has been given other bounds. -/
def Space.resize (E : Env σ η) (l₁ : List Area) (p : Ptr) (r : VmRegion) (l₂ : List Area)
    (start end' : U64) (A : Space σ η) : Space σ η :=
  A.regrow E l₁ p { r with startAddr := start, endAddr := end' } l₂

theorem Linked.resize {F : E.toNodeHeap.Fresh} (h : Linked F s) {p : Ptr} (hp : p ∈ s.nodes)
    (k : VmRegion) :
    ∃ l₁ l₂ v, s.space.areas = l₁ ++ (p, s.region p) :: l₂ ∧
      (s.vma p).next = headPtr 0#64 (l₂.map Prod.fst) ∧
      vmaGapUpdate p (s.setRegion p k) = some v ∧ v.glob = s.glob ∧
      (k.startAddr < k.endAddr → (∀ x ∈ l₁, x.2.endAddr ≤ k.startAddr) →
        (∀ x ∈ l₂, k.endAddr ≤ x.2.startAddr) →
        Linked F (kernelMapVma E p v) ∧
          (kernelMapVma E p v).space = s.space.regrow E l₁ p k l₂) := by
  obtain ⟨a, hh⟩ := h.holds
  have hmem : (p, s.region p) ∈ s.space.areas := (St.mem_space_areas _ _).mpr ⟨hp, rfl⟩
  obtain ⟨l₁, l₂, hA⟩ := List.append_of_mem hmem
  have hpmem : p ∈ s.space.nodes := by rw [St.space_nodes]; exact hp
  have hp0 : p ≠ 0#64 := hh.laid.ne_null p hpmem
  obtain ⟨v, hrun, hv, hdata, -⟩ := mendGap_spec p 0#64 (hh.laid.setRegion p k) (fun _ => hpmem)
  rw [if_pos hp0] at hrun
  refine ⟨l₁, l₂, v, hA, hh.next_eq hA, hrun, congrArg (fun x => x.2.2.2) hdata, ?_⟩
  intro hlt hfront hback
  exact (hh.regrow (E := E) hA hv hdata).linked (h.sound.regrow hA hlt hfront hback)

end BufferVM
