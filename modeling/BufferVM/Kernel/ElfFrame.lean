/-
  Kernel/ElfFrame.lean --- what the calls of the loader leave alone.

  A call on a range changes what is covered in the range only, and the loader calls the kernel
  on ranges in the pages of the image.
-/
import BufferVM.Kernel.ElfLoad
import BufferVM.Kernel.GapSearch
import BufferVM.Kernel.SimCalls

set_option autoImplicit false

namespace BufferVM

variable {σ η : Type} {s t : St σ η} {E : Env σ η}

/-! ## The frame of one call -/

/-- A call on a range has left a linked store, with the same addresses covered outside of it. -/
structure Framed {H : NodeHeap σ} (F : H.Fresh) (s t : St σ η) (addr length : U64) : Prop where
  linked : Linked F t
  glob : t.glob = s.glob
  avail : F.avail s.heap ≤ F.avail t.heap + 3
  covered : ∀ a, ¬ (addr ≤ a ∧ a < addr + length) → (t.Covered a ↔ s.Covered a)

section Frame

variable {F : E.toNodeHeap.Fresh} {addr length : U64}

theorem Op.avail_space (F : E.toNodeHeap.Fresh) {A : Space σ η} (hso : Sound F A)
    (hav : 3 ≤ F.avail A.heap) {op : Op} {kernelMinAddress : U64}
    (hop : InBounds kernelMinAddress op.addr op.length) :
    F.avail A.heap ≤ F.avail (op.space E A).heap + 3 := by
  cases op with
  | mmapRegion fileInfo addr length flags prot offset => exact (hso.map hop.lt hav).2
  | doBrk addr length flags =>
      have halign : pageAlign length = length := pageAlign_of_aligned hop.length_align
      refine (hso.map ?_ hav).2
      simp only [Op.request, Request.end', brkRequest, halign]
      exact hop.lt
  | munmap addr length =>
      have hle := (hso.unmap (E := E) addr (addr + length) (by omega)).2
      exact hle.trans (Nat.add_le_add_left (by decide) _)

/-- Every call inside the bounds is framed by its range. -/
theorem Linked.framed (h : Linked F s) (hav : 3 ≤ F.avail s.heap) (op : Op)
    (hop : InBounds s.glob.kernelMinAddress op.addr op.length) :
    ∃ t, op.run E s = some t ∧ Framed F s t op.addr op.length := by
  obtain ⟨a, hh⟩ := h.holds
  obtain ⟨t, b, hrun, hcar⟩ := op.run_spec F hh h.sound hav hop
  obtain ⟨hlinked, hspace⟩ := hcar.holds.linked (op.sound_space h.sound hav hop)
  refine ⟨t, hrun, hlinked, hcar.glob, ?_, fun x hx => ?_⟩
  · have havail := op.avail_space F h.sound hav hop
    rw [← hspace] at havail
    exact havail
  · have hcov := op.covered_space (E := E) h.sound hav hop x
    rw [← hspace, St.space_regions, St.space_regions] at hcov
    refine hcov.trans ?_
    cases op with
    | munmap addr length => exact and_iff_left hx
    | mmapRegion fileInfo addr length flags prot offset => exact or_iff_left hx
    | doBrk addr length flags => exact or_iff_left hx

/-- The state of the host is not looked at. -/
theorem Linked.covered_withHost (h : Linked F s) (host : η) (a : U64) :
    St.Covered { s with host := host } a ↔ s.Covered a := by
  have hspace := (h.withHost host).2
  have hregions : St.regions { s with host := host } = s.regions := by
    rw [← St.space_regions, hspace, ← St.space_regions]
    rfl
  rw [St.Covered, St.Covered, hregions]

/-! ## `syscall_mmap` -/

theorem Request.run_value {q : Request} {x : U64 × Ptr × St σ η} (hrun : q.run E s = some x) :
    x.1 = q.addr ∨ x.1 = eNOMEM := by
  unfold Request.run mmapRegion at hrun
  simp only [Option.bind_eq_bind, Option.bind_eq_some_iff] at hrun
  obtain ⟨⟨found, u⟩, -, hrun⟩ := hrun
  cases found with
  | none =>
      right
      rw [← Option.some.inj hrun]
  | some f =>
      simp only [Option.bind_eq_some_iff] at hrun
      obtain ⟨y, -, hrun⟩ := hrun
      left
      rw [← Option.some.inj hrun]

theorem isErrValue_eNOMEM : isErrValue eNOMEM = true := by decide

theorem isErrValue_eINVAL : isErrValue eINVAL = true := by decide

/-- A mapping that returns no error is framed by the range that was found for it. -/
theorem framed_mmap (h : Linked F s) (hav : 3 ≤ F.avail s.heap)
    {stray prot flags offset v : U64} {fd : BitVec 32}
    (hplace : ∀ a, getUnmappedArea stray addr (pageAlign length) flags s = some a →
      isErrValue a = false → InBounds s.glob.kernelMinAddress a (pageAlign length))
    (hrun : syscallMmap E stray addr length prot flags fd offset s = some (v, t))
    (hv : isErrValue v = false) :
    getUnmappedArea stray addr (pageAlign length) flags s = some v ∧
      Framed F s t v (pageAlign length) := by
  rw [syscallMmap_eq, Option.bind_eq_some_iff] at hrun
  obtain ⟨⟨q, host⟩, hprep, hrun⟩ := hrun
  cases q with
  | none =>
      have hval : eINVAL = v := congrArg Prod.fst (Option.some.inj hrun)
      rw [← hval, isErrValue_eINVAL] at hv
      cases hv
  | some q =>
      obtain ⟨y, hy, hyt⟩ := Option.map_eq_some_iff.mp hrun
      obtain ⟨hlen, -, -, haddr, -⟩ := mmapPrepare_length hprep
      have hval : y.1 = v := congrArg Prod.fst hyt
      have hyq : v = q.addr := by
        rcases Request.run_value hy with heq | heq
        · rw [← hval, heq]
        · rw [← hval, heq, isErrValue_eNOMEM] at hv
          cases hv
      rw [← hyq] at haddr
      refine ⟨haddr, ?_⟩
      have hin := hplace v haddr hv
      rw [hyq, ← hlen] at hin
      obtain ⟨hlinked, -⟩ := h.withHost host
      obtain ⟨u, hu, hframed⟩ := hlinked.framed (E := E) hav
        (.mmapRegion (some q.fileInfo) q.addr q.length q.flags q.prot q.offset) hin
      have hut : u = t := by
        have hy' : Op.run E (.mmapRegion (some q.fileInfo) q.addr q.length q.flags q.prot q.offset)
            { s with host := host } = some y.2.2 := by
          rw [Op.run, Option.map_eq_some_iff]
          exact ⟨y, hy, rfl⟩
        rw [hu] at hy'
        rw [Option.some.inj hy']
        exact congrArg Prod.snd hyt
      subst hut
      rw [hyq, ← hlen]
      exact ⟨hframed.linked, hframed.glob, hframed.avail,
        fun a ha => (hframed.covered a ha).trans (h.covered_withHost host a)⟩

theorem getUnmappedArea_fixed (stray addr length : U64) {flags : U64}
    (hflags : flags &&& mapFixed ≠ 0#64) :
    getUnmappedArea stray addr length flags s = some addr := by
  rw [getUnmappedArea, if_pos hflags]

/-- Without a hint the range is free, and it is inside the bounds unless an error is returned. -/
theorem getUnmappedArea_search (hs : Searchable s) (hlen : 0 < length)
    (hlength : length.toNat % 4096 = 0) (hmin : s.glob.userStackMin ≤ s.glob.kernelMinAddress)
    {stray flags a : U64} (hflags : flags &&& mapFixed = 0#64)
    (ha : getUnmappedArea stray 0#64 length flags s = some a) (hval : isErrValue a = false) :
    InBounds s.glob.kernelMinAddress a length ∧ FreeAt s length a := by
  obtain ⟨r, hr, hgap⟩ := hs.findNextGap 0#64 s.glob.userStackMin hlen
  simp only [getUnmappedArea, getUnmappedAreaUnchecked, hflags, ne_eq, not_true_eq_false, if_false,
    if_true, Option.bind_eq_bind, hr, Option.bind_some] at ha
  split at ha
  · rw [← Option.some.inj ha, isErrValue_eNOMEM] at hval
    cases hval
  · split at ha
    · rw [← Option.some.inj ha, isErrValue_eINVAL] at hval
      cases hval
    · rename_i hoff
      obtain rfl := Option.some.inj ha
      rcases hgap with ⟨hat, -⟩ | ⟨-, herr⟩
      · have hle := hat.le_high
        refine ⟨⟨?_, hlength, ?_, ?_⟩, hat.free⟩
        · apply (pageOffset_eq_zero_iff r).mp
          simpa using hoff
        · bv_omega
        · bv_omega
      · rw [herr, isErrValue_eNOMEM] at hval
        cases hval

end Frame

/-! ## The pages of the image -/

/-- The range of a call is inside a region. -/
def ElfCall.Within (base size : U64) (c : ElfCall) : Prop :=
  base.toNat ≤ c.addr.toNat ∧ c.addr.toNat + c.length.toNat ≤ base.toNat + size.toNat

/-- The loader has gone on with calls inside a region, and nothing has changed outside of it. -/
structure Loader.Moved {H : NodeHeap σ} (F : H.Fresh) (base size : U64) (k : Nat)
    (x y : Loader σ η) :
    Prop where
  linked : Linked F y.store
  glob : y.store.glob = x.store.glob
  avail : F.avail x.store.heap ≤ F.avail y.store.heap + k
  covered : ∀ a, ¬ (base ≤ a ∧ a < base + size) → (y.store.Covered a ↔ x.store.Covered a)
  calls : ∃ cs, y.calls = x.calls ++ cs ∧ ∀ c ∈ cs, c.Within base size

section Moves

variable {F : E.toNodeHeap.Fresh} {base size : U64} {x y z : Loader σ η} {k l : Nat}

theorem Loader.Moved.refl (h : Linked F x.store) : Loader.Moved F base size 0 x x :=
  ⟨h, rfl, le_rfl, fun _ _ => Iff.rfl, [], (List.append_nil _).symm,
    fun _ hc => absurd hc List.not_mem_nil⟩

theorem Loader.Moved.trans (h : Loader.Moved F base size k x y)
    (h' : Loader.Moved F base size l y z) :
    Loader.Moved F base size (k + l) x z := by
  obtain ⟨cs, hcs, hin⟩ := h.calls
  obtain ⟨ds, hds, hin'⟩ := h'.calls
  refine ⟨h'.linked, h'.glob.trans h.glob, ?_, fun a ha => (h'.covered a ha).trans (h.covered a ha),
    cs ++ ds, by rw [hds, hcs, List.append_assoc], fun c hc => ?_⟩
  · have h1 := h.avail
    have h2 := h'.avail
    omega
  · rcases List.mem_append.mp hc with hc | hc
    · exact hin c hc
    · exact hin' c hc

theorem Loader.Moved.mono (h : Loader.Moved F base size k x y) (hk : k ≤ l) :
    Loader.Moved F base size l x y :=
  ⟨h.linked, h.glob, h.avail.trans (Nat.add_le_add_left hk _), h.covered, h.calls⟩

/-- What a framed call does to the loader. -/
theorem Framed.moved {c : ElfCall} (h : Framed F x.store t c.addr c.length)
    (hc : c.Within base size)
    (hfit : base.toNat + size.toNat < 2 ^ 64) (placed : List (Phdr × U64)) :
    Loader.Moved F base size 3 x ⟨t, x.calls ++ [c], placed⟩ := by
  obtain ⟨hlow, hhigh⟩ := hc
  refine ⟨h.linked, h.glob, h.avail, fun a ha => h.covered a ?_, [c], rfl, ?_⟩
  · intro hin
    apply ha
    bv_omega
  · intro d hd
    obtain rfl := List.mem_singleton.mp hd
    exact ⟨hlow, hhigh⟩

theorem mapFixed_flags : (mapPrivate ||| mapFixed) &&& mapFixed ≠ 0#64 := by decide

theorem mapPrivate_flags : mapPrivate &&& mapFixed = 0#64 := by decide

/-- A mapping with `MAP_FIXED`. -/
theorem Loader.mmap_fixed (h : Linked F x.store) (hav : 3 ≤ F.avail x.store.heap)
    {stray addr length prot flags offset v : U64} {fd : BitVec 32}
    (hflags : flags &&& mapFixed ≠ 0#64)
    (hlen : length.toNat % 4096 = 0)
    (hin : InBounds x.store.glob.kernelMinAddress addr length)
    (hc : base.toNat ≤ addr.toNat ∧ addr.toNat + length.toNat ≤ base.toNat + size.toNat)
    (hfit : base.toNat + size.toNat < 2 ^ 64)
    (hrun : x.mmap E stray addr length prot flags fd offset = some (v, y))
    (hv : isErrValue v = false) :
    v = addr ∧ y.placed = x.placed ∧ Loader.Moved F base size 3 x y := by
  simp only [Loader.mmap, Option.bind_eq_bind, Option.bind_eq_some_iff] at hrun
  obtain ⟨⟨w, t⟩, hmap, hrun⟩ := hrun
  obtain ⟨rfl, rfl⟩ := Prod.mk.inj (Option.some.inj hrun)
  have halign := pageAlign_of_aligned hlen
  obtain ⟨hplace, hframed⟩ := framed_mmap h hav (fun a ha _ => by
    rw [getUnmappedArea_fixed stray addr _ hflags] at ha
    rw [← Option.some.inj ha, halign]
    exact hin) hmap hv
  rw [getUnmappedArea_fixed stray addr _ hflags] at hplace
  obtain rfl := Option.some.inj hplace
  rw [halign] at hframed
  have haddr : (ElfCall.mmap addr length flags addr).addr = addr := if_neg hflags
  refine ⟨rfl, rfl, Framed.moved ?_ ?_ hfit x.placed⟩
  · rw [haddr]
    exact hframed
  · rw [ElfCall.Within, haddr]
    exact hc

/-- A removal.  An empty range is refused. -/
theorem Loader.munmap_moved (h : Linked F x.store) (hav : 3 ≤ F.avail x.store.heap)
    {addr length : U64}
    (hin : length ≠ 0#64 → InBounds x.store.glob.kernelMinAddress addr length)
    (hc : base.toNat ≤ addr.toNat ∧ addr.toNat + length.toNat ≤ base.toNat + size.toNat)
    (hfit : base.toNat + size.toNat < 2 ^ 64) (hrun : x.munmap E addr length = some y) :
    y.placed = x.placed ∧ Loader.Moved F base size 3 x y := by
  simp only [Loader.munmap, Option.bind_eq_bind, Option.bind_eq_some_iff] at hrun
  obtain ⟨⟨error, t⟩, hunmap, hrun⟩ := hrun
  obtain rfl := Option.some.inj hrun
  refine ⟨rfl, Framed.moved (c := .munmap addr length) ?_ hc hfit x.placed⟩
  by_cases hlen : length = 0#64
  · have hrej : munmapRejects x.store.glob.kernelMinAddress addr length = true := by
      simp [munmapRejects, hlen]
    rw [syscallMunmap_rejected hrej] at hunmap
    have heq : x.store = t := congrArg Prod.snd (Option.some.inj hunmap)
    rw [← heq]
    exact ⟨h, rfl, Nat.le_add_right _ _, fun _ _ => Iff.rfl⟩
  · obtain ⟨u, hu, hframed⟩ := h.framed (E := E) hav (.munmap addr length) (hin hlen)
    have heq : u = t := by
      rw [Op.run, hunmap] at hu
      exact (Option.some.inj hu).symm
    rw [← heq]
    exact hframed

/-- The pages after the file. -/
theorem Loader.doBrk_moved (h : Linked F x.store) (hav : 3 ≤ F.avail x.store.heap)
    {addr length flags error : U64} (hin : InBounds x.store.glob.kernelMinAddress addr length)
    (hc : base.toNat ≤ addr.toNat ∧ addr.toNat + length.toNat ≤ base.toNat + size.toNat)
    (hfit : base.toNat + size.toNat < 2 ^ 64)
    (hrun : x.doBrk E addr length flags = some (error, y)) :
    y.placed = x.placed ∧ Loader.Moved F base size 3 x y := by
  simp only [Loader.doBrk, Option.bind_eq_bind, Option.bind_eq_some_iff] at hrun
  obtain ⟨⟨e, t⟩, hbrk, hrun⟩ := hrun
  obtain ⟨-, rfl⟩ := Prod.mk.inj (Option.some.inj hrun)
  refine ⟨rfl, Framed.moved (c := .doBrk addr length) ?_ hc hfit x.placed⟩
  obtain ⟨u, hu, hframed⟩ := h.framed (E := E) hav (.doBrk addr length flags) hin
  have heq : u = t := by
    rw [Op.run, hbrk] at hu
    exact (Option.some.inj hu).symm
  rw [← heq]
  exact hframed

/-- Only memory is written. -/
theorem Loader.padZero_moved (h : Linked F x.store) {elfBss : U64}
    (hlow : base.toNat ≤ elfBss.toNat)
    (hhigh : elfBss.toNat ≤ base.toNat + size.toNat)
    (hend : (base.toNat + size.toNat) % 4096 = 0) :
    (x.padZero elfBss).placed = x.placed ∧ Loader.Moved F base size 0 x (x.padZero elfBss) := by
  rw [Loader.padZero]
  by_cases hoff : pageOffset elfBss = 0#64
  · rw [if_neg (not_not.mpr hoff)]
    exact ⟨rfl, Loader.Moved.refl h⟩
  · rw [if_pos hoff]
    refine ⟨rfl, h, rfl, le_rfl, fun _ _ => Iff.rfl, _, rfl, fun c hc => ?_⟩
    obtain rfl := List.mem_singleton.mp hc
    have hne : elfBss.toNat % 4096 ≠ 0 := fun h0 => hoff ((pageOffset_eq_zero_iff _).mpr h0)
    have hlen : (pageSize - pageOffset elfBss).toNat = 4096 - elfBss.toNat % 4096 := by
      have hpage : pageSize.toNat = 4096 := rfl
      rw [BitVec.toNat_sub, toNat_pageOffset, hpage]
      omega
    rw [ElfCall.Within]
    show base.toNat ≤ elfBss.toNat ∧ elfBss.toNat + (pageSize - pageOffset elfBss).toNat ≤ _
    rw [hlen]
    omega

end Moves

end BufferVM
