/-
  Kernel/StackInit.lean --- what `user_stack_init` leaves.

  `kernel_main` calls it on a store without VMAs.  The `ASSERT` holds, the only VMA is the first
  page of the stack, and the globals are those that the results about the gap search of the
  loader, the growth of the stack and the arguments of the program start from.
-/
import BufferVM.Kernel.GrowStack
import BufferVM.Kernel.UserArgs
import BufferVM.Kernel.UserSpace

set_option autoImplicit false

namespace BufferVM

variable {σ η : Type} {s t : St σ η} {E : Env σ η} {F : E.toNodeHeap.Fresh}

/-- The globals that `user_stack_init` sets. -/
def Globals.withStack (glob : Globals) (userStackStart stackPageLimit : U64) : Globals :=
  { glob with
    userStackStart := userStackStart
    userStackPage := userStackStart - pageSize
    userStackMin := userStackStart - stackPageLimit * pageSize
    userStackPageLimit := stackPageLimit }

/-- The first page of the stack. -/
def stackRequest (glob : Globals) : Request where
  fileInfo := nullFileInfo
  addr := glob.userStackPage
  length := pageSize
  flags := vmaGrows
  prot := vmaWrite ||| vmaRead
  offset := 0#64

/-- What is mapped first is one VMA. -/
theorem Space.map_of_nil (E : Env σ η) (q : Request) {A : Space σ η} (hA : A.areas = []) :
    (A.map E q).areas = [((E.alloc A.heap).1, mapRegionFields E A.host q.fresh)] := by
  have hunmap : A.unmap E q.addr q.end' = A := by
    rw [Space.unmap, hA]
    rfl
  have hplace : q.placement A.areas = .fresh := by
    rw [hA]
    rfl
  rw [Space.map, hunmap, Space.place, hplace, hA]
  rfl

/-- `mmap_region` on a store without VMAs. -/
theorem mmapRegion_empty (F : E.toNodeHeap.Fresh) (heap : σ) (host : η) (glob : Globals)
    (q : Request) (hav : 3 ≤ F.avail heap) (hq : InBounds glob.kernelMinAddress q.addr q.length) :
    ∃ t p, q.run E (St.empty heap host glob) = some (q.addr, p, t) ∧ Valid t ∧ NodesOwned F t ∧
      t.glob = glob ∧ t.nodes = [p] ∧ t.region p = mapRegionFields E host q.fresh := by
  have hwf := wellFormed_empty heap host glob
  have hblack : RootBlack (St.empty heap host glob) := fun h0 => absurd rfl h0
  have howned : NodesOwned F (St.empty heap host glob) := fun p hp => absurd hp (by
    rw [St.nodes_empty]
    simp)
  obtain ⟨t, p, hrun, -, -, hglob, hspace, hp⟩ :=
    (Valid.linked F ⟨hwf, hblack⟩ howned).mmapRegion (E := E) (q := q) hav hq
  obtain ⟨t', hrun', hwf', hblack', howned', -⟩ := Op.wellFormed_step (E := E) F hwf hblack howned
    hav (.mmapRegion (some q.fileInfo) q.addr q.length q.flags q.prot q.offset) hq
  obtain rfl : t = t' := by
    have hmap : (q.run E (St.empty heap host glob)).map (fun x => x.2.2) = some t' := hrun'
    rw [hrun] at hmap
    exact Option.some.inj hmap
  have hareas : t.space.areas = [(p, mapRegionFields E host q.fresh)] := by
    rw [hspace, Space.map_of_nil E _ rfl, hp]
    rfl
  refine ⟨t, p, hrun, ⟨hwf', hblack'⟩, howned', hglob, ?_, ?_⟩
  · rw [← St.space_nodes, Space.nodes, hareas]
    rfl
  · refine ((St.mem_space_areas p _).mp ?_).2
    rw [hareas]
    exact List.mem_singleton.mpr rfl

/-- The stack as it is set up: its first page is the only VMA. -/
structure StackSet {H : NodeHeap σ} (F : H.Fresh) (userStackStart stackPageLimit : U64)
    (t : St σ η) : Prop where
  valid : Valid t
  owned : NodesOwned F t
  glob : StackGlob t.glob
  start : t.glob.userStackStart = userStackStart
  limit : t.glob.userStackPageLimit = stackPageLimit
  min_le : t.glob.userStackMin ≤ t.glob.kernelMinAddress
  nodes : t.nodes = [t.glob.userStackVma]
  startAddr : (t.region t.glob.userStackVma).startAddr = userStackStart - pageSize
  endAddr : (t.region t.glob.userStackVma).endAddr = userStackStart

/-- What `kernel_main` calls `user_stack_init` with: whole pages below the kernel, the limit not
more than there is. -/
structure StackFits (glob : Globals) (userStackStart stackPageLimit : U64) : Prop where
  kernelAlign : glob.kernelMinAddress.toNat % 4096 = 0
  align : userStackStart.toNat % 4096 = 0
  top : userStackStart.toNat + 4096 < 2 ^ 64
  le : userStackStart ≤ glob.kernelMinAddress
  pos : 0 < stackPageLimit.toNat
  limit : stackPageLimit.toNat * 4096 ≤ userStackStart.toNat

section StackFits

variable {glob : Globals} {userStackStart stackPageLimit : U64}
  (h : StackFits glob userStackStart stackPageLimit)

include h

theorem StackFits.toNat_page : (userStackStart - pageSize).toNat = userStackStart.toNat - 4096 := by
  have hpos := h.pos
  have hlimit := h.limit
  have hs : pageSize.toNat = 4096 := rfl
  rw [BitVec.toNat_sub, hs]
  omega

theorem StackFits.stackGlob : StackGlob (glob.withStack userStackStart stackPageLimit) where
  align := h.kernelAlign
  top := h.top
  limit := h.limit
  stackAlign := h.align
  stackMin := rfl

/-- The gap search of the loader ends below the kernel. -/
theorem StackFits.min_le :
    (glob.withStack userStackStart stackPageLimit).userStackMin ≤ glob.kernelMinAddress := by
  have hlimit := h.limit
  have htop := h.top
  have hle := BitVec.le_def.mp h.le
  have hmul : (stackPageLimit * pageSize).toNat = stackPageLimit.toNat * 4096 := by
    rw [BitVec.toNat_mul, show pageSize.toNat = 4096 from rfl, Nat.mod_eq_of_lt (by omega)]
  rw [Globals.withStack, BitVec.le_def, BitVec.toNat_sub, hmul]
  omega

theorem StackFits.inBounds : InBounds glob.kernelMinAddress (userStackStart - pageSize)
    pageSize := by
  have hpage := h.toNat_page
  have hpos := h.pos
  have hlimit := h.limit
  have halign := h.align
  have hle := BitVec.le_def.mp h.le
  have hs : pageSize.toNat = 4096 := rfl
  exact ⟨by omega, by decide, by decide, by omega⟩

/-- **`user_stack_init` sets the stack up**: its `ASSERT` holds. -/
theorem StackFits.userStackInit (F : E.toNodeHeap.Fresh) (heap : σ) (host : η)
    (hav : 3 ≤ F.avail heap) :
    ∃ t, BufferVM.userStackInit E userStackStart stackPageLimit (St.empty heap host glob) =
      some t ∧ StackSet F userStackStart stackPageLimit t := by
  obtain ⟨t, p, hrun, hvalid, howned, hglob, hnodes, hregion⟩ := mmapRegion_empty F heap host
    (glob.withStack userStackStart stackPageLimit)
    (stackRequest (glob.withStack userStackStart stackPageLimit)) hav h.inBounds
  have hinit : BufferVM.userStackInit E userStackStart stackPageLimit (St.empty heap host glob) =
      ((stackRequest (glob.withStack userStackStart stackPageLimit)).run E
        (St.empty heap host (glob.withStack userStackStart stackPageLimit))).bind fun x =>
          if x.1 = x.2.2.glob.userStackPage then
            some { x.2.2 with glob := { x.2.2.glob with userStackVma := x.2.1 } }
          else none := rfl
  have hend : userStackStart - pageSize + pageSize = userStackStart := by bv_omega
  rw [hinit, hrun, Option.bind_some]
  refine ⟨{ t with glob := { t.glob with userStackVma := p } },
    if_pos (congrArg Globals.userStackPage hglob).symm, ?_⟩
  have hsame : St.nodes { t with glob := { t.glob with userStackVma := p } } = t.nodes :=
    St.nodes_congr rfl rfl
  refine ⟨⟨hvalid.toWellFormed.congr rfl rfl rfl rfl, hvalid.black⟩,
    fun q hq => howned q (hsame ▸ hq), ?_, ?_, ?_, ?_, hsame.trans hnodes, ?_, ?_⟩
  · simp only [hglob]
    obtain ⟨hok, hstack, hmin⟩ := h.stackGlob
    exact ⟨⟨hok.align, hok.top, hok.limit⟩, hstack, hmin⟩
  · simp only [hglob]
    rfl
  · simp only [hglob]
    rfl
  · simp only [hglob]
    exact h.min_le
  · exact (congrArg VmRegion.startAddr hregion).trans rfl
  · exact (congrArg VmRegion.endAddr hregion).trans hend

end StackFits

/-- The arguments of the program can be laid out on it. -/
theorem StackSet.ready {H : NodeHeap σ} {F : H.Fresh} {userStackStart : U64}
    (h : StackSet F userStackStart stackPageLimit t) : StackReady t where
  wellFormed := h.valid.toWellFormed
  mem := by
    rw [h.nodes]
    exact List.mem_singleton.mpr rfl
  endAddr := h.endAddr.trans h.start.symm
  align := h.glob.stackAlign
  limit := h.limit
  room := by
    have hlimit := h.glob.limit
    rw [h.limit] at hlimit
    exact hlimit

end BufferVM
