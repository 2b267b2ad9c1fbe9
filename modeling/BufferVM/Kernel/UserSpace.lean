/-
  Kernel/UserSpace.lean --- user mappings and the bounds of user space.

  A non-fixed `syscall_mmap` is checked against `kernel_min_address`; a fixed one is not,
  and `mmap_region` only notices when a VMA is in the way, because `syscall_munmap` then
  refuses the range.  So the bound is an invariant of the runs whose mappings either stay
  inside the bounds or meet a VMA, and of no larger set: one fixed mapping of a free page
  above the bound breaks it.
-/
import BufferVM.Kernel.Calls

set_option autoImplicit false

namespace BufferVM

variable {σ η : Type} {s t : St σ η} {E : Env σ η} {F : E.toNodeHeap.Fresh}
  {ok : Space σ η → Mapping → Prop}

/-! ## The invariant -/

/-- A linked store in user space. -/
structure Orderly {H : NodeHeap σ} (F : H.Fresh) (s : St σ η) : Prop where
  linked : Linked F s
  glob : GlobOk s.glob
  edges : EdgesIn (UserEdge s.glob.kernelMinAddress) s.space

theorem Orderly.call (h : Orderly F s) (hav : 3 ≤ F.avail s.heap) {c : Call} (hc : c.Ok E ok s)
    (hrun : c.run E s = some t) : Orderly F t ∧ Stepped F E ok s t := by
  have hst := Call.spaceStep h.linked hav h.glob h.edges hc hrun
  refine ⟨⟨hst.linked, hst.globOk h.glob, ?_⟩, hst⟩
  rw [hst.kernelMin]
  exact hst.step.edges h.linked.sound hav h.edges

/-- What a call needs: three nodes left to allocate, and the condition. -/
def CallOk (E : Env σ η) (F : E.toNodeHeap.Fresh) (ok : Space σ η → Mapping → Prop) (s : St σ η)
    (c : Call) : Prop := 3 ≤ F.avail s.heap ∧ c.Ok E ok s

/-- A run of calls. -/
def CallRuns (E : Env σ η) (F : E.toNodeHeap.Fresh) (ok : Space σ η → Mapping → Prop) :
    St σ η → List Call → St σ η → Prop :=
  Run.Steps (fun s c => c.run E s) (CallOk E F ok)

theorem CallRuns.orderly {cs : List Call} (h : CallRuns E F ok s cs t) (hs : Orderly F s) :
    Orderly F t ∧ t.glob.kernelMinAddress = s.glob.kernelMinAddress := by
  refine Run.Steps.invariant
    (fun u => Orderly F u ∧ u.glob.kernelMinAddress = s.glob.kernelMinAddress) h ?_ ⟨hs, rfl⟩
  rintro u c v ⟨hu, hk⟩ ⟨hav, hc⟩ hrun
  obtain ⟨hv, hst⟩ := hu.call hav hc hrun
  exact ⟨hv, hst.kernelMin.trans hk⟩

/-- The store of a machine that has been set up but has no VMA yet. -/
theorem orderly_empty (F : E.toNodeHeap.Fresh) (heap : σ) (host : η) {glob : Globals}
    (hg : GlobOk glob) : Orderly F (St.empty heap host glob) := by
  have hnone : ∀ x, x ∉ (St.empty heap host glob).space.areas := by
    intro x hx
    simp [St.space, areasAt, St.nodes_empty] at hx
  refine ⟨?_, hg, fun x hx => absurd hx (hnone x)⟩
  refine Valid.linked F ⟨wellFormed_empty heap host glob, fun h => absurd rfl h⟩ fun p hp => ?_
  rw [St.nodes_empty] at hp
  simp at hp

/-! ## Every VMA stays in user space -/

/-- A VMA with page-aligned bounds, not empty, below the bound. -/
structure VmRegion.InUserSpace (kernelMinAddress : U64) (r : VmRegion) : Prop where
  start : r.startAddr.toNat % 4096 = 0
  limit : r.endAddr.toNat % 4096 = 0
  lt : r.startAddr < r.endAddr
  le : r.endAddr ≤ kernelMinAddress

theorem Orderly.inUserSpace (h : Orderly F s) :
    ∀ r ∈ s.regions, r.InUserSpace s.glob.kernelMinAddress := by
  intro r hr
  have hlt := h.linked.sound.sorted.lt r (by rw [St.space_regions]; exact hr)
  obtain ⟨p, hp, rfl⟩ := List.mem_map.mp hr
  have he := h.edges (p, s.region p) ((St.mem_space_areas _ _).mpr ⟨hp, rfl⟩)
  exact ⟨he.1.align, he.2.align, hlt, he.2.le⟩

/-- **User mappings stay in user space** along every run in which each mapping that
reaches `mmap_region` is page aligned and inside the bounds, or has a VMA in its way; the
break only moves inside the bounds and with its VMA in the store, and no fault at a page
address meets a VMA that ends there. -/
theorem inUserSpace_of_runs (F : E.toNodeHeap.Fresh) (s : St σ η) (hs : Orderly F s)
    (cs : List Call) (t : St σ η) (h : CallRuns E F (fun _ _ => True) s cs t) :
    ∀ r ∈ t.regions, r.InUserSpace s.glob.kernelMinAddress := by
  obtain ⟨ht, hk⟩ := h.orderly hs
  rw [← hk]
  exact ht.inUserSpace

/-- `MAP_PRIVATE | MAP_FIXED | MAP_ANONYMOUS`. -/
def fixedAnonymous : U64 := mapPrivate ||| mapFixed ||| mapAnonymous

/-- A fixed anonymous mapping. -/
def fixedMap (addr length : U64) : Call :=
  .mmap 0#64 addr length protRead fixedAnonymous noFd 0#64

theorem globOk_smallGlobals : GlobOk smallGlobals := ⟨by decide, by decide, by decide⟩

/-- The store of the small machine before the first call. -/
def smallStore : St (Nat × List Ptr) Unit := St.empty (0, []) () smallGlobals

theorem orderly_smallStore : Orderly bumpFresh smallStore :=
  orderly_empty (E := quietEnv) bumpFresh _ _ globOk_smallGlobals

/-- A fixed mapping reaches `mmap_region` with its own address. -/
theorem fixedMap_ok {s : St σ η} {addr length : U64}
    (hb : InBounds s.glob.kernelMinAddress addr (pageAlign length)) :
    (fixedMap addr length).Ok E (fun _ _ => True) s := by
  intro x hprep
  obtain ⟨q, host⟩ := x
  cases q with
  | none => exact fun _ => trivial
  | some q =>
      obtain ⟨hlen, -, -, haddr, -⟩ := mmapPrepare_length hprep
      have hfix : fixedAnonymous &&& mapFixed ≠ 0#64 := by decide
      rw [getUnmappedArea, if_pos hfix] at haddr
      refine ⟨fun _ => trivial, fun hout => absurd ?_ hout⟩
      rw [hlen, ← Option.some.inj haddr]
      exact hb

/-- One page mapped at a fixed address of the small machine. -/
theorem inUserSpace_of_runs_small :
    ∃ t, CallRuns quietEnv bumpFresh (fun _ _ => True) smallStore [fixedMap 0x2000#64 0x800#64] t ∧
      ∀ r ∈ t.regions, r.InUserSpace 0x10000#64 := by
  obtain ⟨t, ht⟩ : ∃ t, (fixedMap 0x2000#64 0x800#64).run quietEnv smallStore = some t :=
    Option.isSome_iff_exists.mp (by decide +kernel)
  have hruns : CallRuns quietEnv bumpFresh (fun _ _ => True) smallStore
      [fixedMap 0x2000#64 0x800#64] t :=
    .cons ⟨by decide +kernel, fixedMap_ok ⟨by decide, by decide, by decide, by decide⟩⟩ ht (.nil t)
  exact ⟨t, hruns, inUserSpace_of_runs (E := quietEnv) bumpFresh smallStore orderly_smallStore _ t
    hruns⟩

/-- A fixed mapping of one page at the bound of the small machine is granted, and leaves a
VMA above the bound. -/
theorem fixedMap_leaves_userSpace :
    ∃ t, (fixedMap 0x10000#64 0x1000#64).run quietEnv smallStore = some t ∧
      ∃ r ∈ t.regions, ¬ r.InUserSpace smallStore.glob.kernelMinAddress := by
  obtain ⟨t, ht⟩ : ∃ t, (fixedMap 0x10000#64 0x1000#64).run quietEnv smallStore = some t :=
    Option.isSome_iff_exists.mp (by decide +kernel)
  have hends : ((fixedMap 0x10000#64 0x1000#64).run quietEnv smallStore).map
      (fun t => t.regions.map fun r => r.endAddr) = some [0x11000#64] := by decide +kernel
  rw [ht] at hends
  obtain ⟨r, hr, hend⟩ : ∃ r ∈ t.regions, r.endAddr = 0x11000#64 := by
    have hmem : 0x11000#64 ∈ t.regions.map fun r => r.endAddr := by
      have hlist : (t.regions.map fun r => r.endAddr) = [0x11000#64] := Option.some.inj hends
      rw [hlist]
      simp
    obtain ⟨r, hr, hend⟩ := List.mem_map.mp hmem
    exact ⟨r, hr, hend⟩
  refine ⟨t, ht, r, hr, fun h => ?_⟩
  have hle := h.le
  rw [hend] at hle
  exact absurd hle (by decide)

end BufferVM
