/-
  Program/KernelBrk.lean --- the program's heap over the kernel's `syscall_brk`.

  The kernel keeps the break page-aligned from the second call on and moves the end of the
  heap's VMA with it.  It knows no bound but the next VMA, which may be far above the 64 GiB
  that `malloc` can count: that the heap stays below them is a condition on the run.
-/
import BufferVM.Kernel.Calls
import BufferVM.Kernel.BrkGaps
import BufferVM.Kernel.HeapVma
import BufferVM.Kernel.StackInit
import BufferVM.Program.AllocRuns

set_option autoImplicit false

namespace BufferVM

namespace Alloc

open Chunks

variable {σ η : Type} {E : Env σ η}

/-- The program on this kernel. -/
def kernelImage (E : Env σ η) (base : U64) : Image (St σ η) := ⟨base, syscallBrk E⟩

/-- The kernel before the first `brk`: the page at the start of the heap can be mapped. -/
structure HeapReady (F : E.toNodeHeap.Fresh) (heapStart : U64) (s : St σ η) : Prop where
  linked : Linked F s
  avail : 3 ≤ F.avail s.heap
  start : s.glob.userHeapStart = heapStart
  curr : s.glob.currBrk = 0#64
  bounds : InBounds s.glob.kernelMinAddress heapStart pageSize

/-- The kernel between two calls of `brk`: the VMA of the heap reaches from its start to the
break. -/
structure HeapUsed (F : E.toNodeHeap.Fresh) (heapStart : U64) (s : St σ η) (c : U64) : Prop where
  linked : Linked F s
  curr : s.glob.currBrk = c
  node : s.glob.userHeapVma ∈ s.nodes
  start : (s.region s.glob.userHeapVma).startAddr ≤ heapStart
  reaches : c ≤ (s.region s.glob.userHeapVma).endAddr

/-- The heap's VMA, as the areas of the kernel's list have it. -/
theorem HeapUsed.of_area {F : E.toNodeHeap.Fresh} {heapStart c : U64} {t : St σ η} {p : Ptr}
    {r : VmRegion} (hl : Linked F t) (hcurr : t.glob.currBrk = c) (hvma : t.glob.userHeapVma = p)
    (hmem : (p, r) ∈ t.space.areas) (hstart : r.startAddr ≤ heapStart) (hend : c ≤ r.endAddr) :
    HeapUsed F heapStart t c := by
  obtain ⟨hnode, hregion⟩ := (St.mem_space_areas p r).mp hmem
  subst hvma
  subst hregion
  exact ⟨hl, hcurr, hnode, hstart, hend⟩

/-- The first call answers with the start of the heap. -/
theorem HeapReady.first {F : E.toNodeHeap.Fresh} {heapStart c : U64} {s t : St σ η}
    (h : HeapReady F heapStart s) (hrun : syscallBrk E 0#64 s = some (c, t)) :
    c = heapStart ∧ HeapUsed F heapStart t c := by
  obtain ⟨hl, hsp⟩ := h.linked.withGlob { s.glob with currBrk := s.glob.userHeapStart }
  have hb : InBounds s.glob.kernelMinAddress (heapRequest s.glob).addr
      (heapRequest s.glob).length := by
    rw [heapRequest, h.start]
    exact h.bounds
  obtain ⟨u, p, hmap, hp0, hlu, hglob, hspu, hp⟩ := hl.mmapRegion (q := heapRequest s.glob)
    h.avail hb
  rw [hsp] at hspu hp
  have hmap' : mmapRegion E none s.glob.userHeapStart pageSize vmaGrows heapProt 0#64
      { s with glob := { s.glob with currBrk := s.glob.userHeapStart } } =
      some (s.glob.userHeapStart, p, u) := hmap
  have hcurr : u.glob.currBrk = s.glob.userHeapStart := by rw [hglob]
  simp only [syscallBrk, h.curr, and_self, if_true, Option.bind_eq_bind, hmap',
    Option.bind_some] at hrun
  rw [if_pos ⟨hp0, hcurr.symm⟩] at hrun
  obtain ⟨rfl, rfl⟩ := Prod.mk.inj (Option.some.inj hrun)
  obtain ⟨hlt, hspt⟩ := hlu.withGlob { u.glob with userHeapVma := p }
  -- the node of the heap covers the page
  obtain ⟨hso, -⟩ := h.linked.sound.unmap (heapRequest s.glob).addr (heapRequest s.glob).end'
    (by have := h.avail; exact Nat.le_of_succ_le this)
  obtain ⟨r, hr, hlow, hhigh⟩ := hp ▸ placedNode_covers (E := E) (q := heapRequest s.glob)
    hso.sorted hb.lt
  have haddr : (heapRequest s.glob).addr = heapStart := h.start
  rw [haddr] at hlow hhigh
  rw [h.start] at hcurr
  refine ⟨hcurr, HeapUsed.of_area hlt rfl rfl ?_ hlow (by rw [hcurr]; exact BitVec.le_of_lt hhigh)⟩
  rw [hspt, hspu]
  exact hr

/-- A higher break is refused or granted up to the end of a page. -/
theorem HeapUsed.next {F : E.toNodeHeap.Fresh} {heapStart c e r : U64} {s t : St σ η}
    (h : HeapUsed F heapStart s c) (hlt : c < e) (hrun : syscallBrk E e s = some (r, t)) :
    HeapUsed F heapStart t r ∧ (r = c ∨ (e ≤ r ∧ r ≠ -1#64)) := by
  rcases syscallBrk_cases hrun with ⟨rfl, -⟩ | ⟨heq, -⟩ | ⟨hm, -, v, hv, heq⟩
  · bv_omega
  · obtain ⟨rfl, rfl⟩ := Prod.mk.inj heq
    have hc := h.curr
    rw [hc]
    exact ⟨h, Or.inl rfl⟩
  · obtain ⟨rfl, rfl⟩ := Prod.mk.inj heq
    obtain ⟨l₁, l₂, -, -, -, hl, hglob, hspace⟩ :=
      h.linked.brkMoves (E := E) hm h.node hv
    have hround := toNat_pageAlign e
    have hpos : 0 < (pageAlign e).toNat := by
      have := hm.2.2.1
      bv_omega
    generalize pageAlign e = newBrk at *
    obtain ⟨hlt', hspt⟩ := hl.withGlob { (kernelMapVma E s.glob.userHeapVma v).glob with
      currBrk := newBrk }
    have hvma : (kernelMapVma E s.glob.userHeapVma v).glob.userHeapVma = s.glob.userHeapVma := by
      rw [hglob]
    refine ⟨HeapUsed.of_area hlt' rfl hvma
      (r := mapRegionFields E s.space.host
        { s.region s.glob.userHeapVma with endAddr := newBrk }) ?_ h.start
      (BitVec.le_refl _), Or.inr ⟨?_, ?_⟩⟩
    · rw [hspt, hspace, Space.resize, Space.regrow]
      simp
    · rw [BitVec.le_def]
      have := e.isLt
      omega
    · intro hone
      rw [hone] at hround
      have : (-1#64).toNat = 2 ^ 64 - 1 := by decide
      omega

/-- What the kernel gives `sbrk`. -/
def kernelSpec (E : Env σ η) (F : E.toNodeHeap.Fresh) (base heapStart : U64) (hbase : base ≠ 0#64)
    (hbelow : base.toNat + 16 ≤ heapStart.toNat) (hroom : heapStart.toNat + 2 ^ 37 ≤ 2 ^ 64) :
    BrkSpec (kernelImage E base) where
  start := heapStart.toNat
  Ready := HeapReady F heapStart
  Ok := HeapUsed F heapStart
  base_ne := hbase
  below := hbelow
  room := hroom
  first h hrun := by
    obtain ⟨hc, hused⟩ := h.first hrun
    exact ⟨by rw [hc], hused⟩
  next h hlt hrun := h.next hlt hrun

/-! ## The blocks of a program -/

/-- An address of the heap is found in its VMA. -/
theorem HeapUsed.vmaFind {F : E.toNodeHeap.Fresh} {heapStart c addr : U64} {s : St σ η}
    (h : HeapUsed F heapStart s c)
    (hc : (s.region s.glob.userHeapVma).Covers addr) :
    BufferVM.vmaFind addr s = some s.glob.userHeapVma := by
  obtain ⟨a, hh⟩ := h.linked.holds
  have hs := h.linked.sound.sorted
  have hmem : (s.glob.userHeapVma, s.region s.glob.userHeapVma) ∈ s.space.areas :=
    (St.mem_space_areas _ _).mpr ⟨h.node, rfl⟩
  obtain ⟨l₁, l₂, hA⟩ := List.append_of_mem hmem
  have hfront := (Space.regions_eq hA ▸ hs).around.1
  have habove : BufferVM.above addr s.space.areas =
      (s.glob.userHeapVma, s.region s.glob.userHeapVma) :: l₂ := by
    rw [BufferVM.above, hA, List.dropWhile_append_of_pos, List.dropWhile_cons_of_neg]
    · have := hc.2
      simpa using this
    · intro x hx
      have hle := hfront x.2 (List.mem_map_of_mem hx)
      have hlow := hc.1
      simp only [decide_eq_true_eq]
      bv_omega
  rw [hh.vmaFind hs addr, habove]
  rfl

/-- **The kernel serves every byte of a program's blocks**: `vma_find` finds it in the VMA of
the heap, so a page fault there changes nothing, and comes back unless that VMA is
prefaulted. -/
theorem block_served {F : E.toNodeHeap.Fresh} {base heapStart : U64} {hbase : base ≠ 0#64}
    {hbelow : base.toNat + 16 ≤ heapStart.toNat} {hroom : heapStart.toNat + 2 ^ 37 ≤ 2 ^ 64}
    {s t : Session (St σ η)} {es : List (Event (St σ η))}
    (h : s.Runs (kernelSpec E F base heapStart hbase hbelow hroom) es t)
    (hs : Starts (kernelSpec E F base heapStart hbase hbelow hroom) s) {b : Block}
    (hb : b ∈ t.live) {addr errorCode : U64} (haddr : InBlock b addr)
    (hcode : errorCode &&& pfProt = 0#64) :
    vmaFind addr t.prog.kern = some t.prog.kern.glob.userHeapVma ∧
      (t.prog.kern.region t.prog.kern.glob.userHeapVma).Covers addr ∧
      handleUserPageFault E addr errorCode t.prog.kern =
        if (t.prog.kern.region t.prog.kern.glob.userHeapVma).flags &&& vmaIsPrefaulted = 0#64
        then some (1, t.prog.kern) else none := by
  obtain ⟨cs, hcase, hh⟩ := h.inv hs
  obtain ⟨x, hx, hbx, hsize⟩ := hh.room b hb
  rcases hcase with ⟨-, rfl⟩ | hsound
  · simp at hx
  have hval := hsound.laid.toNat_block hx
  have hbounds := blocks_bounds hx
  rcases hsound.brk with ⟨-, rfl, -⟩ | ⟨hcur, hused⟩
  · simp at hx
  have hused : HeapUsed F heapStart t.prog.kern t.prog.curbrk := hused
  have hcovers : (t.prog.kern.region t.prog.kern.glob.userHeapVma).Covers addr := by
    obtain ⟨hlow, hhigh⟩ := haddr
    have hstart := BitVec.le_def.mp hused.start
    have hend := BitVec.le_def.mp hused.reaches
    have hmin : heapStart.toNat ≤ x.1 := hbounds.1
    have hmax : x.1 + x.2 ≤ t.prog.curbrk.toNat := by
      rw [hcur]
      exact hbounds.2
    rw [hbx, hval] at hlow hhigh
    constructor
    · rw [BitVec.le_def]
      omega
    · rw [BitVec.lt_def]
      omega
  have hfind := hused.vmaFind hcovers
  refine ⟨hfind, hcovers, ?_⟩
  obtain ⟨a, ha⟩ := hused.linked.holds
  have hnull : t.prog.kern.glob.userHeapVma ≠ 0#64 :=
    ha.laid.ne_null _ (by rw [St.space_nodes]; exact hused.node)
  rw [handleUserPageFault, if_neg (not_not.mpr hcode), hfind, Option.bind_eq_bind,
    Option.bind_some, if_neg hnull, if_pos hcovers.1]

/-- A small kernel whose only VMA is that of the stack. -/
theorem heapReady_small : ∃ t p, mmapRegion quietEnv none 0xf000#64 pageSize vmaGrows
      (vmaWrite ||| vmaRead) 0#64 smallStore = some (0xf000#64, p, t) ∧
    HeapReady (E := quietEnv) bumpFresh 0x4000#64 t := by
  have hlinked : Linked (H := quietEnv.toNodeHeap) bumpFresh smallStore :=
    orderly_smallStore.linked
  have hin : InBounds smallStore.glob.kernelMinAddress 0xf000#64 pageSize := by decide
  have hin' : InBounds smallStore.glob.kernelMinAddress 0x4000#64 pageSize := by decide
  obtain ⟨t, p, hrun, -, hl, hglob, hsp, -⟩ := hlinked.mmapRegion (E := quietEnv)
    (q := stackRequest smallGlobals) (by decide) hin
  have havail : 3 ≤ bumpFresh.avail t.space.heap := by
    rw [hsp]
    decide +kernel
  exact ⟨t, p, hrun, hl, havail, by rw [hglob]; rfl, by rw [hglob]; rfl,
    by rw [hglob]; exact hin'⟩

/-- What the small kernel gives `sbrk`. -/
def smallSpec : BrkSpec (kernelImage quietEnv 0x3000#64) :=
  kernelSpec quietEnv bumpFresh 0x3000#64 0x4000#64 (by decide) (by decide) (by decide)

theorem block_served_small : ∃ t : St (Nat × List Ptr) Unit,
    vmaFind 0x7f95#64 t = some t.glob.userHeapVma ∧
      (t.region t.glob.userHeapVma).Covers 0x7f95#64 ∧
      handleUserPageFault quietEnv 0x7f95#64 2#64 t =
        if (t.region t.glob.userHeapVma).flags &&& vmaIsPrefaulted = 0#64
        then some (1, t) else none := by
  obtain ⟨kern, p, hkern, hready⟩ := heapReady_small
  have hexec : (mmapRegion quietEnv none 0xf000#64 pageSize vmaGrows (vmaWrite ||| vmaRead) 0#64
      smallStore).any (fun x =>
        (Run.exec (Alloc.step (kernelImage quietEnv 0x3000#64)) (callTest smallSpec)
          [.malloc 8 100#64] ⟨⟨fun _ => 0, 0#64, 0#64, x.2.2⟩, []⟩).any fun t =>
            t.live = [(0x7f90#64, 100)]) = true := by
    decide +kernel
  rw [hkern, Option.any_some] at hexec
  obtain ⟨t, ht, hlive⟩ := (Option.any_eq_true _ _).mp hexec
  have hlive := of_decide_eq_true hlive
  have hruns := Run.Steps.of_exec (allowed_of_callTest smallSpec) _ ht
  exact ⟨t.prog.kern, block_served (b := (0x7f90#64, 100)) hruns ⟨⟨rfl, rfl, hready⟩, rfl⟩
    (by rw [hlive]; simp) (by simp [InBlock]) (by decide)⟩

end Alloc

end BufferVM
