/-
  Kernel/WellFormed.lean --- the invariant of the VMA store over whole runs.

  `WellFormed` is said about the store itself: the list from `vma_list_start`, the tree
  at `vma_rb_root`, the gaps in its nodes and `vma_highest_addr` describe the same
  ascending, disjoint VMAs.  It does not mention colours, and it cannot be kept without
  them: `rb_insert` follows the parent of a red parent.  With a black root every
  operation on a range inside the bounds keeps it, and changes the covered addresses by
  exactly that range.
-/
import BufferVM.Kernel.SimMap
import BufferVM.Kernel.SpaceView

set_option autoImplicit false

namespace BufferVM

open PtrTree PtrTree.PTree PtrList

variable {σ η : Type} {s t u : St σ η} {E : Env σ η}

/-! ## The store read along its list -/

/-- The nodes on the list from a pointer on. -/
def St.listFrom (s : St σ η) : Nat → Ptr → List Ptr
  | 0, _ => []
  | fuel + 1, p => if p = 0#64 then [] else p :: s.listFrom fuel (s.vma p).next

/-- The VMAs of the store, in the order of the list. -/
def St.nodes (s : St σ η) : List Ptr := s.listFrom walkBound s.vmaListStart

/-- The regions of the store, in the order of the list. -/
def St.regions (s : St σ η) : List VmRegion := s.nodes.map s.region

/-- The store as an address space. -/
def St.space (s : St σ η) : Space σ η := ⟨areasAt s s.nodes, s.heap, s.host⟩

/-- The address belongs to a VMA of the store. -/
def St.Covered (s : St σ η) (a : U64) : Prop := ∃ r ∈ s.regions, r.Covers a

/-- The invariant of the store. -/
structure WellFormed (s : St σ η) : Prop where
  /-- The list is doubly linked. -/
  list : Chain s.listLinks s.nodes
  /-- It is strictly ascending, disjoint, and has no empty VMA. -/
  sorted : Sorted s.regions
  /-- The tree, with its parent pointers, has the list as its traversal, and every
  node stores the largest gap of its subtree. -/
  tree : ∃ a, Shape s.rbLinks 0#64 s.vmaRbRoot a ∧ a.toList = s.nodes ∧ Aug s.own s.gapNat a
  /-- The highest address is the end of the last VMA. -/
  highest : s.vmaHighestAddr = highestEnd s s.nodes

/-- The root of the tree is black. -/
def RootBlack (s : St σ η) : Prop := s.vmaRbRoot ≠ 0#64 → s.color s.vmaRbRoot = .black

/-- The allocator takes the nodes of the store to be in use. -/
def NodesOwned {H : NodeHeap σ} (F : H.Fresh) (s : St σ η) : Prop :=
  ∀ p ∈ s.nodes, F.live s.heap p

/-! ## Well-formed stores hold address spaces -/

/-- The walk along a laid out list collects it. -/
theorem listFrom_eq {l : List Ptr} : ∀ {fuel : Nat} {p : Ptr}, l.length < fuel →
    (∀ q ∈ l, q ≠ 0#64) → p = headPtr 0#64 l → NextChain s (l ++ [0#64]) →
    s.listFrom fuel p = l := by
  induction l with
  | nil =>
      intro fuel p hf _ hp _
      obtain ⟨n, rfl⟩ : ∃ n, fuel = n + 1 := ⟨fuel - 1, by simp at hf; omega⟩
      simp [St.listFrom, hp]
  | cons x l ih =>
      intro fuel p hf h0 hp hch
      obtain ⟨n, rfl⟩ : ∃ n, fuel = n + 1 := ⟨fuel - 1, by simp at hf; omega⟩
      obtain rfl : p = x := hp
      have hnext : (s.vma p).next = headPtr 0#64 l := by
        cases l with
        | nil => exact (List.isChain_cons_cons.mp hch).1
        | cons y l => exact (List.isChain_cons_cons.mp hch).1
      rw [St.listFrom, if_neg (h0 p (by simp)), ih (by simp at hf; omega)
        (fun q hq => h0 q (by simp [hq])) hnext (List.IsChain.tail hch)]

theorem nodes_eq_of_chain {ps : List Ptr} (h : Chain s.listLinks ps) (hnd : ps.Nodup)
    (h0 : ∀ p ∈ ps, p ≠ 0#64) : s.nodes = ps :=
  listFrom_eq (length_lt_walkBound hnd fun h => h0 _ h rfl) h0
    (by simpa [St.listLinks] using h.head_eq) (nextChain_of_chain [] _ h fun h => h0 _ h rfl)

theorem Laid.nodes_eq {ps : List Ptr} {a : PTree Ptr} (h : Laid s ps a) : s.nodes = ps :=
  nodes_eq_of_chain h.chain h.nodup h.ne_null

/-- The walk along the list reads the links only. -/
theorem St.nodes_congr {ζ : Type} {t : St σ ζ} (hvma : t.vma = s.vma)
    (hstart : t.vmaListStart = s.vmaListStart) : t.nodes = s.nodes := by
  have hlist : ∀ (fuel : Nat) (p : Ptr), t.listFrom fuel p = s.listFrom fuel p := by
    intro fuel
    induction fuel with
    | zero => exact fun _ => rfl
    | succ n ih =>
        intro p
        rw [St.listFrom, St.listFrom, ih, hvma]
  rw [St.nodes, St.nodes, hstart, hlist]

/-- The allocator, the host and the globals are not part of the invariant. -/
theorem WellFormed.congr (h : WellFormed s) (hvma : t.vma = s.vma)
    (hstart : t.vmaListStart = s.vmaListStart) (hroot : t.vmaRbRoot = s.vmaRbRoot)
    (hhigh : t.vmaHighestAddr = s.vmaHighestAddr) : WellFormed t := by
  have hnodes := St.nodes_congr hvma hstart
  have hregion : t.region = s.region := by
    funext p
    rw [St.region, hvma, St.region]
  have hlinks : t.rbLinks = s.rbLinks := by
    have hchild : t.child = s.child := by
      funext d p
      rw [St.child, St.child, hvma]
    have hparent : t.parent = s.parent := by
      funext p
      rw [St.parent, St.parent, hvma]
    rw [St.rbLinks, St.rbLinks, hchild, hparent]
  have hown : t.own = s.own := by
    funext p
    rw [St.own, hvma, St.own]
  have hgap : t.gapNat = s.gapNat := by
    funext p
    rw [St.gapNat, St.gap, hvma, St.gapNat, St.gap]
  refine ⟨?_, ?_, ?_, ?_⟩
  · rw [hnodes]
    have hlist : t.listLinks = s.listLinks := by
      rw [St.listLinks, St.listLinks, hvma, hstart]
    exact hlist ▸ h.list
  · rw [St.regions, hnodes, hregion]
    exact h.sorted
  · rw [hnodes, hlinks, hroot, hown, hgap]
    exact h.tree
  · rw [hnodes, hhigh, highestEnd, hregion]
    exact h.highest

/-- A sorted list of VMAs has no node twice. -/
theorem Sorted.nodup {ps : List Ptr} (h : Sorted (ps.map s.region)) : ps.Nodup := by
  induction ps with
  | nil => simp
  | cons p ps ih =>
      obtain ⟨h1, h2, h3⟩ := sorted_cons.mp h
      refine List.nodup_cons.mpr ⟨fun hp => ?_, ih h3⟩
      have := h2 (s.region p) (List.mem_map_of_mem hp)
      bv_omega

@[simp] theorem St.space_nodes (s : St σ η) : s.space.nodes = s.nodes := by
  rw [St.space, Space.nodes, areasAt, List.map_map]
  exact List.map_id' _

@[simp] theorem St.space_regions (s : St σ η) : s.space.regions = s.regions := by
  rw [St.space, Space.regions, areasAt, List.map_map]
  rfl

theorem WellFormed.holds (h : WellFormed s) (hb : RootBlack s) :
    ∃ a, Holds s s.space a ∧ Gaps s s.space.nodes a := by
  obtain ⟨a, hshape, hlist, haug⟩ := h.tree
  refine ⟨a, ⟨?_, fun x hx => ?_, rfl, rfl⟩, ?_⟩
  · rw [St.space_nodes]
    exact ⟨hlist, h.sorted.nodup, hshape, h.list, hb⟩
  · obtain ⟨p, -, rfl⟩ := List.mem_map.mp hx
    rfl
  · rw [St.space_nodes]
    exact ⟨haug, h.highest⟩

theorem WellFormed.sound {F : E.toNodeHeap.Fresh} (h : WellFormed s) (ho : NodesOwned F s) :
    Sound F s.space := by
  refine ⟨by rw [St.space_regions]; exact h.sorted,
    by rw [St.space_nodes]; exact h.sorted.nodup, ?_⟩
  intro p hp
  rw [St.space_nodes] at hp
  exact ho p hp

/-- A store that holds an address space in order, with exact gaps, is well formed and
is that address space. -/
theorem Holds.wellFormed {A : Space σ η} {a : PTree Ptr} (h : Holds s A a) (hs : Sorted A.regions)
    (hg : Gaps s A.nodes a) :
    WellFormed s ∧ RootBlack s ∧ s.nodes = A.nodes ∧ s.regions = A.regions := by
  have hnodes := h.laid.nodes_eq
  have hregions : s.regions = A.regions := by rw [St.regions, hnodes, h.map_region]
  refine ⟨⟨hnodes ▸ h.laid.chain, hregions ▸ hs, ⟨a, h.laid.shape, h.laid.list.trans hnodes.symm,
    hg.aug⟩, hnodes ▸ hg.highest⟩, h.laid.black, hnodes, hregions⟩

/-! ## The VMA that is found -/

/-- The first VMA that ends above an address. -/
def St.firstAbove (s : St σ η) (addr : U64) : Option VmRegion :=
  (above addr s.space.areas).head?.map Prod.snd

/-- `vma_find` finds the first VMA that ends above an address. -/
theorem WellFormed.vmaFind (h : WellFormed s) (addr : U64) :
    ∃ p, BufferVM.vmaFind addr s = some p ∧
      s.firstAbove addr = if p = 0#64 then none else some (s.region p) := by
  obtain ⟨a, hshape, hlist, -⟩ := h.tree
  have hcut := below_append_above addr s.space.areas
  have hsort : Sorted s.space.regions := by
    rw [St.space_regions]
    exact h.sorted
  have hregion : ∀ x ∈ s.space.areas, s.region x.1 = x.2 := by
    intro x hx
    obtain ⟨p, -, rfl⟩ := List.mem_map.mp hx
    rfl
  have hnull : ∀ p ∈ s.nodes, p ≠ 0#64 := by
    rw [← hlist]
    exact hshape.ne_null
  have hnodes : s.nodes = (below addr s.space.areas).map Prod.fst ++
      (above addr s.space.areas).map Prod.fst := by
    rw [← List.map_append, hcut]
    exact (St.space_nodes s).symm
  have hends : Cut s addr ((below addr s.space.areas).map Prod.fst)
      ((above addr s.space.areas).map Prod.fst) := by
    refine ⟨fun p hp => ?_, fun p hp => ?_⟩
    · obtain ⟨x, hx, rfl⟩ := List.mem_map.mp hp
      rw [hregion x (hcut ▸ List.mem_append_left _ hx)]
      exact end_le_of_mem_below hx
    · obtain ⟨x, hx, rfl⟩ := List.mem_map.mp hp
      rw [hregion x (hcut ▸ List.mem_append_right _ hx)]
      exact lt_end_of_mem_above hsort hx
  have hfind := vmaFindLoop_spec a walkBound 0#64 s.vmaRbRoot 0#64 _ _
    (by rw [hlist]; exact length_lt_walkBound h.sorted.nodup fun h0 => hnull _ h0 rfl) hshape
    (by rw [hlist]; exact h.sorted) (hlist.trans hnodes) hends
  refine ⟨_, hfind, ?_⟩
  rw [St.firstAbove]
  cases habove : above addr s.space.areas with
  | nil => rfl
  | cons x l =>
      have hx : x ∈ s.space.areas := hcut ▸ by simp [habove]
      have hne : x.1 ≠ 0#64 := hnull _ (hnodes ▸ by simp [habove])
      show some x.2 = if x.1 = 0#64 then none else some (s.region x.1)
      rw [if_neg hne, hregion x hx]

theorem firstAbove_eq_none_iff (s : St σ η) (addr : U64) :
    s.firstAbove addr = none ↔ ∀ r ∈ s.regions, r.endAddr ≤ addr := by
  rw [St.firstAbove, Option.map_eq_none_iff, List.head?_eq_none_iff, above,
    List.dropWhile_eq_nil_iff,
    ← St.space_regions, Space.regions]
  simp only [decide_eq_true_eq, List.forall_mem_map]

/-! ## Operations and runs -/

/-- A call that changes the address space. -/
inductive Op where
  | mmapRegion (fileInfo : Option VmFile) (addr length flags prot offset : U64)
  | doBrk (addr length flags : U64)
  | munmap (addr length : U64)

/-- The address a call is about. -/
def Op.addr : Op → U64
  | .mmapRegion _ addr _ _ _ _ => addr
  | .doBrk addr _ _ => addr
  | .munmap addr _ => addr

/-- The length a call is about. -/
def Op.length : Op → U64
  | .mmapRegion _ _ length _ _ _ => length
  | .doBrk _ length _ => length
  | .munmap _ length => length

/-- The state after a call. -/
def Op.run (E : Env σ η) : Op → St σ η → Option (St σ η)
  | .mmapRegion fileInfo addr length flags prot offset, s =>
      (BufferVM.mmapRegion E fileInfo addr length flags prot offset s).map fun x => x.2.2
  | .doBrk addr length flags, s => (BufferVM.doBrk E addr length flags s).map Prod.snd
  | .munmap addr length, s => (syscallMunmap E addr length s).map Prod.snd

/-- The range of a call is made of whole pages, not empty and below a bound. -/
structure InBounds (kernelMinAddress addr length : U64) : Prop where
  addr_align : addr.toNat % 4096 = 0
  length_align : length.toNat % 4096 = 0
  length_pos : length ≠ 0#64
  le : addr.toNat + length.toNat ≤ kernelMinAddress.toNat

instance (kernelMinAddress addr length : U64) : Decidable (InBounds kernelMinAddress addr length) :=
  decidable_of_iff (addr.toNat % 4096 = 0 ∧ length.toNat % 4096 = 0 ∧ length ≠ 0#64 ∧
      addr.toNat + length.toNat ≤ kernelMinAddress.toNat)
    ⟨fun h => ⟨h.1, h.2.1, h.2.2.1, h.2.2.2⟩,
      fun h => ⟨h.addr_align, h.length_align, h.length_pos, h.le⟩⟩

/-- The covered addresses after a call. -/
def Op.cover (op : Op) (S : U64 → Prop) (a : U64) : Prop :=
  match op with
  | .munmap addr length => S a ∧ ¬ (addr ≤ a ∧ a < addr + length)
  | _ => S a ∨ (op.addr ≤ a ∧ a < op.addr + op.length)

/-- A run of calls, each inside the bounds and with nodes left to allocate. -/
inductive Runs (E : Env σ η) (F : E.toNodeHeap.Fresh) : St σ η → List Op → St σ η → Prop
  | nil (s : St σ η) : Runs E F s [] s
  | cons {s t u : St σ η} {op : Op} {ops : List Op}
      (hop : InBounds s.glob.kernelMinAddress op.addr op.length) (hav : 3 ≤ F.avail s.heap)
      (hrun : op.run E s = some t) (hruns : Runs E F t ops u) : Runs E F s (op :: ops) u

theorem InBounds.lt {kernelMinAddress addr length : U64}
    (h : InBounds kernelMinAddress addr length) : addr < addr + length := by
  have h1 := h.le
  have h2 := h.length_pos
  have h3 := kernelMinAddress.isLt
  bv_omega

theorem InBounds.accept {kernelMinAddress addr length : U64}
    (h : InBounds kernelMinAddress addr length) :
    munmapRejects kernelMinAddress addr length = false := by
  have h1 := h.le
  have halign : pageOffset addr = 0#64 := (pageOffset_eq_zero_iff addr).mpr h.addr_align
  have hlt : ¬ kernelMinAddress < addr := by bv_omega
  have hlen : ¬ kernelMinAddress - addr < length := by bv_omega
  simp [munmapRejects, halign, hlt, hlen, h.length_pos]

theorem InBounds.request {kernelMinAddress : U64} {q : Request}
    (h : InBounds kernelMinAddress q.addr q.length) : q.InRange kernelMinAddress :=
  ⟨pageAlign_of_aligned h.length_align, h.accept, h.lt⟩

/-- The request that a mapping call makes. -/
def Op.request : Op → Request
  | .mmapRegion fileInfo addr length flags prot offset =>
      { fileInfo := fileInfo.getD nullFileInfo, addr, length, flags, prot, offset }
  | .doBrk addr length flags => brkRequest addr length flags
  | .munmap addr length =>
      { fileInfo := nullFileInfo, addr, length, flags := 0#64, prot := 0#64, offset := 0#64 }

/-- The address space after a call. -/
def Op.space (E : Env σ η) (op : Op) (A : Space σ η) : Space σ η :=
  match op with
  | .munmap addr length => A.unmap E addr (addr + length)
  | op => A.map E op.request

/-- Every call inside the bounds returns, and does on the store what it does on the
list of areas. -/
theorem Op.run_spec (F : E.toNodeHeap.Fresh) {A : Space σ η} {a : PTree Ptr} (h : Holds s A a)
    (hso : Sound F A) (hav : 3 ≤ F.avail A.heap) (op : Op)
    (hop : InBounds s.glob.kernelMinAddress op.addr op.length) :
    ∃ t b, op.run E s = some t ∧ Carried s A a t (op.space E A) b := by
  cases op with
  | mmapRegion fileInfo addr length flags prot offset =>
      obtain ⟨t, b, hrun, -, hcar⟩ := mmapRegion_spec
        (q := (Op.mmapRegion fileInfo addr length flags prot offset).request) fileInfo F h hso hav
        (InBounds.request hop) rfl
      refine ⟨t, b, ?_, hcar⟩
      simp only [Op.request] at hrun
      simp [Op.run, hrun]
  | doBrk addr length flags =>
      have halign : pageAlign length = length := pageAlign_of_aligned hop.length_align
      have hop' : InBounds s.glob.kernelMinAddress (brkRequest addr length flags).addr
          (brkRequest addr length flags).length := by
        simp only [brkRequest, halign]
        exact hop
      obtain ⟨t, b, hrun, hcar⟩ := doBrk_spec F h hso hav (InBounds.request hop')
        (by rw [halign]; exact BitVec.le_refl _)
      exact ⟨t, b, by simp [Op.run, hrun], hcar⟩
  | munmap addr length =>
      obtain ⟨t, b, hrun, hcar⟩ := syscallMunmap_spec F h hso (by omega) hop.accept
        (by rw [pageAlign_of_aligned hop.length_align]) hop.lt
      simp only [Op.addr, Op.length] at hrun
      exact ⟨t, b, by simp [Op.run, hrun], hcar⟩

/-- A call keeps the list of areas in order. -/
theorem Op.sound_space {F : E.toNodeHeap.Fresh} {A : Space σ η} (hso : Sound F A)
    (hav : 3 ≤ F.avail A.heap) {op : Op} {kernelMinAddress : U64}
    (hop : InBounds kernelMinAddress op.addr op.length) : Sound F (op.space E A) := by
  cases op with
  | mmapRegion fileInfo addr length flags prot offset => exact (hso.map hop.lt hav).1
  | doBrk addr length flags =>
      refine (hso.map ?_ hav).1
      have halign : pageAlign length = length := pageAlign_of_aligned hop.length_align
      simp only [Op.request, Request.end', brkRequest, halign]
      exact hop.lt
  | munmap addr length => exact (hso.unmap _ _ (by omega)).1

/-! ## The covered addresses -/

/-- The attribute that only says that an address is covered. -/
def covering (_ : VmRegion) (_ : U64) : Unit := ()

theorem view_covering_iff {l : List VmRegion} {a : U64} :
    view covering l a = some () ↔ ∃ r ∈ l, r.Covers a := by
  constructor
  · intro h
    obtain ⟨r, hr, hc, -⟩ := exists_of_view h
    exact ⟨r, hr, hc⟩
  · rintro ⟨r, hr, hc⟩
    cases h : view covering l a with
    | some v => rfl
    | none =>
        unfold view at h
        rw [Option.map_eq_none_iff, List.find?_eq_none] at h
        exact absurd (by simpa using hc) (h r hr)

theorem splitStable_covering (E : Env σ η) (addr : U64) :
    SplitStable E covering (fun _ => True) addr :=
  fun _ _ _ _ _ _ _ => ⟨⟨trivial, trivial⟩, fun _ => ⟨fun _ => rfl, fun _ => rfl⟩⟩

/-- The covered addresses after a call on the list of areas. -/
theorem Op.covered_space {F : E.toNodeHeap.Fresh} {A : Space σ η} (hso : Sound F A)
    (hav : 3 ≤ F.avail A.heap) {op : Op} {kernelMinAddress : U64}
    (hop : InBounds kernelMinAddress op.addr op.length) (a : U64) :
    (∃ r ∈ (op.space E A).regions, r.Covers a) ↔
      op.cover (fun a => ∃ r ∈ A.regions, r.Covers a) a := by
  have hunmap : ∀ end', view covering (A.unmap E op.addr end').regions a =
      if op.addr ≤ a ∧ a < end' then none else view covering A.regions a := fun end' =>
    (view_unmap (P := fun _ => True) (splitStable_covering E _) (splitStable_covering E _) hso
      (by omega) fun _ _ => trivial).1 a
  have hmap : ∀ q : Request, q.addr = op.addr → q.end' = op.addr + op.length →
      ((∃ r ∈ (A.map E q).regions, r.Covers a) ↔
        (∃ r ∈ A.regions, r.Covers a) ∨ (op.addr ≤ a ∧ a < op.addr + op.length)) := by
    intro q haddr hend
    have hlt : q.addr < q.end' := by rw [haddr, hend]; exact hop.lt
    obtain ⟨hso', hav'⟩ := hso.unmap q.addr q.end' (by omega)
    obtain ⟨l₁, m, l₂, x, hpl⟩ := placedIn_place E hso'.sorted hlt (free_unmap hso _ _ (by omega))
    rw [← view_covering_iff, ← view_covering_iff, Space.map,
      view_placed hpl hso'.sorted (fun _ _ _ _ => rfl), haddr, hend, hunmap]
    by_cases hin : op.addr ≤ a ∧ a < op.addr + op.length <;> simp [hin]
  cases op with
  | mmapRegion fileInfo addr length flags prot offset => exact hmap _ rfl rfl
  | doBrk addr length flags =>
      refine hmap _ rfl ?_
      have halign : pageAlign length = length := pageAlign_of_aligned hop.length_align
      simp only [Op.request, Request.end', brkRequest, halign]
      rfl
  | munmap addr length =>
      rw [← view_covering_iff, Op.space]
      refine (Eq.congr_left (hunmap (addr + length))).trans ?_
      simp only [Op.cover, ← view_covering_iff, Op.addr]
      by_cases hin : addr ≤ a ∧ a < addr + length <;> simp [hin]

/-! ## The invariant -/

/-- One call keeps a well-formed store with a black root well formed, and changes the
covered addresses by its range. -/
theorem Op.wellFormed_step (F : E.toNodeHeap.Fresh) (hwf : WellFormed s) (hb : RootBlack s)
    (ho : NodesOwned F s) (hav : 3 ≤ F.avail s.heap) (op : Op)
    (hop : InBounds s.glob.kernelMinAddress op.addr op.length) :
    ∃ t, op.run E s = some t ∧ WellFormed t ∧ RootBlack t ∧ NodesOwned F t ∧
      t.glob = s.glob ∧ ∀ a, t.Covered a ↔ op.cover s.Covered a := by
  obtain ⟨a, hh, hg⟩ := hwf.holds hb
  have hso := hwf.sound ho
  obtain ⟨t, b, hrun, hcar⟩ := op.run_spec F hh hso hav hop
  have hso' := op.sound_space (E := E) hso hav hop
  obtain ⟨hwf', hb', hnodes, hregions⟩ := hcar.holds.wellFormed hso'.sorted (hcar.gaps hg)
  refine ⟨t, hrun, hwf', hb', fun p hp => ?_, hcar.glob, fun a => ?_⟩
  · rw [hcar.holds.heap]
    exact hso'.owned p (hnodes ▸ hp)
  · have hcov := op.covered_space (E := E) hso hav hop a
    rw [← hregions, St.space_regions] at hcov
    exact hcov

/-- The covered addresses after a run of calls. -/
def coverAll (ops : List Op) (S : U64 → Prop) : U64 → Prop := ops.foldl (fun S op => op.cover S) S

theorem Op.cover_congr (op : Op) {S T : U64 → Prop} (h : ∀ a, S a ↔ T a) (a : U64) :
    op.cover S a ↔ op.cover T a := by
  cases op <;> simp only [Op.cover, h]

theorem coverAll_congr (ops : List Op) :
    ∀ {S T : U64 → Prop}, (∀ a, S a ↔ T a) → ∀ a, coverAll ops S a ↔ coverAll ops T a := by
  induction ops with
  | nil => intro S T h a; exact h a
  | cons op ops ih => intro S T h a; exact ih (op.cover_congr h) a

theorem Runs.wellFormed {F : E.toNodeHeap.Fresh} {ops : List Op} (h : Runs E F s ops t)
    (hwf : WellFormed s) (hb : RootBlack s) (ho : NodesOwned F s) :
    WellFormed t ∧ RootBlack t ∧ NodesOwned F t ∧ ∀ a, t.Covered a ↔ coverAll ops s.Covered a := by
  induction h with
  | nil s => exact ⟨hwf, hb, ho, fun _ => Iff.rfl⟩
  | cons hop hav hrun _ ih =>
      obtain ⟨t', hrun', hwf', hb', ho', -, hcov⟩ := Op.wellFormed_step F hwf hb ho hav _ hop
      obtain rfl := Option.some.inj (hrun.symm.trans hrun')
      obtain ⟨h1, h2, h3, h4⟩ := ih hwf' hb' ho'
      exact ⟨h1, h2, h3, fun a => (h4 a).trans (coverAll_congr _ hcov a)⟩

/-- **The store invariant.**  From a well-formed store with a black root whose nodes the
allocator knows, every call inside the bounds returns and leaves such a store, with the
covered addresses changed by exactly its range; and so does every run of such calls. -/
theorem wellFormed_of_runs (F : E.toNodeHeap.Fresh) (s : St σ η) (hwf : WellFormed s)
    (hb : RootBlack s) (ho : NodesOwned F s) :
    (∀ op : Op, InBounds s.glob.kernelMinAddress op.addr op.length → 3 ≤ F.avail s.heap →
      ∃ t, op.run E s = some t ∧ WellFormed t ∧ RootBlack t ∧
        ∀ a, t.Covered a ↔ op.cover s.Covered a) ∧
    ∀ (ops : List Op) (t : St σ η), Runs E F s ops t →
      WellFormed t ∧ RootBlack t ∧ ∀ a, t.Covered a ↔ coverAll ops s.Covered a := by
  refine ⟨fun op hop hav => ?_, fun ops t hruns => ?_⟩
  · obtain ⟨t, h1, h2, h3, -, -, h4⟩ := Op.wellFormed_step F hwf hb ho hav op hop
    exact ⟨t, h1, h2, h3, h4⟩
  · obtain ⟨h1, h2, -, h3⟩ := hruns.wellFormed hwf hb ho
    exact ⟨h1, h2, h3⟩

/-! ## A small machine -/

/-- An allocator that counts up and remembers what is in use. -/
def bumpHeap : NodeHeap (Nat × List Ptr) where
  alloc h := (BitVec.ofNat 64 (h.1 + 1), h.1 + 1, BitVec.ofNat 64 (h.1 + 1) :: h.2)
  free h p := (h.1, h.2.filter (· ≠ p))

/-- It never hands out a node in use before the addresses run out. -/
def bumpFresh : bumpHeap.Fresh where
  live h p := p ∈ h.2 ∧ p.toNat ≤ h.1
  avail h := 2 ^ 64 - 1 - h.1
  alloc_fresh h hav := by
    have hnew : (BitVec.ofNat 64 (h.1 + 1)).toNat = h.1 + 1 := by
      rw [BitVec.toNat_ofNat, Nat.mod_eq_of_lt (by omega)]
    refine ⟨fun h0 => ?_, fun hl => ?_, fun q => ?_, ?_⟩
    · rw [show bumpHeap.alloc h = (BitVec.ofNat 64 (h.1 + 1), h.1 + 1, _) from rfl] at h0
      simp only at h0
      rw [h0] at hnew
      simp at hnew
    · have : (BitVec.ofNat 64 (h.1 + 1)).toNat ≤ h.1 := hl.2
      omega
    · simp only [bumpHeap, List.mem_cons]
      constructor
      · rintro ⟨rfl | hq, hle⟩
        · exact Or.inl rfl
        · rcases Nat.lt_or_ge h.1 q.toNat with hlt | hge
          · exact Or.inl (BitVec.eq_of_toNat_eq (by omega))
          · exact Or.inr ⟨hq, hge⟩
      · rintro (rfl | ⟨hq, hle⟩)
        · exact ⟨Or.inl rfl, by omega⟩
        · exact ⟨Or.inr hq, by omega⟩
    · simp only [bumpHeap]
      omega
  free_live h p _ := by
    refine ⟨fun q => ?_, Nat.le_refl _⟩
    simp only [bumpHeap, List.mem_filter, decide_eq_true_eq]
    tauto

/-- A host that keeps no page tables. -/
def quietHost : HostCalls Unit where
  mapVma h r := (h, ⟨r.physPageStart, r.physPageEnd, r.startAddr, r.endAddr, false, true⟩)
  unmapVma h _ := h
  dup h fd := (h, fd)
  close h _ := h
  fstat h _ := (h, 0#64, 0#64)

/-- The allocator and the host of the small machine. -/
def quietEnv : Env (Nat × List Ptr) Unit := { bumpHeap, quietHost with }

/-- Globals with a user space of sixteen pages. -/
def smallGlobals : Globals where
  kernelMinAddress := 0x10000#64
  userStackStart := 0x10000#64
  userStackPage := 0xf000#64
  userStackMin := 0x8000#64
  userStackPageLimit := 8#64
  userStackVma := 0#64
  userHeapStart := 0x4000#64
  userHeapVma := 0#64
  currBrk := 0#64

/-- A store without VMAs. -/
def St.empty (heap : σ) (host : η) (glob : Globals) : St σ η where
  vma _ := VmArea.zero
  vmaRbRoot := 0#64
  vmaListStart := 0#64
  vmaHighestAddr := 0#64
  heap := heap
  host := host
  glob := glob

theorem St.nodes_empty (heap : σ) (host : η) (glob : Globals) :
    (St.empty heap host glob).nodes = [] := rfl

theorem wellFormed_empty (heap : σ) (host : η) (glob : Globals) :
    WellFormed (St.empty heap host glob) where
  list := by
    rw [St.nodes_empty]
    exact List.isChain_cons_cons.mpr ⟨⟨rfl, fun h => absurd rfl h⟩, by simp⟩
  sorted := sorted_nil
  tree := ⟨leaf, rfl, rfl, trivial⟩
  highest := rfl

/-- A store with one readable VMA of four pages, in a node of the given colour. -/
def oneVmaStore (color : Color) : St (Nat × List Ptr) Unit :=
  let node : VmArea :=
    { VmArea.zero with
      startAddr := 0x1000#64
      endAddr := 0x5000#64
      pageProt := vmaRead
      fileInfo := nullFileInfo
      rbColor := color
      rbSubtreeGap := 0x1000#64 }
  { St.empty (1, [1#64]) () smallGlobals with
    vma := fun p => if p = 1#64 then node else VmArea.zero
    vmaRbRoot := 1#64
    vmaListStart := 1#64
    vmaHighestAddr := 0x5000#64 }

theorem nodes_oneVmaStore (color : Color) : (oneVmaStore color).nodes = [1#64] := by
  cases color <;> decide +kernel

theorem wellFormed_oneVmaStore (color : Color) : WellFormed (oneVmaStore color) := by
  have hnodes := nodes_oneVmaStore color
  refine ⟨?_, ?_, ⟨node leaf 1#64 leaf, ?_, hnodes.symm, ?_⟩, ?_⟩
  · rw [hnodes]
    cases color <;> decide +kernel
  · rw [St.regions, hnodes]
    exact sorted_cons.mpr ⟨by cases color <;> decide, by simp, sorted_nil⟩
  · cases color <;> decide +kernel
  · cases color <;> decide +kernel
  · rw [hnodes]
    cases color <;> decide +kernel

theorem nodesOwned_oneVmaStore (color : Color) : NodesOwned bumpFresh (oneVmaStore color) := by
  intro p hp
  rw [nodes_oneVmaStore] at hp
  obtain rfl := List.mem_singleton.mp hp
  cases color <;> exact ⟨by decide +kernel, by decide +kernel⟩

/-- A VMA of the three below. -/
def threeVma (startAddr endAddr : U64) (prev next rbParent rbLeft rbRight rbSubtreeGap : U64)
    (rbColor : Color) : VmArea :=
  { VmArea.zero with
    startAddr := startAddr, endAddr := endAddr, pageProt := vmaRead
    fileInfo := nullFileInfo, prev := prev, next := next, rbParent := rbParent
    rbLeft := rbLeft, rbRight := rbRight, rbSubtreeGap := rbSubtreeGap, rbColor := rbColor }

/-- A store with three VMAs of a page each in a tree that leans to one side, and a node that has
not been linked yet. -/
def threeVmaStore : St (Nat × List Ptr) Unit :=
  { St.empty (4, [1#64, 2#64, 3#64, 4#64]) () smallGlobals with
    vma := fun p =>
      if p = 1#64 then threeVma 0x1000#64 0x2000#64 0#64 2#64 0#64 0#64 3#64 0x4000#64 .black
      else if p = 2#64 then
        threeVma 0x6000#64 0x7000#64 1#64 3#64 3#64 0#64 0#64 0x4000#64 .red
      else if p = 3#64 then
        threeVma 0x8000#64 0x9000#64 2#64 0#64 1#64 2#64 0#64 0x4000#64 .black
      else if p = 4#64 then threeVma 0x3000#64 0x5000#64 0#64 0#64 0#64 0#64 0#64 0#64 .red
      else VmArea.zero
    vmaRbRoot := 1#64
    vmaListStart := 1#64
    vmaHighestAddr := 0x9000#64 }

theorem nodes_threeVmaStore : threeVmaStore.nodes = [1#64, 2#64, 3#64] := by decide +kernel

theorem wellFormed_threeVmaStore : WellFormed threeVmaStore := by
  have hnodes := nodes_threeVmaStore
  refine ⟨?_, ?_, ⟨node leaf 1#64 (node (node leaf 2#64 leaf) 3#64 leaf), ?_, hnodes.symm, ?_⟩, ?_⟩
  · rw [hnodes]
    decide +kernel
  · rw [St.regions, hnodes]
    exact sorted_cons.mpr ⟨by decide, by decide, sorted_cons.mpr ⟨by decide, by decide,
      sorted_cons.mpr ⟨by decide, by simp, sorted_nil⟩⟩⟩
  · decide +kernel
  · decide +kernel
  · rw [hnodes]
    decide +kernel

/-- A removal in the middle of the only VMA of the small machine. -/
theorem wellFormed_of_runs_oneVma :
    ∃ t, (Op.munmap 0x2000#64 0x1000#64).run quietEnv (oneVmaStore .black) = some t ∧
      WellFormed t ∧ ∀ a, t.Covered a ↔
        (oneVmaStore .black).Covered a ∧ ¬ (0x2000#64 ≤ a ∧ a < 0x2000#64 + 0x1000#64) := by
  obtain ⟨t, hrun, hwf, -, hcov⟩ := (wellFormed_of_runs (E := quietEnv) bumpFresh
    (oneVmaStore .black) (wellFormed_oneVmaStore .black) (fun _ => by decide +kernel)
    (nodesOwned_oneVmaStore .black)).1 (.munmap 0x2000#64 0x1000#64)
    ⟨by decide, by decide, by decide, by decide⟩ (by decide +kernel)
  exact ⟨t, hrun, hwf, hcov⟩

/-- With a red root the next insertion goes through the parent of the root, which is
`NULL`: the store is well formed in every other respect, and `mmap_region` of a free page
does not return. -/
theorem redRoot_insertion_faults :
    WellFormed (oneVmaStore .red) ∧ NodesOwned bumpFresh (oneVmaStore .red) ∧
      3 ≤ bumpFresh.avail (oneVmaStore .red).heap ∧
      InBounds (oneVmaStore .red).glob.kernelMinAddress 0x7000#64 0x1000#64 ∧
      mmapRegion quietEnv none 0x7000#64 0x1000#64 vmaGrows vmaRead 0#64 (oneVmaStore .red) =
        none := by
  refine ⟨wellFormed_oneVmaStore .red, nodesOwned_oneVmaStore .red, by decide +kernel,
    ⟨by decide, by decide, by decide, by decide⟩, ?_⟩
  rw [← Option.isNone_iff_eq_none]
  decide +kernel

end BufferVM
