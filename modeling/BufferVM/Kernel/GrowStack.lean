/-
  Kernel/GrowStack.lean --- what `grow_stack` does to the mappings around the stack.

  The new start is one page below the address rounded up to a page.  That is the page of the
  address, unless the address is a page address itself: then it is the page in front, and no
  neighbour is asked whether that page is free.
-/
import BufferVM.Kernel.Calls
import BufferVM.Kernel.Lookup

set_option autoImplicit false

namespace BufferVM

open PtrTree PtrTree.PTree PtrList

variable {σ η : Type} {s t : St σ η}

/-- The globals of the stack as `user_stack_init` leaves them. -/
structure StackGlob (glob : Globals) : Prop extends GlobOk glob where
  stackAlign : glob.userStackStart.toNat % 4096 = 0
  stackMin : glob.userStackMin = glob.userStackStart - glob.userStackPageLimit * pageSize

/-- Everything that is said of a VMA that has grown down to an address. -/
structure Grown (s t : St σ η) (p : Ptr) (addr : U64) : Prop where
  contains : (t.region p).Covers addr
  align : (t.region p).startAddr.toNat % 4096 = 0
  above : s.glob.userStackMin ≤ (t.region p).startAddr
  apart : (t.vma p).prev ≠ 0#64 → (t.region (t.vma p).prev).endAddr ≤ (t.region p).startAddr
  nodes : t.nodes = s.nodes
  wellFormed : WellFormed t

/-- `grow_stack` refuses to pass the limit of the stack. -/
def GrowthRefused (glob : Globals) (addr : U64) : Prop :=
  glob.userStackPageLimit < pageDifference glob.userStackStart (growStart addr)

instance (glob : Globals) (addr : U64) : Decidable (GrowthRefused glob addr) :=
  inferInstanceAs (Decidable (_ < _))

/-! ## The new start -/

theorem growStart_above {glob : Globals} (hg : StackGlob glob) {addr start : U64}
    (hlim : ¬ GrowthRefused glob addr) (hlt : addr < start) (hstart : start.toNat % 4096 = 0) :
    glob.userStackMin ≤ growStart addr ∧ growStart addr ≤ addr := by
  have hlim' := BitVec.not_lt.mp hlim
  obtain ⟨hlow, halign, -⟩ := growStart_bounds (e := 0#64) hg.toGlobOk hlim' hlt hstart
  have hmin : glob.userStackMin.toNat =
      glob.userStackStart.toNat - glob.userStackPageLimit.toNat * 4096 := by
    have hlimit := hg.limit
    have htop := glob.userStackStart.isLt
    have hmul : (glob.userStackPageLimit * pageSize).toNat =
        glob.userStackPageLimit.toNat * 4096 := by
      rw [BitVec.toNat_mul, show pageSize.toNat = 4096 from rfl, Nat.mod_eq_of_lt (by omega)]
    rw [hg.stackMin, BitVec.toNat_sub, hmul]
    omega
  have hdiff := BitVec.le_def.mp hlim'
  rw [toNat_pageDifference, BitVec.toNat_sub] at hdiff
  have hstackAlign := hg.stackAlign
  have hlimit := hg.limit
  have h1 := (growStart addr).isLt
  have h2 := glob.userStackStart.isLt
  have h3 := start.isLt
  have h4 := BitVec.lt_def.mp hlt
  have h5 := BitVec.lt_def.mp hlow
  refine ⟨BitVec.le_def.mpr (by omega), BitVec.le_def.mpr ?_⟩
  have hpage : (pageAlign addr).toNat = (addr.toNat + 4095) / 4096 * 4096 := by
    rw [toNat_pageAlign]
    omega
  have hval : (growStart addr).toNat = (2 ^ 64 - 4096 + (pageAlign addr).toNat) % 2 ^ 64 := by
    rw [growStart, BitVec.toNat_sub]
    rfl
  omega

/-! ## The store -/

/-- A VMA that is found ends above the address, and those in front of it do not. -/
theorem Threaded.found {a : PTree Ptr} (h : Threaded s a) {addr : U64} {p : Ptr}
    (hfind : BufferVM.vmaFind addr s = some p) (hp : p ≠ 0#64) :
    addr < (s.region p).endAddr ∧ ∃ l₁ l₂, s.nodes = l₁ ++ p :: l₂ ∧
      ∀ q ∈ l₁, (s.region q).endAddr ≤ addr := by
  rw [h.vmaFind] at hfind
  have hsome : s.nodes.find? (fun q => decide (addr < (s.region q).endAddr)) = some p := by
    cases hf : s.nodes.find? (fun q => decide (addr < (s.region q).endAddr)) with
    | none =>
        rw [hf] at hfind
        exact absurd (Option.some.inj hfind).symm hp
    | some q =>
        rw [hf] at hfind
        exact hfind
  obtain ⟨hend, l₁, l₂, hnodes, hbelow⟩ := List.find?_eq_some_iff_append.mp hsome
  refine ⟨of_decide_eq_true hend, l₁, l₂, hnodes, fun q hq => ?_⟩
  have hq' := hbelow q hq
  rw [Bool.not_eq_eq_eq_not, Bool.not_true, decide_eq_false_iff_not] at hq'
  exact BitVec.not_lt.mp hq'

/-- The store with the new start, before the gaps are mended and the VMA is mapped. -/
def startMoved (s : St σ η) (p : Ptr) (addr : U64) : St σ η :=
  { s.setRegion p { s.region p with startAddr := growStart addr } with
    glob := { s.glob with userStackPage := growStart addr } }

section StartMoved

variable {p : Ptr} {addr : U64} {v : St σ η}

theorem tree_startMoved : (startMoved s p addr).tree = s.tree := s.tree_setRegion p _

theorem region_startMoved (q : Ptr) : (startMoved s p addr).region q =
    if q = p then { s.region p with startAddr := growStart addr } else s.region q := by
  show (s.setRegion p _).region q = _
  rw [St.region_setRegion]

theorem prev_startMoved (q : Ptr) : ((startMoved s p addr).vma q).prev = (s.vma q).prev := by
  show ((s.setRegion p _).vma q).prev = _
  rw [St.prev_setRegion]

theorem listLinks_startMoved : (startMoved s p addr).listLinks = s.listLinks := by
  simp only [St.listLinks, startMoved, St.next_setRegion, St.prev_setRegion]
  rfl

/-- Mending the gaps leaves the regions to the mapping, which keeps the bounds. -/
theorem region_mapStart (E : Env σ η) (hbase : v.base = (startMoved s p addr).base) (q : Ptr) :
    (kernelMapVma E p v).region q = if q = p then
      ((startMoved s p addr).region p).mapped (E.mapVma v.host (v.region p)).2
    else (startMoved s p addr).region q := by
  rw [kernelMapVma]
  show (v.setRegion p _).region q = _
  rw [St.region_setRegion, St.region_of_base hbase, St.region_of_base hbase]

theorem startAddr_mapStart (E : Env σ η) (hbase : v.base = (startMoved s p addr).base) (q : Ptr) :
    ((kernelMapVma E p v).region q).startAddr =
      if q = p then growStart addr else (s.region q).startAddr := by
  rw [region_mapStart E hbase, region_startMoved, region_startMoved]
  by_cases hq : q = p <;> simp [hq]

theorem endAddr_mapStart (E : Env σ η) (hbase : v.base = (startMoved s p addr).base) (q : Ptr) :
    ((kernelMapVma E p v).region q).endAddr = (s.region q).endAddr := by
  rw [region_mapStart E hbase, region_startMoved, region_startMoved]
  by_cases hq : q = p <;> simp [hq]

theorem prev_mapStart (E : Env σ η) (hbase : v.base = (startMoved s p addr).base) (q : Ptr) :
    ((kernelMapVma E p v).vma q).prev = (s.vma q).prev := by
  refine Eq.trans ?_ ((St.prev_of_base hbase q).trans (prev_startMoved q))
  show ((v.setRegion p _).vma q).prev = _
  rw [St.prev_setRegion]

theorem listLinks_mapStart (E : Env σ η) (hbase : v.base = (startMoved s p addr).base) :
    (kernelMapVma E p v).listLinks = s.listLinks := by
  refine Eq.trans ?_ ((St.listLinks_of_base hbase).trans listLinks_startMoved)
  simp only [kernelMapVma, St.listLinks, St.next_setRegion, St.prev_setRegion]
  rfl

/-- The mapping leaves the gaps as they have been mended. -/
theorem own_mapStart (E : Env σ η) (hbase : v.base = (startMoved s p addr).base) :
    (kernelMapVma E p v).own = (startMoved s p addr).own := by
  rw [← St.own_of_base hbase]
  funext q
  refine own_congr ((prev_mapStart E hbase q).trans
    ((St.prev_of_base hbase q).trans (prev_startMoved q)).symm) ?_ fun _ => ?_
  · rw [startAddr_mapStart E hbase, St.region_of_base hbase, region_startMoved]
    by_cases hq : q = p <;> simp [hq]
  · rw [endAddr_mapStart E hbase, St.region_of_base hbase, region_startMoved]
    split
    · next hq => rw [hq]
    · rfl

/-- The new start makes another gap only in front of the VMA itself. -/
theorem own_startMoved {q : Ptr} (hq : q ≠ p) : (startMoved s p addr).own q = s.own q := by
  refine own_congr (prev_startMoved q) ?_ fun _ => ?_
  · rw [region_startMoved, if_neg hq]
  · rw [region_startMoved]
    by_cases hx : (s.vma q).prev = p <;> simp [hx]

end StartMoved

/-- `grow_stack` on a node of the store, once the limit allows it. -/
theorem growStack_run (E : Env σ η) (hw : WellFormed s) {p : Ptr} {addr : U64} {l₁ l₂ : List Ptr}
    (hnodes : s.nodes = l₁ ++ p :: l₂) (hlim : ¬ GrowthRefused s.glob addr) :
    ∃ t, growStack E p addr s = some (0, t) ∧ t.nodes = s.nodes ∧
      (∀ q, q ≠ p → t.region q = s.region q) ∧ (t.region p).startAddr = growStart addr ∧
      (t.region p).endAddr = (s.region p).endAddr ∧
      (t.vma p).prev = lastPtr 0#64 l₁ ∧ (Sorted t.regions → WellFormed t) := by
  obtain ⟨a, hshape, horder, haug⟩ := hw.tree
  have hnd : s.nodes.Nodup := hw.sorted.nodup
  have hmem : p ∈ a.toList := by
    rw [horder, hnodes]
    simp
  have hp0 : p ≠ 0#64 := hshape.ne_null p hmem
  have htree : (startMoved s p addr).tree = s.tree := tree_startMoved
  obtain ⟨v, hrun, hg, hgaps⟩ := vmaGapUpdate_spec (u := startMoved s p addr) (a := a)
    (by rw [St.rbLinks_of_tree htree, St.root_of_tree htree]; exact hshape) (horder ▸ hnd) hmem
  have hbase := hg.base
  have hchain : Chain (kernelMapVma E p v).listLinks s.nodes :=
    listLinks_mapStart E hbase ▸ hw.list
  have hnodes' : (kernelMapVma E p v).nodes = s.nodes :=
    nodes_eq_of_chain hchain hnd (horder ▸ hshape.ne_null)
  refine ⟨kernelMapVma E p v, ?_, hnodes', fun q hq => ?_,
    (startAddr_mapStart E hbase p).trans (if_pos rfl), endAddr_mapStart E hbase p, ?_,
    fun hsort => ?_⟩
  · rw [growStack, if_neg (show ¬ _ < _ from hlim)]
    simp only [deref_of_ne _ hp0, Option.bind_eq_bind, Option.bind_some]
    show (vmaGapUpdate p (startMoved s p addr)).bind _ = _
    rw [hrun]
    rfl
  · rw [region_mapStart E hbase, if_neg hq, region_startMoved, if_neg hq]
  · have hch : Chain (kernelMapVma E p v).listLinks (l₁ ++ p :: l₂) := hnodes ▸ hchain
    exact hch.prev_eq hp0
  · have htreet : (kernelMapVma E p v).tree = v.tree := v.tree_setRegion p _
    refine ⟨hnodes'.symm ▸ hchain, hsort, ⟨a, ?_, horder.trans hnodes'.symm, ?_⟩, ?_⟩
    · rw [St.rbLinks_of_tree htreet, St.root_of_tree htreet, hg.rbLinks, hg.root,
        St.rbLinks_of_tree htree, St.root_of_tree htree]
      exact hshape
    · rw [own_mapStart E hbase, gapNat_of_tree htreet]
      exact hgaps s.own (gapNat_of_tree htree ▸ haug) fun q _ hq => own_startMoved hq
    · rw [hnodes', highestEnd, endAddr_mapStart E hbase]
      have hv := St.highest_of_base hbase
      exact hv.trans hw.highest

/-- The page in front of a page address is taken when another VMA ends there; nothing else goes
wrong. -/
theorem growStack_grown_iff (E : Env σ η) (hw : WellFormed s) (halign : ∀ r ∈ s.regions, r.Aligned)
    (hg : StackGlob s.glob) {p : Ptr} {addr : U64} (hfind : vmaFind addr s = some p)
    (hp : p ≠ 0#64) (hlt : addr < (s.region p).startAddr) :
    ∃ failed t, growStack E p addr s = some (failed, t) ∧
      (((failed = 0 → Grown s t p addr) ∧ (failed ≠ 0 → t = s)) ↔
        (GrowthRefused s.glob addr ∨
          ¬ (pageOffset addr = 0#64 ∧ ∃ r ∈ s.regions, r.endAddr = addr))) := by
  by_cases hlim : GrowthRefused s.glob addr
  · refine ⟨1, s, if_pos hlim, ?_⟩
    exact ⟨fun _ => Or.inl hlim, fun _ => ⟨fun h => absurd h (by decide), fun _ => rfl⟩⟩
  obtain ⟨a, ha⟩ := hw.threaded
  obtain ⟨hend, l₁, l₂, hnodes, hbelow⟩ := ha.found hfind hp
  have hregions : s.regions = l₁.map s.region ++ s.region p :: l₂.map s.region := by
    rw [St.regions, hnodes, List.map_append, List.map_cons]
  have hpmem : s.region p ∈ s.regions := by
    rw [hregions]
    simp
  obtain ⟨t, hrun, hnodes', hother, hstartp, hstop, hprev, hwf⟩ := growStack_run E hw hnodes hlim
  obtain ⟨hmin, hle⟩ := growStart_above hg hlim hlt (halign _ hpmem).start
  have hbounds := fun e => growStart_bounds (e := e) hg.toGlobOk (BitVec.not_lt.mp hlim) hlt
    (halign _ hpmem).start
  have hne : ∀ q, q ∈ l₁ ∨ q ∈ l₂ → t.region q = s.region q := by
    intro q hq
    refine hother q ?_
    rintro rfl
    have hnd := hw.sorted.nodup
    rw [hnodes] at hnd
    grind
  refine ⟨0, t, hrun, fun h => Or.inr ?_, fun hfree => ⟨fun _ => ?_, fun h => absurd rfl h⟩⟩
  · -- a VMA that ends at the address is in front of the one that grows
    rintro ⟨h0, r, hr, hre⟩
    have hgrown := h.1 rfl
    have hsort := hgrown.wellFormed.sorted
    rw [St.regions, hnodes', hnodes, List.map_append, List.map_cons] at hsort
    obtain ⟨hfront, -, -⟩ := hsort.around
    have hsort' := hw.sorted
    rw [hregions] at hsort'
    have hr₁ : ∃ q ∈ l₁, s.region q = r :=
      List.mem_map.mp (hsort'.mem_front (hregions ▸ hr) (hre ▸ BitVec.le_of_lt hlt))
    obtain ⟨q, hq, rfl⟩ := hr₁
    have h1 := hfront _ (List.mem_map_of_mem hq)
    rw [hne q (Or.inl hq), hre, hstartp] at h1
    have h2 := (pageOffset_eq_zero_iff addr).mp h0
    have h3 := BitVec.le_def.mp h1
    have h4 := BitVec.le_def.mp hle
    have hval : (growStart addr).toNat = (2 ^ 64 - 4096 + (pageAlign addr).toNat) % 2 ^ 64 := by
      rw [growStart, BitVec.toNat_sub]
      rfl
    rw [toNat_pageAlign] at hval
    omega
  · replace hfree := hfree.resolve_left hlim
    have hfront : ∀ q ∈ l₁, (s.region q).endAddr ≤ growStart addr := by
      intro q hq
      have hmem : s.region q ∈ s.regions := by
        rw [hregions]
        simp [List.mem_map_of_mem hq]
      obtain ⟨-, -, hg3⟩ := hbounds (s.region q).endAddr
      exact hg3 (halign _ hmem).limit (hbelow q hq) fun h0 heq => hfree ⟨h0, _, hmem, heq⟩
    have hsort : Sorted t.regions := by
      rw [St.regions, hnodes', hnodes, List.map_append, List.map_cons,
        List.map_congr_left fun q hq => hne q (Or.inl hq),
        List.map_congr_left fun q hq => hne q (Or.inr hq)]
      have hsort' := hw.sorted
      rw [hregions] at hsort'
      refine hsort'.moveStart hstop ?_ fun r hr => ?_
      · rw [hstartp, hstop]
        bv_omega
      · obtain ⟨q, hq, rfl⟩ := List.mem_map.mp hr
        rw [hstartp]
        exact hfront q hq
    refine ⟨⟨hstartp ▸ hle, hstop.symm ▸ hend⟩, hstartp ▸ (hbounds 0#64).2.1, hstartp ▸ hmin,
      fun h0 => ?_, hnodes', hwf hsort⟩
    rw [hprev] at h0 ⊢
    rw [hne _ (Or.inl (lastPtr_mem h0)), hstartp]
    exact hfront _ (lastPtr_mem h0)

/-! ### A mapping below the stack -/

/-- A page at `0x9000`, and the stack with its first page at `0xf000`. -/
def mappedBelow : St (Nat × List Ptr) Unit :=
  let page : VmArea :=
    { VmArea.zero with
      startAddr := 0x9000#64
      endAddr := 0xa000#64
      next := 2#64
      rbRight := 2#64
      rbColor := .black
      rbSubtreeGap := 0x9000#64 }
  let stack : VmArea :=
    { VmArea.zero with
      startAddr := 0xf000#64
      endAddr := 0x10000#64
      flags := vmaGrows
      prev := 1#64
      rbParent := 1#64
      rbSubtreeGap := 0x5000#64 }
  { St.empty (2, [1#64, 2#64]) () smallGlobals with
    vma := fun p => if p = 1#64 then page else if p = 2#64 then stack else VmArea.zero
    vmaRbRoot := 1#64
    vmaListStart := 1#64
    vmaHighestAddr := 0x10000#64 }

theorem nodes_mappedBelow : mappedBelow.nodes = [1#64, 2#64] := by decide +kernel

theorem wellFormed_mappedBelow : WellFormed mappedBelow := by
  have hnodes := nodes_mappedBelow
  refine ⟨?_, ?_, ⟨node leaf 1#64 (node leaf 2#64 leaf), by decide +kernel, hnodes.symm,
    by decide +kernel⟩, ?_⟩
  · rw [hnodes]
    decide +kernel
  · rw [St.regions, hnodes]
    refine sorted_cons.mpr ⟨by decide, fun r hr => ?_,
      sorted_cons.mpr ⟨by decide, by simp, sorted_nil⟩⟩
    obtain rfl := List.mem_singleton.mp hr
    decide
  · rw [hnodes]
    decide +kernel

theorem aligned_mappedBelow : ∀ r ∈ mappedBelow.regions, r.Aligned := by
  intro r hr
  rw [St.regions, nodes_mappedBelow] at hr
  simp only [List.map_cons, List.map_nil, List.mem_cons, List.not_mem_nil, or_false] at hr
  rcases hr with rfl | rfl
  · exact ⟨by decide, by decide⟩
  · exact ⟨by decide, by decide⟩

theorem stackGlob_mappedBelow : StackGlob mappedBelow.glob :=
  ⟨⟨by decide, by decide, by decide⟩, by decide, by decide⟩

/-- A fault one word above the other mapping. -/
theorem growStack_grown_mappedBelow :
    ∃ t, growStack quietEnv 2#64 0xa008#64 mappedBelow = some (0, t) ∧
      Grown mappedBelow t 2#64 0xa008#64 := by
  have hfind : vmaFind 0xa008#64 mappedBelow = some 2#64 := by decide +kernel
  obtain ⟨failed, t, hrun, hiff⟩ := growStack_grown_iff quietEnv wellFormed_mappedBelow
    aligned_mappedBelow stackGlob_mappedBelow hfind (by decide) (by decide)
  have hfst : (growStack quietEnv 2#64 0xa008#64 mappedBelow).map Prod.fst = some 0 := by
    decide +kernel
  rw [hrun] at hfst
  obtain rfl : failed = 0 := Option.some.inj hfst
  obtain ⟨hgrown, -⟩ := hiff.mpr (Or.inr fun h => absurd h.1 (by decide))
  exact ⟨t, hrun, hgrown rfl⟩

/-- A fault at the address where the other mapping ends: the stack grows over it. -/
theorem growStack_overlaps :
    WellFormed mappedBelow ∧ vmaFind 0xa000#64 mappedBelow = some 2#64 ∧
      (mappedBelow.region 2#64).flags &&& vmaGrows ≠ 0#64 ∧
      0xa000#64 < (mappedBelow.region 2#64).startAddr ∧
      ∃ t, growStack quietEnv 2#64 0xa000#64 mappedBelow = some (0, t) ∧
        (t.region 2#64).startAddr < (t.region (t.vma 2#64).prev).endAddr ∧ ¬ WellFormed t := by
  have hrun : ((growStack quietEnv 2#64 0xa000#64 mappedBelow).any fun x =>
      decide (x.1 = 0 ∧ (x.2.region 2#64).startAddr < (x.2.region (x.2.vma 2#64).prev).endAddr ∧
        x.2.nodes = [1#64, 2#64] ∧ (x.2.vma 2#64).prev = 1#64)) = true := by
    decide +kernel
  obtain ⟨⟨failed, t⟩, hgrow, hp⟩ := (Option.any_eq_true _ _).mp hrun
  obtain ⟨rfl, hover, hnodes, hprev⟩ := of_decide_eq_true hp
  refine ⟨wellFormed_mappedBelow, by decide +kernel, by decide, by decide, t, hgrow, hover,
    fun hw => ?_⟩
  have hsort := hw.sorted
  rw [St.regions, show t.nodes = [1#64, 2#64] from hnodes] at hsort
  obtain ⟨-, hback, -⟩ := sorted_cons.mp hsort
  have hle := hback (t.region 2#64) (by simp)
  rw [show (t.vma 2#64).prev = 1#64 from hprev] at hover
  exact absurd hover (BitVec.not_lt.mpr hle)

end BufferVM
