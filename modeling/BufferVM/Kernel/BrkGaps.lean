/-
  Kernel/BrkGaps.lean --- what `syscall_brk` does to the gaps.

  `syscall_brk` moves the end of the VMA of the heap and then calls `vma_gap_update` on
  that VMA, whose own gap has not changed: the propagation stops at once.  What has changed
  is the gap of the next VMA, or `vma_highest_addr` when there is none, and neither is
  written.  The invariant of the store survives when that makes no difference.
-/
import BufferVM.Kernel.Calls

set_option autoImplicit false

namespace BufferVM

open PtrTree PtrTree.PTree PtrList

variable {σ η : Type} {s t : St σ η} {E : Env σ η} {ps l₁ l₂ : List Ptr} {a : PTree Ptr} {p : Ptr}

/-! ## A VMA with another end -/

/-- The store with another end written into a VMA. -/
def St.setEnd (s : St σ η) (p : Ptr) (e : U64) : St σ η :=
  s.setRegion p { s.region p with endAddr := e }

/-- No node is its own predecessor. -/
theorem Laid.prev_ne (h : Laid s ps a) (hp : p ∈ ps) : (s.vma p).prev ≠ p := by
  intro hprev
  obtain ⟨l₁, l₂, rfl⟩ := List.append_of_mem hp
  have hhead := h.eq_head_of_prev hp hprev
  have hnd := h.nodup
  cases l₂ with
  | nil => exact h.ne_null p hp hhead
  | cons n l₂ =>
      rw [headPtr_cons] at hhead
      obtain ⟨-, hnd', -⟩ := List.nodup_append.mp hnd
      exact (List.nodup_cons.mp hnd').1 (by simp [hhead])

/-- `vma_gap_update` on a VMA whose end alone has changed does nothing. -/
theorem vmaGapUpdate_setEnd (h : Laid s ps a) (hg : Gaps s ps a) (hp : p ∈ ps) (e : U64) :
    vmaGapUpdate p (s.setEnd p e) = some (s.setEnd p e) := by
  have hp0 := h.ne_null p hp
  have hu : Laid (s.setEnd p e) ps a := h.setRegion p _
  have htree : (s.setEnd p e).tree = s.tree := s.tree_setRegion p _
  obtain ⟨c, l, r, rfl⟩ := exists_path_of_mem (h.list.symm ▸ hp)
  obtain ⟨_, _, -, -, -, -, hl, hr⟩ := shape_plug.mp h.shape
  obtain ⟨⟨hstored, hal, har⟩, -⟩ := aug_plug.mp hg.aug
  -- the gap in front of the VMA is what it was
  have hown : (s.setEnd p e).own p = s.own p :=
    own_setRegion (fun _ => rfl) fun hprev => absurd hprev (h.prev_ne hp)
  have hbelow : ∀ d, (s.setEnd p e).gapAt ((s.setEnd p e).child d p) = s.gapAt (s.child d p) := by
    intro d
    rw [St.child_of_tree htree, St.gapAt, St.gapAt, gapNat_of_tree htree]
  have hleft : s.gapAt (s.child .left p) = sup s.own l.toList := gapAt_eq_sup hl hal
  have hright : s.gapAt (s.child Side.left.flip p) = sup s.own r.toList := gapAt_eq_sup hr har
  have hsame : vmaComputeSubtreeGap (s.setEnd p e) p = (s.setEnd p e).gap p := by
    apply BitVec.eq_of_toNat_eq
    rw [toNat_vmaComputeSubtreeGap (s.setEnd p e) .left p, hown, hbelow, hbelow, hleft, hright,
      St.gap_of_tree htree]
    exact (sup_join .left l r p).symm.trans hstored.symm
  rw [vmaGapUpdate, deref_of_ne _ hp0]
  show vmaRbGapPropagate (walkBound - 1 + 1) p 0#64 (s.setEnd p e) = _
  rw [vmaRbGapPropagate, if_neg hp0, if_neg hp0]
  simp [hsame]

/-- What the invariant says of a store whose links are in order. -/
theorem Laid.wellFormed_iff (h : Laid s ps a) (hs : Sorted (ps.map s.region)) :
    WellFormed s ↔ Gaps s ps a := by
  have hnodes := h.nodes_eq
  constructor
  · intro hwf
    obtain ⟨b, hshape, -, haug⟩ := hwf.tree
    obtain rfl := h.shape.unique hshape
    exact ⟨haug, hnodes ▸ hwf.highest⟩
  · intro hg
    refine ⟨hnodes.symm ▸ h.chain, by rw [St.regions, hnodes]; exact hs,
      ⟨a, h.shape, h.list.trans hnodes.symm, hg.aug⟩, hnodes.symm ▸ hg.highest⟩

/-- The gaps depend on the bounds of the VMAs and on what is stored. -/
theorem Gaps.congr {u : St σ η} (hown : u.own = s.own) (hgap : u.gapNat = s.gapNat)
    (hhigh : u.vmaHighestAddr = s.vmaHighestAddr)
    (hend : ∀ q, (u.region q).endAddr = (s.region q).endAddr) :
    Gaps u ps a ↔ Gaps s ps a := by
  have hh : highestEnd u ps = highestEnd s ps := by
    rw [highestEnd, highestEnd, hend]
  constructor
  · rintro ⟨h1, h2⟩
    exact ⟨hown ▸ hgap ▸ h1, hhigh ▸ hh ▸ h2⟩
  · rintro ⟨h1, h2⟩
    exact ⟨hown.symm ▸ hgap.symm ▸ h1, hhigh.trans (h2.trans hh.symm)⟩

/-- The last VMA with another end: the highest address is right when the end is the same. -/
theorem gaps_setEnd_last (h : Laid s (l₁ ++ [p]) a) (hg : Gaps s (l₁ ++ [p]) a) (e : U64) :
    Gaps (s.setEnd p e) (l₁ ++ [p]) a ↔ e = (s.region p).endAddr := by
  have hp0 : p ≠ 0#64 := h.ne_null p (by simp)
  have hold : highestEnd s (l₁ ++ [p]) = (s.region p).endAddr := by
    rw [highestEnd, lastPtr_append_singleton, if_neg hp0]
  have hnew : highestEnd (s.setEnd p e) (l₁ ++ [p]) = e := by
    rw [highestEnd, lastPtr_append_singleton, if_neg hp0, St.setEnd, St.region_setRegion,
      if_pos rfl]
  constructor
  · intro hu
    have := hu.highest
    rw [hnew] at this
    rw [← this, ← hold, ← hg.highest]
    rfl
  · intro heq
    refine ⟨?_, ?_⟩
    · refine hg.aug.congr (fun q hq => ?_) fun q _ => ?_
      · refine own_setRegion (fun _ => rfl) fun _ _ => heq
      · rw [St.setEnd, gapNat_of_tree (s.tree_setRegion p _)]
    · rw [hnew, heq, ← hold, ← hg.highest]
      rfl

/-- The largest gap that is stored below a node. -/
def St.gapBelow (s : St σ η) (p : Ptr) : Nat :=
  max (s.gapAt (s.child .left p)) (s.gapAt (s.child .right p))

/-- A VMA in front of another one with another end: the stored gaps are right when the
largest gap in the subtree of the other one stays the same. -/
theorem gaps_setEnd_next {n : Ptr} (h : Laid s (l₁ ++ p :: n :: l₂) a)
    (hg : Gaps s (l₁ ++ p :: n :: l₂) a) (e : U64) :
    Gaps (s.setEnd p e) (l₁ ++ p :: n :: l₂) a ↔
      max ((s.region n).startAddr - e).toNat (s.gapBelow n) =
        max ((s.region n).startAddr - (s.region p).endAddr).toNat (s.gapBelow n) := by
  have hp0 : p ≠ 0#64 := h.ne_null p (by simp)
  have hnp : n ≠ p := by
    have hnd := h.nodup
    obtain ⟨-, hnd', -⟩ := List.nodup_append.mp hnd
    rintro rfl
    exact (List.nodup_cons.mp hnd').1 (by simp)
  have hprev : (s.vma n).prev = p := by
    have hch : Chain s.listLinks ((l₁ ++ [p]) ++ n :: l₂) := by simpa using h.chain
    have hlast := hch.prev_eq (h.ne_null n (by simp))
    rw [St.listLinks_null, lastPtr_append_singleton] at hlast
    exact hlast
  have hown : s.own n = ((s.region n).startAddr - (s.region p).endAddr).toNat := by
    rw [St.own, hprev, if_neg hp0]
    rfl
  have hown' : (s.setEnd p e).own n = ((s.region n).startAddr - e).toNat := by
    have hregn : (s.setEnd p e).region n = s.region n := by
      rw [St.setEnd, St.region_setRegion, if_neg hnp]
    have hregp : ((s.setEnd p e).region p).endAddr = e := by
      rw [St.setEnd, St.region_setRegion, if_pos rfl]
    have hprev' : ((s.setEnd p e).vma n).prev = p := by
      rw [St.setEnd, St.prev_setRegion, hprev]
    rw [St.own, hprev', if_neg hp0]
    show (((s.setEnd p e).region n).startAddr - ((s.setEnd p e).region p).endAddr).toNat = _
    rw [hregn, hregp]
  -- the highest address is that of another VMA
  have hhigh : highestEnd (s.setEnd p e) (l₁ ++ p :: n :: l₂) =
      highestEnd s (l₁ ++ p :: n :: l₂) := by
    have hne : lastPtr 0#64 (l₁ ++ p :: n :: l₂) ≠ p := by
      intro hlast
      rcases (n :: l₂).eq_nil_or_concat with hnil | ⟨m, x, hm⟩
      · cases hnil
      · rw [hm, List.concat_eq_append, ← List.cons_append, ← List.append_assoc,
          lastPtr_append_singleton] at hlast
        have hnd := h.nodup
        obtain ⟨-, hnd', -⟩ := List.nodup_append.mp hnd
        exact (List.nodup_cons.mp hnd').1 (by rw [hm]; simp [hlast])
    rw [highestEnd, highestEnd, St.setEnd, St.region_setRegion, if_neg hne]
  obtain ⟨c, l, r, rfl⟩ := exists_path_of_mem (t := a) (p := n) (by rw [h.list]; simp)
  obtain ⟨_, _, -, -, -, -, hl, hr⟩ := shape_plug.mp h.shape
  obtain ⟨⟨-, hal, har⟩, -⟩ := aug_plug.mp hg.aug
  have hbelow : s.gapBelow n = max (sup s.own l.toList) (sup s.own r.toList) := by
    rw [St.gapBelow]
    exact congrArg₂ max (gapAt_eq_sup hl hal) (gapAt_eq_sup hr har)
  have hgap : (s.setEnd p e).gapNat = s.gapNat := gapNat_of_tree (s.tree_setRegion p _)
  have hchange := aug_change_iff (s.setEnd p e).own (by rw [h.list]; exact h.nodup) hg.aug
    fun q hq hqn => own_setRegion (fun _ => rfl) fun hq' _ => by
      refine absurd ?_ hqn
      exact h.eq_head_of_prev (h.list ▸ hq) hq'
  rw [hbelow, ← hown, ← hown', ← hchange]
  constructor
  · intro hu
    exact hgap ▸ hu.aug
  · intro haug
    exact ⟨hgap.symm ▸ haug, by rw [hhigh, ← hg.highest]; rfl⟩

/-! ## `syscall_brk` -/

/-- Moving the break leaves everything right that is stored about gaps: the end stays where
it is, or there is a next VMA and the gap in front of it is, before and after, not larger
than one that is stored below it in the tree. -/
def BrkHarmless (s : St σ η) (brk : U64) : Prop :=
  s.BrkMoves brk →
    pageAlign brk = (s.region s.glob.userHeapVma).endAddr ∨
      ((s.vma s.glob.userHeapVma).next ≠ 0#64 ∧
        ((s.region (s.vma s.glob.userHeapVma).next).startAddr -
            (s.region s.glob.userHeapVma).endAddr).toNat ≤
          s.gapBelow (s.vma s.glob.userHeapVma).next ∧
        ((s.region (s.vma s.glob.userHeapVma).next).startAddr - pageAlign brk).toNat ≤
          s.gapBelow (s.vma s.glob.userHeapVma).next)

/-- The state after the break has moved. -/
def St.brkMoved (E : Env σ η) (s : St σ η) (e : U64) : St σ η :=
  { kernelMapVma E s.glob.userHeapVma (s.setEnd s.glob.userHeapVma e) with
    glob := { s.glob with currBrk := e } }

section Moves

variable {F : E.toNodeHeap.Fresh} {brk : U64}

theorem syscallBrk_moves (hwf : WellFormed s) (hb : RootBlack s)
    (hheap : s.glob.userHeapVma ∈ s.nodes) (hm : s.BrkMoves brk) :
    syscallBrk E brk s = some (pageAlign brk, s.brkMoved E (pageAlign brk)) := by
  obtain ⟨a, hh, hg⟩ := hwf.holds hb
  rw [St.space_nodes] at hg
  have hlaid : Laid s s.nodes a := St.space_nodes s ▸ hh.laid
  have hrun := vmaGapUpdate_setEnd hlaid hg hheap (pageAlign brk)
  have h0 := hlaid.ne_null _ hheap
  obtain ⟨hm1, hm2, hm3, hm4⟩ := hm
  have hgo : ¬ (pageAlign brk ≤ (s.region s.glob.userHeapVma).startAddr ∨
      ((s.vma s.glob.userHeapVma).next ≠ 0#64 ∧
        (s.region (s.vma s.glob.userHeapVma).next).startAddr < pageAlign brk)) := by
    rintro (h | ⟨hn, h⟩)
    · bv_omega
    · have := hm4 hn
      bv_omega
  rw [St.setEnd] at hrun
  simp only [syscallBrk, if_neg hm1, if_neg hm2, deref_of_ne _ h0, Option.bind_eq_bind,
    Option.bind_some, if_neg hgo, hrun]
  rfl

/-- Moving the break keeps the order of the VMAs, and the rest of the invariant exactly
when it is harmless. -/
theorem brkMoved_wellFormed_iff (hwf : WellFormed s) (hb : RootBlack s) (ho : NodesOwned F s)
    (hheap : s.glob.userHeapVma ∈ s.nodes) (hm : s.BrkMoves brk) :
    WellFormed (s.brkMoved E (pageAlign brk)) ↔ BrkHarmless s brk := by
  obtain ⟨a, hh, hg⟩ := hwf.holds hb
  rw [St.space_nodes] at hg
  have hlaid : Laid s s.nodes a := St.space_nodes s ▸ hh.laid
  have hrun := vmaGapUpdate_setEnd hlaid hg hheap (pageAlign brk)
  obtain ⟨-, -, -, -, -, hlinked, -⟩ :=
    (Valid.linked F ⟨hwf, hb⟩ ho).brkMoves (E := E) hm hheap hrun
  have hlinked' := (hlinked.withGlob { s.glob with currBrk := pageAlign brk }).1
  have hlaid' : Laid (s.brkMoved E (pageAlign brk)) s.nodes a :=
    ((hlaid.setRegion _ _).kernelMapVma _).congr (fun _ _ => rfl) rfl rfl
  have hsorted : Sorted (s.nodes.map (s.brkMoved E (pageAlign brk)).region) := by
    have := hlinked'.sound.sorted
    rw [St.space_regions, St.regions] at this
    rwa [← hlaid'.nodes_eq]
  have hends : ∀ q, ((s.brkMoved E (pageAlign brk)).region q).endAddr =
      ((s.setEnd s.glob.userHeapVma (pageAlign brk)).region q).endAddr := by
    intro q
    show ((kernelMapVma E s.glob.userHeapVma (s.setEnd s.glob.userHeapVma
      (pageAlign brk))).region q).endAddr = _
    rw [region_kernelMapVma]
    split
    · rename_i hq
      rw [hq]
      rfl
    · rfl
  rw [hlaid'.wellFormed_iff hsorted]
  refine (Gaps.congr (u := s.brkMoved E (pageAlign brk)) (own_kernelMapVma E _ _)
    (gapNat_kernelMapVma E _ _) rfl hends).trans ?_
  generalize hp : s.glob.userHeapVma = p at hheap ⊢
  obtain ⟨l₁, l₂, hnodes⟩ := List.append_of_mem hheap
  rw [hnodes] at hg hlaid ⊢
  have hnext : (s.vma p).next = headPtr 0#64 l₂ := by
    have hp0 := hlaid.ne_null p (by simp)
    have hlink : s.listLinks.next p = headPtr 0#64 l₂ := hlaid.chain.next_eq
    simpa [St.listLinks, hp0] using hlink
  rw [BrkHarmless, hp, hnext]
  cases l₂ with
  | nil =>
      rw [gaps_setEnd_last hlaid hg]
      exact ⟨fun h _ => Or.inl h, fun h => (h hm).resolve_right fun hn => hn.1 rfl⟩
  | cons n l₂ =>
      have hn0 : n ≠ 0#64 := hlaid.ne_null n (by simp)
      rw [gaps_setEnd_next hlaid hg, headPtr_cons]
      constructor
      · intro heq _
        by_cases hsame : pageAlign brk = (s.region p).endAddr
        · exact Or.inl hsame
        · have hne : ((s.region n).startAddr - pageAlign brk).toNat ≠
              ((s.region n).startAddr - (s.region p).endAddr).toNat := by
            intro h
            have := BitVec.eq_of_toNat_eq h
            exact hsame (by bv_omega)
          exact Or.inr ⟨hn0, by omega, by omega⟩
      · intro h
        rcases h hm with hsame | ⟨-, h1, h2⟩
        · rw [hsame]
        · rw [Nat.max_eq_right h1, Nat.max_eq_right h2]

end Moves

/-! ## The break over a sequence of calls -/

/-- A sequence of calls of `syscall_brk` with the breaks they return; between them anything
may happen that leaves `curr_brk` alone. -/
inductive BrkCalls (E : Env σ η) : St σ η → List U64 → St σ η → Prop
  | nil (s : St σ η) : BrkCalls E s [] s
  | other {s t u : St σ η} {vs : List U64} (hcurr : t.glob.currBrk = s.glob.currBrk)
      (hrest : BrkCalls E t vs u) : BrkCalls E s vs u
  | call {s t u : St σ η} {brk v : U64} {vs : List U64} (hrun : syscallBrk E brk s = some (v, t))
      (hrest : BrkCalls E t vs u) : BrkCalls E s (v :: vs) u

/-- One call returns the new `curr_brk`, which is not below the old one. -/
theorem syscallBrk_currBrk {brk v : U64} (hrun : syscallBrk E brk s = some (v, t)) :
    t.glob.currBrk = v ∧ s.glob.currBrk ≤ v := by
  rcases syscallBrk_cases hrun with ⟨-, h0, y, -, -, -, heq⟩ | ⟨heq, -⟩ | ⟨hm, -, v', -, heq⟩
  · obtain ⟨rfl, rfl⟩ := Prod.mk.inj heq
    rw [h0]
    exact ⟨rfl, by bv_omega⟩
  · obtain ⟨rfl, rfl⟩ := Prod.mk.inj heq
    exact ⟨rfl, BitVec.le_refl _⟩
  · obtain ⟨rfl, rfl⟩ := Prod.mk.inj heq
    refine ⟨rfl, ?_⟩
    -- rounded up the break is not zero, so it has not wrapped around
    obtain ⟨-, hge, hstart, -⟩ := hm
    have hround := toNat_pageAlign brk
    have hlt := brk.isLt
    have hpos : 0 < (pageAlign brk).toNat := by bv_omega
    rw [BitVec.not_lt, BitVec.le_def] at hge
    rw [BitVec.le_def]
    omega

/-- The breaks returned never decrease. -/
theorem BrkCalls.monotone {vs : List U64} (h : BrkCalls E s vs t) :
    vs.Pairwise (· ≤ ·) ∧ ∀ v ∈ vs, s.glob.currBrk ≤ v := by
  induction h with
  | nil s => exact ⟨List.Pairwise.nil, by simp⟩
  | other hcurr _ ih =>
      rw [hcurr] at ih
      exact ih
  | call hrun _ ih =>
      obtain ⟨hcurr, hle⟩ := syscallBrk_currBrk hrun
      rw [hcurr] at ih
      refine ⟨List.pairwise_cons.mpr ⟨ih.2, ih.1⟩, fun x hx => ?_⟩
      rcases List.mem_cons.mp hx with rfl | hx
      · exact hle
      · exact BitVec.le_trans hle (ih.2 x hx)

/-- The first call maps a page and keeps the invariant. -/
theorem syscallBrk_first {F : E.toNodeHeap.Fresh} (hwf : WellFormed s) (hb : RootBlack s)
    (ho : NodesOwned F s) (hav : 3 ≤ F.avail s.heap) (h0 : s.glob.currBrk = 0#64)
    (hstart : InBounds s.glob.kernelMinAddress s.glob.userHeapStart pageSize) :
    ∃ v t, syscallBrk E 0#64 s = some (v, t) ∧ WellFormed t := by
  obtain ⟨u, hu⟩ : ∃ u : St σ η,
      u = { s with glob := { s.glob with currBrk := s.glob.userHeapStart } } := ⟨_, rfl⟩
  have hvma : u.vma = s.vma := by rw [hu]
  have hlist : u.vmaListStart = s.vmaListStart := by rw [hu]
  have hroot : u.vmaRbRoot = s.vmaRbRoot := by rw [hu]
  have hheap : u.heap = s.heap := by rw [hu]
  have hmin : u.glob.kernelMinAddress = s.glob.kernelMinAddress := by rw [hu]
  have hwfu : WellFormed u := hwf.congr hvma hlist hroot (by rw [hu])
  have hbu : RootBlack u := by
    rw [RootBlack, St.color, hroot, hvma]
    exact hb
  have hou : NodesOwned F u := by
    intro p hp
    rw [hheap]
    exact ho p (St.nodes_congr hvma hlist ▸ hp)
  obtain ⟨t, p, hrun, hp0, -, hglob, -⟩ := (Valid.linked F ⟨hwfu, hbu⟩ hou).mmapRegion
    (q := heapRequest s.glob) (hheap ▸ hav) (hmin ▸ hstart)
  have hrun' : mmapRegion E none s.glob.userHeapStart pageSize vmaGrows heapProt 0#64 u =
      some (s.glob.userHeapStart, p, t) := hrun
  obtain ⟨t', hop, hwf', -⟩ := Op.wellFormed_step F hwfu hbu hou (hheap ▸ hav)
    (.mmapRegion none s.glob.userHeapStart pageSize vmaGrows heapProt 0#64) (hmin ▸ hstart)
  have ht : t' = t := by
    simp only [Op.run, hrun', Option.map_some, Option.some.injEq] at hop
    exact hop.symm
  subst ht
  have hcurr : t'.glob.currBrk = s.glob.userHeapStart := by
    rw [hglob, hu]
  refine ⟨s.glob.userHeapStart, { t' with glob := { t'.glob with userHeapVma := p } }, ?_,
    hwf'.congr rfl rfl rfl rfl⟩
  subst hu
  simp only [syscallBrk, h0, and_self, if_true, Option.bind_eq_bind, hrun', Option.bind_some]
  rw [if_pos ⟨hp0, hcurr.symm⟩, hcurr]

/-- **`brk` preserves the store invariant**, and returns breaks that never decrease, exactly
when it does not move the break or moves it harmlessly. -/
theorem brk_keeps_iff (F : E.toNodeHeap.Fresh) (s : St σ η) (hwf : WellFormed s)
    (hb : RootBlack s) (ho : NodesOwned F s) (hav : 3 ≤ F.avail s.heap)
    (hheap : s.glob.userHeapVma ∈ s.nodes)
    (hstart : InBounds s.glob.kernelMinAddress s.glob.userHeapStart pageSize) (brk : U64) :
    ((∃ v t, syscallBrk E brk s = some (v, t) ∧ WellFormed t) ∧
        ∀ (vs : List U64) (t : St σ η), BrkCalls E s vs t → vs.Pairwise (· ≤ ·)) ↔
      BrkHarmless s brk := by
  have hmono : ∀ (vs : List U64) (t : St σ η), BrkCalls E s vs t → vs.Pairwise (· ≤ ·) :=
    fun _ _ h => h.monotone.1
  by_cases hm : s.BrkMoves brk
  · have hrun := syscallBrk_moves (E := E) hwf hb hheap hm
    rw [← brkMoved_wellFormed_iff (E := E) hwf hb ho hheap hm]
    constructor
    · rintro ⟨⟨v, t, hvt, ht⟩, -⟩
      obtain ⟨-, rfl⟩ := Prod.mk.inj (Option.some.inj (hrun.symm.trans hvt))
      exact ht
    · intro ht
      exact ⟨⟨_, _, hrun, ht⟩, hmono⟩
  · refine ⟨fun _ h => absurd h hm, fun _ => ⟨?_, hmono⟩⟩
    by_cases hfirst : brk = 0#64 ∧ s.glob.currBrk = 0#64
    · obtain ⟨rfl, h0⟩ := hfirst
      exact syscallBrk_first hwf hb ho hav h0 hstart
    · obtain ⟨a, hh, -⟩ := hwf.holds hb
      have h0 := hh.laid.ne_null _ (by rw [St.space_nodes]; exact hheap)
      refine ⟨s.glob.currBrk, s, ?_, hwf⟩
      rw [syscallBrk, if_neg hfirst]
      by_cases hlt : brk < s.glob.currBrk
      · rw [if_pos hlt]
      · rw [if_neg hlt]
        simp only [deref_of_ne _ h0, Option.bind_eq_bind, Option.bind_some]
        rw [if_pos]
        by_contra hgo
        rw [not_or] at hgo
        refine hm ⟨hfirst, hlt, BitVec.not_le.mp hgo.1, fun hn => ?_⟩
        exact BitVec.not_lt.mp fun h => hgo.2 ⟨hn, h⟩

/-- The small machine with its only VMA as the heap, the break in its last page. -/
def heapStore : St (Nat × List Ptr) Unit :=
  { oneVmaStore .black with
    glob := { smallGlobals with userHeapVma := 1#64, currBrk := 0x4800#64 } }

theorem wellFormed_heapStore : WellFormed heapStore :=
  (wellFormed_oneVmaStore .black).congr rfl rfl rfl rfl

/-- The second of three VMAs as the heap. -/
def middleHeapStore : St (Nat × List Ptr) Unit :=
  { threeVmaStore with glob := { smallGlobals with userHeapVma := 2#64, currBrk := 0x6800#64 } }

theorem nodes_middleHeapStore : middleHeapStore.nodes = [1#64, 2#64, 3#64] := by decide +kernel

/-- A break that moves up to the next VMA, whose gap is not the largest of its subtree. -/
theorem brk_keeps_iff_middle :
    (∃ v t, syscallBrk quietEnv 0x7800#64 middleHeapStore = some (v, t) ∧ WellFormed t) ∧
      ∀ (vs : List U64) (t : St (Nat × List Ptr) Unit),
        BrkCalls quietEnv middleHeapStore vs t → vs.Pairwise (· ≤ ·) := by
  have howned : NodesOwned bumpFresh middleHeapStore := by
    intro p hp
    rw [nodes_middleHeapStore] at hp
    simp only [List.mem_cons, List.not_mem_nil, or_false] at hp
    rcases hp with rfl | rfl | rfl <;> exact ⟨by decide +kernel, by decide +kernel⟩
  refine (brk_keeps_iff (E := quietEnv) bumpFresh middleHeapStore
    (wellFormed_threeVmaStore.congr rfl rfl rfl rfl) (fun _ => by decide +kernel) howned
    (by decide +kernel) ?_
    ⟨by decide +kernel, by decide +kernel, by decide +kernel, by decide +kernel⟩
    0x7800#64).mpr ?_
  · rw [nodes_middleHeapStore]
    decide +kernel
  · exact fun _ => Or.inr ⟨by decide +kernel, by decide +kernel, by decide +kernel⟩

/-- A break above the end of the last VMA: `vma_highest_addr` stays behind, and the next
search for a gap finds a page of the heap. -/
theorem brk_leaves_highest :
    WellFormed heapStore ∧
      ∃ t, syscallBrk quietEnv 0x8000#64 heapStore = some (0x8000#64, t) ∧ ¬ WellFormed t ∧
        findNextGap 0#64 0x8000#64 0x1000#64 t = some 0x7000#64 ∧ t.Covered 0x7000#64 := by
  refine ⟨wellFormed_heapStore, ?_⟩
  have hrun : (syscallBrk quietEnv 0x8000#64 heapStore).map (fun x =>
      ([x.1, x.2.vmaHighestAddr, highestEnd x.2 x.2.nodes],
        findNextGap 0#64 0x8000#64 0x1000#64 x.2,
        x.2.regions.map fun r => (r.startAddr, r.endAddr))) =
      some ([0x8000#64, 0x5000#64, 0x8000#64], some 0x7000#64, [(0x1000#64, 0x8000#64)]) := by
    decide +kernel
  obtain ⟨⟨v, t⟩, ht, hfacts⟩ := Option.map_eq_some_iff.mp hrun
  simp only [Prod.mk.injEq, List.cons.injEq, and_true] at hfacts
  obtain ⟨⟨rfl, hhigh, hend⟩, hgap, hregions⟩ := hfacts
  refine ⟨t, ht, fun hwf => ?_, hgap, ?_⟩
  · have := hwf.highest
    rw [hhigh, hend] at this
    exact absurd this (by decide)
  · obtain ⟨r, hr, hbounds⟩ := List.map_eq_singleton_iff.mp hregions
    obtain ⟨h1, h2⟩ := Prod.mk.inj hbounds
    exact ⟨r, by simp [hr], by rw [h1]; decide, by rw [h2]; decide⟩

end BufferVM
