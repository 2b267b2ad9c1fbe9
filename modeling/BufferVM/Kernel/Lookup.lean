/-
  Kernel/Lookup.lean --- looking up in the tree is looking along the list.

  The tree of a store may have any shape and any colours: what the walks need is that its
  traversal is the list, and that the list is ascending.  `vma_find` is then a search along the
  list, `vma_find_links` a test of every VMA for an overlap, and the link it returns the one
  place where the new VMA keeps both the list and the traversal ascending.
-/
import BufferVM.Kernel.WellFormed

set_option autoImplicit false

namespace BufferVM

open PtrTree PtrTree.PTree PtrList

variable {σ η : Type} {s t : St σ η} {a : PTree Ptr}

/-- The list and the tree of the store hold the same VMAs, in ascending order. -/
structure Threaded (s : St σ η) (a : PTree Ptr) : Prop where
  list : Chain s.listLinks s.nodes
  sorted : Sorted s.regions
  tree : Shape s.rbLinks 0#64 s.vmaRbRoot a
  order : a.toList = s.nodes

theorem WellFormed.threaded (h : WellFormed s) : ∃ a, Threaded s a := by
  obtain ⟨a, htree, horder, -⟩ := h.tree
  exact ⟨a, h.list, h.sorted, htree, horder⟩

/-- The VMAs that end at or below an address. -/
def St.endingBelow (s : St σ η) (addr : U64) : List Ptr :=
  s.nodes.filter fun p => decide ((s.region p).endAddr ≤ addr)

/-- The VMAs that end above an address. -/
def St.endingAbove (s : St σ η) (addr : U64) : List Ptr :=
  s.nodes.filter fun p => decide (addr < (s.region p).endAddr)

/-- What a `rb_node_t **` points to. -/
def Link.read (link : Link) (s : St σ η) : Ptr :=
  match link with
  | .root => s.vmaRbRoot
  | .child d p => s.child d p

/-! ## The list at an address -/

theorem Sorted.filter_append {ps : List Ptr} (h : Sorted (ps.map s.region)) (addr : U64) :
    ps.filter (fun p => decide ((s.region p).endAddr ≤ addr)) ++
      ps.filter (fun p => decide (addr < (s.region p).endAddr)) = ps := by
  induction ps with
  | nil => rfl
  | cons p ps ih =>
      obtain ⟨-, hbefore, hrest⟩ := sorted_cons.mp h
      by_cases hp : (s.region p).endAddr ≤ addr
      · have hp' : ¬ addr < (s.region p).endAddr := by bv_omega
        simp [hp, hp', ih hrest]
      · -- behind a VMA that ends above the address all do
        have hp' : addr < (s.region p).endAddr := by bv_omega
        have habove : ∀ q ∈ ps, addr < (s.region q).endAddr := by
          intro q hq
          have h1 := hbefore (s.region q) (List.mem_map_of_mem hq)
          have h2 := hrest.lt (s.region q) (List.mem_map_of_mem hq)
          bv_omega
        have hnone : ps.filter (fun q => decide ((s.region q).endAddr ≤ addr)) = [] := by
          refine List.filter_eq_nil_iff.mpr fun q hq => ?_
          have := habove q hq
          simp only [decide_eq_true_eq]
          bv_omega
        have hall : ps.filter (fun q => decide (addr < (s.region q).endAddr)) = ps :=
          List.filter_eq_self.mpr fun q hq => decide_eq_true (habove q hq)
        simp [hp, hp', hnone, hall]

theorem headPtr_eq_getD (l : List Ptr) : headPtr 0#64 l = l.head?.getD 0#64 := by
  cases l <;> rfl

theorem lastPtr_eq_getD (l : List Ptr) : lastPtr 0#64 l = l.getLast?.getD 0#64 := by
  rcases l.eq_nil_or_concat with rfl | ⟨l, p, rfl⟩ <;> simp

theorem St.cut (s : St σ η) (addr : U64) :
    Cut s addr (s.endingBelow addr) (s.endingAbove addr) :=
  ⟨fun _ hp => of_decide_eq_true (List.mem_filter.mp hp).2,
    fun _ hp => of_decide_eq_true (List.mem_filter.mp hp).2⟩

/-! ## `vma_find` and `vma_find_links` -/

theorem Threaded.nodes_eq (h : Threaded s a) (addr : U64) :
    s.endingBelow addr ++ s.endingAbove addr = s.nodes :=
  h.sorted.filter_append addr

theorem Threaded.nodup (h : Threaded s a) : s.nodes.Nodup := h.sorted.nodup

theorem Threaded.ne_null (h : Threaded s a) : ∀ p ∈ s.nodes, p ≠ 0#64 := by
  rw [← h.order]
  exact h.tree.ne_null

theorem Threaded.length_lt (h : Threaded s a) : a.toList.length < walkBound := by
  rw [h.order]
  exact length_lt_walkBound h.nodup fun h0 => h.ne_null _ h0 rfl

theorem Threaded.vmaFind (h : Threaded s a) (addr : U64) :
    vmaFind addr s =
      some ((s.nodes.find? fun p => decide (addr < (s.region p).endAddr)).getD 0#64) := by
  have hsort : Sorted (a.toList.map s.region) := by
    rw [h.order]
    exact h.sorted
  rw [BufferVM.vmaFind, vmaFindLoop_spec a walkBound 0#64 s.vmaRbRoot 0#64 _ _ h.length_lt h.tree
    hsort (h.order.trans (h.nodes_eq addr).symm) (s.cut addr), headPtr_eq_getD, St.endingAbove,
    List.head?_filter]

theorem Threaded.vmaFindLinks (h : Threaded s a) (addr end' : U64) :
    ((∃ p ∈ s.nodes, Overlaps s addr end' p) → vmaFindLinks addr end' s = some none) ∧
    ((∀ p ∈ s.nodes, ¬ Overlaps s addr end' p) → ∃ c par,
      vmaFindLinks addr end' s = some (some (foundAt c par)) ∧ plug c leaf = a ∧
        PathShape s.rbLinks 0#64 s.vmaRbRoot c par 0#64 ∧ before c = s.endingBelow addr ∧
        after c = s.endingAbove addr) := by
  have hsort : Sorted (a.toList.map s.region) := by
    rw [h.order]
    exact h.sorted
  obtain ⟨h1, h2⟩ := vmaFindLinksLoop_spec addr end' a walkBound [] 0#64 s.vmaRbRoot h.length_lt
    ⟨rfl, rfl⟩ h.tree hsort ⟨by simp [before], by simp [after]⟩
  rw [h.order] at h1 h2
  refine ⟨h1, fun hno => ?_⟩
  obtain ⟨c, par, hrun, hplug, hpath, hcut⟩ := h2 hno
  have hlist : before c ++ after c = s.endingBelow addr ++ s.endingAbove addr := by
    have := congrArg toList hplug
    rw [toList_plug, plug, h.order] at this
    rw [h.nodes_eq, ← this]
    simp
  obtain ⟨hb, ha⟩ := hcut.unique (s.cut addr) hlist
  exact ⟨c, par, hrun, hplug, hpath, hb, ha⟩

/-! ## Hanging a VMA in -/

/-- The region fits between the VMAs on both sides of its start. -/
theorem Threaded.sorted_insert (h : Threaded s a) {p : Ptr} {addr end' : U64} (hend : addr < end')
    (hstart : (s.region p).startAddr = addr) (hstop : (s.region p).endAddr = end')
    (hno : ∀ q ∈ s.nodes, ¬ Overlaps s addr end' q) :
    Sorted ((s.endingBelow addr ++ p :: s.endingAbove addr).map s.region) := by
  have hsort : Sorted ((s.endingBelow addr ++ s.endingAbove addr).map s.region) := by
    rw [h.nodes_eq]
    exact h.sorted
  rw [List.map_append] at hsort
  obtain ⟨hl, hr, hlr⟩ := sorted_append.mp hsort
  obtain ⟨hbelow, habove⟩ := s.cut addr
  rw [List.map_append, List.map_cons]
  refine sorted_append.mpr ⟨hl, sorted_cons.mpr ⟨by rwa [hstart, hstop], fun r hr => ?_, hr⟩,
    fun r hr r' hr' => ?_⟩
  · obtain ⟨q, hq, rfl⟩ := List.mem_map.mp hr
    have hfree := hno q (List.mem_filter.mp hq).1
    rw [hstop]
    exact BitVec.not_lt.mp fun hlt => hfree ⟨habove q hq, hlt⟩
  · rcases List.mem_cons.mp hr' with rfl | hr'
    · obtain ⟨q, hq, rfl⟩ := List.mem_map.mp hr
      rw [hstart]
      exact hbelow q hq
    · exact hlr r hr r' hr'

/-- The found link is empty and hangs below the found parent. -/
theorem linkOf_read {c : Path Ptr} {par : Ptr}
    (h : PathShape s.rbLinks 0#64 s.vmaRbRoot c par 0#64) :
    (linkOf c).read s = 0#64 ∧
      ((linkOf c = .root ∧ par = 0#64) ∨ ∃ d, linkOf c = .child d par ∧ par ≠ 0#64) := by
  cases c with
  | nil => exact ⟨h.2.symm, Or.inl ⟨rfl, h.1⟩⟩
  | cons f c =>
      obtain ⟨rfl, hne, hhole, -⟩ := h
      exact ⟨hhole, Or.inr ⟨f.side, rfl, hne⟩⟩

/-- The store after a VMA has been threaded in: the list and the traversal are ascending and
have it in its place. -/
structure HungIn (s t : St σ η) (addr : U64) (vma : Ptr) : Prop where
  threaded : ∃ b, Threaded t b
  nodes : t.nodes = s.endingBelow addr ++ vma :: s.endingAbove addr
  region : ∀ p, t.region p = s.region p

theorem Threaded.hung {c : Path Ptr} {par vma : Ptr} {addr end' : U64} (h : Threaded s a)
    (hpath : PathShape s.rbLinks 0#64 s.vmaRbRoot c par 0#64)
    (hb : before c = s.endingBelow addr) (ha : after c = s.endingAbove addr)
    (hno : ∀ q ∈ s.nodes, ¬ Overlaps s addr end' q) (hend : addr < end') (hvma : vma ∉ s.nodes)
    (hvma0 : vma ≠ 0#64) (hstart : (s.region vma).startAddr = addr)
    (hstop : (s.region vma).endAddr = end') :
    ∃ t, rbLinkNode vma par (linkOf c) (vmaLinkList vma (lastPtr 0#64 (before c)) par s) = some t ∧
      HungIn s t addr vma := by
  have hnodes := h.nodes_eq addr
  have hnull : 0#64 ∉ s.endingBelow addr ++ s.endingAbove addr := by
    rw [hnodes]
    exact fun h0 => h.ne_null _ h0 rfl
  have hL := vmaLinkList_spec par (hnodes.symm ▸ h.list) (hnodes.symm ▸ h.nodup) hnull
    (hnodes.symm ▸ hvma) hvma0 fun h1 => ha ▸ par_eq_headPtr hpath (hb.trans h1)
  rw [hb]
  generalize vmaLinkList vma (lastPtr 0#64 (s.endingBelow addr)) par s = w at hL
  have hnd : (plug c (node leaf vma leaf)).toList.Nodup := by
    rw [toList_plug, hb, ha]
    have := hnodes.symm ▸ h.nodup
    have := hnodes.symm ▸ hvma
    simp only [toList_node, toList_leaf, List.nil_append]
    grind
  obtain ⟨t, hrun, hpath', hshape, -, -, hbase, -⟩ := rbLinkNode_shape (u := w) par
    (by rw [St.rbLinks_of_tree hL.tree, St.root_of_tree hL.tree]; exact hpath) hnd hvma0
  have hregion : ∀ p, t.region p = s.region p := fun p =>
    (St.region_of_base hbase p).trans (St.region_of_data hL.data p)
  have hchain : Chain t.listLinks (s.endingBelow addr ++ vma :: s.endingAbove addr) := by
    rw [St.listLinks_of_base hbase]
    exact hL.chain
  have hlist : (plug c (node leaf vma leaf)).toList =
      s.endingBelow addr ++ vma :: s.endingAbove addr := by
    rw [toList_plug, hb, ha]
    simp
  have htree : Shape t.rbLinks 0#64 t.vmaRbRoot (plug c (node leaf vma leaf)) :=
    shape_plug.mpr ⟨par, vma, hpath', hshape⟩
  have hnodes' : t.nodes = s.endingBelow addr ++ vma :: s.endingAbove addr :=
    nodes_eq_of_chain hchain (hlist ▸ hnd) (hlist ▸ htree.ne_null)
  refine ⟨t, hrun, ⟨_, hnodes'.symm ▸ hchain, ?_, htree, hlist.trans hnodes'.symm⟩, hnodes',
    hregion⟩
  rw [St.regions, hnodes', show t.region = s.region from funext hregion]
  exact h.sorted_insert hend hstart hstop hno

/-! ## Both together -/

/-- `vma_find` and `vma_find_links` say what a walk along the list says, and a VMA hung in at
the link that was found is in its place. -/
theorem lookup_linear (h : Threaded s a) (addr end' : U64) (hend : addr < end') :
    vmaFind addr s =
        some ((s.nodes.find? fun p => decide (addr < (s.region p).endAddr)).getD 0#64) ∧
      (vmaFindLinks addr end' s = some none ↔
        ∃ p ∈ s.nodes, (s.region p).startAddr < end' ∧ addr < (s.region p).endAddr) ∧
      ((¬ ∃ p ∈ s.nodes, (s.region p).startAddr < end' ∧ addr < (s.region p).endAddr) →
        ∃ found, vmaFindLinks addr end' s = some (some found) ∧
          found.prev = ((s.endingBelow addr).getLast?).getD 0#64 ∧ found.link.read s = 0#64 ∧
          ((found.link = .root ∧ found.parent = 0#64) ∨
            ∃ d, found.link = .child d found.parent ∧ found.parent ≠ 0#64) ∧
          ∀ vma, vma ∉ s.nodes → vma ≠ 0#64 → (s.region vma).startAddr = addr →
            (s.region vma).endAddr = end' →
            ∃ t, rbLinkNode vma found.parent found.link
                (vmaLinkList vma found.prev found.parent s) = some t ∧ HungIn s t addr vma) := by
  obtain ⟨hfail, hfound⟩ := h.vmaFindLinks addr end'
  have hswap : ∀ p, (s.region p).startAddr < end' ∧ addr < (s.region p).endAddr ↔
      Overlaps s addr end' p := fun p => and_comm
  simp only [hswap]
  refine ⟨h.vmaFind addr, ⟨fun hnone => ?_, hfail⟩, fun hno => ?_⟩
  · by_contra hno
    obtain ⟨c, par, hrun, -⟩ := hfound fun p hp hov => hno ⟨p, hp, hov⟩
    rw [hnone] at hrun
    cases hrun
  · have hfree : ∀ q ∈ s.nodes, ¬ Overlaps s addr end' q := fun q hq hov => hno ⟨q, hq, hov⟩
    obtain ⟨c, par, hrun, -, hpath, hb, ha⟩ := hfound hfree
    obtain ⟨hread, hlink⟩ := linkOf_read hpath
    refine ⟨foundAt c par, hrun, ?_, hread, hlink, fun vma hvma hvma0 hstart hstop => ?_⟩
    · rw [foundAt, hb, lastPtr_eq_getD]
    · exact h.hung hpath hb ha hfree hend hvma hvma0 hstart hstop

/-- Of three VMAs, the second is the first to end above an address between them; an area that
overlaps it has no link, and the free area below it goes between the first two. -/
theorem lookup_linear_threeVmas :
    vmaFind 0x3000#64 threeVmaStore = some 2#64 ∧
      vmaFindLinks 0x6800#64 0x7800#64 threeVmaStore = some none ∧
      ∃ found, vmaFindLinks 0x3000#64 0x5000#64 threeVmaStore = some (some found) ∧
        found.prev = 1#64 ∧ ∃ t, rbLinkNode 4#64 found.parent found.link
          (vmaLinkList 4#64 found.prev found.parent threeVmaStore) = some t ∧
            HungIn threeVmaStore t 0x3000#64 4#64 := by
  obtain ⟨a, ha⟩ := wellFormed_threeVmaStore.threaded
  obtain ⟨-, hfail, -⟩ := lookup_linear ha 0x6800#64 0x7800#64 (by decide)
  obtain ⟨hfind, -, hfree⟩ := lookup_linear ha 0x3000#64 0x5000#64 (by decide)
  refine ⟨hfind.trans (by decide +kernel), hfail.mpr ⟨2#64, by decide +kernel, ?_⟩, ?_⟩
  · exact ⟨by decide +kernel, by decide +kernel⟩
  · have hnone : ∀ p ∈ threeVmaStore.nodes, ¬ ((threeVmaStore.region p).startAddr < 0x5000#64 ∧
        0x3000#64 < (threeVmaStore.region p).endAddr) := by
      intro p hp
      rw [nodes_threeVmaStore] at hp
      simp only [List.mem_cons, List.not_mem_nil, or_false] at hp
      rcases hp with rfl | rfl | rfl <;> decide +kernel
    have hno : ¬ ∃ p ∈ threeVmaStore.nodes, (threeVmaStore.region p).startAddr < 0x5000#64 ∧
        0x3000#64 < (threeVmaStore.region p).endAddr := by
      rintro ⟨p, hp, hov⟩
      exact hnone p hp hov
    obtain ⟨found, hrun, hprev, -, -, hlink⟩ := hfree hno
    exact ⟨found, hrun, hprev.trans (by decide +kernel), hlink 4#64 (by decide +kernel)
      (by decide) (by decide +kernel) (by decide +kernel)⟩

end BufferVM
