/-
  Kernel/StoreLink.lean --- putting a VMA into the store.

  `vma_link` threads the node into the list, updates the gap of its successor, hangs
  the node into the tree with gap zero, updates that gap and rebalances.  The gaps are
  exact at the end even if the successor's own was stale at the start: this is what
  `vma_split` relies on when it moves the start of a VMA before it inserts another in
  front of it.
-/
import BufferVM.Kernel.Store

set_option autoImplicit false

namespace BufferVM

open PtrTree PtrTree.PTree PtrList

variable {σ η : Type} {s t u v : St σ η}

/-! ## Frames -/

/-- Everything that is not a link, a gap or the highest address. -/
def St.data (s : St σ η) : (Ptr → VmRegion) × σ × η × Globals :=
  (s.region, s.heap, s.host, s.glob)

theorem St.region_of_data (h : t.data = s.data) (p : Ptr) : t.region p = s.region p :=
  congrFun (congrArg Prod.fst h) p

@[simp] theorem St.data_setPrev (s : St σ η) (p x : Ptr) : (s.setPrev p x).data = s.data := by
  rw [St.data, St.data, show (s.setPrev p x).region = s.region from funext fun q => by simp]
  rfl

@[simp] theorem St.data_setNext (s : St σ η) (p x : Ptr) : (s.setNext p x).data = s.data := by
  rw [St.data, St.data, show (s.setNext p x).region = s.region from funext fun q => by simp]
  rfl

@[simp] theorem St.data_setListStart (s : St σ η) (x : Ptr) : (s.setListStart x).data = s.data :=
  rfl

@[simp] theorem St.data_setHighest (s : St σ η) (x : U64) : (s.setHighest x).data = s.data := rfl

theorem St.data_of_base (h : t.base = s.base) : t.data = s.data := by
  have hr : t.region = s.region := funext fun p => region_of_base h p
  have hrest : (t.heap, t.host, t.glob) = (s.heap, s.host, s.glob) :=
    congrArg (fun x => x.2.2.2) h
  simp only [St.data, hr, hrest]

theorem St.highest_of_base (h : t.base = s.base) : t.vmaHighestAddr = s.vmaHighestAddr :=
  congrArg (fun x => x.2.2.1) h

theorem Laid.of_tree {ps : List Ptr} {a : PTree Ptr} (h : Laid s ps a) (htree : t.tree = s.tree)
    (hlist : t.listLinks = s.listLinks) : Laid t ps a where
  list := h.list
  nodup := h.nodup
  shape := by rw [St.rbLinks_of_tree htree, St.root_of_tree htree]; exact h.shape
  chain := by rw [hlist]; exact h.chain
  black := by rw [St.root_of_tree htree, St.color_of_tree htree]; exact h.black

theorem Laid.of_gapOnly {ps : List Ptr} {a : PTree Ptr} (h : Laid s ps a) (hg : GapOnly s t) :
    Laid t ps a where
  list := h.list
  nodup := h.nodup
  shape := by rw [hg.rbLinks, hg.root]; exact h.shape
  chain := by rw [St.listLinks_of_base hg.base]; exact h.chain
  black := by rw [hg.root, hg.color]; exact h.black

/-- A node that is not in the list may be linked anywhere. -/
theorem Laid.setNext {ps : List Ptr} {a : PTree Ptr} {q x : Ptr} (h : Laid s ps a) (hq : q ∉ ps)
    (hq0 : q ≠ 0#64) : Laid (s.setNext q x) ps a where
  list := h.list
  nodup := h.nodup
  shape := by
    rw [St.rbLinks_of_tree (s.tree_setNext q x), St.root_of_tree (s.tree_setNext q x)]
    exact h.shape
  chain := by
    refine h.chain.frame rfl ?_ (fun y hy => ?_) (fun y hy => by simp [St.listLinks])
    · simp [St.listLinks]
    · have hyq : y ≠ q := by rintro rfl; exact hq hy
      simp [St.listLinks, hyq]
  black := by
    rw [St.root_of_tree (s.tree_setNext q x), St.color_of_tree (s.tree_setNext q x)]
    exact h.black

theorem highestEnd_of_region {ps : List Ptr} (h : ∀ p, t.region p = s.region p) :
    highestEnd t ps = highestEnd s ps := by
  simp only [highestEnd, h]

theorem gapNat_of_tree (h : t.tree = s.tree) : t.gapNat = s.gapNat := by
  funext p
  rw [St.gapNat, St.gap_of_tree h, St.gapNat]

/-- The own gap of a node depends on two regions and one link. -/
theorem own_congr {p : Ptr} (hprev : (t.vma p).prev = (s.vma p).prev)
    (hstart : (t.region p).startAddr = (s.region p).startAddr)
    (hend : (s.vma p).prev ≠ 0#64 →
      (t.region (s.vma p).prev).endAddr = (s.region (s.vma p).prev).endAddr) :
    t.own p = s.own p := by
  simp only [St.region] at hstart hend
  unfold St.own
  rw [hprev, hstart]
  by_cases h0 : (s.vma p).prev = 0#64
  · simp [h0]
  · simp [h0, hend h0]

/-! ## `vma_gap_update` -/

/-- One stale node is made exact, with everything above it. -/
theorem vmaGapUpdate_spec {p : Ptr} {a : PTree Ptr}
    (hshape : Shape u.rbLinks 0#64 u.vmaRbRoot a) (hnd : a.toList.Nodup) (hp : p ∈ a.toList) :
    ∃ v, vmaGapUpdate p u = some v ∧ GapOnly u v ∧
      ∀ own₀, Aug own₀ u.gapNat a → (∀ q ∈ a.toList, q ≠ p → u.own q = own₀ q) →
        Aug u.own v.gapNat a := by
  obtain ⟨c, l, r, rfl⟩ := exists_path_of_mem hp
  obtain ⟨par, x, hpath, hsub⟩ := shape_plug.mp hshape
  obtain ⟨rfl, hne, hpar, hl, hr⟩ := hsub
  have hndN := hnd
  obtain ⟨hndN, -, hdisj⟩ := nodup_plug.mp hndN
  obtain ⟨hpl, hpr, -, -, -⟩ := (nodup_join (d := .left)).mp hndN
  have hpath' : PathShape u.rbLinks 0#64 u.vmaRbRoot (⟨.left, x, r⟩ :: c) x
      (u.rbLinks.child .left x) :=
    ⟨rfl, hne, rfl, hr, by rw [hpar]; exact hpath⟩
  obtain ⟨v, hrun, hg, haug⟩ := vmaRbGapPropagate_plug hpath' hl hnd
  refine ⟨v, by simp [vmaGapUpdate, show x ≠ 0#64 from hne, hrun], hg, fun own₀ h0 hown => ?_⟩
  have mem : ∀ q, q ∈ l.toList ∨ q ∈ r.toList ∨ q ∈ ptrs c → q ∈ (plug c (node l x r)).toList ∧
      q ≠ x := by
    rintro q (hq | hq | hq)
    · exact ⟨mem_plug.mpr (Or.inl (by simp [hq])), by rintro rfl; exact hpl hq⟩
    · exact ⟨mem_plug.mpr (Or.inl (by simp [hq])), by rintro rfl; exact hpr hq⟩
    · exact ⟨mem_plug.mpr (Or.inr hq), by rintro rfl; exact hdisj q (by simp) hq⟩
  have same : ∀ q, q ∈ l.toList ∨ q ∈ r.toList ∨ q ∈ ptrs c → u.own q = own₀ q :=
    fun q hq => hown q (mem q hq).1 (mem q hq).2
  obtain ⟨⟨hx, hal, har⟩, hac⟩ := aug_plug.mp h0
  refine haug (hal.congr (fun q hq => same q (by simp [hq])) fun _ _ => rfl) ⟨?_, ?_⟩
  · exact har.congr (fun q hq => same q (by simp [hq])) fun _ _ => rfl
  · rw [hx]
    exact hac.congr (fun q hq => same q (by simp [hq])) fun _ _ => rfl

/-! ## `vma_link_list` -/

theorem lastPtr_eq_null {l : List Ptr} (h : 0#64 ∉ l) : lastPtr 0#64 l = 0#64 ↔ l = [] := by
  constructor
  · intro h0
    rcases l.eq_nil_or_concat with rfl | ⟨l, x, rfl⟩
    · rfl
    · simp only [List.concat_eq_append, lastPtr_append_singleton] at h0
      exact absurd (by simp [h0]) h
  · rintro rfl; rfl

theorem headPtr_eq_null {l : List Ptr} (h : 0#64 ∉ l) : headPtr 0#64 l = 0#64 ↔ l = [] := by
  cases l with
  | nil => simp
  | cons x l =>
      simp only [headPtr_cons, reduceCtorEq, iff_false]
      rintro rfl
      simp at h

/-- The parent of the leftmost empty link is the first node. -/
theorem par_eq_headPtr {c : Path Ptr} {par : Ptr}
    (h : PathShape s.rbLinks 0#64 s.vmaRbRoot c par 0#64) (hb : before c = []) :
    par = headPtr 0#64 (after c) := by
  cases c with
  | nil => simpa [after] using h.1
  | cons f c =>
      obtain ⟨d, p, a⟩ := f
      cases d with
      | left => rw [after_cons_left]; simpa using h.1
      | right => rw [before_cons_right] at hb; simp at hb

/-- What `vma_link_list` writes. -/
structure ListLinked (u w : St σ η) (l₁ l₂ : List Ptr) (z : Ptr) : Prop where
  tree : w.tree = u.tree
  data : w.data = u.data
  highest : w.vmaHighestAddr = u.vmaHighestAddr
  chain : Chain w.listLinks (l₁ ++ z :: l₂)
  next : (w.vma z).next = headPtr 0#64 l₂
  own : ∀ q ∈ l₁ ++ l₂, q ≠ headPtr 0#64 l₂ → w.own q = u.own q

/-- The links, once the node behind the new one is known. -/
structure Spliced (u w : St σ η) (z prev next : Ptr) : Prop where
  prevOf : ∀ q, (w.vma q).prev =
    if next ≠ 0#64 ∧ q = next then z else if q = z then prev else (u.vma q).prev
  nextOf : ∀ q, (w.vma q).next =
    if q = z then next else if prev ≠ 0#64 ∧ q = prev then z else (u.vma q).next
  start : w.vmaListStart = if prev = 0#64 then z else u.vmaListStart
  tree : w.tree = u.tree
  data : w.data = u.data
  highest : w.vmaHighestAddr = u.vmaHighestAddr

theorem spliced_vmaLinkList {z prev next par : Ptr}
    (hn : (if prev ≠ 0#64 then ((u.setPrev z prev).vma prev).next else par) = next) :
    Spliced u (vmaLinkList z prev par u) z prev next := by
  let w := vmaLinkList z prev par u
  -- the node after the new one is the same on both branches
  have hw : w = (let s₁ := if prev ≠ 0#64 then (u.setPrev z prev).setNext prev z
      else (u.setPrev z prev).setListStart z
      let s₂ := s₁.setNext z next
      if next ≠ 0#64 then s₂.setPrev next z else s₂) := by
    simp only [w, vmaLinkList, hn]
  change Spliced u w z prev next
  have hregion : ∀ q, w.region q = u.region q := by
    intro q
    by_cases hp : prev = 0#64 <;> by_cases hn : next = 0#64 <;> simp [hw, hp, hn]
  have hrest : w.heap = u.heap ∧ w.host = u.host ∧ w.glob = u.glob ∧
      w.vmaHighestAddr = u.vmaHighestAddr := by
    by_cases hp : prev = 0#64 <;> by_cases hn : next = 0#64 <;> simp only [hw, hp, hn, ne_eq,
      not_true_eq_false, not_false_eq_true, if_true, if_false] <;> exact ⟨rfl, rfl, rfl, rfl⟩
  refine ⟨fun q => ?_, fun q => ?_, ?_, ?_, ?_, hrest.2.2.2⟩
  · by_cases hp : prev = 0#64 <;> by_cases hn : next = 0#64 <;> simp [hw, hp, hn]
  · by_cases hp : prev = 0#64 <;> by_cases hn : next = 0#64 <;> simp [hw, hp, hn]
  · by_cases hp : prev = 0#64 <;> by_cases hn : next = 0#64 <;> simp [hw, hp, hn]
  · by_cases hp : prev = 0#64 <;> by_cases hn : next = 0#64 <;> simp [hw, hp, hn]
  · simp only [St.data, show w.region = u.region from funext hregion, hrest]

/-- The node behind the new one is the one that was behind its predecessor. -/
theorem next_eq_headPtr {l₁ l₂ : List Ptr} {z par : Ptr} (hchain : Chain u.listLinks (l₁ ++ l₂))
    (hl₁ : 0#64 ∉ l₁) (hpar : l₁ = [] → par = headPtr 0#64 l₂) :
    (if lastPtr 0#64 l₁ ≠ 0#64 then
      ((u.setPrev z (lastPtr 0#64 l₁)).vma (lastPtr 0#64 l₁)).next else par) =
      headPtr 0#64 l₂ := by
  have hcut := Chain.cut _ _ hchain
  simp only [St.listLinks_null] at hcut
  by_cases hp : lastPtr 0#64 l₁ = 0#64
  · simp [hp, hpar ((lastPtr_eq_null hl₁).mp hp)]
  · have hnext := hcut.1
    simp only [St.listLinks, hp, if_false] at hnext
    simp [hp, hnext]

/-- The new node stands in the chain between the two lists. -/
theorem Spliced.chain {l₁ l₂ : List Ptr} {z : Ptr} {w : St σ η}
    (h : Spliced u w z (lastPtr 0#64 l₁) (headPtr 0#64 l₂))
    (hchain : Chain u.listLinks (l₁ ++ l₂)) (hnd : (l₁ ++ l₂).Nodup) (h0 : 0#64 ∉ l₁ ++ l₂)
    (hz : z ∉ l₁ ++ l₂) (hz0 : z ≠ 0#64) : Chain w.listLinks (l₁ ++ z :: l₂) := by
  have hnextz : headPtr 0#64 l₂ ≠ z := by
    intro heq
    have hmem := headPtr_mem (show headPtr 0#64 l₂ ≠ 0#64 from heq ▸ hz0)
    exact hz (by simp [heq ▸ hmem])
  have hprevz : lastPtr 0#64 l₁ ≠ z := by
    intro heq
    have hmem := lastPtr_mem (show lastPtr 0#64 l₁ ≠ 0#64 from heq ▸ hz0)
    exact hz (by simp [heq ▸ hmem])
  generalize hprev : lastPtr 0#64 l₁ = prev at h hprevz
  generalize hnext : headPtr 0#64 l₂ = next at h hnextz
  have hsplice := Chain.splice (L := u.listLinks) (M := w.listLinks) (w := []) [z]
    (by simpa using hchain) rfl hnd h0
  simp only [List.append_assoc, List.singleton_append] at hsplice
  refine hsplice ?_ ?_ ?_
  · intro x hx hxp
    simp only [St.listLinks_null, hprev] at hxp hx
    by_cases hx0 : x = 0#64
    · subst hx0
      simp [St.listLinks, h.start, hxp.symm]
    · have hxz : x ≠ z := by
        rintro rfl
        rcases hx with hx | hx | hx
        · exact hx0 hx
        · exact hz (by simp [hx])
        · exact hz (by simp [hx])
      simp [St.listLinks, hx0, h.nextOf, hxz, hxp]
  · intro x hx hxn
    simp only [St.listLinks_null, hnext] at hxn
    have hxz : x ≠ z := by rintro rfl; exact hz hx
    simp [St.listLinks, h.prevOf, hxz, hxn]
  · simp only [St.listLinks_null, hprev, hnext]
    refine List.isChain_cons_cons.mpr ⟨⟨?_, fun _ => ?_⟩,
      List.isChain_cons_cons.mpr ⟨⟨?_, fun hn => ?_⟩, by simp⟩⟩
    · by_cases hp : prev = 0#64
      · simp [St.listLinks, hp, h.start]
      · simp [St.listLinks, hp, h.nextOf, hprevz]
    · simp [St.listLinks, h.prevOf, hnextz.symm]
    · simp [St.listLinks, hz0, h.nextOf]
    · have hn' : next ≠ 0#64 := hn
      simp [St.listLinks, h.prevOf, hn']

theorem vmaLinkList_spec {l₁ l₂ : List Ptr} {z : Ptr} (par : Ptr)
    (hchain : Chain u.listLinks (l₁ ++ l₂))
    (hnd : (l₁ ++ l₂).Nodup) (h0 : 0#64 ∉ l₁ ++ l₂) (hz : z ∉ l₁ ++ l₂) (hz0 : z ≠ 0#64)
    (hpar : l₁ = [] → par = headPtr 0#64 l₂) :
    ListLinked u (vmaLinkList z (lastPtr 0#64 l₁) par u) l₁ l₂ z := by
  have hl₁ : 0#64 ∉ l₁ := fun h => h0 (by simp [h])
  have h := spliced_vmaLinkList (z := z) (next_eq_headPtr (z := z) hchain hl₁ hpar)
  generalize vmaLinkList z (lastPtr 0#64 l₁) par u = w at h
  refine ⟨h.tree, h.data, h.highest, h.chain hchain hnd h0 hz hz0,
    (h.nextOf z).trans (if_pos rfl), fun q hq hqn => ?_⟩
  have hqz : q ≠ z := by rintro rfl; exact hz hq
  refine own_congr ((h.prevOf q).trans (by simp [hqz, hqn])) (by rw [St.region_of_data h.data])
    fun _ => by rw [St.region_of_data h.data]

/-! ## `vma_link_rb` -/

/-- Hanging a red leaf into the empty link at the end of a path. -/
theorem rbLinkNode_shape {c : Path Ptr} (par : Ptr) {z : Ptr}
    (hpath : PathShape u.rbLinks 0#64 u.vmaRbRoot c par 0#64)
    (hnd : (plug c (node leaf z leaf)).toList.Nodup) (hz0 : z ≠ 0#64) :
    ∃ w, rbLinkNode z par (linkOf c) u = some w ∧
      PathShape w.rbLinks 0#64 w.vmaRbRoot c par z ∧
      Shape w.rbLinks par z (node leaf z leaf) ∧
      w.vmaRbRoot = (if c = [] then z else u.vmaRbRoot) ∧
      (∀ q, w.color q = if q = z then .red else u.color q) ∧ w.base = u.base ∧
      ∀ q, w.gap q = u.gap q := by
  obtain ⟨-, hndc, hdisj⟩ := nodup_plug.mp hnd
  have hzc : z ∉ ptrs c := hdisj z (by simp)
  let u₁ := ((u.setParentColor z par .red).setChild .right z 0#64).setChild .left z 0#64
  let w := (linkOf c).write z u₁
  have hchild₁ : ∀ d q, u₁.child d q = if q = z then 0#64 else u.child d q := by
    intro d q
    by_cases hq : q = z <;> cases d <;> simp [u₁, hq]
  have hne : ∀ f ∈ c.head?, f.ptr ≠ z := by
    rintro f hf rfl
    refine hzc ?_
    cases c with
    | nil => simp at hf
    | cons g c =>
        obtain rfl : g = f := by simpa using hf
        simp
  -- the write through the link is the only change outside the node
  have hw : ∀ d q, w.child d q =
      if ∃ f ∈ c.head?, q = f.ptr ∧ d = f.side then z else u₁.child d q := by
    intro d q
    cases c with
    | nil => simp [w, linkOf, Link.write]
    | cons f c => simp [w, linkOf, Link.write]
  have hparent : ∀ q, w.parent q = if q = z then par else u.parent q := by
    intro q
    cases c <;> simp [w, linkOf, Link.write, u₁]
  have hcolor : ∀ q, w.color q = if q = z then .red else u.color q := by
    intro q
    cases c <;> simp [w, linkOf, Link.write, u₁]
  have hroot : w.vmaRbRoot = if c = [] then z else u.vmaRbRoot := by
    cases c <;> simp [w, linkOf, Link.write, u₁]
  have hzchild : ∀ d, w.child d z = 0#64 := by
    intro d
    rw [hw, if_neg, hchild₁, if_pos rfl]
    rintro ⟨f, hf, hfz, -⟩
    exact hne f hf hfz.symm
  refine ⟨w, by simp [rbLinkNode, hz0, w, u₁], ?_, ?_, hroot, hcolor,
    by cases c <;> simp [w, linkOf, Link.write, u₁],
    fun q => by cases c <;> simp [w, linkOf, Link.write, u₁]⟩
  · refine hpath.congr rfl hndc (fun q hq d hnot => ?_) (fun q hq => ?_) (fun f hf => ?_) ?_
    · have hqz : q ≠ z := by rintro rfl; exact hzc hq
      rw [St.rbLinks_child, hw, if_neg, hchild₁, if_neg hqz]
      · rfl
      · rintro ⟨f, hf, hqf⟩
        exact hnot f hf hqf
    · have hqz : q ≠ z := by rintro rfl; exact hzc hq
      simp [hparent, hqz]
    · rw [St.rbLinks_child, hw, if_pos ⟨f, hf, rfl, rfl⟩]
    · exact hroot
  · exact ⟨rfl, hz0, by simp [hparent], hzchild .left, hzchild .right⟩

/-- The new leaf is where `rb_insert` starts. -/
theorem rbLinkNode_spec {c : Path Ptr} (par : Ptr) {z : Ptr}
    (hpath : PathShape u.rbLinks 0#64 u.vmaRbRoot c par 0#64)
    (hnd : (plug c (node leaf z leaf)).toList.Nodup) (hz0 : z ≠ 0#64)
    (hblack : u.vmaRbRoot ≠ 0#64 → u.color u.vmaRbRoot = .black) :
    ∃ w, rbLinkNode z par (linkOf c) u = some w ∧ AtNode w c z par (node leaf z leaf) ∧
      (∀ q, w.color q = if q = z then .red else u.color q) ∧ w.base = u.base ∧
      ∀ q, w.gap q = u.gap q := by
  obtain ⟨w, hrun, hpath', hshape, hroot, hcolor, hbase, hgap⟩ := rbLinkNode_shape par hpath hnd hz0
  refine ⟨w, hrun, ⟨hpath', hshape, hz0, hnd, fun hc => ?_⟩, hcolor, hbase, hgap⟩
  have hzc : z ∉ ptrs c := (nodup_plug.mp hnd).2.2 z (by simp)
  have hmem := hpath.top_mem hc
  have hrz : u.vmaRbRoot ≠ z := by rintro h; exact hzc (h ▸ hmem)
  rw [hroot, if_neg hc, hcolor, if_neg hrz]
  exact hblack (hpath.ne_null _ hmem)

/-- The first step of `vma_link_rb`: the gap behind the new VMA. -/
theorem linkNextGap_spec {z : Ptr} {a : PTree Ptr} (hnd : a.toList.Nodup)
    (hshape : Shape u.rbLinks 0#64 u.vmaRbRoot a)
    (hnext : (u.vma z).next ≠ 0#64 → (u.vma z).next ∈ a.toList) :
    ∃ v, (if (u.vma z).next ≠ 0#64 then vmaGapUpdate (u.vma z).next u
        else some (u.setHighest (u.region z).endAddr)) = some v ∧
      GapOnly (u.setHighest v.vmaHighestAddr) v ∧
      v.vmaHighestAddr =
        (if (u.vma z).next = 0#64 then (u.region z).endAddr else u.vmaHighestAddr) ∧
      ∀ own₀, Aug own₀ u.gapNat a →
        (∀ q ∈ a.toList, q ≠ (u.vma z).next → u.own q = own₀ q) → Aug u.own v.gapNat a := by
  generalize (u.vma z).next = next at hnext ⊢
  by_cases h0 : next = 0#64
  · refine ⟨u.setHighest (u.region z).endAddr, by simp [h0], .refl _, by simp [h0, St.setHighest],
      fun own₀ haug hown => ?_⟩
    refine haug.congr (fun q hq => hown q hq ?_) fun _ _ => rfl
    rw [h0]
    exact hshape.ne_null q hq
  · obtain ⟨v, hrun, hg, haug⟩ := vmaGapUpdate_spec hshape hnd (hnext h0)
    have hh : v.vmaHighestAddr = u.vmaHighestAddr := St.highest_of_base hg.base
    refine ⟨v, by simp [h0, hrun], ?_, by rw [if_neg h0, hh], haug⟩
    rw [hh]
    exact hg

/-- The store `v` has the tree `b`, which is the one of `u` with `z` at the end of `c`: a
black root, exact gaps if they were but for the node behind `z`, and a red-black tree if it
was one. -/
structure LinkedRb (u v : St σ η) (c : Path Ptr) (z : Ptr) (b : PTree Ptr) : Prop where
  shape : Shape v.rbLinks 0#64 v.vmaRbRoot b
  list : b.toList = before c ++ z :: after c
  nodup : b.toList.Nodup
  black : v.color v.vmaRbRoot = .black
  base : v.base = (u.setHighest v.vmaHighestAddr).base
  highest : v.vmaHighestAddr =
    if (u.vma z).next = 0#64 then (u.region z).endAddr else u.vmaHighestAddr
  aug : ∀ own₀, Aug own₀ u.gapNat (plug c leaf) →
    (∀ q ∈ (plug c leaf).toList, q ≠ (u.vma z).next → u.own q = own₀ q) → Aug u.own v.gapNat b
  redBlack : RedBlack u.red (plug c leaf) → RedBlack v.red b

/-- An empty link of the tree, and a node that may be hung there: the node behind it in the
list, if there is one, is in the tree. -/
structure Vacant (u : St σ η) (c : Path Ptr) (par z : Ptr) : Prop where
  path : PathShape u.rbLinks 0#64 u.vmaRbRoot c par 0#64
  nodup : (plug c (node leaf z leaf)).toList.Nodup
  ne : z ≠ 0#64
  next : (u.vma z).next ≠ 0#64 → (u.vma z).next ∈ (plug c leaf).toList

/-- `vma_link_rb` at an empty link. -/
theorem vmaLinkRb_linked {c : Path Ptr} {par z : Ptr} (h : Vacant u c par z)
    (hblack : u.vmaRbRoot ≠ 0#64 → u.color u.vmaRbRoot = .black) :
    ∃ v b, vmaLinkRb z (linkOf c) par u = some v ∧ LinkedRb u v c z b := by
  obtain ⟨hpath, hnd, hz0, hnext⟩ := h
  obtain ⟨-, hndc, hdisj⟩ := nodup_plug.mp hnd
  have hzc : z ∉ ptrs c := hdisj z (by simp)
  have hshape : Shape u.rbLinks 0#64 u.vmaRbRoot (plug c leaf) :=
    shape_plug.mpr ⟨par, 0#64, hpath, rfl⟩
  obtain ⟨w₁, hrun₁, hg₁, hhi, haug₁⟩ := linkNextGap_spec hndc hshape hnext
  have hlinks₁ : w₁.rbLinks = u.rbLinks := hg₁.rbLinks
  have hroot₁ : w₁.vmaRbRoot = u.vmaRbRoot := hg₁.root
  obtain ⟨w₂, hrun₂, hat₂, hcol₂, hbase₂, hgap₂⟩ := rbLinkNode_spec (u := w₁) (c := c) par
    (z := z) (by rw [hlinks₁, hroot₁]; exact hpath) hnd hz0
    (by rw [hroot₁, hg₁.color]; exact hblack)
  -- the gap of the new node itself
  let w₃ := w₂.setGap z 0#64
  have hg₃ : GapOnly w₂ w₃ := gapOnly_setGap _ _ _
  obtain ⟨-, -, -, hzl, hzr⟩ := hat₂.shape
  have hpath₃ : PathShape w₃.rbLinks 0#64 w₃.vmaRbRoot (⟨.left, z, leaf⟩ :: c) z 0#64 := by
    rw [hg₃.rbLinks, hg₃.root]
    refine ⟨rfl, hz0, hzl, hzr, ?_⟩
    have hzp : w₂.rbLinks.parent z = par := by
      obtain ⟨-, -, hp, -, -⟩ := hat₂.shape
      exact hp
    rw [hzp]
    exact hat₂.path
  obtain ⟨w₄, hrun₄, hg₄, haug₄⟩ := vmaRbGapPropagate_plug (w := leaf) hpath₃
    (show (0#64 : Ptr) = 0#64 from rfl) hnd
  have hg₂₄ := hg₃.trans hg₄
  have hat₄ : AtNode w₄ c z par (node leaf z leaf) := by
    refine ⟨?_, ?_, hz0, hnd, fun hc => ?_⟩
    · rw [hg₂₄.rbLinks, hg₂₄.root]; exact hat₂.path
    · rw [hg₂₄.rbLinks]; exact hat₂.shape
    · rw [hg₂₄.root, hg₂₄.color]; exact hat₂.black hc
  have hred : w₄.color z = .red := by rw [hg₂₄.color, hcol₂, if_pos rfl]
  obtain ⟨v, b, hrun, hv, hrb⟩ := rbInsert_spec hat₄ hred
  have hbase : v.base = w₁.base := (hv.base.trans hg₂₄.base).trans hbase₂
  have hhv : v.vmaHighestAddr = w₁.vmaHighestAddr := St.highest_of_base hbase
  have hlist : b.toList = before c ++ z :: after c := by
    rw [hv.list, toList_plug]
    simp
  refine ⟨v, b, ?_, hv.shape, hlist, hv.list ▸ hnd, hv.black, ?_, hhv.trans hhi, ?_, ?_⟩
  · unfold vmaLinkRb
    have hrun₃ : vmaGapUpdate z w₃ = some w₄ := by simp [vmaGapUpdate, hz0, hrun₄]
    simp only [hrun₁, hrun₂, Option.bind_eq_bind, Option.bind_some]
    rw [hrun₃]
    exact hrun
  · rw [hhv]
    exact hbase.trans hg₁.base
  · intro own₀ h1 h2
    have hown₁ : w₁.own = u.own := (St.own_of_base hg₁.base).trans rfl
    have hown₃ : w₃.own = u.own :=
      ((St.own_of_base hg₃.base).trans (St.own_of_base hbase₂)).trans hown₁
    have hown₄ : w₄.own = u.own := (St.own_of_base hg₄.base).trans hown₃
    have haugu : Aug u.own w₁.gapNat (plug c leaf) := haug₁ own₀ h1 h2
    have hgap₃ : ∀ q, q ≠ z → w₃.gapNat q = w₁.gapNat q := by
      intro q hq
      simp [w₃, St.gapNat, hq, hgap₂]
    -- the node hangs in with gap zero, as if the link were still empty
    have hpath0 : AugPath u.own w₃.gapNat c (w₃.gapNat z) := by
      have hz3 : w₃.gapNat z = 0 := by simp [w₃, St.gapNat]
      rw [hz3]
      exact (aug_plug.mp haugu).2.congr (fun _ _ => rfl)
        fun q hq => hgap₃ q (by rintro rfl; exact hzc hq)
    have haug4 := haug₄ trivial ⟨trivial, hown₃ ▸ hpath0⟩
    have := hv.aug (hown₄.trans hown₃.symm ▸ haug4)
    exact hown₄ ▸ this
  · intro hu
    obtain ⟨n, hleaf, hc, -⟩ := redBlack_plug.mp hu
    obtain rfl := balanced_leaf.mp hleaf
    refine hrb ⟨hred, 0, (balanced_join_red (d := .left) (St.red_eq_true.mpr hred)).mpr
      ⟨trivial, trivial, balanced_leaf.mpr rfl, balanced_leaf.mpr rfl⟩, ?_⟩
    refine hc.alike (alike_refl fun q hq => St.red_of_color ?_)
    have hqz : q ≠ z := by
      rintro rfl
      exact hzc hq
    rw [hg₂₄.color, hcol₂, if_neg hqz, hg₁.color]
    rfl

/-- `vma_link` up to the call of the host: the new VMA is threaded in between `l₁`
and `l₂`. -/
theorem vmaLinkRb_spec {l₁ l₂ : List Ptr} {a : PTree Ptr} {c : Path Ptr} {par z : Ptr}
    (h : Laid u (l₁ ++ l₂) a) (hplug : plug c leaf = a)
    (hpath : PathShape u.rbLinks 0#64 u.vmaRbRoot c par 0#64) (hb : before c = l₁)
    (ha : after c = l₂) (hz : z ∉ l₁ ++ l₂) (hz0 : z ≠ 0#64) :
    ∃ v b, vmaLinkRb z (linkOf c) par (vmaLinkList z (lastPtr 0#64 l₁) par u) = some v ∧
      Laid v (l₁ ++ z :: l₂) b ∧ v.data = u.data ∧
      ∀ own₀, Aug own₀ u.gapNat a →
        (∀ q ∈ l₁ ++ l₂, q ≠ headPtr 0#64 l₂ → u.own q = own₀ q) →
        (l₂ ≠ [] → u.vmaHighestAddr = highestEnd u (l₁ ++ l₂)) →
        Gaps v (l₁ ++ z :: l₂) b := by
  subst hplug
  have hnull : 0#64 ∉ l₁ ++ l₂ := fun h0 => h.ne_null _ h0 rfl
  have hL := vmaLinkList_spec (u := u) par h.chain h.nodup hnull hz hz0
    (fun h1 => ha ▸ par_eq_headPtr hpath (hb.trans h1))
  generalize vmaLinkList z (lastPtr 0#64 l₁) par u = w at hL
  have hlinks := St.rbLinks_of_tree hL.tree
  have hroot := St.root_of_tree hL.tree
  have hnd : (plug c (node leaf z leaf)).toList.Nodup := by
    rw [toList_plug, hb, ha]
    have := h.nodup
    simp only [toList_node, toList_leaf, List.nil_append]
    grind
  have hvacant : Vacant w c par z := by
    refine ⟨?_, hnd, hz0, fun hn0 => ?_⟩
    · rw [hlinks, hroot]
      exact hpath
    · rw [hL.next] at hn0 ⊢
      rw [h.list]
      exact List.mem_append_right l₁ (headPtr_mem hn0)
  obtain ⟨v, b, hrun, hv⟩ := vmaLinkRb_linked hvacant
    (by rw [hroot]; exact fun h0 => (St.color_of_tree hL.tree _).trans (h.black h0))
  have hlist : b.toList = l₁ ++ z :: l₂ := by rw [hv.list, hb, ha]
  have hdata : v.data = u.data := (St.data_of_base hv.base).trans hL.data
  refine ⟨v, b, hrun, ⟨hlist, hlist ▸ hv.nodup, hv.shape, ?_, fun _ => hv.black⟩, hdata, ?_⟩
  · rw [St.listLinks_of_base hv.base]
    exact hL.chain
  · intro own₀ h1 h2 h3
    have hownv : v.own = w.own := (St.own_of_base hv.base).trans rfl
    refine ⟨?_, ?_⟩
    · rw [hownv]
      refine hv.aug own₀ (gapNat_of_tree hL.tree ▸ h1) fun q hq hn => ?_
      rw [h.list] at hq
      rw [hL.next] at hn
      exact (hL.own q hq hn).trans (h2 q hq hn)
    · have hhi := hv.highest
      rw [hL.next] at hhi
      have h0 : 0#64 ∉ l₂ := fun hm => hnull (List.mem_append_right l₁ hm)
      have hlastz : l₂ = [] → lastPtr 0#64 (l₁ ++ z :: l₂) = z := by rintro rfl; simp
      by_cases hl₂ : l₂ = []
      · rw [hhi, if_pos ((headPtr_eq_null h0).mpr hl₂), highestEnd, hlastz hl₂, if_neg hz0,
          St.region_of_data hdata, St.region_of_data hL.data]
      · have hlast : lastPtr 0#64 (l₁ ++ z :: l₂) = lastPtr 0#64 (l₁ ++ l₂) := by
          obtain ⟨m, x, rfl⟩ := List.eq_nil_or_concat l₂ |>.resolve_left hl₂
          have e1 : l₁ ++ z :: (m ++ [x]) = (l₁ ++ z :: m) ++ [x] := by simp
          have e2 : l₁ ++ (m ++ [x]) = (l₁ ++ m) ++ [x] := by simp
          rw [List.concat_eq_append, e1, e2, lastPtr_append_singleton, lastPtr_append_singleton]
        rw [hhi, if_neg (fun hn => hl₂ ((headPtr_eq_null h0).mp hn)), hL.highest, h3 hl₂,
          highestEnd, highestEnd, hlast]
        simp only [St.region_of_data hdata]

end BufferVM
