/-
  Kernel/Simulation.lean --- the pointer store does what the list of areas does.

  `Holds s A a` relates a store to an address space: the nodes of `A` are laid out in
  `s` with the tree `a`, they hold the regions of `A`, and the allocator and the host
  agree.  `Carried` is one simulated step: the relation is kept, and exact gaps stay
  exact.  Order of the regions is asked for where the code looks something up, and
  never promised here: it is a property of the list operations.
-/
import BufferVM.Kernel.StoreUnlink
import BufferVM.Kernel.SpaceSorted

set_option autoImplicit false

namespace BufferVM

open PtrTree PtrTree.PTree PtrList

variable {σ η : Type} {s t u v : St σ η}

/-! ## The relation -/

/-- The store holds the address space. -/
structure Holds (s : St σ η) (A : Space σ η) (a : PTree Ptr) : Prop where
  laid : Laid s A.nodes a
  region : ∀ x ∈ A.areas, s.region x.1 = x.2
  heap : s.heap = A.heap
  host : s.host = A.host

/-- A step from a store that holds `A` to one that holds `B`. -/
structure Carried (s : St σ η) (A : Space σ η) (a : PTree Ptr) (t : St σ η) (B : Space σ η)
    (b : PTree Ptr) : Prop where
  holds : Holds t B b
  glob : t.glob = s.glob
  gaps : Gaps s A.nodes a → Gaps t B.nodes b

theorem Carried.refl {A : Space σ η} {a : PTree Ptr} (h : Holds s A a) : Carried s A a s A a :=
  ⟨h, rfl, id⟩

theorem Carried.trans {A B C : Space σ η} {a b c : PTree Ptr} (h : Carried s A a t B b)
    (h' : Carried t B b u C c) : Carried s A a u C c :=
  ⟨h'.holds, h'.glob.trans h.glob, fun hg => h'.gaps (h.gaps hg)⟩

theorem Holds.map_region {A : Space σ η} {a : PTree Ptr} (h : Holds s A a) :
    A.nodes.map s.region = A.regions := by
  unfold Space.nodes Space.regions
  rw [List.map_map]
  exact List.map_congr_left fun x hx => h.region x hx

/-! ## Writes that keep the layout -/

/-- The layout depends on the nodes of the list only. -/
theorem Laid.congr {ps : List Ptr} {a : PTree Ptr} (h : Laid s ps a)
    (hvma : ∀ q ∈ ps, u.vma q = s.vma q) (hroot : u.vmaRbRoot = s.vmaRbRoot)
    (hstart : u.vmaListStart = s.vmaListStart) : Laid u ps a where
  list := h.list
  nodup := h.nodup
  shape := by
    rw [hroot]
    refine h.shape.frame rfl (fun q hq d => ?_) (fun q hq => ?_)
    · simp only [St.rbLinks_child, St.child, hvma q (h.list ▸ hq)]
    · simp only [St.rbLinks_parent, St.parent, hvma q (h.list ▸ hq)]
  chain := by
    refine h.chain.frame rfl ?_ (fun q hq => ?_) (fun q hq => ?_)
    · simp [St.listLinks, hstart]
    · simp [St.listLinks, h.ne_null q hq, hvma q hq]
    · simp [St.listLinks, hvma q hq]
  black := by
    rw [hroot]
    intro h0
    have hmem : s.vmaRbRoot ∈ ps := h.list ▸ h.shape.root_mem h0
    rw [St.color, hvma _ hmem]
    exact h.black h0

theorem Laid.setRegion {ps : List Ptr} {a : PTree Ptr} (h : Laid s ps a) (p : Ptr) (r : VmRegion) :
    Laid (s.setRegion p r) ps a := by
  refine h.of_tree (s.tree_setRegion p r) ?_
  simp only [St.listLinks, St.next_setRegion, St.prev_setRegion, St.listStart_setRegion]

/-- The predecessor of a node of the list is a node of the list or `NULL`. -/
theorem Laid.prev_mem {ps : List Ptr} {a : PTree Ptr} (h : Laid s ps a) {q : Ptr} (hq : q ∈ ps) :
    (s.vma q).prev = 0#64 ∨ (s.vma q).prev ∈ ps := by
  obtain ⟨l₁, l₂, rfl⟩ := List.append_of_mem hq
  have := h.chain.prev_eq (h.ne_null q hq)
  simp only [St.listLinks] at this
  rw [this]
  by_cases h0 : lastPtr 0#64 l₁ = 0#64
  · exact Or.inl h0
  · exact Or.inr (by simp [lastPtr_mem h0])

/-- Only the successor of a node has it as its predecessor. -/
theorem Laid.eq_head_of_prev {l₁ l₂ : List Ptr} {a : PTree Ptr} {p q : Ptr}
    (h : Laid s (l₁ ++ p :: l₂) a) (hq : q ∈ l₁ ++ p :: l₂) (hprev : (s.vma q).prev = p) :
    q = headPtr 0#64 l₂ := by
  obtain ⟨m₁, m₂, hm⟩ := List.append_of_mem hq
  have hq0 := h.ne_null q hq
  have hp0 := h.ne_null p (by simp)
  have hnd := h.nodup
  have hch := h.chain
  rw [hm] at hch
  have := hch.prev_eq hq0
  simp only [St.listLinks] at this
  rw [hprev] at this
  -- `p` is the last node in front of `q`
  obtain ⟨m, rfl⟩ : ∃ m, m₁ = m ++ [p] := by
    rcases m₁.eq_nil_or_concat with rfl | ⟨m, x, rfl⟩
    · exact absurd this hp0
    · refine ⟨m, ?_⟩
      simp only [List.concat_eq_append, lastPtr_append_singleton] at this
      rw [List.concat_eq_append, this]
  have hsplit := split_unique m (q :: m₂) hnd (by rw [hm]; simp)
  rw [← hsplit.2]
  rfl

/-- The own gaps when one region is rewritten. -/
theorem own_setRegion {p q : Ptr} {r : VmRegion} (hstart : q = p →
      r.startAddr = (s.region p).startAddr)
    (hend : (s.vma q).prev = p → p ≠ 0#64 → r.endAddr = (s.region p).endAddr) :
    (s.setRegion p r).own q = s.own q := by
  refine own_congr (by simp) ?_ fun h0 => ?_
  · by_cases h : q = p
    · subst h; simp [hstart rfl]
    · simp [h]
  · by_cases h : (s.vma q).prev = p
    · simp [h, hend h (h ▸ h0)]
    · simp [h]

/-- A new region with the same bounds keeps the gaps. -/
theorem Gaps.setRegion {ps : List Ptr} {a : PTree Ptr} {p : Ptr} {r : VmRegion} (h : Gaps s ps a)
    (hstart : r.startAddr = (s.region p).startAddr) (hend : r.endAddr = (s.region p).endAddr) :
    Gaps (s.setRegion p r) ps a where
  aug := by
    rw [gapNat_of_tree (s.tree_setRegion p r),
      show (s.setRegion p r).own = s.own from
        funext fun q => own_setRegion (fun _ => hstart) fun _ _ => hend]
    exact h.aug
  highest := by
    rw [show (s.setRegion p r).vmaHighestAddr = s.vmaHighestAddr from rfl, h.highest]
    unfold highestEnd
    by_cases hq : lastPtr 0#64 ps = p
    · simp [hq, hend]
    · simp [hq]

/-- `kernel_map_vma` as a write of one region and of the host. -/
theorem kernelMapVma_eq (E : Env σ η) (p : Ptr) (s : St σ η) :
    kernelMapVma E p s = { s.setRegion p (mapRegionFields E s.host (s.region p)) with
      host := mapHost E s.host (s.region p) } := rfl

theorem Laid.kernelMapVma {E : Env σ η} {ps : List Ptr} {a : PTree Ptr} (h : Laid s ps a)
    (p : Ptr) : Laid (kernelMapVma E p s) ps a :=
  (h.setRegion p (mapRegionFields E s.host (s.region p))).congr (fun _ _ => rfl) rfl rfl

theorem Gaps.kernelMapVma {E : Env σ η} {ps : List Ptr} {a : PTree Ptr} (h : Gaps s ps a)
    (p : Ptr) : Gaps (kernelMapVma E p s) ps a := by
  have := h.setRegion (p := p) (r := mapRegionFields E s.host (s.region p)) rfl rfl
  exact ⟨this.aug, this.highest⟩

@[simp] theorem region_kernelMapVma (E : Env σ η) (p q : Ptr) (s : St σ η) :
    (kernelMapVma E p s).region q =
      if q = p then mapRegionFields E s.host (s.region p) else s.region q :=
  s.region_setRegion p q _

/-! ## A node that is set up but not linked -/

/-- The store with one node written that is not in the list yet. -/
structure NodeSet (s u : St σ η) (new : Ptr) (fresh : VmRegion) (heap : σ) (host : η) : Prop where
  off : ∀ q, q ≠ new → u.vma q = s.vma q
  region : u.region new = fresh
  root : u.vmaRbRoot = s.vmaRbRoot
  start : u.vmaListStart = s.vmaListStart
  highest : u.vmaHighestAddr = s.vmaHighestAddr
  glob : u.glob = s.glob
  heap : u.heap = heap
  host : u.host = host

section NodeSet

variable {new : Ptr} {fresh : VmRegion} {heap : σ} {host : η} {ps : List Ptr} {a : PTree Ptr}

theorem NodeSet.region_off (h : NodeSet s u new fresh heap host) {q : Ptr} (hq : q ≠ new) :
    u.region q = s.region q := by
  rw [St.region, h.off q hq, St.region]

theorem NodeSet.laid (h : NodeSet s u new fresh heap host) (hs : Laid s ps a) (hnew : new ∉ ps) :
    Laid u ps a :=
  hs.congr (fun q hq => h.off q (by rintro rfl; exact hnew hq)) h.root h.start

theorem NodeSet.own (h : NodeSet s u new fresh heap host) (hs : Laid s ps a) (hnew : new ∉ ps)
    {q : Ptr} (hq : q ∈ ps) : u.own q = s.own q := by
  have hqn : q ≠ new := by rintro rfl; exact hnew hq
  refine own_congr (by rw [h.off q hqn]) (by rw [h.region_off hqn]) fun h0 => ?_
  rcases hs.prev_mem hq with hp | hp
  · exact absurd hp h0
  · rw [h.region_off (by intro heq; exact hnew (heq ▸ hp))]

theorem NodeSet.aug (h : NodeSet s u new fresh heap host) (hs : Laid s ps a) (hnew : new ∉ ps)
    (hg : Gaps s ps a) : Aug s.own u.gapNat a := by
  refine hg.aug.congr (fun _ _ => rfl) fun q hq => ?_
  have hqn : q ≠ new := by rintro rfl; exact hnew (hs.list ▸ hq)
  rw [St.gapNat, St.gap, h.off q hqn, St.gapNat, St.gap]

end NodeSet

/-! ## `vma_link` and `vma_insert` -/

/-- The store `v` is `u` with the node `new` linked in between and mapped. -/
structure LinkedIn (E : Env σ η) (u v : St σ η) (ps : List Ptr) (new : Ptr) (b : PTree Ptr) :
    Prop where
  laid : Laid v ps b
  region : ∀ q, v.region q =
    if q = new then mapRegionFields E u.host (u.region new) else u.region q
  heap : v.heap = u.heap
  host : v.host = mapHost E u.host (u.region new)
  glob : v.glob = u.glob

/-- What has to be known of the gaps before a node is linked in front of `m₂`: the
first node of `m₂` may be stale. -/
structure GapsBefore (u : St σ η) (m₁ m₂ : List Ptr) (a : PTree Ptr) (own₀ : Ptr → Nat) :
    Prop where
  aug : Aug own₀ u.gapNat a
  own : ∀ q ∈ m₁ ++ m₂, q ≠ headPtr 0#64 m₂ → u.own q = own₀ q
  highest : m₂ ≠ [] → u.vmaHighestAddr = highestEnd u (m₁ ++ m₂)

theorem vmaLink_spec {E : Env σ η} {m₁ m₂ : List Ptr} {a : PTree Ptr} {c : Path Ptr}
    {par new : Ptr} (h : Laid u (m₁ ++ m₂) a) (hplug : plug c leaf = a)
    (hpath : PathShape u.rbLinks 0#64 u.vmaRbRoot c par 0#64) (hb : before c = m₁)
    (ha : after c = m₂) (hnew : new ∉ m₁ ++ m₂) (hnew0 : new ≠ 0#64) :
    ∃ v b, vmaLink E new (foundAt c par).prev (foundAt c par).link (foundAt c par).parent u =
        some v ∧ LinkedIn E u v (m₁ ++ new :: m₂) new b ∧
      ∀ own₀, GapsBefore u m₁ m₂ a own₀ → Gaps v (m₁ ++ new :: m₂) b := by
  obtain ⟨w, b, hrun, hlaid, hdata, hgaps⟩ := vmaLinkRb_spec h hplug hpath hb ha hnew hnew0
  have hhost : w.host = u.host := congrArg (fun x => x.2.2.1) hdata
  refine ⟨kernelMapVma E new w, b, ?_, ⟨hlaid.kernelMapVma new, fun q => ?_,
    congrArg (fun x => x.2.1) hdata, ?_, congrArg (fun x => x.2.2.2) hdata⟩, fun own₀ hg => ?_⟩
  · simp only [vmaLink, foundAt, hb]
    rw [hrun]
    rfl
  · simp only [region_kernelMapVma, St.region_of_data hdata, hhost]
  · rw [kernelMapVma_eq, ← hhost, ← St.region_of_data hdata]
  · exact (hgaps own₀ hg.aug hg.own hg.highest).kernelMapVma new

/-- `vma_insert` of a node whose range is free. -/
theorem vmaInsert_spec {E : Env σ η} {m₁ m₂ : List Ptr} {a : PTree Ptr} (new : Ptr)
    (h : Laid u (m₁ ++ m₂) a) (hs : Sorted ((m₁ ++ m₂).map u.region))
    (hcut : Cut u (u.region new).startAddr m₁ m₂)
    (hfree : ∀ q ∈ m₂, ¬ (u.region q).startAddr < (u.region new).endAddr)
    (hnew : new ∉ m₁ ++ m₂) (hnew0 : new ≠ 0#64) :
    ∃ v b, vmaInsert E new u = some v ∧ LinkedIn E u v (m₁ ++ new :: m₂) new b ∧
      ∀ own₀, GapsBefore u m₁ m₂ a own₀ → Gaps v (m₁ ++ new :: m₂) b := by
  obtain ⟨-, hfind⟩ := vmaFindLinks_spec (u.region new).endAddr h hs rfl hcut
  obtain ⟨c, par, hrun, hplug, hpath, hb, ha⟩ := hfind (by
    rintro q hq ⟨h1, h2⟩
    rcases List.mem_append.mp hq with hq | hq
    · have := hcut.below q hq
      bv_omega
    · exact hfree q hq h2)
  obtain ⟨v, b, hlink, hv⟩ := vmaLink_spec (E := E) h hplug hpath hb ha hnew hnew0
  refine ⟨v, b, ?_, hv⟩
  simp only [vmaInsert, hrun, Option.bind_eq_bind, Option.bind_some]
  exact hlink

/-! ## `vma_adjust` -/

/-- The branch of `vma_adjust` that inserts: one node is rewritten, the other linked
in, and both are mapped. -/
theorem vmaAdjust_insert {E : Env σ η} {p new : Ptr} {start end' pgoff : U64}
    (hp0 : p ≠ 0#64) (hnew0 : new ≠ 0#64)
    (hchange : start ≠ (u.region p).startAddr ∨ end' ≠ (u.region p).endAddr) :
    vmaAdjust E p start end' pgoff new u =
      (vmaInsert E new (u.setRegion p
        { u.region p with startAddr := start, endAddr := end', pageOffset := pgoff })).bind
        fun v => some (0, kernelMapVma E p v) := by
  have hins : ¬ ((u.vma p).next ≠ 0#64 ∧ new = 0#64 ∧
      (u.region (u.vma p).next).endAddr ≤ end') := fun h => hnew0 h.2.1
  have hins' : ¬ ((u.vma p).next ≠ 0#64 ∧ new = 0#64) := fun h => hnew0 h.2
  have hch : (decide (start ≠ (u.region p).startAddr) || decide (end' ≠ (u.region p).endAddr)) =
      true := by
    rcases hchange with h | h <;> simp [h]
  simp only [vmaAdjust, deref_of_ne _ hp0, Option.bind_eq_bind, Option.bind_some]
  rw [if_neg hins, if_neg hins']
  simp only [vmaAdjustPass, vmaAdjustLinks, Bool.false_or, hch, ne_eq, not_true_eq_false,
    Bool.false_eq_true, if_false, if_true, hnew0, not_false_eq_true, Option.bind_eq_bind]
  cases vmaInsert E new _ <;> rfl

/-! ## `vma_split` -/

theorem vmaZalloc_eq {E : Env σ η} {new : Ptr} (hnew : (E.alloc s.heap).1 = new)
    (hnew0 : new ≠ 0#64) : vmaZalloc E s =
      (new, ({ s with heap := (E.alloc s.heap).2 } : St σ η).update new fun _ => VmArea.zero) := by
  simp [vmaZalloc, hnew, hnew0]

/-- `vma_split` writes the new node, rewrites the old one and inserts the new. -/
theorem vmaSplit_eq {E : Env σ η} {p new : Ptr} {addr : U64} (nb : Bool) (hp0 : p ≠ 0#64)
    (hnew : (E.alloc s.heap).1 = new) (hnew0 : new ≠ 0#64) (hpn : p ≠ new)
    (hlo : (s.region p).startAddr < addr) (hhi : addr < (s.region p).endAddr) :
    ∃ u, NodeSet s u new
        ((if nb then (s.region p).low addr else (s.region p).high addr).withFd
          (E.dup s.host (s.region p).fileInfo.fd).2)
        (E.alloc s.heap).2 (E.dup s.host (s.region p).fileInfo.fd).1 ∧
      vmaSplit E p addr nb s =
        (vmaInsert E new (u.setRegion p
          (if nb then (s.region p).high addr else (s.region p).low addr))).bind
          fun v => some (0, kernelMapVma E p v) := by
  let s₁ := ({ s with heap := (E.alloc s.heap).2 } : St σ η).update new fun _ => VmArea.zero
  let s₂ := s₁.setRegion new { s₁.region new with physPageStart := -1#64 }
  let s₃ := s₂.update new fun _ => s₂.vma p
  let r₄ := if nb then { s₃.region new with endAddr := addr }
    else { s₃.region new with
      startAddr := addr
      pageOffset := (s₃.region new).pageOffset + pageAlignDown (addr - (s₃.region p).startAddr) }
  let s₄ := s₃.setRegion new r₄
  let dup := E.dup s₄.host (s₄.region new).fileInfo.fd
  let u : St σ η := { s₄.setRegion new { s₄.region new with
    fileInfo := { (s₄.region new).fileInfo with fd := dup.2 } } with host := dup.1 }
  have hr₃ : s₃.region new = s.region p := by
    simp [s₃, s₂, s₁, St.update, St.region, St.setRegion, hpn]
  have hp₃ : s₃.region p = s.region p := by
    simp [s₃, s₂, s₁, St.update, St.region, St.setRegion, hpn]
  have hr₄ : s₄.region new = if nb then (s.region p).low addr else (s.region p).high addr := by
    simp only [s₄, r₄, St.region_setRegion, if_true, hr₃, hp₃]
    rfl
  have hfd : (s₄.region new).fileInfo.fd = (s.region p).fileInfo.fd := by
    rw [hr₄]
    cases nb <;> rfl
  have hdup : dup = E.dup s.host (s.region p).fileInfo.fd := by
    simp only [dup, hfd]
    rfl
  have hu : NodeSet s u new ((if nb then (s.region p).low addr else (s.region p).high addr).withFd
      (E.dup s.host (s.region p).fileInfo.fd).2) (E.alloc s.heap).2
      (E.dup s.host (s.region p).fileInfo.fd).1 := by
    refine ⟨fun q hq => ?_, ?_, rfl, rfl, rfl, rfl, rfl, by rw [← hdup]⟩
    · simp [u, s₄, s₃, s₂, s₁, St.setRegion, St.update, hq]
    · change (s₄.setRegion new _).region new = _
      rw [St.region_setRegion, if_pos rfl, hr₄, hdup]
      rfl
  refine ⟨u, hu, ?_⟩
  have hup : u.region p = s.region p := hu.region_off hpn
  have hadj : (if nb then
        vmaAdjust E p addr (u.region p).endAddr
          ((u.region p).pageOffset + pageAlignDown (addr - (s₃.region p).startAddr)) new u
      else vmaAdjust E p (u.region p).startAddr addr (u.region p).pageOffset new u) =
      (vmaInsert E new (u.setRegion p
        (if nb then (s.region p).high addr else (s.region p).low addr))).bind
        fun v => some (0, kernelMapVma E p v) := by
    cases nb
    · rw [if_neg (by decide), vmaAdjust_insert hp0 hnew0 (Or.inr (by rw [hup]; bv_omega)), hup]
      rfl
    · rw [if_pos rfl, vmaAdjust_insert hp0 hnew0 (Or.inl (by rw [hup]; bv_omega)), hup, hp₃]
      rfl
  have hstep : vmaSplit E p addr nb s = ((if nb then
        vmaAdjust E p addr (u.region p).endAddr
          ((u.region p).pageOffset + pageAlignDown (addr - (s₃.region p).startAddr)) new u
      else vmaAdjust E p (u.region p).startAddr addr (u.region p).pageOffset new u)).bind
      fun x => if x.1 = 0 then some (0, x.2)
        else
          let t := if (x.2.region p).fileInfo.fd ≠ noFd then
            { x.2 with host := E.close x.2.host (x.2.region new).fileInfo.fd } else x.2
          some (x.1, vmaFree E new t) := by
    simp only [vmaSplit, vmaZalloc_eq hnew hnew0, deref_of_ne _ hnew0, Option.bind_eq_bind,
      Option.bind_some]
    rfl
  rw [hstep, hadj]
  cases vmaInsert E new _ <;> rfl

section Split

variable {E : Env σ η} {A : Space σ η} {a : PTree Ptr} {l₁ l₂ : List Area} {p new : Ptr}
  {r fresh : VmRegion} {heap : σ} {host : η}

/-- The insertion of one half of a split area and the mapping of the other, for a
half that fits in between `m₁` and `m₂`. -/
theorem splitInsert_spec (kept : VmRegion) (m₁ m₂ : List Ptr) (h : Holds s A a)
    (hA : A.areas = l₁ ++ (p, r) :: l₂) (hu : NodeSet s u new fresh heap host)
    (hnew : new ∉ A.nodes) (hnew0 : new ≠ 0#64) (hm : A.nodes = m₁ ++ m₂)
    (hs : Sorted (l₁.map Prod.snd ++ kept :: l₂.map Prod.snd))
    (hcut : Cut (u.setRegion p kept) fresh.startAddr m₁ m₂)
    (hfree : ∀ q ∈ m₂, ¬ ((u.setRegion p kept).region q).startAddr < fresh.endAddr)
    (hown : ∀ q ∈ A.nodes, q ≠ headPtr 0#64 m₂ → (u.setRegion p kept).own q = u.own q)
    (hlast : m₂ ≠ [] → lastPtr 0#64 A.nodes = p → kept.endAddr = r.endAddr) :
    ∃ v b, vmaInsert E new (u.setRegion p kept) = some v ∧
      Laid (kernelMapVma E p v) (m₁ ++ new :: m₂) b ∧ v.glob = s.glob ∧ v.heap = heap ∧
      (kernelMapVma E p v).host = mapHost E (mapHost E host fresh) kept ∧
      (∀ q, (kernelMapVma E p v).region q =
        if q = p then mapRegionFields E (mapHost E host fresh) kept
        else if q = new then mapRegionFields E host fresh else s.region q) ∧
      (Gaps s A.nodes a → Gaps (kernelMapVma E p v) (m₁ ++ new :: m₂) b) := by
  have hpmem : p ∈ A.nodes := by simp [Space.nodes, hA]
  have hpr : s.region p = r := h.region (p, r) (by simp [hA])
  have hpn : p ≠ new := by rintro rfl; exact hnew hpmem
  let w := u.setRegion p kept
  have hw : ∀ q, w.region q = if q = p then kept else if q = new then fresh else s.region q := by
    intro q
    by_cases hq : q = p
    · simp [w, hq]
    · by_cases hqn : q = new
      · subst hqn; simp [w, hq, hu.region]
      · simp [w, hq, hqn, hu.region_off hqn]
  have hnodup := h.laid.nodup
  have hnodes : A.nodes = l₁.map Prod.fst ++ p :: l₂.map Prod.fst := by simp [Space.nodes, hA]
  have hside : ∀ l : List Area, (∀ x ∈ l, x ∈ A.areas ∧ x.1 ≠ p) →
      (l.map Prod.fst).map w.region = l.map Prod.snd := by
    intro l hl
    rw [List.map_map]
    refine List.map_congr_left fun x hx => ?_
    obtain ⟨hxA, hxp⟩ := hl x hx
    have hxn : x.1 ≠ new := by
      intro heq; exact hnew (heq ▸ List.mem_map_of_mem hxA)
    simp [hw, hxp, hxn, h.region x hxA]
  have hmapw : A.nodes.map w.region = l₁.map Prod.snd ++ kept :: l₂.map Prod.snd := by
    have hnd := hnodup
    rw [hnodes] at hnd
    obtain ⟨-, h2, h3⟩ := List.nodup_append.mp hnd
    rw [hnodes, List.map_append, List.map_cons, hside l₁, hside l₂, hw, if_pos rfl]
    · intro x hx
      refine ⟨by simp [hA, hx], ?_⟩
      rintro rfl
      exact (List.nodup_cons.mp h2).1 (List.mem_map_of_mem hx)
    · intro x hx
      refine ⟨by simp [hA, hx], fun heq => ?_⟩
      exact h3 x.1 (List.mem_map_of_mem hx) p (by simp) heq
  have hlaidw : Laid w A.nodes a := (hu.laid h.laid hnew).setRegion p kept
  have hwnew : w.region new = fresh := by simp [hw, hpn.symm]
  obtain ⟨v, b, hrun, hv, hgaps⟩ := vmaInsert_spec (E := E) (u := w) new (hm ▸ hlaidw)
    (by rw [← hm, hmapw]; exact hs) (by rw [hwnew]; exact hcut) (by rw [hwnew]; exact hfree)
    (hm ▸ hnew) hnew0
  have hvhost : v.host = mapHost E host fresh := by rw [hv.host, hwnew, ← hu.host]; rfl
  have hvp : v.region p = kept := by rw [hv.region, if_neg hpn, hw, if_pos rfl]
  refine ⟨v, b, hrun, hv.laid.kernelMapVma p, hv.glob.trans hu.glob, hv.heap.trans hu.heap,
    by rw [kernelMapVma_eq, hvhost, hvp], fun q => ?_, fun hg => ?_⟩
  · rw [region_kernelMapVma, hvhost, hvp, hv.region]
    by_cases hq : q = p
    · simp [hq]
    · by_cases hqn : q = new
      · simp [hqn, hwnew, show w.host = host from hu.host]
      · simp [hq, hqn, hw]
  · refine (hgaps s.own ⟨?_, fun q hq hqm => ?_, fun hm₂ => ?_⟩).kernelMapVma p
    · rw [gapNat_of_tree (u.tree_setRegion p kept)]
      exact hu.aug h.laid hnew hg
    · rw [← hm] at hq
      exact (hown q hq hqm).trans (hu.own h.laid hnew hq)
    · rw [show w.vmaHighestAddr = s.vmaHighestAddr from hu.highest, hg.highest, ← hm]
      unfold highestEnd
      by_cases h0 : lastPtr 0#64 A.nodes = 0#64
      · simp [h0]
      · have hmem := lastPtr_mem h0
        have hn : lastPtr 0#64 A.nodes ≠ new := by intro heq; exact hnew (heq ▸ hmem)
        rw [if_neg h0, if_neg h0, hw]
        by_cases hl : lastPtr 0#64 A.nodes = p
        · rw [if_pos hl, hlast hm₂ hl, hl, hpr]
        · rw [if_neg hl, if_neg hn]

/-- The regions around a split area, read in the store with the node set up. -/
theorem NodeSet.around (kept : VmRegion) (h : Holds s A a) (hA : A.areas = l₁ ++ (p, r) :: l₂)
    (hs : Sorted A.regions) (hu : NodeSet s u new fresh heap host) (hnew : new ∉ A.nodes) :
    (∀ x ∈ l₁ ++ l₂, x.1 ≠ p ∧ x.1 ≠ new ∧ s.region x.1 = x.2) ∧
    (∀ q ∈ l₁.map Prod.fst, ((u.setRegion p kept).region q).endAddr ≤ r.startAddr) ∧
    ∀ q ∈ l₂.map Prod.fst, r.endAddr ≤ ((u.setRegion p kept).region q).startAddr ∧
      ((u.setRegion p kept).region q).startAddr < ((u.setRegion p kept).region q).endAddr := by
  have hnd := h.laid.nodup
  simp only [Space.nodes, hA, List.map_append, List.map_cons] at hnd
  rw [show A.regions = l₁.map Prod.snd ++ r :: l₂.map Prod.snd by simp [Space.regions, hA]] at hs
  obtain ⟨hbelow, -, habove⟩ := hs.around
  have hsides : ∀ x ∈ l₁ ++ l₂, x.1 ≠ p ∧ x.1 ≠ new ∧ s.region x.1 = x.2 := by
    intro x hx
    have hxA : x ∈ A.areas := by
      rw [hA]
      simp only [List.mem_append, List.mem_cons] at hx ⊢
      tauto
    refine ⟨?_, ?_, h.region x hxA⟩
    · obtain ⟨-, h2, h3⟩ := List.nodup_append.mp hnd
      intro heq
      rcases List.mem_append.mp hx with hx | hx
      · exact h3 x.1 (List.mem_map_of_mem hx) p (by simp) heq
      · exact (List.nodup_cons.mp h2).1 (heq ▸ List.mem_map_of_mem hx)
    · intro heq
      exact hnew (heq ▸ List.mem_map_of_mem hxA)
  have hread : ∀ x ∈ l₁ ++ l₂, (u.setRegion p kept).region x.1 = x.2 := by
    intro x hx
    obtain ⟨hxp, hxn, hxr⟩ := hsides x hx
    simp [hxp, hu.region_off hxn, hxr]
  refine ⟨hsides, fun q hq => ?_, fun q hq => ?_⟩
  · obtain ⟨x, hx, rfl⟩ := List.mem_map.mp hq
    rw [hread x (by simp [hx])]
    exact hbelow x.2 (List.mem_map_of_mem hx)
  · obtain ⟨x, hx, rfl⟩ := List.mem_map.mp hq
    rw [hread x (by simp [hx])]
    exact habove x.2 (List.mem_map_of_mem hx)

/-- The new half of a split follows the old one. -/
theorem splitAbove_spec {addr : U64} (h : Holds s A a) (hA : A.areas = l₁ ++ (p, r) :: l₂)
    (hs : Sorted A.regions) (hlo : r.startAddr < addr) (hhi : addr < r.endAddr)
    (halloc : (E.alloc A.heap).1 = new) (hnew : new ∉ A.nodes) (hnew0 : new ≠ 0#64)
    (hu : NodeSet s u new ((r.high addr).withFd (E.dup A.host r.fileInfo.fd).2)
      (E.alloc A.heap).2 (E.dup A.host r.fileInfo.fd).1) :
    ∃ v b, vmaInsert E new (u.setRegion p (r.low addr)) = some v ∧
      Carried s A a (kernelMapVma E p v) (A.split E l₁ (p, r) l₂ addr false) b := by
  have hpr : s.region p = r := h.region (p, r) (by simp [hA])
  have hpmem : p ∈ A.nodes := by simp [Space.nodes, hA]
  have hp0 : p ≠ 0#64 := h.laid.ne_null p hpmem
  have hpn : p ≠ new := by rintro rfl; exact hnew hpmem
  have hnodes : A.nodes = l₁.map Prod.fst ++ p :: l₂.map Prod.fst := by simp [Space.nodes, hA]
  have hup : u.region p = r := by rw [hu.region_off hpn, hpr]
  have hlaidu := hu.laid h.laid hnew
  obtain ⟨hsides, hbelow, habove⟩ := hu.around (r.low addr) h hA hs hnew
  rw [Space.regions_eq hA] at hs
  have hcut : Cut (u.setRegion p (r.low addr)) addr (l₁.map Prod.fst ++ [p])
      (l₂.map Prod.fst) := by
    refine ⟨fun q hq => ?_, fun q hq => ?_⟩
    · rcases List.mem_append.mp hq with hq | hq
      · have := hbelow q hq
        bv_omega
      · obtain rfl : q = p := by simpa using hq
        simp [VmRegion.low]
    · have := habove q hq
      bv_omega
  obtain ⟨v, b, hrun, hlaid, hglob, hheap, hhost, hreg, hgaps⟩ := splitInsert_spec (E := E)
    (r.low addr) (l₁.map Prod.fst ++ [p]) (l₂.map Prod.fst) h hA hu hnew hnew0
    (by simp [hnodes]) (hs.shrink (BitVec.le_refl _) (BitVec.le_of_lt hhi) hlo) hcut
    (fun q hq => by
      have := (habove q hq).1
      simp only [VmRegion.withFd, VmRegion.high]
      bv_omega)
    (fun q hq hqm => by
      refine own_setRegion (fun h' => ?_) (fun h' _ => ?_)
      · rw [hup]; rfl
      · rw [hnodes] at hlaidu hq
        exact absurd (hlaidu.eq_head_of_prev hq h') hqm)
    (fun hm hl => by
      rw [hnodes, ← List.singleton_append, ← List.append_assoc, lastPtr_append hm] at hl
      have hmem := lastPtr_mem (hl.symm ▸ hp0 : lastPtr 0#64 (l₂.map Prod.fst) ≠ 0#64)
      rw [hl] at hmem
      obtain ⟨x, hx, hxp⟩ := List.mem_map.mp hmem
      exact absurd hxp (hsides x (by simp [hx])).1)
  refine ⟨v, b, hrun, ⟨?_, fun x hx => ?_, hheap, hhost⟩, hglob, ?_⟩
  · simpa [Space.nodes, Space.split, splitArea, halloc] using hlaid
  · simp only [Space.split, splitArea, Bool.false_eq_true, if_false, List.mem_append,
      List.mem_cons, halloc] at hx
    rcases hx with hx | rfl | rfl | hx
    · obtain ⟨h1, h2, h3⟩ := hsides x (by simp [hx])
      simp [hreg, h1, h2, h3]
    · simp [hreg]
    · simp [hreg, hpn.symm]
    · obtain ⟨h1, h2, h3⟩ := hsides x (by simp [hx])
      simp [hreg, h1, h2, h3]
  · simpa [Space.nodes, Space.split, splitArea, halloc] using hgaps

/-- The new half of a split precedes the old one. -/
theorem splitBelow_spec {addr : U64} (h : Holds s A a) (hA : A.areas = l₁ ++ (p, r) :: l₂)
    (hs : Sorted A.regions) (hlo : r.startAddr < addr) (hhi : addr < r.endAddr)
    (halloc : (E.alloc A.heap).1 = new) (hnew : new ∉ A.nodes) (hnew0 : new ≠ 0#64)
    (hu : NodeSet s u new ((r.low addr).withFd (E.dup A.host r.fileInfo.fd).2)
      (E.alloc A.heap).2 (E.dup A.host r.fileInfo.fd).1) :
    ∃ v b, vmaInsert E new (u.setRegion p (r.high addr)) = some v ∧
      Carried s A a (kernelMapVma E p v) (A.split E l₁ (p, r) l₂ addr true) b := by
  have hpr : s.region p = r := h.region (p, r) (by simp [hA])
  have hpmem : p ∈ A.nodes := by simp [Space.nodes, hA]
  have hpn : p ≠ new := by rintro rfl; exact hnew hpmem
  have hnodes : A.nodes = l₁.map Prod.fst ++ p :: l₂.map Prod.fst := by simp [Space.nodes, hA]
  have hup : u.region p = r := by rw [hu.region_off hpn, hpr]
  obtain ⟨hsides, hbelow, habove⟩ := hu.around (r.high addr) h hA hs hnew
  rw [Space.regions_eq hA] at hs
  obtain ⟨-, hrlt, -⟩ := hs.around
  have hcut : Cut (u.setRegion p (r.high addr)) r.startAddr (l₁.map Prod.fst)
      (p :: l₂.map Prod.fst) := by
    refine ⟨hbelow, fun q hq => ?_⟩
    rcases List.mem_cons.mp hq with rfl | hq
    · simpa [VmRegion.high] using hrlt
    · have := habove q hq
      bv_omega
  obtain ⟨v, b, hrun, hlaid, hglob, hheap, hhost, hreg, hgaps⟩ := splitInsert_spec (E := E)
    (r.high addr) (l₁.map Prod.fst) (p :: l₂.map Prod.fst) h hA hu hnew hnew0
    (by simp [hnodes]) (hs.shrink (BitVec.le_of_lt hlo) (BitVec.le_refl _) hhi) hcut
    (fun q hq => by
      simp only [VmRegion.withFd, VmRegion.low]
      rcases List.mem_cons.mp hq with rfl | hq
      · simp [VmRegion.high]
      · have := (habove q hq).1
        bv_omega)
    (fun q hq hqm => by
      refine own_setRegion (fun h' => absurd h' hqm) (fun h' _ => ?_)
      rw [hup]; rfl)
    (fun _ _ => rfl)
  refine ⟨v, b, hrun, ⟨?_, fun x hx => ?_, hheap, hhost⟩, hglob, ?_⟩
  · simpa [Space.nodes, Space.split, splitArea, halloc] using hlaid
  · simp only [Space.split, splitArea, if_true, List.mem_append, List.mem_cons, halloc] at hx
    rcases hx with hx | rfl | rfl | hx
    · obtain ⟨h1, h2, h3⟩ := hsides x (by simp [hx])
      simp [hreg, h1, h2, h3]
    · simp [hreg, hpn.symm]
    · simp [hreg]
    · obtain ⟨h1, h2, h3⟩ := hsides x (by simp [hx])
      simp [hreg, h1, h2, h3]
  · simpa [Space.nodes, Space.split, splitArea, halloc] using hgaps

/-- `vma_split` splits an area of the address space. -/
theorem vmaSplit_spec {addr : U64} (nb : Bool) (F : E.toNodeHeap.Fresh) (h : Holds s A a)
    (hA : A.areas = l₁ ++ (p, r) :: l₂) (hs : Sorted A.regions) (hlo : r.startAddr < addr)
    (hhi : addr < r.endAddr) (hown : Owned F A) (hav : 0 < F.avail A.heap) :
    ∃ t b, vmaSplit E p addr nb s = some (0, t) ∧
      Carried s A a t (A.split E l₁ (p, r) l₂ addr nb) b := by
  obtain ⟨hnew0, hnlive, -, -⟩ := F.alloc_fresh A.heap hav
  generalize halloc : (E.alloc A.heap).1 = new at hnew0 hnlive
  have hnew : new ∉ A.nodes := fun hm => hnlive (hown new hm)
  have hpr : s.region p = r := h.region (p, r) (by simp [hA])
  have hpmem : p ∈ A.nodes := by simp [Space.nodes, hA]
  have hpn : p ≠ new := by rintro rfl; exact hnew hpmem
  obtain ⟨u, hu, heq⟩ := vmaSplit_eq (E := E) nb (h.laid.ne_null p hpmem)
    (by rw [h.heap, halloc]) hnew0 hpn (hpr ▸ hlo) (hpr ▸ hhi)
  rw [hpr, h.heap, h.host] at hu
  rw [hpr] at heq
  cases nb with
  | false =>
      simp only [Bool.false_eq_true, if_false] at hu heq
      obtain ⟨v, b, hrun, hcarried⟩ := splitAbove_spec h hA hs hlo hhi halloc hnew hnew0 hu
      exact ⟨_, b, by rw [heq, hrun]; rfl, hcarried⟩
  | true =>
      simp only [if_true] at hu heq
      obtain ⟨v, b, hrun, hcarried⟩ := splitBelow_spec h hA hs hlo hhi halloc hnew hnew0 hu
      exact ⟨_, b, by rw [heq, hrun]; rfl, hcarried⟩

end Split

end BufferVM
