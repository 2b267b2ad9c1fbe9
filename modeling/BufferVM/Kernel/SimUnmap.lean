/-
  Kernel/SimUnmap.lean --- `syscall_munmap` does what `Space.unmap` does.

  The code looks up the first VMA that ends above the address, splits it, looks up
  and splits at the end of the range, and then takes the run in between out of the
  list and the tree.  Each of these is one step on the list of areas.
-/
import BufferVM.Kernel.Simulation
import BufferVM.Kernel.SpaceSound

set_option autoImplicit false

namespace BufferVM

open PtrTree PtrTree.PTree PtrList

variable {σ η : Type} {s t u v : St σ η} {E : Env σ η} {A : Space σ η} {a : PTree Ptr}
  {addr end' : U64}

/-! ## Looking up -/

/-- The nodes on both sides of an address. -/
theorem Holds.cut (h : Holds s A a) (hs : Sorted A.regions) (addr : U64) :
    A.nodes = (below addr A.areas).map Prod.fst ++ (above addr A.areas).map Prod.fst ∧
      Cut s addr ((below addr A.areas).map Prod.fst) ((above addr A.areas).map Prod.fst) := by
  have hcut := below_append_above addr A.areas
  refine ⟨by rw [Space.nodes, ← List.map_append, hcut], ⟨fun p hp => ?_, fun p hp => ?_⟩⟩
  · obtain ⟨x, hx, rfl⟩ := List.mem_map.mp hp
    rw [h.region x (hcut ▸ List.mem_append_left _ hx)]
    exact end_le_of_mem_below hx
  · obtain ⟨x, hx, rfl⟩ := List.mem_map.mp hp
    rw [h.region x (hcut ▸ List.mem_append_right _ hx)]
    exact lt_end_of_mem_above hs hx

theorem Holds.vmaFind (h : Holds s A a) (hs : Sorted A.regions) (addr : U64) :
    vmaFind addr s = some (headPtr 0#64 ((above addr A.areas).map Prod.fst)) := by
  obtain ⟨h1, h2⟩ := h.cut hs addr
  exact vmaFind_spec h.laid (h.map_region ▸ hs) h1 h2

/-- The node in front of the first one that ends above an address. -/
theorem Holds.prev_above (h : Holds s A a) {l : List Area} {x : Area}
    (habove : above addr A.areas = x :: l) :
    (s.vma x.1).prev = lastPtr 0#64 ((below addr A.areas).map Prod.fst) := by
  have hch := h.laid.chain
  rw [Space.nodes, ← below_append_above addr A.areas, habove, List.map_append, List.map_cons] at hch
  have hx : x.1 ≠ 0#64 := h.laid.ne_null _ (by
    rw [Space.nodes, ← below_append_above addr A.areas, habove]
    simp)
  exact hch.prev_eq hx

/-! ## The splits -/

/-- The split of whatever area reaches across an address. -/
theorem splitAt_spec (F : E.toNodeHeap.Fresh) (addr : U64) (h : Holds s A a) (hso : Sound F A)
    (hav : 0 < F.avail A.heap) (nb : Bool) :
    ∃ t b, (if headPtr 0#64 ((above addr A.areas).map Prod.fst) ≠ 0#64 ∧
          (s.region (headPtr 0#64 ((above addr A.areas).map Prod.fst))).startAddr < addr then
        vmaSplit E (headPtr 0#64 ((above addr A.areas).map Prod.fst)) addr nb s
      else some (0, s)) = some (0, t) ∧ Carried s A a t (A.splitAt E addr nb) b := by
  have hcut := below_append_above addr A.areas
  rcases splitAt_cases E addr nb hso.sorted with ⟨heq, hle⟩ | ⟨x, l, habove, hA, hlo, hhi, heq⟩
  · refine ⟨s, a, ?_, by rw [heq]; exact Carried.refl h⟩
    rw [if_neg]
    rintro ⟨h0, hlt⟩
    obtain ⟨x, hx, hxp⟩ := List.mem_map.mp (headPtr_mem h0)
    rw [← hxp, h.region x (hcut ▸ List.mem_append_right _ hx)] at hlt
    have := hle x hx
    bv_omega
  · obtain ⟨t, b, hrun, hcar⟩ := vmaSplit_spec nb F h hA hso.sorted hlo hhi hso.owned hav
    refine ⟨t, b, ?_, heq ▸ hcar⟩
    have hx0 : x.1 ≠ 0#64 := h.laid.ne_null _ (by rw [Space.nodes, hA]; simp)
    have hxr : s.region x.1 = x.2 := h.region x (by rw [hA]; simp)
    rw [habove, List.map_cons, headPtr_cons, if_pos ⟨hx0, by rw [hxr]; exact hlo⟩]
    exact hrun

/-- The last node in front of the address after the split there. -/
theorem lastPtr_below_splitAt (hs : Sorted A.regions) {x : Area} {l : List Area}
    (habove : above addr A.areas = x :: l) :
    lastPtr 0#64 ((below addr (A.splitAt E addr false).areas).map Prod.fst) =
      if x.2.startAddr < addr then x.1
      else lastPtr 0#64 ((below addr A.areas).map Prod.fst) := by
  rcases splitAt_cases E addr false hs with ⟨heq, hle⟩ | ⟨y, l', habove', hA, hlo, hhi, heq⟩
  · have := hle x (by simp [habove])
    rw [heq, if_neg (by bv_omega)]
  · obtain ⟨rfl, rfl⟩ : y = x ∧ l' = l := by
      rw [habove] at habove'
      exact ⟨(List.cons.inj habove').1.symm, (List.cons.inj habove').2.symm⟩
    obtain ⟨h1, h2, h3, h4⟩ := splitArea_bounds E y addr false A.heap A.host
    have hs' := hs
    rw [Space.regions_eq hA] at hs'
    obtain ⟨hb, -, ha⟩ := hs'.around
    have hcut := (cut_eq addr
      (below addr A.areas ++ [(splitArea E y addr false A.heap A.host).1])
      ((splitArea E y addr false A.heap A.host).2.1 :: l') (fun z hz => ?_) fun z hz => ?_).1
    · rw [if_pos hlo, heq]
      simp only [Space.split]
      rw [show below addr A.areas ++ (splitArea E y addr false A.heap A.host).1 ::
          (splitArea E y addr false A.heap A.host).2.1 :: l' =
        (below addr A.areas ++ [(splitArea E y addr false A.heap A.host).1]) ++
          (splitArea E y addr false A.heap A.host).2.1 :: l' by simp, hcut, List.map_append,
        List.map_singleton, lastPtr_append_singleton]
      rfl
    · rcases List.mem_append.mp hz with hz | hz
      · exact end_le_of_mem_below hz
      · obtain rfl := List.mem_singleton.mp hz
        rw [h2]
        exact BitVec.le_refl _
    · rcases List.mem_cons.mp hz with rfl | hz
      · rw [h4]; exact hhi
      · have := ha z.2 (List.mem_map_of_mem hz)
        bv_omega

/-- A split behind an edge changes nothing in front of it. -/
theorem below_splitAt (hs : Sorted A.regions) (hedge : EdgeAt addr A.areas) (hlt : addr < end')
    (nb : Bool) : below addr (A.splitAt E end' nb).areas = below addr A.areas := by
  rcases splitAt_cases E end' nb hs with ⟨heq, -⟩ | ⟨y, l, habove, hA, hlo, hhi, heq⟩
  · rw [heq]
  · obtain ⟨h1, h2, h3, h4⟩ := splitArea_bounds E y end' nb A.heap A.host
    have hs' := hs
    rw [Space.regions_eq hA] at hs'
    obtain ⟨hb, hylt, ha⟩ := hs'.around
    -- the area that is split starts at or above the edge
    have hy : addr ≤ y.2.startAddr := by
      rcases hedge y (by rw [hA]; simp) with h | h
      · bv_omega
      · exact h
    rw [heq]
    simp only [Space.split]
    conv_rhs => rw [hA]
    have key : ∀ m : List Area, (∀ x ∈ m, addr < x.2.endAddr) →
        below addr (below end' A.areas ++ m) = below addr (below end' A.areas) := by
      intro m hm
      rw [← below_append_above addr (below end' A.areas), List.append_assoc]
      refine ((cut_eq _ _ _ (fun x hx => end_le_of_mem_below hx) fun x hx => ?_).1).trans ?_
      · rcases List.mem_append.mp hx with hx | hx
        · refine lt_end_of_mem_above (hs.sublist ?_) hx
          exact (List.takeWhile_sublist _).map Prod.snd
        · exact hm x hx
      · rw [below_append_above]
    rw [key, key]
    · intro x hx
      rcases List.mem_cons.mp hx with rfl | hx
      · bv_omega
      · have := ha x.2 (List.mem_map_of_mem hx)
        bv_omega
    · intro x hx
      simp only [List.mem_cons] at hx
      rcases hx with rfl | rfl | hx
      · rw [h2]; exact hlt
      · rw [h4]; bv_omega
      · have := ha x.2 (List.mem_map_of_mem hx)
        bv_omega

/-! ## Detaching a run -/

/-- The pointer that the code takes the run to start at. -/
theorem Holds.run_head (h : Holds s A a) {l₁ l₂ : List Area} (hA : A.areas = l₁ ++ l₂) :
    (if lastPtr 0#64 (l₁.map Prod.fst) ≠ 0#64 then
        (s.vma (lastPtr 0#64 (l₁.map Prod.fst))).next else s.vmaListStart) =
      headPtr 0#64 (l₂.map Prod.fst) := by
  have hch := h.laid.chain
  rw [Space.nodes, hA, List.map_append] at hch
  have := (Chain.cut _ _ hch).1
  simp only [St.listLinks] at this
  rw [← this]
  by_cases h0 : lastPtr 0#64 (l₁.map Prod.fst) = 0#64 <;> simp [h0]

/-- A run of areas is detached from the store and removed. -/
theorem runRemove_spec (h : Holds s A a) {l₁ m d : List Area} {y : Area}
    (hA : A.areas = l₁ ++ y :: m ++ d) (hm : ∀ x ∈ m, x.2.startAddr < end')
    (hd : ∀ x ∈ d, end' ≤ x.2.startAddr) :
    ∃ t b, ((detachVmasToBeUnmapped y.1 (lastPtr 0#64 (l₁.map Prod.fst)) end' s).bind
        fun s => vmaListRemove E walkBound y.1 s) = some t ∧
      Carried s A a t
        { areas := l₁ ++ d
          heap := (removeAreas E (y :: m) (A.heap, A.host)).1
          host := (removeAreas E (y :: m) (A.heap, A.host)).2 } b := by
  have hnodes : A.nodes = l₁.map Prod.fst ++ y.1 :: m.map Prod.fst ++ d.map Prod.fst := by
    simp [Space.nodes, hA]
  have hread : ∀ x ∈ l₁ ++ y :: m ++ d, s.region x.1 = x.2 := fun x hx =>
    h.region x (hA ▸ hx)
  have hlaid := hnodes ▸ h.laid
  obtain ⟨v, b, hrun, hv, hdata, hnext, hgaps⟩ := detachVmasToBeUnmapped_spec end' hlaid
    (fun q hq => by
      obtain ⟨x, hx, rfl⟩ := List.mem_map.mp hq
      rw [hread x (by simp [hx])]
      exact hm x hx)
    (fun q hq => by
      obtain ⟨x, hx, rfl⟩ := List.mem_map.mp hq
      rw [hread x (by simp [hx])]
      have := hd x hx
      bv_omega)
  have hlen : (m.map Prod.fst).length < walkBound := by
    have := hlaid.length_lt
    simp only [List.length_append, List.length_cons] at this
    omega
  have hheap : v.heap = A.heap := (congrArg (fun x => x.2.1) hdata).trans h.heap
  have hhost : v.host = A.host := (congrArg (fun x => x.2.2.1) hdata).trans h.host
  have hareas : areasAt v (y.1 :: m.map Prod.fst) = y :: m := by
    rw [areasAt, ← List.map_cons, List.map_map]
    conv_rhs => rw [← List.map_id (y :: m)]
    refine List.map_congr_left fun x hx => ?_
    simp only [Function.comp_apply, id_eq, St.region_of_data hdata]
    rw [hread x (by simp only [List.mem_append, List.mem_cons] at hx ⊢; tauto)]
  have hrem := vmaListRemove_spec (E := E) (m.map Prod.fst) walkBound y.1 v hlen hnext
    (fun q hq => hlaid.ne_null q (by
      simp only [List.mem_append, List.mem_cons] at hq ⊢
      tauto))
  rw [hareas, hheap, hhost] at hrem
  refine ⟨_, b, by rw [hrun, Option.bind_some, hrem], ⟨?_, ?_, rfl, rfl⟩, ?_, fun hg => ?_⟩
  · rw [Space.nodes, List.map_append]
    exact hv.congr (fun _ _ => rfl) rfl rfl
  · intro x hx
    refine (St.region_of_data hdata x.1).trans (hread x ?_)
    simp only [List.mem_append, List.mem_cons] at hx ⊢
    tauto
  · exact congrArg (fun x => x.2.2.2) hdata
  · rw [hnodes] at hg
    rw [Space.nodes, List.map_append]
    exact ⟨(hgaps hg).aug, (hgaps hg).highest⟩

theorem removeRange_spec (h : Holds s A a) (hs : Sorted A.regions)
    (hover : ∃ x ∈ A.areas, addr < x.2.endAddr ∧ x.2.startAddr < end') {prev z : Ptr}
    (hprev : prev = lastPtr 0#64 ((below addr A.areas).map Prod.fst))
    (hz : z = if prev ≠ 0#64 then (s.vma prev).next else s.vmaListStart) :
    ∃ t b, ((detachVmasToBeUnmapped z prev end' s).bind fun s => vmaListRemove E walkBound z s) =
        some t ∧ Carried s A a t (A.removeRange E addr end') b := by
  have hcut := removeRange_cut addr end' A.areas
  have hdrop : ∀ x ∈ (above addr A.areas).dropWhile (fun x =>
      decide (x.2.startAddr < end')), end' ≤ x.2.startAddr := fun x hx =>
    le_start_of_mem_dropWhile (hs.sublist ((List.dropWhile_sublist _).map Prod.snd)) hx
  have htake : ∀ x ∈ (above addr A.areas).takeWhile (fun x => decide (x.2.startAddr < end')),
      x.2.startAddr < end' := fun x hx => by simpa using List.mem_takeWhile_imp hx
  unfold Space.removeRange
  generalize hm : (above addr A.areas).takeWhile (fun x => decide (x.2.startAddr < end')) = m
    at hcut htake
  generalize hd : (above addr A.areas).dropWhile (fun x => decide (x.2.startAddr < end')) = d
    at hcut hdrop
  simp only [hd, hm]
  -- the run is not empty
  obtain ⟨y, m, rfl⟩ : ∃ y m', m = y :: m' := by
    rcases m with _ | ⟨y, m'⟩
    · obtain ⟨x, hx, h1, h2⟩ := hover
      rw [hcut] at hx
      simp only [List.nil_append, List.mem_append] at hx
      rcases hx with hx | hx
      · have := end_le_of_mem_below hx
        bv_omega
      · have := hdrop x hx
        bv_omega
    · exact ⟨y, m', rfl⟩
  obtain rfl : z = y.1 := by
    rw [hz, hprev, h.run_head hcut]
    rfl
  subst hprev
  exact runRemove_spec h (by rw [List.append_assoc, ← hcut])
    (fun x hx => htake x (by simp [hx])) hdrop

/-! ## `syscall_munmap` -/

/-- `syscall_munmap` of a range that does not wrap around. -/
theorem syscallMunmap_spec {length : U64} (F : E.toNodeHeap.Fresh) (h : Holds s A a)
    (hso : Sound F A) (hav : 2 ≤ F.avail A.heap)
    (hacc : munmapRejects s.glob.kernelMinAddress addr length = false)
    (hend : end' = addr + pageAlign length) (hlt : addr < end') :
    ∃ t b, syscallMunmap E addr length s = some (0, t) ∧
      Carried s A a t (A.unmap E addr end') b := by
  unfold syscallMunmap Space.unmap
  rw [if_neg (by simp [hacc])]
  simp only [h.vmaFind hso.sorted, Option.bind_eq_bind, Option.bind_some, ← hend]
  by_cases hover : overlapping addr end' A.areas = true
  · obtain ⟨x, l, habove⟩ : ∃ x l, above addr A.areas = x :: l := by
      cases hab : above addr A.areas with
      | nil => simp [overlapping, hab] at hover
      | cons x l => exact ⟨x, l, rfl⟩
    have hxlt : x.2.startAddr < end' := by simpa [overlapping, habove] using hover
    have hxA : x ∈ A.areas := (List.dropWhile_sublist _).subset
      (show x ∈ above addr A.areas by simp [habove])
    have hx0 : x.1 ≠ 0#64 := h.laid.ne_null _ (List.mem_map_of_mem hxA)
    have hxr : s.region x.1 = x.2 := h.region x hxA
    -- the split at the address
    obtain ⟨s₁, b₁, hrun₁, hcar₁⟩ := splitAt_spec F addr h hso (by omega) false
    obtain ⟨hso₁, hav₁⟩ := hso.splitAt addr false (by omega)
    -- the split at the end
    obtain ⟨s₂, b₂, hrun₂, hcar₂⟩ := splitAt_spec F end' hcar₁.holds hso₁ (by omega) true
    obtain ⟨hso₂, -⟩ := hso₁.splitAt end' true (by omega)
    have hover₁ := overlapping_splitAt (E := E) hso.sorted false hlt (Or.inl rfl) hover
    have hover₂ := overlapping_splitAt (E := E) hso₁.sorted true hlt (Or.inr rfl)
      ((overlapping_iff hso₁.sorted).mpr hover₁)
    have hlast := lastPtr_below_splitAt (E := E) hso.sorted habove
    rw [← below_splitAt (E := E) hso₁.sorted (edgeAt_splitAt hso.sorted false) hlt true] at hlast
    obtain ⟨s₃, b₃, hrun₃, hcar₃⟩ := removeRange_spec (E := E) hcar₂.holds hso₂.sorted hover₂
      hlast.symm rfl
    refine ⟨s₃, b₃, ?_, ?_⟩
    · simp only [habove, List.map_cons, headPtr_cons, hxr, if_neg hx0] at hrun₁ ⊢
      rw [if_neg (by bv_omega), h.prev_above habove]
      have hfind := hcar₁.holds.vmaFind hso₁.sorted end'
      obtain ⟨w, hw₁, hw₂⟩ := Option.bind_eq_some_iff.mp hrun₃
      by_cases hin : x.2.startAddr < addr
      · rw [if_pos ⟨hx0, hin⟩] at hrun₁
        simp only [if_pos hin] at hw₁ hw₂
        simp only [if_pos hin, hrun₁, Option.bind_some, ne_eq, not_true_eq_false, if_false, hfind,
          hrun₂, hw₁, hw₂]
      · obtain rfl : s = s₁ := by simpa [hin] using hrun₁
        simp only [if_neg hin] at hw₁ hw₂
        simp only [if_neg hin, Option.bind_some, ne_eq, not_true_eq_false, if_false, hfind,
          hrun₂, hw₁, hw₂]
    · rw [if_pos hover]
      exact (hcar₁.trans hcar₂).trans hcar₃
  · refine ⟨s, a, ?_, by rw [if_neg hover]; exact Carried.refl h⟩
    cases habove : above addr A.areas with
    | nil => simp
    | cons x l =>
        have hxA : x ∈ A.areas := (List.dropWhile_sublist _).subset
          (show x ∈ above addr A.areas by simp [habove])
        have hx0 : x.1 ≠ 0#64 := h.laid.ne_null _ (List.mem_map_of_mem hxA)
        have hle : end' ≤ x.2.startAddr := by
          simpa [overlapping, habove] using hover
        simp only [List.map_cons, headPtr_cons, if_neg hx0, h.region x hxA, if_pos hle]

end BufferVM
