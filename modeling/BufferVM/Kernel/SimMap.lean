/-
  Kernel/SimMap.lean --- `mmap_region` and `do_brk` do what `Space.map` does.

  After the range has been cleared the code either links a new VMA or lets a
  neighbour grow through `vma_adjust`.  A VMA that grows makes the gap behind it, or
  its own gap, stale; the lemmas of the first part say what the two repairs do to the
  list of areas, and the rest is the case distinction of `vma_merge`.
-/
import BufferVM.Kernel.SimUnmap

set_option autoImplicit false

namespace BufferVM

open PtrTree PtrTree.PTree PtrList

variable {σ η : Type} {s t u v : St σ η} {E : Env σ η} {A : Space σ η} {a : PTree Ptr}
  {addr end' : U64} {l₁ l₂ : List Area} {p : Ptr} {r k : VmRegion}

/-! ## One area rewritten -/

/-- The address space with one area rewritten and mapped. -/
def Space.regrow (E : Env σ η) (l₁ : List Area) (p : Ptr) (k : VmRegion) (l₂ : List Area)
    (A : Space σ η) : Space σ η :=
  { areas := l₁ ++ (p, mapRegionFields E A.host k) :: l₂
    heap := A.heap
    host := mapHost E A.host k }

theorem Holds.regrow (h : Holds s A a) (hA : A.areas = l₁ ++ (p, r) :: l₂)
    (hv : Laid v A.nodes a) (hdata : v.data = (s.setRegion p k).data) :
    Holds (kernelMapVma E p v) (A.regrow E l₁ p k l₂) a := by
  have hnd := h.laid.nodup
  simp only [Space.nodes, hA, List.map_append, List.map_cons] at hnd
  have hvp : v.region p = k := by rw [St.region_of_data hdata]; simp
  have hhost : v.host = A.host := (congrArg (fun x => x.2.2.1) hdata).trans h.host
  refine ⟨?_, fun x hx => ?_, (congrArg (fun x => x.2.1) hdata).trans h.heap, ?_⟩
  · have := hv.kernelMapVma (E := E) p
    simpa [Space.nodes, Space.regrow, hA] using this
  · simp only [Space.regrow, List.mem_append, List.mem_cons] at hx
    rw [region_kernelMapVma, hvp, hhost]
    have hside : ∀ y : Area, y ∈ l₁ ∨ y ∈ l₂ → y.1 ≠ p := by
      rintro y hy rfl
      obtain ⟨-, h2, h3⟩ := List.nodup_append.mp hnd
      rcases hy with hy | hy
      · exact h3 y.1 (List.mem_map_of_mem hy) y.1 (by simp) rfl
      · exact (List.nodup_cons.mp h2).1 (List.mem_map_of_mem hy)
    have hkeep : x ∈ l₁ ∨ x ∈ l₂ → v.region x.1 = x.2 := by
      intro hx
      rw [St.region_of_data hdata, St.region_setRegion, if_neg (hside x hx)]
      refine h.region x ?_
      rw [hA]
      simp only [List.mem_append, List.mem_cons]
      tauto
    rcases hx with hx | rfl | hx
    · rw [if_neg (hside x (Or.inl hx)), hkeep (Or.inl hx)]
    · simp
    · rw [if_neg (hside x (Or.inr hx)), hkeep (Or.inr hx)]
  · rw [kernelMapVma_eq, hvp, hhost]
    rfl

theorem own_kernelMapVma (E : Env σ η) (p : Ptr) (s : St σ η) :
    (kernelMapVma E p s).own = s.own :=
  funext fun _ => own_setRegion (fun _ => rfl) fun _ _ => rfl

theorem gapNat_kernelMapVma (E : Env σ η) (p : Ptr) (s : St σ η) :
    (kernelMapVma E p s).gapNat = s.gapNat :=
  gapNat_of_tree (s.tree_setRegion p _)

/-- The highest address after the end of an area has moved and the gap behind it has
been mended. -/
theorem highestEnd_grown {ps m : List Ptr} {hi : U64} (h0 : 0#64 ∉ m) (hp0 : p ≠ 0#64)
    (hnd : (p :: m).Nodup) (hhi : (t.region p).endAddr = hi)
    (hkeep : ∀ q ∈ m, q ≠ p → t.region q = s.region q) (l : List Ptr)
    (hps : m ≠ [] → lastPtr 0#64 ps = lastPtr 0#64 m) :
    (if headPtr 0#64 m = 0#64 then hi else highestEnd s ps) = highestEnd t (l ++ p :: m) := by
  by_cases hm : m = []
  · subst hm
    simp [highestEnd, hp0, hhi]
  · have hk : headPtr 0#64 m ≠ 0#64 := fun h' => hm ((headPtr_eq_null h0).mp h')
    rw [if_neg hk, highestEnd, highestEnd, hps hm, ← List.singleton_append, ← List.append_assoc,
      lastPtr_append hm]
    by_cases hlast : lastPtr 0#64 m = 0#64
    · simp [hlast]
    · have hne : lastPtr 0#64 m ≠ p := by
        intro heq
        exact (List.nodup_cons.mp hnd).1 (heq ▸ lastPtr_mem hlast)
      rw [if_neg hlast, if_neg hlast, hkeep _ (lastPtr_mem hlast) hne]

/-- The end of an area moves: the gap behind it or the highest address is mended. -/
theorem growEnd_spec (E : Env σ η) (h : Holds s A a) (hA : A.areas = l₁ ++ (p, r) :: l₂)
    (hstart : k.startAddr = r.startAddr) :
    ∃ v, (if headPtr 0#64 (l₂.map Prod.fst) ≠ 0#64 then
          vmaGapUpdate (headPtr 0#64 (l₂.map Prod.fst)) (s.setRegion p k)
        else some ((s.setRegion p k).setHighest k.endAddr)) = some v ∧
      Carried s A a (kernelMapVma E p v) (A.regrow E l₁ p k l₂) a := by
  have hnodes : A.nodes = l₁.map Prod.fst ++ p :: l₂.map Prod.fst := by simp [Space.nodes, hA]
  have hnodes' : (A.regrow E l₁ p k l₂).nodes = A.nodes := by simp [Space.nodes, Space.regrow, hA]
  have hpr : s.region p = r := h.region (p, r) (by simp [hA])
  have hp0 : p ≠ 0#64 := h.laid.ne_null p (by simp [hnodes])
  have h0₂ : 0#64 ∉ l₂.map Prod.fst := fun hq => h.laid.ne_null _ (by simp [hnodes, hq]) rfl
  have hlaid := h.laid.setRegion p k
  obtain ⟨v, hrun, hv, hdata, -, hhigh, hown, haug⟩ := mendGap_spec
    (headPtr 0#64 (l₂.map Prod.fst)) k.endAddr hlaid
    (fun h0 => by rw [hnodes]; simp [headPtr_mem h0])
  refine ⟨v, hrun, h.regrow hA hv hdata, congrArg (fun x => x.2.2.2) hdata, fun hg => ?_⟩
  rw [hnodes']
  refine Gaps.kernelMapVma ⟨haug s.own ?_ fun q hq hqk => ?_, ?_⟩ p
  · rw [gapNat_of_tree (s.tree_setRegion p k)]
    exact hg.aug
  · refine own_setRegion (fun _ => by rw [hpr, hstart]) fun hprev _ => ?_
    exact absurd ((hnodes ▸ h.laid).eq_head_of_prev (hnodes ▸ hq) hprev) hqk
  · rw [hhigh, show (s.setRegion p k).vmaHighestAddr = s.vmaHighestAddr from rfl, hg.highest,
      hnodes]
    have hnd := h.laid.nodup
    rw [hnodes] at hnd
    refine highestEnd_grown h0₂ hp0 (List.nodup_append.mp hnd).2.1
      (by simp [St.region_of_data hdata]) (fun q _ hq => by simp [St.region_of_data hdata, hq]) _
      fun hne => ?_
    rw [← List.singleton_append, ← List.append_assoc, lastPtr_append hne]

/-- The start of an area moves: its own gap is mended. -/
theorem growStart_spec (E : Env σ η) (h : Holds s A a) (hA : A.areas = l₁ ++ (p, r) :: l₂)
    (hend : k.endAddr = r.endAddr) :
    ∃ v, vmaGapUpdate p (s.setRegion p k) = some v ∧
      Carried s A a (kernelMapVma E p v) (A.regrow E l₁ p k l₂) a := by
  have hnodes : A.nodes = l₁.map Prod.fst ++ p :: l₂.map Prod.fst := by simp [Space.nodes, hA]
  have hnodes' : (A.regrow E l₁ p k l₂).nodes = A.nodes := by simp [Space.nodes, Space.regrow, hA]
  have hpr : s.region p = r := h.region (p, r) (by simp [hA])
  have hpmem : p ∈ A.nodes := by simp [hnodes]
  have hp0 : p ≠ 0#64 := h.laid.ne_null p hpmem
  have hlaid := h.laid.setRegion p k
  obtain ⟨v, hrun, hv, hdata, -, hhigh, hown, haug⟩ := mendGap_spec p 0#64 hlaid
    (fun _ => hpmem)
  rw [if_pos hp0] at hrun
  rw [if_neg hp0] at hhigh
  refine ⟨v, hrun, h.regrow hA hv hdata, congrArg (fun x => x.2.2.2) hdata, fun hg => ?_⟩
  rw [hnodes']
  refine Gaps.kernelMapVma ⟨haug s.own ?_ fun q hq hqk => ?_, ?_⟩ p
  · rw [gapNat_of_tree (s.tree_setRegion p k)]
    exact hg.aug
  · exact own_setRegion (fun heq => absurd heq hqk) fun _ _ => by rw [hpr, hend]
  · rw [hhigh, show (s.setRegion p k).vmaHighestAddr = s.vmaHighestAddr from rfl, hg.highest]
    unfold highestEnd
    by_cases hq : lastPtr 0#64 A.nodes = p
    · simp [hq, St.region_of_data hdata, hpr, hend]
    · simp [hq, St.region_of_data hdata]

/-- The area that swallows the one behind it is neither that one nor one of the others. -/
theorem Holds.ne_swallowing {n y : Area} (h : Holds s A a) (hA : A.areas = l₁ ++ (p, r) :: n :: l₂)
    (hy : y ∈ l₁ ∨ y = n ∨ y ∈ l₂) : y.1 ≠ p := by
  have hnd := h.laid.nodup
  rw [show A.nodes = l₁.map Prod.fst ++ p :: n.1 :: l₂.map Prod.fst by simp [Space.nodes, hA]]
    at hnd
  obtain ⟨-, h2, h3⟩ := List.nodup_append.mp hnd
  rintro rfl
  rcases hy with hy | rfl | hy
  · exact h3 y.1 (List.mem_map_of_mem hy) y.1 (by simp) rfl
  · simp at h2
  · exact (List.nodup_cons.mp h2).1 (by simp [List.mem_map_of_mem hy])

/-- When it has been mapped, the others are as they were. -/
theorem Holds.region_swallowing (E : Env σ η) {n y : Area} {v : St σ η} (h : Holds s A a)
    (hA : A.areas = l₁ ++ (p, r) :: n :: l₂) (hdata : v.data = (s.setRegion p k).data)
    (hy : y ∈ l₁ ∨ y = n ∨ y ∈ l₂) : (kernelMapVma E p v).region y.1 = y.2 := by
  have hne := h.ne_swallowing hA hy
  rw [region_kernelMapVma, if_neg hne, St.region_of_data hdata, St.region_setRegion, if_neg hne]
  refine h.region y ?_
  rw [hA]
  simp only [List.mem_append, List.mem_cons]
  tauto

/-- The gaps of the nodes that stay are as they were: the swallowed one has been between its end
and the node behind. -/
theorem Holds.own_swallowing {n : Area} {q : Ptr} (h : Holds s A a)
    (hA : A.areas = l₁ ++ (p, r) :: n :: l₂) (hstart : k.startAddr = r.startAddr)
    (hq : q ∈ l₁.map Prod.fst ++ p :: l₂.map Prod.fst) :
    (s.setRegion p k).own q = s.own q := by
  have hnodes : A.nodes = l₁.map Prod.fst ++ p :: n.1 :: l₂.map Prod.fst := by
    simp [Space.nodes, hA]
  have hnd := h.laid.nodup
  rw [hnodes, ← List.singleton_append (l := n.1 :: _), ← List.append_assoc,
    List.nodup_middle] at hnd
  have hpr : s.region p = r := h.region (p, r) (by simp [hA])
  refine own_setRegion (fun _ => by rw [hpr, hstart]) fun hprev _ => ?_
  have hqn := (hnodes ▸ h.laid).eq_head_of_prev (q := q)
    (by simp only [List.mem_append, List.mem_cons] at hq ⊢; tauto) hprev
  rw [headPtr_cons] at hqn
  exact absurd (by simpa [hqn] using hq) (List.nodup_cons.mp hnd).1

/-- An area swallows the one behind it: that one is unlinked, the first is mapped, the
other is removed, and then the gap behind them is mended. -/
theorem swallow_spec (E : Env σ η) {n : Area} (h : Holds s A a)
    (hA : A.areas = l₁ ++ (p, r) :: n :: l₂) (hstart : k.startAddr = r.startAddr)
    (hend : k.endAddr = n.2.endAddr) :
    ∃ v t b, vmaUnlink n.1 p (s.setRegion p k) = some v ∧
      vmaAdjustNext p k.endAddr ((kernelMapVma E p v).withHost
        (removeArea E ((kernelMapVma E p v).heap, (kernelMapVma E p v).host) n)) = some t ∧
      (kernelMapVma E p v).region n.1 = n.2 ∧
      Carried s A a t
        { areas := l₁ ++ (p, mapRegionFields E A.host k) :: l₂
          heap := (removeArea E (A.heap, mapHost E A.host k) n).1
          host := (removeArea E (A.heap, mapHost E A.host k) n).2 } b := by
  have hnodes : A.nodes = l₁.map Prod.fst ++ p :: n.1 :: l₂.map Prod.fst := by
    simp [Space.nodes, hA]
  have hp0 : p ≠ 0#64 := h.laid.ne_null p (by simp [hnodes])
  have h0₂ : 0#64 ∉ l₂.map Prod.fst := fun hq => h.laid.ne_null _ (by simp [hnodes, hq]) rfl
  have hnd := h.laid.nodup
  rw [hnodes] at hnd
  have hlaid : Laid (s.setRegion p k) (l₁.map Prod.fst ++ p :: n.1 :: l₂.map Prod.fst) a :=
    hnodes ▸ h.laid.setRegion p k
  obtain ⟨v, b, hrun, hv, hdata, hhigh, hown, haug⟩ := vmaUnlink_spec hlaid
  have hside : ∀ y : Area, y ∈ l₁ ∨ y = n ∨ y ∈ l₂ → y.1 ≠ p := by
    rintro y hy rfl
    obtain ⟨-, h2, h3⟩ := List.nodup_append.mp hnd
    rcases hy with hy | rfl | hy
    · exact h3 y.1 (List.mem_map_of_mem hy) y.1 (by simp) rfl
    · simp at h2
    · exact (List.nodup_cons.mp h2).1 (by simp [List.mem_map_of_mem hy])
  have hvp : v.region p = k := by rw [St.region_of_data hdata]; simp
  have hhost : v.host = A.host := (congrArg (fun x => x.2.2.1) hdata).trans h.host
  have hheap : v.heap = A.heap := (congrArg (fun x => x.2.1) hdata).trans h.heap
  have hkeep : ∀ y : Area, y ∈ l₁ ∨ y = n ∨ y ∈ l₂ → (kernelMapVma E p v).region y.1 = y.2 :=
    fun y hy => h.region_swallowing E hA hdata hy
  have hregp : (kernelMapVma E p v).region p = mapRegionFields E A.host k := by
    rw [region_kernelMapVma, if_pos rfl, hvp, hhost]
  have hheap' : (kernelMapVma E p v).heap = A.heap := hheap
  have hhost' : (kernelMapVma E p v).host = mapHost E A.host k := by
    rw [kernelMapVma_eq, hvp, hhost]
  refine ⟨v, ?_⟩
  rw [hheap', hhost']
  generalize hx : removeArea E (A.heap, mapHost E A.host k) n = x
  -- the store in which the gap is mended
  have hlaidw : Laid ((kernelMapVma E p v).withHost x)
      (l₁.map Prod.fst ++ p :: l₂.map Prod.fst) b :=
    (hv.kernelMapVma p).congr (fun _ _ => rfl) rfl rfl
  obtain ⟨t, hmend, ht, htdata, -, hthigh, htown, htaug⟩ := mendGap_spec
    (headPtr 0#64 (l₂.map Prod.fst)) k.endAddr hlaidw
    (fun h0 => by simp [headPtr_mem h0])
  have hnext : (((kernelMapVma E p v).withHost x).vma p).next = headPtr 0#64 (l₂.map Prod.fst) := by
    have := hlaidw.chain.next_eq
    simpa only [St.listLinks, if_neg hp0] using this
  refine ⟨t, b, hrun, ?_, hkeep n (by simp), ⟨?_, ?_, ?_, ?_⟩, ?_, fun hg => ?_⟩
  · rw [vmaAdjustNext, hnext]
    exact hmend
  · simpa [Space.nodes] using ht
  · intro y hy
    rw [St.region_of_data htdata]
    simp only [List.mem_append, List.mem_cons] at hy
    rcases hy with hy | rfl | hy
    · exact hkeep y (by simp [hy])
    · exact hregp
    · exact hkeep y (by simp [hy])
  · exact congrArg (fun x => x.2.1) htdata
  · exact congrArg (fun x => x.2.2.1) htdata
  · exact (congrArg (fun x => x.2.2.2) htdata).trans (congrArg (fun x => x.2.2.2) hdata)
  · have haug' := haug s.own (by rw [gapNat_of_tree (s.tree_setRegion p k)]; exact hg.aug)
      fun q hq => h.own_swallowing hA hstart hq
    rw [← gapNat_kernelMapVma E p v] at haug'
    refine ⟨htaug _ haug' fun q hq hqk => ?_, ?_⟩
    · exact (congrFun (own_kernelMapVma E p v) q).trans
        (hown q (by simpa [Space.nodes] using hq) hqk)
    · rw [hthigh, show ((kernelMapVma E p v).withHost x).vmaHighestAddr = v.vmaHighestAddr from rfl,
        hhigh, show (s.setRegion p k).vmaHighestAddr = s.vmaHighestAddr from rfl, hg.highest,
          hnodes,
        Space.nodes, List.map_append, List.map_cons]
      obtain ⟨-, h2, -⟩ := List.nodup_append.mp hnd
      refine highestEnd_grown h0₂ hp0 (h2.sublist (by simp)) ?_ (fun q hq hqp => ?_) _ fun hne => ?_
      · rw [St.region_of_data htdata]
        change ((kernelMapVma E p v).region p).endAddr = _
        rw [hregp]
        rfl
      · rw [St.region_of_data htdata]
        change (kernelMapVma E p v).region q = _
        rw [region_kernelMapVma, if_neg hqp, St.region_of_data hdata, St.region_setRegion,
          if_neg hqp]
      · rw [show ∀ m : List Ptr, l₁.map Prod.fst ++ p :: n.1 :: m =
          (l₁.map Prod.fst ++ [p, n.1]) ++ m from fun m => by simp, lastPtr_append hne]

/-! ## `vma_adjust` without an insertion -/

theorem Holds.next_eq (h : Holds s A a) (hA : A.areas = l₁ ++ (p, r) :: l₂) :
    (s.vma p).next = headPtr 0#64 (l₂.map Prod.fst) := by
  have hch := h.laid.chain
  rw [show A.nodes = l₁.map Prod.fst ++ p :: l₂.map Prod.fst by simp [Space.nodes, hA]] at hch
  have hp0 : p ≠ 0#64 := h.laid.ne_null p (by simp [Space.nodes, hA])
  simpa only [St.listLinks, if_neg hp0] using hch.next_eq

/-- The next VMA, if there is one, lies behind the new end. -/
theorem Holds.next_clear (h : Holds s A a) (hs : Sorted A.regions)
    (hA : A.areas = l₁ ++ (p, r) :: l₂) (hfree : ∀ x ∈ l₂, end' ≤ x.2.startAddr)
    (h0 : headPtr 0#64 (l₂.map Prod.fst) ≠ 0#64) : end' ≤
      (s.region (headPtr 0#64 (l₂.map Prod.fst))).startAddr ∧
      (s.region (headPtr 0#64 (l₂.map Prod.fst))).startAddr <
        (s.region (headPtr 0#64 (l₂.map Prod.fst))).endAddr := by
  obtain ⟨x, hx, hxp⟩ := List.mem_map.mp (headPtr_mem h0)
  have hxA : x ∈ A.areas := by simp [hA, hx]
  rw [← hxp, h.region x hxA]
  exact ⟨hfree x hx, hs.lt x.2 (List.mem_map_of_mem hxA)⟩

/-- Growth that does not reach the next VMA. -/
theorem vmaAdjust_grow {start pgoff : U64} {next : Ptr} (hp0 : p ≠ 0#64)
    (hnext : (s.vma p).next = next)
    (hclear : next ≠ 0#64 → end' ≤ (s.region next).startAddr ∧
      (s.region next).startAddr < (s.region next).endAddr)
    (hend : (s.region p).endAddr ≤ end') :
    vmaAdjust E p start end' pgoff 0#64 s =
      (vmaAdjustPass E p start end' pgoff 0#64 next false 0#64 false false s).bind
        fun x => some (0, x.2.2) := by
  have hover : ¬ (next ≠ 0#64 ∧ True ∧ (s.region next).endAddr ≤ end') := by
    rintro ⟨h0, -, hle⟩
    have := hclear h0
    bv_omega
  have hadj : (if next ≠ 0#64 ∧ True then
        if (s.region next).startAddr < end' then
          pageDifference end' (s.region next).startAddr
        else if end' < (s.region p).endAddr then
          -pageDifference (s.region p).endAddr end'
        else 0#64
      else 0#64) = 0#64 := by
    split
    · rename_i h0
      have := hclear h0.1
      rw [if_neg (by bv_omega), if_neg (by bv_omega)]
    · rfl
  simp only [vmaAdjust, deref_of_ne _ hp0, Option.bind_eq_bind, Option.bind_some, hnext]
  rw [if_neg hover, hadj]

theorem vmaAdjust_growEnd {n : List Area} (E : Env σ η) (end' : U64) (h : Holds s A a)
    (hs : Sorted A.regions) (hA : A.areas = l₁ ++ (p, r) :: n) (hlt : r.endAddr < end')
    (hfree : ∀ x ∈ n, end' ≤ x.2.startAddr) :
    ∃ t, vmaAdjust E p r.startAddr end' r.pageOffset 0#64 s = some (0, t) ∧
      Carried s A a t (A.regrow E l₁ p { r with endAddr := end' } n) a := by
  obtain ⟨v, hrun, hcar⟩ := growEnd_spec (k := { r with endAddr := end' }) E h hA rfl
  have hpr : s.region p = r := h.region (p, r) (by simp [hA])
  have hp0 : p ≠ 0#64 := h.laid.ne_null p (by simp [Space.nodes, hA])
  have hnext := h.next_eq hA
  refine ⟨kernelMapVma E p v, ?_, hcar⟩
  rw [vmaAdjust_grow hp0 hnext (h.next_clear hs hA hfree) (by rw [hpr]; bv_omega)]
  have hne : end' ≠ r.endAddr := by bv_omega
  simp only [vmaAdjustPass, vmaAdjustLinks, hpr, Bool.false_or, ne_eq, not_true_eq_false,
    decide_false, decide_true, hne, not_false_eq_true, if_true, if_false, Bool.false_eq_true,
    Bool.or_true, Option.bind_eq_bind, Option.bind_some]
  rw [← ite_not]
  have hrun' := hrun
  simp only [ne_eq] at hrun' ⊢
  rw [hrun']
  rfl

theorem vmaAdjust_growStart {n : List Area} (E : Env σ η) (addr pgoff : U64) (h : Holds s A a)
    (hs : Sorted A.regions) (hA : A.areas = l₁ ++ (p, r) :: n) (hlt : addr < r.startAddr) :
    ∃ t, vmaAdjust E p addr r.endAddr pgoff 0#64 s = some (0, t) ∧
      Carried s A a t (A.regrow E l₁ p { r with startAddr := addr, pageOffset := pgoff } n) a := by
  obtain ⟨v, hrun, hcar⟩ := growStart_spec
    (k := { r with startAddr := addr, pageOffset := pgoff }) E h hA rfl
  have hpr : s.region p = r := h.region (p, r) (by simp [hA])
  have hp0 : p ≠ 0#64 := h.laid.ne_null p (by simp [Space.nodes, hA])
  have hnext := h.next_eq hA
  have hs' := hs
  rw [Space.regions_eq hA] at hs'
  refine ⟨kernelMapVma E p v, ?_, hcar⟩
  rw [vmaAdjust_grow hp0 hnext (h.next_clear hs hA fun x hx =>
    (hs'.around.2.2 x.2 (List.mem_map_of_mem hx)).1) (by rw [hpr]; exact BitVec.le_refl _)]
  have hne : addr ≠ r.startAddr := by bv_omega
  simp only [vmaAdjustPass, vmaAdjustLinks, hpr, Bool.false_or, ne_eq, not_true_eq_false,
    decide_false, decide_true, hne, not_false_eq_true, if_true, if_false, Bool.false_eq_true,
    Bool.true_or, Option.bind_eq_bind, Option.bind_some, hrun]

theorem vmaAdjust_swallow {n : Area} (E : Env σ η) (h : Holds s A a) (hs : Sorted A.regions)
    (hA : A.areas = l₁ ++ (p, r) :: n :: l₂) :
    ∃ t b, vmaAdjust E p r.startAddr n.2.endAddr r.pageOffset 0#64 s = some (0, t) ∧
      Carried s A a t
        { areas := l₁ ++ (p, mapRegionFields E A.host { r with endAddr := n.2.endAddr }) :: l₂
          heap := (removeArea E (A.heap, mapHost E A.host { r with endAddr := n.2.endAddr }) n).1
          host := (removeArea E
            (A.heap, mapHost E A.host { r with endAddr := n.2.endAddr }) n).2 } b := by
  obtain ⟨v, t, b, hrun, hnext, hregn, hcar⟩ := swallow_spec
    (k := { r with endAddr := n.2.endAddr }) E h hA rfl rfl
  have hpr : s.region p = r := h.region (p, r) (by simp [hA])
  have hnr : s.region n.1 = n.2 := h.region n (by simp [hA])
  have hp0 : p ≠ 0#64 := h.laid.ne_null p (by simp [Space.nodes, hA])
  have hn0 : n.1 ≠ 0#64 := h.laid.ne_null n.1 (by simp [Space.nodes, hA])
  have hnx : (s.vma p).next = n.1 := h.next_eq hA
  have hs' := hs
  rw [Space.regions_eq hA] at hs'
  have hpn := hs'.around.2.2 n.2 (by simp)
  have hne : n.2.endAddr ≠ r.endAddr := by bv_omega
  refine ⟨t, b, ?_, hcar⟩
  have hle : n.1 ≠ 0#64 ∧ True ∧ n.2.endAddr ≤ n.2.endAddr :=
    ⟨hn0, trivial, BitVec.le_refl _⟩
  have hirr : ¬ n.2.endAddr < n.2.endAddr := by bv_omega
  simp only [vmaAdjust, deref_of_ne _ hp0, Option.bind_eq_bind, Option.bind_some, hnx, hnr]
  rw [if_pos hle]
  simp only [vmaAdjustPass, vmaAdjustLinks, hpr, Bool.false_or, ne_eq, not_true_eq_false,
    decide_false, decide_true, hne, not_false_eq_true, if_true, if_false, Bool.or_true,
    Option.bind_eq_bind, Option.bind_some, hrun, vmaRemove_eq hn0, hregn, Option.map_some, hirr,
    hnext]

/-! ## `vma_merge` -/

/-- A path from the root to the empty link at which a range belongs. -/
structure LinkAt (s : St σ η) (A : Space σ η) (a : PTree Ptr) (addr : U64) (c : Path Ptr)
    (par : Ptr) : Prop where
  plugged : plug c leaf = a
  path : PathShape s.rbLinks 0#64 s.vmaRbRoot c par 0#64
  before : before c = (below addr A.areas).map Prod.fst
  after : after c = (above addr A.areas).map Prod.fst

/-- `vma_find_links` on a store that holds an address space. -/
theorem Holds.vmaFindLinks (h : Holds s A a) (hs : Sorted A.regions) (addr end' : U64) :
    (overlapping addr end' A.areas = true → vmaFindLinks addr end' s = some none) ∧
    (overlapping addr end' A.areas = false →
      ∃ c par, vmaFindLinks addr end' s = some (some (foundAt c par)) ∧
        LinkAt s A a addr c par) := by
  obtain ⟨h1, h2⟩ := h.cut hs addr
  obtain ⟨hin, hout⟩ := vmaFindLinks_spec end' h.laid (h.map_region ▸ hs) h1 h2
  have hiff : overlapping addr end' A.areas = true ↔ ∃ q ∈ A.nodes, Overlaps s addr end' q := by
    rw [overlapping_iff hs]
    constructor
    · rintro ⟨x, hx, hx1, hx2⟩
      exact ⟨x.1, List.mem_map_of_mem hx, by rw [Overlaps, h.region x hx]; exact ⟨hx1, hx2⟩⟩
    · rintro ⟨q, hq, hov⟩
      obtain ⟨x, hx, rfl⟩ := List.mem_map.mp hq
      rw [Overlaps, h.region x hx] at hov
      exact ⟨x, hx, hov⟩
  refine ⟨fun hov => hin (hiff.mp hov), fun hno => ?_⟩
  obtain ⟨c, par, hrun, hplug, hpath, hb, ha⟩ := hout fun q hq hov => by
    rw [hiff.mpr ⟨q, hq, hov⟩] at hno
    cases hno
  exact ⟨c, par, hrun, ⟨hplug, hpath, hb, ha⟩⟩

/-- A neighbour read through its pointer: the test that `vma_merge` makes on it. -/
theorem Holds.neighbour (h : Holds s A a) {l : List Area} {P : VmRegion → Bool}
    (hl : l ⊆ A.areas) :
    (decide (headPtr 0#64 (l.map Prod.fst) ≠ 0#64) && P
      (s.region (headPtr 0#64 (l.map Prod.fst)))) =
        (l.head?.filter fun x => P x.2).isSome ∧
      (decide (lastPtr 0#64 (l.map Prod.fst) ≠ 0#64) &&
          P (s.region (lastPtr 0#64 (l.map Prod.fst)))) =
        (l.getLast?.filter fun x => P x.2).isSome := by
  have hread : ∀ x ∈ l, x.1 ≠ 0#64 ∧ s.region x.1 = x.2 := fun x hx =>
    ⟨h.laid.ne_null x.1 (List.mem_map_of_mem (hl hx)), h.region x (hl hx)⟩
  constructor
  · cases l with
    | nil => simp
    | cons x l =>
        obtain ⟨h0, hx⟩ := hread x (by simp)
        simp only [List.map_cons, headPtr_cons, ne_eq, h0, not_false_eq_true, decide_true, hx,
          Bool.true_and, List.head?_cons]
        cases hP : P x.2 <;> simp [Option.filter, hP]
  · rcases l.eq_nil_or_concat with rfl | ⟨l, x, rfl⟩
    · simp
    · obtain ⟨h0, hx⟩ := hread x (by simp)
      simp only [List.concat_eq_append, List.map_append, List.map_cons, List.map_nil,
        lastPtr_append_singleton, ne_eq, h0, not_false_eq_true, decide_true, hx, Bool.true_and,
        List.getLast?_append, List.getLast?_singleton, Option.some_or]
      cases hP : P x.2 <;> simp [Option.filter, hP]

/-- `vma_merge` next to a free range, with its tests read off the list of areas. -/
theorem vmaMerge_eq {q : Request} {prev next : Ptr} {jp jn : Bool} (h : Holds s A a)
    (hs : Sorted A.regions)
    (hfree : ∀ x ∈ above q.addr A.areas, q.end' ≤ x.2.startAddr)
    (hprev : prev = lastPtr 0#64 ((below q.addr A.areas).map Prod.fst))
    (hnext : next = headPtr 0#64 ((above q.addr A.areas).map Prod.fst))
    (hjp : ((below q.addr A.areas).getLast?.filter fun x => q.joinsPrev x.2).isSome = jp)
    (hjn : ((above q.addr A.areas).head?.filter fun x => q.joinsNext x.2).isSome = jn) :
    vmaMerge E prev q.addr q.end' q.flags q.fileInfo q.offset s =
      if jp then
        (if jn then
          vmaAdjust E prev (s.region prev).startAddr (s.region next).endAddr
            (s.region prev).pageOffset 0#64 s
        else vmaAdjust E prev (s.region prev).startAddr q.end'
          (s.region prev).pageOffset 0#64 s).bind
          fun x => some (if x.1 ≠ 0 then 0#64 else prev, x.2)
      else if jn then
        (vmaAdjust E next q.addr (s.region next).endAddr ((s.region next).pageOffset - q.pglen)
          0#64 s).bind fun x => some (if x.1 ≠ 0 then 0#64 else next, x.2)
      else some (0#64, s) := by
  have hcut := below_append_above q.addr A.areas
  have hsubb : below q.addr A.areas ⊆ A.areas := fun x hx => hcut ▸ List.mem_append_left _ hx
  have hsuba : above q.addr A.areas ⊆ A.areas := fun x hx => hcut ▸ List.mem_append_right _ hx
  have hp := (h.neighbour (P := q.joinsPrev) hsubb).2
  have hn := (h.neighbour (P := q.joinsNext) hsuba).1
  rw [← hprev, hjp] at hp
  rw [← hnext, hjn] at hn
  have harea : (if prev ≠ 0#64 then (s.vma prev).next else s.vmaListStart) = next := by
    rw [hprev, hnext]
    exact h.run_head hcut.symm
  have hclear : next ≠ 0#64 → q.end' ≤ (s.region next).startAddr ∧
      (s.region next).startAddr < (s.region next).endAddr := by
    intro h0
    rw [hnext] at h0 ⊢
    obtain ⟨x, hx, hxp⟩ := List.mem_map.mp (headPtr_mem h0)
    rw [← hxp, h.region x (hsuba hx)]
    exact ⟨hfree x hx, hs.lt x.2 (List.mem_map_of_mem (hsuba hx))⟩
  have hskip : (if next ≠ 0#64 ∧ (s.region next).endAddr = q.end' then (s.vma next).next
      else next) = next := by
    rw [if_neg]
    rintro ⟨h0, heq⟩
    have := hclear h0
    bv_omega
  have hbelow : ¬ (prev ≠ 0#64 ∧ q.addr < (s.region prev).endAddr) := by
    rintro ⟨h0, hlt⟩
    rw [hprev] at h0 hlt
    obtain ⟨x, hx, hxp⟩ := List.mem_map.mp (lastPtr_mem h0)
    rw [← hxp, h.region x (hsubb hx)] at hlt
    have := end_le_of_mem_below hx
    bv_omega
  have hp' : (prev ≠ 0#64 ∧ (s.region prev).endAddr = q.addr ∧
      canVmaMergeAfter (s.region prev) q.flags q.fileInfo q.offset = true) ↔ jp = true := by
    rw [← hp]
    simp only [Request.joinsPrev, Bool.and_eq_true, decide_eq_true_eq]
  rw [Request.joinsNext, Request.pglen, ← Bool.and_assoc] at hn
  simp only [vmaMerge, harea, hskip, if_neg hbelow, hn, hp', Request.pglen]
  rfl

/-- The placements that let a neighbour grow. -/
theorem vmaMerge_spec {q : Request} (h : Holds s A a) (hs : Sorted A.regions)
    (hlt : q.addr < q.end')
    (hfree : ∀ x ∈ A.areas, x.2.endAddr ≤ q.addr ∨ q.end' ≤ x.2.startAddr) {prev : Ptr}
    (hprev : prev = lastPtr 0#64 ((below q.addr A.areas).map Prod.fst)) :
    (q.placement A.areas = .fresh ∧
      vmaMerge E prev q.addr q.end' q.flags q.fileInfo q.offset s = some (0#64, s)) ∨
    ∃ t b, vmaMerge E prev q.addr q.end' q.flags q.fileInfo q.offset s =
        some (A.placedNode E q, t) ∧ A.placedNode E q ≠ 0#64 ∧
      Carried s A a t (A.place E q) b := by
  obtain ⟨hbelow, habove⟩ := free_cut hs hfree
  have hcut := below_append_above q.addr A.areas
  rw [vmaMerge_eq h hs habove hprev rfl rfl rfl]
  unfold Space.place Space.placedNode Request.placement Request.place
  cases hp : (below q.addr A.areas).getLast?.filter fun x => q.joinsPrev x.2 with
  | none =>
      cases hn : (above q.addr A.areas).head?.filter fun x => q.joinsNext x.2 with
      | none => exact Or.inl ⟨rfl, rfl⟩
      | some n =>
          obtain ⟨l₃, ha, hj⟩ := head_filter hn
          have hA : A.areas = below q.addr A.areas ++ (n.1, n.2) :: l₃ := by rw [← ha, hcut]
          have hnr : s.region n.1 = n.2 := h.region n (by rw [hA]; simp)
          obtain ⟨t, hrun, hcar⟩ := vmaAdjust_growStart E q.addr (n.2.pageOffset - q.pglen) h
            hs hA (by rw [← Request.joinsNext_start hj]; exact hlt)
          refine Or.inr ⟨t, a, ?_, ?_, ?_⟩
          · simp only [Option.isSome_none, Option.isSome_some, ha, List.map_cons, headPtr_cons, hnr,
              hrun]
            rfl
          · exact h.laid.ne_null n.1 (by rw [Space.nodes, hA]; simp)
          · simp only [ha, List.tail_cons]
            exact hcar
  | some p =>
      obtain ⟨l₀, hb, hj⟩ := getLast_filter hp
      have hprev' : prev = p.1 := by simp [hprev, hb]
      have hp0 : p.1 ≠ 0#64 := h.laid.ne_null p.1 (by rw [Space.nodes, ← hcut, hb]; simp)
      have hpr : s.region p.1 = p.2 := h.region p (by rw [← hcut, hb]; simp)
      cases hn : (above q.addr A.areas).head?.filter fun x => q.joinsNext x.2 with
      | none =>
          have hA : A.areas = l₀ ++ (p.1, p.2) :: above q.addr A.areas := by
            conv_lhs => rw [← hcut, hb]
            simp
          obtain ⟨t, hrun, hcar⟩ := vmaAdjust_growEnd E q.end' h hs hA
            (by rw [Request.joinsPrev_end hj]; exact hlt) habove
          refine Or.inr ⟨t, a, ?_, hp0, ?_⟩
          · simp only [Option.isSome_none, Option.isSome_some, hprev', hpr, hrun]
            rfl
          · simp only [hb, List.dropLast_concat]
            exact hcar
      | some n =>
          obtain ⟨l₃, ha, hj'⟩ := head_filter hn
          have hA : A.areas = l₀ ++ (p.1, p.2) :: n :: l₃ := by
            conv_lhs => rw [← hcut, hb, ha]
            simp
          have hnr : s.region n.1 = n.2 := h.region n (by rw [hA]; simp)
          obtain ⟨t, b, hrun, hcar⟩ := vmaAdjust_swallow E h hs hA
          refine Or.inr ⟨t, b, ?_, hp0, ?_⟩
          · simp only [Option.isSome_some, hprev', hpr, ha, List.map_cons, headPtr_cons, hnr, hrun]
            rfl
          · simp only [hb, ha, List.dropLast_concat, List.tail_cons]
            exact hcar

/-! ## Linking a new VMA -/

/-- A node that has been set up is linked at the place found for it. -/
theorem linkNew_spec {c : Path Ptr} {par new : Ptr} {heap : σ} {host : η} (E : Env σ η)
    (h : Holds s A a) (hlink : LinkAt s A a addr c par) (hu : NodeSet s u new r heap host)
    (hnew : new ∉ A.nodes) (hnew0 : new ≠ 0#64) :
    ∃ t b, vmaLink E new (foundAt c par).prev (foundAt c par).link (foundAt c par).parent u =
        some t ∧
      Carried s A a t
        { areas := below addr A.areas ++ (new, mapRegionFields E host r) :: above addr A.areas
          heap := heap
          host := mapHost E host r } b := by
  have hcut := below_append_above addr A.areas
  have hnodes : A.nodes = (below addr A.areas).map Prod.fst ++
      (above addr A.areas).map Prod.fst := by
    rw [Space.nodes, ← List.map_append, hcut]
  have hoff : ∀ q ∈ A.nodes, q ≠ new := by rintro q hq rfl; exact hnew hq
  have hlaidu := hu.laid h.laid hnew
  rw [hnodes] at hlaidu
  -- the tree links that the path goes along are those of the old nodes
  have hpath : PathShape u.rbLinks 0#64 u.vmaRbRoot c par 0#64 := by
    have hshape := hlaidu.shape
    rw [← hlink.plugged] at hshape
    obtain ⟨par', x, hpath', hleaf⟩ := shape_plug.mp hshape
    have hx : x = 0#64 := hleaf
    subst hx
    have hpar : par' = par := by
      cases c with
      | nil => exact hpath'.1.trans hlink.path.1.symm
      | cons f c => exact hpath'.1.trans hlink.path.1.symm
    exact hpar ▸ hpath'
  obtain ⟨t, b, hrun, ht, hgaps⟩ := vmaLink_spec (E := E) hlaidu hlink.plugged hpath hlink.before
    hlink.after (hnodes ▸ hnew) hnew0
  refine ⟨t, b, hrun, ⟨?_, fun x hx => ?_, ht.heap.trans hu.heap, ?_⟩, ht.glob.trans hu.glob,
    fun hg => ?_⟩
  · simpa [Space.nodes] using ht.laid
  · simp only [List.mem_append, List.mem_cons] at hx
    have hold : x ∈ below addr A.areas ∨ x ∈ above addr A.areas → t.region x.1 = x.2 := by
      intro hx
      have hxA : x ∈ A.areas := by rw [← hcut]; exact List.mem_append.mpr hx
      have hxn := hoff x.1 (List.mem_map_of_mem hxA)
      rw [ht.region, if_neg hxn, hu.region_off hxn, h.region x hxA]
    rcases hx with hx | rfl | hx
    · exact hold (Or.inl hx)
    · simp [ht.region, hu.region, hu.host]
    · exact hold (Or.inr hx)
  · rw [ht.host, hu.region, hu.host]
  · have := hgaps s.own ⟨hu.aug h.laid hnew hg, fun q hq _ => hu.own h.laid hnew (hnodes ▸ hq),
      fun _ => ?_⟩
    · simpa [Space.nodes] using this
    · rw [hu.highest, hg.highest, hnodes]
      unfold highestEnd
      by_cases h0 : lastPtr 0#64 ((below addr A.areas).map Prod.fst ++
          (above addr A.areas).map Prod.fst) = 0#64
      · simp [h0]
      · rw [if_neg h0, if_neg h0, hu.region_off (hoff _ (by rw [hnodes]; exact lastPtr_mem h0))]

/-- The node that `mmap_region` sets up. -/
theorem nodeSet_fresh (new : Ptr) (q : Request) :
    NodeSet s ((({ s with heap := (E.alloc s.heap).2 } : St σ η).update new
      fun _ => VmArea.zero).setRegion new q.fresh) new q.fresh (E.alloc s.heap).2 s.host := by
  refine ⟨fun p hp => ?_, by simp, rfl, rfl, rfl, rfl, rfl, rfl⟩
  simp [St.setRegion, St.update, hp]

/-! ## `mmap_region` -/

/-- The end of `mmap_region` when no neighbour takes the request. -/
theorem mergeOrLink_fresh {q : Request} {c : Path Ptr} {par : Ptr} (F : E.toNodeHeap.Fresh)
    (h : Holds s A a) (hso : Sound F A) (hav : 1 ≤ F.avail A.heap)
    (hlink : LinkAt s A a q.addr c par)
    (hmerge : vmaMerge E (foundAt c par).prev q.addr q.end' q.flags q.fileInfo q.offset s =
      some (0#64, s)) :
    ∃ t b, mergeOrLink E q.fileInfo q.addr q.length q.flags q.prot q.offset (foundAt c par) s =
        some ((E.alloc A.heap).1, t) ∧ (E.alloc A.heap).1 ≠ 0#64 ∧
      Carried s A a t
        { areas := below q.addr A.areas ++
            ((E.alloc A.heap).1, mapRegionFields E A.host q.fresh) :: above q.addr A.areas
          heap := (E.alloc A.heap).2
          host := mapHost E A.host q.fresh } b := by
  obtain ⟨hnew0, hnlive, -, -⟩ := F.alloc_fresh A.heap hav
  have hnew : (E.alloc A.heap).1 ∉ A.nodes := fun hm => hnlive (hso.owned _ hm)
  have hset := nodeSet_fresh (s := s) (E := E) (E.alloc A.heap).1 q
  rw [h.heap, h.host] at hset
  obtain ⟨t, b, hlinked, hcar⟩ := linkNew_spec E h hlink hset hnew hnew0
  refine ⟨t, b, ?_, hnew0, hcar⟩
  unfold mergeOrLink
  rw [show q.addr + q.length = q.end' from rfl]
  simp only [hmerge, Option.bind_eq_bind, Option.bind_some, if_true,
    vmaZalloc_eq (E := E) (s := s) (by rw [h.heap]) hnew0, deref_of_ne _ hnew0, h.heap, h.host]
  have hreg : ∀ w : St σ η, (w.update (E.alloc A.heap).1 fun _ => VmArea.zero).region
      (E.alloc A.heap).1 = VmArea.zero.toVmRegion := fun w => by simp [St.region, St.update]
  simp only [hreg]
  rw [show ({ VmArea.zero.toVmRegion with
      startAddr := q.addr, endAddr := q.end', pageProt := q.prot, flags := q.flags
      physPageStart := -1#64, pageOffset := q.offset, fileInfo := q.fileInfo } : VmRegion) =
    q.fresh from rfl, hlinked]
  rfl

/-- The end of `mmap_region`: merge or link. -/
theorem mergeOrLink_spec {q : Request} {c : Path Ptr} {par : Ptr} (F : E.toNodeHeap.Fresh)
    (h : Holds s A a) (hso : Sound F A) (hav : 1 ≤ F.avail A.heap)
    (hlink : LinkAt s A a q.addr c par) (hlt : q.addr < q.end')
    (hfree : ∀ x ∈ A.areas, x.2.endAddr ≤ q.addr ∨ q.end' ≤ x.2.startAddr) :
    ∃ t b, mergeOrLink E q.fileInfo q.addr q.length q.flags q.prot q.offset (foundAt c par) s =
        some (A.placedNode E q, t) ∧ A.placedNode E q ≠ 0#64 ∧
      Carried s A a t (A.place E q) b := by
  have hprev : (foundAt c par).prev = lastPtr 0#64 ((below q.addr A.areas).map Prod.fst) := by
    rw [← hlink.before]
    rfl
  rcases vmaMerge_spec (E := E) h hso.sorted hlt hfree hprev with ⟨hpl, hrun⟩ |
    ⟨t, b, hrun, h0, hcar⟩
  · have hnode : A.placedNode E q = (E.alloc A.heap).1 := by simp [Space.placedNode, hpl]
    rw [hnode, Space.place, hpl]
    exact mergeOrLink_fresh F h hso hav hlink hrun
  · refine ⟨t, b, ?_, h0, hcar⟩
    unfold mergeOrLink
    rw [show q.addr + q.length = q.end' from rfl]
    simp only [hrun, Option.bind_eq_bind, Option.bind_some, h0, if_false]

/-- After `munmap` of a range there is a place for it. -/
theorem munmap_vmaFindLinks {length : U64} (F : E.toNodeHeap.Fresh) (h : Holds s A a)
    (hso : Sound F A) (hav : 2 ≤ F.avail A.heap) (hend : end' = addr + pageAlign length)
    (hlt : addr < end') (hacc : munmapRejects s.glob.kernelMinAddress addr length = false) :
    ∃ t b c par, syscallMunmap E addr length s = some (0, t) ∧
      vmaFindLinks addr end' t = some (some (foundAt c par)) ∧
      Carried s A a t (A.unmap E addr end') b ∧ LinkAt t (A.unmap E addr end') b addr c par := by
  obtain ⟨t, b, hrun, hcar⟩ := syscallMunmap_spec F h hso hav hacc hend hlt
  obtain ⟨hso', -⟩ := hso.unmap addr end' hav
  have hfree : overlapping addr end' (A.unmap E addr end').areas = false := by
    rw [Bool.eq_false_iff]
    intro hov
    obtain ⟨x, hx, h1, h2⟩ := (overlapping_iff hso'.sorted).mp hov
    have := free_unmap hso addr end' hav x hx
    bv_omega
  obtain ⟨c, par, hfind, hlink⟩ := (hcar.holds.vmaFindLinks hso'.sorted addr end').2 hfree
  exact ⟨t, b, c, par, hrun, hfind, hcar, hlink⟩

/-- The loop that clears the range ends after at most two rounds. -/
theorem clearRange_spec {length : U64} (F : E.toNodeHeap.Fresh) (h : Holds s A a)
    (hso : Sound F A) (hav : 2 ≤ F.avail A.heap) (hend : end' = addr + length)
    (halign : pageAlign length = length) (hlt : addr < end')
    (hacc : munmapRejects s.glob.kernelMinAddress addr length = false) (fuel : Nat) :
    ∃ t b c par, clearRange E addr length (fuel + 2) s = some (some (foundAt c par), t) ∧
      Carried s A a t (A.unmap E addr end') b ∧ LinkAt t (A.unmap E addr end') b addr c par := by
  obtain ⟨hin, hout⟩ := h.vmaFindLinks hso.sorted addr end'
  unfold clearRange
  rw [← hend]
  by_cases hover : overlapping addr end' A.areas = true
  · obtain ⟨t, b, c, par, hrun, hrun', hcar, hlink⟩ := munmap_vmaFindLinks F h hso hav
      (by rw [halign, hend]) hlt hacc
    refine ⟨t, b, c, par, ?_, hcar, hlink⟩
    simp only [hin hover, Option.bind_eq_bind, Option.bind_some, hrun, ne_eq, not_true_eq_false,
      if_false]
    unfold clearRange
    simp only [← hend, hrun', Option.bind_eq_bind, Option.bind_some]
  · obtain ⟨c, par, hrun, hlink⟩ := hout (by simpa using hover)
    have hA : A.unmap E addr end' = A := by simp [Space.unmap, hover]
    refine ⟨s, a, c, par, ?_, by rw [hA]; exact Carried.refl h, by rw [hA]; exact hlink⟩
    simp only [hrun, Option.bind_eq_bind, Option.bind_some]

/-- The range is one that `munmap` accepts, and it does not wrap around. -/
structure Request.InRange (q : Request) (kernelMinAddress : U64) : Prop where
  align : pageAlign q.length = q.length
  accept : munmapRejects kernelMinAddress q.addr q.length = false
  lt : q.addr < q.end'

/-- The loop and what follows it, as `mmap_region` and `do_brk` have them. -/
theorem clearAndPlace_spec {q : Request} (F : E.toNodeHeap.Fresh) (h : Holds s A a)
    (hso : Sound F A) (hav : 3 ≤ F.avail A.heap) (hq : q.InRange s.glob.kernelMinAddress) :
    ∃ u t b found, clearRange E q.addr q.length walkBound s = some (some found, u) ∧
      mergeOrLink E q.fileInfo q.addr q.length q.flags q.prot q.offset found u =
        some ((A.unmap E q.addr q.end').placedNode E q, t) ∧
      (A.unmap E q.addr q.end').placedNode E q ≠ 0#64 ∧ Carried s A a t (A.map E q) b := by
  obtain ⟨u, b, c, par, hclear, hcar, hlink⟩ := clearRange_spec F h hso
    (by omega) rfl hq.align hq.lt
    hq.accept (walkBound - 2)
  obtain ⟨hso', hav'⟩ := hso.unmap q.addr q.end' (by omega)
  have hav₁ : 1 ≤ F.avail (A.unmap E q.addr q.end').heap := by omega
  obtain ⟨t, b', hrun, h0, hcar'⟩ := mergeOrLink_spec F hcar.holds hso' hav₁ hlink hq.lt
    (free_unmap hso _ _ (by omega))
  exact ⟨u, t, b', foundAt c par, hclear, hrun, h0, hcar.trans hcar'⟩

/-- `mmap_region` on a range inside the bounds. -/
theorem mmapRegion_spec {q : Request} (fileInfo : Option VmFile) (F : E.toNodeHeap.Fresh)
    (h : Holds s A a) (hso : Sound F A) (hav : 3 ≤ F.avail A.heap)
    (hq : q.InRange s.glob.kernelMinAddress) (hfile : fileInfo.getD nullFileInfo = q.fileInfo) :
    ∃ t b, mmapRegion E fileInfo q.addr q.length q.flags q.prot q.offset s =
        some (q.addr, (A.unmap E q.addr q.end').placedNode E q, t) ∧
      (A.unmap E q.addr q.end').placedNode E q ≠ 0#64 ∧ Carried s A a t (A.map E q) b := by
  obtain ⟨u, t, b, found, hclear, hrun, h0, hcar⟩ := clearAndPlace_spec F h hso hav hq
  refine ⟨t, b, ?_, h0, hcar⟩
  simp only [mmapRegion, hfile, hclear, Option.bind_eq_bind, Option.bind_some, hrun]

/-- The request that `do_brk` makes. -/
def brkRequest (addr request flags : U64) : Request where
  fileInfo := nullFileInfo
  addr := addr
  length := pageAlign request
  flags := flags
  prot := vmaRead ||| vmaWrite ||| vmaExec
  offset := addr >>> pageShift

/-- `do_brk` on a range inside the bounds. -/
theorem doBrk_spec {request flags : U64} (F : E.toNodeHeap.Fresh) (h : Holds s A a)
    (hso : Sound F A) (hav : 3 ≤ F.avail A.heap)
    (hq : (brkRequest addr request flags).InRange s.glob.kernelMinAddress)
    (hreq : request ≤ pageAlign request) :
    ∃ t b, doBrk E addr request flags s = some (0#64, t) ∧
      Carried s A a t (A.map E (brkRequest addr request flags)) b := by
  obtain ⟨u, t, b, found, hclear, hrun, -, hcar⟩ := clearAndPlace_spec F h hso hav hq
  refine ⟨t, b, ?_, hcar⟩
  have hlen0 : pageAlign request ≠ 0#64 := by
    have := hq.accept
    intro h0
    simp [munmapRejects, brkRequest, h0] at this
  have halign : pageOffset addr = 0#64 := by
    have := hq.accept
    by_contra h0
    simp [munmapRejects, brkRequest, h0] at this
  unfold doBrk
  rw [if_neg (by bv_omega), if_neg hlen0, if_neg (by simp [halign])]
  simp only [brkRequest] at hclear hrun
  simp only [hclear, Option.bind_eq_bind, Option.bind_some, hrun]

end BufferVM
