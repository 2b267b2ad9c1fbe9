/-
  Kernel/HeapVma.lean --- the pointer `user_heap_vma`.

  `syscall_brk` keeps a pointer to the VMA of the heap next to the store.  The store frees
  and reuses nodes without looking at it, and the first call does not set it when it comes
  with an argument.  The results here follow one node through the operations: which removals
  and which mappings leave it in the store, over the address it is there for.
-/
import BufferVM.Kernel.Joins
import BufferVM.Kernel.UserSpace

set_option autoImplicit false

namespace BufferVM

variable {σ η : Type} {s t : St σ η} {E : Env σ η} {F : E.toNodeHeap.Fresh} {A : Space σ η}
  {p : Ptr} {r : VmRegion} {addr end' length h : U64}

/-! ## One node through the operations -/

/-- The node holds a VMA over the address. -/
def Space.CoveredBy (A : Space σ η) (p : Ptr) (h : U64) : Prop := ∃ r, (p, r) ∈ A.areas ∧ r.Covers h

/-- A split that keeps the lower half leaves an address below the cut with its node. -/
theorem splitAt_keep_low (hs : Sorted A.regions) (hp : (p, r) ∈ A.areas) (hc : r.Covers h)
    (hlt : h < addr) :
    ∃ r', (p, r') ∈ (A.splitAt E addr false).areas ∧ r'.Covers h ∧ r'.endAddr ≤ addr := by
  have hr := hs.lt r (List.mem_map_of_mem hp)
  unfold VmRegion.Covers at hc
  rcases splitAt_cases E addr false hs with ⟨heq, hedge⟩ | ⟨x, l, habove, hA, hlo, hhi, heq⟩
  · refine ⟨r, by rw [heq]; exact hp, hc, ?_⟩
    rw [← below_append_above addr A.areas] at hp
    rcases List.mem_append.mp hp with hb | ha
    · exact end_le_of_mem_below hb
    · have := hedge _ ha
      bv_omega
  · rw [heq]
    rw [hA] at hp
    have hs' := hs
    rw [Space.regions_eq hA] at hs'
    obtain ⟨-, -, hback⟩ := hs'.around
    rcases List.mem_append.mp hp with hb | ha
    · exact ⟨r, List.mem_append_left _ hb, hc, end_le_of_mem_below hb⟩
    · rcases List.mem_cons.mp ha with rfl | hl
      · refine ⟨mapRegionFields E (mapHost E (E.dup A.host r.fileInfo.fd).1
          ((r.high addr).withFd (E.dup A.host r.fileInfo.fd).2)) (r.low addr), ?_, ⟨hc.1, hlt⟩,
          BitVec.le_refl _⟩
        exact List.mem_append_right _ (by simp [splitArea])
      · have := (hback r (List.mem_map_of_mem hl)).1
        bv_omega

/-- A split leaves a VMA that does not reach across the cut as it is. -/
theorem splitAt_keep (hs : Sorted A.regions) (hp : (p, r) ∈ A.areas)
    (hout : r.endAddr ≤ addr ∨ addr ≤ r.startAddr) (nb : Bool) :
    (p, r) ∈ (A.splitAt E addr nb).areas := by
  rcases splitAt_cases E addr nb hs with ⟨heq, -⟩ | ⟨x, l, -, hA, hlo, hhi, heq⟩
  · rw [heq]
    exact hp
  · rw [heq]
    rw [hA] at hp
    rcases List.mem_append.mp hp with hb | ha
    · exact List.mem_append_left _ hb
    · rcases List.mem_cons.mp ha with rfl | hl
      · bv_omega
      · exact List.mem_append_right _ (by simp [hl])

/-- The region is the rest of another one behind a cut. -/
def VmRegion.RestOf (E : Env σ η) (end' : U64) (r r' : VmRegion) : Prop :=
  (r' = r ∧ end' ≤ r.startAddr) ∨
    (r.startAddr < end' ∧ end' < r.endAddr ∧ ∃ host, r' = mapRegionFields E host (r.high end'))

/-- A split that keeps the upper half leaves an address behind the cut with its node. -/
theorem splitAt_keep_high (hs : Sorted A.regions) (hp : (p, r) ∈ A.areas) (hc : r.Covers h)
    (hle : addr ≤ h) :
    ∃ r', (p, r') ∈ (A.splitAt E addr true).areas ∧ r'.Covers h ∧ r.RestOf E addr r' := by
  unfold VmRegion.Covers at hc
  rcases splitAt_cases E addr true hs with ⟨heq, hedge⟩ | ⟨x, l, habove, hA, hlo, hhi, heq⟩
  · refine ⟨r, by rw [heq]; exact hp, hc, Or.inl ⟨rfl, ?_⟩⟩
    rw [← below_append_above addr A.areas] at hp
    rcases List.mem_append.mp hp with hb | ha
    · have := end_le_of_mem_below hb
      bv_omega
    · exact hedge _ ha
  · rw [heq]
    rw [hA] at hp
    have hs' := hs
    rw [Space.regions_eq hA] at hs'
    obtain ⟨-, -, hback⟩ := hs'.around
    rcases List.mem_append.mp hp with hb | ha
    · have := end_le_of_mem_below hb
      bv_omega
    · rcases List.mem_cons.mp ha with rfl | hl
      · refine ⟨mapRegionFields E (mapHost E (E.dup A.host r.fileInfo.fd).1
          ((r.low addr).withFd (E.dup A.host r.fileInfo.fd).2)) (r.high addr), ?_, ⟨hle, hc.2⟩,
          Or.inr ⟨hlo, hhi, _, rfl⟩⟩
        exact List.mem_append_right _ (by simp [splitArea])
      · have := (hback r (List.mem_map_of_mem hl)).1
        exact ⟨r, List.mem_append_right _ (by simp [hl]), hc, Or.inl ⟨rfl, by bv_omega⟩⟩

/-- What lies outside the range stays. -/
theorem mem_removeRange {x : Area} (hs : Sorted A.regions) (hx : x ∈ A.areas)
    (hout : x.2.endAddr ≤ addr ∨ end' ≤ x.2.startAddr) :
    x ∈ (A.removeRange E addr end').areas := by
  rw [removeRange_cut addr end' A.areas] at hx
  rcases List.mem_append.mp hx with hb | ha
  · exact List.mem_append_left _ hb
  · rcases List.mem_append.mp ha with ht | hd
    · have h1 := lt_end_of_mem_above hs ((List.takeWhile_sublist _).subset ht)
      have h2 : x.2.startAddr < end' := by simpa using List.mem_takeWhile_imp ht
      bv_omega
    · exact List.mem_append_right _ hd

/-- What a removal leaves of the VMA over an address outside of its range: the node keeps
the address, unless the range lies inside the VMA and below the address. -/
theorem unmap_keep (hso : Sound F A) (hav : 2 ≤ F.avail A.heap) (hlt : addr < end')
    (hp : (p, r) ∈ A.areas) (hc : r.Covers h) (hout : ¬ (addr ≤ h ∧ h < end'))
    (hcut : ¬ (r.startAddr < addr ∧ end' ≤ h)) :
    ∃ r', (p, r') ∈ (A.unmap E addr end').areas ∧ r'.Covers h ∧
      (r'.endAddr ≤ addr ∨ r.RestOf E end' r') := by
  have hc' := hc
  unfold VmRegion.Covers at hc'
  unfold Space.unmap
  by_cases hover : overlapping addr end' A.areas = true
  · rw [if_pos hover]
    obtain ⟨hso₁, -⟩ := hso.splitAt addr false (by omega)
    obtain ⟨hso₂, -⟩ := hso₁.splitAt end' true (by
      have := (hso.splitAt (E := E) addr false (by omega)).2
      omega)
    by_cases hh : h < addr
    · obtain ⟨r₁, hr₁, hc₁, he₁⟩ := splitAt_keep_low (E := E) hso.sorted hp hc hh
      have hr₂ := splitAt_keep (E := E) hso₁.sorted hr₁
        (Or.inl (by bv_omega : r₁.endAddr ≤ end')) true
      exact ⟨r₁, mem_removeRange hso₂.sorted hr₂ (Or.inl he₁), hc₁, Or.inl he₁⟩
    · have hr₁ := splitAt_keep (E := E) hso.sorted hp
        (Or.inr (by bv_omega : addr ≤ r.startAddr)) false
      obtain ⟨r₂, hr₂, hc₂, hrest⟩ := splitAt_keep_high (E := E) hso₁.sorted hr₁ hc
        (by bv_omega : end' ≤ h)
      refine ⟨r₂, mem_removeRange hso₂.sorted hr₂ (Or.inr ?_), hc₂, Or.inr hrest⟩
      rcases hrest with ⟨rfl, hle⟩ | ⟨-, -, host, rfl⟩
      · exact hle
      · exact BitVec.le_refl _
  · rw [if_neg hover]
    have hno : ¬ (addr < r.endAddr ∧ r.startAddr < end') := fun hin =>
      hover ((overlapping_iff hso.sorted).mpr ⟨(p, r), hp, hin.1, hin.2⟩)
    refine ⟨r, hp, hc, ?_⟩
    by_cases he : r.endAddr ≤ addr
    · exact Or.inl he
    · exact Or.inr (Or.inl ⟨rfl, by bv_omega⟩)

/-- The VMA would be joined from behind. -/
def Request.JoinsRest (q : Request) (r : VmRegion) : Prop :=
  r.startAddr ≤ q.end' ∧ q.end' < r.endAddr ∧
    canVmaMergeBefore (r.high q.end') q.flags q.fileInfo (q.offset + q.pglen) = true

theorem Request.joinsRest_of_restOf {q : Request} {r' : VmRegion} (hlt : r.startAddr < r.endAddr)
    (hrest : r.RestOf E q.end' r') (hj : q.joinsNext r' = true) : q.JoinsRest r := by
  have hstart := Request.joinsNext_start hj
  simp only [Request.joinsNext, Bool.and_eq_true] at hj
  rcases hrest with ⟨rfl, hle⟩ | ⟨hlo, hhi, host, rfl⟩
  · refine ⟨by rw [hstart]; exact BitVec.le_refl _, by rw [hstart]; exact hlt, ?_⟩
    rw [← hj.2]
    refine canVmaMergeBefore_congr rfl ?_
    rw [VmRegion.high, hstart, BitVec.sub_self, show pageAlignDown 0#64 = 0#64 by decide,
      BitVec.add_zero]
  · refine ⟨BitVec.le_of_lt hlo, hhi, ?_⟩
    rw [← hj.2]
    exact canVmaMergeBefore_congr (attrs_mapRegionFields _ _ _).symm rfl

/-- Placing a request keeps a node over its address, unless the node is the second one of a
merge on both sides. -/
theorem place_keep {q : Request} (hs : Sorted A.regions) (hnd : A.nodes.Nodup)
    (hlt : q.addr < q.end') (hp : (p, r) ∈ A.areas) (hc : r.Covers h)
    (hno : ∀ r₁ ∈ A.regions, q.joinsPrev r₁ = true → q.joinsNext r = true → False) :
    (A.place E q).CoveredBy p h := by
  have hstep := placeStep_place E q A
  generalize A.place E q = B at hstep ⊢
  -- the node that is rewritten holds one region only
  have hsame : ∀ {l₁ l₂ : List Area} {k : VmRegion}, A.areas = l₁ ++ (p, k) :: l₂ → k = r := by
    intro l₁ l₂ k hA
    have hk : (p, k) ∈ A.areas := by rw [hA]; simp
    exact congrArg Prod.snd (List.inj_on_of_nodup_map hnd hk hp rfl)
  have hc' := hc
  unfold VmRegion.Covers at hc'
  have hgrow : ∀ {l₁ l₂ : List Area} {p' : Ptr} {r' k : VmRegion}, A.areas = l₁ ++ (p', r') :: l₂ →
      (k.startAddr ≤ r'.startAddr ∧ r'.endAddr ≤ k.endAddr) →
      (A.regrow E l₁ p' k l₂).CoveredBy p h := by
    intro l₁ l₂ p' r' k hA hk
    rw [hA] at hp
    rcases List.mem_append.mp hp with hb | ha
    · exact ⟨r, List.mem_append_left _ hb, hc⟩
    · rcases List.mem_cons.mp ha with heq | hl
      · obtain ⟨rfl, rfl⟩ := Prod.mk.inj heq
        refine ⟨mapRegionFields E A.host k, List.mem_append_right _ (by simp), ?_⟩
        show k.startAddr ≤ h ∧ h < k.endAddr
        bv_omega
      · exact ⟨r, List.mem_append_right _ (by simp [hl]), hc⟩
  cases hstep with
  | fresh hA =>
      refine ⟨r, ?_, hc⟩
      rw [hA] at hp
      simp only [Space.insertNew, List.mem_append, List.mem_cons]
      rcases List.mem_append.mp hp with hb | ha
      · exact Or.inl hb
      · exact Or.inr (Or.inr ha)
  | extendPrev l₁ l₂ p' r' hA hj =>
      refine hgrow hA ⟨BitVec.le_refl _, ?_⟩
      have := Request.joinsPrev_end hj
      simp only
      bv_omega
  | extendNext l₁ l₂ p' r' hA hj =>
      refine hgrow hA ⟨?_, BitVec.le_refl _⟩
      have := Request.joinsNext_start hj
      simp only
      bv_omega
  | bridge l₁ l₂ p' r' n hA hj hj' =>
      have hs' := hs
      rw [Space.regions_eq hA, List.map_cons] at hs'
      obtain ⟨-, -, hback⟩ := hs'.around
      have hn := hback n.2 (by simp)
      rw [hA] at hp
      rcases List.mem_append.mp hp with hb | ha
      · exact ⟨r, List.mem_append_left _ hb, hc⟩
      · rcases List.mem_cons.mp ha with heq | hl
        · obtain ⟨rfl, rfl⟩ := Prod.mk.inj heq
          refine ⟨mapRegionFields E A.host { r with endAddr := n.2.endAddr },
            List.mem_append_right _ (by simp), ?_⟩
          show r.startAddr ≤ h ∧ h < n.2.endAddr
          bv_omega
        · rcases List.mem_cons.mp hl with rfl | hl
          · exact (hno r' (by rw [Space.regions, hA]; simp) hj hj').elim
          · exact ⟨r, List.mem_append_right _ (by simp [hl]), hc⟩

/-- The node that a request ends up in covers the range. -/
theorem placedNode_covers {q : Request} (hs : Sorted A.regions) (hlt : q.addr < q.end') :
    (A.place E q).CoveredBy (A.placedNode E q) q.addr := by
  have hpl := placed q A.areas
  have hcut := below_append_above q.addr A.areas
  unfold Space.place Space.placedNode
  cases hpl' : q.placement A.areas with
  | fresh => exact ⟨_, List.mem_append_right _ List.mem_cons_self, BitVec.le_refl _, hlt⟩
  | extendPrev p =>
      rw [hpl'] at hpl
      obtain ⟨⟩ | ⟨_, hp', hn'⟩ := hpl
      obtain ⟨l₀, hb, hj⟩ := getLast_filter hp'
      have hpm : p ∈ A.areas := by rw [← hcut, hb]; simp
      have hplt := hs.lt p.2 (List.mem_map_of_mem hpm)
      have hend := Request.joinsPrev_end hj
      refine ⟨_, List.mem_append_right _ List.mem_cons_self, ?_⟩
      show p.2.startAddr ≤ q.addr ∧ q.addr < q.end'
      bv_omega
  | extendNext n =>
      rw [hpl'] at hpl
      obtain ⟨⟩ | ⟨⟩ | ⟨_, hp', hn'⟩ := hpl
      obtain ⟨l₃, ha, hj⟩ := head_filter hn'
      have hnm : n ∈ A.areas := by rw [← hcut, ha]; simp
      have hnlt := hs.lt n.2 (List.mem_map_of_mem hnm)
      have hstart := Request.joinsNext_start hj
      refine ⟨_, List.mem_append_right _ List.mem_cons_self, ?_⟩
      show q.addr ≤ q.addr ∧ q.addr < n.2.endAddr
      bv_omega
  | bridge p n =>
      rw [hpl'] at hpl
      obtain ⟨⟩ | ⟨⟩ | ⟨⟩ | ⟨_, _, hp', hn'⟩ := hpl
      obtain ⟨l₀, hb, hj⟩ := getLast_filter hp'
      obtain ⟨l₃, ha, hj'⟩ := head_filter hn'
      have hpm : p ∈ A.areas := by rw [← hcut, hb]; simp
      have hnm : n ∈ A.areas := by rw [← hcut, ha]; simp
      have hplt := hs.lt p.2 (List.mem_map_of_mem hpm)
      have hnlt := hs.lt n.2 (List.mem_map_of_mem hnm)
      have hend := Request.joinsPrev_end hj
      have hstart := Request.joinsNext_start hj'
      refine ⟨_, List.mem_append_right _ List.mem_cons_self, ?_⟩
      show p.2.startAddr ≤ q.addr ∧ q.addr < n.2.endAddr
      bv_omega

/-! ## The heap VMA -/

/-- `user_heap_vma` is in the store and covers `user_heap_start`. -/
structure St.HeapLinked (s : St σ η) : Prop where
  mem : s.glob.userHeapVma ∈ s.nodes
  covers : (s.region s.glob.userHeapVma).Covers s.glob.userHeapStart

theorem St.heapLinked_iff (s : St σ η) :
    s.HeapLinked ↔ s.space.CoveredBy s.glob.userHeapVma s.glob.userHeapStart := by
  constructor
  · intro h
    exact ⟨_, (St.mem_space_areas _ _).mpr ⟨h.mem, rfl⟩, h.covers⟩
  · rintro ⟨r, hr, hc⟩
    obtain ⟨hp, rfl⟩ := (St.mem_space_areas _ _).mp hr
    exact ⟨hp, hc⟩

/-- `syscall_brk` comes to use `user_heap_vma`. -/
def St.BrkReads (s : St σ η) (brk : U64) : Prop :=
  ¬ (brk = 0#64 ∧ s.glob.currBrk = 0#64) ∧ ¬ brk < s.glob.currBrk

/-- A cleared range leaves the heap VMA its first address: it does not contain it, and it
is not a hole in the heap VMA below it. -/
structure St.SparesHeap (s : St σ η) (addr end' : U64) : Prop where
  outside : ¬ (addr ≤ s.glob.userHeapStart ∧ s.glob.userHeapStart < end')
  noHole : ¬ ((s.region s.glob.userHeapVma).startAddr < addr ∧ end' ≤ s.glob.userHeapStart)

/-- A condition on the three system calls.  Mappings are inside the bounds or refused; once
there is a heap, what they and the removals clear leaves its first address alone, and no
mapping joins the heap VMA to one in front of it; the first `brk` has no argument, and no
later one puts the break back to the start of the heap or beyond the bounds. -/
def Call.HeapOk (E : Env σ η) (s : St σ η) : Call → Prop
  | .mmap stray addr length prot flags fd offset =>
      ∀ q host, mmapPrepare E stray addr length prot flags fd offset s = some (some q, host) →
        (InBounds s.glob.kernelMinAddress q.addr q.length → s.glob.currBrk ≠ 0#64 →
          s.SparesHeap q.addr q.end' ∧
            ¬ (q.MeetsFront s.regions ∧ q.JoinsRest (s.region s.glob.userHeapVma))) ∧
        (¬ InBounds s.glob.kernelMinAddress q.addr q.length → q.Blocked s)
  | .munmap addr length =>
      munmapRejects s.glob.kernelMinAddress addr length = false → s.glob.currBrk ≠ 0#64 →
        s.SparesHeap addr (addr + pageAlign length)
  | .brk request =>
      (s.glob.currBrk = 0#64 → request = 0#64 ∧
        InBounds s.glob.kernelMinAddress s.glob.userHeapStart pageSize) ∧
      (s.glob.currBrk ≠ 0#64 → s.BrkMoves request →
        s.glob.userHeapStart < pageAlign request ∧ pageAlign request ≤ s.glob.kernelMinAddress)
  | _ => False

/-- The heap VMA is in place once the break has been set. -/
def St.HeapOk (s : St σ η) : Prop := s.glob.currBrk = 0#64 ∨ s.HeapLinked

theorem Call.HeapOk.ok {c : Call} (hs : s.HeapOk) (h : c.HeapOk E s) :
    c.Ok E (fun _ _ => True) s := by
  cases c with
  | mmap stray addr length prot flags fd offset =>
      rintro ⟨q, host⟩ hprep
      cases q with
      | none => exact fun _ => trivial
      | some q =>
          exact ⟨fun _ => trivial, fun hout => ⟨(h q host hprep).2 hout, trivial⟩⟩
  | munmap addr length => trivial
  | brk request =>
      refine ⟨fun _ h0 => ⟨(h.1 h0).2, trivial⟩, fun hm => ?_⟩
      by_cases h0 : s.glob.currBrk = 0#64
      · exact absurd ⟨(h.1 h0).1, h0⟩ hm.1
      · exact ⟨(hs.resolve_left h0).mem, (h.2 h0 hm).2⟩
  | mmapRegion fileInfo addr length flags prot offset => exact h.elim
  | fault addr errorCode => exact h.elim

section Steps

variable (ho : Orderly F s) (hav : 3 ≤ F.avail s.heap)

include ho hav

/-- A removal that spares the heap. -/
theorem heapLinked_unmap (hb : InBounds s.glob.kernelMinAddress addr length)
    (hs : s.HeapLinked) (hsp : s.SparesHeap addr (addr + length)) (host : η) :
    ∃ r', (s.glob.userHeapVma, r') ∈
        (Space.unmap E addr (addr + length) { s.space with host := host }).areas ∧
      r'.Covers s.glob.userHeapStart ∧
      (r'.endAddr ≤ addr ∨ (s.region s.glob.userHeapVma).RestOf E (addr + length) r') := by
  have hso := ho.linked.sound
  have hmem : (s.glob.userHeapVma, s.region s.glob.userHeapVma) ∈
      ({ s.space with host := host } : Space σ η).areas := (St.mem_space_areas _ _).mpr
      ⟨hs.mem, rfl⟩
  exact unmap_keep (F := F) ⟨hso.sorted, hso.nodup, hso.owned⟩ (by exact Nat.le_of_succ_le hav)
    hb.lt hmem hs.covers hsp.outside hsp.noHole

/-- A mapping inside the bounds that spares the heap and does not join it to another VMA. -/
theorem heapLinked_map {q : Request} {fd : BitVec 32}
    (hb : InBounds s.glob.kernelMinAddress q.addr q.length) (hs : s.HeapLinked)
    (hsp : s.SparesHeap q.addr q.end')
    (hno : ¬ (q.MeetsFront s.regions ∧ q.JoinsRest (s.region s.glob.userHeapVma))) :
    ((s.space.stat E fd).map E q).CoveredBy s.glob.userHeapVma s.glob.userHeapStart := by
  have hso := ho.linked.sound
  have hso' : Sound F (s.space.stat E fd) := hso.stat fd
  obtain ⟨r', hr', hc', hrest⟩ := heapLinked_unmap ho hav hb hs hsp (mmapFile E s.host fd).2
  have hun := (hso'.unmap q.addr q.end' (by exact Nat.le_of_succ_le hav)).1
  have hr'lt := hun.sorted.lt r' (List.mem_map_of_mem hr')
  refine place_keep hun.sorted hun.nodup hb.lt hr' hc' fun r₁ hr₁ hj hj' => hno ⟨?_, ?_⟩
  · have hregions : (s.space.stat E fd).regions = s.regions := St.space_regions s
    rw [← hregions]
    exact meetsFront_of_joinsPrev hso' hav hb hr₁ hj
  · rcases hrest with hle | hrest
    · have h1 := Request.joinsNext_start hj'
      have h2 := hb.lt
      rw [← Request.end'] at h2
      bv_omega
    · refine Request.joinsRest_of_restOf (E := E) ?_ hrest hj'
      exact hso.sorted.lt _ (by
        rw [St.space_regions]
        exact List.mem_map_of_mem hs.mem)

theorem heapOk_mmap {stray length prot flags : U64} {fd : BitVec 32} {offset : U64}
    (hs : s.HeapOk) (hc : (Call.mmap stray addr length prot flags fd offset).HeapOk E s)
    {x : U64 × St σ η}
    (hrun : syscallMmap E stray addr length prot flags fd offset s = some x) : x.2.HeapOk := by
  have hhost : ∀ host : η, St.HeapOk { s with host := host } := by
    intro host
    refine hs.imp id fun hl => ?_
    rw [St.heapLinked_iff, (ho.linked.withHost host).2]
    exact (St.heapLinked_iff s).mp hl
  rw [syscallMmap_eq, Option.bind_eq_some_iff] at hrun
  obtain ⟨⟨q, host⟩, hprep, hrun⟩ := hrun
  cases q with
  | none =>
      obtain rfl := Option.some.inj hrun
      exact hhost host
  | some q =>
      obtain ⟨y, hy, rfl⟩ := Option.map_eq_some_iff.mp hrun
      obtain ⟨-, h0, hal, -, hfile⟩ := mmapPrepare_length hprep
      obtain rfl : host = (mmapFile E s.host fd).2 := congrArg Prod.snd hfile
      obtain ⟨hin, hout⟩ := hc q _ hprep
      by_cases hb : InBounds s.glob.kernelMinAddress q.addr q.length
      · obtain ⟨-, -, -, hsp, hglob, -⟩ := stepped_request (fun _ _ => True) fd ho.linked hav hb
          (fun _ => congrArg Prod.fst hfile) trivial hy
        rw [St.HeapOk, St.heapLinked_iff, hglob, hsp]
        by_cases hcb : s.glob.currBrk = 0#64
        · exact Or.inl hcb
        · obtain ⟨h1, h2⟩ := hin hb hcb
          exact Or.inr (heapLinked_map ho hav hb (hs.resolve_left hcb) h1 h2)
      · have hb' : q.Blocked { s with host := (mmapFile E s.host fd).2 } := by
          rw [Request.Blocked, vmaFindLinks_withHost]
          exact hout hb
        rw [Request.run_blocked hb' (munmapRejects_of_not_inBounds h0 hal hb)] at hy
        obtain rfl := Option.some.inj hy
        exact hhost _

theorem heapOk_munmap (hs : s.HeapOk) (hc : (Call.munmap addr length).HeapOk E s)
    {x : Int × St σ η} (hrun : syscallMunmap E addr length s = some x) : x.2.HeapOk := by
  cases hacc : munmapRejects s.glob.kernelMinAddress addr length with
  | true =>
      rw [syscallMunmap_rejected hacc] at hrun
      obtain rfl := Option.some.inj hrun
      exact hs
  | false =>
      obtain ⟨u, hrun', -, hglob, hsp⟩ := ho.linked.munmap (by omega) ho.glob.align hacc
      obtain rfl := Option.some.inj (hrun'.symm.trans hrun)
      rw [St.HeapOk, St.heapLinked_iff, hglob, hsp]
      by_cases hcb : s.glob.currBrk = 0#64
      · exact Or.inl hcb
      · obtain ⟨r', hr', hc', -⟩ := heapLinked_unmap (E := E) ho hav
          (inBounds_of_accept ho.glob.align hacc) (hs.resolve_left hcb) (hc hacc hcb) s.host
        exact Or.inr ⟨r', hr', hc'⟩

theorem heapOk_brk {brk : U64} (hs : s.HeapOk) (hc : (Call.brk brk).HeapOk E s)
    {x : U64 × St σ η} (hrun : syscallBrk E brk s = some x) : x.2.HeapOk := by
  rcases syscallBrk_cases hrun with ⟨-, h2, y, hy, -, -, rfl⟩ | ⟨rfl, -⟩ | ⟨hm, -, v, hv, rfl⟩
  · obtain ⟨-, hb⟩ := hc.1 h2
    obtain ⟨hl, hsp⟩ := ho.linked.withGlob { s.glob with currBrk := s.glob.userHeapStart }
    obtain ⟨hst, -, -, hspy, hglob, hp⟩ := stepped_request (q := heapRequest s.glob)
      (fun _ _ => True) noFd hl hav hb (fun h => absurd rfl h) trivial (by
        rw [← hy]
        simp only [mmapFile, ne_eq, not_true_eq_false, if_false]
        rfl)
    rw [hsp, Space.stat_noFd] at hspy hp
    refine Or.inr ?_
    rw [St.heapLinked_iff]
    rw [(hst.linked.withGlob { y.2.2.glob with userHeapVma := y.2.1 }).2, hspy, Space.map]
    simp only [hglob, hp]
    exact placedNode_covers (ho.linked.sound.unmap _ _ (by exact Nat.le_of_succ_le hav)).1.sorted
      hb.lt
  · exact hs
  · have hcb : s.glob.currBrk ≠ 0#64 := fun h0 => hm.1 ⟨(hc.1 h0).1, h0⟩
    have hl := hs.resolve_left hcb
    obtain ⟨hlt, -⟩ := hc.2 hcb hm
    obtain ⟨l₁, l₂, hA, -, -, hl', hglob, hsp⟩ := ho.linked.brkMoves (E := E) hm hl.mem hv
    refine Or.inr ?_
    rw [St.heapLinked_iff, (hl'.withGlob _).2, hsp, hglob]
    exact ⟨_, List.mem_append_right _ List.mem_cons_self, hl.covers.1, hlt⟩

/-- One call keeps the heap VMA in place. -/
theorem heapOk_step {c : Call} (hs : s.HeapOk) (hc : c.HeapOk E s) (hrun : c.run E s = some t) :
    t.HeapOk := by
  cases c with
  | mmap stray addr length prot flags fd offset =>
      obtain ⟨x, hx, rfl⟩ := Option.map_eq_some_iff.mp hrun
      exact heapOk_mmap ho hav hs hc hx
  | munmap addr length =>
      obtain ⟨x, hx, rfl⟩ := Option.map_eq_some_iff.mp hrun
      exact heapOk_munmap ho hav hs hc hx
  | brk request =>
      obtain ⟨x, hx, rfl⟩ := Option.map_eq_some_iff.mp hrun
      exact heapOk_brk ho hav hs hc hx
  | mmapRegion fileInfo addr length flags prot offset => exact hc.elim
  | fault addr errorCode => exact hc.elim

end Steps

/-! ## Runs of the three system calls -/

/-- **The heap VMA never dangles** along every run of `syscall_brk`, `syscall_mmap` and
`syscall_munmap` from before the first `brk` in which every call meets the condition:
whenever a `brk` that meets it comes to use `user_heap_vma`, the pointer is not `NULL`, its
node is in the store, and it covers `user_heap_start`. -/
theorem userHeapVma_of_runs (F : E.toNodeHeap.Fresh) (s : St σ η) (hs : Orderly F s)
    (h0 : s.glob.currBrk = 0#64) (cs : List Call) (t : St σ η)
    (h : Run.Steps (fun s c => Call.run E s c)
      (fun s c => 3 ≤ F.avail s.heap ∧ c.HeapOk E s) s cs t)
    (brk : U64) (hc : (Call.brk brk).HeapOk E t) (hr : t.BrkReads brk) :
    t.glob.userHeapVma ≠ 0#64 ∧ t.glob.userHeapVma ∈ t.nodes ∧
      (t.region t.glob.userHeapVma).Covers t.glob.userHeapStart := by
  obtain ⟨ho, hok⟩ := Run.Steps.invariant (fun u => Orderly F u ∧ u.HeapOk) h (by
    rintro u c v ⟨hu, hok⟩ ⟨hav, hc⟩ hrun
    exact ⟨(hu.call hav (hc.ok hok) hrun).1, heapOk_step hu hav hok hc hrun⟩) ⟨hs, Or.inl h0⟩
  have hcb : t.glob.currBrk ≠ 0#64 := fun h0 => hr.1 ⟨(hc.1 h0).1, h0⟩
  have hl := hok.resolve_left hcb
  obtain ⟨a, hh⟩ := ho.linked.holds
  exact ⟨hh.laid.ne_null _ (by rw [St.space_nodes]; exact hl.mem), hl.mem, hl.covers⟩

/-- The first `brk` of the small machine, and then one page more. -/
theorem userHeapVma_of_runs_small :
    ∃ t, (Call.brk 0#64).run quietEnv smallStore = some t ∧
      t.glob.userHeapVma ≠ 0#64 ∧ t.glob.userHeapVma ∈ t.nodes ∧
      (t.region t.glob.userHeapVma).Covers t.glob.userHeapStart := by
  obtain ⟨t, ht⟩ : ∃ t, (Call.brk 0#64).run quietEnv smallStore = some t :=
    Option.isSome_iff_exists.mp (by decide +kernel)
  have hvals : ((Call.brk 0#64).run quietEnv smallStore).map (fun t =>
      (t.glob.currBrk, t.glob.userHeapStart, t.glob.kernelMinAddress)) =
      some (0x4000#64, 0x4000#64, 0x10000#64) := by decide +kernel
  rw [ht, Option.map_some, Option.some_inj] at hvals
  simp only [Prod.mk.injEq] at hvals
  obtain ⟨h1, h2, h3⟩ := hvals
  refine ⟨t, ht, userHeapVma_of_runs (E := quietEnv) bumpFresh smallStore orderly_smallStore rfl
    [Call.brk 0#64] t (.cons ⟨by decide +kernel, ?_⟩ ht (.nil t)) 0x5000#64 ?_ ?_⟩
  · exact ⟨fun _ => ⟨rfl, by decide, by decide, by decide, by decide⟩, fun h => absurd rfl h⟩
  · refine ⟨fun h => ?_, fun _ _ => ?_⟩
    · rw [h1] at h
      exact absurd h (by decide)
    · rw [h2, h3]
      decide
  · rw [St.BrkReads, h1]
    decide

/-- The heap is set up and its page is unmapped; the next `brk` writes the end address of a
node that has been freed. -/
theorem brk_uses_freed_node :
    ∃ t₁ t₂ t₃, (Call.brk 0#64).run quietEnv smallStore = some t₁ ∧
      (Call.munmap 0x4000#64 0x1000#64).run quietEnv t₁ = some t₂ ∧
      (Call.brk 0x6000#64).run quietEnv t₂ = some t₃ ∧
      t₂.BrkReads 0x6000#64 ∧ t₂.glob.userHeapVma ∉ t₂.nodes ∧
      t₃.region t₂.glob.userHeapVma ≠ t₂.region t₂.glob.userHeapVma := by
  have hrun : (((Call.brk 0#64).run quietEnv smallStore).bind fun t₁ =>
      ((Call.munmap 0x4000#64 0x1000#64).run quietEnv t₁).bind fun t₂ =>
        ((Call.brk 0x6000#64).run quietEnv t₂).map fun t₃ =>
          (t₂.glob.currBrk, decide (t₂.glob.userHeapVma ∈ t₂.nodes),
            (t₂.region t₂.glob.userHeapVma).endAddr, (t₃.region t₂.glob.userHeapVma).endAddr)) =
      some (0x4000#64, false, 0x5000#64, 0x6000#64) := by decide +kernel
  obtain ⟨t₁, h₁, hrun⟩ := Option.bind_eq_some_iff.mp hrun
  obtain ⟨t₂, h₂, hrun⟩ := Option.bind_eq_some_iff.mp hrun
  obtain ⟨t₃, h₃, heq⟩ := Option.map_eq_some_iff.mp hrun
  simp only [Prod.mk.injEq, decide_eq_false_iff_not] at heq
  obtain ⟨hcb, hmem, he₂, he₃⟩ := heq
  refine ⟨t₁, t₂, t₃, h₁, h₂, h₃, ?_, hmem, fun hsame => ?_⟩
  · rw [St.BrkReads, hcb]
    decide
  · rw [hsame, he₂] at he₃
    exact absurd he₃ (by decide)

end BufferVM
