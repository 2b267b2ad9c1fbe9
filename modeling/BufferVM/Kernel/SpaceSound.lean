/-
  Kernel/SpaceSound.lean --- what every operation on an address space keeps.

  `Sound` collects it: the areas are in order, no node is used twice, and the
  allocator knows of all of them.  Each list operation keeps it, and the number of
  nodes that an operation takes from the allocator is bounded.
-/
import BufferVM.Kernel.SpaceSorted

set_option autoImplicit false

namespace BufferVM

variable {σ η : Type} {E : Env σ η} {A : Space σ η} {addr end' : U64}

/-- An address space in order, whose nodes are distinct and in use. -/
structure Sound {H : NodeHeap σ} (F : H.Fresh) (A : Space σ η) : Prop where
  sorted : Sorted A.regions
  nodup : A.nodes.Nodup
  owned : Owned F A

theorem Sorted.sublist {l l' : List VmRegion} (h : Sorted l) (hl : l'.Sublist l) : Sorted l' :=
  ⟨h.pairwise.sublist hl, fun r hr => h.lt r (hl.subset hr)⟩

/-! ## Splitting -/

section Split

variable {l₁ l₂ : List Area} {x : Area} {nb : Bool}

theorem nodup_split (F : E.toNodeHeap.Fresh) (hA : A.areas = l₁ ++ x :: l₂) (hnd : A.nodes.Nodup)
    (ho : Owned F A) (hav : 0 < F.avail A.heap) :
    (A.split E l₁ x l₂ addr nb).nodes.Nodup := by
  obtain ⟨-, hnlive, -, -⟩ := F.alloc_fresh A.heap hav
  have hnew : (E.alloc A.heap).1 ∉ A.nodes := fun hm => hnlive (ho _ hm)
  obtain ⟨-, hnodes⟩ := splitArea_nodes E x addr nb A.heap A.host
  have hperm : (A.split E l₁ x l₂ addr nb).nodes.Perm ((E.alloc A.heap).1 :: A.nodes) := by
    simp only [Space.nodes, Space.split, hA, List.map_append, List.map_cons]
    refine List.perm_middle.trans ?_
    rcases hnodes with ⟨h1, h2⟩ | ⟨h1, h2⟩
    · rw [h1, h2, ← List.cons_append]
      refine List.perm_middle.trans (List.Perm.cons _ ?_)
      rw [List.cons_append]
      exact List.perm_middle.symm
    · rw [h1, h2]
  exact hperm.nodup_iff.mpr (List.nodup_cons.mpr ⟨hnew, hnd⟩)

end Split

theorem Sound.splitAt {F : E.toNodeHeap.Fresh} (h : Sound F A) (addr : U64) (nb : Bool)
    (hav : 0 < F.avail A.heap) :
    Sound F (A.splitAt E addr nb) ∧ F.avail A.heap ≤ F.avail (A.splitAt E addr nb).heap + 1 := by
  rcases splitAt_cases E addr nb h.sorted with ⟨heq, -⟩ | ⟨x, l, -, hA, hlo, hhi, heq⟩
  · rw [heq]
    exact ⟨h, by omega⟩
  · obtain ⟨ho, ha⟩ := owned_split F addr nb hA h.owned hav
    rw [heq]
    exact ⟨⟨sorted_split hA h.sorted hlo hhi, nodup_split F hA h.nodup h.owned hav, ho⟩, ha⟩

/-- No area reaches across the address. -/
def EdgeAt (addr : U64) (l : List Area) : Prop :=
  ∀ x ∈ l, x.2.endAddr ≤ addr ∨ addr ≤ x.2.startAddr

theorem EdgeAt.le_start {l : List Area} (h : EdgeAt addr l) (hs : Sorted (l.map Prod.snd))
    {x : Area} (hx : x ∈ above addr l) : addr ≤ x.2.startAddr := by
  have hmem : x ∈ l := (List.dropWhile_sublist _).subset hx
  rcases h x hmem with h1 | h1
  · have := lt_end_of_mem_above hs hx
    bv_omega
  · exact h1

/-- A split leaves an edge where it was made. -/
theorem edgeAt_splitAt (hs : Sorted A.regions) (nb : Bool) :
    EdgeAt addr (A.splitAt E addr nb).areas := by
  rcases splitAt_cases E addr nb hs with ⟨heq, hle⟩ | ⟨x, l, -, hA, hlo, hhi, heq⟩
  · rw [heq]
    intro x hx
    rw [← below_append_above addr A.areas] at hx
    rcases List.mem_append.mp hx with hx | hx
    · exact Or.inl (end_le_of_mem_below hx)
    · exact Or.inr (hle x hx)
  · obtain ⟨-, h2, h3, -⟩ := splitArea_bounds E x addr nb A.heap A.host
    have hs' : Sorted ((below addr A.areas).map Prod.snd ++ x.2 :: l.map Prod.snd) := by
      rw [← List.map_cons, ← List.map_append, ← hA]
      exact hs
    obtain ⟨-, -, habove⟩ := hs'.around
    rw [heq]
    intro y hy
    simp only [Space.split, List.mem_append, List.mem_cons] at hy
    rcases hy with hy | rfl | rfl | hy
    · exact Or.inl (end_le_of_mem_below hy)
    · exact Or.inl (by rw [h2]; exact BitVec.le_refl _)
    · exact Or.inr (by rw [h3]; exact BitVec.le_refl _)
    · have := (habove y.2 (List.mem_map_of_mem hy)).1
      exact Or.inr (by bv_omega)

/-- A split keeps the edges there are. -/
theorem EdgeAt.splitAt {c : U64} (h : EdgeAt c A.areas) (hs : Sorted A.regions) (nb : Bool) :
    EdgeAt c (A.splitAt E addr nb).areas := by
  rcases splitAt_cases E addr nb hs with ⟨heq, -⟩ | ⟨x, l, -, hA, hlo, hhi, heq⟩
  · rw [heq]; exact h
  · obtain ⟨h1, h2, h3, h4⟩ := splitArea_bounds E x addr nb A.heap A.host
    rw [hA] at h
    rw [heq]
    intro y hy
    simp only [Space.split, List.mem_append, List.mem_cons] at hy
    have hx := h x (by simp)
    rcases hy with hy | rfl | rfl | hy
    · exact h y (by simp [hy])
    · rw [h1, h2]
      rcases hx with hx | hx
      · exact Or.inl (by bv_omega)
      · exact Or.inr hx
    · rw [h3, h4]
      rcases hx with hx | hx
      · exact Or.inl hx
      · exact Or.inr (by bv_omega)
    · exact h y (by simp [hy])

/-! ## Overlap -/

/-- The test on the first area that ends above the address decides overlap. -/
theorem overlapping_iff {l : List Area} (hs : Sorted (l.map Prod.snd)) :
    overlapping addr end' l = true ↔ ∃ x ∈ l, addr < x.2.endAddr ∧ x.2.startAddr < end' := by
  have hcut := below_append_above addr l
  unfold overlapping
  cases habove : above addr l with
  | nil =>
      refine ⟨by simp, ?_⟩
      rintro ⟨x, hx, h1, -⟩
      rw [← hcut, habove, List.append_nil] at hx
      have := end_le_of_mem_below hx
      bv_omega
  | cons y m =>
      have hy := lt_end_of_mem_above hs (show y ∈ above addr l by simp [habove])
      have hl : l = below addr l ++ y :: m := by rw [← habove, hcut]
      simp only [decide_eq_true_eq]
      refine ⟨fun h => ⟨y, by rw [hl]; simp, hy, h⟩, ?_⟩
      rintro ⟨x, hx, h1, h2⟩
      rw [hl] at hx hs
      simp only [List.map_append, List.map_cons] at hs
      obtain ⟨-, hlt, habv⟩ := hs.around
      rcases List.mem_append.mp hx with hx | hx
      · have := end_le_of_mem_below hx
        bv_omega
      · rcases List.mem_cons.mp hx with rfl | hx
        · exact h2
        · have := (habv x.2 (List.mem_map_of_mem hx)).1
          bv_omega

/-- A split at one of the bounds keeps an overlap. -/
theorem overlapping_splitAt {c : U64} (hs : Sorted A.regions) (nb : Bool) (hlt : addr < end')
    (hc : c = addr ∨ c = end') (h : overlapping addr end' A.areas = true) :
    ∃ x ∈ (A.splitAt E c nb).areas, addr < x.2.endAddr ∧ x.2.startAddr < end' := by
  obtain ⟨x, hx, hx1, hx2⟩ := (overlapping_iff hs).mp h
  rcases splitAt_cases E c nb hs with ⟨heq, -⟩ | ⟨y, l, -, hA, hlo, hhi, heq⟩
  · rw [heq]
    exact ⟨x, hx, hx1, hx2⟩
  · obtain ⟨h1, h2, h3, h4⟩ := splitArea_bounds E y c nb A.heap A.host
    rw [heq]
    simp only [Space.split]
    rw [hA] at hx
    simp only [List.mem_append, List.mem_cons] at hx
    rcases hx with hx | rfl | hx
    · exact ⟨x, by simp [hx], hx1, hx2⟩
    · rcases hc with rfl | rfl
      · exact ⟨(splitArea E x c nb A.heap A.host).2.1,
          by simp, by rw [h4]; exact hx1, by rw [h3]; exact hlt⟩
      · exact ⟨(splitArea E x c nb A.heap A.host).1,
          by simp, by rw [h2]; exact hlt, by rw [h1]; exact hx2⟩
    · exact ⟨x, by simp [hx], hx1, hx2⟩

/-! ## Removing -/

/-- The areas that `removeRange` takes out, and the ones behind them. -/
theorem removeRange_cut (addr end' : U64) (l : List Area) :
    l = below addr l ++ ((above addr l).takeWhile (fun a => decide (a.2.startAddr < end')) ++
      (above addr l).dropWhile (fun a => decide (a.2.startAddr < end'))) := by
  rw [List.takeWhile_append_dropWhile, below_append_above]

/-- Behind the first area that starts at or above the end all of them do. -/
theorem le_start_of_mem_dropWhile {l : List Area} (hs : Sorted (l.map Prod.snd)) {x : Area}
    (hx : x ∈ l.dropWhile fun a => decide (a.2.startAddr < end')) : end' ≤ x.2.startAddr := by
  induction l with
  | nil => simp at hx
  | cons y l ih =>
      obtain ⟨h1, h2, h3⟩ := sorted_cons.mp hs
      by_cases hy : y.2.startAddr < end'
      · exact ih h3 (by simpa [List.dropWhile_cons, hy] using hx)
      · rw [List.dropWhile_cons_of_neg (by simpa using hy)] at hx
        rcases List.mem_cons.mp hx with rfl | hx
        · bv_omega
        · have := h2 x.2 (List.mem_map_of_mem hx)
          bv_omega

theorem sublist_removeRange (E : Env σ η) (addr end' : U64) (A : Space σ η) :
    (A.removeRange E addr end').areas.Sublist A.areas := by
  conv_rhs => rw [removeRange_cut addr end' A.areas]
  exact (List.Sublist.refl _).append (List.sublist_append_right _ _)

theorem Sound.removeRange {F : E.toNodeHeap.Fresh} (h : Sound F A) (addr end' : U64) :
    Sound F (A.removeRange E addr end') ∧
      F.avail A.heap ≤ F.avail (A.removeRange E addr end').heap := by
  have hsub := sublist_removeRange E addr end' A
  have hcut := removeRange_cut addr end' A.areas
  generalize hm : (above addr A.areas).takeWhile (fun a => decide (a.2.startAddr < end')) = m
    at hcut
  generalize hd : (above addr A.areas).dropWhile (fun a => decide (a.2.startAddr < end')) = d
    at hcut
  have hnd := h.nodup
  simp only [Space.nodes] at hnd
  rw [hcut, List.map_append, List.map_append] at hnd
  have hmem : ∀ q ∈ m.map Prod.fst, q ∈ A.nodes := by
    intro q hq
    rw [Space.nodes, hcut, List.map_append, List.map_append]
    simp [hq]
  obtain ⟨hlive, hav⟩ := removeAreas_live F m (A.heap, A.host)
    (fun q hq => h.owned q (hmem q hq)) (hnd.sublist (by grind))
  refine ⟨⟨h.sorted.sublist (hsub.map Prod.snd), h.nodup.sublist (hsub.map Prod.fst), ?_⟩, ?_⟩
  · intro q hq
    have hqA : q ∈ A.nodes := (hsub.map Prod.fst).subset hq
    simp only [Space.removeRange, hm]
    refine (hlive q).mpr ⟨fun hqm => ?_, h.owned q hqA⟩
    simp only [Space.nodes, Space.removeRange, hd, List.map_append] at hq
    grind
  · simpa only [Space.removeRange, hm] using hav

/-- After the removal nothing between the bounds is left. -/
theorem free_removeRange (hs : Sorted A.regions) {x : Area}
    (hx : x ∈ (A.removeRange E addr end').areas) : x.2.endAddr ≤ addr ∨ end' ≤ x.2.startAddr := by
  rcases List.mem_append.mp hx with hx | hx
  · exact Or.inl (end_le_of_mem_below hx)
  · refine Or.inr (le_start_of_mem_dropWhile ?_ hx)
    exact hs.sublist ((List.dropWhile_sublist _).map Prod.snd)

/-! ## `munmap` -/

theorem Sound.unmap {F : E.toNodeHeap.Fresh} (h : Sound F A) (addr end' : U64)
    (hav : 2 ≤ F.avail A.heap) :
    Sound F (A.unmap E addr end') ∧ F.avail A.heap ≤ F.avail (A.unmap E addr end').heap + 2 := by
  unfold Space.unmap
  split
  · obtain ⟨h1, ha1⟩ := h.splitAt addr false (by omega)
    obtain ⟨h2, ha2⟩ := h1.splitAt end' true (by omega)
    obtain ⟨h3, ha3⟩ := h2.removeRange addr end'
    exact ⟨h3, by omega⟩
  · exact ⟨h, by omega⟩

/-- After `munmap` the range is free. -/
theorem free_unmap {F : E.toNodeHeap.Fresh} (h : Sound F A) (addr end' : U64)
    (hav : 2 ≤ F.avail A.heap) :
    ∀ x ∈ (A.unmap E addr end').areas, x.2.endAddr ≤ addr ∨ end' ≤ x.2.startAddr := by
  unfold Space.unmap
  split
  · obtain ⟨h1, ha1⟩ := h.splitAt addr false (by omega)
    obtain ⟨h2, -⟩ := h1.splitAt end' true (by omega)
    exact fun x hx => free_removeRange h2.sorted hx
  · rename_i hno
    intro x hx
    by_contra hc
    refine hno ((overlapping_iff h.sorted).mpr ⟨x, hx, ?_, ?_⟩) <;> bv_omega

/-! ## Placing -/

/-- The last area in front of the range joins the request, if there is one that does. -/
theorem getLast_filter {P : Area → Bool} {l : List Area} {p : Area}
    (h : l.getLast?.filter P = some p) : ∃ l₀, l = l₀ ++ [p] ∧ P p = true := by
  obtain ⟨h1, h2⟩ := Option.filter_eq_some_iff.mp h
  rw [List.getLast?_eq_some_iff] at h1
  obtain ⟨l₀, h1⟩ := h1
  exact ⟨l₀, h1, h2⟩

theorem head_filter {P : Area → Bool} {l : List Area} {p : Area}
    (h : l.head?.filter P = some p) : ∃ l₀, l = p :: l₀ ∧ P p = true := by
  obtain ⟨h1, h2⟩ := Option.filter_eq_some_iff.mp h
  rw [List.head?_eq_some_iff] at h1
  obtain ⟨l₀, h1⟩ := h1
  exact ⟨l₀, h1, h2⟩

/-- The area in front of the range that a request is joined to. -/
def Request.prevJoin (q : Request) (l : List Area) : Option Area :=
  (below q.addr l).getLast?.filter fun x => q.joinsPrev x.2

/-- The area behind the range that a request is joined to. -/
def Request.nextJoin (q : Request) (l : List Area) : Option Area :=
  (above q.addr l).head?.filter fun x => q.joinsNext x.2

/-- The four ways to place a request, by the areas it is joined to. -/
inductive Placed (q : Request) (l : List Area) : Placement → Prop
  | fresh (hp : q.prevJoin l = none) (hn : q.nextJoin l = none) : Placed q l .fresh
  | extendPrev (p : Area) (hp : q.prevJoin l = some p) (hn : q.nextJoin l = none) :
      Placed q l (.extendPrev p)
  | extendNext (n : Area) (hp : q.prevJoin l = none) (hn : q.nextJoin l = some n) :
      Placed q l (.extendNext n)
  | bridge (p n : Area) (hp : q.prevJoin l = some p) (hn : q.nextJoin l = some n) :
      Placed q l (.bridge p n)

theorem placed (q : Request) (l : List Area) : Placed q l (q.placement l) := by
  unfold Request.placement Request.place
  cases hp : q.prevJoin l with
  | none =>
      cases hn : q.nextJoin l with
      | none => rw [← Request.prevJoin, ← Request.nextJoin, hp, hn]; exact .fresh hp hn
      | some n => rw [← Request.prevJoin, ← Request.nextJoin, hp, hn]; exact .extendNext n hp hn
  | some p =>
      cases hn : q.nextJoin l with
      | none => rw [← Request.prevJoin, ← Request.nextJoin, hp, hn]; exact .extendPrev p hp hn
      | some n => rw [← Request.prevJoin, ← Request.nextJoin, hp, hn]; exact .bridge p n hp hn

/-- What is in front of a free range, and what is behind it. -/
theorem free_cut {l : List Area} (hs : Sorted (l.map Prod.snd))
    (hfree : ∀ x ∈ l, x.2.endAddr ≤ addr ∨ end' ≤ x.2.startAddr) :
    (∀ x ∈ below addr l, x.2.endAddr ≤ addr) ∧ ∀ x ∈ above addr l, end' ≤ x.2.startAddr := by
  refine ⟨fun x hx => end_le_of_mem_below hx, fun x hx => ?_⟩
  rcases hfree x ((List.dropWhile_sublist _).subset hx) with h | h
  · have := lt_end_of_mem_above hs hx
    bv_omega
  · exact h

/-- A region may be put where there is room for it. -/
theorem Sorted.put {l₁ l₂ : List VmRegion} {k : VmRegion} (h : Sorted (l₁ ++ l₂))
    (hlt : k.startAddr < k.endAddr) (h₁ : ∀ x ∈ l₁, x.endAddr ≤ k.startAddr)
    (h₂ : ∀ x ∈ l₂, k.endAddr ≤ x.startAddr) : Sorted (l₁ ++ k :: l₂) := by
  obtain ⟨h3, h4, h5⟩ := h.append
  refine sorted_append.mpr ⟨h3, sorted_cons.mpr ⟨hlt, h₂, h4⟩, fun x hx y hy => ?_⟩
  rcases List.mem_cons.mp hy with rfl | hy
  · exact h₁ x hx
  · exact h5 x hx y hy

theorem Request.joinsPrev_end {q : Request} {r : VmRegion} (h : q.joinsPrev r = true) :
    r.endAddr = q.addr := by
  simp only [Request.joinsPrev, Bool.and_eq_true, decide_eq_true_eq] at h
  exact h.1

theorem Request.joinsNext_start {q : Request} {r : VmRegion} (h : q.joinsNext r = true) :
    q.end' = r.startAddr := by
  simp only [Request.joinsNext, Bool.and_eq_true, decide_eq_true_eq] at h
  exact h.1

@[simp] theorem attrs_mapRegionFields (E : Env σ η) (host : η) (r : VmRegion) :
    (mapRegionFields E host r).attrs = r.attrs := by
  simp [VmRegion.attrs, mapRegionFields]

/-- The area that ends where a range starts is the last one in front of it. -/
theorem getLast_below {l : List Area} (hs : Sorted (l.map Prod.snd)) {y : Area} (hy : y ∈ l)
    (hend : y.2.endAddr = addr) : (below addr l).getLast? = some y := by
  obtain ⟨l₁, l₂, rfl⟩ := List.append_of_mem hy
  simp only [List.map_append, List.map_cons] at hs
  obtain ⟨h1, h2, h3⟩ := hs.around
  have hcut := (cut_eq addr (l₁ ++ [y]) l₂ (fun x hx => ?_)
    fun x hx => ?_).1
  · rw [List.append_assoc, List.singleton_append] at hcut
    simp [hcut]
  · rcases List.mem_append.mp hx with hx | hx
    · have := h1 x.2 (List.mem_map_of_mem hx)
      bv_omega
    · obtain rfl := List.mem_singleton.mp hx
      rw [hend]
      exact BitVec.le_refl _
  · have := h3 x.2 (List.mem_map_of_mem hx)
    bv_omega

/-- The area that starts where a free range ends is the first one behind it. -/
theorem head_above {l : List Area} (hs : Sorted (l.map Prod.snd)) (hlt : addr < end')
    (hfree : ∀ x ∈ l, x.2.endAddr ≤ addr ∨ end' ≤ x.2.startAddr) {y : Area} (hy : y ∈ l)
    (hstart : end' = y.2.startAddr) : (above addr l).head? = some y := by
  obtain ⟨l₁, l₂, rfl⟩ := List.append_of_mem hy
  have hlt' := hs.lt
  simp only [List.map_append, List.map_cons] at hs
  obtain ⟨h1, h2, h3⟩ := hs.around
  have hcut := (cut_eq addr l₁ (y :: l₂) (fun x hx => ?_)
    fun x hx => ?_).2
  · simp [hcut]
  · have := h1 x.2 (List.mem_map_of_mem hx)
    have := hlt' x.2 (List.mem_map_of_mem (List.mem_append_left _ hx))
    have := hfree x (List.mem_append_left _ hx)
    bv_omega
  · rcases List.mem_cons.mp hx with rfl | hx
    · bv_omega
    · have := h3 x.2 (List.mem_map_of_mem hx)
      bv_omega

/-- Which areas join a request: the last one in front of it and the first one behind it,
if they pass the test. -/
theorem joins_iff {q : Request} {l : List Area} (hs : Sorted (l.map Prod.snd))
    (hlt : q.addr < q.end') (hfree : ∀ x ∈ l, x.2.endAddr ≤ q.addr ∨ q.end' ≤ x.2.startAddr)
    (y : Area) :
    (y ∈ l ∧ (q.joinsPrev y.2 = true ∨ q.joinsNext y.2 = true)) ↔
      q.prevJoin l = some y ∨ q.nextJoin l = some y := by
  constructor
  · rintro ⟨hy, hj | hj⟩
    · rw [Request.prevJoin, getLast_below hs hy (Request.joinsPrev_end hj)]
      simp [Option.filter, hj]
    · rw [Request.nextJoin, head_above hs hlt hfree hy (Request.joinsNext_start hj)]
      simp [Option.filter, hj]
  · rintro (h | h)
    · obtain ⟨l₀, hl, hj⟩ := getLast_filter h
      refine ⟨?_, Or.inl hj⟩
      rw [← below_append_above q.addr l, hl]
      simp
    · obtain ⟨l₀, hl, hj⟩ := head_filter h
      refine ⟨?_, Or.inr hj⟩
      rw [← below_append_above q.addr l, hl]
      simp

/-- The areas of an address space with a request placed in it: some areas next to the
range give way to one that covers them and the range. -/
structure PlacedIn (q : Request) (A B : Space σ η) (l₁ m l₂ : List Area) (x : Area) : Prop where
  old : A.areas = l₁ ++ m ++ l₂
  new : B.areas = l₁ ++ x :: l₂
  lt : x.2.startAddr < x.2.endAddr
  front : ∀ y ∈ l₁, y.2.endAddr ≤ x.2.startAddr
  back : ∀ y ∈ l₂, x.2.endAddr ≤ y.2.startAddr
  covers : ∀ a : U64, x.2.Covers a ↔ (∃ y ∈ m, y.2.Covers a) ∨ (q.addr ≤ a ∧ a < q.end')
  joined : ∀ y, y ∈ m ↔ y ∈ A.areas ∧ (q.joinsPrev y.2 = true ∨ q.joinsNext y.2 = true)
  source : x.2.attrs = q.attrs ∧ m = [] ∨ ∃ y ∈ m, x.2.attrs = y.2.attrs

theorem placedIn_place (E : Env σ η) {q : Request} (hs : Sorted A.regions) (hlt : q.addr < q.end')
    (hfree : ∀ x ∈ A.areas, x.2.endAddr ≤ q.addr ∨ q.end' ≤ x.2.startAddr) :
    ∃ l₁ m l₂ x, PlacedIn q A (A.place E q) l₁ m l₂ x := by
  obtain ⟨hbelow, habove⟩ := free_cut hs hfree
  have hcut := below_append_above q.addr A.areas
  have hs' := hs
  rw [Space.regions, ← hcut, List.map_append] at hs'
  have hjoin := joins_iff hs hlt hfree
  have hpl := placed q A.areas
  unfold Space.place
  cases hpl' : q.placement A.areas with
  | fresh =>
      rw [hpl'] at hpl
      obtain ⟨hp', hn'⟩ := hpl
      refine ⟨below q.addr A.areas, [], above q.addr A.areas, _, by simpa using hcut.symm, rfl, hlt,
        hbelow, habove, fun a => ?_, fun y => ?_, Or.inl ⟨attrs_mapRegionFields _ _ _, rfl⟩⟩
      · simp [VmRegion.Covers, mapRegionFields, Request.fresh]
      · rw [hjoin, hp', hn']
        simp
  | extendPrev p =>
      rw [hpl'] at hpl
      obtain ⟨⟩ | ⟨_, hp', hn'⟩ := hpl
      obtain ⟨l₀, hb, hp⟩ := getLast_filter hp'
      have hend := Request.joinsPrev_end hp
      rw [hb, List.map_append, List.append_assoc] at hs'
      obtain ⟨h1, h2, -⟩ := hs'.around
      refine ⟨l₀, [p], above q.addr A.areas, _, by rw [← hb, hcut],
        by simp only [hb, List.dropLast_concat]; rfl, ?_, ?_, habove, fun a => ?_, fun y => ?_,
        Or.inr ⟨p, by simp, attrs_mapRegionFields _ _ _⟩⟩
      · simp only [mapRegionFields, VmRegion.mapped_startAddr, VmRegion.mapped_endAddr]
        bv_omega
      · exact fun y hy => h1 y.2 (List.mem_map_of_mem hy)
      · simp only [VmRegion.Covers, mapRegionFields, VmRegion.mapped_startAddr,
          VmRegion.mapped_endAddr, List.mem_singleton, exists_eq_left]
        bv_omega
      · rw [hjoin, hp', hn']
        simp [eq_comm]
  | extendNext n =>
      rw [hpl'] at hpl
      obtain ⟨⟩ | ⟨⟩ | ⟨_, hp', hn'⟩ := hpl
      obtain ⟨l₃, ha, hn⟩ := head_filter hn'
      have hstart := Request.joinsNext_start hn
      rw [ha, List.map_cons] at hs'
      obtain ⟨-, h2, h3⟩ := hs'.around
      refine ⟨below q.addr A.areas, [n], l₃, _,
        by rw [List.append_assoc, List.singleton_append, ← ha, hcut],
        by simp only [ha, List.tail_cons]; rfl, ?_, ?_, ?_, fun a => ?_, fun y => ?_,
        Or.inr ⟨n, by simp, attrs_mapRegionFields _ _ _⟩⟩
      · simp only [mapRegionFields, VmRegion.mapped_startAddr, VmRegion.mapped_endAddr]
        bv_omega
      · exact hbelow
      · exact fun y hy => (h3 y.2 (List.mem_map_of_mem hy)).1
      · simp only [VmRegion.Covers, mapRegionFields, VmRegion.mapped_startAddr,
          VmRegion.mapped_endAddr, List.mem_singleton, exists_eq_left]
        bv_omega
      · rw [hjoin, hp', hn']
        simp [eq_comm]
  | bridge p n =>
      rw [hpl'] at hpl
      obtain ⟨⟩ | ⟨⟩ | ⟨⟩ | ⟨_, _, hp', hn'⟩ := hpl
      obtain ⟨l₀, hb, hp⟩ := getLast_filter hp'
      obtain ⟨l₃, ha, hn⟩ := head_filter hn'
      have hend := Request.joinsPrev_end hp
      have hstart := Request.joinsNext_start hn
      have hpb : ∀ y ∈ l₀, y.2.endAddr ≤ p.2.startAddr := by
        rw [hb, List.map_append, List.append_assoc] at hs'
        exact fun y hy => hs'.around.1 y.2 (List.mem_map_of_mem hy)
      have hplt : p.2.startAddr < p.2.endAddr := hs.lt p.2 (by rw [Space.regions, ← hcut, hb]; simp)
      rw [ha, List.map_cons] at hs'
      obtain ⟨-, h2, h3⟩ := hs'.around
      refine ⟨l₀, [p, n], l₃, (p.1, mapRegionFields E A.host
        { p.2 with endAddr := n.2.endAddr }), ?_,
        by simp only [hb, ha, List.dropLast_concat, List.tail_cons], ?_, hpb, ?_, fun a => ?_,
        fun y => ?_, Or.inr ⟨p, by simp, attrs_mapRegionFields _ _ _⟩⟩
      · rw [← hcut, hb, ha]
        simp
      · simp only [mapRegionFields, VmRegion.mapped_startAddr, VmRegion.mapped_endAddr]
        bv_omega
      · exact fun y hy => (h3 y.2 (List.mem_map_of_mem hy)).1
      · simp only [VmRegion.Covers, mapRegionFields, VmRegion.mapped_startAddr,
          VmRegion.mapped_endAddr, List.mem_cons, List.not_mem_nil, or_false,
          exists_eq_or_imp, exists_eq_left]
        bv_omega
      · rw [hjoin, hp', hn']
        simp [eq_comm]

theorem PlacedIn.sorted {q : Request} {B : Space σ η} {l₁ m l₂ : List Area} {x : Area}
    (h : PlacedIn q A B l₁ m l₂ x) (hs : Sorted A.regions) : Sorted B.regions := by
  rw [Space.regions, h.old, List.map_append, List.map_append] at hs
  rw [Space.regions, h.new, List.map_append, List.map_cons]
  refine Sorted.put (hs.sublist (by simp)) h.lt ?_ ?_
  · intro r hr
    obtain ⟨y, hy, rfl⟩ := List.mem_map.mp hr
    exact h.front y hy
  · intro r hr
    obtain ⟨y, hy, rfl⟩ := List.mem_map.mp hr
    exact h.back y hy

/-- The nodes after a request has been placed. -/
theorem nodes_place {F : E.toNodeHeap.Fresh} {q : Request} (h : Sound F A)
    (hav : 1 ≤ F.avail A.heap) :
    (A.place E q).nodes.Nodup ∧ Owned F (A.place E q) ∧
      F.avail A.heap ≤ F.avail (A.place E q).heap + 1 := by
  have hcut := below_append_above q.addr A.areas
  have hnd := h.nodup
  have ho := h.owned
  unfold Owned at ho
  rw [Space.nodes, ← hcut] at hnd
  simp only [Space.nodes] at ho
  rw [← hcut] at ho
  have hpl := placed q A.areas
  unfold Space.place Owned
  cases hpl' : q.placement A.areas with
  | fresh =>
      obtain ⟨-, hnlive, hlive, hav'⟩ := F.alloc_fresh A.heap hav
      refine ⟨?_, fun p hp => ?_, hav'⟩
      · simp only [Space.nodes, List.map_append, List.map_cons, List.nodup_middle,
          List.nodup_cons]
        rw [List.map_append] at hnd ho
        exact ⟨fun hm => hnlive (ho _ hm), hnd⟩
      · refine (hlive p).mpr ?_
        simp only [Space.nodes, List.map_append, List.map_cons, List.mem_append,
          List.mem_cons] at hp
        rcases hp with hp | hp | hp
        · exact Or.inr (ho p (by simp [hp]))
        · exact Or.inl hp
        · exact Or.inr (ho p (by simp [hp]))
  | extendPrev p =>
      rw [hpl'] at hpl
      obtain ⟨⟩ | ⟨_, hp', hn'⟩ := hpl
      obtain ⟨l₀, hb, hp⟩ := getLast_filter hp'
      rw [hb] at hnd ho
      simp only [Space.nodes, hb, List.dropLast_concat, List.map_append, List.map_cons,
        List.append_assoc, List.singleton_append] at hnd ho ⊢
      exact ⟨hnd, ho, by omega⟩
  | extendNext n =>
      rw [hpl'] at hpl
      obtain ⟨⟩ | ⟨⟩ | ⟨_, hp', hn'⟩ := hpl
      obtain ⟨l₃, ha, hn⟩ := head_filter hn'
      rw [ha] at hnd ho
      simp only [Space.nodes, ha, List.tail_cons, List.map_append, List.map_cons] at hnd ho ⊢
      exact ⟨hnd, ho, by omega⟩
  | bridge p n =>
      rw [hpl'] at hpl
      obtain ⟨⟩ | ⟨⟩ | ⟨⟩ | ⟨_, _, hp', hn'⟩ := hpl
      obtain ⟨l₀, hb, hp⟩ := getLast_filter hp'
      obtain ⟨l₃, ha, hn⟩ := head_filter hn'
      rw [hb, ha] at hnd ho
      simp only [Space.nodes, hb, ha, List.dropLast_concat, List.tail_cons, List.map_append,
        List.map_cons, List.append_assoc, List.singleton_append, removeArea] at hnd ho ⊢
      obtain ⟨hlive, hav'⟩ := F.free_live A.heap n.1 (ho n.1 (by simp))
      refine ⟨hnd.sublist (by simp), fun q hq => (hlive q).mpr ⟨?_, ho q ?_⟩, by omega⟩
      · rintro rfl
        grind
      · simp only [List.mem_append, List.mem_cons] at hq ⊢
        tauto

/-- `mmap_region` on the list of areas. -/
theorem Sound.place {F : E.toNodeHeap.Fresh} {q : Request} (h : Sound F A) (hlt : q.addr < q.end')
    (hfree : ∀ x ∈ A.areas, x.2.endAddr ≤ q.addr ∨ q.end' ≤ x.2.startAddr)
    (hav : 1 ≤ F.avail A.heap) :
    Sound F (A.place E q) ∧ F.avail A.heap ≤ F.avail (A.place E q).heap + 1 := by
  obtain ⟨_, _, _, _, hpl⟩ := placedIn_place E h.sorted hlt hfree
  obtain ⟨h1, h2, h3⟩ := nodes_place (q := q) h hav
  exact ⟨⟨hpl.sorted h.sorted, h1, h2⟩, h3⟩

theorem Sound.map {F : E.toNodeHeap.Fresh} {q : Request} (h : Sound F A) (hlt : q.addr < q.end')
    (hav : 3 ≤ F.avail A.heap) :
    Sound F (A.map E q) ∧ F.avail A.heap ≤ F.avail (A.map E q).heap + 3 := by
  obtain ⟨h1, ha1⟩ := h.unmap q.addr q.end' (by omega)
  obtain ⟨h2, ha2⟩ := h1.place hlt (free_unmap h _ _ (by omega)) (by omega)
  exact ⟨h2, by rw [Space.map]; omega⟩

end BufferVM
