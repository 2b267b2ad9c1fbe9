/-
  Kernel/SpaceSorted.lean --- the order of the areas, and which nodes are in use.

  Every operation on an address space keeps its areas in ascending order, and never
  hands out or frees a node behind the back of the allocator.  The first part says
  where an address cuts a sorted list; the operations then are a split there, the
  removal of a run, or a change of one area that stays between its neighbours.
-/
import BufferVM.Kernel.Areas
import Mathlib.Data.List.TakeWhile

set_option autoImplicit false

namespace BufferVM

variable {σ η : Type}

/-! ## Sorted regions -/

/-- Regions in ascending order, none of them empty. -/
structure Sorted (l : List VmRegion) : Prop where
  pairwise : l.Pairwise fun r r' => r.endAddr ≤ r'.startAddr
  lt : ∀ r ∈ l, r.startAddr < r.endAddr

theorem sorted_nil : Sorted [] := ⟨by simp, by simp⟩

theorem sorted_cons {r : VmRegion} {l : List VmRegion} :
    Sorted (r :: l) ↔ r.startAddr < r.endAddr ∧ (∀ x ∈ l, r.endAddr ≤ x.startAddr) ∧ Sorted l := by
  constructor
  · intro h
    obtain ⟨h1, h2⟩ := List.pairwise_cons.mp h.pairwise
    exact ⟨h.lt r (by simp), h1, h2, fun x hx => h.lt x (by simp [hx])⟩
  · rintro ⟨h1, h2, h3⟩
    refine ⟨List.pairwise_cons.mpr ⟨h2, h3.pairwise⟩, fun x hx => ?_⟩
    rcases List.mem_cons.mp hx with rfl | hx
    · exact h1
    · exact h3.lt x hx

theorem sorted_append {l₁ l₂ : List VmRegion} :
    Sorted (l₁ ++ l₂) ↔ Sorted l₁ ∧ Sorted l₂ ∧ ∀ r ∈ l₁, ∀ r' ∈ l₂, r.endAddr ≤ r'.startAddr := by
  constructor
  · intro h
    obtain ⟨h1, h2, h3⟩ := List.pairwise_append.mp h.pairwise
    exact ⟨⟨h1, fun r hr => h.lt r (by simp [hr])⟩, ⟨h2, fun r hr => h.lt r (by simp [hr])⟩, h3⟩
  · rintro ⟨h1, h2, h3⟩
    refine ⟨List.pairwise_append.mpr ⟨h1.pairwise, h2.pairwise, h3⟩, fun r hr => ?_⟩
    rcases List.mem_append.mp hr with hr | hr
    · exact h1.lt r hr
    · exact h2.lt r hr

theorem Sorted.append {l₁ l₂ : List VmRegion} (h : Sorted (l₁ ++ l₂)) :
    Sorted l₁ ∧ Sorted l₂ ∧ ∀ r ∈ l₁, ∀ r' ∈ l₂, r.endAddr ≤ r'.startAddr := sorted_append.mp h

/-- What is around a region of a sorted list. -/
theorem Sorted.around {l₁ l₂ : List VmRegion} {r : VmRegion} (h : Sorted (l₁ ++ r :: l₂)) :
    (∀ x ∈ l₁, x.endAddr ≤ r.startAddr) ∧ r.startAddr < r.endAddr ∧
      ∀ x ∈ l₂, r.endAddr ≤ x.startAddr ∧ x.startAddr < x.endAddr := by
  obtain ⟨-, h2, h3⟩ := h.append
  obtain ⟨h4, h5, h6⟩ := sorted_cons.mp h2
  exact ⟨fun x hx => h3 x hx r (by simp), h4, fun x hx => ⟨h5 x hx, h6.lt x hx⟩⟩

/-- A region may be replaced by regions that lie inside its bounds. -/
theorem Sorted.replace {l₁ l₂ : List VmRegion} {r : VmRegion} (h : Sorted (l₁ ++ r :: l₂))
    (ks : List VmRegion) (hks : Sorted ks) (hstart : ∀ k ∈ ks, r.startAddr ≤ k.startAddr)
    (hend : ∀ k ∈ ks, k.endAddr ≤ r.endAddr) : Sorted (l₁ ++ (ks ++ l₂)) := by
  obtain ⟨h1, h2, h3⟩ := h.append
  obtain ⟨-, h5, h6⟩ := sorted_cons.mp h2
  refine sorted_append.mpr ⟨h1, sorted_append.mpr ⟨hks, h6, fun k hk x hx => ?_⟩, ?_⟩
  · have := h5 x hx
    have := hend k hk
    bv_omega
  · intro x hx y hy
    rcases List.mem_append.mp hy with hy | hy
    · have := h3 x hx r (by simp)
      have := hstart y hy
      bv_omega
    · exact h3 x hx y (by simp [hy])

/-- A region may shrink in its place. -/
theorem Sorted.shrink {l₁ l₂ : List VmRegion} {r k : VmRegion} (h : Sorted (l₁ ++ r :: l₂))
    (hstart : r.startAddr ≤ k.startAddr) (hend : k.endAddr ≤ r.endAddr)
    (hlt : k.startAddr < k.endAddr) : Sorted (l₁ ++ k :: l₂) :=
  h.replace [k] (sorted_cons.mpr ⟨hlt, by simp, sorted_nil⟩) (by simpa using hstart)
    (by simpa using hend)

/-- A region may move its start down to where those in front of it end. -/
theorem Sorted.moveStart {l₁ l₂ : List VmRegion} {r k : VmRegion} (h : Sorted (l₁ ++ r :: l₂))
    (hend : k.endAddr = r.endAddr) (hlt : k.startAddr < k.endAddr)
    (hfront : ∀ x ∈ l₁, x.endAddr ≤ k.startAddr) : Sorted (l₁ ++ k :: l₂) := by
  obtain ⟨h1, h2, h3⟩ := h.append
  obtain ⟨-, hback, h4⟩ := sorted_cons.mp h2
  refine sorted_append.mpr ⟨h1, sorted_cons.mpr ⟨hlt, hend ▸ hback, h4⟩, fun x hx y hy => ?_⟩
  rcases List.mem_cons.mp hy with rfl | hy
  · exact hfront x hx
  · exact h3 x hx y (List.mem_cons_of_mem _ hy)

/-- What ends at the start of a region, or below it, is in front of it. -/
theorem Sorted.mem_front {l₁ l₂ : List VmRegion} {r x : VmRegion} (h : Sorted (l₁ ++ r :: l₂))
    (hx : x ∈ l₁ ++ r :: l₂) (hle : x.endAddr ≤ r.startAddr) : x ∈ l₁ := by
  obtain ⟨-, hlt, hback⟩ := h.around
  rcases List.mem_append.mp hx with hx | hx
  · exact hx
  · rcases List.mem_cons.mp hx with rfl | hx
    · exact absurd hlt (BitVec.not_lt.mpr hle)
    · obtain ⟨h1, h2⟩ := hback x hx
      bv_omega

/-! ## Cutting at an address -/

theorem below_append_above (addr : U64) (l : List Area) : below addr l ++ above addr l = l :=
  List.takeWhile_append_dropWhile

theorem end_le_of_mem_below {addr : U64} {l : List Area} {x : Area} (h : x ∈ below addr l) :
    x.2.endAddr ≤ addr := by
  simpa using List.mem_takeWhile_imp h

/-- In a sorted list everything from the first area that ends above the address on
ends above it. -/
theorem lt_end_of_mem_above {addr : U64} {l : List Area} {x : Area}
    (hs : Sorted (l.map Prod.snd)) (h : x ∈ above addr l) : addr < x.2.endAddr := by
  induction l with
  | nil => simp [above] at h
  | cons y l ih =>
      obtain ⟨h1, h2⟩ := List.pairwise_cons.mp hs.pairwise
      have hs' : Sorted (l.map Prod.snd) := ⟨h2, fun r hr => hs.lt r (by simp [hr])⟩
      by_cases hy : y.2.endAddr ≤ addr
      · exact ih hs' (by simpa [above, List.dropWhile_cons, hy] using h)
      · rw [above, List.dropWhile_cons_of_neg (by simpa using hy)] at h
        rcases List.mem_cons.mp h with rfl | hx
        · bv_omega
        · have h3 := h1 x.2 (List.mem_map_of_mem hx)
          have h4 := hs'.lt x.2 (List.mem_map_of_mem hx)
          have h5 := hs.lt y.2 (by simp)
          bv_omega

/-- The cut is the only one with this property. -/
theorem cut_eq (addr : U64) (l₁ l₂ : List Area) (h₁ : ∀ x ∈ l₁, x.2.endAddr ≤ addr)
    (h₂ : ∀ x ∈ l₂, addr < x.2.endAddr) :
    below addr (l₁ ++ l₂) = l₁ ∧ above addr (l₁ ++ l₂) = l₂ := by
  have hd : ∀ x ∈ l₁, decide (x.2.endAddr ≤ addr) = true := by simpa using h₁
  have hb : below addr l₂ = [] ∧ above addr l₂ = l₂ := by
    cases l₂ with
    | nil => simp [below, above]
    | cons y l =>
        have hy : ¬ y.2.endAddr ≤ addr := by
          have := h₂ y (by simp)
          bv_omega
        simp [below, above, hy]
  unfold below above at hb ⊢
  rw [List.takeWhile_append_of_pos hd, List.dropWhile_append_of_pos hd, hb.1, hb.2]
  simp

/-! ## The nodes in use -/

/-- The nodes of an address space. -/
def Space.nodes (A : Space σ η) : List Ptr := A.areas.map Prod.fst

/-- The regions of an address space. -/
def Space.regions (A : Space σ η) : List VmRegion := A.areas.map Prod.snd

theorem Space.regions_eq {A : Space σ η} {l₁ l₂ : List Area} {x : Area}
    (hA : A.areas = l₁ ++ x :: l₂) :
    A.regions = l₁.map Prod.snd ++ x.2 :: l₂.map Prod.snd := by
  rw [Space.regions, hA, List.map_append, List.map_cons]

/-- The allocator takes the nodes of the address space to be in use. -/
def Owned {H : NodeHeap σ} (F : H.Fresh) (A : Space σ η) : Prop :=
  ∀ p ∈ A.nodes, F.live A.heap p

/-! ## Splitting -/

/-- The address space after an area has been split in its inside. -/
def Space.split (E : Env σ η) (l₁ : List Area) (x : Area) (l₂ : List Area) (addr : U64)
    (nb : Bool) (A : Space σ η) : Space σ η :=
  let y := splitArea E x addr nb A.heap A.host
  { areas := l₁ ++ y.1 :: y.2.1 :: l₂, heap := y.2.2.1, host := y.2.2.2 }

/-- The halves of a split area lie inside its bounds. -/
theorem splitArea_bounds (E : Env σ η) (x : Area) (addr : U64) (nb : Bool) (heap : σ) (host : η) :
    let y := splitArea E x addr nb heap host
    y.1.2.startAddr = x.2.startAddr ∧ y.1.2.endAddr = addr ∧ y.2.1.2.startAddr = addr ∧
      y.2.1.2.endAddr = x.2.endAddr := by
  cases nb <;> exact ⟨rfl, rfl, rfl, rfl⟩

/-- The new node of a split, and the old one. -/
theorem splitArea_nodes (E : Env σ η) (x : Area) (addr : U64) (nb : Bool) (heap : σ) (host : η) :
    let y := splitArea E x addr nb heap host
    y.2.2.1 = (E.alloc heap).2 ∧
      ((y.1.1 = x.1 ∧ y.2.1.1 = (E.alloc heap).1) ∨
        (y.1.1 = (E.alloc heap).1 ∧ y.2.1.1 = x.1)) := by
  cases nb
  · exact ⟨rfl, Or.inl ⟨rfl, rfl⟩⟩
  · exact ⟨rfl, Or.inr ⟨rfl, rfl⟩⟩

section Split

variable {E : Env σ η} {A : Space σ η} {l₁ l₂ : List Area} {x : Area} {addr : U64} {nb : Bool}

theorem sorted_split (hA : A.areas = l₁ ++ x :: l₂) (hs : Sorted A.regions)
    (hlo : x.2.startAddr < addr) (hhi : addr < x.2.endAddr) :
    Sorted (A.split E l₁ x l₂ addr nb).regions := by
  obtain ⟨h1, h2, h3, h4⟩ := splitArea_bounds E x addr nb A.heap A.host
  rw [Space.regions_eq hA] at hs
  simp only [Space.regions, Space.split, List.map_append, List.map_cons]
  refine hs.replace [_, _] (sorted_cons.mpr ⟨?_, ?_, sorted_cons.mpr ⟨?_, ?_, sorted_nil⟩⟩)
    ?_ ?_
  · rw [h1, h2]; exact hlo
  · simp [h2, h3]
  · rw [h3, h4]; exact hhi
  · simp
  · simp only [List.mem_cons, List.not_mem_nil, or_false, forall_eq_or_imp, forall_eq, h1, h3]
    bv_omega
  · simp only [List.mem_cons, List.not_mem_nil, or_false, forall_eq_or_imp, forall_eq, h2, h4]
    bv_omega

theorem owned_split (F : E.toNodeHeap.Fresh) (addr : U64) (nb : Bool) (hA : A.areas = l₁ ++ x :: l₂)
    (ho : Owned F A)
    (hav : 0 < F.avail A.heap) :
    Owned F (A.split E l₁ x l₂ addr nb) ∧
      F.avail A.heap ≤ F.avail (A.split E l₁ x l₂ addr nb).heap + 1 := by
  obtain ⟨-, -, hlive, havail⟩ := F.alloc_fresh A.heap hav
  obtain ⟨hheap, hnodes⟩ := splitArea_nodes E x addr nb A.heap A.host
  refine ⟨fun p hp => ?_, by rw [Space.split, hheap]; exact havail⟩
  rw [Space.split, hheap, hlive]
  simp only [Space.nodes, Space.split, List.map_append, List.map_cons, List.mem_append,
    List.mem_cons] at hp
  have hold : p = x.1 ∨ p ∈ l₁.map Prod.fst ∨ p ∈ l₂.map Prod.fst → F.live A.heap p := by
    intro h
    refine ho p ?_
    simp only [Space.nodes, hA, List.map_append, List.map_cons, List.mem_append, List.mem_cons]
    tauto
  rcases hnodes with ⟨h1, h2⟩ | ⟨h1, h2⟩ <;> rw [h1, h2] at hp <;> tauto

end Split

/-- What `splitAt` does: nothing where the address is not inside an area. -/
theorem splitAt_cases (E : Env σ η) (addr : U64) (nb : Bool) {A : Space σ η}
    (hs : Sorted A.regions) :
    (A.splitAt E addr nb = A ∧ ∀ x ∈ above addr A.areas, addr ≤ x.2.startAddr) ∨
      ∃ x l, above addr A.areas = x :: l ∧ A.areas = below addr A.areas ++ x :: l ∧
        x.2.startAddr < addr ∧ addr < x.2.endAddr ∧
        A.splitAt E addr nb = A.split E (below addr A.areas) x l addr nb := by
  have hcut := below_append_above addr A.areas
  unfold Space.splitAt
  cases habove : above addr A.areas with
  | nil => exact Or.inl ⟨rfl, by simp⟩
  | cons x l =>
      have hx : addr < x.2.endAddr := lt_end_of_mem_above hs (by rw [habove]; simp)
      by_cases hin : x.2.startAddr < addr
      · exact Or.inr ⟨x, l, rfl, by rw [← habove, hcut], hin, hx, by simp [hin, Space.split]⟩
      · refine Or.inl ⟨by simp [hin], fun y hy => ?_⟩
        simp only [Space.regions] at hs
        rw [← hcut, habove, List.map_append, List.map_cons] at hs
        obtain ⟨-, h2, h3⟩ := hs.around
        rcases List.mem_cons.mp hy with rfl | hy
        · bv_omega
        · have := h3 y.2 (List.mem_map_of_mem hy)
          bv_omega

/-! ## Removing -/

/-- After the removal of some areas their nodes are free again. -/
theorem removeAreas_live {E : Env σ η} (F : E.toNodeHeap.Fresh) (l : List Area) :
    ∀ x : σ × η, (∀ q ∈ l.map Prod.fst, F.live x.1 q) → (l.map Prod.fst).Nodup →
      (∀ q, F.live (removeAreas E l x).1 q ↔ q ∉ l.map Prod.fst ∧ F.live x.1 q) ∧
        F.avail x.1 ≤ F.avail (removeAreas E l x).1 := by
  induction l with
  | nil => intro x _ _; simp [removeAreas]
  | cons y l ih =>
      intro x hlive hnd
      obtain ⟨hy, hnd⟩ := List.nodup_cons.mp hnd
      obtain ⟨h1, h2⟩ := F.free_live x.1 y.1 (hlive y.1 (by simp))
      obtain ⟨h3, h4⟩ := ih (removeArea E x y)
        (fun q hq => (h1 q).mpr ⟨by rintro rfl; exact hy hq, hlive q (by simp [hq])⟩) hnd
      refine ⟨fun q => ?_, le_trans h2 h4⟩
      rw [removeAreas, List.foldl_cons]
      refine (h3 q).trans ?_
      rw [show (removeArea E x y).1 = E.free x.1 y.1 from rfl, h1 q]
      simp only [List.map_cons, List.mem_cons, not_or]
      tauto

end BufferVM
