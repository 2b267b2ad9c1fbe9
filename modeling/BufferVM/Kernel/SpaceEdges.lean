/-
  Kernel/SpaceEdges.lean --- where the bounds of areas come from.

  Every bound of an area after an operation is a bound of an area before it, or an end
  of the range the operation is about.  So a property of addresses that the bounds have
  and the ends of the range have is kept: being page aligned, or lying in user space.
-/
import BufferVM.Kernel.SimMap

set_option autoImplicit false

namespace BufferVM

variable {σ η : Type} {E : Env σ η} {A : Space σ η} {P : U64 → Prop} {addr end' : U64}

/-- Both bounds of every area have the property. -/
def EdgesIn (P : U64 → Prop) (A : Space σ η) : Prop :=
  ∀ x ∈ A.areas, P x.2.startAddr ∧ P x.2.endAddr

/-! ## The four placements -/

/-- The address space with a new area in it. -/
def Space.insertNew (E : Env σ η) (l₁ : List Area) (k : VmRegion) (l₂ : List Area)
    (A : Space σ η) : Space σ η :=
  { areas := l₁ ++ ((E.alloc A.heap).1, mapRegionFields E A.host k) :: l₂
    heap := (E.alloc A.heap).2
    host := mapHost E A.host k }

/-- The address space after an area has swallowed the one behind it: the first is mapped
in its new size, then the other is removed. -/
def Space.swallow (E : Env σ η) (l₁ : List Area) (p : Ptr) (k : VmRegion) (n : Area)
    (l₂ : List Area) (A : Space σ η) : Space σ η :=
  { areas := l₁ ++ (p, mapRegionFields E A.host k) :: l₂
    heap := (removeArea E (A.heap, mapHost E A.host k) n).1
    host := (removeArea E (A.heap, mapHost E A.host k) n).2 }

/-- The ways to place a request, by what becomes of the areas. -/
inductive PlaceStep (E : Env σ η) (q : Request) (A : Space σ η) : Space σ η → Prop
  | fresh (hA : A.areas = below q.addr A.areas ++ above q.addr A.areas) :
      PlaceStep E q A (A.insertNew E (below q.addr A.areas) q.fresh (above q.addr A.areas))
  | extendPrev (l₁ l₂ : List Area) (p : Ptr) (r : VmRegion) (hA : A.areas = l₁ ++ (p, r) :: l₂)
      (hj : q.joinsPrev r = true) :
      PlaceStep E q A (A.regrow E l₁ p { r with endAddr := q.end' } l₂)
  | extendNext (l₁ l₂ : List Area) (p : Ptr) (r : VmRegion) (hA : A.areas = l₁ ++ (p, r) :: l₂)
      (hj : q.joinsNext r = true) :
      PlaceStep E q A (A.regrow E l₁ p
        { r with startAddr := q.addr, pageOffset := r.pageOffset - q.pglen } l₂)
  | bridge (l₁ l₂ : List Area) (p : Ptr) (r : VmRegion) (n : Area)
      (hA : A.areas = l₁ ++ (p, r) :: n :: l₂) (hj : q.joinsPrev r = true)
      (hj' : q.joinsNext n.2 = true) :
      PlaceStep E q A (A.swallow E l₁ p { r with endAddr := n.2.endAddr } n l₂)

theorem placeStep_place (E : Env σ η) (q : Request) (A : Space σ η) :
    PlaceStep E q A (A.place E q) := by
  have hcut := below_append_above q.addr A.areas
  have hpl := placed q A.areas
  unfold Space.place
  cases hpl' : q.placement A.areas with
  | fresh => exact .fresh hcut.symm
  | extendPrev p =>
      rw [hpl'] at hpl
      obtain ⟨⟩ | ⟨_, hp', hn'⟩ := hpl
      obtain ⟨l₀, hb, hj⟩ := getLast_filter hp'
      have hA : A.areas = l₀ ++ (p.1, p.2) :: above q.addr A.areas := by
        calc A.areas = (l₀ ++ [p]) ++ above q.addr A.areas := by rw [← hb, hcut]
          _ = l₀ ++ (p.1, p.2) :: above q.addr A.areas := by simp
      simp only [hb, List.dropLast_concat]
      exact .extendPrev l₀ _ p.1 p.2 hA hj
  | extendNext n =>
      rw [hpl'] at hpl
      obtain ⟨⟩ | ⟨⟩ | ⟨_, hp', hn'⟩ := hpl
      obtain ⟨l₃, ha, hj⟩ := head_filter hn'
      have hA : A.areas = below q.addr A.areas ++ (n.1, n.2) :: l₃ := by rw [← ha, hcut]
      simp only [ha, List.tail_cons]
      exact .extendNext _ l₃ n.1 n.2 hA hj
  | bridge p n =>
      rw [hpl'] at hpl
      obtain ⟨⟩ | ⟨⟩ | ⟨⟩ | ⟨_, _, hp', hn'⟩ := hpl
      obtain ⟨l₀, hb, hj⟩ := getLast_filter hp'
      obtain ⟨l₃, ha, hj'⟩ := head_filter hn'
      have hA : A.areas = l₀ ++ (p.1, p.2) :: n :: l₃ := by
        rw [← hcut, hb, ha]
        simp
      simp only [hb, ha, List.dropLast_concat, List.tail_cons]
      exact .bridge l₀ l₃ p.1 p.2 n hA hj hj'

/-! ## The bounds -/

theorem EdgesIn.splitAt (h : EdgesIn P A) (hs : Sorted A.regions) (hP : P addr) (nb : Bool) :
    EdgesIn P (A.splitAt E addr nb) := by
  rcases splitAt_cases E addr nb hs with ⟨heq, -⟩ | ⟨x, l, -, hA, -, -, heq⟩
  · rw [heq]
    exact h
  · obtain ⟨h1, h2, h3, h4⟩ := splitArea_bounds E x addr nb A.heap A.host
    rw [heq]
    intro y hy
    have hx := h x (by rw [hA]; simp)
    simp only [Space.split, List.mem_append, List.mem_cons] at hy
    rcases hy with hy | rfl | rfl | hy
    · exact h y (by rw [hA]; simp [hy])
    · rw [h1, h2]
      exact ⟨hx.1, hP⟩
    · rw [h3, h4]
      exact ⟨hP, hx.2⟩
    · exact h y (by rw [hA]; simp [hy])

theorem EdgesIn.unmap {F : E.toNodeHeap.Fresh} (h : EdgesIn P A) (hso : Sound F A)
    (hav : 2 ≤ F.avail A.heap) (hP : P addr) (hP' : P end') :
    EdgesIn P (A.unmap E addr end') := by
  unfold Space.unmap
  split
  · obtain ⟨hso₁, -⟩ := hso.splitAt addr false (by omega)
    have h₂ := ((h.splitAt (E := E) hso.sorted hP false).splitAt (E := E) hso₁.sorted hP' true)
    exact fun x hx => h₂ x ((sublist_removeRange E addr end' _).subset hx)
  · exact h

theorem EdgesIn.regrow {l₁ l₂ : List Area} {p : Ptr} {r k : VmRegion} (h : EdgesIn P A)
    (hA : A.areas = l₁ ++ (p, r) :: l₂) (hstart : P k.startAddr) (hend : P k.endAddr) :
    EdgesIn P (A.regrow E l₁ p k l₂) := by
  intro x hx
  simp only [Space.regrow, List.mem_append, List.mem_cons] at hx
  rcases hx with hx | rfl | hx
  · exact h x (by rw [hA]; simp [hx])
  · exact ⟨hstart, hend⟩
  · exact h x (by rw [hA]; simp [hx])

theorem EdgesIn.place {q : Request} (h : EdgesIn P A) (hP : P q.addr) (hP' : P q.end') :
    EdgesIn P (A.place E q) := by
  have hold : ∀ {l₁ l₂ : List Area} {p : Ptr} {r : VmRegion}, A.areas = l₁ ++ (p, r) :: l₂ →
      P r.startAddr ∧ P r.endAddr := by
    intro l₁ l₂ p r hA
    exact h (p, r) (by rw [hA]; simp)
  have hstep := placeStep_place E q A
  generalize A.place E q = B at hstep ⊢
  cases hstep with
  | fresh hA =>
      intro x hx
      simp only [Space.insertNew, List.mem_append, List.mem_cons] at hx
      rcases hx with hx | rfl | hx
      · exact h x (by rw [hA]; simp [hx])
      · exact ⟨hP, hP'⟩
      · exact h x (by rw [hA]; simp [hx])
  | extendPrev l₁ l₂ p r hA hj => exact h.regrow hA (hold hA).1 hP'
  | extendNext l₁ l₂ p r hA hj => exact h.regrow hA hP (hold hA).2
  | bridge l₁ l₂ p r n hA hj hj' =>
      intro x hx
      simp only [Space.swallow, List.mem_append, List.mem_cons] at hx
      rcases hx with hx | rfl | hx
      · exact h x (by rw [hA]; simp [hx])
      · exact ⟨(hold hA).1, (h n (by rw [hA]; simp)).2⟩
      · exact h x (by rw [hA]; simp [hx])

theorem EdgesIn.map {F : E.toNodeHeap.Fresh} {q : Request} (h : EdgesIn P A) (hso : Sound F A)
    (hav : 3 ≤ F.avail A.heap) (hP : P q.addr) (hP' : P q.end') : EdgesIn P (A.map E q) :=
  (h.unmap hso (by omega) hP hP').place hP hP'

/-! ## One area rewritten -/

/-- An area may be given other bounds as long as it stays between its neighbours. -/
theorem Sound.regrow {F : E.toNodeHeap.Fresh} {l₁ l₂ : List Area} {p : Ptr} {r k : VmRegion}
    (h : Sound F A) (hA : A.areas = l₁ ++ (p, r) :: l₂) (hlt : k.startAddr < k.endAddr)
    (hfront : ∀ x ∈ l₁, x.2.endAddr ≤ k.startAddr) (hback : ∀ x ∈ l₂, k.endAddr ≤ x.2.startAddr) :
    Sound F (A.regrow E l₁ p k l₂) := by
  have hnodes : (A.regrow E l₁ p k l₂).nodes = A.nodes := by simp [Space.nodes, Space.regrow, hA]
  refine ⟨?_, hnodes ▸ h.nodup, fun q hq => h.owned q (hnodes ▸ hq)⟩
  have hs := h.sorted
  rw [Space.regions_eq hA] at hs
  rw [Space.regions, Space.regrow, List.map_append, List.map_cons]
  refine Sorted.put (hs.sublist (by simp)) hlt ?_ ?_
  · intro x hx
    obtain ⟨y, hy, rfl⟩ := List.mem_map.mp hx
    exact hfront y hy
  · intro x hx
    obtain ⟨y, hy, rfl⟩ := List.mem_map.mp hx
    exact hback y hy

end BufferVM
