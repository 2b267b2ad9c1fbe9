/-
  Kernel/SpaceView.lean --- an address space as a partial map from addresses.

  `view f l` reads at each address the attribute `f` of the region that covers it.
  The attribute is a parameter, so the same laws serve the covered set, the meaning
  of a page with its file offset, and the meaning without it.  What an operation has
  to respect is said about `f` where it is used: a split must give both halves the
  attribute of the whole, and a merge must give every swallowed region its own.
-/
import BufferVM.Kernel.SpaceSound

set_option autoImplicit false

namespace BufferVM

variable {σ η β : Type} {E : Env σ η} {A B : Space σ η} {addr end' : U64}
  {f : VmRegion → U64 → β}

/-- The attribute of the region that covers an address. -/
def view (f : VmRegion → U64 → β) (l : List VmRegion) (a : U64) : Option β :=
  (l.find? fun r => decide (r.Covers a)).map fun r => f r a

/-! ## Reading a list of regions -/

theorem view_append (l₁ l₂ : List VmRegion) (a : U64) :
    view f (l₁ ++ l₂) a = (view f l₁ a).or (view f l₂ a) := by
  unfold view
  rw [List.find?_append]
  cases List.find? (fun r => decide (r.Covers a)) l₁ <;> simp

theorem view_cons (r : VmRegion) (l : List VmRegion) (a : U64) :
    view f (r :: l) a = if r.Covers a then some (f r a) else view f l a := by
  unfold view
  by_cases h : r.Covers a <;> simp [h]

@[simp] theorem view_nil (a : U64) : view f [] a = none := rfl

theorem view_eq_none {l : List VmRegion} {a : U64} (h : ∀ r ∈ l, ¬ r.Covers a) :
    view f l a = none := by
  unfold view
  rw [List.find?_eq_none.mpr (by simpa using h)]
  rfl

/-- In a sorted list the region that covers an address is the one that is read. -/
theorem view_of_mem {l : List VmRegion} (hs : Sorted l) {r : VmRegion} {a : U64} (hr : r ∈ l)
    (hc : r.Covers a) : view f l a = some (f r a) := by
  induction l with
  | nil => simp at hr
  | cons x l ih =>
      obtain ⟨-, h2, h3⟩ := sorted_cons.mp hs
      rw [view_cons]
      rcases List.mem_cons.mp hr with rfl | hr
      · rw [if_pos hc]
      · have hx := h2 r hr
        rw [if_neg (by unfold VmRegion.Covers at hc ⊢; bv_omega), ih h3 hr]

/-- What is read comes from a region that covers the address. -/
theorem exists_of_view {l : List VmRegion} {a : U64} {v : β} (h : view f l a = some v) :
    ∃ r ∈ l, r.Covers a ∧ f r a = v := by
  unfold view at h
  obtain ⟨r, hr, rfl⟩ := Option.map_eq_some_iff.mp h
  exact ⟨r, List.mem_of_find?_eq_some hr, by simpa using List.find?_some hr, rfl⟩

/-! ## Splitting and removing -/

/-- Both halves of a split region keep the attribute and the property `P`. -/
def SplitStable (E : Env σ η) (f : VmRegion → U64 → β) (P : VmRegion → Prop) (addr : U64) : Prop :=
  ∀ (x : Area) (heap : σ) (host : η) (nb : Bool), P x.2 → x.2.startAddr < addr →
    addr < x.2.endAddr →
    let y := splitArea E x addr nb heap host
    (P y.1.2 ∧ P y.2.1.2) ∧
      ∀ a, (y.1.2.Covers a → f y.1.2 a = f x.2 a) ∧ (y.2.1.2.Covers a → f y.2.1.2 a = f x.2 a)

/-- Two adjacent regions with the attribute of the whole read like the whole. -/
theorem view_halves {x y z : VmRegion} {l : List VmRegion} {a : U64}
    (hy : y.startAddr = x.startAddr ∧ y.endAddr = addr)
    (hz : z.startAddr = addr ∧ z.endAddr = x.endAddr) (hlo : x.startAddr < addr)
    (hhi : addr < x.endAddr) (hfy : y.Covers a → f y a = f x a) (hfz : z.Covers a → f z a = f x a) :
    view f (y :: z :: l) a = view f (x :: l) a := by
  have hyc : y.Covers a ↔ x.Covers a ∧ a < addr := by
    simp only [VmRegion.Covers, hy.1, hy.2]
    bv_omega
  have hzc : z.Covers a ↔ x.Covers a ∧ ¬ a < addr := by
    simp only [VmRegion.Covers, hz.1, hz.2]
    bv_omega
  rw [view_cons, view_cons, view_cons]
  by_cases hc : x.Covers a
  · by_cases hlt : a < addr
    · rw [if_pos (hyc.mpr ⟨hc, hlt⟩), if_pos hc, hfy (hyc.mpr ⟨hc, hlt⟩)]
    · rw [if_neg fun h => hlt (hyc.mp h).2, if_pos (hzc.mpr ⟨hc, hlt⟩), if_pos hc,
        hfz (hzc.mpr ⟨hc, hlt⟩)]
  · rw [if_neg fun h => hc (hyc.mp h).1, if_neg fun h => hc (hzc.mp h).1, if_neg hc]

/-- A split does not change what is read. -/
theorem view_splitAt {P : VmRegion → Prop} (hf : SplitStable E f P addr) (hs : Sorted A.regions)
    (hP : ∀ r ∈ A.regions, P r) (nb : Bool) :
    (∀ a, view f (A.splitAt E addr nb).regions a = view f A.regions a) ∧
      ∀ r ∈ (A.splitAt E addr nb).regions, P r := by
  rcases splitAt_cases E addr nb hs with ⟨heq, -⟩ | ⟨x, l, -, hA, hlo, hhi, heq⟩
  · rw [heq]
    exact ⟨fun _ => rfl, hP⟩
  · obtain ⟨h1, h2, h3, h4⟩ := splitArea_bounds E x addr nb A.heap A.host
    obtain ⟨hPy, hfy⟩ := hf x A.heap A.host nb (hP x.2 (by rw [Space.regions, hA]; simp)) hlo hhi
    have hnew : (A.splitAt E addr nb).regions = (below addr A.areas).map Prod.snd ++
        (splitArea E x addr nb A.heap A.host).1.2 ::
        (splitArea E x addr nb A.heap A.host).2.1.2 :: l.map Prod.snd := by
      rw [heq]
      simp [Space.regions, Space.split]
    have hold : A.regions = (below addr A.areas).map Prod.snd ++ x.2 :: l.map Prod.snd := by
      conv_lhs => rw [Space.regions, hA]
      simp
    refine ⟨fun a => ?_, fun r hr => ?_⟩
    · rw [hnew, hold, view_append, view_append,
        view_halves ⟨h1, h2⟩ ⟨h3, h4⟩ hlo hhi (hfy a).1 (hfy a).2]
    · rw [hnew] at hr
      simp only [List.mem_append, List.mem_cons] at hr
      rcases hr with hr | rfl | rfl | hr
      · exact hP r (by rw [hold]; simp [hr])
      · exact hPy.1
      · exact hPy.2
      · exact hP r (by rw [hold]; simp [hr])

/-- Removing a range between two edges. -/
theorem view_removeRange (hs : Sorted A.regions) (hlo : EdgeAt addr A.areas)
    (hhi : EdgeAt end' A.areas) (a : U64) :
    view f (A.removeRange E addr end').regions a =
      if addr ≤ a ∧ a < end' then none else view f A.regions a := by
  have hcut := removeRange_cut addr end' A.areas
  have hnone : ∀ l : List Area, (∀ x ∈ l, ¬ x.2.Covers a) → view f (l.map Prod.snd) a = none := by
    intro l hl
    refine view_eq_none fun r hr => ?_
    obtain ⟨x, hx, rfl⟩ := List.mem_map.mp hr
    exact hl x hx
  have hnew : (A.removeRange E addr end').regions = (below addr A.areas).map Prod.snd ++
      ((above addr A.areas).dropWhile fun x => decide (x.2.startAddr < end')).map Prod.snd := by
    simp [Space.regions, Space.removeRange]
  rw [hnew, view_append]
  by_cases hin : addr ≤ a ∧ a < end'
  · rw [if_pos hin, hnone, hnone]
    · rfl
    · intro x hx hc
      have := le_start_of_mem_dropWhile (hs.sublist ((List.dropWhile_sublist _).map Prod.snd)) hx
      unfold VmRegion.Covers at hc
      bv_omega
    · intro x hx hc
      have := end_le_of_mem_below hx
      unfold VmRegion.Covers at hc
      bv_omega
  · rw [if_neg hin]
    conv_rhs => rw [Space.regions, hcut, List.map_append, List.map_append, view_append, view_append]
    congr 1
    rw [hnone ((above addr A.areas).takeWhile _), Option.none_or]
    intro x hx hc
    have hxa : x ∈ above addr A.areas := (List.takeWhile_sublist _).subset hx
    have hstart : x.2.startAddr < end' := by simpa using List.mem_takeWhile_imp hx
    have h1 := hlo.le_start hs hxa
    have h2 := hhi x ((List.dropWhile_sublist _).subset hxa)
    unfold VmRegion.Covers at hc
    bv_omega

/-- `munmap` deletes exactly its range. -/
theorem view_unmap {F : E.toNodeHeap.Fresh} {P : VmRegion → Prop}
    (hf : SplitStable E f P addr) (hf' : SplitStable E f P end') (h : Sound F A)
    (hav : 2 ≤ F.avail A.heap) (hP : ∀ r ∈ A.regions, P r) :
    (∀ a, view f (A.unmap E addr end').regions a =
      if addr ≤ a ∧ a < end' then none else view f A.regions a) ∧
      ∀ r ∈ (A.unmap E addr end').regions, P r := by
  unfold Space.unmap
  by_cases hover : overlapping addr end' A.areas = true
  · rw [if_pos hover]
    obtain ⟨hso₁, hav₁⟩ := h.splitAt addr false (by omega)
    obtain ⟨hso₂, -⟩ := hso₁.splitAt end' true (by omega)
    obtain ⟨hv₁, hP₁⟩ := view_splitAt hf h.sorted hP false
    obtain ⟨hv₂, hP₂⟩ := view_splitAt hf' hso₁.sorted hP₁ true
    refine ⟨fun a => ?_, fun r hr => ?_⟩
    · rw [view_removeRange hso₂.sorted
        ((edgeAt_splitAt h.sorted false).splitAt hso₁.sorted true)
          (edgeAt_splitAt hso₁.sorted true),
        hv₂, hv₁]
    · refine hP₂ r ?_
      exact ((sublist_removeRange E addr end' _).map Prod.snd).subset hr
  · rw [if_neg hover]
    refine ⟨fun a => ?_, hP⟩
    by_cases hin : addr ≤ a ∧ a < end'
    · rw [if_pos hin]
      refine view_eq_none fun r hr hc => ?_
      obtain ⟨x, hx, rfl⟩ := List.mem_map.mp hr
      refine hover ((overlapping_iff h.sorted).mpr ⟨x, hx, ?_, ?_⟩) <;>
        (unfold VmRegion.Covers at hc; bv_omega)
    · rw [if_neg hin]

/-! ## Placing -/

/-- A placed request overrides its range, when the region it ends up in gives every
region it has swallowed the attribute that one had. -/
theorem view_placed {q : Request} {l₁ m l₂ : List Area} {x : Area}
    (h : PlacedIn q A B l₁ m l₂ x) (hs : Sorted A.regions)
    (hkeep : ∀ y ∈ m, ∀ a, y.2.Covers a → f x.2 a = f y.2 a) (a : U64) :
    view f B.regions a =
      if q.addr ≤ a ∧ a < q.end' then some (f x.2 a) else view f A.regions a := by
  have hsB := h.sorted hs
  have hmem : x.2 ∈ B.regions := by rw [Space.regions, h.new]; simp
  by_cases hin : q.addr ≤ a ∧ a < q.end'
  · rw [if_pos hin]
    exact view_of_mem hsB hmem ((h.covers a).mpr (Or.inr hin))
  · rw [if_neg hin]
    by_cases hc : x.2.Covers a
    · obtain ⟨y, hy, hya⟩ := ((h.covers a).mp hc).resolve_right hin
      rw [view_of_mem hsB hmem hc, hkeep y hy a hya]
      refine (view_of_mem hs ?_ hya).symm
      rw [Space.regions, h.old]
      simp only [List.map_append, List.mem_append]
      exact Or.inl (Or.inr (List.mem_map_of_mem hy))
    · have hm : view f (m.map Prod.snd) a = none := by
        refine view_eq_none fun r hr hrc => hc ?_
        obtain ⟨y, hy, rfl⟩ := List.mem_map.mp hr
        exact (h.covers a).mpr (Or.inl ⟨y, hy, hrc⟩)
      rw [Space.regions, Space.regions, h.old, h.new, List.map_append, List.map_append,
        List.map_append, List.map_cons, view_append, view_append, view_append, view_cons,
        if_neg hc, hm]
      simp

end BufferVM
