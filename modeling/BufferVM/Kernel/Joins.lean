/-
  Kernel/Joins.lean --- when a request is merged, in terms of the store it meets.

  `mmap_region` clears its range first and looks for neighbours to merge with afterwards.
  The conditions here are on the VMAs before the call: one that reaches up to the range
  from below, or one that reaches out of it above, and that passes the tests of
  `vma_merge` once it has been cut off at the range.
-/
import BufferVM.Kernel.Calls

set_option autoImplicit false

namespace BufferVM

variable {σ η β : Type} {E : Env σ η} {A : Space σ η} {F : E.toNodeHeap.Fresh} {q : Request}
  {kernelMinAddress : U64} {f : VmRegion → U64 → β}

/-- A VMA in front of the range will be extended over it. -/
def Request.MeetsFront (q : Request) (l : List VmRegion) : Prop :=
  ∃ r ∈ l, r.startAddr < q.addr ∧ q.addr ≤ r.endAddr ∧
    canVmaMergeAfter (r.low q.addr) q.flags q.fileInfo q.offset = true

/-- A VMA behind the range will be extended over it. -/
def Request.MeetsBack (q : Request) (l : List VmRegion) : Prop :=
  ∃ r ∈ l, r.startAddr ≤ q.end' ∧ q.end' < r.endAddr ∧
    canVmaMergeBefore (r.high q.end') q.flags q.fileInfo (q.offset + q.pglen) = true

instance (q : Request) (l : List VmRegion) : Decidable (q.MeetsFront l) :=
  inferInstanceAs (Decidable (∃ r ∈ l, _))

instance (q : Request) (l : List VmRegion) : Decidable (q.MeetsBack l) :=
  inferInstanceAs (Decidable (∃ r ∈ l, _))

/-- The request is merged with no VMA. -/
structure Request.Unmerged (q : Request) (l : List VmRegion) : Prop where
  front : ¬ q.MeetsFront l
  back : ¬ q.MeetsBack l

theorem InBounds.end_align (h : InBounds kernelMinAddress q.addr q.length) :
    q.end'.toNat % 4096 = 0 := h.edges.2.align

section Map

variable (hso : Sound F A) (hav : 3 ≤ F.avail A.heap)
  (hb : InBounds kernelMinAddress q.addr q.length)

include hso hav hb

theorem meetsFront_of_joinsPrev {r : VmRegion} (hr : r ∈ (A.unmap E q.addr q.end').regions)
    (hj : q.joinsPrev r = true) : q.MeetsFront A.regions := by
  obtain ⟨r', hr', hlo, hhi, hcan, -⟩ := (joinsPrev_unmap hso (by omega) hb.lt).mp ⟨r, hr, hj, rfl⟩
  exact ⟨r', hr', hlo, hhi, hcan⟩

theorem meetsBack_of_joinsNext {r : VmRegion} (hr : r ∈ (A.unmap E q.addr q.end').regions)
    (hj : q.joinsNext r = true) : q.MeetsBack A.regions := by
  obtain ⟨r', hr', hlo, hhi, hcan, -⟩ := (joinsNext_unmap hso (by omega) hb.lt hb.addr_align
    hb.end_align).mp ⟨r, hr, hj, rfl⟩
  exact ⟨r', hr', hlo, hhi, hcan⟩

/-- An unmerged request gets a VMA of its own. -/
theorem map_unmerged (hun : q.Unmerged A.regions) :
    (A.unmap E q.addr q.end').areas = below q.addr (A.unmap E q.addr q.end').areas ++
        above q.addr (A.unmap E q.addr q.end').areas ∧
      A.map E q = (A.unmap E q.addr q.end').insertNew E
        (below q.addr (A.unmap E q.addr q.end').areas) q.fresh
        (above q.addr (A.unmap E q.addr q.end').areas) := by
  have hstep := placeStep_place E q (A.unmap E q.addr q.end')
  have hmem : ∀ {l₁ l₂ : List Area} {x : Area}, (A.unmap E q.addr q.end').areas = l₁ ++ x :: l₂ →
      x.2 ∈ (A.unmap E q.addr q.end').regions := by
    intro l₁ l₂ x hA
    rw [Space.regions, hA]
    simp
  rw [Space.map]
  generalize (A.unmap E q.addr q.end').place E q = B at hstep ⊢
  cases hstep with
  | fresh hA => exact ⟨hA, rfl⟩
  | extendPrev l₁ l₂ p r hA hj =>
      exact absurd (meetsFront_of_joinsPrev hso hav hb (hmem hA) hj) hun.front
  | extendNext l₁ l₂ p r hA hj =>
      exact absurd (meetsBack_of_joinsNext hso hav hb (hmem hA) hj) hun.back
  | bridge l₁ l₂ p r n hA hj hj' =>
      exact absurd (meetsFront_of_joinsPrev hso hav hb (hmem hA) hj) hun.front

/-- After an unmerged request the range reads from the new VMA and nothing else has
changed but that it has been cleared. -/
theorem view_map_unmerged (hun : q.Unmerged A.regions) (a : U64) :
    view f (A.map E q).regions a =
      if q.addr ≤ a ∧ a < q.end' then
        some (f (mapRegionFields E (A.unmap E q.addr q.end').host q.fresh) a)
      else view f (A.unmap E q.addr q.end').regions a := by
  obtain ⟨hcut, hmap⟩ := map_unmerged hso hav hb hun
  have hs := (hso.map (q := q) hb.lt hav).1.sorted
  rw [hmap] at hs ⊢
  have hregions : ((A.unmap E q.addr q.end').insertNew E
      (below q.addr (A.unmap E q.addr q.end').areas) q.fresh
      (above q.addr (A.unmap E q.addr q.end').areas)).regions =
      (below q.addr (A.unmap E q.addr q.end').areas).map Prod.snd ++
        mapRegionFields E (A.unmap E q.addr q.end').host q.fresh ::
          (above q.addr (A.unmap E q.addr q.end').areas).map Prod.snd := by
    simp [Space.regions, Space.insertNew]
  by_cases hin : q.addr ≤ a ∧ a < q.end'
  · rw [if_pos hin]
    exact view_of_mem hs (by rw [hregions]; simp) hin
  · have hout : ¬ (mapRegionFields E (A.unmap E q.addr q.end').host q.fresh).Covers a := hin
    rw [if_neg hin, hregions, view_append, view_cons, if_neg hout, ← view_append, ← List.map_append,
      ← hcut]
    rfl

end Map

end BufferVM
