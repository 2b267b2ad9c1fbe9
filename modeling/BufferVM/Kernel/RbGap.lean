/-
  Kernel/RbGap.lean --- what the gap callbacks and the link primitives do.

  `GapOnly` is the frame condition of everything that writes gaps.  The main
  result is `vmaRbGapPropagate_spec`: walking up a path whose stored gaps were
  exact above its innermost node, and stopping early at the first node that does
  not change, leaves them exact for the value that is in the hole now.
-/
import BufferVM.Kernel.RbTree

set_option autoImplicit false

namespace BufferVM

open PtrTree PtrTree.PTree

variable {σ η : Type} {s t u : St σ η}

/-! ## Frames -/

/-- Nothing but gaps differs. -/
structure GapOnly (s t : St σ η) : Prop where
  child : ∀ d p, t.child d p = s.child d p
  parent : ∀ p, t.parent p = s.parent p
  color : ∀ p, t.color p = s.color p
  root : t.vmaRbRoot = s.vmaRbRoot
  base : t.base = s.base

theorem GapOnly.refl (s : St σ η) : GapOnly s s :=
  ⟨fun _ _ => rfl, fun _ => rfl, fun _ => rfl, rfl, rfl⟩

theorem GapOnly.trans (h : GapOnly s t) (h' : GapOnly t u) : GapOnly s u where
  child d p := (h'.child d p).trans (h.child d p)
  parent p := (h'.parent p).trans (h.parent p)
  color p := (h'.color p).trans (h.color p)
  root := h'.root.trans h.root
  base := h'.base.trans h.base

theorem gapOnly_setGap (s : St σ η) (p : Ptr) (g : U64) : GapOnly s (s.setGap p g) where
  child _ _ := by simp
  parent _ := by simp
  color _ := by simp
  root := rfl
  base := by simp

theorem GapOnly.rbLinks (h : GapOnly s t) : t.rbLinks = s.rbLinks := by
  unfold St.rbLinks
  congr 1
  · funext d p; exact h.child d p
  · funext p; exact h.parent p

/-- The stored gap as a number. -/
def St.gapNat (s : St σ η) (p : Ptr) : Nat := (s.gap p).toNat

/-- The stored gap below a link. -/
def St.gapAt (s : St σ η) (p : Ptr) : Nat := if p = 0#64 then 0 else s.gapNat p

/-- The root of an augmented subtree stores its maximum, and an empty one has
none. -/
theorem gapAt_eq_sup {par p : Ptr} {a : PTree Ptr} (hs : Shape s.rbLinks par p a)
    (ha : Aug s.own s.gapNat a) : s.gapAt p = sup s.own a.toList := by
  by_cases hp : p = 0#64
  · rw [hs.eq_leaf hp]
    simp [St.gapAt, hp]
  · rw [St.gapAt, if_neg hp]
    exact ha.stored_root hs hp

/-! ## `vma_compute_subtree_gap` -/

theorem toNat_ite_lt (a b : U64) : (if a < b then b else a).toNat = max a.toNat b.toNat := by
  split
  · have : a.toNat < b.toNat := by assumption
    omega
  · have : ¬ a.toNat < b.toNat := by assumption
    omega

/-- The computed gap is the maximum of the node's own and of those stored below. -/
theorem toNat_vmaComputeSubtreeGap (s : St σ η) (d : Side) (p : Ptr) :
    (vmaComputeSubtreeGap s p).toNat =
      max (s.own p) (max (s.gapAt (s.child d p)) (s.gapAt (s.child d.flip p))) := by
  have hown : (if (s.vma p).prev ≠ 0#64 then
      (s.vma p).startAddr - (s.vma (s.vma p).prev).endAddr
      else (s.vma p).startAddr).toNat = s.own p := by
    unfold St.own
    by_cases h : (s.vma p).prev = 0#64 <;> simp [h]
  have hraise : ∀ (x : U64) (q : Ptr),
      (if q ≠ 0#64 then if x < s.gap q then s.gap q else x else x).toNat =
        max x.toNat (s.gapAt q) := by
    intro x q
    by_cases hq : q = 0#64
    · simp [hq, St.gapAt]
    · rw [if_pos hq, toNat_ite_lt, St.gapAt, if_neg hq, St.gapNat]
  have hd : max (s.gapAt (s.child d p)) (s.gapAt (s.child d.flip p)) =
      max (s.gapAt (s.vma p).rbLeft) (s.gapAt (s.vma p).rbRight) := by
    cases d
    · rfl
    · exact Nat.max_comm _ _
  rw [vmaComputeSubtreeGap, hraise, hraise, hown, hd, Nat.max_assoc]

/-! ## `vma_rb_gap_propagate` -/

/-- Propagation up a path ends, writes gaps of frames only, and makes the path
exact for the value that is stored in the hole. -/
theorem vmaRbGapPropagate_spec {stop top : Ptr} (c : Path Ptr) :
    ∀ (fuel : Nat) (rb hole : Ptr) (s : St σ η), c.length < fuel →
      PathShape s.rbLinks stop top c rb hole → (∀ f ∈ c, f.ptr ≠ stop) →
      (plug c leaf).toList.Nodup →
      ∃ t, vmaRbGapPropagate fuel rb stop s = some t ∧ GapOnly s t ∧
        (∀ q, (∀ f ∈ c, f.ptr ≠ q) → t.gap q = s.gap q) ∧
        (AugAbove s.own s.gapNat c → AugPath s.own t.gapNat c (s.gapAt hole)) := by
  induction c with
  | nil =>
      intro fuel rb hole s hf hc _ _
      obtain ⟨n, rfl⟩ : ∃ n, fuel = n + 1 := ⟨fuel - 1, by simp at hf; omega⟩
      exact ⟨s, by simp [vmaRbGapPropagate, hc.1], .refl s, fun _ _ => rfl, fun _ => trivial⟩
  | cons f c ih =>
      intro fuel rb hole s hf hc hstop hnd
      obtain ⟨n, rfl⟩ : ∃ n, fuel = n + 1 := ⟨fuel - 1, by simp at hf; omega⟩
      obtain ⟨rfl, hne, hhole, hsib, hrest⟩ := hc
      obtain ⟨hj, hndc, hdisj⟩ := nodup_plug_cons.mp hnd
      obtain ⟨-, hfu, -, -, -⟩ := nodup_join.mp hj
      have hfc : f.ptr ∉ ptrs c := hdisj f.ptr (by simp)
      have hstopf : f.ptr ≠ stop := hstop f (by simp)
      simp only [St.rbLinks_null, St.rbLinks_child, St.rbLinks_parent] at hne hhole hsib hrest
      -- the value computed at the frame, once its sibling is known to be exact
      have hval : Aug s.own s.gapNat f.sib → (vmaComputeSubtreeGap s f.ptr).toNat =
          max (s.own f.ptr) (max (s.gapAt hole) (sup s.own f.sib.toList)) := by
        intro hu
        rw [toNat_vmaComputeSubtreeGap s f.side, hhole, gapAt_eq_sup hsib hu]
      by_cases heq : s.gap f.ptr = vmaComputeSubtreeGap s f.ptr
      · refine ⟨s, by simp [vmaRbGapPropagate, hstopf, hne, heq], .refl s, fun _ _ => rfl, ?_⟩
        rintro ⟨hu, hup⟩
        exact ⟨by rw [St.gapNat, heq, hval hu], hu, hup⟩
      · let s₁ := s.setGap f.ptr (vmaComputeSubtreeGap s f.ptr)
        have hg₁ : GapOnly s s₁ := gapOnly_setGap _ _ _
        have hpath₁ : PathShape s₁.rbLinks stop top c (s.parent f.ptr) f.ptr := by
          rw [hg₁.rbLinks]; exact hrest
        obtain ⟨t, hrun, hg, hgap, haug⟩ := ih n (s.parent f.ptr) f.ptr s₁
          (by simp only [List.length_cons] at hf; omega) hpath₁
          (fun g hg => hstop g (by simp [hg])) hndc
        have hframes : ∀ g ∈ c, g.ptr ≠ f.ptr := by
          intro g hg heq
          exact hfc (by rw [← heq]; exact List.mem_flatMap.mpr ⟨g, hg, by simp⟩)
        have hs₁ : ∀ q, q ≠ f.ptr → s₁.gap q = s.gap q := by
          intro q hq; simp [s₁, hq]
        refine ⟨t, by simp [vmaRbGapPropagate, hstopf, hne, heq, s₁, hrun], hg₁.trans hg, ?_, ?_⟩
        · intro q hq
          rw [hgap q (fun g hg => hq g (by simp [hg])), hs₁ q (fun h => hq f (by simp) h.symm)]
        · rintro ⟨hu, hup⟩
          have hown : s₁.own = s.own := St.own_of_base hg₁.base
          have hup₁ : AugPath s₁.own s₁.gapNat c (s.gapNat f.ptr) := by
            rw [hown]
            exact hup.congr (fun _ _ => rfl) fun q hq => by
              rw [St.gapNat, St.gapNat, hs₁ q (by rintro rfl; exact hfc hq)]
          have hfin := haug hup₁.above
          have hf₁ : t.gapNat f.ptr = s₁.gapAt f.ptr := by
            rw [St.gapAt, if_neg hne, St.gapNat, hgap f.ptr hframes, St.gapNat]
          rw [hown] at hfin
          refine ⟨?_, ?_, by rw [hf₁]; exact hfin⟩
          · rw [hf₁, St.gapAt, if_neg hne, ← hval hu, St.gapNat]
            simp [s₁]
          · refine hu.congr (fun _ _ => rfl) fun q hq => ?_
            have hqf : q ≠ f.ptr := by rintro rfl; exact hfu hq
            have hqc : ∀ g ∈ c, g.ptr ≠ q := by
              rintro g hg rfl
              exact hdisj g.ptr (by simp [hq]) (List.mem_flatMap.mpr ⟨g, hg, by simp⟩)
            rw [St.gapNat, St.gapNat, hgap q hqc, hs₁ q hqf]

/-- A path of a tree is shorter than every walk. -/
theorem length_path_lt_walkBound {tp top par p : Ptr} {c : Path Ptr}
    (h : PathShape s.rbLinks tp top c par p) (hnd : (plug c leaf).toList.Nodup) :
    c.length < walkBound := by
  refine lt_of_le_of_lt ?_ (length_lt_walkBound hnd ?_)
  · rw [length_plug]
    have := length_le_ptrs c
    omega
  · intro h0
    rcases mem_plug.mp h0 with h0 | h0
    · simp at h0
    · exact h.ne_null _ h0 rfl

/-- Propagation to the root of a tree that is exact but for the path, whose
innermost node may be stale. -/
theorem vmaRbGapPropagate_plug {c : Path Ptr} {par x : Ptr} {w : PTree Ptr}
    (hpath : PathShape u.rbLinks 0#64 u.vmaRbRoot c par x) (hw : Shape u.rbLinks par x w)
    (hnd : (plug c w).toList.Nodup) :
    ∃ t, vmaRbGapPropagate walkBound par 0#64 u = some t ∧ GapOnly u t ∧
      (Aug u.own u.gapNat w → AugAbove u.own u.gapNat c → Aug u.own t.gapNat (plug c w)) := by
  obtain ⟨-, hndc, hdisj⟩ := nodup_plug.mp hnd
  have hne := hpath.ne_null
  obtain ⟨t, hrun, hg, hgap, hup⟩ := vmaRbGapPropagate_spec c walkBound par x u
    (length_path_lt_walkBound hpath hndc) hpath
    (fun f hf => hne f.ptr (List.mem_flatMap.mpr ⟨f, hf, by simp⟩)) hndc
  refine ⟨t, hrun, hg, fun hwa hca => ?_⟩
  have hsup := gapAt_eq_sup hw hwa
  refine aug_plug.mpr ⟨hwa.congr (fun _ _ => rfl) fun q hq => ?_, hsup ▸ hup hca⟩
  have hq' : ∀ f ∈ c, f.ptr ≠ q := by
    rintro f hf rfl
    exact hdisj f.ptr hq (List.mem_flatMap.mpr ⟨f, hf, by simp⟩)
  rw [St.gapNat, hgap q hq', St.gapNat]

/-! ## `__rb_change_child` -/

theorem rbChangeChild_fields (old new parent : Ptr) (s : St σ η) :
    (∀ p, (rbChangeChild old new parent s).parent p = s.parent p) ∧
    (∀ p, (rbChangeChild old new parent s).color p = s.color p) ∧
    (∀ p, (rbChangeChild old new parent s).gap p = s.gap p) ∧
    (rbChangeChild old new parent s).base = s.base ∧
    (∀ d p, p ≠ parent → (rbChangeChild old new parent s).child d p = s.child d p) := by
  unfold rbChangeChild
  split
  · split <;> simp +contextual
  · simp

/-- Hanging another pointer into the hole of a path. -/
theorem rbChangeChild_path {c : Path Ptr} {par old new : Ptr}
    (h : PathShape s.rbLinks 0#64 s.vmaRbRoot c par old) (hold : old ≠ 0#64)
    (hnd : (plug c leaf).toList.Nodup) (hnot : old ∉ ptrs c) :
    PathShape (rbChangeChild old new par s).rbLinks 0#64
      (rbChangeChild old new par s).vmaRbRoot c par new := by
  cases c with
  | nil =>
      obtain ⟨rfl, rfl⟩ := h
      simp [PathShape, rbChangeChild]
  | cons f c =>
      have hpath := h
      obtain ⟨rfl, hne, hhole, hsib, -⟩ := h
      simp only [St.rbLinks_null, St.rbLinks_child] at hne hhole hsib
      -- the left link tells the side of the hole: the sibling is another pointer
      have hleft : s.child .left f.ptr = old ↔ f.side = .left := by
        cases hs : f.side with
        | left => simpa [hs] using hhole
        | right =>
            simp only [reduceCtorEq, iff_false]
            intro heq
            rw [hs, Side.flip] at hsib
            exact hnot (by simp [heq ▸ hsib.root_mem (by rw [heq]; exact hold)])
      have heq : rbChangeChild old new f.ptr s = s.setChild f.side f.ptr new := by
        cases hs : f.side <;> simp [rbChangeChild, hne, hleft, hs]
      rw [heq]
      refine hpath.congr rfl hnd ?_ (fun q _ => by simp) (fun g hg => ?_) (by simp)
      · intro q _ d hq
        have := hq f (by simp)
        simp [this]
      · obtain rfl : f = g := by simpa using hg
        simp

end BufferVM
