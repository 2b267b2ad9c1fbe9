/-
  Kernel/RbColors.lean --- which colours `kernel/c/rbtree.c` writes.

  The rotations of `rb_insert` and the cases of `rb_erase` write a few colours each, and the
  gap callbacks write none.  The lemmas need no tree: they say what every node's colour is
  afterwards, and the balance arguments look up the nodes they know.
-/
import BufferVM.Kernel.RbGap
import BufferVM.Lib.RedBlack

set_option autoImplicit false

namespace BufferVM

open PtrTree PtrTree.PTree

variable {σ η : Type} {s t u : St σ η}

/-- The red nodes of a store. -/
def St.red (s : St σ η) (p : Ptr) : Bool := decide (s.color p = .red)

@[simp] theorem St.red_eq_true {p : Ptr} : s.red p = true ↔ s.color p = .red := by
  simp [St.red]

@[simp] theorem St.red_eq_false {p : Ptr} : s.red p = false ↔ s.color p = .black := by
  cases h : s.color p <;> simp [St.red, h]

theorem St.red_of_color {p : Ptr} (h : t.color p = s.color p) : t.red p = s.red p := by
  rw [St.red, St.red, h]

theorem GapOnly.red (h : GapOnly s t) : t.red = s.red :=
  funext fun p => St.red_of_color (h.color p)

/-! ## The gap callbacks -/

theorem gapOnly_vmaRbGapRotate (rbOld rbNew : Ptr) (s : St σ η) :
    GapOnly s (vmaRbGapRotate rbOld rbNew s) :=
  (gapOnly_setGap _ _ _).trans (gapOnly_setGap _ _ _)

theorem gapOnly_of_propagate {stop : Ptr} (fuel : Nat) :
    ∀ {rb : Ptr} {s : St σ η}, vmaRbGapPropagate fuel rb stop s = some t → GapOnly s t := by
  induction fuel with
  | zero =>
      intro rb s h
      cases h
  | succ fuel ih =>
      intro rb s h
      rw [vmaRbGapPropagate] at h
      split at h
      · obtain rfl := Option.some.inj h
        exact .refl s
      · split at h
        · cases h
        · simp only at h
          split at h
          · obtain rfl := Option.some.inj h
            exact .refl s
          · exact (gapOnly_setGap _ _ _).trans (ih h)

/-! ## The rotations of `rb_insert` -/

/-- Case 2 paints the parent red, and the child that changes sides black. -/
theorem color_rbInsertRotateParent (d : Side) (node parent : Ptr) (s : St σ η) (q : Ptr) :
    (rbInsertRotateParent d node parent s).color q =
      if q = parent then .red
      else if s.child d node ≠ 0#64 ∧ q = s.child d node then .black else s.color q := by
  rw [rbInsertRotateParent, (gapOnly_vmaRbGapRotate _ _ _).color]
  by_cases htmp : s.child d node = 0#64 <;> simp [htmp]

/-- Case 3 swaps the colours of the parent and the grandparent, which was black above a red
node, and paints the child that changes sides black. -/
theorem color_rbInsertRotateGparent {d : Side} {parent gparent tmp : Ptr} (s : St σ η) (q : Ptr)
    (htmp : tmp ≠ 0#64 → tmp ≠ gparent ∧ tmp ≠ parent) :
    (rbInsertRotateGparent d parent gparent tmp s).color q =
      if q = gparent then .red else if q = parent then s.color gparent
      else if tmp ≠ 0#64 ∧ q = tmp then .black else s.color q := by
  rw [rbInsertRotateGparent, (gapOnly_vmaRbGapRotate _ _ _).color, rbRotateSetParents,
    (rbChangeChild_fields _ _ _ _).2.1]
  by_cases h0 : tmp = 0#64
  · simp [h0]
  · obtain ⟨hg, hp⟩ := htmp h0
    by_cases hq : q = tmp
    · subst hq
      simp [h0, hg, hp]
    · simp [h0, hq, Ne.symm hg]

/-! ## `rb_erase` -/

/-- Without a left child the right one takes over the colour. -/
theorem color_rbErase_noLeft {z reb : Ptr} (hl : s.child .left z = 0#64)
    (h : rbErase z s = some (reb, t)) (q : Ptr) : t.color q =
      if s.child .right z ≠ 0#64 ∧ q = s.child .right z then s.color z else s.color q := by
  have hz : z ≠ 0#64 := by
    rintro rfl
    simp [rbErase] at h
  simp only [rbErase, deref_of_ne _ hz, Option.bind_eq_bind, Option.bind_some, if_pos hl] at h
  obtain ⟨u, hu, heq⟩ := Option.bind_eq_some_iff.mp h
  obtain ⟨-, rfl⟩ := Prod.mk.inj (Option.some.inj heq)
  rw [(gapOnly_of_propagate _ hu).color]
  by_cases h0 : s.child .right z = 0#64
  · simp [h0, rbChangeChild_fields]
  · simp [h0, rbChangeChild_fields]

/-- Without a right child the left one takes over the colour. -/
theorem color_rbErase_noRight {z reb : Ptr} (hl : s.child .left z ≠ 0#64)
    (hr : s.child .right z = 0#64) (h : rbErase z s = some (reb, t)) (q : Ptr) :
    t.color q = if q = s.child .left z then s.color z else s.color q := by
  have hz : z ≠ 0#64 := by
    rintro rfl
    simp [rbErase] at h
  simp only [rbErase, deref_of_ne _ hz, Option.bind_eq_bind, Option.bind_some, if_neg hl,
    if_pos hr] at h
  obtain ⟨u, hu, heq⟩ := Option.bind_eq_some_iff.mp h
  obtain ⟨-, rfl⟩ := Prod.mk.inj (Option.some.inj heq)
  rw [(gapOnly_of_propagate _ hu).color]
  simp [rbChangeChild_fields]

@[simp] theorem color_rbSetParent (rb p : Ptr) (s : St σ η) (q : Ptr) :
    (rbSetParent rb p s).color q = s.color q := by
  by_cases hq : q = rb <;> simp [rbSetParent, hq]

/-- The successor takes over the colour, and a child it leaves behind is painted black. -/
theorem color_rbEraseReplace (z sc parent child₂ : Ptr) (s : St σ η) (q : Ptr) :
    (rbEraseReplace z sc parent child₂ s).2.color q =
      if child₂ ≠ 0#64 ∧ q = child₂ then .black
      else if q = sc then s.color z else s.color q := by
  by_cases h0 : child₂ = 0#64 <;> simp [rbEraseReplace, h0, rbChangeChild_fields]

/-- The successor is the right child. -/
theorem color_rbErase_succChild {z y reb : Ptr} (hl : s.child .left z ≠ 0#64)
    (hy : s.child .right z = y) (hy0 : y ≠ 0#64) (hyl : s.child .left y = 0#64)
    (h : rbErase z s = some (reb, t)) (q : Ptr) :
    t.color q = if s.child .right y ≠ 0#64 ∧ q = s.child .right y then .black
      else if q = y then s.color z else s.color q := by
  have hz : z ≠ 0#64 := by
    rintro rfl
    simp [rbErase] at h
  simp only [rbErase, deref_of_ne _ hz, Option.bind_eq_bind, Option.bind_some, if_neg hl, hy,
    if_neg hy0, if_pos hyl] at h
  obtain ⟨u, hu, heq⟩ := Option.bind_eq_some_iff.mp h
  obtain ⟨-, rfl⟩ := Prod.mk.inj (Option.some.inj heq)
  rw [(gapOnly_of_propagate _ hu).color, color_rbEraseReplace]
  simp [vmaRbGapCopy]

/-- The successor is leftmost below the right child. -/
theorem color_rbErase_leftmost {z y p sc reb : Ptr} (hl : s.child .left z ≠ 0#64)
    (hy : s.child .right z = y) (hy0 : y ≠ 0#64) (hyl : s.child .left y ≠ 0#64)
    (hrun : rbEraseLeftmost walkBound y (s.child .left y) s = some (p, sc))
    (h : rbErase z s = some (reb, t)) (q : Ptr) :
    t.color q = if s.child .right sc ≠ 0#64 ∧ q = s.child .right sc then .black
      else if q = sc then s.color z else s.color q := by
  have hz : z ≠ 0#64 := by
    rintro rfl
    simp [rbErase] at h
  simp only [rbErase, deref_of_ne _ hz, Option.bind_eq_bind, Option.bind_some, if_neg hl, hy,
    if_neg hy0, if_neg hyl, hrun] at h
  obtain ⟨u, hu, h⟩ := Option.bind_eq_some_iff.mp h
  obtain ⟨v, hv, heq⟩ := Option.bind_eq_some_iff.mp h
  obtain ⟨-, rfl⟩ := Prod.mk.inj (Option.some.inj heq)
  have hcol := (gapOnly_of_propagate _ hu).color
  rw [(gapOnly_of_propagate _ hv).color, color_rbEraseReplace, hcol, hcol]
  simp [vmaRbGapCopy]

end BufferVM
