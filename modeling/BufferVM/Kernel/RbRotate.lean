/-
  Kernel/RbRotate.lean --- the rotations of `rb_insert`.

  Each rotation is one lemma about the pieces it moves: the subtrees keep their
  shape, the pieces are hung together in the new order, and the two gaps that a
  rotation touches are exact again.
-/
import BufferVM.Kernel.RbColors

set_option autoImplicit false

namespace BufferVM

open PtrTree PtrTree.PTree

variable {σ η : Type} {s t u : St σ η}

/-! ## Reading through `vma_rb_gap_rotate` -/

theorem gap_vmaRbGapRotate {rbOld rbNew : Ptr} (s : St σ η) (q : Ptr) (h₁ : q ≠ rbOld)
    (h₂ : q ≠ rbNew) : (vmaRbGapRotate rbOld rbNew s).gap q = s.gap q := by
  simp [vmaRbGapRotate, h₁, h₂]

theorem gap_vmaRbGapRotate_new {rbOld rbNew : Ptr} (s : St σ η) (h : rbNew ≠ rbOld) :
    (vmaRbGapRotate rbOld rbNew s).gap rbNew = s.gap rbOld := by
  simp [vmaRbGapRotate, h]

/-- The rotated-down node stores the maximum over its new children. -/
theorem gapNat_vmaRbGapRotate_old {rbOld : Ptr} (rbNew : Ptr) (d : Side) {a b : PTree Ptr}
    (hbase : t.base = s.base) (hgap : ∀ q, t.gap q = s.gap q) (hne : rbNew ≠ rbOld)
    (ha : Shape t.rbLinks rbOld (t.child d rbOld) a)
    (hb : Shape t.rbLinks rbOld (t.child d.flip rbOld) b)
    (hna : rbNew ∉ a.toList) (hnb : rbNew ∉ b.toList)
    (hga : Aug s.own s.gapNat a) (hgb : Aug s.own s.gapNat b) :
    (vmaRbGapRotate rbOld rbNew t).gapNat rbOld =
      max (s.own rbOld) (max (sup s.own a.toList) (sup s.own b.toList)) := by
  let t₁ := t.setGap rbNew (t.gap rbOld)
  have hg : GapOnly t t₁ := gapOnly_setGap _ _ _
  have hown : t₁.own = s.own := St.own_of_base (hg.base.trans hbase)
  have keep : ∀ x : PTree Ptr, rbNew ∉ x.toList → Aug s.own s.gapNat x →
      Aug t₁.own t₁.gapNat x := by
    intro x hx hax
    rw [hown]
    refine hax.congr (fun _ _ => rfl) fun q hq => ?_
    have hq' : q ≠ rbNew := by rintro rfl; exact hx hq
    simp [t₁, St.gapNat, hq', hgap]
  have hval := toNat_vmaComputeSubtreeGap t₁ d rbOld
  have hlinks := hg.rbLinks
  rw [hg.child, hg.child, gapAt_eq_sup (hlinks ▸ ha) (keep a hna hga),
    gapAt_eq_sup (hlinks ▸ hb) (keep b hnb hgb), hown] at hval
  have : (vmaRbGapRotate rbOld rbNew t).gapNat rbOld =
      (vmaComputeSubtreeGap t₁ rbOld).toNat := by
    simp [vmaRbGapRotate, St.gapNat, t₁]
  rw [this, hval]

theorem gapNat_vmaRbGapRotate_apart {rbOld rbNew q : Ptr} (hgap : ∀ q, t.gap q = s.gap q)
    (h₁ : q ≠ rbOld) (h₂ : q ≠ rbNew) : (vmaRbGapRotate rbOld rbNew t).gapNat q = s.gapNat q := by
  rw [St.gapNat, gap_vmaRbGapRotate t q h₁ h₂, hgap, St.gapNat]

/-- Trees without the two nodes keep their stored gaps. -/
theorem aug_vmaRbGapRotate {rbOld rbNew : Ptr} {a : PTree Ptr} {own : Ptr → Nat}
    (hgap : ∀ q, t.gap q = s.gap q) (h₁ : rbOld ∉ a.toList) (h₂ : rbNew ∉ a.toList)
    (ha : Aug own s.gapNat a) : Aug own (vmaRbGapRotate rbOld rbNew t).gapNat a :=
  ha.congr (fun _ _ => rfl) fun q hq => gapNat_vmaRbGapRotate_apart hgap
    (by rintro rfl; exact h₁ hq) (by rintro rfl; exact h₂ hq)

/-! ## The rotations -/

/-- The links that a rotation writes: `down` hangs below `up`, with `tmp` in the place that `up`
had.  The link above the two nodes is not one of them. -/
structure Rotated (s t : St σ η) (d : Side) (up down tmp : Ptr) : Prop where
  child : ∀ e q, t.child e q = if q = up ∧ e = d.flip then down
    else if q = down ∧ e = d then tmp else s.child e q
  parent_down : t.parent down = up
  parent : ∀ q, q ≠ up → q ≠ down →
    t.parent q = if tmp ≠ 0#64 ∧ q = tmp then down else s.parent q
  gap : ∀ q, t.gap q = s.gap q
  base : t.base = s.base
  root : t.vmaRbRoot = s.vmaRbRoot

section Rotated

variable {d : Side} {up down tmp par p : Ptr} {b z : PTree Ptr} {c : Path Ptr}

/-- What a rotation leaves alone: neither one of its two nodes nor of the subtree that moves. -/
theorem Rotated.keep (h : Rotated s t d up down tmp) (hb : Shape s.rbLinks up tmp b) {q : Ptr}
    (h₁ : q ≠ up) (h₂ : q ≠ down) (h₃ : q ∉ b.toList) :
    (∀ e, t.child e q = s.child e q) ∧ t.parent q = s.parent q := by
  have htmp : ¬ (tmp ≠ 0#64 ∧ q = tmp) := by
    rintro ⟨h0, rfl⟩
    exact h₃ (hb.root_mem h0)
  exact ⟨fun e => by simp [h.child, h₁, h₂], by rw [h.parent q h₁ h₂, if_neg htmp]⟩

theorem Rotated.shape (h : Rotated s t d up down tmp) (hb : Shape s.rbLinks up tmp b)
    (hz : Shape s.rbLinks par p z) (hup : up ∉ z.toList) (hdown : down ∉ z.toList)
    (hdisj : ∀ q ∈ z.toList, q ∉ b.toList) : Shape t.rbLinks par p z := by
  have hq : ∀ q ∈ z.toList, (∀ e, t.child e q = s.child e q) ∧ t.parent q = s.parent q :=
    fun q hq => h.keep hb (by rintro rfl; exact hup hq) (by rintro rfl; exact hdown hq)
      (hdisj q hq)
  exact hz.frame rfl (fun q h e => (hq q h).1 e) fun q h => (hq q h).2

theorem Rotated.path (h : Rotated s t d up down tmp) (hb : Shape s.rbLinks up tmp b)
    (hc : PathShape s.rbLinks 0#64 s.vmaRbRoot c par p) (hup : up ∉ ptrs c) (hdown : down ∉ ptrs c)
    (hdisj : ∀ q ∈ b.toList, q ∉ ptrs c) : PathShape t.rbLinks 0#64 t.vmaRbRoot c par p := by
  have hq : ∀ q ∈ ptrs c, (∀ e, t.child e q = s.child e q) ∧ t.parent q = s.parent q :=
    fun q hq => h.keep hb (by rintro rfl; exact hup hq) (by rintro rfl; exact hdown hq)
      fun hqb => hdisj q hqb hq
  rw [h.root]
  exact hc.frame rfl (fun q h e => (hq q h).1 e) fun q h => (hq q h).2

/-- The subtree that changes sides hangs below `down`. -/
theorem Rotated.moved (h : Rotated s t d up down tmp) (hb : Shape s.rbLinks up tmp b)
    (hnd : b.toList.Nodup) (hup : up ∉ b.toList) (hdown : down ∉ b.toList) :
    Shape t.rbLinks down tmp b := by
  have hne : ∀ q ∈ b.toList, q ≠ up ∧ q ≠ down := fun q hq =>
    ⟨by rintro rfl; exact hup hq, by rintro rfl; exact hdown hq⟩
  refine hb.congr hnd rfl ?_ ?_ ?_
  · intro q hq e
    simp [h.child, hne q hq]
  · intro q hq hqt
    simp [h.parent q (hne q hq).1 (hne q hq).2, hqt]
  · intro h0
    have h0' : tmp ≠ 0#64 := h0
    have hmem := hb.root_mem h0
    simp [h.parent tmp (hne tmp hmem).1 (hne tmp hmem).2, h0']

end Rotated

/-- The rotation of case 2, which hangs the parent below the node on its side `d`. -/
theorem rbInsertRotateParent_links (d : Side) (node parent : Ptr) (s : St σ η) :
    ∃ u, rbInsertRotateParent d node parent s = vmaRbGapRotate parent node u ∧
      Rotated s u d.flip node parent (s.child d node) := by
  refine ⟨_, rfl, fun e q => ?_, ?_, fun q h₁ h₂ => ?_, fun q => ?_, ?_, ?_⟩
  all_goals by_cases htmp : s.child d node = 0#64
  all_goals simp [*]

/-- The rotation of case 3, and the link that led to the grandparent. -/
theorem rbInsertRotateGparent_links {d : Side} {parent gparent tmp : Ptr} (s : St σ η)
    (hne : parent ≠ gparent) (htmp : tmp ≠ 0#64 → gparent ≠ tmp) :
    ∃ u, rbInsertRotateGparent d parent gparent tmp s =
        vmaRbGapRotate gparent parent (rbChangeChild gparent parent (s.parent gparent) u) ∧
      Rotated s u d parent gparent tmp ∧ u.parent parent = s.parent gparent := by
  have habove : (if tmp ≠ 0#64 then
      ((s.setChild d gparent tmp).setChild d.flip parent gparent).setParentColor tmp gparent .black
      else (s.setChild d gparent tmp).setChild d.flip parent gparent).parent gparent =
        s.parent gparent := by
    by_cases h0 : tmp = 0#64
    · simp [h0]
    · simp [h0, htmp h0]
  refine ⟨_, by rw [rbInsertRotateGparent, rbRotateSetParents, habove],
    ⟨fun e q => ?_, ?_, fun q h₁ h₂ => ?_, fun q => ?_, ?_, ?_⟩, ?_⟩
  all_goals by_cases h0 : tmp = 0#64
  all_goals simp [*]

/-- Case 2: after the rotation the parent hangs below the node, on its side `d`. -/
theorem rbInsertRotateParent_spec {d : Side} {node parent : Ptr} {x y b : PTree Ptr}
    (hx : Shape s.rbLinks node (s.child d node) x)
    (hy : Shape s.rbLinks node (s.child d.flip node) y)
    (hb : Shape s.rbLinks parent (s.child d parent) b)
    (hparent : parent ≠ 0#64)
    (hnd : (join d (join d b parent x) node y).toList.Nodup) :
    let t := rbInsertRotateParent d node parent s
    (∃ p, p = t.child d node ∧ Shape t.rbLinks node p (join d b parent x)) ∧
    Shape t.rbLinks node (t.child d.flip node) y ∧ t.base = s.base ∧
    (∀ q ∉ (join d (join d b parent x) node y).toList,
      (∀ e, t.child e q = s.child e q) ∧ t.parent q = s.parent q ∧
        t.color q = s.color q ∧ t.gap q = s.gap q) ∧
    t.vmaRbRoot = s.vmaRbRoot ∧
    (Aug s.own s.gapNat x → Aug s.own s.gapNat y → Aug s.own s.gapNat b →
      Aug s.own t.gapNat (join d b parent x) ∧ Aug s.own t.gapNat y) := by
  intro t
  obtain ⟨hn1, hny, hjn, hynd, hjy⟩ := nodup_join.mp hnd
  obtain ⟨hpb, hpx, hbnd, hxnd, hbx⟩ := nodup_join.mp hjn
  simp only [mem_join, not_or] at hn1 hjy
  obtain ⟨hnp, hnb, hnx⟩ := hn1
  have hpy : parent ∉ y.toList := hjy parent (by simp)
  have hyx : ∀ q ∈ y.toList, q ∉ x.toList := fun q hq hqx => hjy q (by simp [hqx]) hq
  obtain ⟨u, ht, hrot⟩ := rbInsertRotateParent_links d node parent s
  -- the three subtrees keep their shape; `x` moves below `parent`
  have hxu : Shape u.rbLinks parent (s.child d node) x := hrot.moved hx hxnd hnx hpx
  have hbu : Shape u.rbLinks parent (s.child d parent) b := hrot.shape hx hb hnb hpb hbx
  have hyu : Shape u.rbLinks node (s.child d.flip node) y := hrot.shape hx hy hny hpy hyx
  have hpnode : parent ≠ node := fun h => hnp h.symm
  have hcd : u.child d parent = s.child d parent := by simp [hrot.child, hpnode]
  have hcf : u.child d.flip parent = s.child d node := by simp [hrot.child, hpnode]
  have hg := gapOnly_vmaRbGapRotate parent node u
  rw [← ht] at hg
  refine ⟨⟨_, rfl, ?_⟩, ?_, hg.base.trans hrot.base, ?_, hg.root.trans hrot.root, ?_⟩
  · rw [hg.rbLinks, hg.child, shape_join]
    simp only [St.rbLinks_null, St.rbLinks_child, St.rbLinks_parent, hcd, hcf]
    exact ⟨by simp [hrot.child], hparent, hrot.parent_down, hbu, hxu⟩
  · have hcn : u.child d.flip node = s.child d.flip node := by simp [hrot.child, hnp]
    rw [hg.rbLinks, hg.child, hcn]
    exact hyu
  · intro q hq
    simp only [mem_join, not_or] at hq
    obtain ⟨hq1, ⟨hq2, -, hq3⟩, -⟩ := hq
    have hkeep := hrot.keep hx hq1 hq2 hq3
    have hqtmp : ¬ (s.child d node ≠ 0#64 ∧ q = s.child d node) := by
      rintro ⟨h0, rfl⟩
      exact hq3 (hx.root_mem h0)
    refine ⟨fun e => (hg.child e q).trans (hkeep.1 e), (hg.parent q).trans hkeep.2, ?_, ?_⟩
    · rw [color_rbInsertRotateParent, if_neg hq2, if_neg hqtmp]
    · rw [show t = _ from ht, gap_vmaRbGapRotate u q hq2 hq1, hrot.gap]
  · intro hax hay hab
    have hval := gapNat_vmaRbGapRotate_old node d hrot.base hrot.gap hnp (hcd.symm ▸ hbu)
      (hcf.symm ▸ hxu) hnb hnx hab hax
    have settle : ∀ z : PTree Ptr, node ∉ z.toList → parent ∉ z.toList →
        Aug s.own s.gapNat z → Aug s.own t.gapNat z := by
      intro z h₁ h₂ hz
      rw [show t = _ from ht]
      exact aug_vmaRbGapRotate hrot.gap h₂ h₁ hz
    rw [← ht] at hval
    exact ⟨aug_join.mpr ⟨hval, settle b hnb hpb hab, settle x hnx hpx hax⟩,
      settle y hny hpy hay⟩

/-- What case 3 finds: the parent with the subtrees `a` and `b`, the grandparent with `w` on its
other side, and the path above the grandparent. -/
structure Outer (s : St σ η) (d : Side) (parent gparent tmp above : Ptr) (a b w : PTree Ptr)
    (c : Path Ptr) : Prop where
  outside : Shape s.rbLinks parent (s.child d parent) a
  inside : Shape s.rbLinks parent tmp b
  uncle : Shape s.rbLinks gparent (s.child d.flip gparent) w
  path : PathShape s.rbLinks 0#64 s.vmaRbRoot c above gparent
  above_eq : s.parent gparent = above
  parent_ne : parent ≠ 0#64
  gparent_ne : gparent ≠ 0#64
  nodup : (plug c (join d a parent (join d b gparent w))).toList.Nodup

/-- The store before the stored gaps change hands: the grandparent hangs below the parent, and
the parent from the path. -/
structure Hooked (s v : St σ η) (d : Side) (parent gparent above : Ptr) (a b w : PTree Ptr)
    (c : Path Ptr) : Prop where
  path : PathShape v.rbLinks 0#64 v.vmaRbRoot c above parent
  shape : Shape v.rbLinks above parent (join d a parent (join d b gparent w))
  inside : Shape v.rbLinks gparent (v.child d gparent) b
  uncle : Shape v.rbLinks gparent (v.child d.flip gparent) w
  gap : ∀ q, v.gap q = s.gap q
  base : v.base = s.base
  root : above ≠ 0#64 → v.vmaRbRoot = s.vmaRbRoot

section Outer

variable {d : Side} {parent gparent tmp above : Ptr} {a b w : PTree Ptr} {c : Path Ptr}

theorem Outer.parent_apart (h : Outer s d parent gparent tmp above a b w c) :
    parent ≠ gparent ∧ parent ∉ a.toList ∧ parent ∉ b.toList ∧ parent ∉ w.toList ∧
      parent ∉ ptrs c := by
  obtain ⟨hnj, -, hdisj⟩ := nodup_plug.mp h.nodup
  obtain ⟨hpa, hp1, -⟩ := nodup_join.mp hnj
  simp only [mem_join, not_or] at hp1 hdisj
  exact ⟨hp1.1, hpa, hp1.2.1, hp1.2.2, hdisj parent (Or.inl rfl)⟩

theorem Outer.gparent_apart (h : Outer s d parent gparent tmp above a b w c) :
    gparent ∉ a.toList ∧ gparent ∉ b.toList ∧ gparent ∉ w.toList ∧ gparent ∉ ptrs c := by
  obtain ⟨hnj, -, hdisj⟩ := nodup_plug.mp h.nodup
  obtain ⟨-, -, -, hgnd, hag⟩ := nodup_join.mp hnj
  obtain ⟨hgb, hgw, -⟩ := nodup_join.mp hgnd
  simp only [mem_join, not_or] at hag hdisj
  exact ⟨fun hmem => (hag gparent hmem).1 rfl, hgb, hgw,
    hdisj gparent (Or.inr (Or.inr (Or.inl rfl)))⟩

/-- The subtree that changes sides meets neither of the others nor the path. -/
theorem Outer.inside_apart (h : Outer s d parent gparent tmp above a b w c) :
    b.toList.Nodup ∧ (∀ q ∈ a.toList, q ∉ b.toList) ∧ (∀ q ∈ w.toList, q ∉ b.toList) ∧
      (∀ q ∈ b.toList, q ∉ ptrs c) ∧ (tmp ≠ 0#64 → tmp ≠ gparent ∧ tmp ≠ parent) := by
  obtain ⟨hnj, -, hdisj⟩ := nodup_plug.mp h.nodup
  obtain ⟨-, -, -, hgnd, hag⟩ := nodup_join.mp hnj
  obtain ⟨hgb, -, hbnd, -, hbw⟩ := nodup_join.mp hgnd
  obtain ⟨-, -, hpb, -⟩ := h.parent_apart
  simp only [mem_join, not_or] at hag hdisj
  exact ⟨hbnd, fun q hq => (hag q hq).2.1, fun q hq hqb => hbw q hqb hq,
    fun q hq => hdisj q (by simp [hq]), fun h0 =>
      ⟨fun heq => hgb (heq ▸ h.inside.root_mem h0), fun heq => hpb (heq ▸ h.inside.root_mem h0)⟩⟩

/-- Only the link from the path changes when the parent takes the place of the grandparent. -/
theorem Outer.below (h : Outer s d parent gparent tmp above a b w c) {u : St σ η} {q : Ptr}
    (e : Side) (hq : q ∉ ptrs c) (h0 : q ≠ 0#64) :
    (rbChangeChild gparent parent above u).child e q = u.child e q := by
  obtain ⟨-, -, -, -, hchild⟩ := rbChangeChild_fields gparent parent above u
  refine hchild e q fun heq => ?_
  cases c with
  | nil => exact h0 (heq.trans h.path.1)
  | cons f c => exact hq (by simp [heq, h.path.1])

/-- The three subtrees, between the rotation and the exchange of the gaps. -/
theorem Outer.subtrees (h : Outer s d parent gparent tmp above a b w c) {u : St σ η}
    (hrot : Rotated s u d parent gparent tmp) :
    Shape (rbChangeChild gparent parent above u).rbLinks parent (s.child d parent) a ∧
      Shape (rbChangeChild gparent parent above u).rbLinks gparent tmp b ∧
      Shape (rbChangeChild gparent parent above u).rbLinks gparent (s.child d.flip gparent) w := by
  obtain ⟨-, hpa, hpb, hpw, -⟩ := h.parent_apart
  obtain ⟨hga, hgb, hgw, -⟩ := h.gparent_apart
  obtain ⟨hbnd, hab, hwb, -⟩ := h.inside_apart
  obtain ⟨-, -, hdisj⟩ := nodup_plug.mp h.nodup
  simp only [mem_join] at hdisj
  obtain ⟨hparent, -⟩ := rbChangeChild_fields gparent parent above u
  -- below the path the links are those of `u`
  have down : ∀ (par p : Ptr) (z : PTree Ptr), (∀ q ∈ z.toList, q ∉ ptrs c) →
      Shape u.rbLinks par p z →
      Shape (rbChangeChild gparent parent above u).rbLinks par p z := fun par p z hz hshape =>
    hshape.frame rfl (fun q hq e => h.below e (hz q hq) (hshape.ne_null q hq)) fun q _ => hparent q
  exact ⟨down _ _ a (fun q hq => hdisj q (by simp [hq]))
      (hrot.shape h.inside h.outside hpa hga hab),
    down _ _ b (fun q hq => hdisj q (by simp [hq])) (hrot.moved h.inside hbnd hpb hgb),
    down _ _ w (fun q hq => hdisj q (by simp [hq])) (hrot.shape h.inside h.uncle hpw hgw hwb)⟩

/-- The rotation hangs the pieces together in their new order. -/
theorem Outer.hooked (h : Outer s d parent gparent tmp above a b w c) :
    ∃ v, rbInsertRotateGparent d parent gparent tmp s = vmaRbGapRotate gparent parent v ∧
      Hooked s v d parent gparent above a b w c := by
  obtain ⟨hpg, -, -, -, hpc⟩ := h.parent_apart
  obtain ⟨-, -, -, hgc⟩ := h.gparent_apart
  obtain ⟨-, -, -, hbc, htmp⟩ := h.inside_apart
  obtain ⟨u, ht, hrot, hup⟩ := rbInsertRotateGparent_links (d := d) s hpg fun h0 => (htmp h0).1.symm
  rw [h.above_eq] at ht hup
  have hcu := hrot.path h.inside h.path hpc hgc hbc
  obtain ⟨hav, hbv, hwv⟩ := h.subtrees hrot
  obtain ⟨hparent, -, hgap, hbase, -⟩ := rbChangeChild_fields gparent parent above u
  have hgp : gparent ≠ parent := fun heq => hpg heq.symm
  have hndc := (nodup_plug.mp h.nodup).2.1
  refine ⟨_, ht, ?_⟩
  have hgd : (rbChangeChild gparent parent above u).child d gparent = tmp := by
    rw [h.below d hgc h.gparent_ne, hrot.child]
    simp [hgp]
  have hgf : (rbChangeChild gparent parent above u).child d.flip gparent =
      s.child d.flip gparent := by
    rw [h.below d.flip hgc h.gparent_ne, hrot.child]
    simp [hgp]
  have hpd : (rbChangeChild gparent parent above u).child d parent = s.child d parent := by
    rw [h.below d hpc h.parent_ne, hrot.child]
    simp [hpg]
  have hpf : (rbChangeChild gparent parent above u).child d.flip parent = gparent := by
    rw [h.below d.flip hpc h.parent_ne, hrot.child]
    simp
  have hgv : Shape (rbChangeChild gparent parent above u).rbLinks parent gparent
      (join d b gparent w) := by
    refine shape_join.mpr ⟨rfl, h.gparent_ne, (hparent gparent).trans hrot.parent_down, ?_, ?_⟩
    · rw [St.rbLinks_child, hgd]
      exact hbv
    · rw [St.rbLinks_child, hgf]
      exact hwv
  refine ⟨rbChangeChild_path hcu h.gparent_ne hndc hgc,
    shape_join.mpr ⟨rfl, h.parent_ne, (hparent parent).trans hup, ?_, ?_⟩, hgd.symm ▸ hbv,
    hgf.symm ▸ hwv, fun q => (hgap q).trans (hrot.gap q), hbase.trans hrot.base, fun h0 => ?_⟩
  · rw [St.rbLinks_child, hpd]
    exact hav
  · rw [St.rbLinks_child, hpf]
    exact hgv
  · rw [← hrot.root]
    simp only [rbChangeChild, if_pos h0]
    split <;> rfl

/-- The root is painted only when it is the grandparent, and then the parent, which is the new
root, gets its colour. -/
theorem Outer.color_root (h : Outer s d parent gparent tmp above a b w c) {v : St σ η}
    (hv : Hooked s v d parent gparent above a b w c) :
    (rbInsertRotateGparent d parent gparent tmp s).color v.vmaRbRoot = s.color s.vmaRbRoot := by
  obtain ⟨hpg, -, -, -, hpc⟩ := h.parent_apart
  obtain ⟨-, -, -, hgc⟩ := h.gparent_apart
  obtain ⟨-, -, -, hbc, htmp⟩ := h.inside_apart
  rw [color_rbInsertRotateGparent s _ htmp]
  by_cases hcnil : c = []
  · subst hcnil
    rw [show v.vmaRbRoot = parent from hv.path.2.symm,
      show s.vmaRbRoot = gparent from h.path.2.symm, if_neg hpg, if_pos rfl]
  · -- the root is on the path above, which no rotation paints
    have hmem := h.path.top_mem hcnil
    have hrg : s.vmaRbRoot ≠ gparent := fun heq => hgc (heq ▸ hmem)
    have hrp : s.vmaRbRoot ≠ parent := fun heq => hpc (heq ▸ hmem)
    have hrt : ¬ (tmp ≠ 0#64 ∧ s.vmaRbRoot = tmp) := fun ht =>
      hbc _ (h.inside.root_mem ht.1) (ht.2 ▸ hmem)
    rw [hv.root fun h0 => hcnil (h.path.par_eq.mp h0), if_neg hrg, if_neg hrp, if_neg hrt]

/-- The parent takes over the gap of the grandparent, whose own is computed again. -/
theorem Outer.aug (h : Outer s d parent gparent tmp above a b w c) {v : St σ η}
    (hv : Hooked s v d parent gparent above a b w c) (haa : Aug s.own s.gapNat a)
    (hab : Aug s.own s.gapNat b) (haw : Aug s.own s.gapNat w)
    (htop : s.gapNat gparent = sup s.own (join d a parent (join d b gparent w)).toList)
    (hpath : AugPath s.own s.gapNat c (s.gapNat gparent)) :
    Aug s.own (vmaRbGapRotate gparent parent v).gapNat
      (plug c (join d a parent (join d b gparent w))) := by
  obtain ⟨hpg, hpa, hpb, hpw, hpc⟩ := h.parent_apart
  obtain ⟨hga, hgb, hgw, hgc⟩ := h.gparent_apart
  have hgval := gapNat_vmaRbGapRotate_old parent d hv.base hv.gap hpg hv.inside hv.uncle hpb hpw
    hab haw
  have hpval : (vmaRbGapRotate gparent parent v).gapNat parent = s.gapNat gparent := by
    rw [St.gapNat, gap_vmaRbGapRotate_new v hpg, hv.gap, St.gapNat]
  refine aug_plug.mpr ⟨aug_join.mpr ⟨?_, aug_vmaRbGapRotate hv.gap hga hpa haa, aug_join.mpr
    ⟨hgval, aug_vmaRbGapRotate hv.gap hgb hpb hab, aug_vmaRbGapRotate hv.gap hgw hpw haw⟩⟩, ?_⟩
  · rw [hpval, htop, sup_join]
  · rw [← htop]
    exact hpath.congr (fun _ _ => rfl) fun q hq => gapNat_vmaRbGapRotate_apart hv.gap
      (by rintro rfl; exact hgc hq) (by rintro rfl; exact hpc hq)

/-- Case 3: after the rotation the grandparent hangs below the parent, and the
parent is in its place. -/
theorem rbInsertRotateGparent_spec (h : Outer s d parent gparent tmp above a b w c) :
    let t := rbInsertRotateGparent d parent gparent tmp s
    Shape t.rbLinks 0#64 t.vmaRbRoot (plug c (join d a parent (join d b gparent w))) ∧
    t.base = s.base ∧
    t.color t.vmaRbRoot = s.color s.vmaRbRoot ∧
    (Aug s.own s.gapNat a → Aug s.own s.gapNat b → Aug s.own s.gapNat w →
      s.gapNat gparent = sup s.own (join d a parent (join d b gparent w)).toList →
      AugPath s.own s.gapNat c (s.gapNat gparent) →
      Aug s.own t.gapNat (plug c (join d a parent (join d b gparent w)))) := by
  intro t
  obtain ⟨v, ht, hv⟩ := h.hooked
  have hg := gapOnly_vmaRbGapRotate gparent parent v
  rw [← ht] at hg
  refine ⟨?_, hg.base.trans hv.base, ?_, fun haa hab haw htop hpath => ?_⟩
  · rw [hg.rbLinks, hg.root]
    exact shape_plug.mpr ⟨_, _, hv.path, hv.shape⟩
  · rw [hg.root]
    exact h.color_root hv
  · rw [show t = _ from ht]
    exact h.aug hv haa hab haw htop hpath

end Outer

end BufferVM
