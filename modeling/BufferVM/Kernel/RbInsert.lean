/-
  Kernel/RbInsert.lean --- `rb_insert` keeps the tree.

  `rbInsertLoop_spec` follows the loop up the path; what it needs of the colours is
  only that the root is black, so that a red parent has a parent of its own.
-/
import BufferVM.Kernel.RbRotate

set_option autoImplicit false

namespace BufferVM

open PtrTree PtrTree.PTree

variable {σ η : Type} {s t u : St σ η}

/-! ## The loop -/

/-- The loop stands at `node`, the root of `a` at the end of the path `c`. -/
structure AtNode (s : St σ η) (c : Path Ptr) (node par : Ptr) (a : PTree Ptr) : Prop where
  path : PathShape s.rbLinks 0#64 s.vmaRbRoot c par node
  shape : Shape s.rbLinks par node a
  ne : node ≠ 0#64
  nodup : (plug c a).toList.Nodup
  black : c ≠ [] → s.color s.vmaRbRoot = .black

/-- The store `t` has the tree `b` instead of `a`: the same nodes in the same
order, a black root, exact gaps if they were, and nothing else changed. -/
structure Rebuilt (s t : St σ η) (a b : PTree Ptr) : Prop where
  shape : Shape t.rbLinks 0#64 t.vmaRbRoot b
  list : b.toList = a.toList
  base : t.base = s.base
  black : t.color t.vmaRbRoot = .black
  aug : Aug s.own s.gapNat a → Aug s.own t.gapNat b

/-- What the loop knows two frames below the root. -/
structure Grandparent (s : St σ η) (f g : Frame Ptr) (c : Path Ptr) (a : PTree Ptr) : Prop where
  ne : g.ptr ≠ 0#64
  parent_ne : f.ptr ≠ 0#64
  parent_eq : s.parent f.ptr = g.ptr
  sib : Shape s.rbLinks f.ptr (s.child f.side.flip f.ptr) f.sib
  uncle : Shape s.rbLinks g.ptr (s.child g.side.flip g.ptr) g.sib
  hole : s.child g.side g.ptr = f.ptr
  rest : PathShape s.rbLinks 0#64 s.vmaRbRoot c (s.parent g.ptr) g.ptr
  nodup : (join g.side (join f.side a f.ptr f.sib) g.ptr g.sib).toList.Nodup
  disj : ∀ q ∈ (join g.side (join f.side a f.ptr f.sib) g.ptr g.sib).toList, q ∉ ptrs c

theorem AtNode.grandparent {f g : Frame Ptr} {c : Path Ptr} {node par : Ptr} {a : PTree Ptr}
    (h : AtNode s (f :: g :: c) node par a) : Grandparent s f g c a := by
  obtain ⟨-, hf0, -, hsib, hpar, hg0, hhole, huncle, hrest⟩ := h.path
  have hnd := h.nodup
  rw [plug, plug] at hnd
  obtain ⟨hj, -, hdisj⟩ := nodup_plug.mp hnd
  exact ⟨hg0, hf0, hpar, hsib, huncle, hhole, hrest, hj, hdisj⟩

/-- The stored gaps around the two frames. -/
theorem aug_two_frames {f g : Frame Ptr} {c : Path Ptr} {a : PTree Ptr}
    (h : Aug s.own s.gapNat (plug (f :: g :: c) a)) :
    Aug s.own s.gapNat a ∧ Aug s.own s.gapNat f.sib ∧ Aug s.own s.gapNat g.sib ∧
      s.gapNat g.ptr = sup s.own (join g.side (join f.side a f.ptr f.sib) g.ptr g.sib).toList ∧
      AugPath s.own s.gapNat c (s.gapNat g.ptr) := by
  obtain ⟨h1, h2, h3, h4, h5, h6⟩ := aug_plug.mp h
  exact ⟨h1, h3, h5, by rw [h4, h2, sup_join, sup_join], h6⟩

theorem sup_eq_of_toList_eq {own : Ptr → Nat} {a b : PTree Ptr} (h : a.toList = b.toList) :
    sup own a.toList = sup own b.toList := by rw [h]

/-- Case 3 alone: the node hangs on the outside. -/
theorem rbInsert_outside {f g : Frame Ptr} {c : Path Ptr} {node par : Ptr} {a : PTree Ptr}
    (h : AtNode s (f :: g :: c) node par a) (hside : f.side = g.side) :
    Rebuilt s (rbInsertRotateGparent g.side f.ptr g.ptr (s.child g.side.flip f.ptr) s)
      (plug (f :: g :: c) a) (plug c (join g.side a f.ptr (join g.side f.sib g.ptr g.sib))) := by
  have hG := h.grandparent
  have hhole : s.child f.side f.ptr = node := h.path.2.2.1
  have hshape : Shape s.rbLinks f.ptr node a := h.path.1 ▸ h.shape
  have hlist : (join g.side a f.ptr (join g.side f.sib g.ptr g.sib)).toList =
      (join g.side (join f.side a f.ptr f.sib) g.ptr g.sib).toList := by
    rw [hside]
    cases g.side <;> simp [join]
  have hplug : (plug c (join g.side a f.ptr (join g.side f.sib g.ptr g.sib))).toList =
      (plug (f :: g :: c) a).toList := by
    rw [plug, plug, toList_plug, toList_plug, hlist]
  obtain ⟨h1, h2, h3, h4⟩ := rbInsertRotateGparent_spec (a := a) (b := f.sib) (w := g.sib)
    ⟨by rw [← hside, hhole]; exact hshape,
      show Shape s.rbLinks f.ptr (s.child g.side.flip f.ptr) f.sib by rw [← hside]; exact hG.sib,
      hG.uncle, hG.rest, rfl, hG.parent_ne, hG.ne, by rw [hplug]; exact h.nodup⟩
  refine ⟨h1, hplug, h2, h3.trans (h.black (by simp)), fun haug => ?_⟩
  obtain ⟨ha, hf, hg, hgap, hup⟩ := aug_two_frames haug
  exact h4 ha hf hg (hgap.trans (sup_eq_of_toList_eq hlist).symm) hup

/-- The two rotations of case 2 and case 3 leave the order as it is. -/
theorem toList_inside {f g : Frame Ptr} (node : Ptr) (x y : PTree Ptr)
    (hside : f.side = g.side.flip) :
    (join g.side (join g.side f.sib f.ptr x) node (join g.side y g.ptr g.sib)).toList =
      (join g.side (join f.side (join g.side x node y) f.ptr f.sib) g.ptr g.sib).toList := by
  rw [hside]
  cases g.side <;> simp [join, Side.flip]

/-- Neither the grandparent, nor what hangs below it on the other side, nor the path above is
among the nodes that the first rotation of case 2 moves. -/
theorem AtNode.apart_inside {f g : Frame Ptr} {c : Path Ptr} {node par : Ptr} {x y : PTree Ptr}
    (h : AtNode s (f :: g :: c) node par (join g.side x node y)) (hside : f.side = g.side.flip) :
    (join g.side (join g.side f.sib f.ptr x) node y).toList.Nodup ∧
      ∀ q, q = g.ptr ∨ q ∈ g.sib.toList ∨ q ∈ ptrs c →
        q ∉ (join g.side (join g.side f.sib f.ptr x) node y).toList := by
  have hG := h.grandparent
  have hlist := toList_inside node x y hside
  have hndT : (join g.side (join g.side f.sib f.ptr x) node
      (join g.side y g.ptr g.sib)).toList.Nodup := by rw [hlist]; exact hG.nodup
  obtain ⟨h1, h2, h3, h4, h5⟩ := nodup_join.mp hndT
  obtain ⟨h6, h7, h8, h9, h10⟩ := nodup_join.mp h4
  simp only [mem_join, not_or] at h2
  have h5' : ∀ q ∈ (join g.side f.sib f.ptr x).toList,
      q ≠ g.ptr ∧ q ∉ y.toList ∧ q ∉ g.sib.toList := by
    intro q hq
    simpa only [mem_join, not_or] using h5 q hq
  refine ⟨nodup_join.mpr ⟨h1, h2.2.1, h3, h8, fun q hq => (h5' q hq).2.1⟩, fun q hq hmem => ?_⟩
  rw [mem_join] at hmem
  rcases hq with rfl | hq | hq
  · rcases hmem with rfl | hm | hm
    · exact h2.1 rfl
    · exact (h5' _ hm).1 rfl
    · exact h6 hm
  · rcases hmem with rfl | hm | hm
    · exact h2.2.2 hq
    · exact (h5' _ hm).2.2 hq
    · exact h10 _ hm hq
  · refine hG.disj q ?_ hq
    rw [← hlist, mem_join, mem_join (t := y)]
    tauto

/-- Case 2 and then case 3: the node hangs on the inside. -/
theorem rbInsert_inside {f g : Frame Ptr} {c : Path Ptr} {node par : Ptr} {x y : PTree Ptr}
    (h : AtNode s (f :: g :: c) node par (join g.side x node y)) (hside : f.side = g.side.flip) :
    let s₁ := rbInsertRotateParent g.side node f.ptr s
    Rebuilt s (rbInsertRotateGparent g.side node g.ptr (s₁.child g.side.flip node) s₁)
      (plug (f :: g :: c) (join g.side x node y))
      (plug c (join g.side (join g.side f.sib f.ptr x) node (join g.side y g.ptr g.sib))) := by
  intro s₁
  have hG := h.grandparent
  obtain ⟨-, -, -, hx, hy⟩ := shape_join.mp h.shape
  have hlist := toList_inside node x y hside
  have hplug : (plug c (join g.side (join g.side f.sib f.ptr x) node
      (join g.side y g.ptr g.sib))).toList = (plug (f :: g :: c)
      (join g.side x node y)).toList := by
    rw [plug, plug, toList_plug, toList_plug, hlist]
  obtain ⟨hnd, hout⟩ := h.apart_inside hside
  obtain ⟨⟨p, rfl, hnew⟩, hy', hbase', hrest', hroot', haug'⟩ :=
    rbInsertRotateParent_spec (s := s) (b := f.sib) hx hy
      (by have := hG.sib; rw [hside, Side.flip_flip] at this; exact this) hG.parent_ne hnd
  change Shape s₁.rbLinks _ (s₁.child g.side node) _ at hnew
  change Shape s₁.rbLinks _ (s₁.child g.side.flip node) _ at hy'
  -- nothing outside the rotated pair has moved
  have hkeep : ∀ q, q = g.ptr ∨ q ∈ g.sib.toList ∨ q ∈ ptrs c →
      (∀ e, s₁.child e q = s.child e q) ∧ s₁.parent q = s.parent q ∧
        s₁.color q = s.color q ∧ s₁.gap q = s.gap q := fun q hq => hrest' q (hout q hq)
  have hg := hkeep g.ptr (Or.inl rfl)
  obtain ⟨k1, k2, k3, k4⟩ := rbInsertRotateGparent_spec (s := s₁)
    (a := join g.side f.sib f.ptr x) (b := y) (w := g.sib) (c := c)
    ⟨hnew, hy', by
      rw [hg.1]
      exact hG.uncle.frame rfl (fun q hq e => (hkeep q (Or.inr (Or.inl hq))).1 e)
        (fun q hq => (hkeep q (Or.inr (Or.inl hq))).2.1), by
      rw [show s₁.vmaRbRoot = s.vmaRbRoot from hroot']
      exact hG.rest.frame rfl (fun q hq e => (hkeep q (Or.inr (Or.inr hq))).1 e)
        (fun q hq => (hkeep q (Or.inr (Or.inr hq))).2.1),
      hg.2.1, h.ne, hG.ne, by rw [hplug]; exact h.nodup⟩
  refine ⟨k1, hplug, k2.trans hbase', ?_, fun haug => ?_⟩
  · have hroot : s.vmaRbRoot = g.ptr ∨ s.vmaRbRoot ∈ g.sib.toList ∨ s.vmaRbRoot ∈ ptrs c := by
      by_cases hc : c = []
      · subst hc; exact Or.inl hG.rest.2.symm
      · exact Or.inr (Or.inr (hG.rest.top_mem hc))
    rw [k3, show s₁.vmaRbRoot = s.vmaRbRoot from hroot', (hkeep _ hroot).2.2.1]
    exact h.black (by simp)
  · obtain ⟨ha, hf, hu, hgap, hup⟩ := aug_two_frames haug
    obtain ⟨-, hax, hay⟩ := aug_join.mp ha
    obtain ⟨h11, h12⟩ := haug' hax hay hf
    rw [show s₁.own = s.own from St.own_of_base hbase'] at k4
    have stored : ∀ q, q = g.ptr ∨ q ∈ g.sib.toList ∨ q ∈ ptrs c →
        s₁.gapNat q = s.gapNat q := fun q hq => by
      rw [St.gapNat, (hkeep q hq).2.2.2, St.gapNat]
    refine k4 h11 h12 ?_ ?_ ?_
    · exact hu.congr (fun _ _ => rfl) fun q hq => stored q (Or.inr (Or.inl hq))
    · rw [stored _ (Or.inl rfl), hgap, sup_eq_of_toList_eq hlist]
    · rw [stored _ (Or.inl rfl)]
      exact hup.congr (fun _ _ => rfl) fun q hq => stored q (Or.inr (Or.inr hq))

/-- Case 1: only colours change, and the loop goes on at the grandparent. -/
theorem rbInsert_flip {f g : Frame Ptr} {c : Path Ptr} {node par tmp : Ptr} {a : PTree Ptr}
    (h : AtNode s (f :: g :: c) node par a) (htmp : s.child g.side.flip g.ptr = tmp)
    (htmp0 : tmp ≠ 0#64) :
    let s₁ := (s.setParentColor tmp g.ptr .black).setParentColor f.ptr g.ptr .black
    let s₂ := s₁.setParentColor g.ptr (s₁.parent g.ptr) .red
    s₁.parent g.ptr = s.parent g.ptr ∧ s₂.base = s.base ∧ (∀ q, s₂.gap q = s.gap q) ∧
    AtNode s₂ c g.ptr (s.parent g.ptr) (join g.side (join f.side a f.ptr f.sib) g.ptr g.sib) := by
  intro s₁ s₂
  have hG := h.grandparent
  obtain ⟨hgp, hgu, -, -, hpu⟩ := nodup_join.mp hG.nodup
  have huncle := hG.uncle
  rw [htmp] at huncle
  have htmpmem : tmp ∈ g.sib.toList := huncle.root_mem htmp0
  have hfg : f.ptr ≠ g.ptr := by rintro h; exact hgp (by simp [h])
  have htf : tmp ≠ f.ptr := by rintro rfl; exact hpu f.ptr (by simp) htmpmem
  have htg : tmp ≠ g.ptr := by rintro rfl; exact hgu htmpmem
  have htpar : s.parent tmp = g.ptr := by
    obtain ⟨_, _, -, h', -⟩ := huncle.exists_join .left htmp0
    exact h'
  have habove : s₁.parent g.ptr = s.parent g.ptr := by
    simp [s₁, htg.symm, hfg.symm]
  -- the parents written are those already there
  have hlinks : s₂.rbLinks = s.rbLinks := by
    unfold St.rbLinks
    congr 1
    · funext e q; simp [s₂, s₁]
    · funext q
      simp only [s₂, St.parent_setParentColor, habove]
      by_cases h1 : q = g.ptr
      · simp [h1]
      · by_cases h2 : q = f.ptr
        · subst h2
          simpa [s₁, h1] using hG.parent_eq.symm
        · by_cases h3 : q = tmp
          · subst h3
            simp [s₁, h1, h2, htpar]
          · simp [s₁, h1, h2, h3]
  refine ⟨habove, by simp [s₂, s₁], fun q => by simp [s₂, s₁], ?_, ?_, hG.ne, ?_, ?_⟩
  · rw [hlinks]; exact hG.rest
  · rw [hlinks]
    refine shape_join.mpr ⟨rfl, hG.ne, rfl, ?_, hG.uncle⟩
    rw [St.rbLinks_child, hG.hole]
    refine shape_join.mpr ⟨rfl, hG.parent_ne, hG.parent_eq, ?_, hG.sib⟩
    have hhole : s.child f.side f.ptr = node := h.path.2.2.1
    rw [St.rbLinks_child, hhole]
    exact h.path.1 ▸ h.shape
  · have hnd := h.nodup
    rw [plug, plug] at hnd
    exact hnd
  · intro hc
    have hmem := hG.rest.top_mem hc
    have h1 : s.vmaRbRoot ≠ g.ptr := fun h' => hG.disj g.ptr (by simp) (h' ▸ hmem)
    have hblack := h.black (by simp)
    simp only [s₂, s₁, St.root_setParentColor, St.color_setParentColor, if_neg h1, hblack]
    split
    · rfl
    · split <;> rfl

/-- The loop body, once the grandparent and the side are known. -/
theorem rbInsertLoop_body {f g : Frame Ptr} {c : Path Ptr} {node par : Ptr} {a : PTree Ptr}
    (fuel : Nat) (h : AtNode s (f :: g :: c) node par a) (hred : s.color f.ptr = .red) :
    rbInsertLoop (fuel + 1) node par s =
      (let tmp := s.child g.side.flip g.ptr
       if tmp ≠ 0#64 ∧ s.color tmp = .red then
         let s := s.setParentColor tmp g.ptr .black
         let s := s.setParentColor f.ptr g.ptr .black
         let above := s.parent g.ptr
         rbInsertLoop fuel g.ptr above (s.setParentColor g.ptr above .red)
       else if node = s.child g.side.flip f.ptr then
         let s := rbInsertRotateParent g.side node f.ptr s
         some (rbInsertRotateGparent g.side node g.ptr (s.child g.side.flip node) s)
       else
         some (rbInsertRotateGparent g.side f.ptr g.ptr (s.child g.side.flip f.ptr) s)) := by
  have hG := h.grandparent
  obtain ⟨-, -, -, -, hpu⟩ := nodup_join.mp hG.nodup
  have hside : (if f.ptr ≠ s.child .right g.ptr then Side.left else Side.right) = g.side := by
    have hhole := hG.hole
    have huncle := hG.uncle
    cases hs : g.side with
    | left =>
        rw [hs, Side.flip] at huncle
        have hne : f.ptr ≠ s.child .right g.ptr := by
          intro heq
          rw [← heq] at huncle
          exact hpu f.ptr (by simp) (huncle.root_mem hG.parent_ne)
        rw [if_pos hne]
    | right =>
        rw [hs] at hhole
        rw [if_neg (fun hne => hne hhole.symm)]
  have hgp : rbRedParent s f.ptr = some g.ptr := by
    simp [rbRedParent, hG.parent_ne, hred, hG.parent_eq]
  have hnb : ¬ s.color f.ptr = .black := by rw [hred]; decide
  rw [h.path.1, rbInsertLoop, if_neg hG.parent_ne, if_neg hnb]
  simp only [hgp, deref_of_ne _ hG.ne, deref_of_ne _ h.ne, Option.bind_eq_bind,
    Option.bind_some, hside]

/-! ## Colours -/

/-- The tree is red-black but for the red node, whose parent may be red too. -/
structure RedNode (s : St σ η) (c : Path Ptr) (node : Ptr) (a : PTree Ptr) : Prop where
  red : s.color node = .red
  balanced : ∃ n, Balanced s.red a n ∧ BalancedPath s.red c n

theorem color_of_blackRoot {par p : Ptr} {a : PTree Ptr} (hs : Shape s.rbLinks par p a)
    (hp : p ≠ 0#64) (h : BlackRoot s.red a) : s.color p = .black := by
  obtain ⟨l, r, rfl, -⟩ := hs.exists_join .left hp
  exact St.red_eq_false.mp (blackRoot_join.mp h)

theorem blackRoot_of_shape {par p : Ptr} {a : PTree Ptr} (hs : Shape s.rbLinks par p a)
    (h : ¬ (p ≠ 0#64 ∧ s.color p = .red)) : BlackRoot s.red a := by
  by_cases hp : p = 0#64
  · rw [hs.eq_leaf hp]
    trivial
  · obtain ⟨l, r, rfl, -⟩ := hs.exists_join .left hp
    refine blackRoot_join.mpr (St.red_eq_false.mpr ?_)
    cases hcol : s.color p with
    | red => exact absurd ⟨hp, hcol⟩ h
    | black => rfl

/-- The pieces around the two frames have no node in common. -/
theorem AtNode.apart {f g : Frame Ptr} {c : Path Ptr} {node par : Ptr} {a : PTree Ptr}
    (h : AtNode s (f :: g :: c) node par a) :
    f.ptr ≠ g.ptr ∧ ∀ q, q ∈ a.toList ∨ q ∈ f.sib.toList ∨ q ∈ g.sib.toList ∨ q ∈ ptrs c →
      q ≠ f.ptr ∧ q ≠ g.ptr ∧ (q ∉ a.toList → q ≠ node) ∧
      (q ∈ f.sib.toList ∨ q ∈ g.sib.toList ∨ q ∈ ptrs c → q ∉ a.toList) ∧
      (q ∈ g.sib.toList ∨ q ∈ ptrs c → q ∉ f.sib.toList) := by
  have hG := h.grandparent
  obtain ⟨hgj, hgu, hndj, -, hju⟩ := nodup_join.mp hG.nodup
  obtain ⟨hfa, hfs, -, -, has⟩ := nodup_join.mp hndj
  have hc := hG.disj
  simp only [mem_join, not_or] at hgj hju hc
  have hnode := h.shape.root_mem h.ne
  refine ⟨fun hfg => hgj.1 hfg.symm, fun q hq => ?_⟩
  have hout : q ∈ f.sib.toList ∨ q ∈ g.sib.toList ∨ q ∈ ptrs c → q ∉ a.toList := by
    rintro (hq | hq | hq) hqa
    · exact has q hqa hq
    · exact hju q (Or.inr (Or.inl hqa)) hq
    · exact hc q (Or.inr (Or.inl (Or.inr (Or.inl hqa)))) hq
  have hsib : q ∈ g.sib.toList ∨ q ∈ ptrs c → q ∉ f.sib.toList := by
    rintro (hq | hq) hqs
    · exact hju q (Or.inr (Or.inr hqs)) hq
    · exact hc q (Or.inr (Or.inl (Or.inr (Or.inr hqs)))) hq
  refine ⟨?_, ?_, fun hqa heq => hqa (heq ▸ hnode), hout, hsib⟩
  · rintro rfl
    rcases hq with hq | hq | hq | hq
    · exact hfa hq
    · exact hfs hq
    · exact hju f.ptr (Or.inl rfl) hq
    · exact hc f.ptr (Or.inr (Or.inl (Or.inl rfl))) hq
  · rintro rfl
    rcases hq with hq | hq | hq | hq
    · exact hgj.2.1 hq
    · exact hgj.2.2 hq
    · exact hgu hq
    · exact hc g.ptr (Or.inl rfl) hq

/-- Case 1 moves the red node two frames up. -/
theorem rbInsert_flip_redNode {f g : Frame Ptr} {c : Path Ptr} {node par : Ptr} {a : PTree Ptr}
    (h : AtNode s (f :: g :: c) node par a) (hred : s.color f.ptr = .red)
    (hflip : s.child g.side.flip g.ptr ≠ 0#64 ∧ s.color (s.child g.side.flip g.ptr) = .red)
    (hn : RedNode s (f :: g :: c) node a) (above : Ptr) :
    RedNode (((s.setParentColor (s.child g.side.flip g.ptr) g.ptr .black).setParentColor f.ptr
      g.ptr .black).setParentColor g.ptr above .red) c g.ptr
        (join g.side (join f.side a f.ptr f.sib) g.ptr g.sib) := by
  obtain ⟨htmp0, htmpred⟩ := hflip
  generalize htmp : s.child g.side.flip g.ptr = tmp at htmp0 htmpred ⊢
  have hG := h.grandparent
  obtain ⟨hfg, hapart⟩ := h.apart
  have huncle := hG.uncle
  rw [htmp] at huncle
  have htmpmem : tmp ∈ g.sib.toList := huncle.root_mem htmp0
  obtain ⟨htf, htg, -⟩ := hapart tmp (Or.inr (Or.inr (Or.inl htmpmem)))
  obtain ⟨lu, ru, hsib, -⟩ := huncle.exists_join .left htmp0
  have hnd : g.sib.toList.Nodup := (nodup_join.mp hG.nodup).2.2.2.1
  rw [hsib] at hnd
  obtain ⟨htl, htr, -⟩ := nodup_join.mp hnd
  generalize ht : ((s.setParentColor tmp g.ptr .black).setParentColor f.ptr g.ptr
    .black).setParentColor g.ptr above .red = t
  have hcol : ∀ q, t.color q = if q = g.ptr then .red else if q = f.ptr then .black
      else if q = tmp then .black else s.color q := by
    intro q
    rw [← ht]
    simp
  have hsame : ∀ q, q ≠ f.ptr → q ≠ g.ptr → q ≠ tmp → t.red q = s.red q := fun q h1 h2 h3 =>
    St.red_of_color (by rw [hcol, if_neg h2, if_neg h1, if_neg h3])
  have heq : ∀ q, q ∈ a.toList ∨ q ∈ f.sib.toList ∨ q ∈ lu.toList ∨ q ∈ ru.toList ∨
      q ∈ ptrs c → t.red q = s.red q := by
    intro q hq
    have hmem : q ∈ a.toList ∨ q ∈ f.sib.toList ∨ q ∈ g.sib.toList ∨ q ∈ ptrs c := by
      rw [hsib, mem_join]
      tauto
    obtain ⟨hqf, hqg, -⟩ := hapart q hmem
    obtain ⟨-, -, -, hta, hts⟩ := hapart tmp (Or.inr (Or.inr (Or.inl htmpmem)))
    refine hsame q hqf hqg ?_
    rintro rfl
    rcases hq with hq | hq | hq | hq | hq
    · exact hta (Or.inr (Or.inl htmpmem)) hq
    · exact hts (Or.inl htmpmem) hq
    · exact htl hq
    · exact htr hq
    · exact hG.disj q (by simp [htmpmem]) hq
  obtain ⟨-, n, ha, hc⟩ := hn
  obtain ⟨hbal, hpath⟩ := ha.flip hc (St.red_eq_true.mpr hred) hsib (St.red_eq_true.mpr htmpred)
    (St.red_eq_false.mpr (by rw [hcol, if_neg hfg, if_pos rfl]))
    (St.red_eq_false.mpr (by rw [hcol, if_neg htg, if_neg htf, if_pos rfl]))
    (St.red_eq_true.mpr (by rw [hcol, if_pos rfl])) heq
  exact ⟨by rw [hcol, if_pos rfl], n + 1, hbal, hpath⟩

/-- Case 3 alone ends with a red-black tree. -/
theorem rbInsert_outside_redBlack {f g : Frame Ptr} {c : Path Ptr} {node par : Ptr}
    {a : PTree Ptr} (h : AtNode s (f :: g :: c) node par a) (hside : f.side = g.side)
    (hred : s.color f.ptr = .red) (huncle : BlackRoot s.red g.sib)
    (hn : RedNode s (f :: g :: c) node a) :
    RedBlack (rbInsertRotateGparent g.side f.ptr g.ptr (s.child g.side.flip f.ptr) s).red
      (plug c (join g.side a f.ptr (join g.side f.sib g.ptr g.sib))) := by
  have hG := h.grandparent
  obtain ⟨hfg, hapart⟩ := h.apart
  obtain ⟨-, n, ha, hc⟩ := hn
  have hredf := St.red_eq_true.mpr hred
  obtain ⟨-, hsibroot, hgblack, -, -⟩ := hc.red_frame hredf
  generalize htmp : s.child g.side.flip f.ptr = tmp
  have hsib : Shape s.rbLinks f.ptr tmp f.sib := by
    rw [← htmp, ← hside]
    exact hG.sib
  have htmpne : tmp ≠ 0#64 → tmp ≠ g.ptr ∧ tmp ≠ f.ptr := by
    intro h0
    obtain ⟨h1, h2, -⟩ := hapart tmp (Or.inr (Or.inl (hsib.root_mem h0)))
    exact ⟨h2, h1⟩
  have hcol := fun q => color_rbInsertRotateGparent (d := g.side) s q htmpne
  refine ha.redBlack_outside hc hredf huncle (St.red_eq_false.mpr ?_) (St.red_eq_true.mpr ?_)
    fun q hq => St.red_of_color ?_
  · rw [hcol, if_neg hfg, if_pos rfl]
    exact St.red_eq_false.mp hgblack
  · rw [hcol, if_pos rfl]
  · obtain ⟨hqf, hqg, -⟩ := hapart q hq
    rw [hcol, if_neg hqg, if_neg hqf]
    split
    · rename_i htmpq
      rw [htmpq.2, color_of_blackRoot hsib htmpq.1 hsibroot]
    · rfl

/-- Cases 2 and 3 end with a red-black tree. -/
theorem rbInsert_inside_redBlack {f g : Frame Ptr} {c : Path Ptr} {node par : Ptr}
    {x y : PTree Ptr} (h : AtNode s (f :: g :: c) node par (join g.side x node y))
    (hred : s.color f.ptr = .red) (huncle : BlackRoot s.red g.sib)
    (hn : RedNode s (f :: g :: c) node (join g.side x node y)) :
    let s₁ := rbInsertRotateParent g.side node f.ptr s
    RedBlack (rbInsertRotateGparent g.side node g.ptr (s₁.child g.side.flip node) s₁).red
      (plug c (join g.side (join g.side f.sib f.ptr x) node (join g.side y g.ptr g.sib))) := by
  intro s₁
  obtain ⟨hfg, hapart⟩ := h.apart
  obtain ⟨hrednode, n, ha, hc⟩ := hn
  have hredf := St.red_eq_true.mpr hred
  have hredn := St.red_eq_true.mpr hrednode
  obtain ⟨-, -, hgblack, -, -⟩ := hc.red_frame hredf
  obtain ⟨hbx, hby, -, -⟩ := (balanced_join_red hredn).mp ha
  obtain ⟨-, -, -, hx, hy⟩ := shape_join.mp h.shape
  simp only [St.rbLinks_child] at hx hy
  obtain ⟨hnd, -, -⟩ := nodup_plug.mp h.nodup
  obtain ⟨hnx, hny, -, -, hxy⟩ := nodup_join.mp hnd
  obtain ⟨hnf, hng, -⟩ := hapart node (by simp)
  -- the children that change sides are black already
  have hcol₁ : ∀ q, q ≠ f.ptr → s₁.color q = s.color q := by
    intro q hq
    rw [color_rbInsertRotateParent, if_neg hq]
    split
    · rename_i hqx
      rw [hqx.2, color_of_blackRoot hx hqx.1 hbx]
    · rfl
  have hcolf : s₁.color f.ptr = .red := by rw [color_rbInsertRotateParent, if_pos rfl]
  have htmp : s₁.child g.side.flip node = s.child g.side.flip node := by
    simp only [s₁, rbInsertRotateParent]
    rw [(gapOnly_vmaRbGapRotate _ _ _).child]
    by_cases h0 : s.child g.side node = 0#64 <;> simp [h0, hnf]
  rw [htmp]
  generalize s.child g.side.flip node = tmp at hy
  have htmpne : tmp ≠ 0#64 → tmp ≠ g.ptr ∧ tmp ≠ node := by
    intro h0
    have hmem := hy.root_mem h0
    obtain ⟨-, h2, -⟩ := hapart tmp (Or.inl (mem_join.mpr (Or.inr (Or.inr hmem))))
    refine ⟨h2, ?_⟩
    rintro rfl
    exact hny hmem
  have hcol := fun q => color_rbInsertRotateGparent (d := g.side) s₁ q htmpne
  have hsame : ∀ q, q ≠ f.ptr → q ≠ g.ptr → q ≠ node →
      (rbInsertRotateGparent g.side node g.ptr tmp s₁).red q = s.red q := by
    intro q h1 h2 h3
    refine St.red_of_color ?_
    rw [hcol, if_neg h2, if_neg h3]
    split
    · rename_i hqy
      rw [hqy.2, color_of_blackRoot hy hqy.1 hby]
    · exact hcol₁ q h1
  have htmpf : ¬ (tmp ≠ 0#64 ∧ f.ptr = tmp) := by
    rintro ⟨h0, heq⟩
    exact (hapart tmp (Or.inl (mem_join.mpr (Or.inr (Or.inr (hy.root_mem h0)))))).1 heq.symm
  refine ha.redBlack_inside hc hredn hredf huncle (St.red_eq_false.mpr ?_) (St.red_eq_true.mpr ?_)
    (St.red_eq_true.mpr ?_) fun q hq => ?_
  · rw [hcol, if_neg hng, if_pos rfl, hcol₁ g.ptr (Ne.symm hfg)]
    exact St.red_eq_false.mp hgblack
  · rw [hcol, if_neg hfg, if_neg (Ne.symm hnf), if_neg htmpf]
    exact hcolf
  · rw [hcol, if_pos rfl]
  · have hqn : q ≠ node := by
      rintro rfl
      rcases hq with hq | hq | hq
      · exact hnx hq
      · exact hny hq
      · exact (hapart q (by simp)).2.2.2.1 hq (by simp)
    obtain ⟨hqf, hqg, -⟩ := hapart q (by
      rw [mem_join]
      tauto)
    exact hsame q hqf hqg hqn

/-- The loop of `rb_insert`, entered at a node at the end of a path. -/
theorem rbInsertLoop_spec :
    ∀ (fuel : Nat) (c : Path Ptr) (node par : Ptr) (a : PTree Ptr) (s : St σ η),
      c.length < fuel → AtNode s c node par a →
      ∃ t b, rbInsertLoop fuel node par s = some t ∧ Rebuilt s t (plug c a) b ∧
        (RedNode s c node a → RedBlack t.red b) := by
  intro fuel
  induction fuel with
  | zero => intro c node par a s hf; omega
  | succ fuel ih =>
    intro c node par a s hf h
    cases c with
    | nil =>
        obtain ⟨rfl, rfl⟩ := h.path
        refine ⟨s.setParentColor s.vmaRbRoot 0#64 .black, a, by simp [rbInsertLoop, h.ne],
          ⟨?_, rfl, by simp, by simp, fun haug => ?_⟩, fun hn => ?_⟩
        · exact h.shape.congr h.nodup rfl (fun q _ e => by simp) (fun q _ hq => by simp [hq])
            (fun _ => by simp)
        · exact haug.congr (fun _ _ => rfl) fun q _ => by simp [St.gapNat]
        · obtain ⟨hred, n, ha, -⟩ := hn
          obtain ⟨l, r, rfl, -⟩ := h.shape.exists_join .left h.ne
          obtain ⟨hl, hr, -⟩ := nodup_join.mp h.nodup
          refine ha.redBlack_blacken (St.red_eq_true.mpr hred) (St.red_eq_false.mpr (by simp))
            fun q hq => St.red_of_color ?_
          have hq' : q ≠ s.vmaRbRoot := by
            rintro rfl
            exact hq.elim hl hr
          simp [hq']
    | cons f c =>
        have hpar := h.path.1
        have hf0 : f.ptr ≠ 0#64 := h.path.2.1
        by_cases hpb : s.color f.ptr = .black
        · refine ⟨s, plug (f :: c) a, by simp [rbInsertLoop, hpar, hf0, hpb],
            ⟨shape_plug.mpr ⟨_, _, h.path, h.shape⟩, rfl, rfl, h.black (by simp), id⟩, ?_⟩
          rintro ⟨-, n, ha, hc⟩
          exact redBlack_plug.mpr ⟨n, ha, hc, Or.inr (St.red_eq_false.mpr hpb)⟩
        · have hred : s.color f.ptr = .red := by
            cases hcol : s.color f.ptr with
            | red => rfl
            | black => exact absurd hcol hpb
          cases c with
          | nil =>
              -- the parent would be the root, which is black
              have hroot : f.ptr = s.vmaRbRoot := h.path.2.2.2.2.2
              exact absurd (hroot ▸ h.black (by simp)) hpb
          | cons g c =>
              rw [rbInsertLoop_body fuel h hred]
              by_cases hflip : s.child g.side.flip g.ptr ≠ 0#64 ∧
                  s.color (s.child g.side.flip g.ptr) = .red
              · obtain ⟨habove, hbase, hgap, hat⟩ := rbInsert_flip h rfl hflip.1
                obtain ⟨t, b, hrun, hb, hrb⟩ := ih c _ _ _ _
                  (by simp only [List.length_cons] at hf; omega) hat
                refine ⟨t, b, ?_, ⟨hb.shape, hb.list, hb.base.trans hbase, hb.black, ?_⟩,
                  fun hn => hrb (rbInsert_flip_redNode h hred hflip hn _)⟩
                · simp only [if_pos hflip, habove] at hrun ⊢
                  exact hrun
                · intro haug
                  have hown := St.own_of_base hbase
                  refine hown ▸ hb.aug (hown.symm ▸ ?_)
                  exact haug.congr (fun _ _ => rfl) fun q _ => by rw [St.gapNat, hgap, St.gapNat]
              · simp only [if_neg hflip]
                have huncle := blackRoot_of_shape h.grandparent.uncle hflip
                rcases Side.eq_or_eq_flip g.side f.side with hs | hs
                · have hb := rbInsert_outside h hs
                  have hne : node ≠ s.child g.side.flip f.ptr := by
                    intro heq
                    have hG := h.grandparent
                    obtain ⟨-, -, hpnd, -, -⟩ := nodup_join.mp hG.nodup
                    obtain ⟨-, -, -, -, has⟩ := nodup_join.mp hpnd
                    rw [← hs] at heq
                    have hsib := heq ▸ hG.sib
                    exact has node (h.shape.root_mem h.ne) (hsib.root_mem h.ne)
                  exact ⟨_, _, by rw [if_neg hne], hb, rbInsert_outside_redBlack h hs hred huncle⟩
                · obtain ⟨x, y, rfl, -⟩ := h.shape.exists_join g.side h.ne
                  have hb := rbInsert_inside h hs
                  have heq : node = s.child g.side.flip f.ptr := by
                    rw [← hs]; exact h.path.2.2.1.symm
                  exact ⟨_, _, by rw [if_pos heq], hb, rbInsert_inside_redBlack h hred huncle⟩

/-- `rb_insert` at a freshly linked red leaf. -/
theorem rbInsert_spec {c : Path Ptr} {node par : Ptr} {a : PTree Ptr} (h : AtNode s c node par a)
    (hred : s.color node = .red) :
    ∃ t b, rbInsert node s = some t ∧ Rebuilt s t (plug c a) b ∧
      (RedNode s c node a → RedBlack t.red b) := by
  have hpar : s.parent node = par := by
    obtain ⟨_, _, -, hp, -⟩ := h.shape.exists_join .left h.ne
    exact hp
  have hlen : c.length < walkBound :=
    length_path_lt_walkBound h.path (nodup_plug.mp h.nodup).2.1
  obtain ⟨t, b, hrun, hb⟩ := rbInsertLoop_spec walkBound c node par a s hlen h
  exact ⟨t, b, by simp [rbInsert, rbRedParent, h.ne, hred, hpar, hrun], hb⟩

end BufferVM
