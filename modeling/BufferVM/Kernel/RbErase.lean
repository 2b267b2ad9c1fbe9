/-
  Kernel/RbErase.lean --- `rb_erase` takes one node out of the tree.

  A node with at most one child is replaced by that child.  A node with two is
  replaced by its successor, whose own right child goes up into the successor's
  place; the case where the successor is the right child itself is the case of the
  empty path.  Each time the last step is a propagation up the path, and
  `erased_of_path` is what all of them end with.
-/
import BufferVM.Kernel.RbInsert

set_option autoImplicit false

namespace BufferVM

open PtrTree PtrTree.PTree

variable {σ η : Type} {s t u v : St σ η}

/-- The store `t` has the tree `b`, with the pointers `l`: a black root, exact
gaps if `aug` held, and nothing but the tree changed. -/
structure Erased (s t : St σ η) (l : List Ptr) (aug : Prop) (b : PTree Ptr) : Prop where
  shape : Shape t.rbLinks 0#64 t.vmaRbRoot b
  list : b.toList = l
  base : t.base = s.base
  black : t.vmaRbRoot ≠ 0#64 → t.color t.vmaRbRoot = .black
  aug : aug → Aug s.own t.gapNat b

/-- The end of every case: the gaps are propagated from the hole to the root. -/
theorem erased_of_path {c : Path Ptr} {par x : Ptr} {w : PTree Ptr} {l : List Ptr} {aug : Prop}
    (hpath : PathShape u.rbLinks 0#64 u.vmaRbRoot c par x) (hw : Shape u.rbLinks par x w)
    (hnd : (plug c w).toList.Nodup) (hl : (plug c w).toList = l) (hbase : u.base = s.base)
    (hblack : u.vmaRbRoot ≠ 0#64 → u.color u.vmaRbRoot = .black)
    (haug : aug → Aug s.own u.gapNat w ∧ AugAbove s.own u.gapNat c) :
    ∃ t, vmaRbGapPropagate walkBound par 0#64 u = some t ∧ Erased s t l aug (plug c w) := by
  obtain ⟨t, hrun, hg, hup⟩ := vmaRbGapPropagate_plug hpath hw hnd
  have hown : u.own = s.own := St.own_of_base hbase
  refine ⟨t, hrun, ?_, hl, hg.base.trans hbase, ?_, fun h => ?_⟩
  · rw [hg.rbLinks, hg.root]
    exact shape_plug.mpr ⟨par, x, hpath, hw⟩
  · rw [hg.root, hg.color]
    exact hblack
  · obtain ⟨hwa, hca⟩ := haug h
    rw [← hown] at hwa hca ⊢
    exact hup hwa hca

/-! ## At most one child -/

theorem rbChangeChild_root (old new parent : Ptr) (s : St σ η) :
    (rbChangeChild old new parent s).vmaRbRoot =
      if parent = 0#64 then new else s.vmaRbRoot := by
  unfold rbChangeChild
  by_cases h : parent = 0#64
  · simp [h]
  · simp only [h, ne_eq, not_false_eq_true, if_true, if_false]
    split <;> simp

theorem setParentColor_setChild (s : St σ η) (d : Side) (p v x w : Ptr) (col : Color) :
    (s.setParentColor x w col).setChild d p v = (s.setChild d p v).setParentColor x w col := by
  have : ∀ q, ((s.setParentColor x w col).setChild d p v).vma q =
      ((s.setChild d p v).setParentColor x w col).vma q := by
    intro q
    by_cases hp : q = p <;> by_cases hx : q = x <;> by_cases hpx : p = x <;> cases d <;>
      simp_all [St.setParentColor, St.setChild, St.update]
  simp only [St.setParentColor, St.setChild, St.update] at this ⊢
  congr 1
  funext q
  exact this q

theorem rbChangeChild_setParentColor (s : St σ η) (old new par x w : Ptr) (col : Color) :
    rbChangeChild old new par (s.setParentColor x w col) =
      (rbChangeChild old new par s).setParentColor x w col := by
  unfold rbChangeChild
  simp only [St.child_setParentColor, setParentColor_setChild]
  split
  · split <;> rfl
  · rfl

/-- The only child takes the place and the colour of the node. -/
theorem rbErase_one {c : Path Ptr} {par z x : Ptr} {w : PTree Ptr}
    (hpath : PathShape s.rbLinks 0#64 s.vmaRbRoot c par z) (hx : Shape s.rbLinks z x w)
    (hz : z ≠ 0#64) (hzc : z ∉ ptrs c) (hnd : (plug c w).toList.Nodup)
    (hblack : s.color s.vmaRbRoot = .black) :
    ∃ t, vmaRbGapPropagate walkBound par 0#64
        (if x ≠ 0#64 then (rbChangeChild z x par s).setParentColor x par (s.color z)
         else rbChangeChild z x par s) = some t ∧
      Erased s t (plug c w).toList (Aug s.own s.gapNat w ∧ AugAbove s.own s.gapNat c)
        (plug c w) := by
  obtain ⟨hndw, hndc, hdisj⟩ := nodup_plug.mp hnd
  let s₁ := rbChangeChild z x par s
  obtain ⟨hpar₁, hcol₁, hgap₁, hbase₁, hchild₁⟩ := rbChangeChild_fields z x par s
  have hpath₁ : PathShape s₁.rbLinks 0#64 s₁.vmaRbRoot c par x :=
    rbChangeChild_path hpath hz hndc hzc
  have hparw : par ∉ w.toList := by
    intro hmem
    cases c with
    | nil => rw [hpath.1] at hmem; exact hx.ne_null _ hmem rfl
    | cons f c => rw [hpath.1] at hmem; exact hdisj f.ptr hmem (by simp)
  let u := if x ≠ 0#64 then s₁.setParentColor x par (s.color z) else s₁
  have hu : (x = 0#64 ∧ u = s₁) ∨ (x ≠ 0#64 ∧ u = s₁.setParentColor x par (s.color z)) := by
    by_cases h : x = 0#64
    · exact Or.inl ⟨h, by simp only [u, h, ne_eq, not_true_eq_false, if_false]⟩
    · exact Or.inr ⟨h, by simp only [u, h, ne_eq, not_false_eq_true, if_true]⟩
  have hchild : ∀ d q, u.child d q = s₁.child d q := by
    intro d q; rcases hu with ⟨-, h⟩ | ⟨-, h⟩ <;> simp [h]
  have hgap : ∀ q, u.gap q = s.gap q := by
    intro q; rcases hu with ⟨-, h⟩ | ⟨-, h⟩ <;> simp [h, s₁, hgap₁]
  have hparent : ∀ q, q ≠ x → u.parent q = s₁.parent q := by
    intro q hq; rcases hu with ⟨-, h⟩ | ⟨-, h⟩ <;> simp [h, hq]
  have hcolor : ∀ q, q ≠ x → u.color q = s.color q := by
    intro q hq; rcases hu with ⟨-, h⟩ | ⟨-, h⟩ <;> simp [h, hq, s₁, hcol₁]
  have hroot : u.vmaRbRoot = s₁.vmaRbRoot := by
    rcases hu with ⟨-, h⟩ | ⟨-, h⟩ <;> simp [h]
  have hxc : ∀ q ∈ ptrs c, q ≠ x := by
    rintro q hq rfl
    exact hdisj q (hx.root_mem (hpath.ne_null q hq)) hq
  refine erased_of_path (s := s) (u := u) (x := x) ?_ ?_ hnd rfl ?_ ?_ ?_
  · rw [hroot]
    exact hpath₁.frame rfl (fun q _ d => hchild d q) (fun q hq => hparent q (hxc q hq))
  · refine hx.congr hndw rfl (fun q hq d => ?_) (fun q _ hqx => ?_) (fun h0 => ?_)
    · have hqp : q ≠ par := by rintro rfl; exact hparw hq
      exact (hchild d q).trans (hchild₁ d q hqp)
    · exact (hparent q hqx).trans (hpar₁ q)
    · have h0' : x ≠ 0#64 := h0
      simp [u, h0']
  · rcases hu with ⟨-, h⟩ | ⟨-, h⟩ <;> simp [h, s₁, hbase₁]
  · intro h0
    rw [hroot] at h0 ⊢
    by_cases hc : par = 0#64
    · -- the node was the root, and the child takes over its colour
      have hroot₁ : s₁.vmaRbRoot = x := by simp [s₁, rbChangeChild_root, hc]
      have hx0 : x ≠ 0#64 := hroot₁ ▸ h0
      have hcnil : c = [] := hpath.par_eq.mp hc
      subst hcnil
      rw [hroot₁]
      simp only [u, if_pos hx0, St.color_setParentColor, if_true]
      rw [hpath.2]
      exact hblack
    · have hroot₁ : s₁.vmaRbRoot = s.vmaRbRoot := by simp [s₁, rbChangeChild_root, hc]
      have hmem := hpath.top_mem (fun h => hc (hpath.par_eq.mpr h))
      rw [hroot₁, hcolor _ (hxc _ hmem), hblack]
  · rintro ⟨haw, hac⟩
    have hstored : u.gapNat = s.gapNat := by
      funext q
      rw [St.gapNat, hgap, St.gapNat]
    rw [hstored]
    exact ⟨haw, hac⟩

/-! ## Two children -/

/-- The store once the successor `sc` is out of its place: below `sc` hang, on the
right, the path `cr` and the tree `r₂` that was below it. -/
structure Promoted (v : St σ η) (c : Path Ptr) (par z sc p child₂ : Ptr) (l : PTree Ptr)
    (cr : Path Ptr) (r₂ : PTree Ptr) : Prop where
  path : PathShape v.rbLinks 0#64 v.vmaRbRoot c par z
  parent : v.parent z = par
  left : Shape v.rbLinks z (v.child .left z) l
  left_ne : v.child .left z ≠ 0#64
  right : PathShape v.rbLinks sc (v.child .right sc) cr p child₂
  hole : Shape v.rbLinks sc child₂ r₂
  ne : z ≠ 0#64
  succ_ne : sc ≠ 0#64
  nodup : (plug c (node l sc (plug cr r₂))).toList.Nodup
  fresh : z ∉ (plug c (node l sc (plug cr r₂))).toList
  black : v.color v.vmaRbRoot = .black

theorem par_mem_or_null {top par p : Ptr} {c : Path Ptr}
    (h : PathShape s.rbLinks 0#64 top c par p) : par = 0#64 ∨ par ∈ ptrs c := by
  cases c with
  | nil => exact Or.inl h.1
  | cons f c => exact Or.inr (by simp [h.1])

/-- What is written before the link above the node: the successor takes over the left link and
the parent of the node, and the child that it leaves behind gets its old parent. -/
structure Replaced (v w : St σ η) (z sc p child₂ : Ptr) : Prop where
  child : ∀ d q, w.child d q = if q = sc ∧ d = .left then v.child .left z else v.child d q
  parent : ∀ q, w.parent q = if child₂ ≠ 0#64 ∧ q = child₂ then p
    else if q = sc then v.parent z else if q = v.child .left z then sc else v.parent q
  gap : ∀ q, w.gap q = v.gap q
  base : w.base = v.base
  root : w.vmaRbRoot = v.vmaRbRoot

theorem rbEraseReplace_links {z : Ptr} (sc p child₂ : Ptr) (hz : z ≠ v.child .left z) :
    ∃ w, (rbEraseReplace z sc p child₂ v).2 = rbChangeChild z sc (v.parent z) w ∧
      Replaced v w z sc p child₂ := by
  by_cases h0 : child₂ = 0#64
  · refine ⟨(rbSetParent (v.child .left z) sc
      (v.setChild .left sc (v.child .left z))).setParentColor sc (v.parent z) (v.color z),
      ?_, fun d q => ?_, fun q => ?_, fun q => ?_, ?_, ?_⟩
    · simp [rbEraseReplace, rbSetParent, rbChangeChild_setParentColor, h0, hz]
    all_goals simp [rbSetParent, h0]
  · refine ⟨((rbSetParent (v.child .left z) sc
      (v.setChild .left sc (v.child .left z))).setParentColor sc (v.parent z)
        (v.color z)).setParentColor child₂ p .black,
      ?_, fun d q => ?_, fun q => ?_, fun q => ?_, ?_, ?_⟩
    · simp [rbEraseReplace, rbSetParent, rbChangeChild_setParentColor, h0, hz]
    all_goals simp [rbSetParent, h0]

/-- The parts of the tree are apart: the path above, the left subtree and what the successor
leaves behind. -/
structure Spread (v : St σ η) (c : Path Ptr) (par z sc child₂ : Ptr) (l : PTree Ptr)
    (cr : Path Ptr) (r₂ : PTree Ptr) : Prop where
  succ_path : sc ∉ ptrs c
  succ_left : sc ∉ l.toList
  succ_right : sc ∉ (plug cr r₂).toList
  left_path : ∀ q ∈ l.toList, q ∉ ptrs c
  right_path : ∀ q ∈ (plug cr r₂).toList, q ∉ ptrs c
  left_right : ∀ q ∈ l.toList, q ∉ (plug cr r₂).toList
  hole_right : ∀ q ∈ r₂.toList, q ∉ ptrs cr
  node_path : z ∉ ptrs c
  node_left : z ∉ l.toList
  left_mem : v.child .left z ∈ l.toList
  child_mem : child₂ ≠ 0#64 → child₂ ∈ (plug cr r₂).toList
  not_par : ∀ q, q ≠ 0#64 → q ∉ ptrs c → q ≠ par

section Replace

variable {u : St σ η} {c cr : Path Ptr} {par z sc p child₂ : Ptr} {l r₂ : PTree Ptr}

theorem Promoted.spread (h : Promoted v c par z sc p child₂ l cr r₂) :
    Spread v c par z sc child₂ l cr r₂ := by
  obtain ⟨hndN, hndc, hdisj⟩ := nodup_plug.mp h.nodup
  obtain ⟨hscl, hscr, hndl, hndr, hlr⟩ := (nodup_join (d := .left)).mp hndN
  obtain ⟨-, -, h₂cr⟩ := nodup_plug.mp hndr
  have hfresh := h.fresh
  simp only [mem_plug (c := c), toList_node, List.mem_append, List.mem_cons, not_or] at hfresh
  obtain ⟨⟨hzl, -, -⟩, hzc⟩ := hfresh
  refine ⟨hdisj sc (by simp), hscl, hscr, fun q hq => hdisj q (by simp [hq]),
    fun q hq => hdisj q (by simp [hq]), hlr, h₂cr, hzc, hzl, h.left.root_mem h.left_ne,
    fun h0 => mem_plug.mpr (Or.inl (h.hole.root_mem h0)), ?_⟩
  rintro q h0 hq rfl
  rcases par_mem_or_null h.path with hp | hp
  · exact h0 hp
  · exact hq hp

/-- A node above is none of those whose parent is written. -/
theorem Spread.above (hs : Spread v c par z sc child₂ l cr r₂) {q : Ptr} (hq : q ∈ ptrs c) :
    q ≠ sc ∧ q ≠ v.child .left z ∧ (child₂ ≠ 0#64 → q ≠ child₂) := by
  refine ⟨?_, ?_, ?_⟩
  · rintro rfl
    exact hs.succ_path hq
  · rintro rfl
    exact hs.left_path _ hs.left_mem hq
  · rintro h0 rfl
    exact hs.right_path q (hs.child_mem h0) hq

/-- A node that the successor leaves behind is neither the successor nor in the left subtree. -/
theorem Spread.behind (hs : Spread v c par z sc child₂ l cr r₂) {q : Ptr}
    (hq : q ∈ (plug cr r₂).toList) :
    q ≠ sc ∧ q ≠ v.child .left z ∧ (q ≠ 0#64 → q ≠ par) := by
  refine ⟨?_, ?_, fun h0 => hs.not_par q h0 (hs.right_path q hq)⟩
  · rintro rfl
    exact hs.succ_right hq
  · rintro rfl
    exact hs.left_right _ hs.left_mem hq

theorem Spread.succ_ne_left (hs : Spread v c par z sc child₂ l cr r₂) :
    sc ≠ v.child .left z := by
  intro heq
  exact hs.succ_left (heq ▸ hs.left_mem)

theorem Spread.succ_ne_child (hs : Spread v c par z sc child₂ l cr r₂) (h0 : child₂ ≠ 0#64) :
    sc ≠ child₂ := by
  rintro rfl
  exact hs.succ_right (hs.child_mem h0)

theorem Spread.left_ne_child (hs : Spread v c par z sc child₂ l cr r₂) {q : Ptr}
    (hq : q ∈ l.toList) (h0 : child₂ ≠ 0#64) : q ≠ child₂ := by
  rintro rfl
  exact hs.left_right q hq (hs.child_mem h0)

/-- The links after the successor has been put in its place, apart from that above it. -/
structure Seated (v u : St σ η) (par z sc p child₂ : Ptr) : Prop where
  child : ∀ d q, q ≠ par →
    u.child d q = if q = sc ∧ d = .left then v.child .left z else v.child d q
  parent : ∀ q, u.parent q = if child₂ ≠ 0#64 ∧ q = child₂ then p
    else if q = sc then par else if q = v.child .left z then sc else v.parent q

/-- Of the other nodes nothing has changed. -/
theorem Seated.parent_eq (hw : Seated v u par z sc p child₂) {q : Ptr} (h1 : q ≠ sc)
    (h2 : q ≠ v.child .left z) (h3 : child₂ ≠ 0#64 → q ≠ child₂) : u.parent q = v.parent q := by
  rw [hw.parent, if_neg fun h' => h3 h'.1 h'.2, if_neg h1, if_neg h2]

theorem Seated.child_eq (hw : Seated v u par z sc p child₂) {q : Ptr} (hq : q ≠ par)
    (hne : q ≠ sc) (d : Side) : u.child d q = v.child d q := by
  rw [hw.child d q hq, if_neg fun h' => hne h'.1]

/-- The left subtree hangs below the successor. -/
theorem Seated.left (hw : Seated v u par z sc p child₂)
    (h : Promoted v c par z sc p child₂ l cr r₂) :
    Shape u.rbLinks sc (u.child .left sc) l := by
  have hs := h.spread
  obtain ⟨hndN, -, -⟩ := nodup_plug.mp h.nodup
  obtain ⟨-, -, hndl, -, -⟩ := (nodup_join (d := .left)).mp hndN
  rw [hw.child .left sc (hs.not_par sc h.succ_ne hs.succ_path), if_pos ⟨rfl, rfl⟩]
  refine h.left.congr hndl rfl (fun q hq d => ?_) (fun q hq hqt => ?_) (fun _ => ?_)
  · exact hw.child_eq (hs.not_par q (h.left.ne_null q hq) (hs.left_path q hq))
      (by rintro rfl; exact hs.succ_left hq) d
  · exact hw.parent_eq (by rintro rfl; exact hs.succ_left hq) hqt (hs.left_ne_child hq)
  · refine (hw.parent _).trans ?_
    rw [if_neg fun h' => hs.left_ne_child hs.left_mem h'.1 h'.2, if_neg hs.succ_ne_left.symm,
      if_pos rfl]

/-- The path to the hole and what was below the successor stay. -/
theorem Seated.right (hw : Seated v u par z sc p child₂)
    (h : Promoted v c par z sc p child₂ l cr r₂) :
    Shape u.rbLinks sc (u.child .right sc) (plug cr r₂) := by
  have hs := h.spread
  obtain ⟨hndN, -, -⟩ := nodup_plug.mp h.nodup
  obtain ⟨-, -, -, hndr, -⟩ := (nodup_join (d := .left)).mp hndN
  obtain ⟨hnd₂, -, -⟩ := nodup_plug.mp hndr
  have hcrr : ∀ q ∈ ptrs cr, q ∈ (plug cr r₂).toList := fun q hq => mem_plug.mpr (Or.inr hq)
  have h2r : ∀ q ∈ r₂.toList, q ∈ (plug cr r₂).toList := fun q hq => mem_plug.mpr (Or.inl hq)
  rw [hw.child .right sc (hs.not_par sc h.succ_ne hs.succ_path), if_neg (by simp)]
  refine shape_plug.mpr ⟨p, child₂, h.right.frame rfl (fun q hq d => ?_) (fun q hq => ?_), ?_⟩
  · obtain ⟨h1, -, h3⟩ := hs.behind (hcrr q hq)
    exact hw.child_eq (h3 (h.right.ne_null q hq)) h1 d
  · obtain ⟨h1, h2, -⟩ := hs.behind (hcrr q hq)
    exact hw.parent_eq h1 h2
      (by rintro h0 rfl; exact hs.hole_right q (h.hole.root_mem h0) hq)
  · refine h.hole.congr hnd₂ rfl (fun q hq d => ?_) (fun q hq hq2 => ?_) (fun h0 => ?_)
    · obtain ⟨h1, -, h3⟩ := hs.behind (h2r q hq)
      exact hw.child_eq (h3 (h.hole.ne_null q hq)) h1 d
    · obtain ⟨h1, h2, -⟩ := hs.behind (h2r q hq)
      exact hw.parent_eq h1 h2 fun _ => hq2
    · exact (hw.parent _).trans (if_pos ⟨h0, rfl⟩)

/-- The successor takes the place of the node. -/
theorem rbEraseReplace_spec (h : Promoted v c par z sc p child₂ l cr r₂) :
    let u := (rbEraseReplace z sc p child₂ v).2
    PathShape u.rbLinks 0#64 u.vmaRbRoot (⟨.right, sc, l⟩ :: c) sc (u.child .right sc) ∧
    Shape u.rbLinks sc (u.child .right sc) (plug cr r₂) ∧ u.base = v.base ∧
    (∀ q, u.gap q = v.gap q) ∧ u.color u.vmaRbRoot = .black := by
  intro u
  have hs := h.spread
  obtain ⟨w, hw, hrep⟩ := rbEraseReplace_links sc p child₂ (v := v) (z := z)
    (by intro hz; exact hs.node_left (hz ▸ hs.left_mem))
  rw [h.parent] at hw
  obtain ⟨hparu, -, hgapu, hbaseu, hchildu⟩ := rbChangeChild_fields z sc par w
  rw [← hw] at hparu hgapu hbaseu hchildu
  have hseated : Seated v u par z sc p child₂ := by
    refine ⟨fun d q hq => (hchildu d q hq).trans (hrep.child d q), fun q => ?_⟩
    rw [← h.parent]
    exact (hparu q).trans (hrep.parent q)
  have hpathw : PathShape w.rbLinks 0#64 w.vmaRbRoot c par z := by
    rw [hrep.root]
    refine h.path.frame rfl (fun q hq d => ?_) (fun q hq => ?_)
    · exact (hrep.child d q).trans (if_neg fun h' => (hs.above hq).1 h'.1)
    · obtain ⟨h1, h2, h3⟩ := hs.above hq
      exact (hparu q).symm.trans (hseated.parent_eq h1 h2 h3)
  have hpathu : PathShape u.rbLinks 0#64 u.vmaRbRoot c par sc := by
    rw [show u = rbChangeChild z sc par w from hw]
    exact rbChangeChild_path hpathw h.ne (nodup_plug.mp h.nodup).2.1 hs.node_path
  have hscParent : u.parent sc = par := by
    rw [hseated.parent, if_neg fun h' => hs.succ_ne_child h'.1 h'.2, if_pos rfl]
  refine ⟨⟨rfl, h.succ_ne, rfl, hseated.left h, ?_⟩, hseated.right h, hbaseu.trans hrep.base,
    fun q => (hgapu q).trans (hrep.gap q), ?_⟩
  · change PathShape u.rbLinks 0#64 u.vmaRbRoot c (u.parent sc) sc
    rw [hscParent]
    exact hpathu
  · -- the root is the successor with the node's colour, or above and as it was
    rw [color_rbEraseReplace, show u.vmaRbRoot = _ from congrArg St.vmaRbRoot hw,
      rbChangeChild_root, hrep.root]
    by_cases hc : par = 0#64
    · have hcnil : c = [] := h.path.par_eq.mp hc
      subst hcnil
      rw [if_pos hc, if_neg fun h' => hs.succ_ne_child h'.1 h'.2, if_pos rfl, h.path.2]
      exact h.black
    · obtain ⟨h1, -, h3⟩ := hs.above (h.path.top_mem fun h' => hc (h.path.par_eq.mpr h'))
      rw [if_neg hc, if_neg fun h' => h3 h'.1 h'.2, if_neg h1]
      exact h.black

end Replace

/-- The walk down the left links, from a tree below the path `c`. -/
theorem rbEraseLeftmost_spec (z top : Ptr) (a : PTree Ptr) :
    ∀ (fuel : Nat) (c : Path Ptr) (par x : Ptr), a.toList.length ≤ fuel → x ≠ 0#64 →
      PathShape s.rbLinks z top c par x → Shape s.rbLinks par x a → before c = [] →
      (∃ f c', c = f :: c' ∧ f.side = .left) →
      ∃ p sc cr r₂, rbEraseLeftmost fuel par x s = some (p, sc) ∧
        PathShape s.rbLinks z top cr p sc ∧ Shape s.rbLinks p sc (node leaf sc r₂) ∧
        plug c a = plug cr (node leaf sc r₂) ∧ before cr = [] ∧
        ∃ f c', cr = f :: c' ∧ f.side = .left := by
  induction a with
  | leaf =>
      intro fuel c par x _ hx _ hs
      exact absurd hs hx
  | node a y b iha _ =>
      intro fuel c par x hf hx hc hs hbc hside
      obtain ⟨n, rfl⟩ : ∃ n, fuel = n + 1 :=
        ⟨fuel - 1, by simp only [toList_node, List.length_append, List.length_cons] at hf; omega⟩
      have hshape := hs
      obtain ⟨rfl, hne, hpar, ha, hb⟩ := hs
      by_cases hleft : s.child .left x = 0#64
      · obtain rfl : a = leaf := ha.eq_leaf hleft
        exact ⟨par, x, c, b, by simp [rbEraseLeftmost, hleft], hc, hshape, rfl, hbc, hside⟩
      · obtain ⟨p, sc, cr, r₂, hrun, hpath, hsh, heq, hbr, hsd⟩ :=
          iha n (⟨.left, x, b⟩ :: c) x (s.child .left x)
            (by simp only [toList_node, List.length_append, List.length_cons] at hf; omega)
            hleft ⟨rfl, hne, rfl, hb, by rw [St.rbLinks_parent] at hpar ⊢; rw [hpar]; exact hc⟩ ha
            (by simp [before, hbc]) ⟨_, _, rfl, rfl⟩
        refine ⟨p, sc, cr, r₂, ?_, hpath, hsh, ?_, hbr, hsd⟩
        · simp [rbEraseLeftmost, hleft, hrun]
        · rw [← heq, plug, join]

/-- What `rb_erase` does for a node with two children, from the state with the
successor out of its place. -/
theorem rbErase_two {c cr : Path Ptr} {par z sc p child₂ : Ptr} {l r₂ : PTree Ptr} (aug : Prop)
    (h : Promoted v c par z sc p child₂ l cr r₂) (hbase : v.base = s.base)
    (haug : aug → Aug s.own v.gapNat (plug cr r₂) ∧ Aug s.own v.gapNat l ∧
      AugPath s.own v.gapNat c (v.gapNat sc)) :
    ∃ t, vmaRbGapPropagate walkBound sc 0#64 (rbEraseReplace z sc p child₂ v).2 = some t ∧
      Erased s t (plug c (node l sc (plug cr r₂))).toList aug
        (plug c (node l sc (plug cr r₂))) := by
  obtain ⟨hpath, hshape, hb, hgap, hblack⟩ := rbEraseReplace_spec h
  have hgapN : (rbEraseReplace z sc p child₂ v).2.gapNat = v.gapNat := by
    funext q
    rw [St.gapNat, hgap, St.gapNat]
  refine erased_of_path (c := ⟨.right, sc, l⟩ :: c) hpath hshape h.nodup rfl (hb.trans hbase)
    (fun _ => hblack) ?_
  intro hag
  obtain ⟨h1, h2, h3⟩ := haug hag
  rw [hgapN]
  exact ⟨h1, h2, h3⟩

/-! ## The whole function -/

/-- What the stored gaps have to be before a node is erased: its own may be
stale. -/
def AugAround (s : St σ η) (c : Path Ptr) (z : Ptr) (l r : PTree Ptr) : Prop :=
  Aug s.own s.gapNat l ∧ Aug s.own s.gapNat r ∧ AugPath s.own s.gapNat c (s.gapNat z)

/-- No left child. -/
theorem rbErase_noLeft {c : Path Ptr} {par z : Ptr} {r : PTree Ptr}
    (h : AtNode s c z par (node leaf z r)) (hblack : s.color s.vmaRbRoot = .black) :
    ∃ t, (∃ reb, rbErase z s = some (reb, t)) ∧
      Erased s t (before c ++ (leaf.toList ++ r.toList) ++ after c) (AugAround s c z leaf r)
        (plug c r) := by
  obtain ⟨-, -, hpar, hl, hr⟩ := h.shape
  simp only [St.rbLinks_parent, St.rbLinks_child] at hpar hl hr
  obtain ⟨hndN, hndc, hdisj⟩ := nodup_plug.mp h.nodup
  obtain ⟨-, -, -, hndr, -⟩ := (nodup_join (d := .left)).mp hndN
  obtain ⟨t, hrun, ht⟩ := rbErase_one h.path hr h.ne (hdisj z (by simp))
    (nodup_plug.mpr ⟨hndr, hndc, fun q hq => hdisj q (by simp [hq])⟩) hblack
  refine ⟨t, ?_, ht.shape, ?_, ht.base, ht.black, ?_⟩
  · have hl0 : s.child .left z = 0#64 := hl
    simp only [rbErase, deref_of_ne _ h.ne, Option.bind_eq_bind, Option.bind_some, if_pos hl0,
      hpar, hrun]
    exact ⟨_, rfl⟩
  · rw [ht.list, toList_plug]
    simp
  · rintro ⟨-, h2, h3⟩
    exact ht.aug ⟨h2, h3.above⟩

/-- A left child only. -/
theorem rbErase_noRight {c : Path Ptr} {par z : Ptr} {l : PTree Ptr}
    (h : AtNode s c z par (node l z leaf)) (hl0 : s.child .left z ≠ 0#64)
    (hblack : s.color s.vmaRbRoot = .black) :
    ∃ t, (∃ reb, rbErase z s = some (reb, t)) ∧
      Erased s t (before c ++ (l.toList ++ leaf.toList) ++ after c) (AugAround s c z l leaf)
        (plug c l) := by
  obtain ⟨-, -, hpar, hl, hr⟩ := h.shape
  simp only [St.rbLinks_parent, St.rbLinks_child] at hpar hl hr
  obtain ⟨hndN, hndc, hdisj⟩ := nodup_plug.mp h.nodup
  obtain ⟨-, -, hndl, -, -⟩ := (nodup_join (d := .left)).mp hndN
  obtain ⟨t, hrun, ht⟩ := rbErase_one h.path hl h.ne (hdisj z (by simp))
    (nodup_plug.mpr ⟨hndl, hndc, fun q hq => hdisj q (by simp [hq])⟩) hblack
  refine ⟨t, ⟨0#64, ?_⟩, ht.shape, ?_, ht.base, ht.black, ?_⟩
  · have hr0 : s.child .right z = 0#64 := hr
    simp only [if_pos hl0] at hrun
    simp only [rbErase, deref_of_ne _ h.ne, Option.bind_eq_bind, Option.bind_some, if_neg hl0,
      if_pos hr0, hpar, rbChangeChild_setParentColor, hrun]
  · rw [ht.list, toList_plug]
    simp
  · rintro ⟨h1, -, h3⟩
    exact ht.aug ⟨h1, h3.above⟩

/-- Distinctness of the tree that has the successor in the place of the node. -/
theorem nodup_promoted {c : Path Ptr} (cr : Path Ptr) {z sc : Ptr} {l r₂ : PTree Ptr}
    (h : (plug c (node l z (plug cr (node leaf sc r₂)))).toList.Nodup) :
    (plug c (node l sc (plug cr r₂))).toList.Nodup ∧
      z ∉ (plug c (node l sc (plug cr r₂))).toList := by
  simp only [toList_plug, toList_node, toList_leaf, List.nil_append, List.nodup_append,
    List.nodup_cons, List.mem_append, List.mem_cons] at h ⊢
  grind

/-- The successor is the right child. -/
theorem rbErase_succChild {c : Path Ptr} {par z y : Ptr} {l r₂ : PTree Ptr}
    (h : AtNode s c z par (node l z (node leaf y r₂))) (hl0 : s.child .left z ≠ 0#64)
    (hblack : s.color s.vmaRbRoot = .black) :
    ∃ t, (∃ reb, rbErase z s = some (reb, t)) ∧
      Erased s t (before c ++ (l.toList ++ (node leaf y r₂).toList) ++ after c)
        (AugAround s c z l (node leaf y r₂)) (plug c (node l y r₂)) := by
  obtain ⟨-, -, hpar, hl, hy, hy0, hpary, hyl, hr₂⟩ := h.shape
  simp only [St.rbLinks_parent, St.rbLinks_child] at hpar hl hy hpary hyl hr₂
  obtain ⟨hnd, hfresh⟩ := nodup_promoted [] h.nodup
  obtain ⟨hndN, -, hdisj⟩ := nodup_plug.mp hnd
  obtain ⟨hyl', hyr, -, -, -⟩ := (nodup_join (d := .left)).mp hndN
  let v := vmaRbGapCopy z y s
  have hg : GapOnly s v := gapOnly_setGap _ _ _
  have hgap : ∀ q, q ≠ y → v.gapNat q = s.gapNat q := by
    intro q hq; simp [v, vmaRbGapCopy, St.gapNat, hq]
  have hyz : v.gapNat y = s.gapNat z := by simp [v, vmaRbGapCopy, St.gapNat]
  have hprom : Promoted v c par z y y (s.child .right y) l [] r₂ := by
    refine ⟨?_, ?_, ?_, ?_, ⟨rfl, ?_⟩, ?_, h.ne, hy0, hnd, hfresh, ?_⟩
    · rw [hg.rbLinks, hg.root]; exact h.path
    · rw [hg.parent]; exact hpar
    · rw [hg.rbLinks, hg.child]; exact hl
    · rw [hg.child]; exact hl0
    · rw [hg.child]
    · rw [hg.rbLinks]; exact hr₂
    · rw [hg.root, hg.color]; exact hblack
  obtain ⟨t, hrun, ht⟩ := rbErase_two (s := s) (AugAround s c z l (node leaf y r₂))
    hprom hg.base (by
      rintro ⟨h1, ⟨-, -, h2⟩, h3⟩
      rw [hyz]
      refine ⟨h2.congr (fun _ _ => rfl) fun q hq => hgap q ?_,
        h1.congr (fun _ _ => rfl) fun q hq => hgap q ?_,
        h3.congr (fun _ _ => rfl) fun q hq => hgap q ?_⟩
      · rintro rfl; exact hyr hq
      · rintro rfl; exact hyl' hq
      · rintro rfl; exact hdisj q (by simp) hq)
  refine ⟨t, ?_, ht.shape, ?_, ht.base, ht.black, ht.aug⟩
  · have hyl0 : s.child .left y = 0#64 := hyl
    simp only [rbErase, deref_of_ne _ h.ne, Option.bind_eq_bind, Option.bind_some, if_neg hl0,
      hy, if_neg (show ¬ y = 0#64 from hy0), if_pos hyl0]
    rw [hrun]
    exact ⟨_, rfl⟩
  · rw [toList_plug]
    simp

/-- What is written to take the successor `sc` out of its place below `p`: its right child moves
up there, the right child `y` of the node hangs below it, and it stores the gap of the node. -/
structure Hoisted (s t : St σ η) (z y p sc : Ptr) : Prop where
  child : ∀ d q, t.child d q = if q = sc ∧ d = .right then y
    else if q = p ∧ d = .left then s.child .right sc else s.child d q
  parent : ∀ q, t.parent q = if q = y then sc else s.parent q
  gap : ∀ q, t.gap q = if q = sc then s.gap z else s.gap q
  color : ∀ q, t.color q = s.color q
  base : t.base = s.base
  root : t.vmaRbRoot = s.vmaRbRoot

theorem hoisted_links (z y p sc : Ptr) (s : St σ η) :
    Hoisted s (vmaRbGapCopy z sc (rbSetParent y sc
      ((s.setChild .left p (s.child .right sc)).setChild .right sc y))) z y p sc := by
  refine ⟨fun d q => ?_, fun q => ?_, fun q => ?_, fun q => ?_, ?_, rfl⟩
  all_goals simp [vmaRbGapCopy, rbSetParent]
  rintro rfl
  rfl

section Hoisted

variable {z y p sc : Ptr} {f : Frame Ptr} {c' : Path Ptr}

/-- The path to the successor hangs below the successor. -/
theorem Hoisted.path (h : Hoisted s t z y p sc) (hcr : PathShape s.rbLinks z y (f :: c') p sc)
    (hfs : f.side = .left) (hnd : (plug (f :: c') leaf).toList.Nodup)
    (hsc : ∀ q ∈ ptrs (f :: c'), q ≠ sc) :
    PathShape t.rbLinks sc y (f :: c') p (s.child .right sc) := by
  have hp : p = f.ptr := hcr.1
  -- first the hole, then the parent of the top
  have hhole : PathShape { t.rbLinks with parent := s.parent } z y (f :: c') p
      (s.child .right sc) := by
    refine hcr.congr rfl hnd (fun q hq d hnot => ?_) (fun q _ => rfl) (fun g hg => ?_) (by simp)
    · have hne := hnot f (by simp)
      rw [hfs, ← hp] at hne
      exact (h.child d q).trans (by rw [if_neg fun h' => hsc q hq h'.1, if_neg hne]; rfl)
    · obtain rfl : f = g := by simpa using hg
      refine (h.child _ _).trans ?_
      rw [if_neg fun h' => hsc f.ptr (by simp) h'.1, if_pos ⟨hp.symm, hfs⟩]
  refine hhole.retop (by simp) rfl hnd (fun q _ d => rfl) (fun q _ hq => ?_) ?_
  · exact (h.parent q).trans (if_neg hq)
  · exact (h.parent y).trans (if_pos rfl)

/-- What is neither the successor nor on the path to it stays. -/
theorem Hoisted.keep (h : Hoisted s t z y p sc) (hcr : PathShape s.rbLinks z y (f :: c') p sc)
    {q : Ptr} (h₁ : q ≠ sc) (h₂ : q ∉ ptrs (f :: c')) :
    (∀ d, t.child d q = s.child d q) ∧ t.parent q = s.parent q := by
  have hqp : q ≠ p := by
    rintro rfl
    exact h₂ (by rw [hcr.1]; simp)
  have hqy : q ≠ y := by
    rintro rfl
    exact h₂ (hcr.top_mem (by simp))
  refine ⟨fun d => ?_, (h.parent q).trans (if_neg hqy)⟩
  rw [h.child, if_neg fun h' => h₁ h'.1, if_neg fun h' => hqp h'.1]

end Hoisted

/-- Neither the node, nor the path to it, nor its left subtree, nor what hung below the successor
is the successor or on the way down to it. -/
theorem apart_leftmost {c : Path Ptr} {f : Frame Ptr} {c' : Path Ptr} {z sc : Ptr}
    {l r₂ : PTree Ptr} (hnd : (plug c (node l sc (plug (f :: c') r₂))).toList.Nodup)
    (hfresh : z ∉ (plug c (node l sc (plug (f :: c') r₂))).toList) (q : Ptr)
    (hq : q = z ∨ q ∈ ptrs c ∨ q ∈ l.toList ∨ q ∈ r₂.toList) : q ≠ sc ∧ q ∉ ptrs (f :: c') := by
  obtain ⟨hndN, -, hdisj⟩ := nodup_plug.mp hnd
  obtain ⟨hscl, hscr, -, hndr, hlr⟩ := (nodup_join (d := .left)).mp hndN
  obtain ⟨-, -, h₂cr⟩ := nodup_plug.mp hndr
  have hcrr : ∀ q ∈ ptrs (f :: c'), q ∈ (plug (f :: c') r₂).toList :=
    fun q hq => mem_plug.mpr (Or.inr hq)
  have h2r : ∀ q ∈ r₂.toList, q ∈ (plug (f :: c') r₂).toList :=
    fun q hq => mem_plug.mpr (Or.inl hq)
  rcases hq with rfl | hq | hq | hq
  · refine ⟨?_, fun hm => hfresh (mem_plug.mpr (Or.inl (by simp [hcrr q hm])))⟩
    rintro rfl
    exact hfresh (mem_plug.mpr (Or.inl (by simp)))
  · refine ⟨?_, fun hm => hdisj q (by simp [hcrr q hm]) hq⟩
    rintro rfl; exact hdisj q (by simp) hq
  · refine ⟨?_, fun hm => hlr q hq (hcrr q hm)⟩
    rintro rfl; exact hscl hq
  · refine ⟨?_, h₂cr q hq⟩
    rintro rfl; exact hscr (h2r q hq)

/-- The gaps, once they have been mended from the hole up to the successor. -/
theorem Hoisted.aug {s u v : St σ η} {z y p sc : Ptr} {f : Frame Ptr} {c c' : Path Ptr}
    {l r₂ : PTree Ptr} (h : Hoisted s u z y p sc)
    (hout : ∀ q, q = z ∨ q ∈ ptrs c ∨ q ∈ l.toList ∨ q ∈ r₂.toList → q ≠ sc ∧ q ∉ ptrs (f :: c'))
    (hcrsc : ∀ q ∈ ptrs (f :: c'), q ≠ sc)
    (hr₂ : Shape u.rbLinks sc (s.child .right sc) r₂)
    (hgapv : ∀ q, (∀ g ∈ f :: c', g.ptr ≠ q) → v.gap q = u.gap q)
    (haugv : AugAbove u.own u.gapNat (f :: c') →
      AugPath u.own v.gapNat (f :: c') (u.gapAt (s.child .right sc)))
    (haug : AugAround s c z l (plug (f :: c') (node leaf sc r₂))) :
    Aug s.own v.gapNat (plug (f :: c') r₂) ∧ Aug s.own v.gapNat l ∧
      AugPath s.own v.gapNat c (v.gapNat sc) := by
  obtain ⟨h1, h2, h3⟩ := haug
  obtain ⟨⟨-, -, h4⟩, h5⟩ := aug_plug.mp h2
  have hown : u.own = s.own := St.own_of_base h.base
  have hsame : ∀ q, q ≠ sc → u.gapNat q = s.gapNat q := by
    intro q hq; rw [St.gapNat, h.gap, if_neg hq, St.gapNat]
  have hkeep : ∀ q, q = z ∨ q ∈ ptrs c ∨ q ∈ l.toList ∨ q ∈ r₂.toList →
      v.gapNat q = s.gapNat q := by
    intro q hq
    rw [St.gapNat, hgapv q ?_, h.gap, if_neg (hout q hq).1, St.gapNat]
    rintro g hg rfl
    exact (hout _ hq).2 (List.mem_flatMap.mpr ⟨g, hg, by simp⟩)
  have hgapsc : v.gapNat sc = s.gapNat z := by
    rw [St.gapNat, hgapv sc fun g hg => hcrsc g.ptr (List.mem_flatMap.mpr ⟨g, hg, by simp⟩),
      h.gap, if_pos rfl, St.gapNat]
  have habove := (AugPath.congr h5 (fun _ _ => rfl) fun q hq => hsame q (hcrsc q hq)).above
  have h4' : Aug u.own u.gapNat r₂ := by
    rw [hown]
    exact h4.congr (fun _ _ => rfl) fun q hq => hsame q (hout q (by simp [hq])).1
  have hup := haugv (hown ▸ habove)
  rw [gapAt_eq_sup hr₂ h4', hown] at hup
  rw [hgapsc]
  refine ⟨aug_plug.mpr ⟨h4.congr (fun _ _ => rfl) fun q hq => ?_, hup⟩,
    h1.congr (fun _ _ => rfl) fun q hq => ?_, h3.congr (fun _ _ => rfl) fun q hq => ?_⟩
  · exact hkeep q (by simp [hq])
  · exact hkeep q (by simp [hq])
  · exact hkeep q (by simp [hq])

/-- Taking the leftmost node below the right child out of its place. -/
theorem promoted_of_leftmost {c : Path Ptr} {f : Frame Ptr} {c' : Path Ptr}
    {par z y p sc : Ptr} {l r₂ : PTree Ptr}
    (h : AtNode s c z par (node l z (plug (f :: c') (node leaf sc r₂))))
    (hl0 : s.child .left z ≠ 0#64) (hcr : PathShape s.rbLinks z y (f :: c') p sc)
    (hsc : Shape s.rbLinks p sc (node leaf sc r₂)) (hfs : f.side = .left)
    (hblack : s.color s.vmaRbRoot = .black) :
    ∃ v, vmaRbGapPropagate walkBound p sc (vmaRbGapCopy z sc (rbSetParent y sc
        ((s.setChild .left p (s.child .right sc)).setChild .right sc y))) = some v ∧
      Promoted v c par z sc p (s.child .right sc) l (f :: c') r₂ ∧ v.base = s.base ∧
      (AugAround s c z l (plug (f :: c') (node leaf sc r₂)) →
        Aug s.own v.gapNat (plug (f :: c') r₂) ∧ Aug s.own v.gapNat l ∧
          AugPath s.own v.gapNat c (v.gapNat sc)) := by
  obtain ⟨-, -, hpar, hl, -⟩ := h.shape
  obtain ⟨-, hsc0, -, -, hr₂⟩ := hsc
  simp only [St.rbLinks_parent, St.rbLinks_child, St.rbLinks_null] at hpar hl hsc0 hr₂
  obtain ⟨hnd, hfresh⟩ := nodup_promoted _ h.nodup
  obtain ⟨hndN, -, -⟩ := nodup_plug.mp hnd
  obtain ⟨-, hscr, -, hndr, -⟩ := (nodup_join (d := .left)).mp hndN
  obtain ⟨-, hndcr, -⟩ := nodup_plug.mp hndr
  have hcrsc : ∀ q ∈ ptrs (f :: c'), q ≠ sc := by
    rintro q hq rfl
    exact hscr (mem_plug.mpr (Or.inr hq))
  have out := apart_leftmost hnd hfresh
  have hhoist := hoisted_links z y p sc s
  generalize vmaRbGapCopy z sc (rbSetParent y sc
    ((s.setChild .left p (s.child .right sc)).setChild .right sc y)) = u at hhoist ⊢
  have keep : ∀ q, q = z ∨ q ∈ ptrs c ∨ q ∈ l.toList ∨ q ∈ r₂.toList →
      (∀ d, u.child d q = s.child d q) ∧ u.parent q = s.parent q :=
    fun q hq => hhoist.keep hcr (out q hq).1 (out q hq).2
  have hpathu := hhoist.path hcr hfs hndcr hcrsc
  have hstop : ∀ g ∈ f :: c', g.ptr ≠ sc :=
    fun g hg => hcrsc g.ptr (List.mem_flatMap.mpr ⟨g, hg, by simp⟩)
  obtain ⟨v, hrun, hg, hgapv, haugv⟩ := vmaRbGapPropagate_spec (f :: c') walkBound p
    (s.child .right sc) u (length_path_lt_walkBound hpathu hndcr) hpathu hstop hndcr
  have hr₂u : Shape u.rbLinks sc (s.child .right sc) r₂ :=
    hr₂.frame rfl (fun q hq d => (keep q (by simp [hq])).1 d) fun q hq => (keep q (by simp [hq])).2
  obtain ⟨hchildz, hparentz⟩ := keep z (Or.inl rfl)
  have hprom : Promoted v c par z sc p (s.child .right sc) l (f :: c') r₂ := by
    refine ⟨?_, ?_, ?_, ?_, ?_, ?_, h.ne, hsc0, hnd, hfresh, ?_⟩
    · rw [hg.rbLinks, hg.root, hhoist.root]
      exact h.path.frame rfl (fun q hq d => (keep q (by simp [hq])).1 d)
        fun q hq => (keep q (by simp [hq])).2
    · rw [hg.parent, hparentz]; exact hpar
    · rw [hg.rbLinks, hg.child, hchildz]
      exact hl.frame rfl (fun q hq d => (keep q (by simp [hq])).1 d)
        fun q hq => (keep q (by simp [hq])).2
    · rw [hg.child, hchildz]; exact hl0
    · rw [hg.rbLinks, hg.child, hhoist.child, if_pos ⟨rfl, rfl⟩]
      exact hpathu
    · rw [hg.rbLinks]; exact hr₂u
    · rw [hg.root, hg.color, hhoist.root, hhoist.color]; exact hblack
  exact ⟨v, hrun, hprom, hg.base.trans hhoist.base,
    hhoist.aug out hcrsc hr₂u hgapv haugv⟩

/-- The successor is leftmost below the right child. -/
theorem rbErase_leftmost {c : Path Ptr} {f : Frame Ptr} {c' : Path Ptr}
    {par z y p sc : Ptr} {l r₂ : PTree Ptr}
    (h : AtNode s c z par (node l z (plug (f :: c') (node leaf sc r₂))))
    (hy : s.child .right z = y) (hl0 : s.child .left z ≠ 0#64)
    (hyl0 : s.child .left y ≠ 0#64)
    (hleftmost : rbEraseLeftmost walkBound y (s.child .left y) s = some (p, sc))
    (hcr : PathShape s.rbLinks z y (f :: c') p sc)
    (hsc : Shape s.rbLinks p sc (node leaf sc r₂)) (hbr : before (f :: c') = [])
    (hfs : f.side = .left) (hblack : s.color s.vmaRbRoot = .black) :
    ∃ t, (∃ reb, rbErase z s = some (reb, t)) ∧
      Erased s t (before c ++ (l.toList ++ (plug (f :: c') (node leaf sc r₂)).toList) ++ after c)
        (AugAround s c z l (plug (f :: c') (node leaf sc r₂)))
        (plug c (node l sc (plug (f :: c') r₂))) := by
  obtain ⟨v, hrun, hprom, hbase, haug⟩ := promoted_of_leftmost h hl0 hcr hsc hfs hblack
  obtain ⟨t, hrun', ht⟩ := rbErase_two (s := s) _ hprom hbase haug
  have hy0 : y ≠ 0#64 := hcr.ne_null y (hcr.top_mem (by simp))
  refine ⟨t, ?_, ht.shape, ?_, ht.base, ht.black, ht.aug⟩
  · simp only [rbErase, deref_of_ne _ h.ne, Option.bind_eq_bind, Option.bind_some, if_neg hl0,
      hy, if_neg hy0, if_neg hyl0, hleftmost, hrun, hrun']
    exact ⟨_, rfl⟩
  · rw [ht.list, toList_plug, toList_node, toList_plug, toList_plug, hbr]
    simp

/-! ## Colours -/

/-- The node whose place `rb_erase` empties: the node itself, or its successor when it has two
children. -/
def emptied (s : St σ η) (z : Ptr) : Ptr :=
  let child := s.child .right z
  if s.child .left z = 0#64 ∨ child = 0#64 then z
  else if s.child .left child = 0#64 then child
  else ((rbEraseLeftmost walkBound child (s.child .left child) s).map Prod.snd).getD 0#64

/-- No black node is missed in that place: its node is red, or a child moves up, or it is the
root. -/
def KeepsBlackHeight (s : St σ η) (z : Ptr) : Prop :=
  s.color (emptied s z) = .red ∨ s.child .left (emptied s z) ≠ 0#64 ∨
    s.child .right (emptied s z) ≠ 0#64 ∨ s.vmaRbRoot = emptied s z

instance (s : St σ η) (z : Ptr) : Decidable (KeepsBlackHeight s z) := by
  unfold KeepsBlackHeight
  exact inferInstance

theorem ne_leaf_iff {par p : Ptr} {a : PTree Ptr} (h : Shape s.rbLinks par p a) :
    a ≠ leaf ↔ p ≠ 0#64 := by
  refine not_congr ⟨?_, h.eq_leaf⟩
  rintro rfl
  exact h

/-- Only the empty path ends at the root. -/
theorem path_nil_iff {c : Path Ptr} {par p : Ptr} (h : PathShape s.rbLinks 0#64 s.vmaRbRoot c par p)
    (hp : p ∉ ptrs c) : c = [] ↔ s.vmaRbRoot = p := by
  constructor
  · rintro rfl
    exact h.2.symm
  · intro hroot
    by_contra hc
    exact hp (hroot ▸ h.top_mem hc)

/-- A node that has one child at most and is taken out. -/
theorem keeps_iff {c : Path Ptr} {par p : Ptr} {d : Side} {a : PTree Ptr}
    (h : AtNode s c p par (join d leaf p a)) :
    s.red p = true ∨ a ≠ leaf ∨ c = [] ↔
      s.color p = .red ∨ s.child .left p ≠ 0#64 ∨ s.child .right p ≠ 0#64 ∨ s.vmaRbRoot = p := by
  obtain ⟨-, -, -, hl, hr⟩ := shape_join.mp h.shape
  simp only [St.rbLinks_child] at hl hr
  have hp : p ∉ ptrs c := (nodup_plug.mp h.nodup).2.2 p (by simp)
  rw [St.red_eq_true, ne_leaf_iff hr, path_nil_iff h.path hp]
  cases d with
  | left => simp [show s.child .left p = 0#64 from hl, Side.flip]
  | right => simp [show s.child .right p = 0#64 from hl, Side.flip]

/-- The only child takes the colour of the node with its place. -/
theorem redBlack_of_only {c : Path Ptr} {par z x : Ptr} {d : Side} {w : PTree Ptr}
    (h : AtNode s c z par (join d leaf z w)) (hx : Shape s.rbLinks z x w)
    (hcol : ∀ q, t.color q = if x ≠ 0#64 ∧ q = x then s.color z else s.color q)
    (hrb : RedBlack s.red (plug c (join d leaf z w))) :
    RedBlack t.red (plug c w) ↔ s.red z = true ∨ w ≠ leaf ∨ c = [] := by
  obtain ⟨n, hbal, -⟩ := redBlack_plug.mp hrb
  obtain ⟨-, -, hdisj⟩ := nodup_plug.mp h.nodup
  refine redBlack_splice_iff hrb (alike_refl fun q hq => St.red_of_color ?_) ?_
  · rw [hcol, if_neg]
    rintro ⟨h0, rfl⟩
    exact hdisj q (by simp [hx.root_mem h0]) hq
  · by_cases hw : w = leaf
    · rw [hw]
      trivial
    · have h0 := (ne_leaf_iff hx).mp hw
      obtain ⟨l, r, rfl, -⟩ := hx.exists_join .left h0
      refine blackRoot_join.mpr (St.red_eq_false.mpr ?_)
      rw [hcol, if_pos ⟨h0, rfl⟩]
      exact St.red_eq_false.mp (hbal.black_of_child hw)

/-- The successor takes the colour of the node with its place, and the child it leaves behind
is black. -/
theorem redBlack_of_successor {c : Path Ptr} (cr : Path Ptr) {z sc : Ptr} {l r₂ : PTree Ptr}
    (hnd : (plug c (node l z (plug cr (node leaf sc r₂)))).toList.Nodup)
    (hr₂ : Shape s.rbLinks sc (s.child .right sc) r₂)
    (hcol : ∀ q, t.color q =
      if s.child .right sc ≠ 0#64 ∧ q = s.child .right sc then .black
      else if q = sc then s.color z else s.color q)
    (hrb : RedBlack s.red (plug c (node l z (plug cr (node leaf sc r₂))))) :
    RedBlack t.red (plug c (node l sc (plug cr r₂))) ↔ s.red sc = true ∨ r₂ ≠ leaf := by
  have hplug : ∀ (p : Ptr) (a : PTree Ptr),
      plug c (node l p (plug cr a)) = plug (cr ++ ⟨.right, p, l⟩ :: c) a := by
    intro p a
    rw [plug_append]
    rfl
  generalize hchild : s.child .right sc = child₂ at hr₂ hcol
  have hmem : child₂ ≠ 0#64 → child₂ ∈ r₂.toList := fun h0 => hr₂.root_mem h0
  obtain ⟨hndN, hndc, hdisj⟩ := nodup_plug.mp hnd
  obtain ⟨hzl, hzr, hndl, hndr, hlr⟩ := (nodup_join (d := .left)).mp hndN
  obtain ⟨hndS, hndcr, hdisjr⟩ := nodup_plug.mp hndr
  obtain ⟨-, hsr, -, -, -⟩ := (nodup_join (d := .left)).mp hndS
  have hscmem : sc ∈ (plug cr (node leaf sc r₂)).toList := mem_plug.mpr (Or.inl (by simp))
  have hr₂mem : ∀ q ∈ r₂.toList, q ∈ (plug cr (node leaf sc r₂)).toList :=
    fun q hq => mem_plug.mpr (Or.inl (by simp [hq]))
  have hsame : ∀ q, q ≠ sc → q ∉ r₂.toList → t.red q = s.red q := by
    intro q h1 h2
    refine St.red_of_color ?_
    rw [hcol, if_neg, if_neg h1]
    rintro ⟨h0, rfl⟩
    exact h2 (hmem h0)
  have hsc : t.red sc = s.red z := by
    rw [St.red, St.red, hcol, if_neg, if_pos rfl]
    rintro ⟨h0, rfl⟩
    exact hsr (hmem h0)
  rw [hplug] at hrb ⊢
  have halike : Alike s.red t.red (cr ++ ⟨.right, z, l⟩ :: c) (cr ++ ⟨.right, sc, l⟩ :: c) := by
    refine List.rel_append (alike_refl fun q hq => hsame q ?_ fun hq₂ => ?_)
      (.cons ⟨rfl, hsc, fun q hq => hsame q ?_ fun hq₂ => ?_⟩
        (alike_refl fun q hq => hsame q ?_ fun hq₂ => ?_))
    · rintro rfl
      exact hdisjr q (by simp) hq
    · exact hdisjr q (by simp [hq₂]) hq
    · rintro rfl
      exact hlr q hq hscmem
    · exact hlr q hq (hr₂mem q hq₂)
    · rintro rfl
      exact hdisj q (by simp [hscmem]) hq
    · exact hdisj q (by simp [hr₂mem q hq₂]) hq
  have hroot : BlackRoot t.red r₂ := by
    by_cases h0 : child₂ = 0#64
    · rw [hr₂.eq_leaf h0]
      trivial
    · obtain ⟨l', r', rfl, -⟩ := hr₂.exists_join .left h0
      exact blackRoot_join.mpr (St.red_eq_false.mpr (by rw [hcol, if_pos ⟨h0, rfl⟩]))
  have hiff := redBlack_splice_iff (d := .left) hrb halike hroot
  simpa using hiff

theorem keepsBlackHeight_successor {c : Path Ptr} (cr : Path Ptr) {par z sc : Ptr}
    {l r₂ : PTree Ptr}
    (h : AtNode s c z par (node l z (plug cr (node leaf sc r₂)))) (hl : s.child .left sc = 0#64)
    (hr₂ : Shape s.rbLinks sc (s.child .right sc) r₂) (he : emptied s z = sc) :
    KeepsBlackHeight s z ↔ s.red sc = true ∨ r₂ ≠ leaf := by
  obtain ⟨hnd, -, hdisj⟩ := nodup_plug.mp h.nodup
  obtain ⟨-, hzr, -⟩ := (nodup_join (d := .left)).mp hnd
  have hscmem : sc ∈ (plug cr (node leaf sc r₂)).toList := mem_plug.mpr (Or.inl (by simp))
  have hroot : s.vmaRbRoot ≠ sc := by
    intro heq
    by_cases hc : c = []
    · subst hc
      exact hzr (by rw [← h.path.2, heq] at *; exact hscmem)
    · exact hdisj sc (by simp [hscmem]) (heq ▸ h.path.top_mem hc)
  rw [KeepsBlackHeight, he, St.red_eq_true, ne_leaf_iff hr₂]
  simp [hl, hroot]

/-- `rb_erase` at the node `z` of a tree. -/
theorem rbErase_spec {c : Path Ptr} {par z : Ptr} {l r : PTree Ptr}
    (h : AtNode s c z par (node l z r)) (hblack : s.color s.vmaRbRoot = .black) :
    ∃ t b, (∃ reb, rbErase z s = some (reb, t)) ∧
      Erased s t (before c ++ (l.toList ++ r.toList) ++ after c) (AugAround s c z l r) b ∧
      (RedBlack s.red (plug c (node l z r)) → (RedBlack t.red b ↔ KeepsBlackHeight s z)) := by
  obtain ⟨-, -, -, hl, hr⟩ := h.shape
  simp only [St.rbLinks_child] at hl hr
  by_cases hl0 : s.child .left z = 0#64
  · obtain rfl : l = leaf := hl.eq_leaf hl0
    obtain ⟨t, ⟨reb, hrun⟩, ht⟩ := rbErase_noLeft h hblack
    refine ⟨t, _, ⟨reb, hrun⟩, ht, fun hrb => ?_⟩
    have he : emptied s z = z := by simp [emptied, hl0]
    rw [redBlack_of_only (d := .left) h hr (color_rbErase_noLeft hl0 hrun) hrb,
      keeps_iff (d := .left) h, KeepsBlackHeight, he]
  · cases r with
    | leaf =>
        obtain ⟨t, ⟨reb, hrun⟩, ht⟩ := rbErase_noRight h hl0 hblack
        refine ⟨t, _, ⟨reb, hrun⟩, ht, fun hrb => ?_⟩
        have hr0 : s.child .right z = 0#64 := hr
        have he : emptied s z = z := by simp [emptied, hr0]
        have hcol : ∀ q, t.color q =
            if s.child .left z ≠ 0#64 ∧ q = s.child .left z then s.color z else s.color q := by
          intro q
          rw [color_rbErase_noRight hl0 hr0 hrun]
          simp [hl0]
        rw [redBlack_of_only (d := .right) h hl hcol hrb, keeps_iff (d := .right) h,
          KeepsBlackHeight, he]
    | node rl y rr =>
        obtain ⟨hy, hy0, hpar, hrl, hrr⟩ := hr
        simp only [St.rbLinks_child, St.rbLinks_null, St.rbLinks_parent] at hy0 hrl hrr hpar
        by_cases hyl0 : s.child .left y = 0#64
        · obtain rfl : rl = leaf := hrl.eq_leaf hyl0
          obtain ⟨t, ⟨reb, hrun⟩, ht⟩ := rbErase_succChild h hl0 hblack
          refine ⟨t, _, ⟨reb, hrun⟩, ht, fun hrb => ?_⟩
          have he : emptied s z = y := by simp [emptied, hl0, hy, hy0, hyl0]
          rw [keepsBlackHeight_successor [] h hyl0 hrr he]
          exact redBlack_of_successor [] h.nodup hrr
            (color_rbErase_succChild hl0 hy hy0 hyl0 hrun) hrb
        · obtain ⟨hndN, -, -⟩ := nodup_plug.mp h.nodup
          obtain ⟨-, -, -, hndr, -⟩ := (nodup_join (d := .left)).mp hndN
          obtain ⟨-, -, hndrl, -, -⟩ := (nodup_join (d := .left)).mp hndr
          obtain ⟨p, sc, cr, r₂, hleft, hcr, hsc, heq, hbr, f, c', rfl, hfs⟩ :=
            rbEraseLeftmost_spec z y rl walkBound [⟨.left, y, rr⟩] y
              (s.child .left y)
              (le_of_lt (length_lt_walkBound hndrl fun h0 => hrl.ne_null _ h0 rfl)) hyl0
              ⟨rfl, hy0, rfl, hrr, hpar, rfl⟩ hrl rfl ⟨_, _, rfl, rfl⟩
          have heq' : node rl y rr = plug (f :: c') (node leaf sc r₂) := heq
          rw [heq'] at h ⊢
          obtain ⟨t, ⟨reb, hrun⟩, ht⟩ := rbErase_leftmost h hy hl0 hyl0 hleft hcr hsc hbr hfs hblack
          refine ⟨t, _, ⟨reb, hrun⟩, ht, fun hrb => ?_⟩
          have he : emptied s z = sc := by simp [emptied, hl0, hy, hy0, hyl0, hleft]
          obtain ⟨-, -, -, hscl, hr₂⟩ := hsc
          rw [keepsBlackHeight_successor _ h hscl hr₂ he]
          exact redBlack_of_successor _ h.nodup hr₂
            (color_rbErase_leftmost hl0 hy hy0 hyl0 hleft hrun) hrb

end BufferVM
