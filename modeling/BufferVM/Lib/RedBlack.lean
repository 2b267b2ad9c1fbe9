/-
  Lib/RedBlack.lean --- red-black trees of pointers.

  The colours are a function on the pointers, as a memory holds them.  A path is balanced for
  a black height when it becomes a red-black tree with every subtree of that height in its
  hole; `redBlack_plug` takes a red-black tree apart there and puts it together.  A node
  with at most one child can be taken out where no black node is missed.
-/
import BufferVM.Lib.PtrTree
import Mathlib.Algebra.Group.Nat.Even
import Mathlib.Data.Nat.Log

set_option autoImplicit false

namespace PtrTree

open PTree

variable {P : Type}

/-! ## Colours -/

section

variable (red : P → Bool)

/-- The root is not red.  An empty tree has no red root. -/
def BlackRoot : PTree P → Prop
  | .leaf => True
  | .node _ p _ => red p = false

/-- No red node has a red child. -/
def NoRedRed : PTree P → Prop
  | .leaf => True
  | .node l p r => (red p = true → BlackRoot red l ∧ BlackRoot red r) ∧ NoRedRed l ∧ NoRedRed r

instance BlackRoot.decidable : (t : PTree P) → Decidable (BlackRoot red t)
  | .leaf => .isTrue trivial
  | .node _ p _ => inferInstanceAs (Decidable (red p = false))

instance NoRedRed.decidable : (t : PTree P) → Decidable (NoRedRed red t)
  | .leaf => .isTrue trivial
  | .node l p r =>
      have := NoRedRed.decidable l
      have := NoRedRed.decidable r
      inferInstanceAs (Decidable ((red p = true → BlackRoot red l ∧ BlackRoot red r) ∧
        NoRedRed red l ∧ NoRedRed red r))

/-- Every way down to a leaf passes the same number of black nodes. -/
def BlackHeight : PTree P → Nat → Prop
  | .leaf, n => n = 0
  | .node l p r, n =>
      ∃ m, n = (if red p = true then m else m + 1) ∧ BlackHeight l m ∧ BlackHeight r m

/-- A red-black tree. -/
structure RedBlack (t : PTree P) : Prop where
  root : BlackRoot red t
  noRedRed : NoRedRed red t
  height : ∃ n, BlackHeight red t n

/-- A subtree of a red-black tree. -/
structure Balanced (t : PTree P) (n : Nat) : Prop where
  noRedRed : NoRedRed red t
  height : BlackHeight red t n

/-- The node above the hole is there, and black. -/
def BlackTop : Path P → Prop
  | [] => False
  | f :: _ => red f.ptr = false

/-- The path is a red-black tree but for a subtree of black height `n` in its hole. -/
def BalancedPath : Path P → Nat → Prop
  | [], _ => True
  | f :: c, n => Balanced red f.sib n ∧
      if red f.ptr = true then BlackRoot red f.sib ∧ BlackTop red c ∧ BalancedPath c n
      else BalancedPath c (n + 1)

end

/-! ## Taking trees apart -/

section

variable {red red' : P → Bool} {t u : PTree P} {p : P} {c : Path P} {d : Side} {n : Nat}

theorem balanced_leaf : Balanced red (leaf : PTree P) n ↔ n = 0 :=
  ⟨fun h => h.height, fun h => ⟨trivial, h⟩⟩

theorem blackRoot_join : BlackRoot red (join d t p u) ↔ red p = false := by
  cases d
  · exact Iff.rfl
  · exact Iff.rfl

theorem balanced_join_red (hp : red p = true) : Balanced red (join d t p u) n ↔
    BlackRoot red t ∧ BlackRoot red u ∧ Balanced red t n ∧ Balanced red u n := by
  constructor
  · intro h
    obtain ⟨hno, hheight⟩ := h
    cases d <;>
    · obtain ⟨hroots, hl, hr⟩ := hno
      obtain ⟨m, hm, hhl, hhr⟩ := hheight
      rw [if_pos hp] at hm
      subst hm
      obtain ⟨hbl, hbr⟩ := hroots hp
      exact ⟨by assumption, by assumption, ⟨by assumption, by assumption⟩,
        ⟨by assumption, by assumption⟩⟩
  · rintro ⟨hbt, hbu, ht, hu⟩
    cases d
    · exact ⟨⟨fun _ => ⟨hbt, hbu⟩, ht.noRedRed, hu.noRedRed⟩, n, (if_pos hp).symm, ht.height,
        hu.height⟩
    · exact ⟨⟨fun _ => ⟨hbu, hbt⟩, hu.noRedRed, ht.noRedRed⟩, n, (if_pos hp).symm, hu.height,
        ht.height⟩

theorem balanced_join_black (hp : red p = false) : Balanced red (join d t p u) n ↔
    ∃ m, n = m + 1 ∧ Balanced red t m ∧ Balanced red u m := by
  have hnot : ¬ red p = true := by
    rw [hp]
    exact Bool.false_ne_true
  constructor
  · intro h
    obtain ⟨hno, hheight⟩ := h
    cases d <;>
    · obtain ⟨-, hl, hr⟩ := hno
      obtain ⟨m, hm, hhl, hhr⟩ := hheight
      rw [if_neg hnot] at hm
      exact ⟨m, hm, ⟨by assumption, by assumption⟩, ⟨by assumption, by assumption⟩⟩
  · rintro ⟨m, rfl, ht, hu⟩
    cases d
    · exact ⟨⟨fun h => absurd h hnot, ht.noRedRed, hu.noRedRed⟩, m, (if_neg hnot).symm, ht.height,
        hu.height⟩
    · exact ⟨⟨fun h => absurd h hnot, hu.noRedRed, ht.noRedRed⟩, m, (if_neg hnot).symm, hu.height,
        ht.height⟩

/-- A red-black tree, at a hole. -/
theorem redBlack_plug : RedBlack red (plug c t) ↔
    ∃ n, Balanced red t n ∧ BalancedPath red c n ∧ (BlackRoot red t ∨ BlackTop red c) := by
  induction c generalizing t with
  | nil =>
      constructor
      · rintro ⟨hroot, hno, n, hn⟩
        exact ⟨n, ⟨hno, hn⟩, trivial, Or.inl hroot⟩
      · rintro ⟨n, ⟨hno, hn⟩, -, hroot | htop⟩
        · exact ⟨hroot, hno, n, hn⟩
        · exact htop.elim
  | cons f c ih =>
      rw [plug, ih]
      cases hf : red f.ptr with
      | true =>
          simp only [BalancedPath, hf, if_true, blackRoot_join, balanced_join_red hf, BlackTop,
            Bool.true_eq_false, false_or, or_false]
          constructor
          · rintro ⟨n, ⟨ht, hs, hbt, hbs⟩, hc, htop⟩
            exact ⟨n, hbt, ⟨hbs, hs, htop, hc⟩, ht⟩
          · rintro ⟨n, hbt, ⟨hbs, hs, htop, hc⟩, ht⟩
            exact ⟨n, ⟨ht, hs, hbt, hbs⟩, hc, htop⟩
      | false =>
          simp only [BalancedPath, hf, Bool.false_eq_true, if_false, blackRoot_join,
            balanced_join_black hf, BlackTop, true_or, or_true, and_true]
          constructor
          · rintro ⟨n, ⟨m, rfl, hbt, hbs⟩, hc⟩
            exact ⟨m, hbt, hbs, hc⟩
          · rintro ⟨m, hbt, hbs, hc⟩
            exact ⟨m + 1, ⟨m, rfl, hbt, hbs⟩, hc⟩

/-! ## Other colours -/

theorem BlackRoot.congr (h : BlackRoot red t) (heq : ∀ q ∈ t.toList, red' q = red q) :
    BlackRoot red' t := by
  cases t with
  | leaf => trivial
  | node l p r => exact (heq p (by simp)).trans h

theorem NoRedRed.congr (h : NoRedRed red t) (heq : ∀ q ∈ t.toList, red' q = red q) :
    NoRedRed red' t := by
  induction t with
  | leaf => trivial
  | node l p r ihl ihr =>
      obtain ⟨hp, hl, hr⟩ := h
      have hleq : ∀ q ∈ l.toList, red' q = red q := fun q hq => heq q (by simp [hq])
      have hreq : ∀ q ∈ r.toList, red' q = red q := fun q hq => heq q (by simp [hq])
      refine ⟨fun hred => ?_, ihl hl hleq, ihr hr hreq⟩
      obtain ⟨hbl, hbr⟩ := hp ((heq p (by simp)).symm.trans hred)
      exact ⟨hbl.congr hleq, hbr.congr hreq⟩

theorem BlackHeight.congr (h : BlackHeight red t n) (heq : ∀ q ∈ t.toList, red' q = red q) :
    BlackHeight red' t n := by
  induction t generalizing n with
  | leaf => exact h
  | node l p r ihl ihr =>
      obtain ⟨m, hm, hl, hr⟩ := h
      refine ⟨m, ?_, ihl hl fun q hq => heq q (by simp [hq]),
        ihr hr fun q hq => heq q (by simp [hq])⟩
      rw [heq p (by simp)]
      exact hm

theorem Balanced.congr (h : Balanced red t n) (heq : ∀ q ∈ t.toList, red' q = red q) :
    Balanced red' t n :=
  ⟨h.noRedRed.congr heq, h.height.congr heq⟩

/-- Two paths with the same subtrees beside them and nodes of the same colours. -/
def Alike (red red' : P → Bool) : Path P → Path P → Prop :=
  List.Forall₂ fun f f' => f'.sib = f.sib ∧ red' f'.ptr = red f.ptr ∧
    ∀ q ∈ f.sib.toList, red' q = red q

theorem Alike.blackTop {c' : Path P} (h : Alike red red' c c') (htop : BlackTop red c) :
    BlackTop red' c' := by
  cases h with
  | nil => exact htop
  | cons hf _ => exact hf.2.1.trans htop

theorem BalancedPath.alike {c' : Path P} (hb : BalancedPath red c n) (h : Alike red red' c c') :
    BalancedPath red' c' n := by
  induction h generalizing n with
  | nil => trivial
  | @cons f f' c c' hf hc ih =>
      obtain ⟨hsib, hcol, hbelow⟩ := hf
      obtain ⟨hbal, hrest⟩ := hb
      rw [BalancedPath, hsib, hcol]
      refine ⟨hbal.congr hbelow, ?_⟩
      by_cases hred : red f.ptr = true
      · rw [if_pos hred] at hrest ⊢
        obtain ⟨hroot, htop, hrest⟩ := hrest
        exact ⟨hroot.congr hbelow, Alike.blackTop hc htop, ih hrest⟩
      · rw [if_neg hred] at hrest ⊢
        exact ih hrest

/-- The same path under colours that agree on it. -/
theorem alike_refl (h : ∀ q ∈ ptrs c, red' q = red q) : Alike red red' c c := by
  induction c with
  | nil => exact .nil
  | cons f c ih =>
      exact .cons ⟨rfl, h f.ptr (by simp), fun q hq => h q (by simp [hq])⟩
        (ih fun q hq => h q (by simp [hq]))

/-! ## The steps of an insertion -/

/-- Around a red node at the end of a path: its sibling is black, and so is its parent. -/
theorem BalancedPath.red_frame {f g : Frame P} (h : BalancedPath red (f :: g :: c) n)
    (hf : red f.ptr = true) : Balanced red f.sib n ∧ BlackRoot red f.sib ∧ red g.ptr = false ∧
      Balanced red g.sib n ∧ BalancedPath red c (n + 1) := by
  obtain ⟨hsib, hrest⟩ := h
  rw [if_pos hf] at hrest
  obtain ⟨hroot, htop, huncle, hrest⟩ := hrest
  have hg : ¬ red g.ptr = true := by
    rw [show red g.ptr = false from htop]
    exact Bool.false_ne_true
  rw [if_neg hg] at hrest
  exact ⟨hsib, hroot, htop, huncle, hrest⟩

/-- A red root painted black: one more black node on every way down. -/
theorem Balanced.blacken (h : Balanced red (join d t p u) n) (hp : red p = true)
    (hp' : red' p = false) (heq : ∀ q, q ∈ t.toList ∨ q ∈ u.toList → red' q = red q) :
    Balanced red' (join d t p u) (n + 1) := by
  obtain ⟨-, -, ht, hu⟩ := (balanced_join_red hp).mp h
  exact (balanced_join_black hp').mpr
    ⟨n, rfl, ht.congr fun q hq => heq q (Or.inl hq), hu.congr fun q hq => heq q (Or.inr hq)⟩

/-- The red node ends at the root, which is painted black. -/
theorem Balanced.redBlack_blacken (h : Balanced red (join d t p u) n) (hp : red p = true)
    (hp' : red' p = false) (heq : ∀ q, q ∈ t.toList ∨ q ∈ u.toList → red' q = red q) :
    RedBlack red' (join d t p u) := by
  obtain ⟨hno, hheight⟩ := h.blacken hp hp' heq
  exact ⟨blackRoot_join.mpr hp', hno, n + 1, hheight⟩

section

variable {f g : Frame P} {a x y : PTree P}

/-- A red uncle: the red moves up to the grandparent. -/
theorem Balanced.flip {lu ru : PTree P} {v : P} (ha : Balanced red a n)
    (hc : BalancedPath red (f :: g :: c) n) (hf : red f.ptr = true)
    (huncle : g.sib = join d lu v ru) (hv : red v = true) (hf' : red' f.ptr = false)
    (hv' : red' v = false) (hg' : red' g.ptr = true)
    (heq : ∀ q, q ∈ a.toList ∨ q ∈ f.sib.toList ∨ q ∈ lu.toList ∨ q ∈ ru.toList ∨ q ∈ ptrs c →
      red' q = red q) :
    Balanced red' (join g.side (join f.side a f.ptr f.sib) g.ptr g.sib) (n + 1) ∧
      BalancedPath red' c (n + 1) := by
  obtain ⟨hsib, -, -, hu, hrest⟩ := hc.red_frame hf
  rw [huncle] at hu ⊢
  have hparent : Balanced red' (join f.side a f.ptr f.sib) (n + 1) :=
    (balanced_join_black hf').mpr ⟨n, rfl, ha.congr fun q hq => heq q (Or.inl hq),
      hsib.congr fun q hq => heq q (Or.inr (Or.inl hq))⟩
  have hu' : Balanced red' (join d lu v ru) (n + 1) := hu.blacken hv hv' fun q hq => by
    rcases hq with hq | hq
    · exact heq q (Or.inr (Or.inr (Or.inl hq)))
    · exact heq q (Or.inr (Or.inr (Or.inr (Or.inl hq))))
  refine ⟨(balanced_join_red hg').mpr ⟨blackRoot_join.mpr hf', blackRoot_join.mpr hv', hparent,
    hu'⟩, hrest.alike (alike_refl fun q hq => ?_)⟩
  exact heq q (Or.inr (Or.inr (Or.inr (Or.inr hq))))

/-- A black uncle and the node on the outside: one rotation ends it. -/
theorem Balanced.redBlack_outside (ha : Balanced red a n) (hc : BalancedPath red (f :: g :: c) n)
    (hf : red f.ptr = true) (huncle : BlackRoot red g.sib) (hf' : red' f.ptr = false)
    (hg' : red' g.ptr = true)
    (heq : ∀ q, q ∈ a.toList ∨ q ∈ f.sib.toList ∨ q ∈ g.sib.toList ∨ q ∈ ptrs c →
      red' q = red q) :
    RedBlack red' (plug c (join g.side a f.ptr (join g.side f.sib g.ptr g.sib))) := by
  obtain ⟨hsib, hsibroot, -, hu, hrest⟩ := hc.red_frame hf
  have heqs : ∀ q ∈ f.sib.toList, red' q = red q := fun q hq => heq q (Or.inr (Or.inl hq))
  have hequ : ∀ q ∈ g.sib.toList, red' q = red q := fun q hq => heq q (Or.inr (Or.inr (Or.inl hq)))
  have hg : Balanced red' (join g.side f.sib g.ptr g.sib) n := (balanced_join_red hg').mpr
    ⟨hsibroot.congr heqs, huncle.congr hequ, hsib.congr heqs, hu.congr hequ⟩
  refine redBlack_plug.mpr ⟨n + 1, (balanced_join_black hf').mpr ⟨n, rfl, ?_, hg⟩, ?_,
    Or.inl (blackRoot_join.mpr hf')⟩
  · exact ha.congr fun q hq => heq q (Or.inl hq)
  · exact hrest.alike (alike_refl fun q hq => heq q (Or.inr (Or.inr (Or.inr hq))))

/-- A black uncle and the node on the inside: the two rotations bring it to the top. -/
theorem Balanced.redBlack_inside (ha : Balanced red (join g.side x p y) n)
    (hc : BalancedPath red (f :: g :: c) n) (hp : red p = true) (hf : red f.ptr = true)
    (huncle : BlackRoot red g.sib) (hp' : red' p = false) (hf' : red' f.ptr = true)
    (hg' : red' g.ptr = true)
    (heq : ∀ q, q ∈ x.toList ∨ q ∈ y.toList ∨ q ∈ f.sib.toList ∨ q ∈ g.sib.toList ∨ q ∈ ptrs c →
      red' q = red q) :
    RedBlack red'
      (plug c (join g.side (join g.side f.sib f.ptr x) p (join g.side y g.ptr g.sib))) := by
  obtain ⟨hsib, hsibroot, -, hu, hrest⟩ := hc.red_frame hf
  obtain ⟨hbx, hby, hx, hy⟩ := (balanced_join_red hp).mp ha
  have heqx : ∀ q ∈ x.toList, red' q = red q := fun q hq => heq q (Or.inl hq)
  have heqy : ∀ q ∈ y.toList, red' q = red q := fun q hq => heq q (Or.inr (Or.inl hq))
  have heqs : ∀ q ∈ f.sib.toList, red' q = red q :=
    fun q hq => heq q (Or.inr (Or.inr (Or.inl hq)))
  have hequ : ∀ q ∈ g.sib.toList, red' q = red q :=
    fun q hq => heq q (Or.inr (Or.inr (Or.inr (Or.inl hq))))
  have hfx : Balanced red' (join g.side f.sib f.ptr x) n := (balanced_join_red hf').mpr
    ⟨hsibroot.congr heqs, hbx.congr heqx, hsib.congr heqs, hx.congr heqx⟩
  have hgy : Balanced red' (join g.side y g.ptr g.sib) n := (balanced_join_red hg').mpr
    ⟨hby.congr heqy, huncle.congr hequ, hy.congr heqy, hu.congr hequ⟩
  refine redBlack_plug.mpr ⟨n + 1, (balanced_join_black hp').mpr ⟨n, rfl, hfx, hgy⟩, ?_,
    Or.inl (blackRoot_join.mpr hp')⟩
  exact hrest.alike (alike_refl fun q hq => heq q (Or.inr (Or.inr (Or.inr (Or.inr hq)))))

end

/-! ## A node with at most one child -/

theorem Balanced.eq_leaf (h : Balanced red t 0) (hroot : BlackRoot red t) : t = leaf := by
  cases t with
  | leaf => rfl
  | node l p r =>
      obtain ⟨m, hm, -⟩ := (balanced_join_black (d := .left) hroot).mp h
      omega

/-- The child of a node that has only one is alone and red below a black node: black, it takes
the place of the node.  Without a child, a red node can go. -/
theorem Balanced.splice (h : Balanced red (join d leaf p t) n) (hkeep : red p = true ∨ t ≠ leaf)
    (hroot : BlackRoot red' t) : Balanced red' t n := by
  cases hp : red p with
  | true =>
      obtain ⟨-, hbt, hleaf, ht⟩ := (balanced_join_red hp).mp h
      obtain rfl := balanced_leaf.mp hleaf
      obtain rfl := ht.eq_leaf hbt
      exact balanced_leaf.mpr rfl
  | false =>
      obtain ⟨m, rfl, hleaf, ht⟩ := (balanced_join_black hp).mp h
      obtain rfl := balanced_leaf.mp hleaf
      have hne : t ≠ leaf := by
        rcases hkeep with hred | hne
        · rw [hp] at hred
          cases hred
        · exact hne
      cases t with
      | leaf => exact absurd rfl hne
      | node l q r =>
          cases hq : red q with
          | true =>
              obtain ⟨hbl, hbr, hl, hr⟩ := (balanced_join_red (d := .left) hq).mp ht
              obtain rfl := hl.eq_leaf hbl
              obtain rfl := hr.eq_leaf hbr
              exact (balanced_join_black (d := .left) hroot).mpr
                ⟨0, rfl, balanced_leaf.mpr rfl, balanced_leaf.mpr rfl⟩
          | false =>
              obtain ⟨m, hm, -⟩ := (balanced_join_black (d := .left) hq).mp ht
              omega

theorem BlackHeight.unique {m : Nat} (h : BlackHeight red t n) (h' : BlackHeight red t m) :
    n = m := by
  induction t generalizing n m with
  | leaf => exact h.trans h'.symm
  | node l p r ihl _ =>
      obtain ⟨n', rfl, hl, -⟩ := h
      obtain ⟨m', rfl, hl', -⟩ := h'
      rw [ihl hl hl']

/-- Above a child that is not empty, beside an empty one, the node is black. -/
theorem Balanced.black_of_child (h : Balanced red (join d leaf p t) n) (ht : t ≠ leaf) :
    red p = false := by
  cases hp : red p with
  | false => rfl
  | true =>
      obtain ⟨-, hbt, hleaf, hbal⟩ := (balanced_join_red hp).mp h
      obtain rfl := balanced_leaf.mp hleaf
      exact absurd (hbal.eq_leaf hbt) ht

/-- A node with at most one child goes out of a red-black tree: what is left is one exactly if
the node was red, or had a child, or was the root. -/
theorem redBlack_splice_iff {c' : Path P} (h : RedBlack red (plug c (join d leaf p t)))
    (hc : Alike red red' c c') (hroot : BlackRoot red' t) :
    RedBlack red' (plug c' t) ↔ red p = true ∨ t ≠ leaf ∨ c = [] := by
  obtain ⟨n, hbal, hpath, -⟩ := redBlack_plug.mp h
  constructor
  · intro hred
    by_cases hkeep : red p = true ∨ t ≠ leaf
    · rw [← or_assoc]
      exact Or.inl hkeep
    · rw [not_or, not_ne_iff] at hkeep
      obtain ⟨hp, rfl⟩ := hkeep
      obtain ⟨k, rfl, hleaf, -⟩ := (balanced_join_black (Bool.eq_false_iff.mpr hp)).mp hbal
      obtain rfl := balanced_leaf.mp hleaf
      obtain ⟨m, hleaf', hpath', -⟩ := redBlack_plug.mp hred
      obtain rfl := balanced_leaf.mp hleaf'
      -- the sibling of the hole still has the black node that is missing now
      cases hc with
      | nil => exact Or.inr (Or.inr rfl)
      | cons hf _ =>
          obtain ⟨hsib, -, hbelow⟩ := hf
          obtain ⟨hone, -⟩ := hpath
          obtain ⟨hzero, -⟩ := hpath'
          rw [hsib] at hzero
          have := (hone.congr hbelow).height.unique hzero.height
          omega
  · intro hkeep
    rw [← or_assoc] at hkeep
    rcases hkeep with hkeep | rfl
    · exact redBlack_plug.mpr ⟨n, hbal.splice hkeep hroot, hpath.alike hc, Or.inl hroot⟩
    · cases hc with
      | nil =>
          by_cases ht : t = leaf
          · subst ht
            exact ⟨trivial, trivial, 0, rfl⟩
          · obtain ⟨hno, hheight⟩ := hbal.splice (Or.inr ht) hroot
            exact ⟨hroot, hno, n, hheight⟩

/-! ## How deep a red-black tree is -/

/-- The length of the longest way down. -/
def PTree.depth : PTree P → Nat
  | .leaf => 0
  | .node l _ r => max l.depth r.depth + 1

theorem Balanced.depth_le (h : Balanced red t n) :
    t.depth ≤ 2 * n + 1 ∧ (BlackRoot red t → t.depth ≤ 2 * n) ∧ 2 ^ n ≤ t.toList.length + 1 := by
  induction t generalizing n with
  | leaf =>
      obtain rfl := balanced_leaf.mp h
      exact ⟨Nat.zero_le _, fun _ => Nat.zero_le _, by simp⟩
  | node l p r ihl ihr =>
      simp only [PTree.depth, toList_node, List.length_append, List.length_cons]
      cases hp : red p with
      | true =>
          obtain ⟨hbl, hbr, hl, hr⟩ := (balanced_join_red (d := .left) hp).mp h
          obtain ⟨-, hl', hsl⟩ := ihl hl
          obtain ⟨-, hr', -⟩ := ihr hr
          have h1 := hl' hbl
          have h2 := hr' hbr
          refine ⟨by omega, fun hroot => ?_, by omega⟩
          rw [BlackRoot, hp] at hroot
          cases hroot
      | false =>
          obtain ⟨m, rfl, hl, hr⟩ := (balanced_join_black (d := .left) hp).mp h
          obtain ⟨hl', -, hsl⟩ := ihl hl
          obtain ⟨hr', -, hsr⟩ := ihr hr
          have hpow : 2 ^ (m + 1) = 2 ^ m + 2 ^ m := by rw [Nat.pow_succ, Nat.mul_two]
          exact ⟨by omega, fun _ => by omega, by omega⟩

/-- A red-black tree is at most twice as deep as it must be. -/
theorem RedBlack.depth_le (h : RedBlack red t) : t.depth ≤ 2 * Nat.log 2 (t.toList.length + 1) := by
  obtain ⟨n, hn⟩ := h.height
  obtain ⟨-, hdepth, hsize⟩ := Balanced.depth_le ⟨h.noRedRed, hn⟩
  have hlog := Nat.le_log_of_pow_le (by decide : 1 < 2) hsize
  have hle := hdepth h.root
  omega

end

end PtrTree
