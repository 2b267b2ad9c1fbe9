/-
  Kernel/RbRuns.lean --- runs of insertions and removals on the tree of VMAs.

  A run starts from the empty tree and takes `vma_link_rb` at empty links and `rb_erase` at
  nodes of the tree, whose result no caller reads.  Between two calls anything may be written
  but the links and colours of the tree.  Two things are kept: a black root always, which is
  all that `rb_insert` needs to end, and the red-black rules as long as no removal takes a
  black node out of a place where nothing moves up.
-/
import BufferVM.Kernel.WellFormed
import BufferVM.Lib.Run

set_option autoImplicit false

namespace BufferVM

open PtrTree PtrTree.PTree

variable {σ η : Type} {s t u v : St σ η}

/-! ## The calls -/

/-- A call on the tree, or a change of anything else. -/
inductive TreeCall (σ η : Type) where
  | linkRb (vma : Ptr) (rbLink : Link) (rbParent : Ptr)
  | erase (vma : Ptr)
  | elsewhere (t : St σ η)

/-- The state after a call.  The node that `rb_erase` returns is dropped. -/
def treeStep (s : St σ η) : TreeCall σ η → Option (St σ η)
  | .linkRb vma rbLink rbParent => vmaLinkRb vma rbLink rbParent s
  | .erase vma => (rbErase vma s).map Prod.snd
  | .elsewhere t => some t

/-- The pointer is a node of the tree. -/
def InTree (s : St σ η) (p : Ptr) : Prop :=
  ∃ a, Shape s.rbLinks 0#64 s.vmaRbRoot a ∧ p ∈ a.toList

/-- The tree is the same: its root, and the links and colours of its nodes. -/
structure SameTree (s t : St σ η) : Prop where
  root : t.vmaRbRoot = s.vmaRbRoot
  child : ∀ p, InTree s p → ∀ d, t.child d p = s.child d p
  parent : ∀ p, InTree s p → t.parent p = s.parent p
  color : ∀ p, InTree s p → t.color p = s.color p

/-- What the callers promise: an empty link and a node that is not in the tree, or a node that
is. -/
def Legal (s : St σ η) : TreeCall σ η → Prop
  | .linkRb vma rbLink rbParent => ∃ c, rbLink = linkOf c ∧ Vacant s c rbParent vma
  | .erase vma => InTree s vma
  | .elsewhere t => SameTree s t

/-- No removal leaves a black node missing. -/
def Keeps (s : St σ η) : TreeCall σ η → Prop
  | .erase vma => KeepsBlackHeight s vma
  | _ => True

instance (s : St σ η) (l : TreeCall σ η) : Decidable (Keeps s l) := by
  cases l
  · exact .isTrue trivial
  · exact inferInstanceAs (Decidable (KeepsBlackHeight s _))
  · exact .isTrue trivial

/-- The tree is a red-black tree, and a walk down it is logarithmic in its size. -/
def TreeBalanced (s : St σ η) : Prop :=
  ∃ a, Shape s.rbLinks 0#64 s.vmaRbRoot a ∧ RedBlack s.red a ∧
    a.depth ≤ 2 * Nat.log 2 (a.toList.length + 1)

/-- What every legal call keeps: a tree with a black root. -/
structure TreeOk (s : St σ η) (a : PTree Ptr) : Prop where
  shape : Shape s.rbLinks 0#64 s.vmaRbRoot a
  nodup : a.toList.Nodup
  black : s.vmaRbRoot ≠ 0#64 → s.color s.vmaRbRoot = .black

theorem treeOk_leaf (h : s.vmaRbRoot = 0#64) : TreeOk s leaf :=
  ⟨h, List.nodup_nil, fun h0 => absurd h h0⟩

theorem TreeOk.balanced_iff {a : PTree Ptr} (h : TreeOk s a) :
    TreeBalanced s ↔ RedBlack s.red a := by
  constructor
  · rintro ⟨b, hb, hrb, -⟩
    rwa [h.shape.unique hb]
  · intro hrb
    exact ⟨a, h.shape, hrb, hrb.depth_le⟩

/-! ## One call -/

theorem TreeOk.linkRb {a : PTree Ptr} {c : Path Ptr} {vma rbParent : Ptr} (h : TreeOk s a)
    (hc : Vacant s c rbParent vma) :
    ∃ t b, vmaLinkRb vma (linkOf c) rbParent s = some t ∧ TreeOk t b ∧
      (RedBlack s.red a → RedBlack t.red b) := by
  obtain rfl : a = plug c leaf :=
    h.shape.unique (shape_plug.mpr ⟨rbParent, 0#64, hc.path, rfl⟩)
  obtain ⟨t, b, hrun, hb⟩ := vmaLinkRb_linked hc h.black
  exact ⟨t, b, hrun, ⟨hb.shape, hb.nodup, fun _ => hb.black⟩, hb.redBlack⟩

theorem TreeOk.erase {a : PTree Ptr} {vma : Ptr} (h : TreeOk s a) (hvma : InTree s vma) :
    ∃ reb t b, rbErase vma s = some (reb, t) ∧ TreeOk t b ∧
      (RedBlack s.red a → (RedBlack t.red b ↔ KeepsBlackHeight s vma)) := by
  obtain ⟨a', ha', hmem⟩ := hvma
  obtain rfl := h.shape.unique ha'
  have hroot : s.vmaRbRoot ≠ 0#64 := by
    intro h0
    rw [h.shape.eq_leaf h0] at hmem
    cases hmem
  obtain ⟨c, l, r, rfl⟩ := exists_path_of_mem hmem
  obtain ⟨par, x, hpath, hshape⟩ := shape_plug.mp h.shape
  obtain rfl : x = vma := hshape.1
  have hat : AtNode s c x par (node l x r) :=
    ⟨hpath, hshape, hshape.2.1, h.nodup, fun _ => h.black hroot⟩
  obtain ⟨t, b, ⟨reb, hrun⟩, hb, hrb⟩ := rbErase_spec hat (h.black hroot)
  refine ⟨reb, t, b, hrun, ⟨hb.shape, ?_, hb.black⟩, hrb⟩
  rw [hb.list]
  refine List.Nodup.sublist ?_ h.nodup
  rw [toList_plug]
  refine List.Sublist.append (List.Sublist.append (List.Sublist.refl _) ?_) (List.Sublist.refl _)
  exact List.Sublist.append (List.Sublist.refl _) (List.sublist_cons_self _ _)

theorem TreeOk.elsewhere {a : PTree Ptr} (h : TreeOk s a) (hsame : SameTree s t) :
    TreeOk t a ∧ ∀ p ∈ a.toList, t.red p = s.red p := by
  have hin : ∀ p ∈ a.toList, InTree s p := fun p hp => ⟨a, h.shape, hp⟩
  refine ⟨⟨?_, h.nodup, fun h0 => ?_⟩, fun p hp => St.red_of_color (hsame.color p (hin p hp))⟩
  · rw [hsame.root]
    exact h.shape.frame rfl (fun p hp d => hsame.child p (hin p hp) d)
      fun p hp => hsame.parent p (hin p hp)
  · rw [hsame.root] at h0 ⊢
    rw [hsame.color _ (hin _ (h.shape.root_mem h0))]
    exact h.black h0

/-- A legal call ends, with a tree that has a black root again.  It is red-black again exactly
if the call keeps the black height. -/
theorem TreeOk.step {a : PTree Ptr} {l : TreeCall σ η} (h : TreeOk s a) (hok : Legal s l) :
    ∃ t b, treeStep s l = some t ∧ TreeOk t b ∧
      (RedBlack s.red a → (RedBlack t.red b ↔ Keeps s l)) := by
  cases l with
  | linkRb vma rbLink rbParent =>
      obtain ⟨c, rfl, hc⟩ := hok
      obtain ⟨t, b, hrun, hb, hrb⟩ := h.linkRb hc
      exact ⟨t, b, hrun, hb, fun ha => ⟨fun _ => trivial, fun _ => hrb ha⟩⟩
  | erase vma =>
      obtain ⟨reb, t, b, hrun, hb, hrb⟩ := h.erase hok
      exact ⟨t, b, by simp [treeStep, hrun], hb, hrb⟩
  | elsewhere t =>
      obtain ⟨hb, hred⟩ := h.elsewhere hok
      refine ⟨t, a, rfl, hb, fun ha => ⟨fun _ => trivial, fun _ => ?_⟩⟩
      obtain ⟨hroot, hno, n, hn⟩ := ha
      exact ⟨hroot.congr hred, hno.congr hred, n, hn.congr hred⟩

/-! ## Runs -/

/-- A legal call that keeps the black height. -/
def Keeping (s : St σ η) (l : TreeCall σ η) : Prop := Legal s l ∧ Keeps s l

theorem TreeOk.run {a : PTree Ptr} {ls : List (TreeCall σ η)} (h : TreeOk s a)
    (hrun : Run.Steps treeStep Legal s ls t) : ∃ b, TreeOk t b := by
  refine hrun.invariant (fun s => ∃ a, TreeOk s a) ?_ ⟨a, h⟩
  rintro s l t ⟨a, ha⟩ hok hstep
  obtain ⟨u, b, hu, hb, -⟩ := ha.step hok
  obtain rfl := Option.some.inj (hu.symm.trans hstep)
  exact ⟨b, hb⟩

theorem TreeOk.run_iff {ls : List (TreeCall σ η)} (hrun : Run.Steps treeStep Legal s ls t) :
    ∀ {a : PTree Ptr}, TreeOk s a → RedBlack s.red a →
      ((∀ ls' u, ls' <+: ls → Run.Steps treeStep Legal s ls' u → TreeBalanced u) ↔
        Run.Steps treeStep Keeping s ls t) := by
  induction hrun with
  | nil s =>
      intro a ha hrb
      refine ⟨fun _ => .nil s, fun _ ls' u hpre hu => ?_⟩
      obtain rfl := List.prefix_nil.mp hpre
      cases hu
      exact ha.balanced_iff.mpr hrb
  | @cons s u t l ls hok hstep hrest ih =>
      intro a ha hrb
      obtain ⟨u', b, hu', hb, hiff⟩ := ha.step hok
      obtain rfl := Option.some.inj (hu'.symm.trans hstep)
      constructor
      · intro hall
        have hbal := hall [l] u' ⟨ls, rfl⟩ (.cons hok hstep (.nil u'))
        have hrb' := hb.balanced_iff.mp hbal
        refine .cons ⟨hok, (hiff hrb).mp hrb'⟩ hstep ((ih hb hrb').mp fun ls' v hpre hv => ?_)
        exact hall (l :: ls') v ((List.prefix_cons_inj l).mpr hpre) (.cons hok hstep hv)
      · intro hkeep ls' v hpre hv
        cases hkeep with
        | cons hkl hstep' hrest' =>
            obtain rfl := Option.some.inj (hstep.symm.trans hstep')
            cases hv with
            | nil => exact ha.balanced_iff.mpr hrb
            | cons hokv hstepv hrestv =>
                obtain ⟨rfl, hpre'⟩ := List.cons_prefix_cons.mp hpre
                obtain rfl := Option.some.inj (hstep.symm.trans hstepv)
                exact (ih hb ((hiff hrb).mpr hkl.2)).mpr hrest' _ v hpre' hrestv

/-- The tree is a red-black tree all along a run exactly if no removal takes a black node out
of a place where nothing moves up. -/
theorem treeBalanced_along_iff {ls : List (TreeCall σ η)} (hs : s.vmaRbRoot = 0#64)
    (hrun : Run.Steps treeStep Legal s ls t) :
    (∀ ls' u, ls' <+: ls → Run.Steps treeStep Legal s ls' u → TreeBalanced u) ↔
      Run.Steps treeStep Keeping s ls t :=
  TreeOk.run_iff hrun (treeOk_leaf hs) ⟨trivial, trivial, 0, rfl⟩

/-- Whether a call is legal, for a list of paths to look for the links and the nodes on. -/
def legalTest (cs : List (Path Ptr)) (s : St σ η) : TreeCall σ η → Bool
  | .linkRb vma rbLink rbParent => cs.any fun c =>
      decide (rbLink = linkOf c ∧ PathShape s.rbLinks 0#64 s.vmaRbRoot c rbParent 0#64 ∧
        (plug c (node leaf vma leaf)).toList.Nodup ∧ vma ≠ 0#64 ∧ (s.vma vma).next = 0#64)
  | .erase vma => cs.any fun c =>
      decide (Shape s.rbLinks 0#64 s.vmaRbRoot (plug c leaf)) && (plug c leaf).toList.contains vma
  | .elsewhere _ => false

theorem legal_of_test {cs : List (Path Ptr)} (s : St σ η) (l : TreeCall σ η)
    (h : legalTest cs s l = true) : Legal s l := by
  cases l with
  | linkRb vma rbLink rbParent =>
      obtain ⟨c, -, hc⟩ := List.any_eq_true.mp h
      obtain ⟨hlink, hpath, hnd, hne, hnext⟩ := of_decide_eq_true hc
      exact ⟨c, hlink, hpath, hnd, hne, fun h0 => absurd hnext h0⟩
  | erase vma =>
      obtain ⟨c, -, hc⟩ := List.any_eq_true.mp h
      obtain ⟨hshape, hmem⟩ := Bool.and_eq_true_iff.mp hc
      exact ⟨_, of_decide_eq_true hshape, List.contains_iff_mem.mp hmem⟩
  | elsewhere t => cases h

/-- The store without VMAs. -/
def bareTree : St Unit Unit := St.empty () () smallGlobals

/-- Node 1 at the root with 2 and 3 below it, and 4 below 2. -/
def fourLinks : List (TreeCall Unit Unit) :=
  [.linkRb 1#64 .root 0#64, .linkRb 2#64 (.child .right 1#64) 1#64,
    .linkRb 3#64 (.child .left 1#64) 1#64, .linkRb 4#64 (.child .right 2#64) 2#64]

/-- The paths to the links of `fourLinks`, and one of the whole tree. -/
def fourPaths : List (Path Ptr) :=
  [[], [⟨.right, 1#64, leaf⟩], [⟨.left, 1#64, node leaf 2#64 leaf⟩],
    [⟨.right, 2#64, leaf⟩, ⟨.right, 1#64, node leaf 3#64 leaf⟩],
    [⟨.right, 4#64, leaf⟩, ⟨.right, 2#64, leaf⟩, ⟨.right, 1#64, node leaf 3#64 leaf⟩]]

/-- The red leaf 4 can go. -/
theorem treeBalanced_fourLinks :
    ∃ t, Run.Steps treeStep Legal bareTree (fourLinks ++ [.erase 4#64]) t ∧
      ∀ ls' u, ls' <+: fourLinks ++ [.erase 4#64] → Run.Steps treeStep Legal bareTree ls' u →
        TreeBalanced u := by
  have hsome : (Run.exec treeStep (fun s l => legalTest fourPaths s l && decide (Keeps s l))
      (fourLinks ++ [.erase 4#64]) bareTree).isSome = true := by
    decide +kernel
  obtain ⟨t, ht⟩ := Option.isSome_iff_exists.mp hsome
  have hlegal : Run.Steps treeStep Legal bareTree (fourLinks ++ [.erase 4#64]) t :=
    .of_exec (fun s l h => legal_of_test s l (Bool.and_eq_true_iff.mp h).1) _ ht
  have hkeeping : Run.Steps treeStep Keeping bareTree (fourLinks ++ [.erase 4#64]) t := by
    refine .of_exec (fun s l h => ?_) _ ht
    obtain ⟨h1, h2⟩ := Bool.and_eq_true_iff.mp h
    exact ⟨legal_of_test s l h1, of_decide_eq_true h2⟩
  exact ⟨t, hlegal, (treeBalanced_along_iff rfl hlegal).mpr hkeeping⟩

/-- Without the black leaf 3 there is a black node on the right of the root and none on its
left. -/
theorem unbalanced_without_blackLeaf :
    ∃ t, Run.Steps treeStep Legal bareTree (fourLinks ++ [.erase 3#64]) t ∧ ¬ TreeBalanced t := by
  have hsome : ((Run.exec treeStep (legalTest fourPaths) (fourLinks ++ [.erase 3#64])
      bareTree).any fun t => decide (Shape t.rbLinks 0#64 t.vmaRbRoot
        (node leaf 1#64 (node leaf 2#64 (node leaf 4#64 leaf))) ∧
        t.red 1#64 = false ∧ t.red 2#64 = false)) = true := by
    decide +kernel
  obtain ⟨t, ht, hp⟩ := (Option.any_eq_true _ _).mp hsome
  obtain ⟨hshape, h1, h2⟩ := of_decide_eq_true hp
  refine ⟨t, .of_exec legal_of_test _ ht, ?_⟩
  rintro ⟨a, ha, hrb, -⟩
  obtain rfl := hshape.unique ha
  obtain ⟨n, hn⟩ := hrb.height
  obtain ⟨m, -, hleft, hright⟩ := (balanced_join_black (d := .left) h1).mp ⟨hrb.noRedRed, hn⟩
  obtain rfl := balanced_leaf.mp hleft
  obtain ⟨k, hk, -⟩ := (balanced_join_black (d := .left) h2).mp hright
  exact absurd hk (Nat.zero_ne_add_one k)

/-! ## Insertion on every tree that can come about -/

/-- Whatever was inserted and removed before, the root is black, and an insertion ends: it
never reads a grandparent through a null link or a parent out of a word with its colour. -/
theorem vmaLinkRb_total {ls : List (TreeCall σ η)} (hs : s.vmaRbRoot = 0#64)
    (hrun : Run.Steps treeStep Legal s ls t) :
    (t.vmaRbRoot ≠ 0#64 → t.color t.vmaRbRoot = .black) ∧
      (∀ vma rbLink rbParent, Legal t (.linkRb vma rbLink rbParent) →
        ∃ u, vmaLinkRb vma rbLink rbParent t = some u) ∧
      ∀ vma, Legal t (.erase vma) → ∃ reb u, rbErase vma t = some (reb, u) := by
  obtain ⟨a, ha⟩ := (treeOk_leaf hs).run hrun
  refine ⟨ha.black, ?_, ?_⟩
  · rintro vma rbLink rbParent ⟨c, rfl, hc⟩
    obtain ⟨u, -, hu, -⟩ := ha.linkRb hc
    exact ⟨u, hu⟩
  · intro vma hvma
    obtain ⟨reb, u, -, hu, -⟩ := ha.erase hvma
    exact ⟨reb, u, hu⟩

/-- After the black leaf 3 is gone, the red node 5 is linked below the red node 4. -/
theorem vmaLinkRb_total_unbalanced :
    ∃ t u, Run.Steps treeStep Legal bareTree (fourLinks ++ [.erase 3#64]) t ∧
      vmaLinkRb 5#64 (.child .right 4#64) 4#64 t = some u := by
  have hsome : ((Run.exec treeStep (legalTest fourPaths) (fourLinks ++ [.erase 3#64])
      bareTree).any fun t => legalTest [[⟨.right, 4#64, leaf⟩, ⟨.right, 2#64, leaf⟩,
        ⟨.right, 1#64, leaf⟩]] t (.linkRb 5#64 (.child .right 4#64) 4#64)) = true := by
    decide +kernel
  obtain ⟨t, ht, hp⟩ := (Option.any_eq_true _ _).mp hsome
  have hrun := Run.Steps.of_exec legal_of_test _ ht
  obtain ⟨-, hlink, -⟩ := vmaLinkRb_total rfl hrun
  obtain ⟨u, hu⟩ := hlink 5#64 (.child .right 4#64) 4#64 (legal_of_test _ _ hp)
  exact ⟨t, u, hrun, hu⟩

/-! ## Insertion into a red-black tree -/

/-- `vma_link_rb` at an empty link of a red-black tree with exact gaps, but for the node behind
the new one in the list, whose own gap has just changed: the tree is red-black again, with the
new node in its place in the order, and every gap is exact. -/
theorem rbInsert_redBlack {a : PTree Ptr} {c : Path Ptr} {vma rbParent : Ptr} (own₀ : Ptr → Nat)
    (hc : Vacant s c rbParent vma) (ha : plug c leaf = a) (hrb : RedBlack s.red a)
    (haug : Aug own₀ s.gapNat a)
    (hown : ∀ q ∈ a.toList, q ≠ (s.vma vma).next → s.own q = own₀ q) :
    a.toList = before c ++ after c ∧
      ∃ t b, vmaLinkRb vma (linkOf c) rbParent s = some t ∧ Shape t.rbLinks 0#64 t.vmaRbRoot b ∧
        RedBlack t.red b ∧ b.toList = before c ++ vma :: after c ∧ Aug t.own t.gapNat b ∧
        t.base = (s.setHighest t.vmaHighestAddr).base := by
  subst ha
  have hshape : Shape s.rbLinks 0#64 s.vmaRbRoot (plug c leaf) :=
    shape_plug.mpr ⟨rbParent, 0#64, hc.path, rfl⟩
  obtain ⟨t, b, hrun, hb⟩ := vmaLinkRb_linked hc
    fun h0 => color_of_blackRoot hshape h0 hrb.root
  refine ⟨by rw [toList_plug]; simp, t, b, hrun, hb.shape, hb.redBlack hrb, hb.list, ?_, hb.base⟩
  rw [show t.own = s.own from (St.own_of_base hb.base).trans rfl]
  exact hb.aug own₀ haug hown

/-- A node of a sample tree, for a page. -/
def pageNode (start prev next rbParent : U64) (color : Color) (left right gap : U64) : VmArea :=
  { VmArea.zero with
    startAddr := start, endAddr := start + 0x1000#64, prev := prev, next := next
    rbParent := rbParent, rbColor := color, rbLeft := left, rbRight := right, rbSubtreeGap := gap }

/-- Seven nodes in ascending order: 6 is the root, 4 and 7 are below it, 2 and 5 below 4, 1 and 3
below 2.  Node 8 has been put in front of them in the list. -/
def sevenNodes : St Unit Unit :=
  { bareTree with
    vmaRbRoot := 6#64, vmaListStart := 8#64
    vma := fun p =>
      if p = 1#64 then pageNode 0x4000#64 8#64 2#64 2#64 .red 0#64 0#64 0x4000#64
      else if p = 2#64 then pageNode 0x8000#64 1#64 3#64 4#64 .black 1#64 3#64 0x4000#64
      else if p = 3#64 then pageNode 0xc000#64 2#64 4#64 2#64 .red 0#64 0#64 0x3000#64
      else if p = 4#64 then pageNode 0x10000#64 3#64 5#64 6#64 .red 2#64 5#64 0x4000#64
      else if p = 5#64 then pageNode 0x14000#64 4#64 6#64 4#64 .black 0#64 0#64 0x3000#64
      else if p = 6#64 then pageNode 0x18000#64 5#64 7#64 0#64 .black 4#64 7#64 0x4000#64
      else if p = 7#64 then pageNode 0x1c000#64 6#64 0#64 6#64 .black 0#64 0#64 0x3000#64
      else pageNode 0x1000#64 0#64 1#64 0#64 .red 0#64 0#64 0#64 }

/-- The way down to the link of node 8. -/
def sevenPath : Path Ptr :=
  [⟨.left, 1#64, leaf⟩, ⟨.left, 2#64, node leaf 3#64 leaf⟩, ⟨.left, 4#64, node leaf 5#64 leaf⟩,
    ⟨.left, 6#64, node leaf 7#64 leaf⟩]

theorem vacant_sevenNodes : Vacant sevenNodes sevenPath 1#64 8#64 :=
  ⟨by decide, by decide, by decide, fun _ => by decide⟩

theorem redBlack_sevenNodes : RedBlack sevenNodes.red (plug sevenPath leaf) := by
  have hleaf : BlackHeight sevenNodes.red leaf 0 := rfl
  refine ⟨rfl, by decide, 2, 1, rfl,
      ⟨1, rfl, ⟨0, rfl, ⟨0, rfl, hleaf, hleaf⟩, ⟨0, rfl, hleaf, hleaf⟩⟩,
      ⟨0, rfl, hleaf, hleaf⟩⟩, ⟨0, rfl, hleaf, hleaf⟩⟩

/-- Node 8 is linked below the red node 1, whose sibling is red: the colours of 1, 2 and 3 change,
and then 2 and 4 are red below one another, and the tree is rotated at its root. -/
theorem rbInsert_redBlack_rotates :
    ∃ t b, vmaLinkRb 8#64 (.child .left 1#64) 1#64 sevenNodes = some t ∧ t.vmaRbRoot = 4#64 ∧
      t.color 2#64 = .red ∧ t.color 6#64 = .red ∧ Shape t.rbLinks 0#64 t.vmaRbRoot b ∧
      RedBlack t.red b ∧ b.toList = [8#64, 1#64, 2#64, 3#64, 4#64, 5#64, 6#64, 7#64] ∧
      Aug t.own t.gapNat b := by
  have hrotated : (vmaLinkRb 8#64 (.child .left 1#64) 1#64 sevenNodes).any (fun t =>
      t.vmaRbRoot = 4#64 ∧ t.color 2#64 = .red ∧ t.color 6#64 = .red) = true := by
    decide +kernel
  have hlink : linkOf sevenPath = .child .left 1#64 := rfl
  have hbefore : before sevenPath ++ 8#64 :: after sevenPath =
      [8#64, 1#64, 2#64, 3#64, 4#64, 5#64, 6#64, 7#64] := rfl
  -- the gap below node 1 is still what it was before node 8 came into the list
  have hgaps : Aug (fun p => if p = 1#64 then 0x4000 else sevenNodes.own p) sevenNodes.gapNat
      (plug sevenPath leaf) := by
    decide +kernel
  have hown : ∀ q ∈ (plug sevenPath leaf).toList, q ≠ (sevenNodes.vma 8#64).next →
      sevenNodes.own q = (fun p => if p = 1#64 then 0x4000 else sevenNodes.own p) q :=
    fun q _ hne => (if_neg (show q ≠ 1#64 from hne)).symm
  obtain ⟨-, t, b, hrun, hshape, hrb, hlist, haug, -⟩ :=
    rbInsert_redBlack _ vacant_sevenNodes rfl redBlack_sevenNodes hgaps hown
  rw [hlink] at hrun
  rw [hbefore] at hlist
  obtain ⟨u, hu, hfacts⟩ := (Option.any_eq_true _ _).mp hrotated
  obtain rfl := Option.some.inj (hu.symm.trans hrun)
  obtain ⟨hroot, htwo, hsix⟩ := of_decide_eq_true hfacts
  exact ⟨u, b, hrun, hroot, htwo, hsix, hshape, hrb, hlist, haug⟩

end BufferVM
