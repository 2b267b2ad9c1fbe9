/-
  Kernel/RbTree.lean --- `kernel/c/rbtree.c`, with the gap callbacks of
  `kernel/c/vma.c`.

  The two halves of the loop body of `rb_insert` are mirror images of each other
  line by line, so the body is written once with the side `d` on which the parent
  hangs.  `rb_erase` returns the node at which Linux would rebalance; no caller of
  this code uses it.
-/
import BufferVM.Kernel.State

set_option autoImplicit false

namespace BufferVM

open PtrTree

variable {σ η : Type}

/-! ## The gap callbacks -/

/-- `vma_compute_subtree_gap`. -/
def vmaComputeSubtreeGap (s : St σ η) (vma : Ptr) : U64 :=
  let v := s.vma vma
  let max := if v.prev ≠ 0#64 then v.startAddr - (s.vma v.prev).endAddr else v.startAddr
  let max :=
    if v.rbLeft ≠ 0#64 then
      if max < s.gap v.rbLeft then s.gap v.rbLeft else max
    else max
  if v.rbRight ≠ 0#64 then
    if max < s.gap v.rbRight then s.gap v.rbRight else max
  else max

/-- `vma_rb_gap_propagate`, at most `fuel` times round. -/
def vmaRbGapPropagate : Nat → Ptr → Ptr → St σ η → Option (St σ η)
  | 0, _, _, _ => none
  | fuel + 1, rb, stop, s =>
      if rb = stop then some s
      else if rb = 0#64 then none
      else
        let augmented := vmaComputeSubtreeGap s rb
        if s.gap rb = augmented then some s
        else vmaRbGapPropagate fuel (s.parent rb) stop (s.setGap rb augmented)

/-- `vma_rb_gap_rotate`. -/
def vmaRbGapRotate (rbOld rbNew : Ptr) (s : St σ η) : St σ η :=
  let s := s.setGap rbNew (s.gap rbOld)
  s.setGap rbOld (vmaComputeSubtreeGap s rbOld)

/-- `vma_rb_gap_copy`. -/
def vmaRbGapCopy (rbOld rbNew : Ptr) (s : St σ η) : St σ η :=
  s.setGap rbNew (s.gap rbOld)

/-! ## Links -/

/-- The cell a `rb_node_t **` points to. -/
inductive Link where
  | root
  | child (d : Side) (p : Ptr)
  deriving DecidableEq, Repr

/-- `*rb_link = node`. -/
def Link.write (link : Link) (node : Ptr) (s : St σ η) : St σ η :=
  match link with
  | .root => s.setRoot node
  | .child d p => s.setChild d p node

/-- `rb_link_node`. -/
def rbLinkNode (node parent : Ptr) (link : Link) (s : St σ η) : Option (St σ η) := do
  let s ← deref node (s.setParentColor node parent .red)
  let s := (s.setChild .right node 0#64).setChild .left node 0#64
  some (link.write node s)

/-- `rb_red_parent`: the raw word of a red node.  On a black node the colour bit
would be left in the pointer, which no node address has. -/
def rbRedParent (s : St σ η) (red : Ptr) : Option Ptr :=
  deref red () |>.bind fun _ => if s.color red = .red then some (s.parent red) else none

/-- `__rb_change_child`. -/
def rbChangeChild (old new parent : Ptr) (s : St σ η) : St σ η :=
  if parent ≠ 0#64 then
    if s.child .left parent = old then s.setChild .left parent new
    else s.setChild .right parent new
  else s.setRoot new

/-- `__rb_rotate_set_parents`. -/
def rbRotateSetParents (old new : Ptr) (color : Color) (s : St σ η) : St σ η :=
  let parent := s.parent old
  let s := s.setParentColor new (s.parent old) (s.color old)
  let s := s.setParentColor old new color
  rbChangeChild old new parent s

/-- `rb_set_parent`. -/
def rbSetParent (rb p : Ptr) (s : St σ η) : St σ η := s.setParentColor rb p (s.color rb)

/-! ## Insertion -/

/-- Case 2 of `rb_insert`: rotate the node up over its parent. -/
def rbInsertRotateParent (d : Side) (node parent : Ptr) (s : St σ η) : St σ η :=
  let tmp := s.child d node
  let s := s.setChild d.flip parent tmp
  let s := s.setChild d node parent
  let s := if tmp ≠ 0#64 then s.setParentColor tmp parent .black else s
  let s := s.setParentColor parent node .red
  vmaRbGapRotate parent node s

/-- Case 3 of `rb_insert`: rotate the parent up over the grandparent. -/
def rbInsertRotateGparent (d : Side) (parent gparent tmp : Ptr) (s : St σ η) : St σ η :=
  let s := s.setChild d gparent tmp
  let s := s.setChild d.flip parent gparent
  let s := if tmp ≠ 0#64 then s.setParentColor tmp gparent .black else s
  let s := rbRotateSetParents gparent parent .red s
  vmaRbGapRotate gparent parent s

/-- The loop of `rb_insert`. -/
def rbInsertLoop : Nat → Ptr → Ptr → St σ η → Option (St σ η)
  | 0, _, _, _ => none
  | fuel + 1, node, parent, s =>
      if parent = 0#64 then deref node (s.setParentColor node 0#64 .black)
      else if s.color parent = .black then some s
      else do
        let gparent ← rbRedParent s parent
        let right ← deref gparent (s.child .right gparent)
        -- `parent == gparent->rb_left` unless the right link says otherwise
        let d := if parent ≠ right then Side.left else Side.right
        let tmp := s.child d.flip gparent
        if tmp ≠ 0#64 ∧ s.color tmp = .red then
          -- Case 1: color flips, and once more round at the grandparent
          let s := s.setParentColor tmp gparent .black
          let s := s.setParentColor parent gparent .black
          let above := s.parent gparent
          rbInsertLoop fuel gparent above (s.setParentColor gparent above .red)
        else if node = s.child d.flip parent then do
          let s ← deref node (rbInsertRotateParent d node parent s)
          some (rbInsertRotateGparent d node gparent (s.child d.flip node) s)
        else
          some (rbInsertRotateGparent d parent gparent (s.child d.flip parent) s)

/-- `rb_insert`. -/
def rbInsert (node : Ptr) (s : St σ η) : Option (St σ η) := do
  let parent ← rbRedParent s node
  rbInsertLoop walkBound node parent s

/-! ## Removal -/

/-- The loop of case 3 of `rb_erase`: down the left links to the successor, which
is returned after its parent. -/
def rbEraseLeftmost : Nat → Ptr → Ptr → St σ η → Option (Ptr × Ptr)
  | 0, _, _, _ => none
  | fuel + 1, successor, tmp, s =>
      -- parent = successor; successor = tmp; tmp = tmp->rb_left
      let next := s.child .left tmp
      if next = 0#64 then some (successor, tmp)
      else rbEraseLeftmost fuel tmp next s

/-- The end of `rb_erase` for a node with two children: the successor takes the
place and the colour of the node. -/
def rbEraseReplace (node successor parent child2 : Ptr) (s : St σ η) : Ptr × St σ η :=
  let tmp := s.child .left node
  let s := s.setChild .left successor tmp
  let s := rbSetParent tmp successor s
  let pcParent := s.parent node
  let pcColor := s.color node
  let s := rbChangeChild node successor pcParent s
  if child2 ≠ 0#64 then
    let s := s.setParentColor successor pcParent pcColor
    (0#64, s.setParentColor child2 parent .black)
  else
    let rebalance := if s.color successor = .black then parent else 0#64
    (rebalance, s.setParentColor successor pcParent pcColor)

/-- `rb_erase`. -/
def rbErase (node : Ptr) (s : St σ η) : Option (Ptr × St σ η) := do
  let child ← deref node (s.child .right node)
  let tmp := s.child .left node
  if tmp = 0#64 then
    -- Case 1: no left child
    let pcParent := s.parent node
    let pcColor := s.color node
    let s := rbChangeChild node child pcParent s
    let rebalance := if child ≠ 0#64 then 0#64 else if pcColor = .black then pcParent else 0#64
    let s := if child ≠ 0#64 then s.setParentColor child pcParent pcColor else s
    let s ← vmaRbGapPropagate walkBound pcParent 0#64 s
    some (rebalance, s)
  else if child = 0#64 then
    -- Still case 1, but the child is on the left
    let pcParent := s.parent node
    let s := s.setParentColor tmp pcParent (s.color node)
    let s := rbChangeChild node tmp pcParent s
    let s ← vmaRbGapPropagate walkBound pcParent 0#64 s
    some (0#64, s)
  else if s.child .left child = 0#64 then
    -- Case 2: the successor is the right child
    let child2 := s.child .right child
    let s := vmaRbGapCopy node child s
    let (rebalance, s) := rbEraseReplace node child child child2 s
    let s ← vmaRbGapPropagate walkBound child 0#64 s
    some (rebalance, s)
  else
    -- Case 3: the successor is leftmost under the right child
    let (parent, successor) ← rbEraseLeftmost walkBound child (s.child .left child) s
    let child2 := s.child .right successor
    let s := s.setChild .left parent child2
    let s := s.setChild .right successor child
    let s := rbSetParent child successor s
    let s := vmaRbGapCopy node successor s
    let s ← vmaRbGapPropagate walkBound parent successor s
    let (rebalance, s) := rbEraseReplace node successor parent child2 s
    let s ← vmaRbGapPropagate walkBound successor 0#64 s
    some (rebalance, s)

end BufferVM
