import KernelR.Foundations.Bits
import KernelR.Foundations.ColoredTree

/-!
# The scheduler's red-black tree

`rbtree.c`, function by function, at the level of pointers. A tree is a root
pointer and the memory its nodes live in; the colour of a node is bit 0 of its
parent word. Every `->` goes through `load` or `store`, which fail on the null
pointer, so that a result other than `none` says that no null pointer was
dereferenced. Loops take fuel, and running out of it is `none` as well.

The source writes every mirror case out; here the two members of a pair are one
definition with a `Side`, the source's "left" version being `.left`.
-/

namespace KernelR.Sched

open Foundations

/-- `RB_BLACK` -/
def rbBlack : ℕ := 0

/-- `RB_RED` -/
def rbRed : ℕ := 1

/-- `struct SchedNode` -/
structure SchedNode where
  vruntime : ℕ
  taskId : ℕ
  deadline : ℕ
  minDeadline : ℕ
  left : ℕ
  right : ℕ
  parentAndColor : ℕ
deriving DecidableEq, Repr

namespace SchedNode

/-- `rb_color` -/
def rbColor (n : SchedNode) : ℕ := n.parentAndColor &&& 1

/-- `rb_parent` -/
def rbParent (n : SchedNode) : ℕ := andNot n.parentAndColor 3

/-- `n->left` or `n->right`. -/
def child (d : Side) (n : SchedNode) : ℕ :=
  match d with
  | .left => n.left
  | .right => n.right

/-- The node with one child pointer replaced. -/
def withChild (d : Side) (v : ℕ) (n : SchedNode) : SchedNode :=
  match d with
  | .left => { n with left := v }
  | .right => { n with right := v }

/-- The node with its colour bit replaced. -/
def withColor (color : ℕ) (n : SchedNode) : SchedNode :=
  { n with parentAndColor := andNot n.parentAndColor 1 ||| color }

/-- The node with its parent replaced and its colour kept. -/
def withParent (parent : ℕ) (n : SchedNode) : SchedNode :=
  { n with parentAndColor := (n.parentAndColor &&& 1) ||| andNot parent 3 }

end SchedNode

/-- A tree: the root pointer and the memory of the nodes. -/
structure RbTree where
  root : ℕ
  mem : ℕ → SchedNode

namespace RbTree

/-- Read the node at `p`. -/
def load (s : RbTree) (p : ℕ) : Option SchedNode := if p = 0 then none else some (s.mem p)

/-- The tree with the node at `p` changed. -/
def upd (s : RbTree) (p : ℕ) (f : SchedNode → SchedNode) : RbTree :=
  { s with mem := Function.update s.mem p (f (s.mem p)) }

/-- Change the node at `p`. -/
def store (s : RbTree) (p : ℕ) (f : SchedNode → SchedNode) : Option RbTree :=
  if p = 0 then none else some (s.upd p f)

/-- `rb_set_color` -/
def rbSetColor (s : RbTree) (n color : ℕ) : Option RbTree := s.store n (.withColor color)

/-- `rb_set_parent` -/
def rbSetParent (s : RbTree) (n parent : ℕ) : Option RbTree := s.store n (.withParent parent)

/-- `n->left = v` or `n->right = v`. -/
def setChild (s : RbTree) (n : ℕ) (d : Side) (v : ℕ) : Option RbTree :=
  s.store n (.withChild d v)

/-- `rb_color_safe`: absent nodes are black. -/
def rbColorSafe (s : RbTree) (n : ℕ) : Option ℕ :=
  if n ≠ 0 then do
    let node ← s.load n
    some node.rbColor
  else some rbBlack

/-- Make `v` the child of `parent` that `u` was. -/
def replaceChild (s : RbTree) (parent u v : ℕ) : Option RbTree := do
  let p ← s.load parent
  if u = p.left then s.setChild parent .left v else s.setChild parent .right v

/-- `if (n) rb_set_parent(n, parent)` -/
def setParentOf (s : RbTree) (n parent : ℕ) : Option RbTree :=
  if n ≠ 0 then s.rbSetParent n parent else some s

/-- The part of a rotation that links `y` to the parent of `x`. -/
def linkUp (s : RbTree) (xParent x y : ℕ) : Option RbTree :=
  if xParent = 0 then rbSetParent { s with root := y } y 0
  else do
    let s ← s.rbSetParent y xParent
    s.replaceChild xParent x y

/-- `rb_rotate_left` for `.left`, `rb_rotate_right` for `.right`: the child of `x`
on the far side comes up. -/
def rbRotate (d : Side) (s : RbTree) (x : ℕ) : Option RbTree := do
  let y := (← s.load x).child d.other
  if y = 0 then some s
  else do
    -- move the near subtree of `y` over to `x`
    let s ← s.setChild x d.other ((← s.load y).child d)
    let s ← s.setParentOf ((← s.load y).child d) x
    let s ← s.linkUp (← s.load x).rbParent x y
    -- put `x` under `y`
    let s ← s.setChild y d x
    s.rbSetParent x y

/-- `rb_rotate_left` -/
def rbRotateLeft (s : RbTree) (x : ℕ) : Option RbTree := s.rbRotate .left x

/-- `rb_rotate_right` -/
def rbRotateRight (s : RbTree) (y : ℕ) : Option RbTree := s.rbRotate .right y

/-! ### Insertion -/

/-- The search loop of `rbtree_insert`: the last node before the free place. -/
def insertParent (s : RbTree) (node : ℕ) : ℕ → ℕ → ℕ → Option ℕ
  | 0, _, _ => none
  | fuel + 1, parent, current =>
    if current = 0 then some parent
    else do
      let n ← s.load node
      let c ← s.load current
      if n.vruntime < c.vruntime then insertParent s node fuel current c.left
      else insertParent s node fuel current c.right

/-- Case 2 of `rb_insert_fixup`: if `node` is the inner grandchild, rotate `parent`
so that the three are in line; the tree, and `node` and its parent afterwards. -/
def straighten (d : Side) (s : RbTree) (node parent : ℕ) : Option (RbTree × ℕ × ℕ) := do
  if node = (← s.load parent).child d.other then do
    let s ← s.rbRotate d parent
    some (s, parent, (← s.load parent).rbParent)
  else some (s, node, parent)

/-- One round of `rb_insert_fixup`, `parent` being the child of `grandparent` on
side `d`: the tree and the node to look at next. -/
def insertFixupRound (d : Side) (s : RbTree) (node parent grandparent : ℕ) :
    Option (RbTree × ℕ) := do
  let uncle := (← s.load grandparent).child d.other
  if (← s.rbColorSafe uncle) = rbRed then do
    -- case 1: recolour, move up
    let s ← s.rbSetColor parent rbBlack
    let s ← s.rbSetColor uncle rbBlack
    let s ← s.rbSetColor grandparent rbRed
    some (s, grandparent)
  else do
    let (s, node, parent) ← s.straighten d node parent
    -- case 3
    let s ← s.rbSetColor parent rbBlack
    let s ← s.rbSetColor grandparent rbRed
    let s ← s.rbRotate d.other grandparent
    some (s, node)

/-- `rb_insert_fixup` -/
def rbInsertFixup : ℕ → RbTree → ℕ → Option RbTree
  | 0, _, _ => none
  | fuel + 1, s, node =>
    if node = s.root then s.rbSetColor s.root rbBlack
    else do
      let parent := (← s.load node).rbParent
      if (← s.load parent).rbColor = rbRed then do
        let grandparent := (← s.load parent).rbParent
        let d := if parent = (← s.load grandparent).left then Side.left else Side.right
        let (s, node) ← s.insertFixupRound d node parent grandparent
        rbInsertFixup fuel s node
      else s.rbSetColor s.root rbBlack

/-- `rbtree_insert` puts the node under its parent. -/
def attach (s : RbTree) (node parent : ℕ) : Option RbTree := do
  let n ← s.load node
  let p ← s.load parent
  if n.vruntime < p.vruntime then s.setChild parent .left node
  else s.setChild parent .right node

/-- `rbtree_insert`. A loop that does not end within the fuel, here and below, has no result; the
number of nodes is enough. -/
def rbtreeInsert (fuel : ℕ) (s : RbTree) (node : ℕ) : Option RbTree := do
  let s ← s.setChild node .left 0
  let s ← s.setChild node .right 0
  if s.root = 0 then do
    let s ← rbSetParent { s with root := node } node 0
    s.rbSetColor node rbBlack
  else do
    let parent ← s.insertParent node fuel 0 s.root
    let s ← s.rbSetParent node parent
    let s ← s.rbSetColor node rbRed
    let s ← s.attach node parent
    rbInsertFixup fuel s node

/-! ### Removal -/

/-- One round of `rb_remove_fixup`, `x` being the child of `xParent` on side `d`:
the tree, and `x` and its parent for the next round. -/
def removeFixupRound (d : Side) (s : RbTree) (x xParent : ℕ) : Option (RbTree × ℕ × ℕ) := do
  let w := (← s.load xParent).child d.other
  if (← s.rbColorSafe w) = rbRed then do
    -- case 1: the sibling is red
    let s ← s.rbSetColor xParent rbRed
    let s ← s.rbSetColor w rbBlack
    let s ← s.rbRotate d xParent
    some (s, x, xParent)
  else do
    let near ← s.rbColorSafe ((← s.load w).child d)
    let far ← s.rbColorSafe ((← s.load w).child d.other)
    if near = rbBlack ∧ far = rbBlack then do
      -- case 2: both nephews are black
      let s ← s.rbSetColor w rbRed
      some (s, xParent, (← s.load xParent).rbParent)
    else if near = rbRed ∧ far = rbBlack then do
      -- case 3: only the near nephew is red
      let s ← s.rbSetColor ((← s.load w).child d) rbBlack
      let s ← s.rbSetColor w rbRed
      let s ← s.rbRotate d.other w
      some (s, x, xParent)
    else do
      -- case 4: the far nephew is red
      let s ← s.rbSetColor w (← s.load xParent).rbColor
      let s ← s.rbSetColor xParent rbBlack
      let s ← s.rbSetColor ((← s.load w).child d.other) rbBlack
      let s ← s.rbRotate d xParent
      some (s, s.root, xParent)

/-- `rb_remove_fixup` -/
def rbRemoveFixup : ℕ → RbTree → ℕ → ℕ → Option RbTree
  | 0, _, _, _ => none
  | fuel + 1, s, x, xParent => do
      if x ≠ s.root ∧ (← s.rbColorSafe x) = rbBlack then do
        let d := if x = (← s.load xParent).left then Side.left else Side.right
        let (s, x, xParent) ← s.removeFixupRound d x xParent
        rbRemoveFixup fuel s x xParent
      else if x ≠ 0 then s.rbSetColor x rbBlack
      else some s

/-- `rb_transplant` makes `v` the child that `u` was, or the root. -/
def replaceUnder (s : RbTree) (parent u v : ℕ) : Option RbTree :=
  if parent = 0 then some { s with root := v } else s.replaceChild parent u v

/-- `rb_transplant` -/
def rbTransplant (s : RbTree) (u v : ℕ) : Option RbTree := do
  let s ← s.replaceUnder (← s.load u).rbParent u v
  s.setParentOf v (← s.load u).rbParent

/-- The loop of `rbtree_leftmost`. -/
def leftmostLoop (s : RbTree) : ℕ → ℕ → Option ℕ
  | 0, _ => none
  | fuel + 1, root => do
      let n ← s.load root
      if n.left ≠ 0 then leftmostLoop s fuel n.left else some root

/-- `rbtree_leftmost` -/
def rbtreeLeftmost (fuel : ℕ) (s : RbTree) (root : ℕ) : Option ℕ :=
  if root = 0 then some 0 else s.leftmostLoop fuel root

/-- `rbtree_remove`, two children: take the successor `y` out of the right subtree
of `z`, unless it is the root of it; the tree, and the parent of `x` afterwards. -/
def detachSuccessor (s : RbTree) (z y : ℕ) : Option (RbTree × ℕ) := do
  let xParent := (← s.load y).rbParent
  if xParent = z then some (s, y)
  else do
    let s ← s.rbTransplant y (← s.load y).right
    let s ← s.setChild y .right (← s.load z).right
    let s ← s.setParentOf (← s.load y).right y
    some (s, xParent)

/-- `rbtree_remove`, two children: put `y` in the place of `z`. -/
def replaceBy (s : RbTree) (z y : ℕ) : Option RbTree := do
  let s ← s.rbTransplant z y
  let s ← s.setChild y .left (← s.load z).left
  let s ← s.setParentOf (← s.load y).left y
  s.rbSetColor y (← s.load z).rbColor

/-- The first part of `rbtree_remove`: unlink `z`. The results are the tree, the
node `x` that moved into the gap, its parent, and the colour that is missing there. -/
def unlinkNode (fuel : ℕ) (s : RbTree) (z : ℕ) : Option (RbTree × ℕ × ℕ × ℕ) := do
  let zn ← s.load z
  if zn.left = 0 then do
    let s ← s.rbTransplant z zn.right
    some (s, zn.right, zn.rbParent, zn.rbColor)
  else if zn.right = 0 then do
    let s ← s.rbTransplant z zn.left
    some (s, zn.left, zn.rbParent, zn.rbColor)
  else do
    let y ← rbtreeLeftmost fuel s zn.right
    let yn ← s.load y
    let (s, xParent) ← s.detachSuccessor z y
    let s ← s.replaceBy z y
    some (s, yn.right, xParent, yn.rbColor)

/-- `rbtree_remove` -/
def rbtreeRemove (fuel : ℕ) (s : RbTree) (z : ℕ) : Option RbTree := do
  let (s, x, xParent, yOriginalColor) ← unlinkNode fuel s z
  if yOriginalColor = rbBlack then rbRemoveFixup fuel s x xParent else some s

/-! ### Picking a task -/

/-- `if (!best || current->deadline < best->deadline) best = current` -/
def betterOf (s : RbTree) (best current deadline : ℕ) : Option ℕ :=
  if best = 0 then some current
  else do
    let b ← s.load best
    some (if deadline < b.deadline then current else best)

/-- `child && child->min_deadline < bound` -/
def promises (s : RbTree) (child bound : ℕ) : Option Bool :=
  if child = 0 then some false
  else do
    let n ← s.load child
    some (decide (n.minDeadline < bound))

/-- The search loop of `rbtree_pick_eevdf`; `best` is null as long as no eligible
node was seen. -/
def pickLoop (s : RbTree) (systemVruntime : ℕ) : ℕ → ℕ → ℕ → Option ℕ
  | 0, _, _ => none
  | fuel + 1, current, best =>
    if current = 0 then some best
    else do
      let c ← s.load current
      if c.vruntime ≤ systemVruntime then do
        let best ← s.betterOf best current c.deadline
        let bound := (← s.load best).deadline
        if ← s.promises c.left bound then pickLoop s systemVruntime fuel c.left best
        else if ← s.promises c.right bound then pickLoop s systemVruntime fuel c.right best
        else some best
      else pickLoop s systemVruntime fuel c.left best

/-- `rbtree_pick_eevdf`: the descent, which keeps the best node so far and never turns back. -/
def rbtreePickEevdf (fuel : ℕ) (s : RbTree) (root systemVruntime : ℕ) : Option ℕ := do
  let best ← s.pickLoop systemVruntime fuel root 0
  if best ≠ 0 then some best else rbtreeLeftmost fuel s root

end RbTree

end KernelR.Sched
