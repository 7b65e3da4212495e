import ZigCst.Tree.Node

/-!
# Walking a tree

The walk enters a node, visits its children in order and leaves it again.

`Tree.walk` states it by the shape of the tree, `Tree.pass` makes it in one pass:
it carries the place along and puts each visit in front of those before.
`Tree.pass_eq` says that both agree.  Everything that is asked of all elements
below a node is read off the walk.
-/

namespace ZigCst

/-- A moment of the walk. -/
inductive Visit (K : Type) where
  | enter (node : Node K)
  | token (leaf : Leaf K)
  | leave (node : Node K)

namespace Visit

variable {K : Type}

/-- The node that is entered. -/
def entered? : Visit K → Option (Node K)
  | .enter n => some n
  | _ => none

def token? : Visit K → Option (Leaf K)
  | .token l => some l
  | _ => none

end Visit

namespace Tree

variable {K : Type}

mutual

/-- The walk of a tree in place below `parent`. -/
def walk (parent : Node K) (index : Nat) (place : Extent) : Tree K → List (Visit K)
  | .token kind text => [.token ⟨⟨kind, text⟩, place, parent⟩]
  | .node kind children =>
      let n := parent.child index place kind children
      .enter n :: (walkAll n 0 place.enter children ++ [.leave n])

/-- The walk of neighbouring trees in place below `parent`. -/
def walkAll (parent : Node K) (index : Nat) (place : Extent) : List (Tree K) → List (Visit K)
  | [] => []
  | t :: ts =>
      walk parent index place t ++ walkAll parent (index + 1) (place.add t.extent) ts

end

mutual

/-- Passes over a tree: the place after it, and its visits before the earlier
ones, the last first. -/
def pass (parent : Node K) (index : Nat) (place : Extent) (seen : List (Visit K)) :
    Tree K → Extent × List (Visit K)
  | .token kind text =>
      (place.add ⟨0, 1, text.size⟩, .token ⟨⟨kind, text⟩, place, parent⟩ :: seen)
  | .node kind children =>
      let n := parent.child index place kind children
      let (stop, seen) := passAll n 0 place.enter (.enter n :: seen) children
      (stop, .leave n :: seen)

/-- Passes over neighbouring trees. -/
def passAll (parent : Node K) (index : Nat) (place : Extent) (seen : List (Visit K)) :
    List (Tree K) → Extent × List (Visit K)
  | [] => (place, seen)
  | t :: ts =>
      let (place, seen) := pass parent index place seen t
      passAll parent (index + 1) place seen ts

end

mutual

theorem pass_eq (parent : Node K) (index : Nat) (place : Extent) (seen : List (Visit K))
    (t : Tree K) :
    t.pass parent index place seen =
      (place.add t.extent, (t.walk parent index place).reverse ++ seen) := by
  cases t with
  | token kind text => rfl
  | node kind children =>
      rw [pass, walk, extent]
      dsimp only
      rw [passAll_eq, Extent.enter_add]
      simp

theorem passAll_eq (parent : Node K) (index : Nat) (place : Extent) (seen : List (Visit K))
    (ts : List (Tree K)) :
    passAll parent index place seen ts =
      (place.add (extents ts), (walkAll parent index place ts).reverse ++ seen) := by
  cases ts with
  | nil => rfl
  | cons t ts =>
      rw [passAll, pass_eq, walkAll, extents]
      dsimp only
      rw [passAll_eq, Extent.add_assoc]
      simp

end

end Tree

namespace Node

variable {K : Type}

/-- The walk of a node. -/
def walk (n : Node K) : List (Visit K) :=
  (.leave n :: (Tree.passAll n 0 n.place.enter [.enter n] n.children).2).reverse

theorem walk_eq (n : Node K) :
    n.walk = .enter n :: (Tree.walkAll n 0 n.place.enter n.children ++ [.leave n]) := by
  simp [walk, Tree.passAll_eq]

/-- The node and all nodes below it, in preorder. -/
def descendants (n : Node K) : List (Node K) := n.walk.filterMap Visit.entered?

/-- Every token below the node, in order. -/
def tokens (n : Node K) : List (Leaf K) := n.walk.filterMap Visit.token?

end Node

namespace Leaf

variable {K : Type}

/-- The topmost node above the token. -/
def root (l : Leaf K) : Node K := l.parent.ancestors.getLastD l.parent

/-- The token before, trivia included. -/
def prev? (l : Leaf K) : Option (Leaf K) :=
  match l.place.tokens with
  | 0 => none
  | i + 1 => l.root.tokens[i]?

/-- The token after, trivia included. -/
def next? (l : Leaf K) : Option (Leaf K) := l.root.tokens[l.place.tokens + 1]?

end Leaf

end ZigCst
