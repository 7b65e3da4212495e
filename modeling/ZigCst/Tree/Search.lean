import ZigCst.Tree.Walk

/-!
# Searching by position

`tokenAt` finds the tokens at a byte position: one inside a token, two between
tokens, none outside the node.  `covering?` finds the smallest element of which
a range is a part.
-/

namespace ZigCst

/-- The tokens at a position. -/
inductive AtOffset (K : Type) where
  | none
  | single (leaf : Leaf K)
  | between (left right : Leaf K)

namespace AtOffset

variable {K : Type}

/-- The token at the position, the right one of two. -/
def right? : AtOffset K → Option (Leaf K)
  | .none => Option.none
  | .single l => some l
  | .between _ r => some r

def toList : AtOffset K → List (Leaf K)
  | .none => []
  | .single l => [l]
  | .between l r => [l, r]

end AtOffset

namespace Node

variable {K : Type}

/-- The tokens of the node at a byte position.  Its first token has nothing to
the left, and the end of the node belongs to its last token. -/
def tokenAt (n : Node K) (offset : Nat) : AtOffset K :=
  if n.range.reaches offset then
    let endsBefore := fun l : Leaf K => decide (l.range.stop ≤ offset)
    match (n.tokens.takeWhile endsBefore).getLast?, n.tokens.dropWhile endsBefore with
    | none, [] => .none
    | some l, [] => .single l
    | none, r :: _ => .single r
    | some l, r :: _ => if r.range.start = offset then .between l r else .single r
  else .none

/-- The smallest element that covers a range inside the node. -/
def covering? (n : Node K) (r : Range) : Option (Element K) :=
  if n.range.covers r then
    match (n.tokenAt r.start).right? with
    | none => some (.node n)
    | some l =>
        if l.range.covers r then some (.token l)
        else (l.parent.ancestors.find? fun a => a.range.covers r).map .node
  else none

end Node
end ZigCst
