import ZigCst.Tree.Basic

/-!
# Nodes and tokens in place

A handle is a node or a token together with its place in the tree and with
everything above it, so that one can go up and sideways as well as down.  The
place of an element counts the nodes, tokens and bytes that come before it; its
number of nodes is the number of a node in preorder, its number of tokens the
number of a token in the text.

A node without tokens has an empty range where the token before it ends.
-/

namespace ZigCst

/-- A node, its place and its position among the children of its parent. -/
structure Spot (K : Type) where
  place : Extent
  kind : K
  children : List (Tree K)
  index : Nat

/-- A node in place, the nodes above it from the nearest to the root. -/
structure Node (K : Type) extends Spot K where
  above : List (Spot K)

/-- A token in place. -/
structure Leaf (K : Type) extends Lexeme K where
  place : Extent
  parent : Node K

/-- A child in place. -/
inductive Element (K : Type) where
  | node (node : Node K)
  | token (leaf : Leaf K)

/-- The root in place. -/
def Root.node {K : Type} (r : Root K) : Node K := ⟨⟨.zero, r.kind, r.children, 0⟩, []⟩

namespace Leaf

variable {K : Type}

def located (l : Leaf K) : Located K := ⟨l.toLexeme, l.place.bytes⟩

def range (l : Leaf K) : Range := l.located.range

def isTrivia [Vocabulary K] (l : Leaf K) : Bool := Vocabulary.isTrivia l.kind

end Leaf

namespace Node

variable {K : Type}

/-- The node one level down at `place`, as child number `index` of `n`. -/
def child (n : Node K) (index : Nat) (place : Extent) (kind : K) (children : List (Tree K)) :
    Node K :=
  ⟨⟨place, kind, children, index⟩, n.toSpot :: n.above⟩

def extent (n : Node K) : Extent := (Tree.extents n.children).enter

def range (n : Node K) : Range := ⟨n.place.bytes, n.place.bytes + n.extent.bytes⟩

/-- Puts neighbouring children of `n` in place, from number `index` on. -/
def elementsFrom (n : Node K) (index : Nat) (place : Extent) : List (Tree K) → List (Element K)
  | [] => []
  | t :: ts =>
      (match t with
        | .token kind text => .token ⟨⟨kind, text⟩, place, n⟩
        | .node kind children => .node (n.child index place kind children)) ::
        n.elementsFrom (index + 1) (place.add t.extent) ts

/-- The children, tokens included. -/
def elements (n : Node K) : List (Element K) := n.elementsFrom 0 n.place.enter n.children

end Node

namespace Element

variable {K : Type}

def node? : Element K → Option (Node K)
  | .node n => some n
  | .token _ => none

def token? : Element K → Option (Leaf K)
  | .node _ => none
  | .token l => some l

end Element

namespace Node

variable {K : Type}

/-- The child nodes. -/
def childNodes (n : Node K) : List (Node K) := n.elements.filterMap Element.node?

/-- The tokens that are children. -/
def childTokens (n : Node K) : List (Leaf K) := n.elements.filterMap Element.token?

def parent? (n : Node K) : Option (Node K) :=
  match n.above with
  | [] => none
  | s :: above => some ⟨s, above⟩

/-- The node and those above it, from the nearest to the root. -/
def ancestors (n : Node K) : List (Node K) := n :: go n.above
where
  /-- The nodes of a path upwards. -/
  go : List (Spot K) → List (Node K)
    | [] => []
    | s :: above => ⟨s, above⟩ :: go above

/-- The next node among the children of the parent. -/
def nextSibling? (n : Node K) : Option (Node K) := do
  let parent ← n.parent?
  (parent.elements.drop (n.index + 1)).findSome? Element.node?

/-- The previous node among the children of the parent. -/
def prevSibling? (n : Node K) : Option (Node K) := do
  let parent ← n.parent?
  (parent.elements.take n.index).reverse.findSome? Element.node?

def text (n : Node K) : Text := textOf (Tree.allLexemes n.children)

variable [Vocabulary K]

/-- From the first to the last significant token; empty at the start of the node
if there is none. -/
def trimmedRange (n : Node K) : Range :=
  let significant := (locate n.place.bytes (Tree.allLexemes n.children)).filter fun l =>
    !Vocabulary.isTrivia l.kind
  match significant.head?, significant.getLast? with
  | some first, some last => ⟨first.range.start, last.range.stop⟩
  | _, _ => .empty n.place.bytes

/-- The text without the trivia at both ends. -/
def textTrimmed (n : Node K) : Text :=
  let isTrivia := fun l : Lexeme K => Vocabulary.isTrivia l.kind
  let inner := ((Tree.allLexemes n.children).dropWhile isTrivia).reverse.dropWhile isTrivia
  textOf inner.reverse

/-- The node as `KIND@start..stop`. -/
def label (n : Node K) : Text :=
  (Vocabulary.name n.kind).toList ++ ['@'] ++ n.range.toText

end Node

namespace Leaf

variable {K : Type}

/-- The token as `KIND@start..stop`. -/
def label [Vocabulary K] (l : Leaf K) : Text := l.located.label

end Leaf

/-- The element as `KIND@start..stop`. -/
def Element.label {K : Type} [Vocabulary K] : Element K → Text
  | .node n => n.label
  | .token l => l.label

/-- The text of an element. -/
def Element.text {K : Type} : Element K → Text
  | .node n => n.text
  | .token l => l.text

end ZigCst
