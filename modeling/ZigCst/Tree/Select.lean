import ZigCst.Literal.Multiline
import ZigCst.Tree.Node

/-!
# Selecting children

What typed readings of a tree are made of: the children of a kind, the node
after a token, and the contents of literal tokens.
-/

namespace ZigCst

namespace Node

variable {K : Type} [DecidableEq K]

/-- The first child node of a kind. -/
def child? (n : Node K) (kind : K) : Option (Node K) :=
  n.childNodes.find? fun m => m.kind == kind

/-- The child nodes of a kind. -/
def childrenOf (n : Node K) (kind : K) : List (Node K) :=
  n.childNodes.filter fun m => m.kind == kind

/-- The first token of a kind among the children. -/
def token? (n : Node K) (kind : K) : Option (Leaf K) :=
  n.childTokens.find? fun l => l.kind == kind

def hasToken (n : Node K) (kind : K) : Bool := (n.token? kind).isSome

/-- Whether an element is a token of a kind. -/
def isTokenOf (kind : K) : Element K → Bool
  | .token l => l.kind == kind
  | .node _ => false

/-- The first child node after the first token of a kind. -/
def nodeAfter? (n : Node K) (kind : K) : Option (Node K) :=
  (n.elements.dropWhile fun e => !isTokenOf kind e).findSome? Element.node?

end Node

namespace Leaf

variable {K : Type}

/-- The content of a string literal in quotes, placed in the document. -/
def quotedContent (l : Leaf K) : Excerpt :=
  let e := Literal.content '"' l.text
  ⟨l.range.start + e.offset, e.text⟩

/-- The contents of the lines of a multi-line literal, placed in the document. -/
def lineContents (l : Leaf K) : List Excerpt :=
  (Literal.contents l.text).map fun e => ⟨l.range.start + e.offset, e.text⟩

end Leaf

/-- The value of a string literal: its lines joined, or its content decoded. -/
def Literal.value (isMultiline : Bool) (excerpts : List Excerpt) : Text :=
  if isMultiline then Text.unlines (excerpts.map Excerpt.text)
  else
    match excerpts with
    | [] => []
    | e :: _ => unescape e.text

end ZigCst
