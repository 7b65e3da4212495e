import ZigCst.Tree.Basic

/-!
# Trees in flat arrays

A builder writes a tree down in three arrays.  There is one entry a node, in
preorder, and one entry a token, in the order of the text, behind an entry that no
text belongs to.  The children of a node are one stretch of the third array, where
a node is finished before the nodes around it.

A node names its parent, its position among the children of the parent, the stretch
of its children and the stretch of its tokens.  A token names the node it is a child
of and the position where it ends; it starts where the token before it ends.

**Definitions.**
* `Arena`: the arrays of a tree, with its text.
* `NodeRef`, `TokenRef`, `ElementRef`: numbers with the arrays they belong to.
* `Preorder`: the walk from a node on, with the children that are still ahead.
* `Arena.root?`: the nested tree.

All that is asked of a number is looked up in its entry.  The answer is `none` where
an entry is missing, a stretch lies outside its array or a range ends before it
starts.
-/

namespace ZigCst

/-- A child of a node by its number. -/
inductive Child where
  | node (id : Nat)
  | token (id : Nat)
deriving DecidableEq, Repr

/-- What is stored about a node. -/
structure NodeEntry (K : Type) where
  kind : K
  parent : Option Nat
  /-- Position among the children of the parent. -/
  index : Nat
  childrenStart : Nat
  childrenLength : Nat
  firstToken : Nat
  endToken : Nat
deriving DecidableEq, Repr

/-- What is stored about a token. -/
structure TokenEntry (K : Type) where
  kind : K
  stop : Nat
  parent : Nat
deriving DecidableEq, Repr

/-- A tree in flat arrays. -/
structure Arena (K : Type) where
  text : Text
  tokens : Array (TokenEntry K)
  nodes : Array (NodeEntry K)
  children : Array Child
deriving DecidableEq, Repr

/-- A node by its number. -/
structure NodeRef (K : Type) where
  arena : Arena K
  id : Nat

/-- A token by its number. -/
structure TokenRef (K : Type) where
  arena : Arena K
  id : Nat

/-- A child by its number. -/
inductive ElementRef (K : Type) where
  | node (node : NodeRef K)
  | token (token : TokenRef K)

namespace Arena

variable {K : Type}

/-- The root of a tree. -/
def node (a : Arena K) : NodeRef K := ⟨a, 0⟩

/-- Where a token starts. -/
def startOf? (a : Arena K) : Nat → Option Nat
  | 0 => none
  | id + 1 => a.tokens[id]?.map TokenEntry.stop

/-- A stretch of the array of children. -/
def stretch? (a : Arena K) (start length : Nat) : Option (List Child) :=
  if start + length ≤ a.children.size then
    some (a.children.extract start (start + length)).toList
  else none

end Arena

/-- The range between two positions in order. -/
def Range.between? (start stop : Nat) : Option Range :=
  if start ≤ stop then some ⟨start, stop⟩ else none

namespace TokenRef

variable {K : Type}

def data? (t : TokenRef K) : Option (TokenEntry K) := t.arena.tokens[t.id]?

def kind? (t : TokenRef K) : Option K := t.data?.map TokenEntry.kind

def range? (t : TokenRef K) : Option Range := do
  let start ← t.arena.startOf? t.id
  let entry ← t.data?
  Range.between? start entry.stop

def text? (t : TokenRef K) : Option Text := do
  let range ← t.range?
  t.arena.text.slice? range.start range.stop

def parent? (t : TokenRef K) : Option (NodeRef K) :=
  t.data?.map fun entry => ⟨t.arena, entry.parent⟩

end TokenRef

namespace ElementRef

variable {K : Type}

def node? : ElementRef K → Option (NodeRef K)
  | .node n => some n
  | .token _ => none

end ElementRef

namespace NodeRef

variable {K : Type}

def data? (n : NodeRef K) : Option (NodeEntry K) := n.arena.nodes[n.id]?

def kind? (n : NodeRef K) : Option K := n.data?.map NodeEntry.kind

/-- The numbers of the children. -/
def childIds? (n : NodeRef K) : Option (List Child) := do
  let entry ← n.data?
  n.arena.stretch? entry.childrenStart entry.childrenLength

def element (n : NodeRef K) : Child → ElementRef K
  | .node id => .node ⟨n.arena, id⟩
  | .token id => .token ⟨n.arena, id⟩

/-- The children, tokens included. -/
def elements? (n : NodeRef K) : Option (List (ElementRef K)) :=
  n.childIds?.map (List.map n.element)

/-- The child nodes. -/
def childNodes? (n : NodeRef K) : Option (List (NodeRef K)) :=
  n.elements?.map (List.filterMap ElementRef.node?)

/-- From the start of the first token to the end of the last; empty where a first
token would start if there is none. -/
def range? (n : NodeRef K) : Option Range := do
  let entry ← n.data?
  let start ← n.arena.startOf? entry.firstToken
  let stop ← n.arena.startOf? entry.endToken
  Range.between? start (max stop start)

def text? (n : NodeRef K) : Option Text := do
  let range ← n.range?
  n.arena.text.slice? range.start range.stop

/-- The tokens from the first of the node up to its end. -/
def tokens? (n : NodeRef K) : Option (List (TokenRef K)) :=
  n.data?.map fun entry =>
    (List.range' entry.firstToken (entry.endToken - entry.firstToken)).map (⟨n.arena, ·⟩)

/-- The parent, which only the root lacks. -/
def parent? (n : NodeRef K) : Option (Option (NodeRef K)) :=
  n.data?.map fun entry => entry.parent.map (⟨n.arena, ·⟩)

/-- The first node behind a node among the children of the parent. -/
def nextSibling? (n : NodeRef K) : Option (Option (NodeRef K)) := do
  match ← n.parent? with
  | none => return none
  | some parent =>
      let entry ← n.data?
      let elements ← parent.elements?
      if entry.index + 1 ≤ elements.length then
        return (elements.drop (entry.index + 1)).findSome? ElementRef.node?
      else none

/-- The last node before a node among the children of the parent. -/
def prevSibling? (n : NodeRef K) : Option (Option (NodeRef K)) := do
  match ← n.parent? with
  | none => return none
  | some parent =>
      let entry ← n.data?
      let elements ← parent.elements?
      if entry.index ≤ elements.length then
        return (elements.take entry.index).reverse.findSome? ElementRef.node?
      else none

/-- The way up from a node: the node, its parent and so on until there is none. -/
inductive Climbs : NodeRef K → List (NodeRef K) → Prop where
  | last {n : NodeRef K} (h : n.parent? = some none) : Climbs n [n]
  | up {n parent : NodeRef K} {path : List (NodeRef K)} (h : n.parent? = some (some parent))
      (hpath : Climbs parent path) : Climbs n (n :: path)

end NodeRef

namespace ElementRef

variable {K : Type}

def kind? : ElementRef K → Option K
  | .node n => n.kind?
  | .token t => t.kind?

def range? : ElementRef K → Option Range
  | .node n => n.range?
  | .token t => t.range?

end ElementRef

/-! ## Walking -/

/-- A moment of the walk. -/
inductive VisitRef (K : Type) where
  | enter (node : NodeRef K)
  | token (token : TokenRef K)
  | leave (node : NodeRef K)

/-- The token that is met. -/
def VisitRef.token? {K : Type} : VisitRef K → Option (TokenRef K)
  | .token t => some t
  | _ => none

/-- A walk under way: the nodes that were entered and not left, the innermost first,
with the children that are still ahead; and where it begins. -/
structure Preorder (K : Type) where
  stack : List (NodeRef K × List (ElementRef K))
  start : Option (NodeRef K)

namespace Preorder

variable {K : Type}

/-- The next moment of a walk that is not over. -/
def next? (p : Preorder K) : Option (Option (VisitRef K × Preorder K)) :=
  match p.stack with
  | [] =>
      match p.start with
      | none => some none
      | some n => do
          let elements ← n.elements?
          return some (.enter n, ⟨[(n, elements)], none⟩)
  | (n, []) :: stack => some (some (.leave n, { p with stack }))
  | (n, .token t :: elements) :: stack =>
      some (some (.token t, { p with stack := (n, elements) :: stack }))
  | (n, .node c :: elements) :: stack => do
      let below ← c.elements?
      return some (.enter c, { p with stack := (c, below) :: (n, elements) :: stack })

/-- A walk meets these moments, one after another, and is over then. -/
inductive Yields : Preorder K → List (VisitRef K) → Prop where
  | ended {p : Preorder K} (h : p.next? = some none) : Yields p []
  | next {p q : Preorder K} {visit : VisitRef K} {visits : List (VisitRef K)}
      (h : p.next? = some (some (visit, q))) (hrest : Yields q visits) :
      Yields p (visit :: visits)

/-- The moments of a walk that is over before `count` of them. -/
def visits? : Nat → Preorder K → Option (List (VisitRef K))
  | 0, _ => none
  | count + 1, p => do
      match ← p.next? with
      | none => return []
      | some (visit, q) => return visit :: (← visits? count q)

end Preorder

namespace NodeRef

variable {K : Type}

def preorder (n : NodeRef K) : Preorder K := ⟨[], some n⟩

/-- The walk from a node on.  It meets every node twice and every token once at most. -/
def walk? (n : NodeRef K) : Option (List (VisitRef K)) :=
  n.preorder.visits? (2 * n.arena.nodes.size + n.arena.tokens.size)

end NodeRef

/-! ## Nesting -/

namespace Arena

variable {K : Type}

/-- The tree of a child that is less than `depth` nodes deep.  Its tokens are cut off
the text that is left. -/
def treeAt? (a : Arena K) : Nat → Child → StateT Text Option (Tree K)
  | 0, _ => fun _ => none
  | _ + 1, .token id => fun rest => do
      let t : TokenRef K := ⟨a, id⟩
      let range ← t.range?
      let (text, rest) ← rest.splitAt? range.length
      return (.token (← t.kind?) text, rest)
  | depth + 1, .node id => fun rest => do
      let n : NodeRef K := ⟨a, id⟩
      let (children, rest) ← ((← n.childIds?).mapM (treeAt? a depth)).run rest
      return (.node (← n.kind?) children, rest)

/-- The nested tree. -/
def root? (a : Arena K) : Option (Root K) := do
  let (children, _) ← ((← a.node.childIds?).mapM (a.treeAt? a.nodes.size)).run a.text
  return ⟨← a.node.kind?, children⟩

end Arena
end ZigCst
