import ZigCst.Token
import ZigCst.Tree.Arena

/-!
# Building a tree

A builder is given the text first, then the nodes and tokens in order: a node is
opened, filled and finished, a token takes the next bytes of the text.

The entry of a node is written when it is started.  Where its children and its tokens
end is filled in when it is finished, and until then its children are gathered in a
buffer; their stretch is written behind those of all nodes finished before.  Buffers
are used again.

**Errors.**  A token that ends inside a character or past the end of the text, a
token or an end outside every node, a second root, and a tree that is taken off
the builder too early are all refused; `BuildError` names the causes.
-/

namespace ZigCst

/-- Why a builder refuses a call. -/
inductive BuildError where
  | noOpenNode
  | secondRoot
  | badLength
  | unbalanced
  | noRoot
  | uncovered (covered size : Nat)
  | unfinished
deriving DecidableEq, Repr

/-- The wording of a refusal. -/
def BuildError.message : BuildError → Text
  | .noOpenNode => "no opened nodes?".toList
  | .secondRoot => "a syntax tree has exactly one root".toList
  | .badLength => "token ends outside of the text or inside a character".toList
  | .unbalanced => "unbalanced `start_node`/`finish_node` calls".toList
  | .noRoot => "a syntax tree needs a root node".toList
  | .uncovered covered size =>
      "assertion `left == right` failed: tokens must cover the whole text\n  left: ".toList ++
        (toString covered).toList ++ "\n right: ".toList ++ (toString size).toList
  | .unfinished => "you should call `Builder::finish()`".toList

/-- A node that is still open. -/
structure Opened where
  id : Nat
  /-- The buffer of its children so far. -/
  children : Array Child
deriving DecidableEq, Repr

/-- A further child. -/
def Opened.push (o : Opened) (c : Child) : Opened := { o with children := o.children.push c }

/-- Moves the entries of a buffer to the end of an array, and gives the buffer back. -/
def Child.move (children buffer : Array Child) : Array Child × Array Child :=
  (children ++ buffer, #[])

/-- A tree under construction. -/
structure Builder (K : Type) extends Arena K where
  /-- Buffers of finished nodes, to be used again. -/
  pool : List (Array Child)
  /-- Open nodes, the innermost first. -/
  opened : List Opened
  /-- The number of bytes that tokens cover. -/
  covered : Nat
  /-- The text behind these bytes. -/
  rest : Text

namespace Builder

variable {K : Type}

/-- A builder with nothing but the token that no text belongs to. -/
def ofText [Vocabulary K] (t : Text) : Builder K where
  text := t
  tokens := #[⟨Vocabulary.tombstone, 0, 0⟩]
  nodes := #[]
  children := #[]
  pool := []
  opened := []
  covered := 0
  rest := t

/-- A buffer for the children of a node, and the buffers that are left. -/
def takeBuffer (b : Builder K) : Array Child × List (Array Child) :=
  match b.pool with
  | [] => (#[], [])
  | buffer :: pool => (buffer, pool)

/-- Writes the entry of a node and opens it inside other open nodes. -/
def openNode (b : Builder K) (kind : K) (parent : Option Nat) (index : Nat)
    (opened : List Opened) : Builder K :=
  let id := b.nodes.size
  let firstToken := b.tokens.size
  let (buffer, pool) := b.takeBuffer
  { b with
    nodes := b.nodes.push
      { kind, parent, index, firstToken
        childrenStart := 0
        childrenLength := 0
        endToken := firstToken }
    pool
    opened := ⟨id, buffer⟩ :: opened }

/-- Opens a node. -/
def start (b : Builder K) (kind : K) : Except BuildError (Builder K) :=
  match b.opened with
  | [] => if b.nodes.isEmpty then return b.openNode kind none 0 [] else throw .secondRoot
  | o :: opened =>
      return b.openNode kind (some o.id) o.children.size (o.push (.node b.nodes.size) :: opened)

/-- Finishes the innermost open node. -/
def finishNode (b : Builder K) : Except BuildError (Builder K) :=
  match b.opened with
  | [] => throw .noOpenNode
  | o :: opened =>
      let childrenStart := b.children.size
      let childrenLength := o.children.size
      let endToken := b.tokens.size
      let (children, buffer) := Child.move b.children o.children
      return { b with
        nodes := b.nodes.modify o.id fun entry =>
          { entry with childrenStart, childrenLength, endToken }
        children
        pool := buffer :: b.pool
        opened }

/-- Adds the next `length` bytes of the text as one token. -/
def push (b : Builder K) (kind : K) (length : Nat) : Except BuildError (Builder K) :=
  match b.rest.splitAt? length with
  | none => throw .badLength
  | some (_, rest) =>
      match b.opened with
      | [] => throw .noOpenNode
      | o :: opened =>
          let id := b.tokens.size
          let covered := b.covered + length
          return { b with
            tokens := b.tokens.push ⟨kind, covered, o.id⟩
            opened := o.push (.token id) :: opened
            covered
            rest }

/-- Adds stretches of trivia one by one. -/
def pushAll (b : Builder K) (pieces : List (Piece K)) : Except BuildError (Builder K) :=
  pieces.foldlM (fun b p => b.push p.kind p.length) b

/-- Adds a token with the trivia on both of its sides. -/
def token
    (b : Builder K)
    (leading : List (Piece K))
    (kind : K)
    (length : Nat)
    (trailing : List (Piece K)) :
    Except BuildError (Builder K) := do
  let b ← b.pushAll leading
  let b ← b.push kind length
  b.pushAll trailing

/-- Takes the finished tree off the builder. -/
def finish (b : Builder K) : Except BuildError (Arena K) :=
  match b.opened with
  | _ :: _ => throw .unbalanced
  | [] =>
      if b.nodes.isEmpty then throw .noRoot
      else if b.covered = b.text.size then return b.toArena
      else throw (.uncovered b.covered b.text.size)

/-- Gives up the builder, which is allowed only while no node is open. -/
def discard (b : Builder K) : Except BuildError Unit :=
  match b.opened with
  | [] => return ()
  | _ :: _ => throw .unfinished

end Builder
end ZigCst
