import ZigCst.Lexeme

/-!
# Syntax trees

A tree is a token or a node with children.  Tokens carry their text, so a tree
is lossless by itself: the text of a node is the text of its tokens in order.
Blanks and comments are ordinary tokens.

The extent of a tree counts its nodes, its tokens and its bytes.  The same
triple, taken over everything that comes earlier in the walk, is the place of an
element in the whole tree.
-/

namespace ZigCst

/-- A token or a node with its children. -/
inductive Tree (K : Type) where
  | token (kind : K) (text : Text)
  | node (kind : K) (children : List (Tree K))
deriving Repr

/-- The root node of a whole tree. -/
structure Root (K : Type) where
  kind : K
  children : List (Tree K)
deriving Repr

/-- Numbers of nodes, tokens and bytes. -/
structure Extent where
  nodes : Nat
  tokens : Nat
  bytes : Nat
deriving DecidableEq, Repr

namespace Extent

def zero : Extent := ⟨0, 0, 0⟩

def add (a b : Extent) : Extent :=
  ⟨a.nodes + b.nodes, a.tokens + b.tokens, a.bytes + b.bytes⟩

/-- One more node. -/
def enter (a : Extent) : Extent := ⟨a.nodes + 1, a.tokens, a.bytes⟩

theorem add_zero (a : Extent) : a.add .zero = a := rfl

theorem zero_add (a : Extent) : Extent.zero.add a = a := by
  simp only [zero, add, Nat.zero_add]

theorem add_assoc (a b c : Extent) : (a.add b).add c = a.add (b.add c) := by
  simp only [add, Nat.add_assoc]

theorem enter_add (a b : Extent) : a.enter.add b = a.add b.enter := by
  simp only [enter, add, mk.injEq, and_true]
  omega

end Extent

namespace Tree

variable {K : Type}

mutual

/-- Nodes, tokens and bytes of a tree, the tree itself included. -/
def extent : Tree K → Extent
  | .token _ text => ⟨0, 1, text.size⟩
  | .node _ children => (extents children).enter

/-- Nodes, tokens and bytes of neighbouring trees. -/
def extents : List (Tree K) → Extent
  | [] => .zero
  | t :: ts => t.extent.add (extents ts)

end

mutual

/-- The tokens of a tree, in order, in front of others. -/
def lexemesOnto : Tree K → List (Lexeme K) → List (Lexeme K)
  | .token kind text, rest => ⟨kind, text⟩ :: rest
  | .node _ children, rest => allLexemesOnto children rest

/-- The tokens of neighbouring trees, in order, in front of others. -/
def allLexemesOnto : List (Tree K) → List (Lexeme K) → List (Lexeme K)
  | [], rest => rest
  | t :: ts, rest => t.lexemesOnto (allLexemesOnto ts rest)

end

/-- The tokens of a tree, in order. -/
def lexemes (t : Tree K) : List (Lexeme K) := t.lexemesOnto []

/-- The tokens of neighbouring trees, in order. -/
def allLexemes (ts : List (Tree K)) : List (Lexeme K) := allLexemesOnto ts []

mutual

theorem lexemesOnto_eq (t : Tree K) (rest : List (Lexeme K)) :
    t.lexemesOnto rest = t.lexemes ++ rest := by
  cases t with
  | token kind text => rfl
  | node kind children =>
      rw [lexemes, lexemesOnto, lexemesOnto]
      exact allLexemesOnto_eq children rest

theorem allLexemesOnto_eq (ts : List (Tree K)) (rest : List (Lexeme K)) :
    allLexemesOnto ts rest = allLexemes ts ++ rest := by
  cases ts with
  | nil => rfl
  | cons t ts =>
      rw [allLexemes, allLexemesOnto, allLexemesOnto, lexemesOnto_eq t, lexemesOnto_eq t,
        allLexemesOnto_eq ts rest, allLexemes, List.append_assoc]

end

@[simp]
theorem lexemes_token (kind : K) (text : Text) : lexemes (.token kind text) = [⟨kind, text⟩] := rfl

@[simp]
theorem lexemes_node (kind : K) (children : List (Tree K)) :
    lexemes (.node kind children) = allLexemes children := rfl

@[simp]
theorem allLexemes_nil : allLexemes ([] : List (Tree K)) = [] := rfl

@[simp]
theorem allLexemes_cons (t : Tree K) (ts : List (Tree K)) :
    allLexemes (t :: ts) = t.lexemes ++ allLexemes ts := by
  rw [allLexemes, allLexemesOnto, lexemesOnto_eq]
  rfl

end Tree

namespace Root

variable {K : Type}

def tree (r : Root K) : Tree K := .node r.kind r.children

/-- The tokens of the whole tree, trivia included. -/
def lexemes (r : Root K) : List (Lexeme K) := Tree.allLexemes r.children

/-- The text that the tree spells out. -/
def text (r : Root K) : Text := textOf r.lexemes

/-- Number of nodes, the root included. -/
def nodeCount (r : Root K) : Nat := r.tree.extent.nodes

end Root
end ZigCst
