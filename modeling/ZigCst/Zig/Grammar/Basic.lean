import ZigCst.Parser
import ZigCst.Zig.Kind

/-!
# Common parts of the Zig grammar

**Functions.**  The functions of the grammar have names, so that a call can be told from what
is called.  They are listed from the inside out: but for expressions, operands and types, a
function calls only such as stand before it, and that of binary operators itself.

**Nesting.**  Expressions, operands and types contain one another.  Each level
of nesting is a record of the three parsers, built from the record of the level
further in; all other parts of the grammar take that record as an argument and
are ordinary definitions.

**Results.**  A parser of an expression always leaves exactly one node.  It
gives the kind of that node, or `none` when the node only stands for something
malformed and nothing may be attached to it.
-/

universe u

namespace ZigCst
namespace Zig

open ZigCst.Parser

/-- The lists in brackets. -/
inductive Listing where
  | parameters
  | arguments
  | initializers
  | forInputs
  | switchProngs
  | errorNames

namespace Listing

@[simp]
def opening : Listing → Kind
  | parameters | arguments | forInputs => .leftParen
  | initializers | switchProngs | errorNames => .leftBrace

@[simp]
def closing : Listing → Kind
  | parameters | arguments | forInputs => .rightParen
  | initializers | switchProngs | errorNames => .rightBrace

@[simp]
def item : Listing → Item
  | parameters => .parameter
  | arguments => .argument
  | initializers => .initializer
  | forInputs => .forInput
  | switchProngs => .switchProng
  | errorNames => .errorName

end Listing

/-- The functions of the grammar, by the type of what they give. -/
inductive Routine : Type → Type where
  | expr : Routine (Option Kind)
  | operand : Routine (Option Kind)
  | type : Routine (Option Kind)
  | name (recovery : KindSet Kind) : Routine Unit
  | condition : Routine Unit
  | payload : Routine Unit
  | assignExpr : Routine (Option Kind)
  | elseBranch : Routine Unit
  | label : Routine Unit
  | jumpLabel : Routine Bool
  | alignClause : Routine Unit
  | clauses (ofFunction : Bool) : Routine Unit
  | param : Routine Unit
  | switchProng : Routine Unit
  | delimited (listing : Listing) : Routine Unit
  | paramList : Routine Unit
  | argList : Routine Unit
  | initList : Routine Kind
  | ifExpr : Routine Kind
  | switchExpr : Routine Kind
  | asmExpr : Routine Kind
  | loop : Routine Kind
  | fnProto : Routine Unit
  | varDecl : Routine Unit
  | statementBody : Routine Unit
  | statement : Routine Unit
  | blockBody : Routine Unit
  | block : Routine Unit
  | testDecl : Routine Unit
  | decl : Routine Unit
  | containerField : Routine Unit
  | containerMember : Routine Unit
  | containerMembers (inBraces : Bool) : Routine Unit
  | containerDecl : Routine Kind
  | primaryType : Routine (Option Kind)
  | suffixExpr : Routine (Option Kind)
  | errorUnion : Routine (Option Kind)
  | pointerModifiers : Routine Unit
  | bracketType : Routine Kind
  | curlySuffix : Routine (Option Kind)
  | primaryExpr : Routine (Option Kind)
  | binaryExpr (least : Nat) : Routine (Option Kind)
  | sourceFile : Routine Unit

/-- A call is as good as the body of what is called. -/
instance : Routines Routine (Parser Kind) where
  routine _ p := p

@[simp]
theorem routine_eq {α : Type} (r : Routine α) (p : Parser Kind α) : routine r p = p := rfl

/-- A parser of one node that may fail. -/
abbrev NodeParser := Parser Kind (Option Kind)

/-- The functions of one level of nesting. -/
structure LevelOf (m : Type → Type u) where
  /-- An expression with operators. -/
  expr : m (Option Kind)
  /-- An operand with the operators in front of it. -/
  operand : m (Option Kind)
  /-- A type, or any expression without operators around it. -/
  type : m (Option Kind)

/-- The parsers of one level of nesting. -/
abbrev Level := LevelOf (Parser Kind)

/-- Tokens at which a broken construct stops instead of taking them. -/
def recovery : KindSet Kind :=
  .ofList
    [.semicolon, .rightBrace, .rightParen, .rightBracket, .comma, .constKw, .varKw, .pubKw,
      .testKw]

variable {m : Type → Type u} [Monad m] [Parsing Kind m]

/-- One item of a list with the comma after it, and whether more may follow. -/
def itemAndComma (closing : Kind) (what : Item) (item : m Unit) : m Bool := do
  if (← at_ closing) || (← atEnd) then return false
  if ← at_ .comma then
    bump (.strayComma what)
    return true
  unless ← moves item do
    return false
  if ← eat .comma then return true
  if (← at_ closing) || (← atAny recovery) then return false
  expect .comma
  return true

/-- Items in brackets, separated by commas, the last of which may be followed by
one too. -/
def delimited (opening closing : Kind) (what : Item) (item : m Unit) : m Unit := do
  expect opening
  repeatWhile (itemAndComma closing what item)
  expect closing

variable [Routines Routine m]

/-- The items of a list in its brackets. -/
def list (listing : Listing) (item : m Unit) : m Unit := routine (.delimited listing) <|
  delimited listing.opening listing.closing listing.item item

/-- An identifier, or an error in its place. -/
def name (recovery : KindSet Kind) : m Unit := routine (.name recovery) do
  if ← at_ .identifier then discard <| node .ident advance
  else recover .expectedIdentifier recovery

/-- An expression in parentheses that belong to the construct around it. -/
def condition (inner : LevelOf m) : m Unit := routine .condition do
  expect .leftParen
  discard inner.expr
  expect .rightParen

end Zig
end ZigCst
