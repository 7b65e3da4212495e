import ZigCst.Zig.Grammar.Declaration

/-!
# Types and primary expressions

A type is a chain of type operators in front of an error union; an error union
is a primary expression with suffixes, and possibly a type after an exclamation
mark.
-/

universe u

namespace ZigCst
namespace Zig

open ZigCst.Parser

variable {m : Type → Type u} [Monad m] [Parsing Kind m] [Routines Routine m]

/-- An expression in parentheses after a container keyword, if there is one. -/
def containerTag (inner : LevelOf m) : m Unit := do
  if ← eat .leftParen then
    discard inner.expr
    expect .rightParen

/-- The tag of a union: a type, or an enum that may have one of its own. -/
def unionTag (inner : LevelOf m) : m Unit := do
  if ← eat .leftParen then
    if ← eat .enumKw then containerTag inner
    else discard inner.expr
    expect .rightParen

/-- A container with its members. -/
def containerDecl (inner : LevelOf m) : m Kind := routine .containerDecl <|
  node .containerDecl do
    unless ← eat .externKw do
      skip .packedKw
    match ← peek with
    | .structKw | .enumKw =>
        advance
        containerTag inner
    | .unionKw =>
        advance
        unionTag inner
    | .opaqueKw => advance
    | _ => report .expectedContainerKeyword
    if ← eat .leftBrace then
      containerMembers inner true
      expect .rightBrace
    else report .expectedContainerBody

def builtinCall (inner : LevelOf m) : m Kind :=
  node .builtinCall do
    advance
    if ← at_ .leftParen then argList inner
    else report .expectedBuiltinArguments

/-- Reports that no expression starts here. -/
def noExpression : m (Option Kind) := do
  recover (.expectedExpression (← peek)) recovery
  return none

/-- An expression that no operator or suffix takes part in. -/
def primaryType (inner : LevelOf m) : m (Option Kind) := routine .primaryType do
  match ← peek, ← nth 1 with
  | .builtin, _ => return some (← builtinCall inner)
  | .charLiteral, _ | .integer, _ | .float, _ | .unreachableKw, _ =>
      return some (← node .literal advance)
  | .stringLiteralSingle, _ => return some (← node .stringLiteral advance)
  | .stringLiteralMulti, _ =>
      return some (← node .stringLiteral (repeatWhile (eat .stringLiteralMulti)))
  | .anyframeKw, _ => return some (← node .anyframeType advance)
  | .identifier, _ => return some (← node .ident advance)
  | .externKw, _ | .packedKw, _ | .structKw, _ | .enumKw, _ | .unionKw, _ | .opaqueKw, _ =>
      return some (← containerDecl inner)
  | .dot, .identifier =>
      return some (← node .enumLiteral do
        advance
        name .empty)
  | .dot, .leftBrace => return some (← initList inner)
  | .errorKw, .leftBrace =>
      return some (← node .errorSetDecl do
        advance
        list .errorNames (name recovery))
  | .errorKw, .dot =>
      return some (← node .errorValue do
        advance
        advance
        name recovery)
  | .fnKw, _ => return some (← node .fnType (fnProto inner))
  | .leftParen, _ =>
      return some (← node .parenExpr do
        advance
        discard inner.expr
        expect .rightParen)
  | .ifKw, _ => return some (← ifExpr inner)
  | .switchKw, _ => return some (← switchExpr inner)
  | .comptimeKw, _ =>
      return some (← node .comptimeExpr do
        advance
        discard inner.type)
  | _, _ => noExpression

/-- An index or a slice after its opening bracket, and which of them it is. -/
def indexOrSlice (inner : LevelOf m) : m Kind := do
  discard inner.expr
  if ← eat .dot2 then
    unless (← at_ .rightBracket) || (← at_ .colon) do
      discard inner.expr
    if ← eat .colon then discard inner.expr
    return .sliceExpr
  else return .indexExpr

/-- One suffix around an expression of a kind: whether there was one, and the
kind of the whole. -/
def suffix (inner : LevelOf m) (lhs : Kind) : m (Bool × Kind) := do
  match ← peek, ← nth 1 with
  | .leftBracket, _ =>
      let kind ← wrapOf do
        advance
        let kind ← indexOrSlice inner
        expect .rightBracket
        return kind
      return (true, kind)
  | .dot, .identifier =>
      let kind ← wrap .fieldExpr do
        advance
        name .empty
      return (true, kind)
  | .dot, .question =>
      let kind ← wrap .unwrapExpr do
        advance
        advance
      return (true, kind)
  | .dotStar, _ => return (true, ← wrap .derefExpr advance)
  | .leftParen, _ => return (true, ← wrap .callExpr (argList inner))
  | _, _ => return (false, lhs)

/-- A primary expression with its suffixes. -/
def suffixExpr (inner : LevelOf m) : m (Option Kind) := routine .suffixExpr do
  match ← primaryType inner with
  | none => return none
  | some lhs => return some (← iterate (suffix inner) lhs)

/-- An expression with suffixes, or an error union that starts with one. -/
def errorUnion (inner : LevelOf m) : m (Option Kind) := routine .errorUnion do
  match ← suffixExpr inner with
  | none => return none
  | some lhs =>
      if ← at_ .bang then
        return some (← wrap .errorUnionExpr do
          advance
          discard inner.type)
      else return some lhs

/-- One modifier of a pointer, and whether there was one. -/
def pointerModifier (inner : LevelOf m) : m Bool := do
  match ← peek with
  | .constKw | .volatileKw | .allowzeroKw =>
      advance
      return true
  | .alignKw | .addrspaceKw =>
      clauses inner false
      return true
  | _ => return false

def pointerModifiers (inner : LevelOf m) : m Unit := routine .pointerModifiers <|
  repeatWhile (pointerModifier inner)

/-- What stands in the brackets of a type, and the kind that it decides. -/
def bracketContent (inner : LevelOf m) : m Kind := do
  match ← peek with
  | .star =>
      advance
      if (← at_ .identifier) && (← text) == ['c'] then advance
      else if ← eat .colon then discard inner.expr
      return .ptrType
  | .rightBracket => return .sliceType
  | .colon =>
      advance
      discard inner.expr
      return .sliceType
  | _ =>
      discard inner.expr
      if ← eat .colon then discard inner.expr
      return .arrayType

/-- A pointer, slice or array type that starts with a bracket. -/
def bracketType (inner : LevelOf m) : m Kind := routine .bracketType <|
  nodeOf do
    advance
    let kind ← bracketContent inner
    expect .rightBracket
    unless kind == .arrayType do
      pointerModifiers inner
    discard inner.type
    return kind

/-- A type, the types in it being one level further in. -/
def typeWith (inner : LevelOf m) : m (Option Kind) := do
  match ← peek, ← nth 1 with
  | .question, _ =>
      return some (← node .optionalType do
        advance
        discard inner.type)
  | .anyframeKw, .arrow =>
      return some (← node .anyframeType do
        advance
        advance
        discard inner.type)
  | .star, _ | .star2, _ =>
      return some (← node .ptrType do
        advance
        pointerModifiers inner
        discard inner.type)
  | .leftBracket, _ => return some (← bracketType inner)
  | _, _ => errorUnion inner

end Zig
end ZigCst
