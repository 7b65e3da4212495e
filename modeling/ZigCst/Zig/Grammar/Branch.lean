import ZigCst.Zig.Grammar.Basic

/-!
# Assignments, captures and branches

The constructs that statements and expressions share: assignments, captures
between pipes, `if` and `switch`, lists of arguments and of initializers.
-/

universe u

namespace ZigCst
namespace Zig

open ZigCst.Parser

variable {m : Type → Type u} [Monad m] [Parsing Kind m] [Routines Routine m]

/-- An expression, or an assignment to one. -/
def assignExpr (inner : LevelOf m) : m (Option Kind) := routine .assignExpr do
  match ← inner.expr with
  | none => return none
  | some lhs =>
      if (← peek).isAssignment then
        return some (← wrap .assignExpr do
          advance
          discard inner.expr)
      else return some lhs

/-- One captured name, and whether a comma promises another. -/
def capture : m Bool := do
  skip .star
  name (recovery.union (.ofList [.pipe]))
  eat .comma

/-- Captured names between pipes, if there are any. -/
def payload : m Unit := routine .payload do
  if ← at_ .pipe then
    discard <| node .payload do
      advance
      repeatWhile capture
      expect .pipe

/-- The alternative of a branch or a loop, if there is one. -/
def elseBranch (inner : LevelOf m) : m Unit := routine .elseBranch do
  if ← at_ .elseKw then
    discard <| node .elseBranch do
      advance
      payload
      discard (assignExpr inner)

def ifExpr (inner : LevelOf m) : m Kind := routine .ifExpr <|
  node .ifExpr do
    advance
    condition inner
    payload
    discard (assignExpr inner)
    elseBranch inner

/-- A case of a prong, and whether a comma promises another. -/
def switchItem (inner : LevelOf m) : m Bool := do
  discard inner.expr
  if ← eat .ellipsis then discard inner.expr
  if ← eat .comma then return !(← at_ .fatArrow)
  else return false

def switchProng (inner : LevelOf m) : m Unit := routine .switchProng <|
  discard <| node .switchProng do
    skip .inlineKw
    discard <| node .switchCase do
      unless ← eat .elseKw do
        repeatWhile (switchItem inner)
    expect .fatArrow
    payload
    discard (assignExpr inner)

def switchExpr (inner : LevelOf m) : m Kind := routine .switchExpr <|
  node .switchExpr do
    advance
    condition inner
    list .switchProngs (switchProng inner)

def argList (inner : LevelOf m) : m Unit := routine .argList <|
  discard <| node .argList (list .arguments (discard inner.expr))

/-- A field with its value, or a value alone. -/
def initializer (inner : LevelOf m) : m Unit := do
  if (← at_ .dot) && (← nthAt 1 .identifier) && (← nthAt 2 .eq) then
    discard <| node .fieldInit do
      advance
      name .empty
      advance
      discard inner.expr
  else discard inner.expr

/-- Initializers in braces, after a dot if no type stands before them. -/
def initList (inner : LevelOf m) : m Kind := routine .initList <|
  node .initList do
    skip .dot
    list .initializers (initializer inner)

end Zig
end ZigCst
