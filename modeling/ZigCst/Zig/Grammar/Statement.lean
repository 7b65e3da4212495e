import ZigCst.Zig.Grammar.Branch
import ZigCst.Zig.Grammar.Clause

/-!
# Statements and blocks

Every turn of the loop over the statements of a block consumes something: where
a statement takes nothing, the next token goes into an error node.
-/

universe u

namespace ZigCst
namespace Zig

open ZigCst.Parser

variable {m : Type → Type u} [Monad m] [Parsing Kind m] [Routines Routine m]

/-- The constructs that need no semicolon when they end in a brace. -/
def isBlockLike : Kind → Bool
  | .block | .ifExpr | .whileExpr | .forExpr | .switchExpr | .comptimeExpr | .nosuspendExpr =>
      true
  | _ => false

/-- An expression or assignment with its semicolon. -/
def statementBody (inner : LevelOf m) : m Unit := routine .statementBody do
  match ← assignExpr inner with
  | none => pure ()
  | some kind =>
      unless isBlockLike kind && (← prev?) == some .rightBrace do
        expect .semicolon

def deferStatement (inner : LevelOf m) : m Unit :=
  discard <| node .deferStmt do
    if ← eat .errdeferKw then payload
    else advance
    statementBody inner

def statement (inner : LevelOf m) : m Unit := routine .statement do
  match ← peek, ← nth 1 with
  | .comptimeKw, .constKw | .comptimeKw, .varKw =>
      discard <| node .varDecl do
        advance
        varDecl inner
  | .constKw, _ | .varKw, _ => discard <| node .varDecl (varDecl inner)
  | .deferKw, _ | .errdeferKw, _ => deferStatement inner
  | .suspendKw, _ =>
      discard <| node .suspendStmt do
        advance
        statementBody inner
  | .rightParen, _ => bump (.unexpected .rightParen)
  | .rightBracket, _ => bump (.unexpected .rightBracket)
  | .comma, _ => bump (.unexpected .comma)
  | .semicolon, _ => bump (.unexpected .semicolon)
  | _, _ => discard <| node .exprStmt (statementBody inner)

/-- One statement, and whether more may follow. -/
def statementInBlock (inner : LevelOf m) : m Bool := do
  if (← at_ .rightBrace) || (← atEnd) then return false
  unless ← moves (statement inner) do
    bump .expectedStatement
  return true

/-- Statements in braces, without a node around them. -/
def blockBody (inner : LevelOf m) : m Unit := routine .blockBody do
  expect .leftBrace
  repeatWhile (statementInBlock inner)
  expect .rightBrace

/-- A block, or an error in its place. -/
def block (inner : LevelOf m) : m Unit := routine .block do
  if ← at_ .leftBrace then discard <| node .block (blockBody inner)
  else recover (.expectedBlock (← peek)) recovery

end Zig
end ZigCst
