import ZigCst.Zig.Grammar.Basic

/-!
# Clauses, parameters and function prototypes
-/

universe u

namespace ZigCst
namespace Zig

open ZigCst.Parser

variable {m : Type → Type u} [Monad m] [Parsing Kind m] [Routines Routine m]

/-- An alignment, which inside pointer types may name a bit position. -/
def alignClause (inner : LevelOf m) : m Unit := routine .alignClause <|
  discard <| node .alignClause do
    advance
    expect .leftParen
    discard inner.expr
    if ← eat .colon then
      discard inner.expr
      expect .colon
      discard inner.expr
    expect .rightParen

/-- A keyword and an expression in parentheses. -/
def keywordClause (inner : LevelOf m) (kind : Kind) : m Unit :=
  discard <| node kind do
    advance
    condition inner

/-- One clause, and whether there was one.  Only functions have a calling
convention. -/
def clause (inner : LevelOf m) (ofFunction : Bool) : m Bool := do
  match ← peek with
  | .alignKw =>
      alignClause inner
      return true
  | .addrspaceKw =>
      keywordClause inner .addrspaceClause
      return true
  | .linksectionKw =>
      keywordClause inner .linksectionClause
      return true
  | .callconvKw =>
      if ofFunction then
        keywordClause inner .callconvClause
        return true
      else return false
  | _ => return false

/-- Clauses in any order. -/
def clauses (inner : LevelOf m) (ofFunction : Bool) : m Unit := routine (.clauses ofFunction) <|
  repeatWhile (clause inner ofFunction)

/-- A name and a colon, if both are there. -/
def fieldName : m Unit := do
  if (← at_ .identifier) && (← nthAt 1 .colon) then
    name .empty
    advance

/-- The name of a parameter, if there is one, and its type. -/
def paramBody (inner : LevelOf m) : m Unit := do
  fieldName
  match ← peek with
  | .anytypeKw | .ellipsis => advance
  | _ => discard inner.type

def param (inner : LevelOf m) : m Unit := routine .param <|
  discard <| node .param do
    unless ← eat .noaliasKw do
      skip .comptimeKw
    paramBody inner

def paramList (inner : LevelOf m) : m Unit := routine .paramList <|
  discard <| node .paramList (list .parameters (param inner))

/-- A function from its keyword, which must be next, to its return type. -/
def fnProto (inner : LevelOf m) : m Unit := routine .fnProto do
  ensure (← at_ .fnKw)
  advance
  if ← at_ .identifier then name .empty
  if ← at_ .leftParen then paramList inner
  else report .expectedParameters
  clauses inner true
  skip .bang
  if (← at_ .leftBrace) || (← at_ .semicolon) then report .expectedReturnType
  else discard inner.type

/-- A variable from its keyword to its semicolon. -/
def varDecl (inner : LevelOf m) : m Unit := routine .varDecl do
  advance
  name (recovery.union (.ofList [.colon, .eq]))
  if ← eat .colon then discard inner.type
  clauses inner false
  if ← eat .eq then discard inner.expr
  expect .semicolon

end Zig
end ZigCst
