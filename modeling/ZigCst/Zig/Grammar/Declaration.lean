import ZigCst.Zig.Grammar.Statement

/-!
# Declarations and members of containers
-/

universe u

namespace ZigCst
namespace Zig

open ZigCst.Parser

variable {m : Type → Type u} [Monad m] [Parsing Kind m] [Routines Routine m]

/-- A string literal of one token. -/
def stringLiteral : m Unit := discard <| node .stringLiteral advance

def testDecl (inner : LevelOf m) : m Unit := routine .testDecl <|
  discard <| node .testDecl do
    advance
    match ← peek with
    | .stringLiteralSingle => stringLiteral
    | .identifier => name .empty
    | _ => pure ()
    block inner

/-- What may stand between `pub` and the keyword of a declaration. -/
def linkage : m Unit := do
  match ← peek with
  | .exportKw | .inlineKw | .noinlineKw => advance
  | .externKw =>
      advance
      if ← at_ .stringLiteralSingle then stringLiteral
  | _ => pure ()

/-- A declaration from `pub` on, and the kind that it turns out to have. -/
def declBody (inner : LevelOf m) : m Kind := do
  skip .pubKw
  if ← eat .usingnamespaceKw then
    discard inner.expr
    expect .semicolon
    return .usingnamespaceDecl
  linkage
  if ← at_ .fnKw then
    fnProto inner
    if ← at_ .leftBrace then block inner
    else expect .semicolon
    return .fnDecl
  skip .threadlocalKw
  if (← at_ .constKw) || (← at_ .varKw) then
    varDecl inner
    return .varDecl
  report .expectedDeclarationKeyword
  return .error

def decl (inner : LevelOf m) : m Unit := routine .decl <|
  discard <| nodeOf (declBody inner)

def containerField (inner : LevelOf m) : m Unit := routine .containerField <|
  discard <| node .containerField do
    skip .comptimeKw
    fieldName
    discard inner.type
    if ← at_ .alignKw then alignClause inner
    if ← eat .eq then discard inner.expr
    unless ← eat .comma do
      unless (← at_ .rightBrace) || (← atEnd) do
        report .expectedFieldComma

def containerMember (inner : LevelOf m) : m Unit := routine .containerMember do
  match ← peek with
  | .testKw => testDecl inner
  | .pubKw | .usingnamespaceKw | .exportKw | .externKw | .inlineKw | .noinlineKw
  | .threadlocalKw | .fnKw | .constKw | .varKw => decl inner
  | .comptimeKw =>
      if ← nthAt 1 .leftBrace then
        discard <| node .comptimeDecl do
          advance
          block inner
      else containerField inner
  | .identifier => containerField inner
  | .rightBrace => bump .unmatchedBrace
  | _ => bump .expectedDeclaration

/-- One member, and whether more may follow.  Members in braces end at the
closing one. -/
def memberInContainer (inner : LevelOf m) (inBraces : Bool) : m Bool := do
  if (← atEnd) || (inBraces && (← at_ .rightBrace)) then return false
  unless ← moves (containerMember inner) do
    bump .expectedDeclaration
  return true

def containerMembers (inner : LevelOf m) (inBraces : Bool) : m Unit :=
  routine (.containerMembers inBraces) <|
    repeatWhile (memberInContainer inner inBraces)

/-- A whole file, its members being over a level. -/
def fileOver (inner : LevelOf m) : m Unit := routine .sourceFile <|
  whole .sourceFile (containerMembers inner false)

end Zig
end ZigCst
