import ZigCst.Parser
import ZigCst.Zon.Kind

/-!
# The grammar of Zon

    file      := value EOF
    value     := '.' '{' (entry (',' entry)* ','?)? '}'
               | '.' IDENTIFIER
               | STRING_LITERAL_SINGLE | LINE_STRING+ | CHAR_LITERAL
               | '-'? (INTEGER | FLOAT)
               | IDENTIFIER
    entry     := ('.' IDENTIFIER '=')? value

A container is an array when it has entries and none of them is named, and a
struct otherwise.  Values nest at most `maxDepth` deep: the parser of a value is
built from the parser of the values one level further in.
-/

universe u

namespace ZigCst
namespace Zon

open ZigCst.Parser

/-- The functions of the grammar, by the type of what they give. -/
inductive Routine : Type → Type where
  | value (recovery : KindSet Kind) : Routine Unit
  | identifier : Routine Unit
  | entry : Routine Bool
  | container : Routine Unit
  | file : Routine Unit

/-- A call is as good as the body of what is called. -/
instance : Routines Routine (Parser Kind) where
  routine _ p := p

@[simp]
theorem routine_eq {α : Type} (r : Routine α) (p : Parser Kind α) : routine r p = p := rfl

/-- Tokens that an entry leaves to the container around it. -/
def entryRecovery : KindSet Kind := .ofList [.comma, .rightBrace]

variable {m : Type → Type u} [Monad m] [Parsing Kind m] [Routines Routine m]

def identifier : m Unit := routine .identifier <|
  discard <| node .ident advance

/-- An entry, and whether it is named. -/
def entry (value : KindSet Kind → m Unit) : m Bool := routine .entry do
  let isNamed := (← at_ .dot) && (← nthAt 1 .identifier) && (← nthAt 2 .eq)
  discard <| node .entry do
    if isNamed then
      advance
      identifier
      advance
    value entryRecovery
  return isNamed

/-- The entries of a container: whether some are positional and some named. -/
structure Entries where
  positional : Bool
  named : Bool

/-- One more entry. -/
def Entries.add (s : Entries) (isNamed : Bool) : Entries :=
  ⟨s.positional || !isNamed, s.named || isNamed⟩

/-- The kind of a container with such entries. -/
def Entries.kind (s : Entries) : Kind := if s.positional && !s.named then .array else .struct

/-- One entry with the comma after it, and whether more may follow. -/
def entryAndComma (value : KindSet Kind → m Unit) (s : Entries) :
    m (Bool × Entries) := do
  if (← at_ .rightBrace) || (← atEnd) then return (false, s)
  if ← at_ .comma then
    bump (.strayComma .value)
    return (true, s)
  let s := s.add (← entry value)
  if ← eat .comma then return (true, s)
  if (← at_ .rightBrace) || (← atEnd) then return (false, s)
  report .expectedEntryComma
  return (true, s)

/-- A dot and entries in braces, and the kind that they decide. -/
def containerBody (value : KindSet Kind → m Unit) : m Kind := do
  advance
  advance
  let s ← iterate (entryAndComma value) ⟨false, false⟩
  expect .rightBrace
  return s.kind

def container (value : KindSet Kind → m Unit) : m Unit := routine .container <|
  discard <| nodeOf (containerBody value)

/-- A minus and a number. -/
def negative : m Unit :=
  discard <| node .number do
    advance
    unless ← eat .integer do
      unless ← eat .float do
        report .expectedNumber

/-- A value whose entries are parsed by `value`. -/
def valueWith (value : KindSet Kind → m Unit) (recovery : KindSet Kind) : m Unit := do
  match ← peek with
  | .dot =>
      match ← nth 1 with
      | .leftBrace => container value
      | .identifier =>
          discard <| node .enumLiteral do
            advance
            identifier
      | _ => recover .expectedValue recovery
  | .stringLiteralSingle => discard <| node .stringLiteral advance
  | .lineString => discard <| node .stringLiteral (repeatWhile (eat .lineString))
  | .charLiteral => discard <| node .char advance
  | .integer | .float => discard <| node .number advance
  | .minus => negative
  | .identifier => identifier
  | _ => recover .expectedValue recovery

/-- A value below which `depth` levels of values are allowed, itself included. -/
def value : Nat → KindSet Kind → Parser Kind Unit
  | 0, _ => tooDeep
  | depth + 1, recovery => valueWith (value depth) recovery

/-- What stands after the value of a file. -/
def remains : m Unit :=
  discard <| node .error do
    report .expectedEndOfFile
    repeatWhile do
      advance
      return !(← atEnd)

/-- The value of a file and what stands after it. -/
def documentOf (value : m Unit) : m Unit := do
  if ← atEnd then report .expectedValue
  else value
  unless ← atEnd do
    remains

/-- A whole file, its value being parsed by `value`. -/
def fileOver (value : KindSet Kind → m Unit) : m Unit := routine .file <|
  whole .file (documentOf (value .empty))

def document : Parser Kind Unit := documentOf (value maxDepth .empty)

def file : Parser Kind Unit := fileOver (value maxDepth)

theorem file_eq : file = whole .file document := rfl

/-- The functions of the grammar over values. -/
def function (value : KindSet Kind → m Unit) {α : Type} : Routine α → m α
  | .value recovery => value recovery
  | .identifier => identifier
  | .entry => entry value
  | .container => container value
  | .file => fileOver value

end Zon
end ZigCst
