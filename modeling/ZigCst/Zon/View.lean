import ZigCst.Tree.Select
import ZigCst.Tree.Walk
import ZigCst.Zon.Kind

/-!
# Reading Zon trees

The data that a tree stands for: values, the entries of containers, names,
strings, characters and numbers.  A malformed value is the error node in its
place.
-/

namespace ZigCst
namespace Zon

/-- The name of the construct that a node of a kind stands for. -/
def construct? : Kind → Option String
  | .file => some "File"
  | .struct => some "Struct"
  | .array => some "Array"
  | .entry => some "Entry"
  | .ident => some "Identifier"
  | .enumLiteral => some "EnumLiteral"
  | .stringLiteral => some "StringLiteral"
  | .char => some "Char"
  | .number => some "Number"
  | .error => some "Error"
  | _ => none

/-- The forms of a value. -/
inductive Form where
  | struct
  | array
  | identifier
  | enumLiteral
  | stringLiteral
  | char
  | number
  | error
deriving DecidableEq, Repr

/-- The form of value that a node of a kind is. -/
def Form.ofKind? : Kind → Option Form
  | .struct => some .struct
  | .array => some .array
  | .ident => some .identifier
  | .enumLiteral => some .enumLiteral
  | .stringLiteral => some .stringLiteral
  | .char => some .char
  | .number => some .number
  | .error => some .error
  | _ => none

/-- A node in the position of a value. -/
structure Value where
  form : Form
  node : Node Kind

def Value.ofNode? (n : Node Kind) : Option Value :=
  (Form.ofKind? n.kind).map fun form => ⟨form, n⟩

namespace Identifier

def token? (n : Node Kind) : Option (Leaf Kind) := n.token? .identifier

def text (n : Node Kind) : Text := ((token? n).map fun l => l.text).getD []

/-- The name, quotes removed and escapes decoded. -/
def value (n : Node Kind) : Text := Literal.nameOf (text n)

end Identifier

namespace Entry

/-- The name of a named entry. -/
def key? (n : Node Kind) : Option (Node Kind) :=
  if n.hasToken .eq then n.child? .ident else none

/-- The value after the equals sign, or the first one of a positional entry. -/
def value? (n : Node Kind) : Option Value :=
  let values := n.childNodes.filterMap Value.ofNode?
  match n.token? .eq with
  | some eq => values.find? fun v => eq.range.stop ≤ v.node.range.start
  | none => values.head?

end Entry

/-- The value of a file. -/
def File.value? (n : Node Kind) : Option Value := n.childNodes.findSome? Value.ofNode?

namespace Struct

def entries (n : Node Kind) : List (Node Kind) := n.childrenOf .entry

/-- The name of an entry, decoded. -/
def keyName? (entry : Node Kind) : Option Text := (Entry.key? entry).map Identifier.value

/-- The names of all fields, each once, in order of their characters. -/
def keys (n : Node Kind) : List Text :=
  ((entries n).filterMap keyName?).eraseDups.mergeSort Text.precedes

/-- The entries whose name one of the entries before has too. -/
def duplicatesFrom (seen : List Text) : List (Node Kind) → List (Node Kind)
  | [] => []
  | e :: es =>
      match keyName? e with
      | none => duplicatesFrom seen es
      | some name =>
          if seen.contains name then e :: duplicatesFrom seen es
          else duplicatesFrom (name :: seen) es

def duplicates (n : Node Kind) : List (Node Kind) := duplicatesFrom [] (entries n)

/-- The value of the first field of a name. -/
def get? (n : Node Kind) (name : Text) : Option Value :=
  ((entries n).find? fun e => keyName? e == some name).bind Entry.value?

end Struct

namespace Array

def entries (n : Node Kind) : List (Node Kind) := n.childrenOf .entry

def values (n : Node Kind) : List Value := (entries n).filterMap Entry.value?

end Array

/-- The name of an enum literal. -/
def EnumLiteral.name? (n : Node Kind) : Option (Node Kind) := n.child? .ident

namespace StringLiteral

def isMultiline (n : Node Kind) : Bool := n.hasToken .lineString

/-- The parts of the document that make up the value. -/
def excerpts (n : Node Kind) : List Excerpt :=
  if isMultiline n then
    (n.childTokens.filter fun l => l.kind == .lineString).flatMap Leaf.lineContents
  else ((n.token? .stringLiteralSingle).map Leaf.quotedContent).toList

def ranges (n : Node Kind) : List Range := (excerpts n).map (Excerpt.range 0)

def content (n : Node Kind) : Text := Literal.value (isMultiline n) (excerpts n)

end StringLiteral

/-- The character of a character literal. -/
def Character.value? (n : Node Kind) : Option Char :=
  (n.token? .charLiteral).bind fun l => Literal.charOf? l.text

namespace Number

def isNegative (n : Node Kind) : Bool := n.hasToken .minus

def isFloat (n : Node Kind) : Bool := n.hasToken .float

/-- The digits without the sign. -/
def literal? (n : Node Kind) : Option (Leaf Kind) :=
  (n.token? .integer).or (n.token? .float)

end Number

end Zon
end ZigCst
