import ZigCst.Literal.Quoted

/-!
# Literals of several lines

Each line of the literal starts with an indent and two backslashes.  Its
content is the rest of the line, without carriage returns at the end.
-/

namespace ZigCst
namespace Literal

/-- What follows the first two backslashes of a line, and where. -/
def afterMark? : Text → Option Excerpt
  | '\\' :: '\\' :: t => some ⟨2, t⟩
  | [] => none
  | c :: t => (afterMark? t).map fun e => ⟨c.utf8Size + e.offset, e.text⟩

/-- The content of a marked line. -/
def lineContent? (l : Text) : Option Excerpt :=
  (afterMark? l).map fun e => ⟨e.offset, Text.dropEndWhile (· == '\r') e.text⟩

/-- The contents of lines that start at byte position `start`. -/
def lineContents (start : Nat) : List Text → List Excerpt
  | [] => []
  | l :: ls =>
      let others := lineContents (start + l.size + 1) ls
      match lineContent? l with
      | some e => ⟨start + e.offset, e.text⟩ :: others
      | none => others

/-- The contents of the marked lines of a literal, one for each. -/
def contents (t : Text) : List Excerpt := lineContents 0 t.lines

end Literal
end ZigCst
