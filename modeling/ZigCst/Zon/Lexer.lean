import ZigCst.Scan
import ZigCst.Zon.Kind

/-!
# Lexemes of Zon

`Zon.lex` cuts a text into lexemes, blanks and comments included.  All
punctuation is a single character, every comment is a line comment, and words
are never keywords.
-/

namespace ZigCst
namespace Zon

/-- The kind of a punctuation character. -/
def punctuation? : Char → Option Kind
  | '.' => some .dot
  | '\x7b' => some .leftBrace
  | '\x7d' => some .rightBrace
  | ',' => some .comma
  | '=' => some .eq
  | '-' => some .minus
  | _ => none

/-- Reads the lexeme that starts with `c`. -/
def read (c : Char) : (t : Text) → Reading Kind t
  | '/' :: t =>
      if c = '/' then ⟨.lineComment, .cons '/' (Scan.line t)⟩ else readOther c ('/' :: t)
  | '\\' :: t =>
      if c = '\\' then ⟨.lineString, .cons '\\' (Scan.markedLines t)⟩
      else readOther c ('\\' :: t)
  | '"' :: t =>
      if c = '@' then ⟨.identifier, .cons '"' (Scan.quoted '"' t)⟩
      else readOther c ('"' :: t)
  | t => readOther c t
where
  /-- Everything that its first character decides. -/
  readOther (c : Char) (t : Text) : Reading Kind t :=
    if Scan.isBlank c then ⟨.whitespace, Scan.blanks t⟩
    else if c = '"' then ⟨.stringLiteralSingle, Scan.quoted '"' t⟩
    else if c = '\'' then ⟨.charLiteral, Scan.quoted '\'' t⟩
    else if Scan.isDecimal c then
      let (isFloat, cut) := Scan.numeral c t
      ⟨if isFloat then .float else .integer, cut⟩
    else if Scan.startsWord c then ⟨.identifier, Scan.word t⟩
    else ⟨(punctuation? c).getD .badCharacter, .none t⟩

/-- The lexemes of a text, ending with the empty end of file. -/
def lex : Text → List (Lexeme Kind) := lexWith read

end Zon
end ZigCst
