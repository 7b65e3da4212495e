import ZigCst.Literal.Decode

/-!
# Quoted literals and quoted names

The content of a quoted literal is what stands between its quotes.  A literal
that its line cut off has no closing quote: `isTerminated` counts the
backslashes before the last quote to see whether that one is escaped.
-/

namespace ZigCst

/-- A part of a text and the byte position at which it starts there. -/
structure Excerpt where
  offset : Nat
  text : Text
deriving DecidableEq, Repr

/-- The range of an excerpt of a text that itself starts at `start`. -/
def Excerpt.range (start : Nat) (e : Excerpt) : Range := .ofText (start + e.offset) e.text

namespace Literal

/-- Whether a text that starts with a quote ends with another, unescaped one. -/
def isTerminated (quote : Char) : Text → Bool
  | [] => false
  | first :: body =>
      first == quote &&
        match body.reverse with
        | [] => false
        | last :: inside =>
            last == quote && (inside.takeWhile (· == '\\')).length % 2 == 0

/-- The text without its opening quote and, if it has one, its closing quote. -/
def content (quote : Char) : Text → Excerpt
  | [] => ⟨0, []⟩
  | first :: body =>
      if first = quote then
        ⟨quote.utf8Size,
          if isTerminated quote (first :: body) then body.dropLast else body⟩
      else ⟨0, first :: body⟩

/-- The name that an identifier denotes, `@"..."` being its quoted form. -/
def nameOf : Text → Text
  | '@' :: '"' :: t => unescape (content '"' ('"' :: t)).text
  | '@' :: t => t
  | t => t

/-- The only character of a text. -/
def onlyChar? : Text → Option Char
  | [c] => some c
  | _ => none

/-- The character that a character literal denotes. -/
def charOf? (t : Text) : Option Char := onlyChar? (unescape (content '\'' t).text)

end Literal
end ZigCst
