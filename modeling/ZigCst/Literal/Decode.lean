import ZigCst.Literal.Hex
import ZigCst.Text.Utf8

/-!
# Decoding escapes

`unescape` gives the text that the inside of a quoted literal denotes.  An
escape denotes bytes, not characters: `\xNN` is the byte `NN`, and only the
whole is read as UTF-8 again.  An escape that is malformed stands for its own
characters.
-/

namespace ZigCst
namespace Literal

/-- The byte of an escape of one character. -/
def simpleEscape? : Char → Option UInt8
  | 'n' => some 0x0A
  | 'r' => some 0x0D
  | 't' => some 0x09
  | '\\' => some 0x5C
  | '\'' => some 0x27
  | '"' => some 0x22
  | _ => none

/-- The byte named by the two digits after `\x`. -/
def byteEscape? : Text → Option UInt8
  | a :: b :: _ =>
      if Hex.isDigit a && Hex.isDigit b then some (UInt8.ofNat (Hex.value [a, b])) else none
  | _ => none

/-- The character named in braces after `\u` by one to six digits, and the
number of characters that name it. -/
def scalarEscape? : Text → Option (Char × Nat)
  | '\x7b' :: t =>
      let digits := t.takeWhile (· != '\x7d')
      if digits.length < t.length && 0 < digits.length && digits.length ≤ 6 &&
          digits.all Hex.isDigit then
        (Hex.scalar? (Hex.value digits)).map fun c => (c, digits.length + 2)
      else none
  | _ => none

/-- The bytes that an escaped text denotes. -/
def bytes : Text → List UInt8
  | [] => []
  | ['\\'] => [0x5C]
  | '\\' :: c :: t =>
      match simpleEscape? c with
      | some b => b :: bytes t
      | none =>
          if c = 'x' then
            match byteEscape? t with
            | some b => b :: bytes (t.drop 2)
            | none => 0x5C :: 0x78 :: bytes t
          else if c = 'u' then
            match scalarEscape? t with
            | some (s, n) => String.utf8EncodeChar s ++ bytes (t.drop n)
            | none => 0x5C :: 0x75 :: bytes t
          else 0x5C :: bytes (c :: t)
  | c :: t => String.utf8EncodeChar c ++ bytes t
termination_by t => t.length
decreasing_by all_goals simp only [List.length_cons, List.length_drop]; omega

/-- The text that the inside of a quoted literal denotes. -/
def unescape (t : Text) : Text := Utf8.decodeLossy (bytes t)

end Literal
end ZigCst
