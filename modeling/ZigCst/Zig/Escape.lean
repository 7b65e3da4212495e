import ZigCst.Literal.Hex
import ZigCst.Scan
import ZigCst.Zig.Kind

/-!
# Escapes inside literals

`escapes` splits a quoted literal, quotes included, into runs of plain text and
single escapes, each of them marked valid or not.  `highlight` is the stream of
a source file with every quoted literal split in this way, read lexeme by lexeme:
the parts of a literal wait until they are asked for.
-/

namespace ZigCst

/-- Takes at most `n` characters, all of which satisfy `p`. -/
def Cut.spanUpTo (p : Char → Bool) : Nat → (t : Text) → Cut t
  | 0, t => .none t
  | _ + 1, [] => .none []
  | n + 1, c :: t => if p c then .cons c (spanUpTo p n t) else .none (c :: t)

namespace Zig

/-- Braces around one to six digits that name a scalar value, after `\u`. -/
def readScalar : (t : Text) → Reading Kind t
  | '\x7b' :: t =>
      let digits := Cut.span Hex.isDigit t
      let closing := Cut.spanUpTo (· == '\x7d') 1 digits.rest
      let isValid := !closing.taken.isEmpty && 0 < digits.taken.length &&
        digits.taken.length ≤ 6 && (Hex.scalar? (Hex.value digits.taken)).isSome
      ⟨if isValid then .validEscape else .invalidUnicodeEscape,
        .cons '\x7b' (digits.andThen (Cut.spanUpTo (· == '\x7d') 1))⟩
  | t => ⟨.invalidUnicodeEscape, .none t⟩

/-- Reads an escape after its backslash. -/
def readEscape : (t : Text) → Reading Kind t
  | [] => ⟨.invalidCharacterEscape, .none []⟩
  | c :: t =>
      if ['n', 'r', 't', '\\', '\'', '"'].contains c then ⟨.validEscape, .cons c (.none t)⟩
      else if c = 'x' then
        let digits := Cut.spanUpTo Hex.isDigit 2 t
        ⟨if digits.taken.length = 2 then .validEscape else .invalidCharacterEscape,
          .cons c digits⟩
      else if c = 'u' then
        let scalar := readScalar t
        ⟨scalar.kind, .cons c scalar.cut⟩
      else ⟨.invalidCharacterEscape, .cons c (.none t)⟩

/-- Reads an escape or a run of plain text. -/
def readPart (c : Char) (t : Text) : Reading Kind t :=
  if c = '\\' then readEscape t else ⟨.stringText, .span (· != '\\') t⟩

/-- The plain runs and the escapes of a text. -/
def escapes : Text → List (Lexeme Kind)
  | [] => []
  | c :: t =>
      let r := readPart c t
      ⟨r.kind, c :: r.cut.taken⟩ :: escapes r.cut.rest
termination_by t => t.length
decreasing_by exact Nat.lt_succ_of_le r.cut.length_rest_le

/-- The plain runs and the escapes of the text in a range, in place; `none` if the range
does not lie between characters. -/
def partsIn? (text : Text) (r : Range) : Option (List (Located Kind)) :=
  (text.slice? r.start r.stop).map fun part => locate r.start (escapes part)

/-- Whether a lexeme is a quoted literal in which something can be split. -/
def isSplit (l : Lexeme Kind) : Bool :=
  (l.kind == .stringLiteralSingle || l.kind == .charLiteral) && !l.text.isEmpty

/-- A stream whose quoted literals are split while it is read: the parts of a literal
that were not asked for yet, and the lexemes behind it. -/
structure Highlighter where
  pending : List (Lexeme Kind)
  ahead : List (Lexeme Kind)

namespace Highlighter

/-- The next part of a literal, or the next lexeme. -/
def next? : Highlighter → Option (Lexeme Kind × Highlighter)
  | ⟨p :: pending, ahead⟩ => some (p, ⟨pending, ahead⟩)
  | ⟨[], []⟩ => none
  | ⟨[], l :: ahead⟩ =>
      if isSplit l then
        match escapes l.text with
        | [] => none
        | p :: pending => some (p, ⟨pending, ahead⟩)
      else some (l, ⟨[], ahead⟩)

/-- A lexeme that is read is gone from the stream or from what was pending. -/
theorem lex_of_next?
    {h h' : Highlighter}
    {l : Lexeme Kind}
    (hnext : h.next? = some (l, h')) :
    Prod.Lex (· < ·) (· < ·) (h'.ahead.length, h'.pending.length)
      (h.ahead.length, h.pending.length) := by
  fun_cases next? h with
  | case1 p pending ahead =>
      cases hnext
      exact .right _ (Nat.lt_succ_self _)
  | case2 => simp [next?] at hnext
  | case3 l ahead hsplit hparts => simp [next?, hsplit, hparts] at hnext
  | case4 l ahead hsplit p pending hparts =>
      simp only [next?, hsplit, hparts, if_true] at hnext
      cases hnext
      exact .left _ _ (Nat.lt_succ_self _)
  | case5 l ahead hsplit =>
      simp only [next?, hsplit] at hnext
      cases hnext
      exact .left _ _ (Nat.lt_succ_self _)

/-- Everything that is read until nothing comes any more. -/
def run (h : Highlighter) : List (Lexeme Kind) :=
  match _hnext : h.next? with
  | none => []
  | some (l, h') => l :: h'.run
termination_by (h.ahead.length, h.pending.length)
decreasing_by exact lex_of_next? _hnext

end Highlighter

/-- The lexemes of a source file with its quoted literals split. -/
def highlight (ls : List (Lexeme Kind)) : List (Lexeme Kind) := (Highlighter.mk [] ls).run

end Zig
end ZigCst
