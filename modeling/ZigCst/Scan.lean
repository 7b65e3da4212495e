import ZigCst.Lexeme

/-!
# Scanning

A scanner cuts a text in two: what it takes, and the rest.  `Cut t` carries the
proof that nothing is lost, so a lexer made of scanners covers its input by
construction, and the loop over the rest ends because every lexeme takes its
first character.

**Scanners.**  Runs of blanks, of word characters and up to a line feed; the
body of a quoted literal; lines marked by two backslashes; numerals.

**The loop.**  `lexWith` reads lexemes until the text ends and adds the empty
end of file.
-/

namespace ZigCst

/-- A text cut in two. -/
structure Cut (t : Text) where
  taken : Text
  rest : Text
  join : taken ++ rest = t

namespace Cut

/-- Takes nothing. -/
def none (t : Text) : Cut t := ⟨[], t, rfl⟩

/-- Takes one more character in front. -/
def cons {t : Text} (c : Char) (k : Cut t) : Cut (c :: t) :=
  ⟨c :: k.taken, k.rest, congrArg (c :: ·) k.join⟩

/-- Takes the longest beginning whose characters all satisfy `p`. -/
def span (p : Char → Bool) (t : Text) : Cut t :=
  ⟨t.takeWhile p, t.dropWhile p, List.takeWhile_append_dropWhile⟩

/-- Takes more from the rest. -/
def andThen {t : Text} (k : Cut t) (f : (r : Text) → Cut r) : Cut t :=
  ⟨k.taken ++ (f k.rest).taken, (f k.rest).rest, by
    rw [List.append_assoc, (f k.rest).join, k.join]⟩

theorem length_rest_le {t : Text} (k : Cut t) : k.rest.length ≤ t.length := by
  have h := congrArg List.length k.join
  rw [List.length_append] at h
  omega

end Cut

namespace Scan

/-- Blanks between tokens. -/
def isBlank (c : Char) : Bool := c == ' ' || c == '\t' || c == '\r' || c == '\n'

/-- Blanks that may indent a line. -/
def isIndent (c : Char) : Bool := c == ' ' || c == '\t' || c == '\r'

def isLetter (c : Char) : Bool := ('a' ≤ c && c ≤ 'z') || ('A' ≤ c && c ≤ 'Z')

def isDecimal (c : Char) : Bool := '0' ≤ c && c ≤ '9'

def isHex (c : Char) : Bool := isDecimal c || ('a' ≤ c && c ≤ 'f') || ('A' ≤ c && c ≤ 'F')

/-- Characters that may start a word. -/
def startsWord (c : Char) : Bool := isLetter c || c == '_'

/-- Characters that may continue a word. -/
def continuesWord (c : Char) : Bool := isLetter c || isDecimal c || c == '_'

def blanks (t : Text) : Cut t := .span isBlank t

/-- Everything up to the next line feed. -/
def line (t : Text) : Cut t := .span (· != '\n') t

def word (t : Text) : Cut t := .span continuesWord t

/-- The body of a quoted literal after its opening quote: up to and including
the first quote that no backslash escapes, or up to the end of the line. -/
def quoted (quote : Char) : (t : Text) → Cut t
  | [] => .none []
  | ['\\'] => .cons '\\' (.none [])
  | '\\' :: c :: t =>
      if c = '\n' then .cons '\\' (.none (c :: t))
      else .cons '\\' (.cons c (quoted quote t))
  | c :: t =>
      if c = '\n' then .none (c :: t)
      else if c = quote then .cons c (.none t)
      else .cons c (quoted quote t)

/-- Lines marked by two backslashes, after the first mark.  A further line
belongs to the literal when two backslashes are its first characters after the
indent. -/
def markedLines (t : Text) : Cut t :=
  let first := line t
  match h : first.rest with
  | '\n' :: next =>
      let indent := Cut.span isIndent next
      if ['\\', '\\'] <+: indent.rest then
        let more := markedLines indent.rest
        ⟨first.taken ++ '\n' :: (indent.taken ++ more.taken), more.rest, by
          have hindent := indent.join
          have hfirst := first.join
          rw [h] at hfirst
          rw [List.append_assoc, List.cons_append, List.append_assoc, more.join, hindent, hfirst]⟩
      else first
  | _ => first
termination_by t.length
decreasing_by
  have hindent := (Cut.span isIndent next).length_rest_le
  have hfirst := first.length_rest_le
  rw [h] at hfirst
  simp only [List.length_cons] at hfirst
  omega

/-- A digit of a numeral, or an underscore between digits. -/
def isDigitOrMark (hex : Bool) (c : Char) : Bool :=
  c == '_' || if hex then isHex c else isDecimal c

def digits (hex : Bool) (t : Text) : Cut t := .span (isDigitOrMark hex) t

/-- A point and digits, taken only when a digit follows the point. -/
def fraction (hex : Bool) : (t : Text) → Cut t
  | '.' :: d :: t =>
      if (if hex then isHex d else isDecimal d) then .cons '.' (digits hex (d :: t))
      else .none ('.' :: d :: t)
  | t => .none t

/-- A sign, if there is one. -/
def sign : (t : Text) → Cut t
  | c :: t => if c = '+' ∨ c = '-' then .cons c (.none t) else .none (c :: t)
  | [] => .none []

/-- An exponent with its mark: `p` for hexadecimal numerals, `e` for all others. -/
def exponent (hex : Bool) : (t : Text) → Cut t
  | c :: t =>
      if (if hex then c == 'p' || c == 'P' else c == 'e' || c == 'E') then
        .cons c ((sign t).andThen (digits false))
      else .none (c :: t)
  | [] => .none []

/-- The radix mark after a leading zero: `x`, `o` or `b`. -/
def radix (first : Char) : (t : Text) → Cut t
  | c :: t =>
      if first = '0' ∧ (c = 'x' ∨ c = 'o' ∨ c = 'b') then .cons c (.none t)
      else .none (c :: t)
  | [] => .none []

/-- A numeral after its first digit, and whether it denotes a float: one with a
fraction or an exponent. -/
def numeral (first : Char) (t : Text) : Bool × Cut t :=
  let mark := radix first t
  let hex := mark.taken == ['x']
  let whole := mark.andThen (digits hex)
  let point := fraction hex whole.rest
  let power := exponent hex point.rest
  (!point.taken.isEmpty || !power.taken.isEmpty,
    ((whole.andThen (fraction hex)).andThen (exponent hex)).andThen word)

end Scan

/-- The reading of one lexeme after its first character. -/
structure Reading (K : Type) (t : Text) where
  kind : K
  cut : Cut t

/-- Reads lexemes until the text ends, then the empty end of file. -/
def lexWith {K : Type} [Vocabulary K] (read : (c : Char) → (t : Text) → Reading K t) :
    Text → List (Lexeme K)
  | [] => [⟨Vocabulary.eof, []⟩]
  | c :: t =>
      let r := read c t
      ⟨r.kind, c :: r.cut.taken⟩ :: lexWith read r.cut.rest
termination_by t => t.length
decreasing_by exact Nat.lt_succ_of_le r.cut.length_rest_le

/-- The stream of the text from a byte position on, a position past the end
counting as the end; `none` inside a character. -/
def restart? {K : Type} (lex : Text → List (Lexeme K)) (offset : Nat) (t : Text) :
    Option (List (Located K)) :=
  let start := min offset t.size
  (t.splitAt? start).map fun (_, rest) => locate start (lex rest)

end ZigCst
