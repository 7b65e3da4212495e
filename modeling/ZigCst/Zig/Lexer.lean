import ZigCst.Chain
import ZigCst.Zig.Kind

/-!
# Lexemes of Zig

`Zig.lex` cuts a text into lexemes, blanks and comments included.  `operator?`
gives, for each first character of an operator, the chain of attempts to eat
more characters.
-/

namespace ZigCst
namespace Zig

/-- Operators that start with a point. -/
def dot : Chain Kind :=
  .eat '*' (.stop .dotStar) (.eat '.' (.either [('.', .ellipsis)] .dot2) (.stop .dot))

/-- Operators that start with `<`. -/
def less : Chain Kind :=
  .eat '=' (.stop .ltEq)
    (.eat '<'
      (.eat '|' (.either [('=', .shlPipeEq)] .shlPipe) (.either [('=', .shlEq)] .shl))
      (.stop .lt))

/-- Operators that start with `>`. -/
def greater : Chain Kind :=
  .eat '=' (.stop .gtEq) (.eat '>' (.either [('=', .shrEq)] .shr) (.stop .gt))

/-- Operators that start with `+`, `-` or `*`: alone, assigning, wrapping and saturating,
and one more of two characters. -/
def arithmetic
    (single assign wrap wrapAssign saturate saturateAssign : Kind)
    (c : Char)
    (extra : Kind) :
    Chain Kind :=
  .eat '=' (.stop assign)
    (.eat '%' (.either [('=', wrapAssign)] wrap)
      (.eat '|' (.either [('=', saturateAssign)] saturate)
        (.either [(c, extra)] single)))

/-- What follows the first character of an operator. -/
def operator? : Char → Option (Chain Kind)
  | '(' => some (.stop .leftParen)
  | ')' => some (.stop .rightParen)
  | '[' => some (.stop .leftBracket)
  | ']' => some (.stop .rightBracket)
  | '\x7b' => some (.stop .leftBrace)
  | '\x7d' => some (.stop .rightBrace)
  | ',' => some (.stop .comma)
  | ';' => some (.stop .semicolon)
  | ':' => some (.stop .colon)
  | '~' => some (.stop .tilde)
  | '?' => some (.stop .question)
  | '.' => some dot
  | '=' => some (.either [('=', .eq2), ('>', .fatArrow)] .eq)
  | '!' => some (.either [('=', .bangEq)] .bang)
  | '<' => some less
  | '>' => some greater
  | '+' =>
      some (arithmetic .plus .plusEq .plusPercent .plusPercentEq .plusPipe .plusPipeEq '+' .plus2)
  | '-' =>
      some (arithmetic .minus .minusEq .minusPercent .minusPercentEq .minusPipe .minusPipeEq
        '>' .arrow)
  | '*' =>
      some (arithmetic .star .starEq .starPercent .starPercentEq .starPipe .starPipeEq '*' .star2)
  | '/' => some (.either [('=', .slashEq)] .slash)
  | '%' => some (.either [('=', .percentEq)] .percent)
  | '&' => some (.either [('=', .ampEq)] .amp)
  | '|' => some (.either [('=', .pipeEq), ('|', .pipe2)] .pipe)
  | '^' => some (.either [('=', .caretEq)] .caret)
  | _ => none

/-- The kind of a comment by the characters after its two slashes.  Three
slashes document, four and more do not. -/
def commentKind : Text → Kind
  | '!' :: _ => .containerDocComment
  | '/' :: '/' :: _ => .lineComment
  | '/' :: _ => .docComment
  | _ => .lineComment

/-- What an at sign starts: a quoted identifier or the name of a builtin. -/
def readAtSign : (t : Text) → Reading Kind t
  | [] => ⟨.badCharacter, .none []⟩
  | c :: t =>
      if c = '"' then ⟨.identifier, .cons c (Scan.quoted '"' t)⟩
      else if Scan.startsWord c then ⟨.builtin, Scan.word (c :: t)⟩
      else ⟨.badCharacter, .none (c :: t)⟩

/-- Punctuation, or a character that starts no token. -/
def readOperator (c : Char) (t : Text) : Reading Kind t :=
  match operator? c with
  | some chain => chain.read t
  | none => ⟨.badCharacter, .none t⟩

/-- Reads the lexeme that starts with `c`. -/
def read (c : Char) : (t : Text) → Reading Kind t
  | '/' :: t =>
      if c = '/' then ⟨commentKind t, .cons '/' (Scan.line t)⟩ else readOther c ('/' :: t)
  | '\\' :: t =>
      if c = '\\' then ⟨.stringLiteralMulti, .cons '\\' (Scan.markedLines t)⟩
      else readOther c ('\\' :: t)
  | t => readOther c t
where
  /-- Everything that its first character decides. -/
  readOther (c : Char) (t : Text) : Reading Kind t :=
    if Scan.isBlank c then ⟨.whitespace, Scan.blanks t⟩
    else if c = '"' then ⟨.stringLiteralSingle, Scan.quoted '"' t⟩
    else if c = '\'' then ⟨.charLiteral, Scan.quoted '\'' t⟩
    else if c = '@' then readAtSign t
    else if Scan.isDecimal c then
      let (isFloat, cut) := Scan.numeral c t
      ⟨if isFloat then .float else .integer, cut⟩
    else if Scan.startsWord c then
      let cut := Scan.word t
      ⟨(Kind.ofKeyword? (c :: cut.taken)).getD .identifier, cut⟩
    else readOperator c t

/-- The lexemes of a text, ending with the empty end of file. -/
def lex : Text → List (Lexeme Kind) := lexWith read

end Zig
end ZigCst
