import ZigCst.Vocabulary

/-!
# Kinds of Zon data files

Token kinds come first, node kinds after `eof`, in the order in which sets of
kinds number them.  Zon has no keywords.
-/

namespace ZigCst
namespace Zon

/-- Kinds of tokens and nodes of a Zon data file. -/
inductive Kind where
  | dot
  | leftBrace
  | rightBrace
  | comma
  | eq
  | minus
  | identifier
  | integer
  | float
  | charLiteral
  | stringLiteralSingle
  | lineString
  | lineComment
  | whitespace
  | badCharacter
  | eof
  | file
  | struct
  | array
  | entry
  | ident
  | enumLiteral
  | stringLiteral
  | char
  | number
  | error
  | tombstone
deriving DecidableEq, Repr

namespace Kind

/-- Name of a kind in printed trees. -/
def name : Kind → String
  | .dot => "DOT"
  | .leftBrace => "LEFT_BRACE"
  | .rightBrace => "RIGHT_BRACE"
  | .comma => "COMMA"
  | .eq => "EQ"
  | .minus => "MINUS"
  | .identifier => "IDENTIFIER"
  | .integer => "INTEGER"
  | .float => "FLOAT"
  | .charLiteral => "CHAR_LITERAL"
  | .stringLiteralSingle => "STRING_LITERAL_SINGLE"
  | .lineString => "LINE_STRING"
  | .lineComment => "LINE_COMMENT"
  | .whitespace => "WHITESPACE"
  | .badCharacter => "BAD_CHARACTER"
  | .eof => "EOF"
  | .file => "FILE"
  | .struct => "STRUCT"
  | .array => "ARRAY"
  | .entry => "ENTRY"
  | .ident => "IDENT"
  | .enumLiteral => "ENUM_LITERAL"
  | .stringLiteral => "STRING_LITERAL"
  | .char => "CHAR"
  | .number => "NUMBER"
  | .error => "ERROR"
  | .tombstone => "TOMBSTONE"

/-- Every kind, in declaration order. -/
def all : List Kind :=
  [.dot, .leftBrace, .rightBrace, .comma, .eq, .minus, .identifier, .integer, .float,
    .charLiteral, .stringLiteralSingle, .lineString, .lineComment, .whitespace, .badCharacter,
    .eof, .file, .struct, .array, .entry, .ident, .enumLiteral, .stringLiteral, .char, .number,
    .error, .tombstone]

/-- The one spelling of punctuation. -/
def spelling? : Kind → Option Text
  | .dot => some ['.']
  | .leftBrace => some ['\x7b']
  | .rightBrace => some ['\x7d']
  | .comma => some [',']
  | .eq => some ['=']
  | .minus => some ['-']
  | _ => none

def isTrivia : Kind → Bool
  | .whitespace | .lineComment => true
  | _ => false

def isString : Kind → Bool
  | .stringLiteralSingle | .lineString => true
  | _ => false

def delimiter? : Kind → Option Delimiter
  | .leftBrace => some .opening
  | .rightBrace => some .closing
  | .comma => some .separator
  | _ => none

end Kind

instance : Vocabulary Kind where
  all := Kind.all
  index := Kind.ctorIdx
  name := Kind.name
  spelling? := Kind.spelling?
  isTrivia := Kind.isTrivia
  isString := Kind.isString
  delimiter? := Kind.delimiter?
  eof := .eof
  badCharacter := .badCharacter
  error := .error
  tombstone := .tombstone

instance : LawfulVocabulary Kind where
  isTrivia_eof := rfl
  error_ne_tombstone := nofun

end Zon
end ZigCst
