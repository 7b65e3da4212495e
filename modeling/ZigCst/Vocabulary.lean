import ZigCst.Text.Basic

/-!
# Vocabularies

The kinds of tokens and nodes of one language form a closed vocabulary.  The
lexer, the parser and the tree are written once for every vocabulary; this
class says what they need to know about a kind.
-/

namespace ZigCst

/-- The role of a token when a nested construct is passed over. -/
inductive Delimiter where
  | opening
  | closing
  | separator
deriving DecidableEq, Repr

/-- The kinds of tokens and nodes of one language. -/
class Vocabulary (K : Type) where
  /-- Every kind, in declaration order. -/
  all : List K
  /-- Position in declaration order. -/
  index : K → Nat
  /-- Name of the kind in printed trees. -/
  name : K → String
  /-- The one spelling of punctuation and keywords. -/
  spelling? : K → Option Text
  /-- Whether a token of this kind is white space or a comment. -/
  isTrivia : K → Bool
  /-- Whether a token of this kind is a string literal of any form. -/
  isString : K → Bool
  delimiter? : K → Option Delimiter
  /-- The empty token at the end of every stream. -/
  eof : K
  /-- A character that starts no token. -/
  badCharacter : K
  /-- A node that stands for something malformed. -/
  error : K
  /-- Marks the start of a node that has no kind yet; no finished tree has one. -/
  tombstone : K

/-- What holds of the kinds that have a role of their own. -/
class LawfulVocabulary (K : Type) [Vocabulary K] : Prop where
  isTrivia_eof : Vocabulary.isTrivia (Vocabulary.eof : K) = false
  error_ne_tombstone : (Vocabulary.error : K) ≠ Vocabulary.tombstone

namespace Vocabulary

variable {K : Type} [DecidableEq K] [Vocabulary K]

/-- The kind with a given name. -/
def ofName? (name : String) : Option K :=
  (all : List K).find? fun k => Vocabulary.name k == name

/-- The name in lower case, its parts separated by blanks. -/
def words (k : K) : Text :=
  (name k).toList.map fun c => if c = '_' then ' ' else c.toLower

/-- How a kind is called in a message. -/
def describe (k : K) : Text :=
  if k = eof then "end of file".toList
  else if isString k then "string literal".toList
  else
    match spelling? k with
    | some t => ['`'] ++ t ++ ['`']
    | none => words k

end Vocabulary
end ZigCst
