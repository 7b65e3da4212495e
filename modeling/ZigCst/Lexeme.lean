import ZigCst.Vocabulary

/-!
# Lexemes

A lexeme is a piece of text with its kind.  A stream of lexemes has no gaps, so
the places of its members follow from their sizes: `locate` adds them up.
-/

namespace ZigCst

/-- A piece of text of one kind. -/
structure Lexeme (K : Type) where
  kind : K
  text : Text
deriving DecidableEq, Repr

/-- A lexeme and the byte position at which it starts. -/
structure Located (K : Type) extends Lexeme K where
  start : Nat
deriving DecidableEq, Repr

namespace Located

variable {K : Type}

def range (l : Located K) : Range := .ofText l.start l.text

/-- The lexeme as `KIND@start..stop`. -/
def label [Vocabulary K] (l : Located K) : Text :=
  (Vocabulary.name l.kind).toList ++ ['@'] ++ l.range.toText

end Located

/-- Places the lexemes of a stream one after another from `start` on. -/
def locate {K : Type} (start : Nat) : List (Lexeme K) → List (Located K)
  | [] => []
  | l :: ls => ⟨l, start⟩ :: locate (start + l.text.size) ls

/-- The text that a stream covers. -/
def textOf {K : Type} (ls : List (Lexeme K)) : Text :=
  ls.flatMap Lexeme.text

theorem textOf_cons {K : Type} (l : Lexeme K) (ls : List (Lexeme K)) :
    textOf (l :: ls) = l.text ++ textOf ls :=
  List.flatMap_cons

theorem textOf_append {K : Type} (ls ms : List (Lexeme K)) :
    textOf (ls ++ ms) = textOf ls ++ textOf ms :=
  List.flatMap_append

end ZigCst
