import ZigCst.Lexeme

/-!
# Tokens with their trivia

Blanks and comments are attached to the significant token beside them by line:
what follows a token up to the next line feed trails it, everything else leads
the next token.  The end of file takes all that remains.
-/

namespace ZigCst

/-- A stretch of trivia: its kind and its length in bytes. -/
structure Piece (K : Type) where
  kind : K
  length : Nat
deriving DecidableEq, Repr

/-- Total length of some pieces. -/
def Piece.total {K : Type} : List (Piece K) → Nat
  | [] => 0
  | p :: ps => p.length + total ps

/-- A significant lexeme with the trivia attached to it. -/
structure Token (K : Type) where
  leading : List (Piece K)
  lexeme : Located K
  trailing : List (Piece K)
deriving DecidableEq, Repr

namespace Token

variable {K : Type}

def kind (t : Token K) : K := t.lexeme.kind

def range (t : Token K) : Range := t.lexeme.range

/-- The range with the trivia on both sides. -/
def fullRange (t : Token K) : Range :=
  ⟨t.range.start - Piece.total t.leading, t.range.stop + Piece.total t.trailing⟩

end Token

namespace Located

variable {K : Type} [Vocabulary K]

def isTrivia (l : Located K) : Bool := Vocabulary.isTrivia l.kind

/-- Trivia that stays on its line. -/
def trails (l : Located K) : Bool := l.isTrivia && !l.text.contains '\n'

def piece (l : Located K) : Piece K := ⟨l.kind, l.text.size⟩

end Located

/-- Groups a stream into significant tokens with their trivia. -/
def group {K : Type} [Vocabulary K] (ls : List (Located K)) : List (Token K) :=
  match _h : ls.dropWhile Located.isTrivia with
  | [] => []
  | l :: after =>
      { leading := (ls.takeWhile Located.isTrivia).map Located.piece
        lexeme := l
        trailing := (after.takeWhile Located.trails).map Located.piece } ::
        group (after.dropWhile Located.trails)
termination_by ls.length
decreasing_by
  have hafter := (List.dropWhile_sublist Located.trails (l := after)).length_le
  have hls := (List.dropWhile_sublist Located.isTrivia (l := ls)).length_le
  rw [_h, List.length_cons] at hls
  omega

end ZigCst
