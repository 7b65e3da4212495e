import ZigCst.Vocabulary

/-!
# Sets of kinds

A set of kinds is a vector of 256 bits, one for each position in declaration
order.  It is printed as four words of 64 bits, the lowest first.
-/

namespace ZigCst

/-- A set of kinds of one vocabulary. -/
structure KindSet (K : Type) where
  bits : BitVec 256
deriving DecidableEq

namespace KindSet

variable {K : Type} [Vocabulary K]

def empty : KindSet K := ⟨0#256⟩

def single (k : K) : KindSet K := ⟨1#256 <<< Vocabulary.index k⟩

def union (a b : KindSet K) : KindSet K := ⟨a.bits ||| b.bits⟩

def ofList (ks : List K) : KindSet K :=
  ks.foldl (fun s k => s.union (single k)) empty

def contains (s : KindSet K) (k : K) : Bool :=
  s.bits.getLsbD (Vocabulary.index k)

/-- The members in declaration order. -/
def toList (s : KindSet K) : List K :=
  Vocabulary.all.filter s.contains

/-- The bits as four words, the lowest first. -/
def words (s : KindSet K) : List (BitVec 64) :=
  [s.bits.extractLsb' 0 64, s.bits.extractLsb' 64 64,
    s.bits.extractLsb' 128 64, s.bits.extractLsb' 192 64]

/-- The set with its words in decimal. -/
def toText (s : KindSet K) : Text :=
  let words := s.words.map fun w => (toString w.toNat).toList
  "SyntaxSet \x7b bits: [".toList ++ [',', ' '].intercalate words ++ "] \x7d".toList

end KindSet
end ZigCst
