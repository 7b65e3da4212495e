import ZigCst.Parser
import ZigCst.Trace.Event
import ZigCst.Tree.Printer

/-!
# Parses

A parse is a tree that spells out the whole text, and the diagnostics found on
the way.  The grammar sees the significant lexemes only; blanks, comments and
positions come back when its trace is laid over the tokens.
-/

namespace ZigCst

/-- A tree and the diagnostics found while it was built. -/
structure Parse (K : Type) where
  root : Root K
  diagnostics : List Diagnostic

variable {K : Type}

/-- The significant lexemes of tokens, without the end of file. -/
def significant (tokens : List (Token K)) : List (Lexeme K) :=
  tokens.dropLast.map fun t => t.lexeme.toLexeme

namespace Parse

/-- Parses the lexemes of a text by a grammar. -/
def ofGrammar?
    [DecidableEq K] [Vocabulary K]
    (lex : Text → List (Lexeme K))
    (grammar : Parser K Unit)
    (text : Text) :
    Option (Parse K) := do
  let tokens := group (locate 0 (lex text))
  let trace := (grammar (.ofList (significant tokens))).trace
  return ⟨← build? text tokens trace, Trace.errors tokens trace⟩

/-- Takes over a newer parse, and tells whether its text differs. -/
def update (old new : Parse K) : Bool × Parse K :=
  if old.root.text = new.root.text then (false, { old with diagnostics := new.diagnostics })
  else (true, new)

/-- The parse with its fields spelled out. -/
def summary (p : Parse K) : Text :=
  "Parse \x7b tree: ".toList ++ p.root.summary ++ ", diagnostics: [".toList ++
    [',', ' '].intercalate (p.diagnostics.map Diagnostic.summary) ++ "] \x7d".toList

end Parse
end ZigCst
