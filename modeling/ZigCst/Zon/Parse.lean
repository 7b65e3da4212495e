import ZigCst.Parse
import ZigCst.Zon.Grammar
import ZigCst.Zon.Lexer
import ZigCst.Zon.View

/-!
# Parsing Zon

Fields that repeat the name of an earlier field of the same struct get a
warning each, after all errors.
-/

namespace ZigCst
namespace Zon

/-- The warning about an entry that repeats a name. -/
def duplicateWarning? (entry : Node Kind) : Option Diagnostic :=
  (Entry.key? entry).map fun key =>
    ⟨.warning, "duplicate field `".toList ++ Identifier.value key ++ ['`'], key.trimmedRange⟩

/-- Warnings for all fields that repeat a name, structs in preorder. -/
def duplicateWarnings (root : Root Kind) : List Diagnostic :=
  (root.node.descendants.filter fun n => n.kind == .struct).flatMap fun n =>
    (Struct.duplicates n).filterMap duplicateWarning?

/-- Parses a Zon file. -/
def parse? (text : Text) : Option (Parse Kind) := do
  let p ← Parse.ofGrammar? lex file text
  return { p with diagnostics := p.diagnostics ++ duplicateWarnings p.root }

end Zon
end ZigCst
