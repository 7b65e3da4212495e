import ZigCst.Text.Quoted
import ZigCst.Tree.Arena
import ZigCst.Tree.Walk

/-!
# Printed trees

A tree is printed one element a line, children indented by two blanks, each
token with its quoted text.
-/

namespace ZigCst

/-- The lines of a walk: every node and token, indented by its depth. -/
def printWalk {K : Type} [Vocabulary K] : Nat → List (Visit K) → List Text
  | _, [] => []
  | depth, .enter n :: visits =>
      (List.replicate (2 * depth) ' ' ++ n.label) :: printWalk (depth + 1) visits
  | depth, .token l :: visits =>
      (List.replicate (2 * depth) ' ' ++ l.label ++ ' ' :: l.text.quote) ::
        printWalk depth visits
  | depth, .leave _ :: visits => printWalk (depth - 1) visits

/-- The printed form of a node and everything below it. -/
def Node.print {K : Type} [Vocabulary K] (n : Node K) : Text :=
  (printWalk 0 n.walk).flatMap fun l => l ++ ['\n']

/-- The summary of a tree by the size of its text and its number of nodes. -/
def treeSummary (size nodes : Nat) : Text :=
  "SyntaxTree \x7b text_len: ".toList ++ (toString size).toList ++
    ", nodes: ".toList ++ (toString nodes).toList ++ ", .. \x7d".toList

def Root.summary {K : Type} (r : Root K) : Text := treeSummary r.text.size r.nodeCount

/-! ## Flat arrays -/

def Arena.summary {K : Type} (a : Arena K) : Text := treeSummary a.text.size a.nodes.size

/-- An element as `KIND@start..stop`. -/
def ElementRef.label? {K : Type} [Vocabulary K] (e : ElementRef K) : Option Text := do
  return (Vocabulary.name (← e.kind?)).toList ++ ['@'] ++ (← e.range?).toText

/-- The lines of a walk over flat arrays. -/
def printVisits? {K : Type} [Vocabulary K] : Nat → List (VisitRef K) → Option (List Text)
  | _, [] => some []
  | depth, .enter n :: visits => do
      let line := List.replicate (2 * depth) ' ' ++ (← (ElementRef.node n).label?)
      return line :: (← printVisits? (depth + 1) visits)
  | depth, .token t :: visits => do
      let label ← (ElementRef.token t).label?
      let line := List.replicate (2 * depth) ' ' ++ label ++ ' ' :: (← t.text?).quote
      return line :: (← printVisits? depth visits)
  | depth, .leave _ :: visits => printVisits? (depth - 1) visits

/-- The printed form of a node in flat arrays and everything below it. -/
def NodeRef.print? {K : Type} [Vocabulary K] (n : NodeRef K) : Option Text := do
  return (← printVisits? 0 (← n.walk?)).flatMap fun l => l ++ ['\n']

/-- The printed form, which every node of a finished tree has. -/
def NodeRef.print {K : Type} [Vocabulary K] (n : NodeRef K) : Text := n.print?.getD []

end ZigCst
