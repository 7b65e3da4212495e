import ZigCst.Diagnostic.Basic
import ZigCst.Fault
import ZigCst.Token

/-!
# Traces

A parser leaves a trace of steps: it starts and completes nodes, advances over
tokens and reports faults.  Nodes are completed from the inside out.  A node
that was just completed may still get a parent: `precede` starts a node whose
first child it becomes.

A fault concerns the token that the parser has reached, which is known from the
number of tokens advanced over before it.

A trace with a stuck step is the trace of a run that has no result, and no tree
is ever built from it.
-/

namespace ZigCst

/-- One step of a parser. -/
inductive Step (K : Type) where
  /-- Starts a node. -/
  | start
  /-- Takes the next token into the innermost started node. -/
  | advance
  /-- Completes the innermost started node. -/
  | complete (kind : K)
  /-- Starts a node around the node completed last. -/
  | precede
  /-- Reports a fault at the next token. -/
  | report (fault : Fault K)
  /-- Marks a run that cannot go on: a loop that would never end, or a state that
  the grammar excludes. -/
  | stuck
deriving DecidableEq, Repr

/-- The steps of a parser, in order. -/
abbrev Trace (K : Type) := List (Step K)

/-- The errors of a trace, each at the token reached when it was reported. -/
def Trace.errors {K : Type} [DecidableEq K] [Vocabulary K] :
    List (Token K) → Trace K → List Diagnostic
  | _, [] => []
  | tokens, .advance :: trace => errors tokens.tail trace
  | tokens, .report fault :: trace =>
      (tokens.head?.map fun t => ⟨.error, fault.message, t.range⟩).toList ++ errors tokens trace
  | tokens, _ :: trace => errors tokens trace

end ZigCst
