import ZigCst.Language
import ZigCst.Text.Lines
import ZigCst.Zig.Parse
import ZigCst.Zon.Parse

/-!
# Files in a workspace

A workspace holds numbered files.  A file is parsed from its present path and
text, so a parse never depends on what was asked before.

A check is different: it reports what has not been settled yet.  The first check
of a file after its path or text was set reports every diagnostic, and so does
each further check while nothing in the workspace is set.  When another file is
set afterwards, what was reported is settled: checks are silent until the file
itself is set again.  A file that was never checked has nothing settled.
-/

namespace ZigCst

/-- A path and a text. -/
structure SourceText where
  path : Text
  text : Text
deriving DecidableEq, Repr

/-- A parse in the language of its file. -/
inductive AnyParse where
  | zig (parse : Parse Zig.Kind)
  | zon (parse : Parse Zon.Kind)

/-- The diagnostics of a parse. -/
def AnyParse.diagnostics : AnyParse → List Diagnostic
  | .zig p => p.diagnostics
  | .zon p => p.diagnostics

/-- The printed tree of a parse. -/
def AnyParse.print : AnyParse → Text
  | .zig p => p.root.node.print
  | .zon p => p.root.node.print

namespace SourceText

def language (f : SourceText) : Language := .ofPath f.path

/-- Parses the text as Zig, whatever the path says. -/
def parseZig? (f : SourceText) : Option AnyParse := (Zig.parse? f.text).map .zig

/-- Parses the text as Zon, whatever the path says. -/
def parseZon? (f : SourceText) : Option AnyParse := (Zon.parse? f.text).map .zon

/-- Parses the text in the language of its path. -/
def parse? (f : SourceText) : Option AnyParse :=
  match f.language with
  | .zig => f.parseZig?
  | .zon => f.parseZon?

end SourceText

/-- How the checks of a file stand since its path or text was set. -/
inductive CheckState where
  /-- No check was made. -/
  | due
  /-- A check was made, and no file was set since. -/
  | current
  /-- A check was made, and another file was set since. -/
  | settled
deriving DecidableEq, Repr

namespace CheckState

/-- The state once another file is set. -/
def settle : CheckState → CheckState
  | .due => .due
  | .current => .settled
  | .settled => .settled

/-- The state once the file is checked. -/
def check : CheckState → CheckState
  | .due => .current
  | .current => .current
  | .settled => .settled

end CheckState

/-- A file of a workspace and how its checks stand. -/
structure Entry where
  source : SourceText
  checks : CheckState
deriving DecidableEq, Repr

/-- Files by number. -/
structure Workspace where
  entries : List Entry
deriving DecidableEq, Repr

namespace Workspace

def empty : Workspace := ⟨[]⟩

def file? (w : Workspace) (number : Nat) : Option SourceText :=
  w.entries[number]?.map Entry.source

/-- Adds a file, and gives its number.  Nothing is settled by it. -/
def add (w : Workspace) (f : SourceText) : Workspace × Nat :=
  (⟨w.entries ++ [⟨f, .due⟩]⟩, w.entries.length)

/-- Sets the file of a number: its check is due, what was reported of the others
is settled. -/
def set (w : Workspace) (number : Nat) (change : SourceText → SourceText) : Workspace :=
  ⟨w.entries.mapIdx fun i e =>
    if i = number then ⟨change e.source, .due⟩ else ⟨e.source, e.checks.settle⟩⟩

def setText (w : Workspace) (number : Nat) (text : Text) : Workspace :=
  w.set number fun f => { f with text }

def setPath (w : Workspace) (number : Nat) (path : Text) : Workspace :=
  w.set number fun f => { f with path }

/-- Checks the file of a number: gives its diagnostics, or none if they are
settled. -/
def check? (w : Workspace) (number : Nat) : Option (Workspace × List Diagnostic) := do
  let e ← w.entries[number]?
  let parse ← e.source.parse?
  let checked := w.entries.set number ⟨e.source, e.checks.check⟩
  return (⟨checked⟩, if e.checks = .settled then [] else parse.diagnostics)

end Workspace
end ZigCst
