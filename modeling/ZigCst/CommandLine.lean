import ZigCst.Diagnostic.Render
import ZigCst.Folder
import ZigCst.Workspace
import ZigCst.Zig.Escape

/-!
# The command line

Three actions on one file: `check` reports its diagnostics, `tokens` lists its
lexemes, `tree` prints its tree.  The whole run is a function from the
arguments and the files to what is printed.
-/

namespace ZigCst
namespace CommandLine

inductive Action where
  | check
  | tokens
  | tree
deriving DecidableEq, Repr

/-- When diagnostics are coloured. -/
inductive Color where
  | auto
  | always
  | never
deriving DecidableEq, Repr

structure Options where
  color : Color
  action : Action
  path : Text
deriving DecidableEq, Repr

/-- The exit code and both outputs of a run. -/
structure Report where
  code : Nat
  out : Text
  err : Text
deriving DecidableEq, Repr

def Action.ofText? (t : Text) : Option Action :=
  if t = "check".toList then some .check
  else if t = "tokens".toList then some .tokens
  else if t = "tree".toList then some .tree
  else none

def Color.ofText? (t : Text) : Option Color :=
  if t = "auto".toList then some .auto
  else if t = "always".toList then some .always
  else if t = "never".toList then some .never
  else none

/-- The flag that chooses the colour. -/
def colorFlag : Text := "--color".toList

/-- Takes the colour out of the arguments, wherever it stands. -/
def splitColor? : List Text → Option (Color × List Text)
  | [] => some (.auto, [])
  | arg :: args =>
      if arg = colorFlag then
        match args with
        | [] => none
        | value :: args => do return (← Color.ofText? value, (← splitColor? args).2)
      else if colorFlag ++ ['='] <+: arg then do
        let color ← Color.ofText? (arg.drop (colorFlag.length + 1))
        return (color, (← splitColor? args).2)
      else do
        let (color, others) ← splitColor? args
        return (color, arg :: others)

/-- The options that arguments ask for. -/
def Options.ofArgs? (args : List Text) : Option Options := do
  match ← splitColor? args with
  | (color, [action, path]) => return ⟨color, ← Action.ofText? action, path⟩
  | _ => none

/-- The line that lists a lexeme. -/
def lexemeLine {K : Type} [Vocabulary K] (l : Located K) : Text :=
  l.label ++ [' '] ++ l.text.quote ++ ['\n']

/-- The lexemes of a file, a line for each. -/
def tokenLines (f : SourceText) : Text :=
  match f.language with
  | .zig => (locate 0 (Zig.highlight (Zig.lex f.text))).flatMap lexemeLine
  | .zon => (locate 0 (Zon.lex f.text)).flatMap lexemeLine

/-- Whether colours are used; by default only on a terminal. -/
def Color.styled (isTerminal : Bool) : Color → Bool
  | .auto => isTerminal
  | .always => true
  | .never => false

/-- The report of all diagnostics; an error makes the run fail. -/
def checkReport (styled : Bool) (f : SourceText) (ds : List Diagnostic) : Report :=
  ⟨if ds.any fun d => d.severity == .error then 1 else 0, [],
    ds.flatMap fun d => d.render styled f.path f.text ++ ['\n']⟩

/-- Runs an action on a file. -/
def runOn (isTerminal : Bool) (o : Options) (f : SourceText) : Option Report :=
  match o.action with
  | .check => f.parse?.map fun p => checkReport (o.color.styled isTerminal) f p.diagnostics
  | .tokens => some ⟨0, tokenLines f, []⟩
  | .tree => f.parse?.map fun p => ⟨0, p.print, []⟩

/-- The report on a file that cannot be read. -/
def unreadable (path : Text) (e : ReadError) : Report :=
  ⟨1, [], "Error: failed to read `".toList ++ path ++ "`\n\nCaused by:\n    ".toList ++ e.reason ++
    ['\n']⟩

/-- Runs the program on a file that was read, or was not. -/
def run (isTerminal : Bool) (o : Options) (file : Except ReadError Text) : Option Report :=
  match file with
  | .error e => some (unreadable o.path e)
  | .ok text => runOn isTerminal o ⟨o.path, text⟩

/-- Runs the program in a folder, where standard error is no terminal. -/
def runIn (d : Folder) (o : Options) : Option Report := run false o (d.read o.path)

end CommandLine
end ZigCst
