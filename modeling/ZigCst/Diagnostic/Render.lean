import ZigCst.Diagnostic.Basic
import ZigCst.Text.Lines

/-!
# Rendered diagnostics

A diagnostic is shown with the line it is about, the range marked underneath.
The parts may be coloured for a terminal.  Ranges lie inside one line; a range
on an empty line is shown without the line.  An empty message or path takes no
room: what would set it off from its neighbour is left out too.
-/

namespace ZigCst

/-- The colours of a rendered diagnostic. -/
inductive Paint where
  /-- The words and marks of an error. -/
  | error
  /-- The words and marks of a warning. -/
  | warning
  /-- The message. -/
  | message
  /-- The frame around the source line. -/
  | frame
deriving DecidableEq, Repr

/-- The terminal sequences that switch a colour on. -/
def Paint.code : Paint → Text
  | .error => "\x1b[1m\x1b[91m".toList
  | .warning => "\x1b[1m\x1b[33m".toList
  | .message => "\x1b[1m".toList
  | .frame => "\x1b[1m\x1b[94m".toList

/-- A painted text, or the bare text where there are no colours. -/
def Paint.apply (styled : Bool) (p : Paint) (t : Text) : Text :=
  if styled then p.code ++ t ++ "\x1b[0m".toList else t

/-- The line of a text around a range. -/
structure SourceLine where
  /-- Number of the line, from one. -/
  number : Nat
  /-- Bytes of the line before the range. -/
  col : Nat
  text : Text
deriving DecidableEq, Repr

/-- The line from the last line feed before the range to the first one after it. -/
def SourceLine.around (r : Range) (t : Text) : SourceLine :=
  let before := t.upTo r.start
  let opening := Text.lastLine before
  let inside := (t.beyond r.start).upTo r.length
  let closing := (t.beyond r.stop).takeWhile (· ≠ '\n')
  ⟨before.count '\n' + 1, opening.size, opening ++ inside ++ closing⟩

namespace Severity

def word : Severity → Text
  | .error => "error".toList
  | .warning => "warning".toList

def paint : Severity → Paint
  | .error => .error
  | .warning => .warning

/-- The character that marks a range. -/
def mark : Severity → Char
  | .error => '^'
  | .warning => '-'

end Severity

namespace Diagnostic

/-- A part that is set off from the one before it, if there is anything to show. -/
def setOff (separator : Text) (t : Text) (shown : Text) : Text :=
  if t.isEmpty then [] else separator ++ shown

/-- The first line: severity and message. -/
def title (styled : Bool) (d : Diagnostic) : Text :=
  d.severity.paint.apply styled d.severity.word ++
    setOff [':', ' '] d.message (Paint.message.apply styled d.message)

/-- The line that names the place. -/
def origin (styled : Bool) (margin : Nat) (path : Text) (line col : Nat) : Text :=
  List.replicate margin ' ' ++ Paint.frame.apply styled ['-', '-', '>'] ++ setOff [' '] path path ++
    [':'] ++ (toString line).toList ++ [':'] ++ (toString col).toList

/-- A bar at the left of the frame. -/
def bar (styled : Bool) (margin : Nat) : Text :=
  List.replicate (margin + 1) ' ' ++ Paint.frame.apply styled ['|']

/-- The marks under the range and the label beside them. -/
def marks (styled : Bool) (d : Diagnostic) (col : Nat) : Text :=
  let paint := d.severity.paint.apply styled
  List.replicate col ' ' ++ paint (List.replicate (max 1 d.range.length) d.severity.mark) ++
    [' '] ++ paint "here".toList

/-- The diagnostic about a text at a path, without a line feed at the end. -/
def render (styled : Bool) (path text : Text) (d : Diagnostic) : Text :=
  let line := SourceLine.around d.range text
  Text.unlines <|
    if line.text.isEmpty then
      [d.title styled, origin styled 0 path 1 1, bar styled 0, bar styled 0]
    else
      let number := (toString line.number).toList
      let margin := number.length
      [d.title styled, origin styled margin path line.number (line.col + 1), bar styled margin,
        Paint.frame.apply styled (number ++ [' ', '|']) ++ [' '] ++ line.text,
        bar styled margin ++ [' '] ++ d.marks styled line.col, bar styled margin]

end Diagnostic
end ZigCst
