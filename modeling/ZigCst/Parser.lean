import ZigCst.KindSet
import ZigCst.Trace.Basic

/-!
# Parsers

A parser looks at the significant lexemes ahead, consumes some of them and
leaves a trace.  It sees neither blanks nor comments nor positions, so what it
does depends on the kinds and texts of significant lexemes alone.

**Grammars.**  The combinators ask only for what `Parsing` gives, so a grammar that is
written with them is one of parsers, and of whatever else a grammar may be made of.  Its
functions have names; a parser takes no notice of them.

**Composition.**  Traces are appended.  `node` and `wrap` are the only ways to
start a node, and both complete it, so the trace of every parser is balanced.

**Loops.**  `iterate` runs a body again and again as long as the body asks for
it; the number of lexemes left is the measure that ends it.  A body that asks for
another turn without having consumed anything would be asked for ever, so the run
is stuck there.
-/

universe u

namespace ZigCst

/-- The position of a parser: the kind consumed last, the lexemes ahead without
the end of file, and their number. -/
structure Cursor (K : Type) where
  prev : Option K
  rest : List (Lexeme K)
  left : Nat
  left_eq : left = rest.length

namespace Cursor

variable {K : Type}

def ofList (ls : List (Lexeme K)) : Cursor K := ⟨none, ls, ls.length, rfl⟩

/-- Passes over the next lexeme. -/
def next (c : Cursor K) : Cursor K :=
  match c with
  | ⟨_, l :: rest, left, h⟩ => ⟨some l.kind, rest, left - 1, by simp [h]⟩
  | c => c

end Cursor

/-- What grammars are written with. -/
class Parsing (K : outParam Type) (m : Type → Type u) where
  /-- Looks at what is ahead and at the kind consumed last. -/
  look {α : Type} (f : Cursor K → α) : m α
  /-- Leaves a step in the trace that consumes nothing. -/
  mark (s : Step K) (h : s ≠ .advance) : m Unit
  /-- Consumes the next lexeme; does nothing at the end. -/
  advance : m Unit
  /-- Takes the end of file, which must have been reached, into the tree. -/
  takeEnd : m Unit
  /-- Runs a part and tells whether it consumed something. -/
  moves (p : m Unit) : m Bool
  /-- Runs a body with a state until it says `false`. -/
  iterate {σ : Type} (body : σ → m (Bool × σ)) (s : σ) : m σ

/-- The functions of a grammar by their names. -/
class Routines (R : outParam (Type → Type)) (m : Type → Type u) where
  /-- The function with a name, and what it does. -/
  routine {α : Type} (r : R α) (p : m α) : m α

/-- What a parser gives, where it stopped and the trace it left. -/
structure Outcome (K α : Type) where
  value : α
  cursor : Cursor K
  trace : Trace K

/-- A parser of values of type `α` over kinds `K`. -/
def Parser (K α : Type) := Cursor K → Outcome K α

namespace Parser

section Instance

variable {K α σ : Type}

instance : Monad (Parser K) where
  pure a := fun c => ⟨a, c, []⟩
  bind p f := fun c =>
    let o := p c
    let r := f o.value o.cursor
    ⟨r.value, r.cursor, o.trace ++ r.trace⟩

/-- Leaves a step in the trace. -/
def emit (s : Step K) : Parser K Unit := fun c => ⟨(), c, [s]⟩

/-- Runs a body again and again.  The run is stuck where the body says `true` and
has consumed nothing. -/
def loop (body : σ → Parser K (Bool × σ)) (s : σ) : Parser K σ := fun c =>
  let o := body s c
  if o.value.1 then
    if _h : o.cursor.left < c.left then
      let r := loop body o.value.2 o.cursor
      ⟨r.value, r.cursor, o.trace ++ r.trace⟩
    else ⟨o.value.2, o.cursor, o.trace ++ [.stuck]⟩
  else ⟨o.value.2, o.cursor, o.trace⟩
termination_by c => c.left
decreasing_by exact _h

instance : Parsing K (Parser K) where
  look f := fun c => ⟨f c, c, []⟩
  mark s _ := emit s
  advance := fun c =>
    match c.rest with
    | [] => ⟨(), c, []⟩
    | _ :: _ => ⟨(), c.next, [.advance]⟩
  takeEnd := fun c => ⟨(), c, if c.rest.isEmpty then [.advance] else [.stuck, .advance]⟩
  moves p := fun c =>
    let o := p c
    ⟨decide (o.cursor.left < c.left), o.cursor, o.trace⟩
  iterate := loop

@[simp]
theorem look_eq {α : Type} (f : Cursor K → α) (c : Cursor K) :
    (Parsing.look f : Parser K α) c = ⟨f c, c, []⟩ := rfl

@[simp]
theorem mark_eq (s : Step K) (h : s ≠ .advance) (c : Cursor K) :
    (Parsing.mark s h : Parser K Unit) c = ⟨(), c, [s]⟩ := rfl

theorem advance_eq (c : Cursor K) :
    (Parsing.advance : Parser K Unit) c =
      match c.rest with
      | [] => ⟨(), c, []⟩
      | _ :: _ => ⟨(), c.next, [.advance]⟩ := rfl

theorem takeEnd_eq (c : Cursor K) :
    (Parsing.takeEnd : Parser K Unit) c =
      ⟨(), c, if c.rest.isEmpty then [.advance] else [.stuck, .advance]⟩ := rfl

theorem moves_eq (p : Parser K Unit) (c : Cursor K) :
    Parsing.moves p c = ⟨decide ((p c).cursor.left < c.left), (p c).cursor, (p c).trace⟩ := rfl

theorem iterate_eq (body : σ → Parser K (Bool × σ)) (s : σ) (c : Cursor K) :
    Parsing.iterate body s c =
      if (body s c).value.1 then
        if (body s c).cursor.left < c.left then
          ⟨(Parsing.iterate body (body s c).value.2 (body s c).cursor).value,
            (Parsing.iterate body (body s c).value.2 (body s c).cursor).cursor,
            (body s c).trace ++
              (Parsing.iterate body (body s c).value.2 (body s c).cursor).trace⟩
        else ⟨(body s c).value.2, (body s c).cursor, (body s c).trace ++ [.stuck]⟩
      else ⟨(body s c).value.2, (body s c).cursor, (body s c).trace⟩ := by
  change loop body s c = _
  rw [loop]
  rfl

end Instance

export Parsing (look mark advance takeEnd moves iterate)

export Routines (routine)

variable {K α β σ : Type} {m : Type → Type u} [Monad m] [Parsing K m]

/-- Reports a fault at the next lexeme. -/
def report (fault : Fault K) : m Unit := mark (.report fault) (by simp)

/-- Goes on only if a condition holds. -/
def ensure (holds : Bool) : m Unit :=
  if holds then pure () else mark .stuck (by simp)

/-- Whether nothing is left. -/
def atEnd : m Bool := look fun c => c.rest.isEmpty

/-- The kind of the lexeme consumed last. -/
def prev? : m (Option K) := look Cursor.prev

/-- The text of the next lexeme. -/
def text : m Text := look fun c => (c.rest.head?.map Lexeme.text).getD []

/-- Puts what a body does into a node whose kind the body gives. -/
def nodeOf (body : m K) : m K := do
  mark .start (by simp)
  let kind ← body
  mark (.complete kind) (by simp)
  return kind

/-- Puts what a body does into a node. -/
def node (kind : K) (body : m Unit) : m K :=
  nodeOf do
    body
    return kind

/-- Puts the node completed last and what a body does into a node whose kind the
body gives. -/
def wrapOf (body : m K) : m K := do
  mark .precede (by simp)
  let kind ← body
  mark (.complete kind) (by simp)
  return kind

/-- Puts the node completed last and what a body does into a node. -/
def wrap (kind : K) (body : m Unit) : m K :=
  wrapOf do
    body
    return kind

/-- A whole file: what a body does, and the end of file. -/
def whole (kind : K) (body : m Unit) : m Unit :=
  discard <| node kind do
    body
    takeEnd

/-- Runs a body until it says `false`. -/
def repeatWhile (body : m Bool) : m Unit :=
  iterate (fun _ => do return (← body, ())) ()

variable [Vocabulary K]

/-- The kind of the lexeme `n` places ahead. -/
def nth (n : Nat) : m K := look fun c => (c.rest[n]?.map Lexeme.kind).getD Vocabulary.eof

/-- The kind of the next lexeme. -/
def peek : m K := nth 0

/-- Whether the kind of the next lexeme is in a set. -/
def atAny (set : KindSet K) : m Bool := do return set.contains (← peek)

/-- Passes over one token of a nested construct: whether there may be more, and how
many brackets are open.  A separator or a closing token of the construct around it
is left alone. -/
def passToken (depth : Nat) : m (Bool × Nat) := do
  if ← atEnd then return (false, depth)
  match Vocabulary.delimiter? (← peek), depth with
  | some .opening, _ =>
      advance
      return (true, depth + 1)
  | some .closing, 0 => return (false, 0)
  | some .separator, 0 => return (false, 0)
  | some .closing, depth + 1 =>
      advance
      return (true, depth)
  | _, _ =>
      advance
      return (true, depth)

/-- Passes over a nested construct up to a separator or a closing token of the
construct around it. -/
def passOver : m Unit := discard <| iterate passToken 0

/-- What stands for a construct that is nested too deep. -/
def tooDeep : m Unit :=
  discard <| node Vocabulary.error do
    report .nestingTooDeep
    passOver

variable [DecidableEq K]

/-- Whether the lexeme `n` places ahead is of a kind. -/
def nthAt (n : Nat) (kind : K) : m Bool := do return (← nth n) == kind

/-- Whether the next lexeme is of a kind. -/
def at_ (kind : K) : m Bool := nthAt 0 kind

/-- Consumes the next lexeme if it is of a kind, and tells whether it was. -/
def eat (kind : K) : m Bool := do
  if ← at_ kind then
    advance
    return true
  else return false

/-- Consumes the next lexeme if it is of a kind. -/
def skip (kind : K) : m Unit := discard (eat kind)

/-- Consumes a lexeme of a kind or reports that it is missing. -/
def expect (kind : K) : m Unit := do
  unless ← eat kind do
    report (.expected kind (← peek))

/-- Puts the next lexeme into an error node.  A character that starts no token
is reported as such. -/
def bump (fault : Fault K) : m Unit :=
  discard <| node Vocabulary.error do
    if ← at_ Vocabulary.badCharacter then
      report (.unexpectedCharacter (← text))
    else report fault
    advance

/-- Leaves an empty error node before a lexeme that something around may be
waiting for and at the end, otherwise puts the next lexeme into one. -/
def recover (fault : Fault K) (recovery : KindSet K) : m Unit := do
  if (← atAny recovery) || (← atEnd) then
    discard <| node Vocabulary.error (report fault)
  else bump fault

end Parser

/-- How deep constructs may be nested. -/
def maxDepth : Nat := 256

end ZigCst
