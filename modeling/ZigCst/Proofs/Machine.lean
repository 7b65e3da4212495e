import ZigCst.Parse
import ZigCst.Proofs.Script

/-!
# Running a grammar with a stack of calls

The state of a run holds the tokens with the end of file, the place of the next one, the
number of open levels, and what has been recorded and reported.  Where a script goes one
level further in, the number of open levels goes up if it is below `maxDepth`, and goes down
again behind it.

Every call is put on a stack, together with the number of levels that were open then and
the number of all levels that had been opened until then.  A stack has room for a given
number of calls; a run that needs more has no result, no more than a loop that would never
end and an assertion that does not hold.

**Definitions.**
* `State.step`, `State.play`: what one step and a whole trace make of a state.
* `Script.exec`: a run of a script, with all moments at which something changed.
* `Grammar.exec`: a run of a routine with room for a number of calls.
-/

namespace ZigCst

/-- The state of a run. -/
structure State (K : Type) where
  tokens : List (Token K)
  /-- The place of the next token. -/
  pos : Nat
  /-- The number of open levels. -/
  depth : Nat
  /-- The number of levels that have been opened so far, those closed again included. -/
  entered : Nat
  recording : Recording K
  diagnostics : List Diagnostic

/-- A call of a routine: how many levels were open then, and had been opened before. -/
structure Activation (R : Type → Type) where
  {α : Type}
  routine : R α
  depth : Nat
  entered : Nat

/-- The calls that have not returned, the innermost first, and the state. -/
structure Moment (K : Type) (R : Type → Type) where
  stack : List (Activation R)
  state : State K

/-- What a run gave, where it ended, and the moments on the way. -/
structure Run (K : Type) (R : Type → Type) (α : Type) where
  value : α
  state : State K
  log : List (Moment K R)

/-- The run with earlier moments in front. -/
def Run.after
    {K : Type} {R : Type → Type} {α : Type}
    (run : Run K R α)
    (log : List (Moment K R)) :
    Run K R α :=
  { run with log := log ++ run.log }

namespace State

variable {K : Type} [Vocabulary K]

/-- What a parser sees of the state. -/
def cursor (s : State K) : Cursor K where
  prev := (s.tokens.take s.pos).getLast?.map Token.kind
  rest := (significant s.tokens).drop s.pos
  left := ((significant s.tokens).drop s.pos).length
  left_eq := rfl

/-- The kind of the next token. -/
def peek (s : State K) : K := (s.tokens[s.pos]?.map Token.kind).getD Vocabulary.eof

/-- One level further in. -/
def enter (s : State K) : State K := { s with depth := s.depth + 1, entered := s.entered + 1 }

def leave (s : State K) : State K := { s with depth := s.depth - 1 }

variable [DecidableEq K]

/-- The place after a step.  The end of file is never passed. -/
def posAfter (s : State K) : Step K → Nat
  | .advance => if s.peek = Vocabulary.eof then s.pos else s.pos + 1
  | _ => s.pos

/-- The errors that a step reports at the next token. -/
def faults (s : State K) : Step K → List Diagnostic
  | .report fault => (s.tokens[s.pos]?.map fun t => ⟨.error, fault.message, t.range⟩).toList
  | _ => []

/-- The state after a step. -/
def step (s : State K) (e : Step K) : Option (State K) :=
  (s.recording.step e).map fun recording =>
    { s with
      recording
      pos := s.posAfter e
      diagnostics := s.diagnostics ++ s.faults e }

/-- The state after a trace. -/
def play (s : State K) (trace : Trace K) : Option (State K) := trace.foldlM step s

end State

section Execution

variable {K : Type} {R : Type → Type} {σ : Type} [Vocabulary K]

/-- How calls are answered: the run of a routine on top of a stack. -/
abbrev Caller (K : Type) (R : Type → Type) :=
  (α : Type) → R α → List (Activation R) → State K → Option (Run K R α)

/-- Runs a body with a value until it says `false`.  A body that asks for another turn
without having consumed anything would be asked for ever. -/
def loop
    (turn : σ → State K → Option (Run K R (Bool × σ)))
    (v : σ)
    (s : State K) :
    Option (Run K R σ) :=
  match turn v s with
  | none => none
  | some run =>
      if run.value.1 then
        if _h : run.state.cursor.left < s.cursor.left then
          (loop turn run.value.2 run.state).map (·.after run.log)
        else none
      else some ⟨run.value.2, run.state, run.log⟩
termination_by s.cursor.left

variable [DecidableEq K]

/-- The run of a step. -/
def State.runStep (s : State K) (stack : List (Activation R)) (e : Step K) :
    Option (Run K R Unit) :=
  (s.step e).map fun t => ⟨(), t, [⟨stack, t⟩]⟩

/-- Runs a script on a stack. -/
def Script.exec {α : Type} (calls : Caller K R) (stack : List (Activation R)) :
    Script K R α → State K → Option (Run K R α)
  | .done a, s => some ⟨a, s, []⟩
  | .look f, s => some ⟨f s.cursor, s, []⟩
  | .emit e _, s => s.runStep stack e
  | .advance, s => if s.peek = Vocabulary.eof then some ⟨(), s, []⟩ else s.runStep stack .advance
  | .takeEnd, s => if s.peek = Vocabulary.eof then s.runStep stack .advance else none
  | .bind p f, s =>
      (p.exec calls stack s).bind fun run =>
        ((f run.value).exec calls stack run.state).map (·.after run.log)
  | .iterate body v, s => loop (fun v => (body v).exec calls stack) v s
  | .enter within beyond, s =>
      if s.depth < maxDepth then
        (within.exec calls stack s.enter).map fun run =>
          ⟨run.value, run.state.leave,
            ⟨stack, s.enter⟩ :: (run.log ++ [⟨stack, run.state.leave⟩])⟩
      else beyond.exec calls stack s
  | .call r, s => calls _ r stack s

/-- The call of a routine in a state. -/
def Activation.of {α : Type} (r : R α) (s : State K) : Activation R := ⟨r, s.depth, s.entered⟩

/-- Runs a routine on a stack with room for `height` more calls. -/
def Grammar.exec [Grammar K R] : Nat → Caller K R
  | 0, _, _, _, _ => none
  | height + 1, _, r, stack, s =>
      ((Grammar.body r).exec (Grammar.exec height) (.of r s :: stack) s).map
        (·.after [⟨.of r s :: stack, s⟩])

end Execution
end ZigCst
