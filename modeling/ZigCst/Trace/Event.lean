import ZigCst.Trace.Basic
import ZigCst.Tree.Builder

/-!
# From traces to trees

A trace is recorded as a flat array of events.  The start of a node is written
before its kind is known, and a node that gets a parent later points forward to
the start of that parent.  Replaying the events follows these links: at the
start of a node, all the parents that it got later are started first, the
outermost before the others, and their own start events are erased.

**Definitions.**
* `record?`: the events of a trace.
* `replay?`: the commands for a builder that events amount to.
* `build?`: the tree of a trace over a text and its tokens.

All three are refused, and none is ever refused on the trace of a grammar, when
a run is stuck, when a step completes or precedes a node that does not exist,
when a link leads nowhere, or when the tokens do not cover the text.
-/

namespace ZigCst

/-- One event of a recorded trace. -/
inductive Event (K : Type) where
  /-- The start of a node, and how much further on the start of the parent stands
  that it got later. -/
  | start (kind : K) (forward : Option Nat)
  | token
  | finish
deriving DecidableEq, Repr

/-- A start that stands for no node: its node has no kind yet, or was started
already. -/
def Event.erased {K : Type} [Vocabulary K] : Event K := .start Vocabulary.tombstone none

/-- Events so far, with the starts of the nodes that are not completed. -/
structure Recording (K : Type) where
  events : Array (Event K)
  /-- Positions of the starts of open nodes, the innermost first. -/
  opened : List Nat
  /-- Position of the start of the node completed last. -/
  completed : Option Nat

namespace Recording

variable {K : Type} [Vocabulary K]

def empty : Recording K := ⟨#[], [], none⟩

/-- Writes the start of a node that has no kind yet. -/
def openNode (r : Recording K) : Recording K :=
  { r with events := r.events.push .erased, opened := r.events.size :: r.opened }

/-- Changes the start event at a position. -/
def restart (r : Recording K) (position : Nat) (f : K → Option Nat → Event K) :
    Option (Recording K) :=
  match r.events[position]? with
  | some (.start kind forward) =>
      some { r with events := r.events.setIfInBounds position (f kind forward) }
  | _ => none

/-- Records one step. -/
def step (r : Recording K) : Step K → Option (Recording K)
  | .start => some r.openNode
  | .advance => some { r with events := r.events.push .token }
  | .complete kind =>
      match r.opened with
      | [] => none
      | position :: opened => do
          let r ← r.restart position fun _ forward => .start kind forward
          return { events := r.events.push .finish, opened, completed := some position }
  | .precede => do
      let position ← r.completed
      let r ← r.restart position fun kind _ =>
        .start kind (some (r.events.size - position))
      return r.openNode
  | .report _ => some r
  | .stuck => none

end Recording

section Replay

variable {K : Type} [DecidableEq K] [Vocabulary K]

/-- The events of a trace. -/
def record? (trace : Trace K) : Option (Array (Event K)) :=
  (trace.foldlM Recording.step .empty).map Recording.events

/-- A call of a builder. -/
inductive Command (K : Type) where
  | start (kind : K)
  | token
  | finish
deriving DecidableEq, Repr

/-- Follows the links from the start at position `i` and erases the starts they
lead to.  Gives the kinds of the nodes, the outermost first. -/
def chain (events : Array (Event K)) (i : Nat) (forward : Option Nat) (kinds : List K) :
    Option (Array (Event K) × List K) :=
  match forward with
  | none => some (events, kinds)
  | some distance =>
      if h : 0 < distance ∧ i + distance < events.size then
        match events[i + distance] with
        | .start kind forward =>
            chain (events.setIfInBounds (i + distance) .erased) (i + distance) forward
              (if kind = Vocabulary.tombstone then kinds else kind :: kinds)
        | _ => none
      else none
termination_by events.size - i
decreasing_by
  rw [Array.size_setIfInBounds]
  omega

/-- Replays `count` events from position `i` on. -/
def replayFrom : Nat → Nat → Array (Event K) → Option (List (Command K))
  | 0, _, _ => some []
  | count + 1, i, events => do
      match ← events[i]? with
      | .start kind forward =>
          if kind = Vocabulary.tombstone then replayFrom count (i + 1) events
          else
            let (events, kinds) ← chain (events.setIfInBounds i .erased) i forward [kind]
            return kinds.map .start ++ (← replayFrom count (i + 1) events)
      | .token => return .token :: (← replayFrom count (i + 1) events)
      | .finish => return .finish :: (← replayFrom count (i + 1) events)

/-- The commands that events amount to. -/
def replay? (events : Array (Event K)) : Option (List (Command K)) :=
  replayFrom events.size 0 events

omit [DecidableEq K] [Vocabulary K] in
/-- Runs commands on a builder, taking the tokens in order. -/
def Builder.run (b : Builder K) (tokens : List (Token K)) : List (Command K) → Option (Builder K)
  | [] => some b
  | .start kind :: cs => do (← (b.start kind).toOption).run tokens cs
  | .finish :: cs => do (← b.finishNode.toOption).run tokens cs
  | .token :: cs =>
      match tokens with
      | [] => none
      | t :: tokens => do
          let b ← (b.token t.leading t.kind t.range.length t.trailing).toOption
          b.run tokens cs

/-- The tree of a trace over a text and its tokens. -/
def build? (text : Text) (tokens : List (Token K)) (trace : Trace K) : Option (Root K) := do
  let commands ← replay? (← record? trace)
  let b ← (Builder.ofText text).run tokens commands
  (← b.finish.toOption).root?

end Replay
end ZigCst
