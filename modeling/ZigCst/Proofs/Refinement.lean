import ZigCst.Proofs.Replay
import ZigCst.Proofs.Storage

/-!
# Building refines growing

The tree of a trace is built in three stages: the trace is recorded, the events
are replayed as commands, and a builder runs the commands over the tokens.  The
same tree is described directly by growing the plan of the trace and laying the
text over it.

`Builder.run_commands` says that running the commands of a plan over its tokens
is the same as making the calls of the plan.  With the replay of events it
follows that building a trace refines growing it: whenever a trace grows a plan,
the three stages succeed up to the text, and the tree is that of the plan.
-/

namespace ZigCst

section Running

variable {K : Type}

theorem Builder.run_start
    (b : Builder K)
    (tokens : List (Token K))
    (kind : K)
    (cs : List (Command K)) :
    b.run tokens (.start kind :: cs) =
      ((b.call (.start kind)).toOption).bind fun b => b.run tokens cs := by
  rw [run]
  rfl

theorem Builder.run_finish
    (b : Builder K)
    (tokens : List (Token K))
    (cs : List (Command K)) :
    b.run tokens (.finish :: cs) =
      ((b.call .finish).toOption).bind fun b => b.run tokens cs := by
  rw [run]
  rfl

theorem Builder.run_token
    (b : Builder K)
    (t : Token K)
    (tokens : List (Token K))
    (cs : List (Command K)) :
    b.run (t :: tokens) (.token :: cs) =
      ((b.call (.token t.stretch)).toOption).bind fun b => b.run tokens cs := by
  rw [run]
  rfl

/-- The first of several calls is made before the others. -/
theorem Builder.perform_cons_bind
    {α : Type}
    (b : Builder K)
    (c : Call K)
    (cs : List (Call K))
    (f : Builder K → Option α) :
    ((b.perform (c :: cs)).toOption).bind f =
      ((b.call c).toOption).bind fun b => ((b.perform cs).toOption).bind f := by
  rw [perform, List.foldlM_cons, toOption_bind, Option.bind_assoc]
  rfl

theorem Builder.perform_append_bind
    {α : Type}
    (b : Builder K)
    (cs ds : List (Call K))
    (f : Builder K → Option α) :
    ((b.perform (cs ++ ds)).toOption).bind f =
      ((b.perform cs).toOption).bind fun b => ((b.perform ds).toOption).bind f := by
  rw [perform, List.foldlM_append, toOption_bind, Option.bind_assoc]
  rfl

mutual

/-- Running the commands of a plan over its tokens makes the calls of the plan. -/
theorem Builder.run_commands
    (p : Plan K)
    (b : Builder K)
    (taken tokens : List (Token K))
    (cs : List (Command K))
    (h : taken.map Token.stretch = p.leaves) :
    b.run (taken ++ tokens) (p.commands ++ cs) =
      ((b.perform (Plan.calls p)).toOption).bind fun b => b.run tokens cs := by
  cases p with
  | leaf s =>
      rw [Shape.leaves_leaf] at h
      obtain ⟨t, rfl, rfl⟩ := List.map_eq_singleton_iff.mp h
      rw [Shape.commands, Plan.calls, Builder.perform_cons_bind]
      exact Builder.run_token b t tokens cs
  | node kind children =>
      rw [Shape.leaves_node] at h
      rw [Shape.commands, Plan.calls, Builder.perform_cons_bind]
      rw [List.cons_append, Builder.run_start]
      congr 1
      funext b₁
      rw [List.append_assoc, Builder.run_commandsAll children b₁ taken tokens _ h]
      rw [Builder.perform_append_bind]
      congr 1
      funext b₂
      rw [Builder.perform_cons_bind]
      exact Builder.run_finish b₂ tokens cs

theorem Builder.run_commandsAll
    (ps : List (Plan K))
    (b : Builder K)
    (taken tokens : List (Token K))
    (cs : List (Command K))
    (h : taken.map Token.stretch = ps.flatMap Shape.leaves) :
    b.run (taken ++ tokens) (Shape.commandsAll ps ++ cs) =
      ((b.perform (Plan.callsAll ps)).toOption).bind fun b => b.run tokens cs := by
  cases ps with
  | nil =>
      obtain rfl := List.map_eq_nil_iff.mp h
      rfl
  | cons p ps =>
      rw [List.flatMap_cons] at h
      obtain ⟨taken₁, taken₂, rfl, h₁, h₂⟩ := List.map_eq_append_iff.mp h
      rw [Shape.commandsAll, Plan.callsAll, List.append_assoc, List.append_assoc]
      rw [Builder.run_commands p b taken₁ (taken₂ ++ tokens) _ h₁]
      rw [Builder.perform_append_bind]
      congr 1
      funext b₁
      exact Builder.run_commandsAll ps b₁ taken₂ tokens cs h₂

end

end Running

section Refinement

variable {K : Type} [DecidableEq K] [Vocabulary K]

/-- The tree that is built from a trace is the tree of the plan that the trace
grows. -/
theorem build?_eq_root?
    {tokens : List (Token K)}
    {trace : Trace K}
    {plan : Plan K}
    (text : Text)
    (h : Shape.grow? (tokens.map Token.stretch) trace = some plan) :
    build? text tokens trace = Plan.root? text plan := by
  obtain ⟨events, hevents, hcommands⟩ := replay_record_of_grow? h
  obtain ⟨kind, children, rfl⟩ := Shape.exists_node_of_grow? h
  have hleaves := Shape.leaves_of_grow? h
  have hrun :=
    Builder.run_commands (.node kind children) (Builder.ofText text) tokens [] [] hleaves.symm
  rw [List.append_nil, List.append_nil] at hrun
  rw [build?, hevents]
  dsimp only [Option.bind_eq_bind, Option.bind_some]
  rw [hcommands]
  dsimp only [Option.bind_some]
  rw [hrun, ← Scaffold.perform_calls_finish, ← Builder.root?_finish_perform, toOption_bind]
  cases ((Builder.ofText text).perform (Plan.calls (.node kind children))).toOption <;> rfl

/-- **Building refines growing.**  If the steps of a trace grow a plan of the
tokens, then the trace is recorded, its events are replayed as the commands of
that plan, and what is built is the tree of the plan over the text, which exists
as soon as the tokens fit the text. -/
theorem build?_refines_grow?
    (text : Text)
    (tokens : List (Token K))
    (trace : Trace K)
    (plan : Plan K)
    (hgrow : Shape.grow? (tokens.map Token.stretch) trace = some plan) :
    (∃ events, record? trace = some events ∧ replay? events = some plan.commands) ∧
      build? text tokens trace = Plan.root? text plan ∧
      (Piece.Fit (tokens.flatMap fun t => t.stretch.pieces) text →
        ∃ root, build? text tokens trace = some root) := by
  have hbuild := build?_eq_root? text hgrow
  refine ⟨replay_record_of_grow? hgrow, hbuild, ?_⟩
  intro hfit
  obtain ⟨kind, children, rfl⟩ := Shape.exists_node_of_grow? hgrow
  have hpieces :
      Plan.pieces (.node kind children) = tokens.flatMap fun t => t.stretch.pieces := by
    rw [Plan.pieces, Shape.leaves_of_grow? hgrow, List.flatMap_map]
  rw [← hpieces] at hfit
  obtain ⟨ls, hcut⟩ := Piece.fit_iff.mp hfit
  obtain ⟨ts, -, hroot, -⟩ := Plan.exists_root hcut
  exact ⟨⟨kind, ts⟩, hbuild.trans hroot⟩

/-- A trace in which a node gets a parent twice in a row, and the second parent is
completed inside a third node. -/
def wrappedTrace : Trace Zon.Kind :=
  [.start, .start, .advance, .complete .ident, .precede, .advance, .start, .advance,
    .complete .ident, .complete .entry, .precede, .report .expectedValue, .complete .array,
    .advance, .complete .file]

/-- The tokens of `a .b`. -/
def wrappedTokens : List (Token Zon.Kind) :=
  [⟨[], ⟨⟨.identifier, ['a']⟩, 0⟩, [⟨.whitespace, 1⟩]⟩, ⟨[], ⟨⟨.dot, ['.']⟩, 2⟩, []⟩,
    ⟨[], ⟨⟨.identifier, ['b']⟩, 3⟩, []⟩, ⟨[], ⟨⟨.eof, []⟩, 4⟩, []⟩]

/-- The plan that it grows. -/
def wrappedPlan : Plan Zon.Kind :=
  .node .file
    [.node .array
        [.node .entry
          [.node .ident [.leaf ⟨[], .identifier, 1, [⟨.whitespace, 1⟩]⟩],
            .leaf ⟨[], .dot, 1, []⟩, .node .ident [.leaf ⟨[], .identifier, 1, []⟩]]],
      .leaf ⟨[], .eof, 0, []⟩]

theorem build?_refines_grow?_wrapped :
    Shape.grow? (wrappedTokens.map Token.stretch) wrappedTrace = some wrappedPlan ∧
      (∃ events, record? wrappedTrace = some events ∧
        replay? events = some wrappedPlan.commands) ∧
      build? ['a', ' ', '.', 'b'] wrappedTokens wrappedTrace =
        Plan.root? ['a', ' ', '.', 'b'] wrappedPlan ∧
      ∃ root, build? ['a', ' ', '.', 'b'] wrappedTokens wrappedTrace = some root := by
  have hgrow : Shape.grow? (wrappedTokens.map Token.stretch) wrappedTrace = some wrappedPlan := rfl
  have hfit :
      Piece.Fit (wrappedTokens.flatMap fun t => t.stretch.pieces) ['a', ' ', '.', 'b'] := by
    decide
  obtain ⟨hreplay, hbuild, hexists⟩ :=
    build?_refines_grow? ['a', ' ', '.', 'b'] wrappedTokens wrappedTrace wrappedPlan hgrow
  exact ⟨hgrow, hreplay, hbuild, hexists hfit⟩

end Refinement
end ZigCst
