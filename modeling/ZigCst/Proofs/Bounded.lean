import ZigCst.Proofs.Agreement
import ZigCst.Proofs.Recorded
import ZigCst.Proofs.Soundness

/-!
# Calls are bounded

The parsers of a grammar are never stuck and complete every node that they open.  So the
runs of its routines have results, whatever the state is, as long as the stack has room for
as many calls as there can be at once; and that number does not depend on what is parsed.

**Definitions.**
* `Parser.Adds`: the trace of a parser adds children to an open node.
* `SoundGrammar`: the parsers of a grammar do so.
* `Run.Bounded`: what holds of the call of a routine in a state.

**Results.**  `Grammar.exists_bounded`: every call has a result, and is bounded.
-/

namespace ZigCst

section Adding

variable {K α : Type} [DecidableEq K] [Vocabulary K]

/-- Whether the trace of a parser adds children to an open node, from a cursor with the end
of file behind it. -/
def Parser.Adds (p : Parser K α) (c : Cursor K) : Prop :=
  ∃ ahead top,
    Growth.run ⟨c.kinds ++ [Vocabulary.eof], .growing (.empty : Bed K K) []⟩ (p c).trace =
      some ⟨ahead, .growing top []⟩

/-- The site inside a node that was just opened. -/
def Site.ofCursor (c : Cursor K) : Site K := ⟨c, [Vocabulary.eof], [], 0⟩

theorem Parser.Ends.adds
    {p : Parser K α}
    {c : Cursor K}
    {Q : α → Site K → Prop}
    (h : p.Ends (.ofCursor c) Q) :
    p.Adds c := by
  obtain ⟨t, -, hleads, -⟩ := h
  exact ⟨_, _, hleads.run none []⟩

/-- A whole file is one node, with the end of file in it. -/
theorem Parser.adds_whole
    {body : Parser K Unit}
    {kind : K}
    {c : Cursor K}
    (hkind : kind ≠ Vocabulary.tombstone)
    (h : body.Ends (.ofCursor c) fun _ t => (Site.ofCursor c).Grows t ∧ t.kinds = []) :
    (whole kind body).Adds c := by
  obtain ⟨t, hcursor, hleads, hgrows, hkinds⟩ := h
  have hrest : (body c).cursor.rest = [] := by
    have hsame : t.cursor = (body c).cursor := hcursor
    rwa [← hsame, Site.rest_eq_nil_iff]
  have hahead : t.ahead = [Vocabulary.eof] := by
    rw [Site.ahead, hkinds, hgrows.behind]
    rfl
  have hrun := hleads.run none [.empty]
  rw [hahead] at hrun
  change Growth.run ⟨c.kinds ++ [Vocabulary.eof], .growing .empty [.empty]⟩ (body c).trace = _
    at hrun
  refine ⟨[], Bed.empty.add ((Bed.add ⟨none, t.children⟩ (.leaf Vocabulary.eof)).close kind), ?_⟩
  rw [trace_whole kind hrest, Growth.run_cons, Growth.step, Option.bind_some, Growth.run_append,
    hrun]
  simp only [Option.bind_some, Growth.run_cons, Growth.step, if_neg hkind, Growth.run_nil]

end Adding

/-- The parsers of a grammar add children to an open node. -/
class SoundGrammar (K : outParam Type) (R : Type → Type) [DecidableEq K] [Vocabulary K]
    [Grammar K R] : Prop where
  adds {α : Type} : ∀ (r : R α) (depth : Nat) (c : Cursor K),
    Grammar.Ready r (Site.ofCursor c).peek →
    (Grammar.parser r depth).Adds c

/-- Of two calls of one function on the stack, the later one came after a level had been
opened. -/
theorem Activation.Precedes.entered_lt
    {R : Type → Type}
    [CallOrder R]
    {b c : Activation R}
    (h : b.Precedes c)
    (hsame : CallOrder.order c.routine = CallOrder.order b.routine) :
    b.entered < c.entered ∧
      (b.depth < c.depth ∨ CallOrder.rest c.routine < CallOrder.rest b.routine) := by
  unfold Precedes at h
  omega

/-- What a parser sees next is the next token. -/
theorem State.Legal.peek_cursor
    {K : Type}
    [DecidableEq K] [Vocabulary K]
    {s : State K}
    (h : s.Legal) :
    (Site.ofCursor s.cursor).peek = s.peek := by
  by_cases hpeek : s.peek = Vocabulary.eof
  · simp [Site.ofCursor, Site.peek, Site.nth, Site.kinds, Cursor.kinds,
      h.rest_eq_nil_iff.mpr hpeek, hpeek]
  · obtain ⟨l, hl, hrest⟩ := h.exists_rest_eq hpeek
    simp [Site.ofCursor, Site.peek, Site.nth, Site.kinds, Cursor.kinds, hrest, State.peek, hl]

section Bounds

variable {K : Type} {R : Type → Type} {α : Type} [DecidableEq K] [Vocabulary K]
  [Grammar K R] [CallOrder R]

/-- All states of a run from `s`, in order. -/
def Run.states (s : State K) (run : Run K R α) : List (State K) :=
  s :: (run.log.map Moment.state ++ [run.state])

/-- What holds of the call of a routine in a state, on a stack that is empty before.

* It does what its parser says where as many levels are allowed as are not open.
* It ends with as many open levels as it started with, and never has more than `maxDepth`.
* The place of the next token never decreases, and never passes the end of file.
* The diagnostics that were there are always the first ones.
* Nothing that was recorded has changed, and all nodes opened since are completed.
* There are never more than `limit` calls on the stack.
* Between two calls of one function on the stack, a level was opened.  If no level is still
  open of those, what the function is called with has decreased. -/
structure Run.Bounded
    (limit : Nat)
    (r : R α)
    (s : State K)
    (run : Run K R α) : Prop where
  value : run.value = (Grammar.parser r (maxDepth - s.depth) s.cursor).value
  cursor : run.state.cursor = (Grammar.parser r (maxDepth - s.depth) s.cursor).cursor
  plays : s.play (Grammar.parser r (maxDepth - s.depth) s.cursor).trace =
    some (run.state.withLevels s.depth s.entered)
  depth_eq : run.state.depth = s.depth
  depth_le : ∀ t ∈ run.states s, t.depth ≤ maxDepth
  pos_le : (run.states s).Pairwise fun t u => t.pos ≤ u.pos
  pos_lt : ∀ t ∈ run.states s, t.tokens = s.tokens ∧ t.pos < s.tokens.length
  diagnostics : ∀ t ∈ run.states s, s.diagnostics <+: t.diagnostics
  recording : s.recording.Keeps run.state.recording
  length_stack_le : ∀ m ∈ run.log, m.stack.length ≤ limit
  cycles : ∀ m ∈ run.log, m.stack.Pairwise fun c b =>
    CallOrder.order c.routine = CallOrder.order b.routine →
      b.entered < c.entered ∧
        (b.depth < c.depth ∨ CallOrder.rest c.routine < CallOrder.rest b.routine)

namespace Run.Framed

variable {a : Activation R} {s t : State K} {run : Run K R α} (h : run.Framed a [] s)
include h

omit [DecidableEq K] [Grammar K R]

theorem pairwise_states : (run.states s).Pairwise State.Extends := by
  rw [states, List.pairwise_cons, List.pairwise_append]
  refine ⟨?_, List.pairwise_map.mpr h.between, List.pairwise_singleton _ _, ?_⟩
  · intro t ht
    rcases List.mem_append.mp ht with ht | ht
    · obtain ⟨m, hm, rfl⟩ := List.mem_map.mp ht
      exact h.first m hm
    · obtain rfl := List.mem_singleton.mp ht
      exact h.extends_state
  · intro t ht u hu
    obtain ⟨m, hm, rfl⟩ := List.mem_map.mp ht
    obtain rfl := List.mem_singleton.mp hu
    exact h.last m hm

theorem extends_of_mem_states (ht : t ∈ run.states s) : s.Extends t := by
  rcases List.mem_cons.mp ht with rfl | ht
  · exact .refl t
  · exact List.rel_of_pairwise_cons h.pairwise_states ht

theorem depth_le_of_mem_states
    (hdepth : s.depth ≤ maxDepth)
    (ht : t ∈ run.states s) :
    t.depth ≤ maxDepth := by
  rcases List.mem_cons.mp ht with rfl | ht
  · exact hdepth
  · rcases List.mem_append.mp ht with ht | ht
    · obtain ⟨m, hm, rfl⟩ := List.mem_map.mp ht
      exact (h.depth_mem m hm).2
    · obtain rfl := List.mem_singleton.mp ht
      exact h.depth_eq ▸ hdepth

theorem pairwise_stack
    {m : Moment K R}
    (hm : m ∈ run.log) :
    m.stack.Pairwise fun c b => b.Precedes c := by
  obtain ⟨inner, hstack, hprecedes, -⟩ := h.stack m hm
  exact hstack ▸ hprecedes

theorem depth_le_of_mem_stack
    {m : Moment K R}
    (ha : a.depth ≤ maxDepth)
    (hm : m ∈ run.log) :
    ∀ b ∈ m.stack, b.depth ≤ maxDepth := by
  obtain ⟨inner, hstack, -, hinner⟩ := h.stack m hm
  rw [hstack]
  intro b hb
  rcases List.mem_append.mp hb with hb | hb
  · exact hinner b hb
  · obtain rfl := List.mem_singleton.mp hb
    exact ha

end Run.Framed

variable [LawfulGrammar K R] [SoundGrammar K R]

/-- A call of any function in any state has a result and is bounded, if there is room for
as many calls as there can be at once. -/
theorem Grammar.exists_bounded
    {limit : Nat}
    (hlimit : CallOrder.perLevel R * (maxDepth + 1) ≤ limit)
    (r : R α)
    {s : State K}
    (hs : s.Legal)
    (hdepth : s.depth ≤ maxDepth)
    (hready : Grammar.Ready r s.peek) :
    ∃ run, Grammar.exec limit α r [] s = some run ∧ run.Bounded limit r s := by
  have hneed : Grammar.need r s.depth ≤ limit := by
    have hplace := CallOrder.place_lt r
    have hmul := Nat.mul_le_mul_right (CallOrder.perLevel R) (Nat.sub_le maxDepth s.depth)
    rw [Nat.mul_succ, Nat.mul_comm] at hlimit
    unfold Grammar.need
    omega
  obtain ⟨ahead, top, hgrowth⟩ :=
    SoundGrammar.adds r (maxDepth - s.depth) s.cursor (hs.peek_cursor ▸ hready)
  obtain ⟨u, hplay, hkeeps⟩ := s.exists_play hgrowth
  obtain ⟨run, hrun, hfollows⟩ := Grammar.follows_exec limit r [] hs hdepth hneed hplay
  obtain ⟨hframed, -⟩ := Grammar.framed_exec limit r [] s run hs hdepth hrun
  have hextends : ∀ t ∈ run.states s, s.Extends t := fun _ ht => hframed.extends_of_mem_states ht
  exact ⟨run, hrun, {
    value := hfollows.value
    cursor := hfollows.cursor
    plays := by
      rw [hplay, hfollows.state]
      exact congrArg some (State.withLevels_play hplay).symm
    depth_eq := hframed.depth_eq
    depth_le := fun t ht => hframed.depth_le_of_mem_states hdepth ht
    pos_le := hframed.pairwise_states.imp State.Extends.pos_le
    pos_lt := by
      intro t ht
      have htokens := (hextends t ht).tokens_eq
      exact ⟨htokens, htokens ▸ ((hextends t ht).legal hs).pos_lt⟩
    diagnostics := fun t ht => (hextends t ht).diagnostics
    recording := by
      rw [hfollows.state]
      exact hkeeps
    length_stack_le := by
      intro m hm
      have hlength := Activation.length_le_of_pairwise_precedes (hframed.pairwise_stack hm)
        (hframed.depth_le_of_mem_stack hdepth hm)
      exact Nat.le_trans hlength hlimit
    cycles := fun m hm =>
      (hframed.pairwise_stack hm).imp fun hprecedes hsame => hprecedes.entered_lt hsame }⟩

end Bounds
end ZigCst
