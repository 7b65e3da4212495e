import ZigCst.Proofs.Framing

/-!
# Runs do what parsers say

The trace of a parser tells what happens to the state.  Where it can be played to its end,
which it cannot if the parser is stuck, the run of a script gives what its parser gives, and
ends where the trace ends.  In particular it has a result: the stack has room enough if
every call that is made has, and there is room for every call if there is for as many calls
as can be made at once.

**Definitions.**  `Run.Follows`: a run does what a parser says.

**Results.**
* `Script.follows_exec` for scripts, by their form.
* `Grammar.follows_exec` for routines, by the room on the stack.
-/

namespace ZigCst

namespace Cursor

variable {K : Type}

/-- Cursors are equal if what was consumed last and what is ahead are equal. -/
theorem ext_rest
    {c c' : Cursor K}
    (hprev : c.prev = c'.prev)
    (hrest : c.rest = c'.rest) :
    c = c' := by
  obtain ⟨prev, rest, left, hleft⟩ := c
  obtain ⟨prev', rest', left', hleft'⟩ := c'
  obtain rfl : prev = prev' := hprev
  obtain rfl : rest = rest' := hrest
  obtain rfl : left = left' := hleft.trans hleft'.symm
  rfl

theorem next_of_rest_eq
    {c : Cursor K}
    {l : Lexeme K}
    {rest : List (Lexeme K)}
    (h : c.rest = l :: rest) :
    c.next.prev = some l.kind ∧ c.next.rest = rest := by
  obtain ⟨prev, _, left, hleft⟩ := c
  obtain rfl := h
  exact ⟨rfl, rfl⟩

end Cursor

namespace State

variable {K : Type}

/-- The state with other numbers of levels. -/
def withLevels (s : State K) (depth entered : Nat) : State K := { s with depth, entered }

variable [Vocabulary K]

/-- Nothing is left exactly where the end of file is next. -/
theorem Legal.rest_eq_nil_iff
    {s : State K}
    (h : s.Legal) :
    s.cursor.rest = [] ↔ s.peek = Vocabulary.eof := by
  have hpos := h.pos_lt
  have hpeek : s.peek = s.tokens[s.pos].kind := by
    simp [peek, hpos]
  rw [hpeek, h.kind_eq_eof_iff s.pos hpos]
  simp only [cursor, List.drop_eq_nil_iff, significant, List.length_map, List.length_dropLast]
  omega

/-- Where the next token is not the end of file, it is the next lexeme. -/
theorem Legal.exists_rest_eq
    {s : State K}
    (h : s.Legal)
    (hpeek : s.peek ≠ Vocabulary.eof) :
    ∃ l, s.tokens[s.pos]?.map Token.kind = some l.kind ∧
      s.cursor.rest = l :: (significant s.tokens).drop (s.pos + 1) := by
  have hnext := h.pos_succ_lt hpeek
  have hless : s.pos < (significant s.tokens).length := by
    simp only [significant, List.length_map, List.length_dropLast]
    omega
  refine ⟨(significant s.tokens)[s.pos], ?_, List.drop_eq_getElem_cons hless⟩
  simp [significant, Token.kind, h.pos_lt]

variable [DecidableEq K]

theorem cursor_step
    {s t : State K}
    {e : Step K}
    (h : s.step e = some t)
    (hpos : s.posAfter e = s.pos) :
    t.cursor = s.cursor := by
  obtain ⟨recording, -, rfl⟩ := step_eq_some_iff.mp h
  refine Cursor.ext_rest ?_ ?_
  · simp [cursor, hpos]
  · simp [cursor, hpos]

/-- The next token is consumed unless it is the end of file. -/
theorem cursor_step_advance
    {s t : State K}
    (hs : s.Legal)
    (hpeek : s.peek ≠ Vocabulary.eof)
    (h : s.step .advance = some t) :
    t.cursor = s.cursor.next := by
  obtain ⟨recording, -, rfl⟩ := step_eq_some_iff.mp h
  obtain ⟨l, hl, hrest⟩ := hs.exists_rest_eq hpeek
  obtain ⟨hprev, hnext⟩ := Cursor.next_of_rest_eq hrest
  refine Cursor.ext_rest ?_ ?_
  · have hlast : (s.tokens.take (s.pos + 1)).getLast? = s.tokens[s.pos]? := by
      rw [List.take_succ_eq_append_getElem hs.pos_lt, List.getLast?_concat,
        List.getElem?_eq_getElem hs.pos_lt]
    rw [hprev]
    simp only [cursor, posAfter, if_neg hpeek, hlast, hl]
  · rw [hnext]
    simp only [cursor, posAfter, if_neg hpeek]

theorem play_cons
    (s : State K)
    (e : Step K)
    (trace : Trace K) :
    s.play (e :: trace) = (s.step e).bind fun t => t.play trace := rfl

theorem play_append
    (s : State K)
    (trace rest : Trace K) :
    s.play (trace ++ rest) = (s.play trace).bind fun t => t.play rest := by
  simp [play]

theorem play_singleton
    (s : State K)
    (e : Step K) :
    s.play [e] = s.step e := by
  simp [play]

/-- What a trace makes of a state does not depend on the levels. -/
theorem play_withLevels
    (s : State K)
    (depth entered : Nat)
    (trace : Trace K) :
    (s.withLevels depth entered).play trace =
      (s.play trace).map (·.withLevels depth entered) := by
  induction trace generalizing s with
  | nil => rfl
  | cons e trace ih =>
      have hstep : (s.withLevels depth entered).step e =
          (s.step e).map (·.withLevels depth entered) := by
        simp only [step, Option.map_map]
        rfl
      rw [play_cons, play_cons, hstep]
      cases s.step e with
      | none => rfl
      | some t => exact ih t

/-- A trace leaves the levels alone. -/
theorem withLevels_play
    {s t : State K}
    {trace : Trace K}
    (h : s.play trace = some t) :
    t.withLevels s.depth s.entered = t := by
  have hmap := s.play_withLevels s.depth s.entered trace
  rw [show s.withLevels s.depth s.entered = s from rfl, h] at hmap
  exact (Option.some.inj hmap).symm

theorem depth_play
    {s t : State K}
    {trace : Trace K}
    (h : s.play trace = some t) :
    t.depth = s.depth :=
  (congrArg State.depth (withLevels_play h)).symm

theorem extends_play
    {s t : State K}
    {trace : Trace K}
    (h : s.play trace = some t) :
    s.Extends t := by
  induction trace generalizing s with
  | nil =>
      obtain rfl := Option.some.inj h
      exact .refl s
  | cons e trace ih =>
      obtain ⟨u, hu, h⟩ := Option.bind_eq_some_iff.mp h
      exact (extends_step hu).trans (ih h)

end State

/-! ## Scripts -/

section Agreement

variable {K : Type} {R : Type → Type} {α β σ : Type}

/-- Whether a run gives what a parser gives, and ends in a state, up to the number of levels
opened on the way. -/
structure Run.Follows (o : Outcome K α) (u : State K) (run : Run K R α) : Prop where
  value : run.value = o.value
  cursor : run.state.cursor = o.cursor
  state : run.state = u.withLevels u.depth run.state.entered

namespace Run.Follows

variable {o : Outcome K α} {u : State K} {run : Run K R α}

theorem legal
    [Vocabulary K]
    (h : run.Follows o u)
    (hu : u.Legal) :
    run.state.Legal := by
  rw [h.state]
  exact ⟨hu.pos_lt, hu.kind_eq_eof_iff⟩

theorem depth_eq (h : run.Follows o u) : run.state.depth = u.depth := by
  rw [h.state]
  rfl

/-- A run with earlier moments in front. -/
theorem after
    {o' : Outcome K α}
    {n : Nat}
    (h : run.Follows o (u.withLevels u.depth n))
    (hvalue : o'.value = o.value)
    (hcursor : o'.cursor = o.cursor)
    (log : List (Moment K R)) :
    (run.after log).Follows o' u where
  value := h.value.trans hvalue.symm
  cursor := h.cursor.trans hcursor.symm
  state := h.state

/-- A run one level further in follows what is said of it from outside. -/
theorem leave
    {s : State K}
    {log : List (Moment K R)}
    (h : run.Follows o (u.withLevels s.enter.depth s.enter.entered))
    (hdepth : u.depth = s.depth) :
    Run.Follows o u ⟨run.value, run.state.leave, log⟩ where
  value := h.value
  cursor := h.cursor
  state := by
    rw [h.state, hdepth]
    rfl

/-- The part of a trace behind what a run did can be played from where the run ended. -/
theorem play_rest
    [Vocabulary K] [DecidableEq K]
    {t : State K}
    {rest : Trace K}
    (h : run.Follows o u)
    (hplay : u.play rest = some t) :
    run.state.play rest = some (t.withLevels t.depth run.state.entered) := by
  rw [h.state, State.play_withLevels, hplay, State.depth_play hplay]
  rfl

end Run.Follows

variable [Vocabulary K] [DecidableEq K]

theorem State.follows_runStep
    {s u : State K}
    {e : Step K}
    (stack : List (Activation R))
    (h : s.step e = some u) :
    ∃ run, s.runStep stack e = some run ∧ run.Follows ⟨(), u.cursor, [e]⟩ u := by
  refine ⟨⟨(), u, [⟨stack, u⟩]⟩, ?_, rfl, rfl, rfl⟩
  rw [runStep, h, Option.map_some]

/-- A loop has a result, and does what the loop of a parser does, if its turns do. -/
theorem follows_loop
    {turn : σ → State K → Option (Run K R (Bool × σ))}
    {body : σ → Parser K (Bool × σ)}
    {depth : Nat}
    (hturn : ∀ v s u, s.Legal → s.depth = depth → s.play (body v s.cursor).trace = some u →
      ∃ run, turn v s = some run ∧ run.Follows (body v s.cursor) u)
    {v : σ}
    {s u : State K}
    (hs : s.Legal)
    (hdepth : s.depth = depth)
    (h : s.play (Parser.iterate body v s.cursor).trace = some u) :
    ∃ run, loop turn v s = some run ∧ run.Follows (Parser.iterate body v s.cursor) u := by
  induction hleft : s.cursor.left using Nat.strongRecOn generalizing v s u with
  | ind left ih =>
      rw [Parser.iterate_eq] at h ⊢
      cases hagain : (body v s.cursor).value.1 with
      | false =>
          simp only [hagain, Bool.false_eq_true, if_false] at h ⊢
          obtain ⟨run, hrun, hfollows⟩ := hturn v s u hs hdepth h
          refine ⟨⟨run.value.2, run.state, run.log⟩, loop_eq_some_iff.mpr ⟨run, hrun, .inl ?_⟩, ?_⟩
          · exact ⟨hfollows.value ▸ hagain, rfl⟩
          · exact ⟨congrArg Prod.snd hfollows.value, hfollows.cursor, hfollows.state⟩
      | true =>
          by_cases hless : (body v s.cursor).cursor.left < s.cursor.left
          · simp only [hagain, if_true, if_pos hless, State.play_append] at h ⊢
            obtain ⟨t, ht, h⟩ := Option.bind_eq_some_iff.mp h
            obtain ⟨run, hrun, hfollows⟩ := hturn v s t hs hdepth ht
            have hlegal := hfollows.legal ((State.extends_play ht).legal hs)
            have hsame := hfollows.depth_eq.trans ((State.depth_play ht).trans hdepth)
            rw [← hfollows.value, ← hfollows.cursor] at h ⊢
            rw [← hfollows.cursor] at hless
            obtain ⟨others, hothers, hmore⟩ :=
              ih _ (hleft ▸ hless) hlegal hsame (hfollows.play_rest h) rfl
            refine ⟨others.after run.log, loop_eq_some_iff.mpr ⟨run, hrun, .inr ?_⟩, ?_⟩
            · exact ⟨hfollows.value ▸ hagain, hless, others, hothers, rfl⟩
            · refine hmore.after ?_ ?_ _ <;> rfl
          · -- a parser that goes on without having consumed anything is stuck
            simp only [hagain, if_true, if_neg hless, State.play_append] at h
            obtain ⟨t, -, h⟩ := Option.bind_eq_some_iff.mp h
            cases h

namespace Script

/-- A step that consumes nothing. -/
theorem follows_emit
    (calls : Caller K R)
    (stack : List (Activation R))
    {s u : State K}
    {e : Step K}
    (he : e ≠ .advance)
    (h : s.step e = some u) :
    ∃ run, (emit e he).exec calls stack s = some run ∧
      run.Follows (Parser.emit e s.cursor) u := by
  obtain ⟨run, hrun, hfollows⟩ := State.follows_runStep stack h
  have hcursor := State.cursor_step h (State.posAfter_of_ne he)
  exact ⟨run, hrun, hfollows.value, hfollows.cursor.trans hcursor, hfollows.state⟩

theorem follows_advance
    (calls : Caller K R)
    (stack : List (Activation R))
    {s u : State K}
    (hs : s.Legal)
    (h : s.play ((Parser.advance : Parser K Unit) s.cursor).trace = some u) :
    ∃ run, advance.exec calls stack s = some run ∧
      run.Follows ((Parser.advance : Parser K Unit) s.cursor) u := by
  by_cases hpeek : s.peek = Vocabulary.eof
  · have hend : (Parser.advance : Parser K Unit) s.cursor = ⟨(), s.cursor, []⟩ := by
      simp only [Parser.advance_eq, hs.rest_eq_nil_iff.mpr hpeek]
    rw [hend] at h ⊢
    obtain rfl := Option.some.inj h
    exact ⟨_, if_pos hpeek, rfl, rfl, rfl⟩
  · have hmore : (Parser.advance : Parser K Unit) s.cursor = ⟨(), s.cursor.next, [.advance]⟩ := by
      obtain ⟨l, -, hrest⟩ := hs.exists_rest_eq hpeek
      simp only [Parser.advance_eq, hrest]
    rw [hmore, State.play_singleton] at h
    obtain ⟨run, hrun, hfollows⟩ := State.follows_runStep stack h
    have hcursor := State.cursor_step_advance hs hpeek h
    rw [hmore]
    exact ⟨run, (if_neg hpeek).trans hrun, rfl, hfollows.cursor.trans hcursor, hfollows.state⟩

theorem follows_takeEnd
    (calls : Caller K R)
    (stack : List (Activation R))
    {s u : State K}
    (hs : s.Legal)
    (h : s.play ((Parser.takeEnd : Parser K Unit) s.cursor).trace = some u) :
    ∃ run, takeEnd.exec calls stack s = some run ∧
      run.Follows ((Parser.takeEnd : Parser K Unit) s.cursor) u := by
  by_cases hpeek : s.peek = Vocabulary.eof
  · have hend : (Parser.takeEnd : Parser K Unit) s.cursor = ⟨(), s.cursor, [.advance]⟩ := by
      rw [Parser.takeEnd_eq, hs.rest_eq_nil_iff.mpr hpeek]
      rfl
    rw [hend, State.play_singleton] at h
    obtain ⟨run, hrun, hfollows⟩ := State.follows_runStep stack h
    have hcursor := State.cursor_step h (if_pos hpeek)
    rw [hend]
    exact ⟨run, (if_pos hpeek).trans hrun, rfl, hfollows.cursor.trans hcursor, hfollows.state⟩
  · -- the parser is stuck where something is left
    have hrest := mt hs.rest_eq_nil_iff.mp hpeek
    rw [Parser.takeEnd_eq, List.isEmpty_eq_false_iff.mpr hrest] at h
    cases h

variable [Grammar K R] [CallOrder R] {calls : Caller K R}

omit [Vocabulary K] [DecidableEq K] [CallOrder R] in
/-- Where there is a level left, one less is left within it. -/
theorem denote_enter_of_lt
    {within beyond : Script K R α}
    {s : State K}
    (h : s.depth < maxDepth) :
    (enter within beyond).denote (maxDepth - s.depth) =
      within.denote (maxDepth - s.enter.depth) := by
  have hlevels : maxDepth - s.depth = maxDepth - s.enter.depth + 1 := by
    simp only [State.enter]
    omega
  rw [hlevels, denote_enter_succ]

omit [Vocabulary K] [DecidableEq K] [CallOrder R] in
theorem denote_enter_of_not_lt
    {within beyond : Script K R α}
    {s : State K}
    (h : ¬ s.depth < maxDepth) :
    (enter within beyond).denote (maxDepth - s.depth) = beyond.denote (maxDepth - s.depth) := by
  rw [Nat.sub_eq_zero_of_le (Nat.le_of_not_lt h), denote_enter_zero]

/-- A run of a script follows its parser if there is room for what it may call. -/
theorem follows_exec
    {room : (β : Type) → R β → Nat → Prop}
    (hcalls : ∀ β (r : R β) (stack : List (Activation R)) (s u : State K),
      s.Legal → s.depth ≤ maxDepth → room β r s.depth →
      s.play (Grammar.parser r (maxDepth - s.depth) s.cursor).trace = some u →
      ∃ run, calls β r stack s = some run ∧
        run.Follows (Grammar.parser r (maxDepth - s.depth) s.cursor) u)
    (p : Script K R α)
    (stack : List (Activation R))
    {may : Prop → (β : Type) → R β → Prop}
    {opened : Prop}
    {s u : State K}
    (hs : s.Legal)
    (hdepth : s.depth ≤ maxDepth)
    (hmay : ∀ opened β (r : R β), may opened β r → room β r s.depth)
    (hdeeper : ∀ β (r : R β) depth, s.depth < depth → depth ≤ maxDepth → room β r depth)
    (hp : p.Calls may opened)
    (h : s.play (p.denote (maxDepth - s.depth) s.cursor).trace = some u) :
    ∃ run, p.exec calls stack s = some run ∧
      run.Follows (p.denote (maxDepth - s.depth) s.cursor) u := by
  induction p generalizing may opened s u with
  | done v =>
      obtain rfl := Option.some.inj h
      exact ⟨_, rfl, rfl, rfl, rfl⟩
  | look f =>
      obtain rfl := Option.some.inj h
      exact ⟨_, rfl, rfl, rfl, rfl⟩
  | emit e he => exact follows_emit calls stack he ((State.play_singleton s e).symm.trans h)
  | advance => exact follows_advance calls stack hs h
  | takeEnd => exact follows_takeEnd calls stack hs h
  | bind p f ihp ihf =>
      change s.play (_ ++ _) = some u at h
      rw [State.play_append] at h
      obtain ⟨t, ht, h⟩ := Option.bind_eq_some_iff.mp h
      obtain ⟨first, hfirst, hfollows⟩ := ihp hs hdepth hmay hdeeper hp.1 ht
      have hlegal := hfollows.legal ((State.extends_play ht).legal hs)
      have hsame := hfollows.depth_eq.trans (State.depth_play ht)
      rw [← hfollows.value, ← hfollows.cursor, ← hsame] at h
      obtain ⟨second, hsecond, hmore⟩ :=
        ihf first.value hlegal (hsame ▸ hdepth) (hsame ▸ hmay) (hsame ▸ hdeeper)
          (hp.2 first.value) (hfollows.play_rest h)
      refine ⟨second.after first.log, ?_, ?_⟩
      · rw [exec, hfirst, Option.bind_some, hsecond, Option.map_some]
      · rw [hfollows.value, hfollows.cursor, hsame] at hmore
        refine hmore.after ?_ ?_ _ <;> rfl
  | iterate body v ih =>
      exact follows_loop (fun v t u ht hsame hplay =>
        hsame ▸ ih v ht (hsame ▸ hdepth) (hsame ▸ hmay) (hsame ▸ hdeeper) (hp v) (hsame ▸ hplay))
        hs rfl h
  | enter within beyond ihw ihb =>
      by_cases hless : s.depth < maxDepth
      · rw [denote_enter_of_lt hless] at h ⊢
        have hplay : s.enter.play (within.denote (maxDepth - s.enter.depth) s.cursor).trace =
            some (u.withLevels s.enter.depth s.enter.entered) := by
          have hlevels := State.play_withLevels s s.enter.depth s.enter.entered
          exact (hlevels _).trans (congrArg (Option.map _) h)
        have hroom : ∀ (opened : Prop) (β : Type) (r : R β), opened → room β r s.enter.depth :=
          fun _ β r _ => hdeeper β r _ (Nat.lt_succ_self _) hless
        obtain ⟨run, hrun, hfollows⟩ :=
          ihw (s.extends_enter.legal hs) hless hroom
            (fun β r depth hlt => hdeeper β r depth (Nat.lt_of_succ_lt hlt))
            (within.calls_opened trivial) hplay
        exact ⟨_, (if_pos hless).trans (congrArg (Option.map _) hrun),
          hfollows.leave (State.depth_play h)⟩
      · rw [denote_enter_of_not_lt hless] at h ⊢
        obtain ⟨run, hrun, hfollows⟩ := ihb hs hdepth hmay hdeeper hp h
        exact ⟨run, (if_neg hless).trans hrun, hfollows⟩
  | call r => exact hcalls _ r stack s u hs hdepth (hmay opened _ r hp) h

end Script

variable [Grammar K R] [CallOrder R] [LawfulGrammar K R]

open CallOrder

/-- The number of calls that there can be at once from a call on. -/
def Grammar.need {α : Type} (r : R α) (depth : Nat) : Nat :=
  (maxDepth - depth) * perLevel R + (place r + 1)

/-- With room for as many calls as there can be at once, a routine has a result, which
follows its parser. -/
theorem Grammar.follows_exec
    (height : Nat)
    (r : R α)
    (stack : List (Activation R))
    {s u : State K}
    (hs : s.Legal)
    (hdepth : s.depth ≤ maxDepth)
    (hroom : Grammar.need r s.depth ≤ height)
    (h : s.play (Grammar.parser r (maxDepth - s.depth) s.cursor).trace = some u) :
    ∃ run, Grammar.exec height α r stack s = some run ∧
      run.Follows (Grammar.parser r (maxDepth - s.depth) s.cursor) u := by
  induction height generalizing α r stack s u with
  | zero => exact absurd hroom (by simp [Grammar.need])
  | succ height ih =>
      rw [← LawfulGrammar.denote_body] at h ⊢
      have hmay : ∀ opened β (r' : R β), May r opened β r' →
          Grammar.need r' s.depth ≤ height := by
        intro opened β r' hr'
        have hplace := place_lt_place (hr'.imp_right And.right)
        unfold Grammar.need at *
        omega
      have hdeeper : ∀ β (r' : R β) depth, s.depth < depth → depth ≤ maxDepth →
          Grammar.need r' depth ≤ height := by
        intro β r' depth hless hle
        have hplace := place_lt r'
        have hmul := Nat.mul_le_mul_right (perLevel R)
          (show maxDepth - depth + 1 ≤ maxDepth - s.depth by omega)
        rw [Nat.succ_mul] at hmul
        unfold Grammar.need at *
        omega
      obtain ⟨run, hrun, hfollows⟩ :=
        Script.follows_exec (fun β r' stack s u hs hdepth hroom h => ih r' stack hs hdepth hroom h)
          (Grammar.body r) (.of r s :: stack) hs hdepth hmay hdeeper
          (LawfulGrammar.calls_body r) h
      refine ⟨_, congrArg (Option.map _) hrun, hfollows.value, hfollows.cursor, hfollows.state⟩

end Agreement
end ZigCst
