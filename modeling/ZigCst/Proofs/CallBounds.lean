import ZigCst.Proofs.Tiling
import ZigCst.Proofs.ZigCalls
import ZigCst.Proofs.ZonScript

/-!
# Bounds for both languages

The functions of both grammars can be called in any state: the calls have results, and there
are never more of them at once than a multiple of the number of levels.  In particular this
holds of the function of a whole file in front of the first token of a text.  What has been
recorded and reported where that call returns is what the parse of the text is made of.

**Definitions.**
* `State.ofTokens`: the state in front of all tokens.
* `Recording.build?`: the tree of what has been recorded.

**Results.**
* `bounded_calls`: all calls in all states are bounded.
* `exists_run_parse`: a parse is what a bounded call has left behind.
-/

namespace ZigCst

open CallOrder

/-! ## All calls -/

/-- **Calls are bounded.**  Every function of both grammars, called in any state in which at
most `maxDepth` levels are open, has a result and keeps to its frame.  The number of levels
never exceeds `maxDepth` and is in the end what it was, the place never decreases and never
passes the end of file, earlier diagnostics stay in front, and all nodes that were opened are
completed.  The number of calls at once is at most a constant multiple of `maxDepth`, because
a level is opened whenever a function is called within a call of itself.

One function takes something for granted, and it asserts that: the next token of a prototype
is its keyword. -/
theorem bounded_calls :
    (∀ {α : Type} (r : Zig.Routine α) (s : State Zig.Kind),
      s.Legal → s.depth ≤ maxDepth →
        (Grammar.Ready r s.peek →
          ∃ run, Grammar.exec (389 * maxDepth) α r [] s = some run ∧
            run.Bounded (389 * maxDepth) r s) ∧
          (¬ Grammar.Ready r s.peek → ∀ height, Grammar.exec height α r [] s = none)) ∧
      ∀ {α : Type} (r : Zon.Routine α) (s : State Zon.Kind),
        s.Legal → s.depth ≤ maxDepth →
          ∃ run, Grammar.exec (6 * maxDepth) α r [] s = some run ∧
            run.Bounded (6 * maxDepth) r s := by
  refine ⟨fun r s hs hdepth => ⟨fun hready => ?_, fun hready height => ?_⟩, fun r s hs hdepth => ?_⟩
  · exact Grammar.exists_bounded (by decide) r hs hdepth hready
  · exact Zig.Routine.exec_eq_none hs hready height []
  · exact Grammar.exists_bounded (by decide) r hs hdepth trivial

/-- A prototype at its keyword and at the end, and a value at the end, where no further level
is allowed. -/
theorem bounded_calls_at_limit :
    let s : State Zig.Kind :=
      ⟨[⟨[], ⟨⟨.fnKw, ['f', 'n']⟩, 0⟩, []⟩, ⟨[], ⟨⟨.eof, []⟩, 2⟩, []⟩], 0, maxDepth, 0, .empty, []⟩
    let t : State Zig.Kind := { s with pos := 1 }
    let u : State Zon.Kind := ⟨[⟨[], ⟨⟨.eof, []⟩, 0⟩, []⟩], 0, maxDepth, 0, .empty, []⟩
    (s.Legal ∧ s.depth ≤ maxDepth ∧ Grammar.Ready Zig.Routine.fnProto s.peek ∧
      ∃ run, Grammar.exec (389 * maxDepth) Unit Zig.Routine.fnProto [] s = some run ∧
        run.Bounded (389 * maxDepth) .fnProto s) ∧
      (t.Legal ∧ t.depth ≤ maxDepth ∧ ¬ Grammar.Ready Zig.Routine.fnProto t.peek ∧
        ∀ height, Grammar.exec height Unit Zig.Routine.fnProto [] t = none) ∧
      u.Legal ∧ u.depth ≤ maxDepth ∧
        ∃ run, Grammar.exec (6 * maxDepth) Unit (Zon.Routine.value .empty) [] u = some run ∧
          run.Bounded (6 * maxDepth) (.value .empty) u := by
  intro s t u
  have hs : s.Legal := ⟨by decide, by decide⟩
  have ht : t.Legal := ⟨by decide, by decide⟩
  have hu : u.Legal := ⟨by decide, by decide⟩
  have hdepth : maxDepth ≤ maxDepth := Nat.le_refl _
  have hready : ¬ Grammar.Ready Zig.Routine.fnProto t.peek :=
    fun h : Zig.Kind.eof = .fnKw => by cases h
  exact ⟨⟨hs, hdepth, rfl, (bounded_calls.1 _ s hs hdepth).1 rfl⟩,
    ⟨ht, hdepth, hready, (bounded_calls.1 _ t ht hdepth).2 hready⟩,
    hu, hdepth, bounded_calls.2 _ u hu hdepth⟩

/-! ## From the first token -/

section Files

variable {K : Type} [Vocabulary K]

/-- The state in front of all tokens. -/
def State.ofTokens (tokens : List (Token K)) : State K := ⟨tokens, 0, 0, 0, .empty, []⟩

omit [Vocabulary K] in
theorem State.cursor_ofTokens (tokens : List (Token K)) :
    (ofTokens tokens).cursor = .ofList (significant tokens) :=
  Cursor.ext_rest rfl rfl

/-- The end of file is the last token and no other. -/
theorem State.legal_ofTokens
    {tokens : List (Token K)}
    {kinds : List K}
    (htokens : tokens.map Token.kind = kinds ++ [Vocabulary.eof])
    (hkinds : Vocabulary.eof ∉ kinds) :
    (ofTokens tokens).Legal where
  pos_lt := by
    have hlength := congrArg List.length htokens
    simp only [List.length_map, List.length_append, List.length_singleton] at hlength
    exact hlength ▸ Nat.succ_pos _
  kind_eq_eof_iff i hi := by
    change i < tokens.length at hi
    change tokens[i].kind = Vocabulary.eof ↔ i + 1 = tokens.length
    have hlength := congrArg List.length htokens
    simp only [List.length_map, List.length_append, List.length_singleton] at hlength
    have hget : some tokens[i].kind = (kinds ++ [Vocabulary.eof])[i]? := by
      rw [← htokens, List.getElem?_map, List.getElem?_eq_getElem hi]
      rfl
    by_cases hless : i < kinds.length
    · rw [List.getElem?_append_left hless] at hget
      have hmem := List.mem_of_getElem? hget.symm
      exact ⟨fun h => absurd (h ▸ hmem) hkinds, fun h => by omega⟩
    · obtain rfl : i = kinds.length := by omega
      rw [List.getElem?_concat_length] at hget
      exact iff_of_true (Option.some.inj hget) hlength.symm

variable [LawfulVocabulary K]

theorem State.legal_ofTokens_tokensWith
    {read : (c : Char) → (t : Text) → Reading K t}
    {kinds : List K}
    (hread : ∀ c t, (read c t).Keeps kinds c)
    (text : Text) :
    (ofTokens (tokensWith read text)).Legal := by
  refine legal_ofTokens (map_kind_tokensWith read text) ?_
  obtain ⟨front, hfront, hkeeps⟩ := exists_lexWith_keeps hread text
  rw [significantKinds, hfront, List.dropLast_concat, List.mem_map]
  rintro ⟨l, hl, heof⟩
  exact (hkeeps l (List.mem_of_mem_filter hl)).1.1 heof

omit [LawfulVocabulary K]

variable [DecidableEq K]

/-- Where the tokens do not run out, a state reports the errors of a trace. -/
theorem State.diagnostics_play
    {s t : State K}
    {trace : Trace K}
    (hs : s.Legal)
    (hadvances : s.pos + Trace.advances trace < s.tokens.length)
    (h : s.play trace = some t) :
    t.diagnostics = s.diagnostics ++ Trace.errors (s.tokens.drop s.pos) trace := by
  generalize htokens : s.tokens.drop s.pos = tokens
  fun_induction Trace.errors tokens trace generalizing s with
  | case1 tokens =>
      obtain rfl := Option.some.inj h
      exact (List.append_nil _).symm
  | case2 tokens trace ih =>
      rw [play_cons] at h
      obtain ⟨u, hu, h⟩ := Option.bind_eq_some_iff.mp h
      have hlegal := (extends_step hu).legal hs
      have hcons : Trace.advances (.advance :: trace) = 1 + Trace.advances trace :=
        Trace.advances_append [.advance] trace
      have hpos : s.pos < s.tokens.length := hs.pos_lt
      have hpeek : s.peek ≠ Vocabulary.eof := by
        have hlast := mt (hs.kind_eq_eof_iff s.pos hpos).mp (by omega)
        simpa [peek, hpos] using hlast
      obtain ⟨recording, -, rfl⟩ := step_eq_some_iff.mp hu
      have hnext : s.posAfter .advance = s.pos + 1 := if_neg hpeek
      have hrest := ih hlegal (by simp only [hnext]; omega) h
        (by simp only [hnext, ← htokens, List.tail_drop])
      rw [hrest]
      simp [faults]
  | case3 tokens fault trace ih =>
      rw [play_cons] at h
      obtain ⟨u, hu, h⟩ := Option.bind_eq_some_iff.mp h
      have hlegal := (extends_step hu).legal hs
      obtain ⟨recording, -, rfl⟩ := step_eq_some_iff.mp hu
      rw [ih hlegal hadvances h htokens, List.append_assoc]
      simp [faults, ← htokens]
  | case4 tokens e trace hadvance hreport ih =>
      rw [play_cons] at h
      obtain ⟨u, hu, h⟩ := Option.bind_eq_some_iff.mp h
      have hlegal := (extends_step hu).legal hs
      obtain ⟨recording, -, rfl⟩ := step_eq_some_iff.mp hu
      have hsame := posAfter_of_ne (s := s) hadvance
      have hquiet : s.faults e = [] := by
        cases e with
        | report fault => exact absurd rfl (hreport fault)
        | _ => rfl
      rw [Trace.advances_cons_of_ne hadvance] at hadvances
      have hrest := ih hlegal (by simp only [hsame]; exact hadvances) h
        (by simp only [hsame, htokens])
      rw [hrest]
      simp [hquiet]

/-- The end of file is taken without a report. -/
theorem State.diagnostics_play_end
    {s t : State K}
    {kind : K}
    (h : s.play [.advance, .complete kind] = some t) :
    t.diagnostics = s.diagnostics := by
  rw [play_cons] at h
  obtain ⟨u, hu, h⟩ := Option.bind_eq_some_iff.mp h
  rw [play_singleton] at h
  obtain ⟨recording, -, rfl⟩ := step_eq_some_iff.mp h
  obtain ⟨recording', -, rfl⟩ := step_eq_some_iff.mp hu
  simp [faults]

/-- What the state holds behind a whole file is what the trace records and reports. -/
theorem State.play_whole
    {tokens : List (Token K)}
    {body : Parser K Unit}
    {kind : K}
    {t : State K}
    (hlegal : (ofTokens tokens).Legal)
    (hbody : body.Ends (.ofList (significant tokens)) fun _ t =>
      (Site.ofList (significant tokens)).Grows t ∧ t.kinds = [])
    (h : (ofTokens tokens).play (Parser.whole kind body (.ofList (significant tokens))).trace =
      some t) :
    record? (Parser.whole kind body (.ofList (significant tokens))).trace =
        some t.recording.events ∧
      Trace.errors tokens (Parser.whole kind body (.ofList (significant tokens))).trace =
        t.diagnostics := by
  have hrecording := (ofTokens tokens).map_recording_play
    (Parser.whole kind body (.ofList (significant tokens))).trace
  rw [h, Option.map_some] at hrecording
  refine ⟨?_, ?_⟩
  · rw [record?]
    exact congrArg (Option.map Recording.events) hrecording.symm
  obtain ⟨u, hcursor, hleads, hgrows, hkinds⟩ := hbody
  have hrest : (body (.ofList (significant tokens))).cursor.rest = [] := by
    rw [← Site.rest_eq_nil_iff, hcursor] at hkinds
    exact hkinds
  have hadvances : Trace.advances (.start :: (body (.ofList (significant tokens))).trace) <
      tokens.length := by
    have hpos : 0 < tokens.length := hlegal.pos_lt
    have hlength : (Site.ofList (significant tokens)).ahead.length = u.ahead.length +
        Trace.advances (body (.ofList (significant tokens))).trace :=
      Growth.length_ahead_run (hleads.run none [])
    have hstart : (Site.ofList (significant tokens)).ahead.length = tokens.length := by
      simp [Site.ahead, Site.ofList, Site.kinds, Cursor.kinds, Cursor.ofList, significant]
      omega
    have hend : u.ahead.length = 1 := by
      rw [Site.ahead, hkinds, hgrows.behind]
      rfl
    have hfirst : Trace.advances (.start :: (body (.ofList (significant tokens))).trace) =
        Trace.advances (body (.ofList (significant tokens))).trace :=
      List.countP_cons_of_neg Bool.false_ne_true
    omega
  rw [Parser.trace_whole kind hrest, ← List.cons_append] at h ⊢
  rw [play_append] at h
  obtain ⟨v, hv, h⟩ := Option.bind_eq_some_iff.mp h
  rw [Trace.errors_append _ _ _ rfl, diagnostics_play_end h]
  exact (diagnostics_play hlegal (by rwa [ofTokens, Nat.zero_add]) hv).symm

/-- The tree of what has been recorded, over a text and its tokens. -/
def Recording.build? (r : Recording K) (text : Text) (tokens : List (Token K)) :
    Option (Root K) := do
  let commands ← replay? r.events
  let b ← (Builder.ofText text).run tokens commands
  (← b.finish.toOption).root?

variable [LawfulVocabulary K]
variable {R : Type → Type} [Grammar K R] [CallOrder R] [LawfulGrammar K R] [SoundGrammar K R]

/-- If a function stands for a whole file, the parse of a text is what a call of it in front
of the first token leaves behind. -/
theorem Grammar.exists_run_parse
    {limit : Nat}
    (hlimit : perLevel R * (maxDepth + 1) ≤ limit)
    {read : (c : Char) → (t : Text) → Reading K t}
    {kinds : List K}
    (hread : ∀ c t, (read c t).Keeps kinds c)
    {r : R Unit}
    {body : Parser K Unit}
    {kind : K}
    (hready : ∀ next, Grammar.Ready r next)
    (hparser : Grammar.parser r maxDepth = Parser.whole kind body)
    (hkind : kind ≠ Vocabulary.tombstone)
    (hbody : ∀ s : Site K, body.Ends s fun _ t => s.Grows t ∧ t.kinds = [])
    (text : Text) :
    ∃ run p,
      Grammar.exec limit Unit r [] (.ofTokens (tokensWith read text)) = some run ∧
      run.Bounded limit r (.ofTokens (tokensWith read text)) ∧
      Parse.ofGrammar? (lexWith read) (Parser.whole kind body) text = some p ∧
      run.state.recording.build? text (tokensWith read text) = some p.root ∧
      run.state.diagnostics = p.diagnostics := by
  have hlegal := State.legal_ofTokens_tokensWith hread text
  obtain ⟨run, hrun, hbounded⟩ :=
    Grammar.exists_bounded hlimit r hlegal (Nat.zero_le maxDepth) (hready _)
  obtain ⟨p, hp, -⟩ : ∃ p, Parse.ofGrammar? (lexWith read) (Parser.whole kind body) text = some p ∧
      p.root.Keeps kind text (lexWith read text) := exists_ofGrammar? hkind hbody text
  have hplay := hbounded.plays
  rw [State.cursor_ofTokens, show maxDepth - (State.ofTokens _).depth = maxDepth from rfl,
    hparser] at hplay
  obtain ⟨hrecord, herrors⟩ := State.play_whole hlegal (hbody _) hplay
  refine ⟨run, p, hrun, hbounded, hp, ?_⟩
  rw [Parse.ofGrammar?] at hp
  obtain ⟨root, hroot, hp⟩ := Option.bind_eq_some_iff.mp hp
  obtain rfl := Option.some.inj hp
  refine ⟨?_, herrors.symm⟩
  obtain ⟨events, hevents, hroot⟩ := Option.bind_eq_some_iff.mp hroot
  obtain rfl := Option.some.inj (hrecord.symm.trans hevents)
  exact hroot

end Files

/-- **Parsing is bounded.**  The parse of every text in both languages is what a bounded call
of the function of a whole file has left behind.  Zon adds warnings to that. -/
theorem exists_run_parse (text : Text) :
    (∃ run p,
      Grammar.exec (389 * maxDepth) Unit Zig.Routine.sourceFile []
        (.ofTokens (group (locate 0 (Zig.lex text)))) = some run ∧
      run.Bounded (389 * maxDepth) .sourceFile (.ofTokens (group (locate 0 (Zig.lex text)))) ∧
      Zig.parse? text = some p ∧
      run.state.recording.build? text (group (locate 0 (Zig.lex text))) = some p.root ∧
      run.state.diagnostics = p.diagnostics) ∧
    ∃ run p,
      Grammar.exec (6 * maxDepth) Unit Zon.Routine.file []
        (.ofTokens (group (locate 0 (Zon.lex text)))) = some run ∧
      run.Bounded (6 * maxDepth) .file (.ofTokens (group (locate 0 (Zon.lex text)))) ∧
      Zon.parse? text = some p ∧
      run.state.recording.build? text (group (locate 0 (Zon.lex text))) = some p.root ∧
      run.state.diagnostics ++ Zon.duplicateWarnings p.root = p.diagnostics := by
  constructor
  · exact Grammar.exists_run_parse (by decide) Zig.keeps_read (fun _ => trivial) rfl (by decide)
      (Zig.ends_containerMembers (Zig.sound_level maxDepth)) text
  · have hlimit : perLevel Zon.Routine * (maxDepth + 1) ≤ 6 * maxDepth := by decide
    have hparser : Grammar.parser Zon.Routine.file maxDepth = Parser.whole .file Zon.document := rfl
    obtain ⟨run, p, hrun, hbounded, hp, hroot, hdiagnostics⟩ :=
      Grammar.exists_run_parse hlimit Zon.keeps_read (fun _ => trivial) hparser (by decide)
        Zon.ends_document text
    refine ⟨run, { p with diagnostics := p.diagnostics ++ Zon.duplicateWarnings p.root }, hrun,
      hbounded, ?_, hroot, congrArg (· ++ _) hdiagnostics⟩
    rw [Zon.parse?, show Parse.ofGrammar? Zon.lex Zon.file text = some p from hp]
    rfl

end ZigCst
