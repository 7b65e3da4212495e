import ZigCst.Proofs.Bodies
import ZigCst.Proofs.Nesting

/-!
# Guarded statements

A statement for an expression may get a guard in front, `if (c)`.  Then the branch ends
where the expression did, and what ends the statement depends on the branch: a semicolon
behind a brace ends nothing any more.  The expression is nested more deeply than before,
so it may also be cut short.

**Definitions.**
* `AddsStatement`: a statement was added, and what it did if it is the only one.
* `IsExpression`, `IsStatement`: lexemes that are read as an expression, or as a statement
  for one, without a report.
* `guardMessages`: what is reported of a statement with a guard in front.
* `Fails`: a parser finds nothing where it is run.

**Results.**
* `Fills.isStatement`: a body with one statement, which is for an expression.
* `fails_expr`: what no expression starts with.
* `runs_statements_guarded`: the run over a statement with a guard in front.
* `exists_parse_of_runs`: what is reported of a body is what its statements report.
* `exists_parse_guarded`: guarded statements in all texts.
-/

namespace ZigCst
namespace Zig

open ZigCst.Parser

/-! ## Bodies of one statement -/

section Single

variable {inner : Level} {s t u : Site Kind}

/-- Whether a statement was added.  If it is for an expression and no other was added,
then the run did what the body of that statement does. -/
def AddsStatement (inner : Level) (s t : Site Kind) : Prop :=
  ∃ kind below new,
    t.children = new ++ .node kind below :: s.children ∧
    isStatement (.node kind below : Shape Kind Kind) = true ∧
    (kind = .exprStmt → new.countP isStatement = 0 →
      t.cursor = (statementBody inner s.cursor).cursor ∧
      t.reports = s.reports + Trace.reports (statementBody inner s.cursor).trace)

theorem AddsStatement.countP_lt
    (h : AddsStatement inner s t) :
    s.children.countP isStatement < t.children.countP isStatement := by
  obtain ⟨kind, below, new, hchildren, hstatement, -⟩ := h
  rw [hchildren, List.countP_append, List.countP_cons_of_pos hstatement]
  omega

/-- A statement that was added is there when others were added, and is not the only one
then. -/
theorem AddsStatement.trans
    (h : AddsStatement inner s t)
    (hgrows : t.Grows u)
    (hmore : u = t ∨ t.children.countP isStatement < u.children.countP isStatement) :
    AddsStatement inner s u := by
  obtain ⟨kind, below, new, hchildren, hstatement, hbody⟩ := h
  obtain ⟨more, hsuffix⟩ := hgrows.children
  refine ⟨kind, below, more ++ new, by rw [← hsuffix, hchildren, List.append_assoc], hstatement,
    fun hkind hnone => ?_⟩
  rw [List.countP_append] at hnone
  have hcount : u.children.countP isStatement =
      more.countP isStatement + t.children.countP isStatement := by
    rw [← hsuffix, List.countP_append]
  rcases hmore with rfl | hless
  · exact hbody hkind (by omega)
  · omega

theorem addsStatement_of_node
    {body : Parser Kind Unit}
    {kind : Kind}
    (hsound : body.Sound)
    (htombstone : kind ≠ .tombstone)
    (hlabel : kind ≠ .label)
    (hbody : kind ≠ .exprStmt ∨ body = statementBody inner) :
    (discard (node kind body) : Parser Kind Unit).Ends s fun _ t => AddsStatement inner s t := by
  obtain ⟨t, hcursor, hleads, -⟩ := hsound s.opened
  refine ends_discard (ends_node htombstone ⟨t, hcursor, hleads, kind, _, [], rfl, ?_, ?_⟩)
  · exact bne_iff_ne.mpr hlabel
  · intro hexpr _
    obtain rfl := hbody.resolve_left (not_not_intro hexpr)
    exact ⟨hcursor, hleads.reports⟩

theorem addsStatement_of_bump (fault : Fault Kind) :
    (bump fault : Parser Kind Unit).Ends s fun _ t => AddsStatement inner s t := by
  refine addsStatement_of_node ((sound_at _).bind fun _ => Sound.ite ?_ ?_) (by decide) (by decide)
    (.inl (by decide))
  · exact sound_text.bind fun _ => (sound_report _).seq sound_advance
  · exact (sound_report _).seq sound_advance

variable (h : inner.Sound)
include h

/-- A statement is one node. -/
theorem ends_statement_adds :
    (statement inner).Ends s fun _ t => AddsStatement inner s t := by
  have hother : ∀ {body : Parser Kind Unit} {kind : Kind}, body.Sound →
      kind ∉ [.tombstone, .label, .exprStmt] →
      (discard (node kind body) : Parser Kind Unit).Ends s fun _ t => AddsStatement inner s t := by
    intro body kind hsound hkind
    simp only [List.mem_cons, List.not_mem_nil, or_false, not_or] at hkind
    exact addsStatement_of_node hsound hkind.1 hkind.2.1 (.inl hkind.2.2)
  have hvarDecl := sound_varDecl h
  have hbody := sound_statementBody h
  have hdefer : (deferStatement inner).Ends s fun _ t => AddsStatement inner s t :=
    hother ((sound_eat _).bind fun _ => Sound.ite (sound_payload.seq hbody)
      (sound_advance.seq hbody)) (by decide)
  rw [statement, routine_eq, ends_peek_bind, ends_nth_bind]
  split
  · exact hother (sound_advance.seq hvarDecl) (by decide)
  · exact hother (sound_advance.seq hvarDecl) (by decide)
  · exact hother hvarDecl (by decide)
  · exact hother hvarDecl (by decide)
  · exact hdefer
  · exact hdefer
  · exact hother (sound_advance.seq hbody) (by decide)
  · exact addsStatement_of_bump _
  · exact addsStatement_of_bump _
  · exact addsStatement_of_bump _
  · exact addsStatement_of_bump _
  · exact addsStatement_of_node hbody (by decide) (by decide) (.inr rfl)

/-- A turn over the statements of a block adds one. -/
theorem ends_statementInBlock_adds
    (hgoes : goesOn s.cursor.rest = true) :
    (statementInBlock inner).Ends s fun again t =>
      again = true ∧ t.left < s.left ∧ AddsStatement inner s t := by
  have hnext : (s.peek == .rightBrace || s.kinds.isEmpty) = false := by
    rw [peek_eq_kindAt, Site.kinds, Cursor.kinds, List.isEmpty_map]
    exact (Bool.not_eq_true' _).mp hgoes
  have hleft : 0 < s.left := Site.left_pos_iff.mpr fun hkinds => by simp [hkinds] at hnext
  have hadds : (do
      unless ← moves (statement inner) do
        bump .expectedStatement
      return true : Parser Kind Bool).Ends s fun _ t => AddsStatement inner s t := by
    refine (ends_moves (Q := fun _ t => AddsStatement inner s t)
      (ends_statement_adds h)).bind fun moved t ht => ?_
    cases moved with
    | true => exact ends_pure ht
    | false =>
        have hbump : (bump .expectedStatement : Parser Kind Unit).Ends t fun _ u =>
            t.Plants u ∧ AddsStatement inner t u :=
          (plants_bump _ t).and (addsStatement_of_bump _)
        exact hbump.bind fun _ u hu => ends_pure (ht.trans hu.1.grows (.inr hu.2.countP_lt))
  rw [statementInBlock, ends_at_bind, ends_atEnd_bind, hnext]
  exact ((ends_moves_or_bump (sound_statement h) hleft).and hadds).mono fun _ t ht =>
    ⟨ht.1.1, ht.1.2.2, ht.2⟩

/-- The statements of a block are over, or there is one more at least. -/
theorem ends_statements_adds
    (s : Site Kind) :
    (repeatWhile (statementInBlock inner)).Ends s fun _ t =>
      (goesOn s.cursor.rest = false → t = s) ∧
        (goesOn s.cursor.rest = true → AddsStatement inner s t) := by
  refine ends_iterate ?_
  cases hgoes : goesOn s.cursor.rest with
  | false =>
      have hend : (s.peek == .rightBrace || s.kinds.isEmpty) = true := by
        rw [peek_eq_kindAt, Site.kinds, Cursor.kinds, List.isEmpty_map]
        exact (Bool.not_eq_false' _).mp hgoes
      have hlast : (statementInBlock inner).Ends s fun again t => again = false ∧ t = s := by
        rw [statementInBlock, ends_at_bind, ends_atEnd_bind, hend]
        exact ends_pure ⟨rfl, rfl⟩
      refine hlast.bind ?_
      rintro _ _ ⟨rfl, rfl⟩
      exact ends_pure ⟨by simp, fun _ => ⟨fun _ => rfl, by simp⟩⟩
  | true =>
      refine (ends_statementInBlock_adds h hgoes).bind ?_
      rintro _ t ⟨rfl, hleft, hadds⟩
      have hmore := (sound_repeatWhile (turns_statementInBlock h) t).and (ends_statements_adds t)
      refine ends_pure ⟨fun _ => ⟨hleft, hmore.mono fun _ u hu => ⟨by simp, fun _ => ?_⟩⟩, by simp⟩
      refine hadds.trans hu.1 ?_
      cases hagain : goesOn t.cursor.rest with
      | false => exact .inl (hu.2.1 hagain)
      | true => exact .inr (hu.2.2 hagain).countP_lt
termination_by s.left

end Single

/-- Whether lexemes in front of others are an expression or an assignment of which nothing
is reported. -/
structure IsExpression (es behind : List (Lexeme Kind)) : Prop where
  run : ∀ c : Cursor Kind, c.rest = es ++ behind →
    ∃ kind,
      (assignExpr (level maxDepth) c).value = some kind ∧
      c.Takes es (assignExpr (level maxDepth) c).cursor ∧
      Trace.faults (assignExpr (level maxDepth) c).trace = []

/-- What is an expression in one place is one in all. -/
theorem isExpression_of_takes
    {c : Cursor Kind}
    {es behind : List (Lexeme Kind)}
    {kind : Kind}
    (hc : c.rest = es ++ behind)
    (hfound : (assignExpr (level maxDepth) c).value = some kind)
    (htakes : c.Takes es (assignExpr (level maxDepth) c).cursor)
    (hquiet : Trace.reports (assignExpr (level maxDepth) c).trace = 0) :
    IsExpression es behind := by
  refine ⟨fun d hd => ⟨kind, ?_⟩⟩
  have hrest : (assignExpr (level maxDepth) c).cursor.rest = behind :=
    List.append_cancel_left (htakes.rest.symm.trans hc)
  have hstep : (assignExpr (level maxDepth)).InStep c d es :=
    (resolves_assignExpr (steady_level maxDepth)).steady.inStep htakes hd (.inl hrest)
  rw [hstep.value, hstep.trace]
  exact ⟨hfound, hstep.takes, (Trace.faults_eq_nil_iff _).mpr hquiet⟩

/-- Whether lexemes that a brace follows are an expression with a semicolon, or one that
ends with a brace itself. -/
def IsStatement (ls : List (Lexeme Kind)) : Prop :=
  ∃ es semicolons z,
    ls = es ++ semicolons ∧
    IsExpression es (semicolons ++ [closing]) ∧
    es.getLast? = some z ∧
    (semicolons = [] ∧ z.kind = .rightBrace ∨ ∃ l, semicolons = [l] ∧ l.kind = .semicolon)

/-- What the body of a statement takes without a report is a statement. -/
theorem isStatement_of_takes
    {c : Cursor Kind}
    {ls : List (Lexeme Kind)}
    (hc : c.rest = ls ++ [closing])
    (htakes : c.Takes ls (statementBody (level maxDepth) c).cursor)
    (hquiet : Trace.reports (statementBody (level maxDepth) c).trace = 0) :
    IsStatement ls := by
  have hresolves := resolves_assignExpr (steady_level maxDepth)
  have hassign : Trace.reports (assignExpr (level maxDepth) c).trace = 0 := (reports_bind hquiet).1
  obtain ⟨es, hes⟩ := hresolves.steady.forward c
  cases hfound : (assignExpr (level maxDepth) c).value with
  | none => exact absurd hassign (hresolves.reports c hfound)
  | some kind =>
      obtain ⟨z, hz, hprev⟩ := exists_last_of_takes hes (hresolves.takes c (by simp [hfound]))
      have hrun := statementBody_eq hfound
      dsimp only at hrun
      by_cases hends :
          (isBlockLike kind && (assignExpr (level maxDepth) c).cursor.prev == some .rightBrace) =
            true
      · rw [if_pos hends] at hrun
        rw [hrun] at htakes
        obtain rfl := htakes.unique hes
        simp only [hprev, Bool.and_eq_true, beq_iff_eq, Option.some.injEq] at hends
        exact ⟨ls, [], z, (List.append_nil ls).symm, isExpression_of_takes hc hfound hes hassign,
          hz, .inl ⟨rfl, hends.2⟩⟩
      · rw [if_neg hends] at hrun
        rw [hrun, Trace.reports_append] at hquiet
        obtain ⟨l, more, hrest, hl⟩ :=
          exists_rest_of_expect (by decide) (Nat.add_eq_zero_iff.mp hquiet).2
        rw [hrun, expect_of_cons hrest hl] at htakes
        obtain rfl := htakes.unique (hes.trans (.next hrest))
        refine ⟨es, [l], z, rfl, ?_, hz, .inr ⟨l, rfl, hl⟩⟩
        exact isExpression_of_takes (by rw [hc, List.append_assoc]) hfound hes hassign

/-- A body with one statement, which is for an expression, is what the body of that
statement takes, and nothing is reported of it. -/
theorem Fills.takes_statementBody
    {ls : List (Lexeme Kind)}
    {below : List (Shape Kind Kind)}
    {children : List (Shape Kind Kind)}
    (h : Fills ls children)
    (hone : children.reverse.filter Zig.isStatement = [.node .exprStmt below])
    {c : Cursor Kind}
    (hc : c.rest = ls ++ [closing]) :
    c.Takes ls (statementBody (level maxDepth) c).cursor ∧
      Trace.reports (statementBody (level maxDepth) c).trace = 0 := by
  obtain ⟨htakes, hyields⟩ := h c hc
  obtain ⟨t, hcursor, hleads, hover, hadds⟩ :=
    ends_statements_adds (sound_level maxDepth) ⟨c, [], [], 0⟩
  obtain rfl := hleads.unique hyields hcursor
  cases hgoes : goesOn c.rest with
  | false =>
      obtain rfl : children = [] := congrArg Site.children (hover hgoes)
      simp at hone
  | true =>
      obtain ⟨kind, below', new, hchildren, hstatement, hbody⟩ := hadds hgoes
      dsimp only at hchildren hbody
      rw [hchildren, List.reverse_append, List.reverse_singleton, List.singleton_append,
        List.filter_cons_of_pos hstatement] at hone
      obtain ⟨hnode, hnone⟩ := List.cons.inj hone
      obtain ⟨rfl, -⟩ := Shape.node.inj hnode
      rw [List.filter_reverse, List.reverse_eq_nil_iff] at hnone
      obtain ⟨hends, hreports⟩ := hbody rfl (by rw [List.countP_eq_length_filter, hnone]; rfl)
      rw [hends] at htakes
      exact ⟨htakes, by omega⟩

/-- A body with one statement, which is for an expression, is a statement. -/
theorem Fills.isStatement
    {ls : List (Lexeme Kind)}
    {below : List (Shape Kind Kind)}
    {children : List (Shape Kind Kind)}
    (h : Fills ls children)
    (hone : children.reverse.filter Zig.isStatement = [.node .exprStmt below]) :
    IsStatement ls := by
  have hc : (Cursor.ofList (ls ++ [closing])).rest = ls ++ [closing] := rfl
  obtain ⟨htakes, hquiet⟩ := h.takes_statementBody hone hc
  exact isStatement_of_takes hc htakes hquiet

/-! ## A guard in front of an expression -/

section Guard

/-- The lexemes of `if (c)`. -/
def guardLexemes : List (Lexeme Kind) :=
  [⟨.ifKw, "if".toList⟩, ⟨.leftParen, ['(']⟩, ⟨.identifier, ['c']⟩, ⟨.rightParen, [')']⟩]

variable
  {cut : Prop}
  {α : Type}
  {p : Parser Kind α}
  {c : Cursor Kind}
  {l : Lexeme Kind}
  {rest behind es : List (Lexeme Kind)}

theorem next_rest (h : c.rest = l :: rest) : c.next.rest = rest :=
  (List.cons.inj (h.symm.trans (Cursor.Takes.next h).rest)).2.symm

theorem runs_advance (h : c.rest = l :: rest) :
    (advance : Parser Kind Unit).Runs cut c [] fun _ c' => c'.rest = rest := by
  rw [Runs, advance_of_cons h]
  exact .inr ⟨rfl, next_rest h⟩

theorem runs_expect
    {kind : Kind}
    (h : c.rest = l :: rest)
    (hkind : l.kind = kind) :
    (expect kind : Parser Kind Unit).Runs cut c [] fun _ c' => c'.rest = rest := by
  rw [Runs, expect_of_cons h hkind]
  exact .inr ⟨rfl, next_rest h⟩

/-- What is there only behind a lexeme that is not there. -/
theorem runs_missing
    {kind : Kind}
    {q : Parser Kind Unit}
    {P : Unit → Cursor Kind → Prop}
    (h : kindAt 0 c.rest ≠ kind)
    (hend : P () c) :
    (do if ← at_ kind then q : Parser Kind Unit).Runs cut c [] P := by
  refine runs_look_bind (a := kindAt 0 c.rest == kind) rfl ?_
  rw [if_neg (by simpa using h)]
  exact runs_pure hend

theorem runs_there
    {kind : Kind}
    {f : Bool → Parser Kind α}
    {faults : List (Fault Kind)}
    {P : α → Cursor Kind → Prop}
    (h : kindAt 0 c.rest = kind)
    (hf : (f true).Runs cut c faults P) :
    (at_ kind >>= f).Runs cut c faults P := by
  refine runs_look_bind (a := kindAt 0 c.rest == kind) rfl ?_
  rwa [h, beq_self_eq_true]

/-- A run that adds some lexemes leaves what is behind them. -/
theorem runs_of_adds
    {kinds : List Kind}
    {new : List (Shape Kind Kind)}
    {front : List (Lexeme Kind)}
    (hforward : p.Forward)
    (h : p.Ends ⟨c, [], [], 0⟩ fun _ t => Site.Adds ⟨c, [], [], 0⟩ kinds new t)
    (hc : c.rest = front ++ rest)
    (hlength : front.length = kinds.length) :
    p.Runs cut c [] fun _ c' => c'.rest = rest := by
  refine ((h.takes hforward).mono fun _ t ht => ?_).runs
  obtain ⟨hadds, taken, htaken⟩ := ht
  exact ⟨hadds.reports, hadds.rest_eq htaken hc hlength⟩

/-- A name that nothing goes on with is an expression. -/
theorem ends_expr_name
    {depth : Nat}
    {s : Site Kind}
    {next : Kind}
    {kinds : List Kind}
    (h : s.kinds = .identifier :: next :: kinds)
    (hstop : goesOnExpr next = false)
    (hcolon : next ≠ .colon) :
    (level (depth + 3)).expr.Ends s fun found t =>
      found = some .ident ∧ s.Adds [.identifier] [.node .ident [.leaf .identifier]] t := by
  have hprimary : (primaryType (level depth)).Ends s fun found t => found = some .ident ∧
      s.Adds [.identifier] [.node .ident [.leaf .identifier]] t ∧ goesOnExpr t.peek = false := by
    refine (ends_primaryType_single rfl h).mono fun _ t ht => ⟨ht.1, ht.2, ?_⟩
    rwa [Site.peek_eq (ht.2.kinds_eq h)]
  have hlabel : s.nth 1 ≠ .colon := by
    rwa [Site.nth_one_eq h]
  have hfirst : s.peek ∈ primaryFirst := by
    rw [Site.peek_eq h]
    decide
  exact ends_expr_of_operand (ends_operand_of_primary hfirst hlabel hprimary)

theorem runs_condition
    {depth : Nat}
    (h : c.rest = guardLexemes.tail ++ behind) :
    (condition (level (depth + 3))).Runs cut c [] fun _ c' => c'.rest = behind := by
  refine (runs_expect h rfl).bind_quiet fun _ d hd => ?_
  have hkinds : (Site.mk d [] [] 0).kinds =
      .identifier :: .rightParen :: behind.map Lexeme.kind := by
    rw [Site.kinds, Cursor.kinds, hd]
    rfl
  have hname : (level (depth + 3)).expr.Runs cut d [] fun _ e =>
      e.rest = ⟨.rightParen, [')']⟩ :: behind :=
    have hlexemes : d.rest = [⟨.identifier, ['c']⟩] ++ ⟨.rightParen, [')']⟩ :: behind := hd
    runs_of_adds (steady_level (depth + 3)).expr.steady.forward
      ((ends_expr_name hkinds rfl (by decide)).mono fun _ _ he => he.2) hlexemes rfl
  exact hname.discard.bind_quiet fun _ e he => runs_expect he rfl

/-- Where an expression or an assignment is read unless it is cut short, so is a branch
around it. -/
theorem runs_ifExpr
    {depth : Nat}
    {P : Cursor Kind → Prop}
    (h : c.rest = guardLexemes ++ behind)
    (hpipe : kindAt 0 behind ≠ .pipe)
    (hbranch : ∀ d : Cursor Kind, d.rest = behind →
      (assignExpr (level (depth + 3))).Runs cut d [] fun _ d' =>
        P d' ∧ kindAt 0 d'.rest ≠ .elseKw) :
    (ifExpr (level (depth + 3))).Runs cut c [] fun kind c' => kind = .ifExpr ∧ P c' := by
  refine runs_node ?_
  refine (runs_advance h).bind_quiet fun _ d hd => ?_
  refine (runs_condition hd).bind_quiet fun _ e he => ?_
  have hpayload : (payload : Parser Kind Unit).Runs cut e [] fun _ e' => e'.rest = behind :=
    runs_missing (he ▸ hpipe) he
  refine hpayload.bind_quiet fun _ f hf => ?_
  refine (hbranch f hf).discard.bind_quiet fun _ g hg => ?_
  exact runs_missing hg.2 ⟨rfl, hg.1⟩

section Followed

variable {kind : Kind} {P : Cursor Kind → Prop}

/-- An operand that no operator follows is an expression. -/
theorem runs_expr_of_operand
    {depth : Nat}
    (h : (level depth).operand.Runs cut c [] fun found c' => found = some kind ∧ P c')
    (hstop : ∀ c', P c' → precedence? (kindAt 0 c'.rest) = none) :
    (level (depth + 1)).expr.Runs cut c [] fun found c' => found = some kind ∧ P c' := by
  change (binaryExpr (level depth) 1).Runs cut c [] _
  rw [binaryExpr]
  refine h.bind_quiet ?_
  rintro _ d ⟨rfl, hd⟩
  refine Runs.bind_quiet (P := fun v d' => v = (kind, false) ∧ d' = d) ?_ ?_
  · refine Runs.last (P := fun r d' => r = (false, kind, false) ∧ d' = d) ?_ ?_
    · refine runs_look_bind (a := kindAt 0 d.rest) rfl ?_
      rw [hstop d hd]
      exact runs_pure ⟨rfl, rfl⟩
    · rintro _ _ ⟨rfl, rfl⟩
      exact ⟨rfl, rfl, rfl⟩
  · rintro _ _ ⟨rfl, rfl⟩
    exact runs_pure ⟨rfl, hd⟩

/-- An expression that no assignment follows stays one. -/
theorem runs_assignExpr_of_expr
    {inner : Level}
    (h : inner.expr.Runs cut c [] fun found c' => found = some kind ∧ P c')
    (hstop : ∀ c', P c' → (kindAt 0 c'.rest).isAssignment = false) :
    (assignExpr inner).Runs cut c [] fun found c' => found = some kind ∧ P c' := by
  refine h.bind_quiet ?_
  rintro _ d ⟨rfl, hd⟩
  refine runs_look_bind (a := kindAt 0 d.rest) rfl ?_
  rw [hstop d hd]
  exact runs_pure ⟨rfl, hd⟩

end Followed

/-- A branch that no operator follows is an expression. -/
theorem runs_assignExpr_guarded
    {depth : Nat}
    {P : Cursor Kind → Prop}
    (h : c.rest = guardLexemes ++ behind)
    (hif : (ifExpr (level depth)).Runs cut c [] fun kind c' => kind = .ifExpr ∧ P c')
    (hstop : ∀ c', P c' → kindAt 0 c'.rest ∈ [Kind.semicolon, .rightBrace]) :
    (assignExpr (level (depth + 2))).Runs cut c [] fun found c' => found = some .ifExpr ∧ P c' := by
  have hfirst : (peek : Parser Kind Kind) c = ⟨.ifKw, c, []⟩ := by
    rw [peek_kindAt, h]
    rfl
  have hprimary : (primaryExpr (level depth)).Runs cut c [] fun found c' =>
      found = some .ifExpr ∧ P c' := by
    have hlabel : labelAhead c.rest = false := by
      rw [h]
      rfl
    refine runs_look_bind (atLabeled_eq c) ?_
    rw [hlabel]
    refine runs_look_bind hfirst ?_
    exact hif.bind_quiet fun kind c' hend => runs_pure ⟨congrArg some hend.1, hend.2⟩
  have hoperand : (level (depth + 1)).operand.Runs cut c [] fun found c' =>
      found = some .ifExpr ∧ P c' :=
    runs_look_bind hfirst hprimary
  have hends : ∀ kind ∈ [Kind.semicolon, .rightBrace],
      precedence? kind = none ∧ kind.isAssignment = false := by
    decide
  exact runs_assignExpr_of_expr
    (runs_expr_of_operand hoperand fun c' hc' => (hends _ (hstop c' hc')).1)
    fun c' hc' => (hends _ (hstop c' hc')).2

/-- What a statement ends with behind an expression that ends with a lexeme of a kind: a
semicolon, which may be missing behind a brace. -/
def EndsBehind (last : Kind) (semicolons : List (Lexeme Kind)) : Prop :=
  semicolons = [] ∧ last = .rightBrace ∨ ∃ l, semicolons = [l] ∧ l.kind = .semicolon

theorem EndsBehind.kind_eq
    {last : Kind}
    {semicolons : List (Lexeme Kind)}
    (h : EndsBehind last semicolons) :
    ∀ l ∈ semicolons, l.kind = .semicolon := by
  rcases h with ⟨rfl, -⟩ | ⟨l, rfl, hl⟩
  · exact fun _ hmem => absurd hmem List.not_mem_nil
  · exact fun _ hmem => List.mem_singleton.mp hmem ▸ hl

theorem EndsBehind.kindAt_mem
    {last : Kind}
    {semicolons : List (Lexeme Kind)}
    (h : EndsBehind last semicolons) :
    kindAt 0 (semicolons ++ [closing]) ∈ [Kind.semicolon, .rightBrace] := by
  rcases h with ⟨rfl, -⟩ | ⟨l, rfl, hl⟩
  · decide
  · exact List.mem_cons.mpr (.inl hl)

/-- What a guarded statement leaves over: behind a brace it takes no semicolon. -/
def leftOver (last : Kind) (semicolons : List (Lexeme Kind)) : List (Lexeme Kind) :=
  if last = .rightBrace then semicolons else []

theorem leftOver_sublist (last : Kind) (semicolons : List (Lexeme Kind)) :
    (leftOver last semicolons).Sublist semicolons := by
  rw [leftOver]
  split
  · exact .refl _
  · exact List.nil_sublist _

/-- The end of a statement behind a branch: nothing if the branch ends with a brace. -/
theorem runs_statementBody_guarded
    {depth : Nat}
    {semicolons : List (Lexeme Kind)}
    {last : Kind}
    (h : (assignExpr (level depth)).Runs cut c [] fun found c' =>
      found = some .ifExpr ∧ c'.rest = semicolons ++ [closing] ∧ c'.prev = some last)
    (hends : EndsBehind last semicolons) :
    (statementBody (level depth)).Runs cut c [] fun _ c' =>
      c'.rest = leftOver last semicolons ++ [closing] := by
  refine h.bind_quiet ?_
  rintro _ d ⟨rfl, hrest, hprev⟩
  refine runs_look_bind (a := d.prev) rfl ?_
  rw [hprev]
  by_cases hlast : last = .rightBrace
  · subst hlast
    exact runs_pure hrest
  · obtain ⟨l, rfl, hl⟩ := hends.resolve_left fun hbrace => hlast hbrace.2
    rw [leftOver, if_neg hlast, if_neg (by simpa [isBlockLike] using hlast)]
    exact runs_expect hrest hl

/-! ### Blocks -/

section Turns

variable
  {q : Parser Kind Unit}
  {body : Parser Kind Bool}
  {faults others : List (Fault Kind)}
  {P : Unit → Cursor Kind → Prop}

/-- A turn that takes something asks for another one. -/
theorem runs_moves_or_bump
    {P : Cursor Kind → Prop}
    (fault : Fault Kind)
    (h : q.Runs cut c faults fun _ c' => P c')
    (hleft : ∀ c', P c' → c'.left < c.left) :
    (do
      unless ← moves q do
        bump fault
      return true : Parser Kind Bool).Runs cut c faults fun again c' =>
        again = true ∧ c'.left < c.left ∧ P c' := by
  rw [← List.append_nil faults]
  refine Runs.bind (P := fun moved c' => moved = true ∧ c'.left < c.left ∧ P c') ?_ ?_
  · exact (h.mono fun _ c' hend => ⟨decide_eq_true (hleft c' hend), hleft c' hend, hend⟩).moves
  · rintro _ c' ⟨rfl, hend⟩
    exact runs_pure ⟨rfl, hend⟩

/-- A turn, and the turns behind it. -/
theorem runs_repeatWhile_turn
    {Q : Cursor Kind → Prop}
    (h : body.Runs cut c faults fun again c' => again = true ∧ c'.left < c.left ∧ Q c')
    (hrest : ∀ d : Cursor Kind, Q d → (repeatWhile body).Runs cut d others P) :
    (repeatWhile body).Runs cut c (faults ++ others) P := by
  refine Runs.again (P := fun r c' => r.1 = true ∧ c'.left < c.left ∧ Q c') ?_ ?_
  · rw [← List.append_nil faults]
    refine h.bind ?_
    rintro _ c' ⟨rfl, hend⟩
    exact runs_pure ⟨rfl, hend⟩
  · exact fun _ d ⟨hvalue, hleft, hd⟩ => ⟨hvalue, hleft, hrest d hd⟩

/-- The last turn. -/
theorem runs_repeatWhile_last
    (h : body c = ⟨false, c, []⟩)
    (hend : P () c) :
    (repeatWhile body).Runs cut c [] P := by
  refine Runs.last (P := fun r d => r = (false, ()) ∧ d = c) ?_ ?_
  · exact runs_look_bind h (runs_pure ⟨rfl, rfl⟩)
  · rintro _ _ ⟨rfl, rfl⟩
    exact ⟨rfl, hend⟩

/-- A statement that takes something, and the turns behind it. -/
theorem runs_statements_turn
    (h : (statement (level maxDepth)).Runs cut c faults fun _ c' => c'.rest = behind)
    (hgoes : goesOn c.rest = true)
    (hleft : behind.length < c.left)
    (hrest : ∀ d : Cursor Kind, d.rest = behind → statements.Runs cut d others P) :
    statements.Runs cut c (faults ++ others) P := by
  have hless : ∀ c' : Cursor Kind, c'.rest = behind → c'.left < c.left := by
    rintro c' rfl
    rwa [c'.left_eq]
  refine runs_repeatWhile_turn (Runs.of_eq (runs_moves_or_bump .expectedStatement h hless) ?_) hrest
  rw [statementInBlock_eq, hgoes, if_pos rfl]

end Turns

/-- A semicolon that ends nothing is reported. -/
theorem runs_statement_semicolon
    {inner : Level}
    (h : c.rest = l :: rest)
    (hl : l.kind = .semicolon) :
    (statement inner).Runs cut c [.unexpected .semicolon] fun _ c' => c'.rest = rest := by
  have hfirst : kindAt 0 c.rest = .semicolon := by
    rw [h]
    exact hl
  have hrun : statement inner c = (bump (.unexpected .semicolon) : Parser Kind Unit) c := by
    rw [statement, routine_eq, bind_of_eq (peek_kindAt c), bind_of_eq (nth_kindAt 1 c), hfirst]
  refine Runs.of_eq ?_ hrun
  refine (runs_node (P := fun _ c' => c'.rest = rest) ?_).discard
  refine runs_look_bind (a := kindAt 0 c.rest == Vocabulary.badCharacter) rfl ?_
  rw [hfirst]
  exact (runs_emit (P := fun _ d => d = c) rfl).bind fun _ d hd => by
    obtain rfl := hd
    exact runs_advance h

/-- Semicolons that end nothing are reported one by one. -/
theorem runs_statements_semicolons
    (semicolons : List (Lexeme Kind))
    (hsemicolons : ∀ l ∈ semicolons, l.kind = .semicolon)
    (h : c.rest = semicolons ++ [closing]) :
    statements.Runs cut c (semicolons.map fun _ => .unexpected .semicolon) fun _ c' =>
      c'.rest = [closing] := by
  induction semicolons generalizing c with
  | nil =>
      refine runs_repeatWhile_last ?_ h
      rw [statementInBlock_eq, h]
      rfl
  | cons l semicolons ih =>
      have hl : l.kind = .semicolon := hsemicolons l List.mem_cons_self
      have hgoes : goesOn c.rest = true := by
        rw [h, goesOn, List.cons_append, kindAt, List.getElem?_cons_zero, Option.map_some, hl]
        rfl
      refine runs_statements_turn (runs_statement_semicolon h hl) hgoes ?_ fun d hd =>
        ih (fun l hl => hsemicolons l (List.mem_cons_of_mem _ hl)) hd
      rw [c.left_eq, h]
      exact Nat.lt_succ_self _

/-- A block whose statements leave its brace is taken as a whole. -/
theorem runs_block
    {faults : List (Fault Kind)}
    {R : Prop}
    (h : c.rest = opening :: behind)
    (hstatements : ∀ d : Cursor Kind, d.rest = behind →
      statements.Runs cut d faults fun _ d' => R ∧ d'.rest = [closing]) :
    (block (level maxDepth)).Runs cut c faults fun _ c' => R ∧ c'.rest = [] := by
  refine runs_there (by rw [h]; rfl) ?_
  rw [if_pos rfl]
  refine (runs_node (P := fun _ c' => R ∧ c'.rest = []) ?_).discard
  refine (runs_expect h rfl).bind_quiet fun _ d hd => ?_
  rw [← List.append_nil faults]
  exact (hstatements d hd).bind fun _ e he =>
    (runs_expect he.2 rfl).mono fun _ _ hend => ⟨he.1, hend⟩

/-- A function without parameters has the faults of its statements. -/
theorem runs_function
    {faults : List (Fault Kind)}
    {R : Prop}
    (h : c.rest = signature ++ opening :: behind)
    (hstatements : ∀ d : Cursor Kind, d.rest = behind →
      statements.Runs cut d faults fun _ d' => R ∧ d'.rest = [closing]) :
    (containerMember (level maxDepth)).Runs cut c faults fun _ c' => R ∧ c'.rest = [] := by
  have hfirst : kindAt 0 c.rest = .fnKw := by
    rw [h]
    rfl
  have hmissing : ∀ kind : Kind, kind ≠ .fnKw → (eat kind : Parser Kind Bool) c = ⟨false, c, []⟩ :=
    fun kind hkind => eat_of_ne (by rw [hfirst]; exact hkind.symm)
  have hlinkage : (linkage : Parser Kind Unit) c = ⟨(), c, []⟩ := by
    rw [linkage, bind_of_eq (peek_kindAt c), hfirst]
    rfl
  have hkinds : (Site.mk c [] [] 0).kinds =
      signature.map Lexeme.kind ++ ([Kind.leftBrace] ++ behind.map Lexeme.kind) := by
    rw [Site.kinds, Cursor.kinds, h, List.map_append]
    rfl
  refine Runs.of_eq ?_ (by rw [containerMember_eq, hfirst, memberFrom])
  refine (runs_nodeOf (P := fun _ c' => R ∧ c'.rest = []) ?_).discard
  refine runs_look_bind ((bind_of_eq (hmissing .pubKw (by decide))).trans rfl) ?_
  refine runs_look_bind (hmissing .usingnamespaceKw (by decide)) ?_
  refine runs_look_bind hlinkage ?_
  refine runs_there hfirst ?_
  rw [if_pos rfl]
  have hproto : (fnProto (level maxDepth)).Runs cut c [] fun _ d => d.rest = opening :: behind :=
    runs_of_adds (steadyFrom_fnProto (steady_level maxDepth)).steady.forward
      (ends_fnProto_signature hkinds) h rfl
  refine hproto.bind_quiet fun _ d hd => ?_
  refine runs_there (by rw [hd]; rfl) ?_
  rw [if_pos rfl, ← List.append_nil faults]
  exact (runs_block hd hstatements).bind fun _ e he => runs_pure he

/-- A file with one function without parameters has the faults of its statements. -/
theorem runs_members
    {faults : List (Fault Kind)}
    {R : Prop}
    (h : c.rest = signature ++ opening :: behind)
    (hstatements : ∀ d : Cursor Kind, d.rest = behind →
      statements.Runs cut d faults fun _ d' => R ∧ d'.rest = [closing]) :
    members.Runs cut c faults fun _ _ => R := by
  have hless : ∀ c' : Cursor Kind, R ∧ c'.rest = [] → c'.left < c.left := by
    rintro c' ⟨-, hend⟩
    rw [c'.left_eq, c.left_eq, hend, h]
    exact Nat.succ_pos _
  have hturn : (memberInContainer (level maxDepth) false).Runs cut c faults fun again c' =>
      again = true ∧ c'.left < c.left ∧ R ∧ c'.rest = [] := by
    refine Runs.of_eq
      (runs_moves_or_bump .expectedDeclaration (runs_function h hstatements) hless) ?_
    rw [memberInContainer_eq, h]
    rfl
  rw [← List.append_nil faults]
  refine runs_repeatWhile_turn hturn fun d hd => runs_repeatWhile_last ?_ hd.1
  rw [memberInContainer_eq, hd.2]
  rfl

end Guard

section First

variable {depth : Nat} {inner : Level} {c : Cursor Kind} {p : NodeParser}

/-- Whether no node is found from a cursor. -/
def Fails (c : Cursor Kind) (p : NodeParser) : Prop := (p c).value = none

theorem Fails.bind
    {f : Option Kind → NodeParser}
    (hp : Fails c p)
    (hf : f none = pure none) :
    Fails c (p >>= f) := by
  have hvalue : (p c).value = none := hp
  change (f (p c).value (p c).cursor).value = none
  rw [hvalue, hf]
  rfl

theorem fails_peek_bind
    {f : Kind → NodeParser}
    (hf : Fails c (f (kindAt 0 c.rest))) :
    Fails c (peek >>= f) :=
  hf

theorem fails_nth_bind
    {n : Nat}
    {f : Kind → NodeParser}
    (hf : ∀ kind, Fails c (f kind)) :
    Fails c (nth n >>= f) :=
  hf _

theorem fails_level_zero :
    Fails c (level 0).expr ∧ Fails c (level 0).operand ∧ Fails c (level 0).type :=
  ⟨rfl, rfl, rfl⟩

variable (h : exprFirst.contains (kindAt 0 c.rest) = false)
include h

theorem fails_primaryType : Fails c (primaryType inner) := by
  refine fails_peek_bind (fails_nth_bind fun next => ?_)
  generalize kindAt 0 c.rest = kind at h
  split
  all_goals first | exact absurd h (by decide) | exact rfl

theorem fails_type : Fails c (level depth).type := by
  cases depth with
  | zero => exact fails_level_zero.2.2
  | succ depth =>
      have hsuffix : Fails c (suffixExpr (level depth)) := (fails_primaryType h).bind rfl
      have hunion : Fails c (errorUnion (level depth)) := hsuffix.bind rfl
      refine fails_peek_bind (fails_nth_bind fun next => ?_)
      generalize kindAt 0 c.rest = kind at h
      split
      all_goals first | exact absurd h (by decide) | exact hunion

variable (hbrace : kindAt 0 c.rest ≠ .leftBrace)
include hbrace

theorem fails_primaryExpr : Fails c (primaryExpr (level depth)) := by
  have hlabel : labelAhead c.rest = false := by
    have hkind : kindAt 0 c.rest ≠ .identifier := by
      intro hkind
      rw [hkind] at h
      exact absurd h (by decide)
    simp [labelAhead, hkind]
  have htype : Fails c (curlySuffix (level depth)) := (fails_type h).bind rfl
  suffices hmatch : Fails c (peek >>= _) by
    rwa [primaryExpr, Fails, routine_eq, bind_of_eq (atLabeled_eq c), hlabel]
  refine fails_peek_bind ?_
  generalize kindAt 0 c.rest = kind at h hbrace
  split
  all_goals first | exact absurd h (by decide) | exact absurd rfl hbrace | exact htype

theorem fails_operand : Fails c (level depth).operand := by
  cases depth with
  | zero => exact fails_level_zero.2.1
  | succ depth =>
      have hprimary : Fails c (primaryExpr (level depth)) := fails_primaryExpr h hbrace
      refine fails_peek_bind ?_
      generalize kindAt 0 c.rest = kind at h
      split
      all_goals first | exact absurd h (by decide) | exact hprimary

/-- Only the first lexemes of expressions and the brace of a block start an expression. -/
theorem fails_expr : Fails c (level depth).expr := by
  cases depth with
  | zero => exact fails_level_zero.1
  | succ depth =>
      change Fails c (binaryExpr (level depth) 1)
      rw [binaryExpr]
      exact (fails_operand h hbrace).bind rfl

end First

/-! ## Guarded bodies -/

/-- The faults of a statement with a guard in front.  Behind a brace the semicolon ends
nothing. -/
def guardFaults (ls : List (Lexeme Kind)) : List (Fault Kind) :=
  if [.rightBrace, .semicolon] <:+ ls.map Lexeme.kind then [.unexpected .semicolon] else []

/-- A semicolon is left over exactly if a brace stands in front of it. -/
theorem guardFaults_eq
    {es semicolons : List (Lexeme Kind)}
    {z : Lexeme Kind}
    (hz : es.getLast? = some z)
    (hends : EndsBehind z.kind semicolons) :
    guardFaults (es ++ semicolons) =
      (leftOver z.kind semicolons).map fun _ => .unexpected .semicolon := by
  obtain ⟨front, rfl⟩ := List.getLast?_eq_some_iff.mp hz
  rw [leftOver]
  rcases hends with ⟨rfl, hbrace⟩ | ⟨l, rfl, hl⟩
  · rw [guardFaults, if_neg, if_pos hbrace, List.map_nil]
    rintro ⟨kinds, hkinds⟩
    have hlast := congrArg List.getLast? hkinds
    simp [hbrace] at hlast
  · have hsuffix : [.rightBrace, .semicolon] <:+ (front ++ [z] ++ [l]).map Lexeme.kind ↔
        z.kind = .rightBrace := by
      rw [List.append_assoc, List.map_append]
      constructor
      · rintro ⟨kinds, hkinds⟩
        exact (List.cons.inj (List.append_inj' hkinds rfl).2).1.symm
      · rintro hbrace
        exact ⟨front.map Lexeme.kind, by simp [hbrace, hl]⟩
    rw [guardFaults]
    by_cases hbrace : z.kind = .rightBrace
    · rw [if_pos (hsuffix.mpr hbrace), if_pos hbrace, List.map_singleton]
    · rw [if_neg (mt hsuffix.mp hbrace), if_neg hbrace, List.map_nil]

section Expressions

variable {es behind : List (Lexeme Kind)}

/-- An expression does not start with a bar. -/
theorem IsExpression.kindAt_ne_pipe (h : IsExpression es behind) :
    kindAt 0 (es ++ behind) ≠ .pipe := by
  intro hpipe
  obtain ⟨kind, hfound, -⟩ := h.run (.ofList (es ++ behind)) rfl
  have hfails : Fails (.ofList (es ++ behind)) (assignExpr (level maxDepth)) :=
    (fails_expr (by rw [Cursor.ofList, hpipe]; decide)
      (by rw [Cursor.ofList, hpipe]; decide)).bind rfl
  exact absurd (hfound.symm.trans hfails) (Option.some_ne_none kind)

/-- An expression is one two levels further in, where a guard has it, unless something is
nested too deep then. -/
theorem IsExpression.runs_branch
    {z : Lexeme Kind}
    {d : Cursor Kind}
    (h : IsExpression es behind)
    (hz : es.getLast? = some z)
    (hd : d.rest = es ++ behind) :
    (assignExpr (level 254)).Runs True d [] fun _ d' =>
      d'.rest = behind ∧ d'.prev = some z.kind := by
  have hlevels : Within (assignExpr (level 254)) (assignExpr (level maxDepth)) :=
    related_assignExpr (congruence_within (by decide)) (within_level 254 2)
  obtain ⟨kind, -, htakes, hquiet⟩ := h.run d hd
  have hruns := hlevels.runs d
  rw [hquiet] at hruns
  refine hruns.mono ?_
  rintro _ _ ⟨-, rfl⟩
  have hprev := htakes.prev
  rw [hz] at hprev
  exact ⟨List.append_cancel_left (htakes.rest.symm.trans hd), hprev⟩

end Expressions

theorem runs_statements_guarded
    {c : Cursor Kind}
    {ls : List (Lexeme Kind)}
    (h : IsStatement ls)
    (hc : c.rest = guardLexemes ++ (ls ++ [closing])) :
    statements.Runs True c (guardFaults ls) fun _ c' => c'.rest = [closing] := by
  obtain ⟨es, semicolons, z, rfl, hexpr, hz, hends⟩ := h
  replace hends : EndsBehind z.kind semicolons := hends
  rw [List.append_assoc] at hc
  have hstop := hends.kindAt_mem
  have hbranch : ∀ d : Cursor Kind, d.rest = es ++ (semicolons ++ [closing]) →
      (assignExpr (level (251 + 3))).Runs True d [] fun _ d' =>
        (d'.rest = semicolons ++ [closing] ∧ d'.prev = some z.kind) ∧
          kindAt 0 d'.rest ≠ .elseKw := fun d hd =>
    (hexpr.runs_branch hz hd).mono fun _ d' hend =>
      ⟨hend, fun helse => absurd (helse ▸ hend.1 ▸ hstop) (by decide)⟩
  have hassign : (assignExpr (level maxDepth)).Runs True c [] fun found c' => found = some .ifExpr ∧
      c'.rest = semicolons ++ [closing] ∧ c'.prev = some z.kind :=
    runs_assignExpr_guarded hc (runs_ifExpr hc hexpr.kindAt_ne_pipe hbranch) fun _ hend => by
      rw [hend.1]
      exact hstop
  have hbody := runs_statementBody_guarded hassign hends
  have hstatement : statement (level maxDepth) c =
      (discard (node .exprStmt (statementBody (level maxDepth))) : Parser Kind Unit) c := by
    rw [statement, routine_eq, bind_of_eq (peek_kindAt c), bind_of_eq (nth_kindAt 1 c), hc]
    rfl
  rw [guardFaults_eq hz hends]
  have hsublist := leftOver_sublist z.kind semicolons
  refine runs_statements_turn ((runs_node hbody).discard.of_eq hstatement) (by rw [hc]; rfl) ?_
    fun d hd => runs_statements_semicolons _
      (fun l hl => hends.kind_eq l (hsublist.subset hl)) hd
  have hlength := hsublist.length_le
  rw [c.left_eq, hc]
  simp only [List.length_append, guardLexemes, List.length_cons]
  omega

/-! ### The text of a guard -/

/-- A guard as a text. -/
def guardText : Text := "if (c) ".toList

/-- A blank in front is no token. -/
theorem tokensOf_lex_blank
    {c : Char}
    (hc : Scan.isBlank c = true)
    (t : Text) :
    tokensOf (lex (c :: t)) = tokensOf (lex t) := by
  rw [tokensOf, tokensOf, ← map_toLexeme_places 0, places_lex_blank 0 hc, map_toLexeme_places]

/-- The tokens of a text are the first lexeme and those of the rest. -/
theorem tokensOf_lex_of_read
    {c : Char}
    {t : Text}
    {l : Lexeme Kind}
    {rest : Text}
    (hl : ⟨(read c t).kind, c :: (read c t).cut.taken⟩ = l)
    (htrivia : Vocabulary.isTrivia l.kind = false)
    (hrest : (read c t).cut.rest = rest) :
    tokensOf (lex (c :: t)) = l :: tokensOf (lex rest) := by
  rw [lex_cons, tokensOf_cons, hl, hrest, significantLexemes, List.filter_cons_of_pos]
  · rfl
  · rw [htrivia]
    rfl

theorem tokensOf_lex_guarded (body : Text) :
    tokensOf (lex (guardText ++ body)) = guardLexemes ++ tokensOf (lex body) := by
  have hif : tokensOf (lex (guardText ++ body)) = ⟨.ifKw, "if".toList⟩ ::
      tokensOf (lex (' ' :: '(' :: 'c' :: ')' :: ' ' :: body)) := tokensOf_lex_of_read rfl rfl rfl
  have hopen : tokensOf (lex ('(' :: 'c' :: ')' :: ' ' :: body)) = ⟨.leftParen, ['(']⟩ ::
      tokensOf (lex ('c' :: ')' :: ' ' :: body)) := tokensOf_lex_of_read rfl rfl rfl
  have hname : tokensOf (lex ('c' :: ')' :: ' ' :: body)) = ⟨.identifier, ['c']⟩ ::
      tokensOf (lex (')' :: ' ' :: body)) := tokensOf_lex_of_read rfl rfl rfl
  have hclose : tokensOf (lex (')' :: ' ' :: body)) = ⟨.rightParen, [')']⟩ ::
      tokensOf (lex (' ' :: body)) := tokensOf_lex_of_read rfl rfl rfl
  rw [hif, tokensOf_lex_blank rfl, hopen, hname, hclose, tokensOf_lex_blank rfl]
  rfl

/-! ### Whole files -/

/-- The messages of a file are those of the faults that its members have. -/
theorem exists_parse_messages (text : Text) :
    ∃ p, parse? text = some p ∧
      p.diagnostics.map Diagnostic.message =
        (Trace.faults (members (.ofList (tokensOf (lex text)))).trace).map Fault.message := by
  obtain ⟨children, reports, htakes, hend, hleads⟩ := exists_leads_members (tokensOf (lex text))
  obtain ⟨p, hp, -, -, hdiagnostics, -⟩ := exists_parse_of_leads rfl rfl hleads
  refine ⟨p, hp, ?_⟩
  have hadvances := Growth.length_ahead_run (hleads.run none [])
  have htokens := length_tokensWith read text
  have hseen : (significant (tokensWith read text)).length = (tokensOf (lex text)).length := by
    rw [significant_tokensWith]
    rfl
  have hstart : (Site.mk (.ofList (tokensOf (lex text))) [] [] 0).ahead.length =
      (tokensOf (lex text)).length := by
    simp [Site.ahead, Site.kinds, Cursor.kinds, Cursor.ofList]
  rw [hdiagnostics, Trace.map_message_errors]
  dsimp only at hadvances
  omega

/-- A file that is one function has the messages of the faults of its statements, unless
these are cut short. -/
theorem exists_parse_of_runs
    {body : Text}
    {faults : List (Fault Kind)}
    {cut R : Prop}
    (hruns : ∀ c : Cursor Kind, c.rest = tokensOf (lex body) ++ [closing] →
      statements.Runs cut c faults fun _ c' => R ∧ c'.rest = [closing]) :
    ∃ q, parse? (inFunction body) = some q ∧
      ((cut ∧ ∃ front behind,
        q.diagnostics.map Diagnostic.message = front ++ "nesting too deep".toList :: behind ∧
        front <+: faults.map Fault.message) ∨
      q.diagnostics.map Diagnostic.message = faults.map Fault.message ∧ R) := by
  obtain ⟨q, hq, hmessages⟩ := exists_parse_messages (inFunction body)
  rw [tokensOf_lex_inFunction] at hmessages
  refine ⟨q, hq, ?_⟩
  rw [hmessages]
  have hmembers := runs_members (c := .ofList (signature ++ opening ::
    (tokensOf (lex body) ++ [closing]))) rfl hruns
  refine hmembers.imp ?_ fun ⟨hfaults, hR⟩ => ⟨by rw [hfaults], hR⟩
  rintro ⟨hcut, front, behind, hfound, hfront⟩
  exact ⟨hcut, front.map Fault.message, behind.map Fault.message, by rw [hfound]; simp; rfl,
    hfront.map _⟩

/-- What is reported of a statement with a guard in front, unless something is nested too
deep: a semicolon behind a brace. -/
def guardMessages (text : Text) : List Text :=
  if [.rightBrace, .semicolon] <:+ (tokensOf (lex text)).map Lexeme.kind then
    ["unexpected `;`".toList]
  else []

theorem map_message_guardFaults (text : Text) :
    (guardFaults (tokensOf (lex text))).map Fault.message = guardMessages text := by
  rw [guardFaults, guardMessages]
  split
  · exact congrArg (fun message => [message]) (by decide +kernel)
  · rfl

/-- A file that is one function with one statement, which is for an expression, has a body
with one. -/
theorem Fills.exists_single
    {body : Text}
    {children : List (Shape Kind Kind)}
    {p : Parse Kind}
    (h : Fills (tokensOf (lex body)) children)
    (hp : parse? (inFunction body) = some p)
    (hstatement : (bodyStatements p.root.node).map (fun n => n.kind) = [.exprStmt]) :
    ∃ below, children.reverse.filter Zig.isStatement = [.node .exprStmt below] := by
  obtain ⟨p', hp', hlexemes, houtline, -⟩ := h.exists_parse_inFunction
  obtain rfl : p = p' := Option.some.inj (hp.symm.trans hp')
  obtain ⟨-, shapes, hshapes, -, hstatements⟩ := exists_statements houtline hlexemes
  obtain ⟨n, hn, hkind⟩ := List.map_eq_singleton_iff.mp hstatement
  have hmap :
      (Zig.isStatement ∘ Shape.map Lexeme.kind : Shape (Lexeme Kind) Kind → Bool) =
        Zig.isStatement := by
    funext shape
    cases shape <;> rfl
  refine ⟨(Tree.bares n.children).map (Shape.map Lexeme.kind), ?_⟩
  rw [← hshapes, List.filter_map, hmap, ← hstatements, hn, List.map_singleton, List.map_singleton,
    Node.bare, Shape.map_node, hkind]

/-- **Guarded statements.**  If a text with a semicolon behind it is the body of a function
of which nothing is reported, and the only statement in it is for an expression, then with
a guard in front of it nothing is reported but a semicolon behind a brace, unless something
is nested too deep. -/
theorem exists_parse_guarded
    {text : Text}
    {p : Parse Kind}
    (hp : parse? (inFunction (text ++ [';'])) = some p)
    (hquiet : p.diagnostics = [])
    (hone : p.root.node.childNodes.map (fun n => n.kind) = [.fnDecl])
    (hstatement : (bodyStatements p.root.node).map (fun n => n.kind) = [.exprStmt]) :
    ∃ q, parse? (inFunction ("if (c) ".toList ++ text ++ [';'])) = some q ∧
      (q.diagnostics.map Diagnostic.message = guardMessages (text ++ [';']) ∨
        ∃ front behind,
          q.diagnostics.map Diagnostic.message = front ++ "nesting too deep".toList :: behind ∧
          front <+: guardMessages (text ++ [';'])) := by
  obtain ⟨children, hfills⟩ := exists_fills hp hquiet hone
  obtain ⟨below, hsingle⟩ := hfills.exists_single hp hstatement
  have htokens : tokensOf (lex ("if (c) ".toList ++ text ++ [';'])) =
      guardLexemes ++ tokensOf (lex (text ++ [';'])) := by
    rw [List.append_assoc]
    exact tokensOf_lex_guarded _
  obtain ⟨q, hq, hmessages⟩ := @exists_parse_of_runs ("if (c) ".toList ++ text ++ [';'])
    (guardFaults (tokensOf (lex (text ++ [';'])))) True True fun c hc => by
      rw [htokens, List.append_assoc] at hc
      exact (runs_statements_guarded (hfills.isStatement hsingle) hc).mono
        fun _ _ hrest => ⟨trivial, hrest⟩
  rw [map_message_guardFaults] at hmessages
  exact ⟨q, hq, hmessages.symm.imp And.left And.right⟩

/-- A semicolon is left over behind an initializer in braces. -/
theorem exists_parse_guarded_initializer :
    ∃ p q,
      parse? (inFunction "x = T\x7b\x7d;".toList) = some p ∧
      p.diagnostics = [] ∧
      p.root.node.childNodes.map (fun n => n.kind) = [.fnDecl] ∧
      (bodyStatements p.root.node).map (fun n => n.kind) = [.exprStmt] ∧
      parse? (inFunction "if (c) x = T\x7b\x7d;".toList) = some q ∧
      q.diagnostics.map Diagnostic.message = ["unexpected `;`".toList] := by
  have hsome : (parse? (inFunction "x = T\x7b\x7d;".toList)).any (fun p =>
      p.diagnostics == [] && p.root.node.childNodes.map (fun n => n.kind) == [.fnDecl] &&
        (bodyStatements p.root.node).map (fun n => n.kind) == [.exprStmt]) = true := by
    decide +kernel
  rw [Option.any_eq_true] at hsome
  obtain ⟨p, hp, hgood⟩ := hsome
  simp only [Bool.and_eq_true, beq_iff_eq] at hgood
  obtain ⟨⟨hquiet, hone⟩, hstatement⟩ := hgood
  have hguarded : (parse? (inFunction "if (c) x = T\x7b\x7d;".toList)).all (fun q =>
      "nesting too deep".toList ∉ q.diagnostics.map Diagnostic.message) = true := by
    decide +kernel
  obtain ⟨q, hq, hmessages⟩ :=
    @exists_parse_guarded "x = T\x7b\x7d".toList _ hp hquiet hone hstatement
  have hextra : guardMessages "x = T\x7b\x7d;".toList = ["unexpected `;`".toList] := by
    decide +kernel
  refine ⟨p, q, hp, hquiet, hone, hstatement, hq, ?_⟩
  rcases hmessages with hmessages | ⟨front, behind, hmessages, -⟩
  · exact hmessages.trans hextra
  · rw [show parse? (inFunction "if (c) x = T\x7b\x7d;".toList) = some q from hq, Option.all_some,
      hmessages] at hguarded
    simp at hguarded

end Zig
end ZigCst
