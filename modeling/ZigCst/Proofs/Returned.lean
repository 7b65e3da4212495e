import ZigCst.Proofs.Guarded

/-!
# Values that are returned

What may be assigned may also be returned, unless it starts with the brace of a block: a
`return` takes an operand only in front of certain lexemes, and the brace is none of them.
The operand of a `return` is nested two levels deeper than the right side of an assignment.
So the statement is read with two more levels first, where it goes as it should; read as it
is, it either does the same or is cut short.

**Definitions.**
* `IsValue`: whether lexemes are read as an expression of some shape, without a report.
* `BlockOrOperation`: what an expression that starts with a brace turns out to be.
* `assigned`, `returned`: the statements that assign a value to nothing or return it.

**Results.**
* `exists_isValue`: the right side of an assignment is an expression.
* `ends_statements_returned`: a `return` in front of an expression, with two more levels.
* `statements_returned`: a `return` in front of an expression, with the levels there are.
* `runs_statements_unreturned`: a `return` in front of a block.
* `exists_parse_returned`: values that are returned in all texts.
-/

namespace ZigCst

/-- What is added around the node that was added last takes it in. -/
theorem Site.Adds.wrapped
    {K : Type}
    {s t u : Site K}
    {taken taken' : List K}
    {inner kind : K}
    {below new : List (Shape K K)}
    (h : s.Adds taken [.node inner below] t)
    (h' : t.opened.Adds taken' new u) :
    s.Adds (taken ++ taken') [.node kind (.node inner below :: new)]
      (u.wrapped (.node inner below) s.children kind) where
  kinds := by
    have hopened : t.kinds = taken' ++ u.kinds := h'.kinds
    rw [h.kinds, hopened, List.append_assoc]
    rfl
  behind := h'.behind.trans h.behind
  children := by
    have hchildren : u.children = new.reverse ++ [] := h'.children
    rw [Site.wrapped, hchildren, List.append_nil, List.reverse_reverse]
    rfl
  reports := h'.reports.trans h.reports

namespace Zig

open ZigCst.Parser

/-! ## Expressions without reports -/

/-- Whether lexemes in front of others are read as an expression of some kind and shape,
wherever they stand, and nothing is reported. -/
structure IsValue
    (es behind : List (Lexeme Kind))
    (kind : Kind)
    (shape : Shape Kind Kind) : Prop where
  ends : ∀ s : Site Kind, s.cursor.rest = es ++ behind →
    (level maxDepth).expr.Ends s fun found t =>
      found = some kind ∧ s.cursor.Takes es t.cursor ∧ s.Adds (es.map Lexeme.kind) [shape] t

/-- What is read without a report in one place is read in all. -/
theorem isValue_of_takes
    {c : Cursor Kind}
    {es behind : List (Lexeme Kind)}
    (hc : c.rest = es ++ behind)
    (htakes : c.Takes es ((level maxDepth).expr c).cursor)
    (hquiet : Trace.reports ((level maxDepth).expr c).trace = 0) :
    ∃ kind inner below, IsValue es behind kind (.node inner below) := by
  have hresolves := (steady_level maxDepth).expr
  cases hfound : ((level maxDepth).expr c).value with
  | none => exact absurd hquiet (hresolves.reports c hfound)
  | some kind =>
      obtain ⟨⟨cursor, above, children, reports⟩, hcursor, hleads, hplants⟩ :=
        (sound_level maxDepth).expr ⟨c, [], [], 0⟩
      obtain ⟨inner, below, hchildren⟩ := hplants.children
      obtain rfl : cursor = ((level maxDepth).expr c).cursor := hcursor
      obtain rfl : above = [] := hplants.behind
      obtain rfl : children = [.node inner below] := hchildren
      have hreports : reports = 0 + Trace.reports ((level maxDepth).expr c).trace := hleads.reports
      obtain rfl : reports = 0 := by omega
      refine ⟨kind, inner, below, ⟨fun s hs => ?_⟩⟩
      have hrest : ((level maxDepth).expr c).cursor.rest = behind :=
        List.append_cancel_left (htakes.rest.symm.trans hc)
      have hstep := hresolves.steady.inStep htakes hs (.inl hrest)
      have hover := (hleads.exchange htakes hstep.takes s.behind).over s.children
      refine ⟨⟨((level maxDepth).expr s.cursor).cursor, s.behind, .node inner below :: s.children,
        s.reports⟩, rfl, ⟨?_, ?_⟩, hstep.value.trans hfound, hstep.takes, ?_, rfl, rfl, rfl⟩
      · rw [hstep.trace]
        exact hover.run
      · rw [hstep.trace, hquiet]
        rfl
      · rw [Site.kinds, Cursor.kinds, hstep.takes.rest, List.map_append]
        rfl

/-! ## Bodies of one statement -/

section Statement

variable {inner : Level} {s : Site Kind} {kind : Kind} {kinds more : List Kind}

/-- An expression that is not like a block ends with its semicolon. -/
theorem ends_statementBody_semicolon
    {shape : Shape Kind Kind}
    (hkinds : s.kinds = kinds ++ .semicolon :: more)
    (hkind : isBlockLike kind = false)
    (h : (assignExpr inner).Ends s fun found t => found = some kind ∧ s.Adds kinds [shape] t) :
    (statementBody inner).Ends s fun _ t =>
      s.Adds (kinds ++ [.semicolon]) [shape, .leaf .semicolon] t := by
  refine h.bind ?_
  rintro _ t ⟨rfl, ht⟩
  have hprev : (prev? : Parser Kind (Option Kind)) t.cursor =
      ⟨t.cursor.prev, t.cursor, []⟩ := rfl
  refine (ends_bind_of_eq hprev).mpr ?_
  rw [hkind]
  exact (ends_expect_adds (ht.kinds_eq hkinds)).mono fun _ _ hu => ht.trans hu

/-- A statement for an expression in front of a closing brace is the only one. -/
theorem ends_statements_single
    {new : List (Shape Kind Kind)}
    (hkinds : s.kinds = kinds ++ [.rightBrace])
    (hfirst : s.peek ∈ [Kind.identifier, .returnKw])
    (h : (statementBody inner).Ends s.opened fun _ t => s.opened.Adds kinds new t) :
    (repeatWhile (statementInBlock inner)).Ends s fun _ t =>
      s.Adds kinds [.node .exprStmt new] t := by
  have hne : kinds ≠ [] := by
    rintro rfl
    rw [Site.peek_eq hkinds] at hfirst
    exact absurd hfirst (by decide)
  have hstatement : (statement inner).Ends s fun _ t => s.Adds kinds [.node .exprStmt new] t := by
    have hnode := ends_node_adds (by decide : Kind.exprStmt ≠ .tombstone) h
    simp only [List.mem_cons, List.not_mem_nil, or_false] at hfirst
    rw [statement, routine_eq, ends_peek_bind, ends_nth_bind]
    rcases hfirst with hpeek | hpeek <;> rw [hpeek] <;> exact hnode
  have hnext : (s.peek == .rightBrace || s.kinds.isEmpty) = false := by
    have hbrace : s.peek ≠ .rightBrace := fun hpeek => by
      rw [hpeek] at hfirst
      exact absurd hfirst (by decide)
    simp [hbrace, hkinds, hne]
  have hturn : (statementInBlock inner).Ends s fun again t =>
      again = true ∧ s.Adds kinds [.node .exprStmt new] t := by
    rw [statementInBlock, ends_at_bind, ends_atEnd_bind, hnext]
    refine Ends.bind (P := fun moved t => moved = true ∧ s.Adds kinds [.node .exprStmt new] t) ?_ ?_
    · exact ends_moves (hstatement.mono fun _ t ht => ⟨decide_eq_true (ht.left_lt hne), ht⟩)
    · rintro _ t ⟨rfl, ht⟩
      exact ends_pure ⟨rfl, ht⟩
  refine ends_iterate (hturn.bind ?_)
  rintro _ t ⟨rfl, ht⟩
  refine ends_pure ⟨fun _ => ⟨ht.left_lt hne, ends_iterate ?_⟩, by simp⟩
  have hlast : (statementInBlock inner).Ends t fun again u => again = false ∧ u = t := by
    rw [statementInBlock, ends_at_bind, ends_atEnd_bind, Site.peek_eq (ht.kinds_eq hkinds)]
    exact ends_pure ⟨rfl, rfl⟩
  refine hlast.bind ?_
  rintro _ _ ⟨rfl, rfl⟩
  exact ends_pure ⟨by simp, fun _ => ht⟩

end Statement

/-- One statement that is added without a report fills a block. -/
theorem fills_of_adds
    {c : Cursor Kind}
    {ls : List (Lexeme Kind)}
    {shape : Shape Kind Kind}
    (hc : c.rest = ls ++ [closing])
    (h : statements.Ends ⟨c, [], [], 0⟩ fun _ t =>
      Site.Adds ⟨c, [], [], 0⟩ (ls.map Lexeme.kind) [shape] t) :
    Fills ls [shape] := by
  obtain ⟨⟨cursor, behind, children, reports⟩, hcursor, hleads, hadds, taken, htaken⟩ :=
    h.takes steady_statements.forward
  obtain rfl : cursor = (statements c).cursor := hcursor
  obtain rfl : behind = [] := hadds.behind
  obtain rfl : children = [shape] := hadds.children
  obtain rfl : reports = 0 := hadds.reports
  have hrest : (statements c).cursor.rest = [closing] := hadds.rest_eq htaken hc (by simp)
  obtain rfl : taken = ls := by
    have hall := htaken.rest.symm.trans hc
    rw [hrest] at hall
    exact List.append_cancel_right hall
  exact fills_of_yields hc htaken hleads

/-- Statements that fill a block have no faults. -/
theorem runs_of_fills
    {cut : Prop}
    {c : Cursor Kind}
    {ls : List (Lexeme Kind)}
    {children : List (Shape Kind Kind)}
    (h : Fills ls children)
    (hc : c.rest = ls ++ [closing]) :
    statements.Runs cut c [] fun _ c' => c'.rest = [closing] := by
  obtain ⟨htakes, hyields⟩ := h c hc
  have hreports : 0 = 0 + Trace.reports (statements c).trace := hyields.reports
  exact .inr ⟨(Trace.faults_eq_nil_iff _).mpr (by omega),
    List.append_cancel_left (htakes.rest.symm.trans hc)⟩

/-! ## Assignments -/

/-- The lexemes of `_ =`. -/
def assignLexemes : List (Lexeme Kind) := [⟨.identifier, ['_']⟩, ⟨.eq, ['=']⟩]

section Assigned

variable {s : Site Kind} {ls : List (Lexeme Kind)}

/-- In front of the right side of an assignment stands a name. -/
theorem ends_expr_underscore
    (h : s.cursor.rest = assignLexemes ++ ls) :
    (level maxDepth).expr.Ends s fun found t =>
      found = some .ident ∧ s.Adds [.identifier] [.node .ident [.leaf .identifier]] t ∧
        t.cursor.rest = ⟨.eq, ['=']⟩ :: ls := by
  have hkinds : s.kinds = .identifier :: .eq :: ls.map Lexeme.kind := by
    rw [Site.kinds, Cursor.kinds, h]
    rfl
  have hname : (level (253 + 3)).expr.Ends s fun found t =>
      found = some .ident ∧ s.Adds [.identifier] [.node .ident [.leaf .identifier]] t :=
    ends_expr_name hkinds rfl (by decide)
  refine (hname.takes (steady_level maxDepth).expr.steady.forward).mono fun _ t ht => ?_
  obtain ⟨⟨hfound, hadds⟩, taken, htaken⟩ := ht
  have hlexemes : s.cursor.rest = [⟨.identifier, ['_']⟩] ++ ⟨.eq, ['=']⟩ :: ls := h
  exact ⟨hfound, hadds, hadds.rest_eq htaken hlexemes rfl⟩

/-- An assignment is what its right side is. -/
theorem ends_assignExpr_underscore
    {P : Site Kind → Prop}
    (h : s.cursor.rest = assignLexemes ++ ls)
    (hvalue : ∀ (t u : Site Kind), s.Adds [.identifier] [.node .ident [.leaf .identifier]] t →
      t.opened.Adds [.eq] [.leaf .eq] u → u.cursor.rest = ls →
      (level maxDepth).expr.Ends u fun _ v =>
        P (v.wrapped (.node .ident [.leaf .identifier]) s.children .assignExpr)) :
    (assignExpr (level maxDepth)).Ends s fun found t => found = some .assignExpr ∧ P t := by
  refine (ends_expr_underscore h).bind ?_
  rintro _ t ⟨rfl, ht, hrest⟩
  have hkinds : t.kinds = .eq :: ls.map Lexeme.kind := by
    rw [Site.kinds, Cursor.kinds, hrest]
    rfl
  have hopened : t.opened.kinds = .eq :: ls.map Lexeme.kind := hkinds
  have hassignment : t.peek.isAssignment = true := by
    rw [Site.peek_eq hkinds]
    rfl
  rw [ends_peek_bind, hassignment]
  refine Ends.bind (P := fun kind v => kind = .assignExpr ∧ P v) ?_ ?_
  · refine ends_wrapOf ht.children ?_
    refine Ends.bind (P := fun _ v =>
      P (v.wrapped (.node .ident [.leaf .identifier]) s.children .assignExpr)) ?_
      fun _ v hv => ends_pure ⟨by decide, rfl, hv⟩
    refine ends_advance_bind (ends_discard (hvalue t _ ht (.advanced hopened) ?_))
    have hnext : kindAt 0 t.opened.cursor.rest = .eq := by
      rw [Site.opened, hrest]
      rfl
    rw [advanced_of_kindAt hnext (by decide)]
    exact next_rest hrest
  · rintro _ v ⟨rfl, hv⟩
    exact ends_pure ⟨rfl, hv⟩

/-- The right side of an assignment with a semicolon is an expression. -/
theorem exists_isValue
    {c : Cursor Kind}
    (h : c.rest = assignLexemes ++ (ls ++ [closing]))
    (htakes : c.Takes (assignLexemes ++ ls) (statementBody (level maxDepth) c).cursor)
    (hquiet : Trace.reports (statementBody (level maxDepth) c).trace = 0) :
    ∃ es l kind inner below,
      ls = es ++ [l] ∧ l.kind = .semicolon ∧
        IsValue es [l, closing] kind (.node inner below) := by
  have hassign := ends_assignExpr_underscore (s := ⟨c, [], [], 0⟩) (P := fun t =>
    ∃ d : Cursor Kind, d.rest = ls ++ [closing] ∧ t.cursor = ((level maxDepth).expr d).cursor ∧
      t.reports = Trace.reports ((level maxDepth).expr d).trace) h (fun t u ht hu hrest => by
    obtain ⟨v, hcursor, hleads, -⟩ := (sound_level maxDepth).expr u
    refine ⟨v, hcursor, hleads, u.cursor, hrest, hcursor, hleads.reports.trans ?_⟩
    have hnone : u.reports = 0 := hu.reports.trans ht.reports
    omega)
  obtain ⟨t, hcursor, hleads, hfound, d, hd, hdcursor, hdreports⟩ := hassign
  have hreports : t.reports = 0 + Trace.reports (assignExpr (level maxDepth) c).trace :=
    hleads.reports
  have hend : (assignExpr (level maxDepth) c).cursor = ((level maxDepth).expr d).cursor :=
    hcursor.symm.trans hdcursor
  -- Behind the right side stands the semicolon, and behind that nothing is left.
  have hrun := statementBody_eq hfound
  dsimp only at hrun
  rw [if_neg (by simp [isBlockLike]), hend] at hrun
  rw [hrun, Trace.reports_append] at hquiet
  obtain ⟨l, more, hrest, hl⟩ :=
    exists_rest_of_expect (by decide) (Nat.add_eq_zero_iff.mp hquiet).2
  rw [hrun, expect_of_cons hrest hl] at htakes
  have hmore : more = [closing] := by
    have hleft := htakes.rest
    rw [h, ← List.append_assoc] at hleft
    exact (next_rest hrest).symm.trans (List.append_cancel_left hleft).symm
  obtain ⟨es, hes⟩ := (steady_level maxDepth).expr.steady.forward d
  rw [hmore] at hrest
  have hall : ls ++ [closing] = es ++ [l] ++ [closing] := by
    rw [← hd, hes.rest, hrest, List.append_assoc]
    rfl
  have hstart : d.rest = es ++ [l, closing] := hes.rest.trans (by rw [hrest])
  obtain ⟨kind, inner, below, hread⟩ := isValue_of_takes hstart hes (by omega)
  exact ⟨es, l, kind, inner, below, List.append_cancel_right hall, hl, hread⟩

variable {es behind : List (Lexeme Kind)} {kind : Kind} {shape : Shape Kind Kind}

/-- An assignment of an expression to nothing, as an outline. -/
def assignOutline (shape : Shape Kind Kind) : List (Shape Kind Kind) :=
  [.node .assignExpr [.node .ident [.leaf .identifier], .leaf .eq, shape], .leaf .semicolon]

/-- An expression with an assignment in front of it is the only statement. -/
theorem ends_statements_assigned
    {l : Lexeme Kind}
    (h : s.cursor.rest = assignLexemes ++ es ++ [l] ++ [closing])
    (hl : l.kind = .semicolon)
    (hread : IsValue es [l, closing] kind shape) :
    statements.Ends s fun _ t =>
      s.Adds ((assignLexemes ++ es ++ [l]).map Lexeme.kind)
        [.node .exprStmt (assignOutline shape)] t := by
  have hrest : s.opened.cursor.rest = assignLexemes ++ (es ++ [l, closing]) := by
    rw [Site.opened, h]
    simp
  have hassign : (assignExpr (level maxDepth)).Ends s.opened fun found t =>
      found = some .assignExpr ∧ s.opened.Adds ((assignLexemes ++ es).map Lexeme.kind)
        [.node .assignExpr [.node .ident [.leaf .identifier], .leaf .eq, shape]] t := by
    refine ends_assignExpr_underscore hrest fun t u ht hu hu' => ?_
    refine (hread.ends u hu').mono fun _ v hv => ?_
    rw [List.map_append]
    exact ht.wrapped (hu.trans hv.2.2)
  have hkinds : s.kinds = (assignLexemes ++ es ++ [l]).map Lexeme.kind ++ [.rightBrace] := by
    rw [Site.kinds, Cursor.kinds, h, List.map_append]
    rfl
  have hsemicolon : s.opened.kinds =
      (assignLexemes ++ es).map Lexeme.kind ++ .semicolon :: [.rightBrace] := by
    rw [Site.opened, Site.kinds, Cursor.kinds, h, ← hl]
    simp [closing]
  refine ends_statements_single hkinds ?_ ?_
  · rw [Site.peek_eq hkinds]
    decide
  · rw [List.map_append, List.map_singleton, hl]
    exact ends_statementBody_semicolon hsemicolon (by rfl) hassign

end Assigned

/-! ## Returns -/

/-- The lexeme of `return`. -/
def returning : Lexeme Kind := ⟨.returnKw, "return".toList⟩

/-- The return of an expression, as an outline. -/
def returnOutline (shape : Shape Kind Kind) : List (Shape Kind Kind) :=
  [.node .returnExpr [.leaf .returnKw, shape], .leaf .semicolon]

section Returned

variable
  {s : Site Kind}
  {es : List (Lexeme Kind)}
  {l : Lexeme Kind}
  {kind : Kind}
  {shape : Shape Kind Kind}
  (hread : IsValue es [l, closing] kind shape)
include hread

/-- What is read as an expression starts one, if it does not start a block. -/
theorem IsValue.starts
    (hbrace : kindAt 0 (es ++ [l, closing]) ≠ .leftBrace) :
    exprFirst.contains (kindAt 0 (es ++ [l, closing])) = true := by
  by_contra hfirst
  obtain ⟨t, -, -, hfound, -⟩ := hread.ends ⟨.ofList (es ++ [l, closing]), [], [], 0⟩ rfl
  have hfails : Fails (.ofList (es ++ [l, closing])) (level maxDepth).expr :=
    fails_expr (Bool.eq_false_iff.mpr hfirst) hbrace
  exact absurd (hfound.symm.trans hfails) (Option.some_ne_none kind)

variable (hl : l.kind = .semicolon)
include hl

omit hl in
/-- An expression behind a `return` is its operand. -/
theorem ends_returnExpr
    (h : s.cursor.rest = returning :: (es ++ [l, closing]))
    (hbrace : kindAt 0 (es ++ [l, closing]) ≠ .leftBrace) :
    (returnExpr (level maxDepth)).Ends s fun kind t =>
      kind = .returnExpr ∧ s.Adds ((returning :: es).map Lexeme.kind)
        [.node .returnExpr [.leaf .returnKw, shape]] t := by
  have hopened : s.opened.kinds = .returnKw :: (es ++ [l, closing]).map Lexeme.kind := by
    rw [Site.opened, Site.kinds, Cursor.kinds, h]
    rfl
  have hnext : kindAt 0 s.opened.cursor.rest = .returnKw := by
    rw [Site.opened, h]
    rfl
  have hadvanced : s.opened.advanced.cursor.rest = es ++ [l, closing] := by
    rw [advanced_of_kindAt hnext (by decide)]
    exact next_rest h
  refine ends_node (by decide) (ends_advance_bind ?_)
  rw [optionalExpr, ends_atAny_bind, peek_eq_kindAt, hadvanced, hread.starts hbrace]
  refine ends_discard ((hread.ends _ hadvanced).mono fun _ t ht => ⟨rfl, ?_⟩)
  exact ((Site.Adds.advanced hopened).trans ht.2.2).closed

/-- With two more levels, a `return` in front of an expression is an expression. -/
theorem ends_assignExpr_returned
    (h : s.cursor.rest = returning :: (es ++ [l, closing]))
    (hbrace : kindAt 0 (es ++ [l, closing]) ≠ .leftBrace) :
    (assignExpr (level (maxDepth + 2))).Ends s fun found t =>
      found = some .returnExpr ∧ s.Adds ((returning :: es).map Lexeme.kind)
        [.node .returnExpr [.leaf .returnKw, shape]] t := by
  have hkinds : s.kinds = (returning :: es).map Lexeme.kind ++ [.semicolon, .rightBrace] := by
    rw [Site.kinds, Cursor.kinds, h, ← hl]
    simp [closing, returning]
  have hpeek : s.peek = .returnKw := by
    rw [peek_eq_kindAt, h]
    rfl
  have hprimary : (primaryExpr (level maxDepth)).Ends s fun found t =>
      found = some .returnExpr ∧ s.Adds ((returning :: es).map Lexeme.kind)
        [.node .returnExpr [.leaf .returnKw, shape]] t := by
    have hlabel : (atLabeled : Parser Kind Bool) s.cursor = ⟨false, s.cursor, []⟩ := by
      rw [atLabeled_eq, h]
      rfl
    rw [primaryExpr, routine_eq, ends_bind_of_eq hlabel]
    change ((peek >>= fun kind => _) : NodeParser).Ends s _
    rw [ends_peek_bind, hpeek]
    refine (ends_returnExpr hread h hbrace).bind ?_
    rintro _ t ⟨rfl, ht⟩
    exact ends_pure ⟨rfl, ht⟩
  have hoperand : (level (maxDepth + 1)).operand.Ends s fun found t =>
      found = some .returnExpr ∧ s.Adds ((returning :: es).map Lexeme.kind)
        [.node .returnExpr [.leaf .returnKw, shape]] t ∧ goesOnExpr t.peek = false := by
    change (operandWith (level maxDepth)).Ends s _
    rw [operandWith, ends_peek_bind, hpeek]
    refine hprimary.mono fun _ t ht => ⟨ht.1, ht.2, ?_⟩
    rw [Site.peek_eq (ht.2.kinds_eq hkinds)]
    rfl
  refine (ends_expr_of_operand hoperand).bind ?_
  rintro _ t ⟨rfl, ht⟩
  rw [ends_peek_bind, Site.peek_eq (ht.kinds_eq hkinds)]
  exact ends_pure ⟨rfl, ht⟩

/-- With two more levels, a `return` in front of an expression is the only statement. -/
theorem ends_statements_returned
    (h : s.cursor.rest = returning :: (es ++ [l, closing]))
    (hbrace : kindAt 0 (es ++ [l, closing]) ≠ .leftBrace) :
    (repeatWhile (statementInBlock (level (maxDepth + 2)))).Ends s fun _ t =>
      s.Adds ((returning :: (es ++ [l])).map Lexeme.kind)
        [.node .exprStmt (returnOutline shape)] t := by
  have hkinds : s.kinds = (returning :: (es ++ [l])).map Lexeme.kind ++ [.rightBrace] := by
    rw [Site.kinds, Cursor.kinds, h]
    simp [closing]
  have hsemicolon : s.opened.kinds =
      (returning :: es).map Lexeme.kind ++ .semicolon :: [.rightBrace] := by
    rw [Site.opened, Site.kinds, Cursor.kinds, h, ← hl]
    simp [closing]
  refine ends_statements_single hkinds ?_ ?_
  · rw [Site.peek_eq hkinds]
    decide
  · rw [← List.cons_append, List.map_append, List.map_singleton, hl]
    exact ends_statementBody_semicolon hsemicolon (by rfl)
      (ends_assignExpr_returned hread hl h hbrace)

/-- A `return` in front of an expression is the only statement, unless it is cut short. -/
theorem statements_returned
    {c : Cursor Kind}
    (h : c.rest = returning :: (es ++ [l, closing]))
    (hbrace : kindAt 0 (es ++ [l, closing]) ≠ .leftBrace) :
    CutShort (Trace.faults (statements c).trace) [] ∨
      statements.Ends ⟨c, [], [], 0⟩ fun _ t =>
        Site.Adds ⟨c, [], [], 0⟩ ((returning :: (es ++ [l])).map Lexeme.kind)
          [.node .exprStmt (returnOutline shape)] t := by
  have hends := ends_statements_returned hread hl (s := ⟨c, [], [], 0⟩) h hbrace
  have hR : Congruence (· ∉ declarationKinds) (@Within Kind) := congruence_within (by decide)
  have hdecls := (within_level maxDepth 2).declarations (congruence_within trivial)
  have hwithin : Within statements (repeatWhile (statementInBlock (level (maxDepth + 2)))) :=
    hR.repeatWhile (related_statementInBlock hR hdecls.statement)
  obtain ⟨t, hcursor, hleads, hadds⟩ := hends
  have hquiet :
      Trace.faults (repeatWhile (statementInBlock (level (maxDepth + 2))) c).trace = [] := by
    have hreports := hleads.reports.symm.trans hadds.reports
    rw [Trace.faults_eq_nil_iff]
    dsimp only at hreports
    omega
  rw [← hquiet]
  refine (hwithin c).imp_right fun heq => ⟨t, ?_, ?_, hadds⟩
  · rw [heq]
    exact hcursor
  · rw [heq]
    exact hleads

end Returned

/-! ## Returns in front of blocks -/

section Blocks

variable {s : Site Kind}

/-- A block of which nothing is reported ends with a brace. -/
theorem ends_blockBody_brace
    {inner : Level}
    (h : inner.Sound) :
    (blockBody inner).Ends s fun _ t =>
      s.Grows t ∧ (t.reports = s.reports → t.cursor.prev = some .rightBrace) := by
  refine (sound_expect _ s).bind fun _ t ht => ?_
  refine (sound_repeatWhile (turns_statementInBlock h) t).bind fun _ u hu => ?_
  have hgrows := ht.trans hu
  refine ends_expect (fun hpeek => ⟨hgrows.trans u.grows_advanced, fun _ => ?_⟩)
    fun _ => ⟨hgrows.trans u.grows_faulted, fun hquiet => ?_⟩
  · rw [peek_eq_kindAt] at hpeek
    rw [advanced_of_kindAt hpeek (by decide)]
    cases hrest : u.cursor.rest with
    | nil =>
        rw [hrest] at hpeek
        exact absurd hpeek (by decide)
    | cons l rest =>
        rw [hrest] at hpeek
        rw [(Cursor.Takes.next hrest).prev]
        exact congrArg some hpeek
  · have hmore : s.reports ≤ u.reports := hgrows.reports
    exact absurd hquiet (Nat.ne_of_gt (Nat.lt_succ_of_le hmore))

/-- What an expression that starts with a block turns out to be: that block, with a brace
behind it if nothing was reported, or an operation around it. -/
def BlockOrOperation (s : Site Kind) (kind : Kind) (t : Site Kind) : Prop :=
  kind = .block ∧ (∃ below, t.children = .node .block below :: s.children) ∧
      (t.reports = s.reports → t.cursor.prev = some .rightBrace) ∨
    kind = .binaryExpr ∧ ∃ below, t.children = .node .binaryExpr below :: s.children

theorem BlockOrOperation.exists_node
    {kind : Kind}
    {t : Site Kind}
    (h : BlockOrOperation s kind t) :
    ∃ below, t.children = .node kind below :: s.children := by
  rcases h with ⟨rfl, hnode, -⟩ | ⟨rfl, hnode⟩
  · exact hnode
  · exact hnode

/-- A block is an operand. -/
theorem ends_operand_block
    {depth : Nat}
    (h : s.peek = .leftBrace) :
    (level (depth + 1)).operand.Ends s fun found t =>
      ∃ kind, found = some kind ∧ BlockOrOperation s kind t := by
  have hlabel : (atLabeled : Parser Kind Bool) s.cursor = ⟨false, s.cursor, []⟩ := by
    rw [atLabeled_eq, labelAhead, ← peek_eq_kindAt, h]
    rfl
  have hblock : (node .block (blockBody (level depth))).Ends s fun kind t =>
      BlockOrOperation s kind t :=
    ends_node (by decide) ((ends_blockBody_brace (sound_level depth)).mono
      fun _ _ ht => .inl ⟨rfl, ⟨_, rfl⟩, ht.2⟩)
  change (operandWith (level depth)).Ends s _
  rw [operandWith, ends_peek_bind, h]
  change (primaryExpr (level depth)).Ends s _
  rw [primaryExpr, routine_eq, ends_bind_of_eq hlabel]
  change ((peek >>= fun kind => _) : NodeParser).Ends s _
  rw [ends_peek_bind, h]
  exact hblock.bind fun kind _ ht => ends_pure ⟨kind, rfl, ht⟩

/-- The next operator makes an operation of the node in front of it. -/
theorem ends_operation
    {depth least : Nat}
    {first : Kind}
    {below : List (Shape Kind Kind)}
    {t : Site Kind}
    (hchildren : t.children = .node first below :: s.children)
    (hleft : 0 < t.left)
    (again : Kind → Bool) :
    (do
      let kind ← wrap .binaryExpr do
        let catches ← at_ .catchKw
        advance
        if catches then payload
        discard (binaryExpr (level depth) least)
      return (true, kind, again kind) : Parser Kind (Bool × Kind × Bool)).Ends t fun r u =>
      (r.1 = true → u.left < t.left ∧ BlockOrOperation s r.2.1 u) ∧
        (r.1 = false → BlockOrOperation s r.2.1 u) := by
  have hoperator := eats_operator (plants_binaryExpr (sound_level depth) least)
  have hopened : 0 < t.opened.left := hleft
  refine Ends.bind (P := fun kind u => u.left < t.left ∧ BlockOrOperation s kind u) ?_
    fun _ u hu => ends_pure ⟨fun _ => hu, by simp⟩
  refine ends_wrapOf hchildren ((hoperator.ends hopened).bind fun _ u hu => ?_)
  exact ends_pure ⟨by decide, hu.2, .inr ⟨rfl, _, rfl⟩⟩

/-- A block is an expression, and anything around it is an operation. -/
theorem ends_expr_block
    {depth : Nat}
    (h : s.peek = .leftBrace) :
    (level (depth + 2)).expr.Ends s fun found t =>
      ∃ kind, found = some kind ∧ BlockOrOperation s kind t := by
  change (binaryExpr (level (depth + 1)) 1).Ends s _
  rw [binaryExpr]
  refine (ends_operand_block h).bind ?_
  rintro _ t ⟨first, rfl, ht⟩
  refine Ends.bind (P := fun v u => BlockOrOperation s v.1 u)
    (Ends.iterate (I := fun v u => BlockOrOperation s v.1 u) ?_ ht)
    fun v _ hu => ends_pure ⟨v.1, rfl, hu⟩
  rintro ⟨lhs, compared⟩ u hu
  obtain ⟨below, hchildren⟩ := hu.exists_node
  dsimp only
  rw [ends_peek_bind]
  split
  · exact ends_pure ⟨by simp, fun _ => hu⟩
  rename_i precedence hprecedence
  split
  · have hpeek : u.peek ≠ .eof := by
      intro heof
      simp [heof, precedence?] at hprecedence
    have hleft : 0 < u.left := Site.left_pos_of_peek rfl hpeek
    -- A fault that was reported before changes neither the node nor what is left.
    split
    · exact ends_report_bind (ends_operation (t := u.faulted) hchildren hleft _)
    · exact ends_operation hchildren hleft _
  · exact ends_pure ⟨by simp, fun _ => hu⟩

end Blocks

section Unreturned

variable {cut : Prop} {inner : Level} {c : Cursor Kind} {kind : Kind} {faults : List (Fault Kind)}

/-- What ends a statement behind an expression of a kind. -/
theorem runs_statementBody_of_assignExpr
    {P Q : Cursor Kind → Prop}
    (h : (assignExpr inner).Runs cut c [] fun found c' => found = some kind ∧ P c')
    (hend : ∀ d, P d →
      (if isBlockLike kind && d.prev == some .rightBrace then pure ()
        else expect .semicolon : Parser Kind Unit).Runs cut d faults fun _ d' => Q d') :
    (statementBody inner).Runs cut c faults fun _ c' => Q c' := by
  refine h.bind_quiet ?_
  rintro _ d ⟨rfl, hd⟩
  refine runs_look_bind (a := d.prev) rfl ?_
  have hruns := hend d hd
  cases hends : isBlockLike kind && d.prev == some .rightBrace with
  | true => rwa [hends] at hruns
  | false => rwa [hends] at hruns

theorem statement_eq_exprStmt
    (h : kindAt 0 c.rest ∈ [Kind.leftBrace, .returnKw]) :
    statement inner c = (discard (node .exprStmt (statementBody inner)) : Parser Kind Unit) c := by
  rw [statement, routine_eq, bind_of_eq (peek_kindAt c), bind_of_eq (nth_kindAt 1 c)]
  simp only [List.mem_cons, List.not_mem_nil, or_false] at h
  rcases h with hkind | hkind <;> rw [hkind]

/-- A `return` takes no block, and a semicolon is missing behind it. -/
theorem runs_statement_unreturned
    {ls : List (Lexeme Kind)}
    (h : c.rest = returning :: ls)
    (hbrace : kindAt 0 ls = .leftBrace) :
    (statement (level maxDepth)).Runs cut c [.expected .semicolon .leftBrace] fun _ c' =>
      c'.rest = ls := by
  have hfirst : kindAt 0 c.rest = .returnKw := by
    rw [h]
    rfl
  have hreturn : (returnExpr (level 254)).Runs cut c [] fun kind c' =>
      kind = .returnExpr ∧ c'.rest = ls := by
    refine runs_node ((runs_advance h).bind_quiet fun _ d hd => ?_)
    refine runs_look_bind (a := exprFirst.contains (kindAt 0 d.rest)) rfl ?_
    rw [hd, hbrace]
    exact runs_pure ⟨rfl, hd⟩
  have hprimary : (primaryExpr (level 254)).Runs cut c [] fun found c' =>
      found = some .returnExpr ∧ c'.rest = ls := by
    have hlabel : labelAhead c.rest = false := by
      rw [h]
      rfl
    refine runs_look_bind (atLabeled_eq c) ?_
    rw [hlabel]
    refine runs_look_bind (a := kindAt 0 c.rest) rfl ?_
    rw [hfirst]
    exact hreturn.bind_quiet fun kind c' hend => runs_pure ⟨congrArg some hend.1, hend.2⟩
  have hoperand : (level 255).operand.Runs cut c [] fun found c' =>
      found = some .returnExpr ∧ c'.rest = ls := by
    refine runs_look_bind (a := kindAt 0 c.rest) rfl ?_
    rw [hfirst]
    exact hprimary
  have hassign : (assignExpr (level maxDepth)).Runs cut c [] fun found c' =>
      found = some .returnExpr ∧ c'.rest = ls := by
    refine runs_assignExpr_of_expr (runs_expr_of_operand hoperand ?_) ?_
    · rintro d rfl
      rw [hbrace]
      rfl
    · rintro d rfl
      rw [hbrace]
      rfl
  refine Runs.of_eq ?_ (statement_eq_exprStmt (by rw [hfirst]; decide))
  refine (runs_node (runs_statementBody_of_assignExpr hassign fun d hd => ?_)).discard
  have hmissing : kindAt 0 d.rest ≠ .semicolon := by
    rw [hd, hbrace]
    decide
  rw [if_neg (by simp [isBlockLike]), Runs, expect_of_ne hmissing, hd, hbrace]
  exact .inr ⟨rfl, rfl⟩

section Block

variable
  {es : List (Lexeme Kind)}
  {l : Lexeme Kind}
  {first : Kind}
  {below : List (Shape Kind Kind)}
  (hl : l.kind = .semicolon)
  (hread : IsValue es [l, closing] kind (.node first below))
include hl hread

omit hl in
/-- What starts with a block is read as that block or as an operation around it. -/
theorem IsValue.runs_block
    (h : c.rest = es ++ [l, closing])
    (hbrace : kindAt 0 c.rest = .leftBrace) :
    (level maxDepth).expr.Runs cut c [] fun found d => found = some first ∧
      d.rest = [l, closing] ∧
        (first = .block ∧ d.prev = some .rightBrace ∨ first = .binaryExpr) := by
  have hfirst : (Site.mk c [] [] 0).peek = .leftBrace := (peek_eq_kindAt _).trans hbrace
  have hblock := @ends_expr_block _ 254 hfirst
  refine (((hread.ends ⟨c, [], [], 0⟩ h).and hblock).mono fun _ t ht => ?_).runs
  obtain ⟨⟨-, htakes, hadds⟩, kind, rfl, hends⟩ := ht
  obtain ⟨inner, hnode⟩ := hends.exists_node
  have hchildren : t.children = [.node first below] := hadds.children
  obtain ⟨rfl, -⟩ := Shape.node.inj (List.cons.inj (hchildren.symm.trans hnode)).1
  refine ⟨hadds.reports, rfl, List.append_cancel_left (htakes.rest.symm.trans h), ?_⟩
  exact hends.imp (fun hblock => ⟨hblock.1, hblock.2.2 hadds.reports⟩) And.left

/-- A block is a statement without the semicolon behind it. -/
theorem runs_statement_block
    (h : c.rest = es ++ [l, closing])
    (hbrace : kindAt 0 c.rest = .leftBrace) :
    (statement (level maxDepth)).Runs cut c [] fun _ d =>
      d.rest = (if first = .block then [l] else []) ++ [closing] := by
  have hassign : (assignExpr (level maxDepth)).Runs cut c [] fun found d => found = some first ∧
      d.rest = [l, closing] ∧
        (first = .block ∧ d.prev = some .rightBrace ∨ first = .binaryExpr) := by
    refine runs_assignExpr_of_expr (hread.runs_block h hbrace) fun d hd => ?_
    rw [hd.1, kindAt, List.getElem?_cons_zero, Option.map_some, hl]
    rfl
  refine Runs.of_eq ?_ (statement_eq_exprStmt (by rw [hbrace]; decide))
  refine (runs_node (runs_statementBody_of_assignExpr hassign fun d hd => ?_)).discard
  rcases hd with ⟨hrest, ⟨rfl, hprev⟩ | rfl⟩
  · rw [if_pos (by rw [hprev]; rfl)]
    exact runs_pure hrest
  · rw [if_neg (by simp [isBlockLike])]
    exact runs_expect hrest hl

/-- Behind a block the semicolon ends nothing. -/
theorem runs_statements_block
    (h : c.rest = es ++ [l, closing])
    (hbrace : kindAt 0 c.rest = .leftBrace) :
    statements.Runs cut c (if first = .block then [.unexpected .semicolon] else []) fun _ c' =>
      c'.rest = [closing] := by
  have hstatement := @runs_statement_block cut _ _ _ _ _ _ hl hread h hbrace
  have hgoes : goesOn c.rest = true := by
    rw [goesOn, hbrace]
    simp [h]
  have hless : 2 < c.left := by
    have hpos : es ≠ [] := by
      rintro rfl
      rw [h, List.nil_append, kindAt, List.getElem?_cons_zero, Option.map_some, hl] at hbrace
      exact absurd hbrace (by decide)
    have hlength := List.length_pos_iff.mpr hpos
    rw [c.left_eq, h, List.length_append, List.length_cons, List.length_singleton]
    omega
  by_cases hkind : first = .block
  · rw [if_pos hkind] at hstatement ⊢
    exact runs_statements_turn hstatement hgoes hless fun d hd =>
      runs_statements_semicolons [l] (by simpa using hl) hd
  · rw [if_neg hkind] at hstatement ⊢
    exact runs_statements_turn hstatement hgoes (Nat.lt_of_succ_lt hless) fun d hd =>
      runs_statements_semicolons [] (by simp) hd

/-- A `return` in front of a block takes no operand. -/
theorem runs_statements_unreturned
    (h : c.rest = returning :: (es ++ [l, closing]))
    (hbrace : kindAt 0 (es ++ [l, closing]) = .leftBrace) :
    statements.Runs cut c
      (.expected .semicolon .leftBrace ::
        if first = .block then [.unexpected .semicolon] else []) fun _ c' =>
      c'.rest = [closing] := by
  have hgoes : goesOn c.rest = true := by
    rw [h]
    rfl
  have hless : (es ++ [l, closing]).length < c.left := by
    rw [c.left_eq, h]
    exact Nat.lt_succ_self _
  exact runs_statements_turn (runs_statement_unreturned h hbrace) hgoes hless fun d hd =>
    runs_statements_block hl hread hd (by rw [hd]; exact hbrace)

end Block
end Unreturned

/-! ## Whole files -/

theorem tokensOf_lex_assigned (body : Text) :
    tokensOf (lex ("_ = ".toList ++ body)) = assignLexemes ++ tokensOf (lex body) := by
  have hname : tokensOf (lex ("_ = ".toList ++ body)) = ⟨.identifier, ['_']⟩ ::
      tokensOf (lex (' ' :: '=' :: ' ' :: body)) := tokensOf_lex_of_read rfl rfl rfl
  have heq : tokensOf (lex ('=' :: ' ' :: body)) = ⟨.eq, ['=']⟩ ::
      tokensOf (lex (' ' :: body)) := tokensOf_lex_of_read rfl rfl rfl
  rw [hname, tokensOf_lex_blank rfl, heq, tokensOf_lex_blank rfl]
  rfl

theorem tokensOf_lex_returned (body : Text) :
    tokensOf (lex ("return ".toList ++ body)) = returning :: tokensOf (lex body) := by
  have hreturn : tokensOf (lex ("return ".toList ++ body)) = returning ::
      tokensOf (lex (' ' :: body)) := tokensOf_lex_of_read rfl rfl rfl
  rw [hreturn, tokensOf_lex_blank rfl]

theorem tokensOf_lex_value_returned
    {text : Text}
    {es : List (Lexeme Kind)}
    {l : Lexeme Kind}
    (h : tokensOf (lex (text ++ [';'])) = es ++ [l]) :
    tokensOf (lex ("return ".toList ++ text ++ [';'])) = returning :: (es ++ [l]) := by
  rw [List.append_assoc, tokensOf_lex_returned, h]

theorem rest_returned
    {c : Cursor Kind}
    {es : List (Lexeme Kind)}
    {l : Lexeme Kind}
    (h : c.rest = returning :: (es ++ [l]) ++ [closing]) :
    c.rest = returning :: (es ++ [l, closing]) := by
  rw [h, List.cons_append, List.append_assoc, List.singleton_append]

theorem kindAt_zero_append_closing
    (es : List (Lexeme Kind))
    (l : Lexeme Kind) :
    kindAt 0 (es ++ [l, closing]) = kindAt 0 (es ++ [l]) := by
  cases es <;> rfl

/-- One statement for an expression that fills a body is the only one of the file. -/
theorem Fills.exists_statement
    {body : Text}
    {below : List (Shape Kind Kind)}
    (h : Fills (tokensOf (lex body)) [.node .exprStmt below]) :
    ∃ p shapes,
      parse? (inFunction body) = some p ∧
      p.diagnostics = [] ∧
      p.root.node.childNodes.map (fun n => n.kind) = [.fnDecl] ∧
      (bodyStatements p.root.node).map Node.bare = shapes ∧
      shapes.map (Shape.map Lexeme.kind) = [.node .exprStmt below] ∧
      shapes.flatMap Shape.leaves = tokensOf (lex body) := by
  obtain ⟨p, hp, hlexemes, houtline, hquiet⟩ := h.exists_parse_inFunction
  obtain ⟨hone, shapes, hshapes, hleaves, hstatements⟩ := exists_statements houtline hlexemes
  refine ⟨p, shapes, hp, hquiet, hone, ?_, hshapes, hleaves⟩
  obtain ⟨shape, rfl, hshape⟩ := List.map_eq_singleton_iff.mp hshapes
  obtain ⟨parts, rfl, -⟩ := exists_node_of_map hshape
  exact hstatements

/-- The statement that assigns a value to nothing. -/
def assigned (value : Shape (Lexeme Kind) Kind) (l : Lexeme Kind) : Shape (Lexeme Kind) Kind :=
  .node .exprStmt
    [.node .assignExpr
      [.node .ident [.leaf ⟨.identifier, ['_']⟩], .leaf ⟨.eq, ['=']⟩, value], .leaf l]

/-- The statement that returns a value. -/
def returned (value : Shape (Lexeme Kind) Kind) (l : Lexeme Kind) : Shape (Lexeme Kind) Kind :=
  .node .exprStmt [.node .returnExpr [.leaf returning, value], .leaf l]

/-- Statements with the outline of an assignment assign a value. -/
theorem exists_assigned
    {shapes : List (Shape (Lexeme Kind) Kind)}
    {es : List (Lexeme Kind)}
    {l : Lexeme Kind}
    {inner : Kind}
    {below : List (Shape Kind Kind)}
    (hmap : shapes.map (Shape.map Lexeme.kind) =
      [.node .exprStmt (assignOutline (.node inner below))])
    (hleaves : shapes.flatMap Shape.leaves = assignLexemes ++ es ++ [l]) :
    ∃ children : List (Shape (Lexeme Kind) Kind),
      children.map (Shape.map Lexeme.kind) = below ∧
      children.flatMap Shape.leaves = es ∧
      shapes = [assigned (.node inner children) l] := by
  obtain ⟨shape, rfl, hshape⟩ := List.map_eq_singleton_iff.mp hmap
  obtain ⟨parts, rfl, hparts⟩ := exists_node_of_map hshape
  obtain ⟨a, ends, rfl, ha, hends⟩ := List.map_eq_cons_iff.mp hparts
  obtain ⟨e, rfl, he⟩ := List.map_eq_singleton_iff.mp hends
  obtain ⟨sides, rfl, hsides⟩ := exists_node_of_map ha
  obtain ⟨n, rest, rfl, hn, hrest⟩ := List.map_eq_cons_iff.mp hsides
  obtain ⟨o, values, rfl, ho, hvalues⟩ := List.map_eq_cons_iff.mp hrest
  obtain ⟨v, rfl, hv⟩ := List.map_eq_singleton_iff.mp hvalues
  obtain ⟨names, rfl, hnames⟩ := exists_node_of_map hn
  obtain ⟨x, rfl, hx⟩ := List.map_eq_singleton_iff.mp hnames
  obtain ⟨children, rfl, hchildren⟩ := exists_node_of_map hv
  obtain ⟨x, rfl, -⟩ := exists_leaf_of_map hx
  obtain ⟨o, rfl, -⟩ := exists_leaf_of_map ho
  obtain ⟨e, rfl, -⟩ := exists_leaf_of_map he
  have hall : x :: o :: (children.flatMap Shape.leaves ++ [e]) =
      ⟨.identifier, ['_']⟩ :: ⟨.eq, ['=']⟩ :: (es ++ [l]) := by
    simpa [assignLexemes] using hleaves
  obtain ⟨rfl, htail⟩ := List.cons.inj hall
  obtain ⟨rfl, hboth⟩ := List.cons.inj htail
  obtain ⟨hes, hl⟩ := List.append_inj' hboth rfl
  obtain rfl := List.singleton_inj.mp hl
  exact ⟨children, hchildren, hes, rfl⟩

section Value

variable
  {text : Text}
  {es : List (Lexeme Kind)}
  {l : Lexeme Kind}
  {found kind : Kind}
  {below : List (Shape Kind Kind)}
  (htokens : tokensOf (lex (text ++ [';'])) = es ++ [l])
  (hl : l.kind = .semicolon)
  (hread : IsValue es [l, closing] found (.node kind below))
include htokens hl hread

/-- A value that is assigned has the lexemes it is read from. -/
theorem exists_assigned_value
    {p : Parse Kind}
    (hp : parse? (inFunction ("_ = ".toList ++ text ++ [';'])) = some p) :
    ∃ children : List (Shape (Lexeme Kind) Kind),
      children.map (Shape.map Lexeme.kind) = below ∧
      children.flatMap Shape.leaves = es ∧
      (bodyStatements p.root.node).map Node.bare = [assigned (.node kind children) l] := by
  have hall : tokensOf (lex ("_ = ".toList ++ text ++ [';'])) = assignLexemes ++ es ++ [l] := by
    rw [List.append_assoc, tokensOf_lex_assigned, htokens, List.append_assoc]
  have hfills : Fills (tokensOf (lex ("_ = ".toList ++ text ++ [';'])))
      [.node .exprStmt (assignOutline (.node kind below))] := by
    rw [hall]
    refine fills_of_adds (c := .ofList (assignLexemes ++ es ++ [l] ++ [closing])) rfl ?_
    exact ends_statements_assigned rfl hl hread
  obtain ⟨p', shapes, hp', -, -, hbares, hmap, hleaves⟩ := hfills.exists_statement
  obtain rfl : p = p' := Option.some.inj (hp.symm.trans hp')
  rw [hall] at hleaves
  obtain ⟨children, hchildren, hvalue, rfl⟩ := exists_assigned hmap hleaves
  exact ⟨children, hchildren, hvalue, hbares⟩

/-- A value that starts with the brace of a block is not returned. -/
theorem exists_parse_unreturned
    (hbrace : kindAt 0 (es ++ [l]) = .leftBrace) :
    ∃ q, parse? (inFunction ("return ".toList ++ text ++ [';'])) = some q ∧
      q.diagnostics.map Diagnostic.message = "expected `;`, found `\x7b`".toList ::
        if kind = .block then ["unexpected `;`".toList] else [] := by
  obtain ⟨q, hq, hmessages⟩ := @exists_parse_of_runs ("return ".toList ++ text ++ [';'])
    (.expected .semicolon .leftBrace ::
      if kind = .block then [.unexpected .semicolon] else []) False True fun c hc => by
        rw [tokensOf_lex_value_returned htokens] at hc
        have hfirst := (kindAt_zero_append_closing es l).trans hbrace
        exact (runs_statements_unreturned hl hread (rest_returned hc) hfirst).mono
          fun _ _ hrest => ⟨trivial, hrest⟩
  obtain ⟨hmessages, -⟩ := hmessages.resolve_left fun hcut => hcut.1
  have hmissing : Fault.message (.expected .semicolon .leftBrace : Fault Kind) =
      "expected `;`, found `\x7b`".toList := by
    decide +kernel
  have hstray : Fault.message (.unexpected .semicolon : Fault Kind) =
      "unexpected `;`".toList := by
    decide +kernel
  refine ⟨q, hq, ?_⟩
  rw [hmessages, List.map_cons, hmissing, apply_ite (List.map Fault.message), List.map_singleton,
    hstray, List.map_nil]

/-- Any other value is returned as it is, unless something is nested too deep. -/
theorem exists_parse_value_returned
    {children : List (Shape (Lexeme Kind) Kind)}
    (hchildren : children.map (Shape.map Lexeme.kind) = below)
    (hvalue : children.flatMap Shape.leaves = es)
    (hbrace : kindAt 0 (es ++ [l]) ≠ .leftBrace) :
    ∃ q, parse? (inFunction ("return ".toList ++ text ++ [';'])) = some q ∧
      (q.diagnostics = [] ∧
          q.root.node.childNodes.map (fun n => n.kind) = [.fnDecl] ∧
          (bodyStatements q.root.node).map Node.bare = [returned (.node kind children) l] ∨
        ∃ behind,
          q.diagnostics.map Diagnostic.message = "nesting too deep".toList :: behind) := by
  have hall := tokensOf_lex_value_returned htokens
  obtain ⟨q, hq, hmessages⟩ := @exists_parse_of_runs ("return ".toList ++ text ++ [';'])
    [] True
    (Fills (returning :: (es ++ [l])) [.node .exprStmt (returnOutline (.node kind below))])
    fun c hc => by
      rw [hall] at hc
      have hfirst := (kindAt_zero_append_closing es l).trans_ne hbrace
      have hreturned := statements_returned hread hl (rest_returned hc) hfirst
      refine hreturned.elim (fun hcut => .inl ⟨trivial, hcut⟩) fun hends => ?_
      have hfills := fills_of_adds hc hends
      exact (runs_of_fills hfills hc).mono fun _ _ hrest => ⟨hfills, hrest⟩
  refine ⟨q, hq, ?_⟩
  rcases hmessages with ⟨-, front, behind, hmessages, hfront⟩ | ⟨-, hfills⟩
  · obtain rfl := List.prefix_nil.mp hfront
    exact .inr ⟨behind, hmessages⟩
  · rw [← hall] at hfills
    obtain ⟨q', shapes, hq', hquiet, hone, hbares, hmap, hleaves⟩ := hfills.exists_statement
    obtain rfl : q = q' := Option.some.inj (hq.symm.trans hq')
    rw [hall] at hleaves
    refine .inl ⟨hquiet, hone, hbares.trans ?_⟩
    refine Shape.all_eq_of_map_eq (f := Lexeme.kind) _ _ (hmap.trans ?_) (hleaves.trans ?_)
    · simp [returned, returnOutline, hchildren, returning, hl]
    · simp [returned, hvalue]

end Value

/-- **Values that are returned.**  If an assignment of a value to nothing is a function body
of which nothing is reported, and the only statement in it, then the value may be returned
instead, and its tree is the same, unless something is nested too deep.  A value that starts
with the brace of a block may not: the `return` is taken without it, and the value becomes a
statement of its own, behind which the semicolon is left over if the value is that block. -/
theorem exists_parse_returned
    {text : Text}
    {p : Parse Kind}
    (hp : parse? (inFunction ("_ = ".toList ++ text ++ [';'])) = some p)
    (hquiet : p.diagnostics = [])
    (hone : p.root.node.childNodes.map (fun n => n.kind) = [.fnDecl])
    (hstatement : (bodyStatements p.root.node).map (fun n => n.kind) = [.exprStmt]) :
    ∃ kind children semicolon q,
      (bodyStatements p.root.node).map Node.bare = [assigned (.node kind children) semicolon] ∧
      parse? (inFunction ("return ".toList ++ text ++ [';'])) = some q ∧
      if kindAt 0 (tokensOf (lex (text ++ [';']))) = .leftBrace then
        q.diagnostics.map Diagnostic.message = "expected `;`, found `\x7b`".toList ::
          if kind = .block then ["unexpected `;`".toList] else []
      else
        q.diagnostics = [] ∧
          q.root.node.childNodes.map (fun n => n.kind) = [.fnDecl] ∧
          (bodyStatements q.root.node).map Node.bare = [returned (.node kind children) semicolon] ∨
        ∃ behind, q.diagnostics.map Diagnostic.message = "nesting too deep".toList :: behind := by
  obtain ⟨children, hfills⟩ := exists_fills hp hquiet hone
  obtain ⟨statement, hsingle⟩ := hfills.exists_single hp hstatement
  -- The right side of the assignment is an expression.
  rw [List.append_assoc, tokensOf_lex_assigned] at hfills
  have hstart :
      (Cursor.ofList (assignLexemes ++ (tokensOf (lex (text ++ [';'])) ++ [closing]))).rest =
        assignLexemes ++ tokensOf (lex (text ++ [';'])) ++ [closing] := by
    rw [List.append_assoc]
    rfl
  obtain ⟨htakes, hreports⟩ := hfills.takes_statementBody hsingle hstart
  obtain ⟨es, l, found, kind, below, htokens, hl, hread⟩ := exists_isValue rfl htakes hreports
  obtain ⟨children, hchildren, hvalue, hbares⟩ := exists_assigned_value htokens hl hread hp
  rw [htokens]
  -- A `return` takes it, if it does not start with a brace.
  by_cases hbrace : kindAt 0 (es ++ [l]) = .leftBrace
  · obtain ⟨q, hq, hmessages⟩ := exists_parse_unreturned htokens hl hread hbrace
    refine ⟨kind, children, l, q, hbares, hq, ?_⟩
    rwa [if_pos hbrace]
  · obtain ⟨q, hq, hresult⟩ :=
      exists_parse_value_returned htokens hl hread hchildren hvalue hbrace
    refine ⟨kind, children, l, q, hbares, hq, ?_⟩
    rwa [if_neg hbrace]

/-- A block may be assigned but not returned. -/
example :
    (parse? (inFunction "_ = \x7b\x7d;".toList)).map (fun p =>
        p.diagnostics.map Diagnostic.message) = some [] ∧
      (parse? (inFunction "return \x7b\x7d;".toList)).map (fun q =>
        q.diagnostics.map Diagnostic.message) =
          some ["expected `;`, found `\x7b`".toList, "unexpected `;`".toList] := by
  decide +kernel

/-- A sum may be assigned and returned. -/
theorem exists_parse_returned_sum :
    ∃ p q value semicolon,
      parse? (inFunction "_ = a + b;".toList) = some p ∧
      p.diagnostics = [] ∧
      p.root.node.childNodes.map (fun n => n.kind) = [.fnDecl] ∧
      (bodyStatements p.root.node).map (fun n => n.kind) = [.exprStmt] ∧
      (bodyStatements p.root.node).map Node.bare = [assigned value semicolon] ∧
      parse? (inFunction "return a + b;".toList) = some q ∧
      q.diagnostics = [] ∧
      (bodyStatements q.root.node).map Node.bare = [returned value semicolon] := by
  have hsome : (parse? (inFunction "_ = a + b;".toList)).any (fun p =>
      p.diagnostics == [] && p.root.node.childNodes.map (fun n => n.kind) == [.fnDecl] &&
        (bodyStatements p.root.node).map (fun n => n.kind) == [.exprStmt]) = true := by
    decide +kernel
  rw [Option.any_eq_true] at hsome
  obtain ⟨p, hp, hgood⟩ := hsome
  simp only [Bool.and_eq_true, beq_iff_eq] at hgood
  obtain ⟨⟨hquiet, hone⟩, hstatement⟩ := hgood
  have hshallow : (parse? (inFunction "return a + b;".toList)).all (fun q =>
      "nesting too deep".toList ∉ q.diagnostics.map Diagnostic.message) = true := by
    decide +kernel
  obtain ⟨kind, children, l, q, hbares, hq, hresult⟩ :=
    @exists_parse_returned "a + b".toList _ hp hquiet hone hstatement
  have hfirst : kindAt 0 (tokensOf (lex ("a + b".toList ++ [';']))) ≠ .leftBrace := by
    decide +kernel
  rw [if_neg hfirst] at hresult
  rcases hresult with ⟨hquiet', -, hbares'⟩ | ⟨behind, hmessages⟩
  · exact ⟨p, q, _, l, hp, hquiet, hone, hstatement, hbares, hq, hquiet', hbares'⟩
  · rw [show parse? (inFunction "return a + b;".toList) = some q from hq, Option.all_some,
      hmessages] at hshallow
    simp at hshallow

end Zig
end ZigCst
