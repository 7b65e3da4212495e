import ZigCst.Proofs.Exact
import ZigCst.Proofs.ZigGrammar

/-!
# Zig constructs read exactly

What the parsers of the Zig grammar do with lexemes of known kinds: which of them are
taken and which nodes are added.  An expression without operators and suffixes is what
its first lexemes say, provided that what follows does not go on with it.

**Definitions.**
* `goesOnType`, `goesOnExpr`: the kinds that go on with a type or an expression.
* `single?`: the kinds that are an expression by themselves.

**Results.**
* `ends_type_of_primary`, `ends_expr_of_primary`: a type or an expression that is a
  primary one.
* `ends_expr_single`: an expression of one lexeme.
-/

namespace ZigCst
namespace Zig

open ZigCst.Parser

/-! ## Names and lists -/

section Basic

variable {s : Site Kind}

theorem ends_name_adds
    {rest : List Kind}
    (recovery : KindSet Kind)
    (h : s.kinds = .identifier :: rest) :
    (name recovery : Parser Kind Unit).Ends s fun _ t =>
      s.Adds [.identifier] [.node .ident [.leaf .identifier]] t := by
  have hopened : s.opened.kinds = .identifier :: rest := h
  rw [name, routine_eq, ends_at_bind, Site.peek_eq h]
  exact ends_node_adds (by decide) (ends_advance_adds hopened)

theorem ends_skip_missing
    {kind : Kind}
    (h : s.peek ≠ kind) :
    (skip kind : Parser Kind Unit).Ends s fun _ t => t = s :=
  ends_discard ((ends_eat_missing h).mono fun _ _ ht => ht.2)

theorem ends_skip_adds
    {kind : Kind}
    {rest : List Kind}
    (h : s.kinds = kind :: rest) :
    (skip kind : Parser Kind Unit).Ends s fun _ t => s.Adds [kind] [.leaf kind] t :=
  ends_discard ((ends_eat_adds h).mono fun _ _ ht => ht.2)

/-- The loop over the items of a list stops at the closing bracket. -/
theorem ends_items_stop
    {closing : Kind}
    {what : Item}
    {item : Parser Kind Unit}
    (h : s.peek = closing) :
    (repeatWhile (itemAndComma closing what item)).Ends s fun _ t => t = s := by
  refine ends_iterate ?_
  refine Ends.bind (P := fun again t => again = false ∧ t = s) ?_ ?_
  · rw [itemAndComma, ends_at_bind, ends_atEnd_bind, h, beq_self_eq_true]
    exact ends_pure ⟨rfl, rfl⟩
  · rintro _ t ⟨rfl, rfl⟩
    exact ends_pure ⟨by simp, fun _ => rfl⟩

/-- Where no clause starts, there are no clauses. -/
theorem ends_clauses_missing
    {inner : Level}
    {ofFunction : Bool}
    (h : s.peek ∉ [Kind.alignKw, .addrspaceKw, .linksectionKw, .callconvKw]) :
    (clauses inner ofFunction).Ends s fun _ t => t = s := by
  refine ends_iterate (Ends.bind (P := fun again t => again = false ∧ t = s) ?_ ?_)
  · rw [clause, ends_peek_bind]
    split
    · simp_all
    · simp_all
    · simp_all
    · simp_all
    · exact ends_pure ⟨rfl, rfl⟩
  · rintro _ t ⟨rfl, rfl⟩
    exact ends_pure ⟨by simp, fun _ => rfl⟩

theorem ends_linkage_missing
    (h : s.peek ∉ [Kind.exportKw, .inlineKw, .noinlineKw, .externKw]) :
    (linkage : Parser Kind Unit).Ends s fun _ t => t = s := by
  rw [linkage, ends_peek_bind]
  split
  · simp_all
  · simp_all
  · simp_all
  · simp_all
  · exact ends_pure rfl

/-- A list is its items in their brackets. -/
theorem ends_delimited_adds
    {opening closing : Kind}
    {what : Item}
    {item : Parser Kind Unit}
    {kinds rest : List Kind}
    {trees : List (Shape Kind Kind)}
    (hkinds : s.kinds = [opening] ++ (kinds ++ ([closing] ++ rest)))
    (hitems : ∀ t : Site Kind, t.kinds = kinds ++ ([closing] ++ rest) →
      (repeatWhile (itemAndComma closing what item)).Ends t fun _ u => t.Adds kinds trees u) :
    (delimited opening closing what item).Ends s fun _ t =>
      s.Adds ([opening] ++ (kinds ++ [closing]))
        ([Shape.leaf opening] ++ (trees ++ [Shape.leaf closing])) t := by
  refine (ends_expect_adds hkinds).adds_seq fun t ht => ?_
  have hrest := ht.kinds_eq hkinds
  refine (hitems t hrest).adds_seq fun u hu => ?_
  exact ends_expect_adds (hu.kinds_eq hrest)

end Basic

/-! ## Types and primary expressions -/

/-- Whether a lexeme goes on with a type. -/
def goesOnType : Kind → Bool
  | .leftBracket | .dot | .dotStar | .leftParen | .bang => true
  | _ => false

/-- Whether a lexeme goes on with an expression. -/
def goesOnExpr (kind : Kind) : Bool :=
  goesOnType kind || kind == .leftBrace || (precedence? kind).isSome

/-- The node that a lexeme makes if it is an expression by itself. -/
def single? : Kind → Option Kind
  | .charLiteral | .integer | .float => some .literal
  | .stringLiteralSingle => some .stringLiteral
  | .identifier => some .ident
  | _ => none

section Types

variable {inner : Level} {s : Site Kind} {kind : Kind} {Q : Site Kind → Prop}

theorem ends_primaryType_single
    {tree : Kind}
    {rest : List Kind}
    (hsingle : single? kind = some tree)
    (hkinds : s.kinds = kind :: rest) :
    (primaryType inner).Ends s fun found t =>
      found = some tree ∧ s.Adds [kind] [.node tree [.leaf kind]] t := by
  have hopened : s.opened.kinds = kind :: rest := hkinds
  have hnode : ∀ tree : Kind, tree ≠ .tombstone →
      (do return some (← node tree advance) : NodeParser).Ends s fun found t =>
        found = some tree ∧ s.Adds [kind] [.node tree [.leaf kind]] t := by
    intro tree htree
    refine (ends_node htree ((ends_advance_adds hopened).mono fun _ t ht => ?_)).bind
      (P := fun found t => found = tree ∧ s.Adds [kind] [.node tree [.leaf kind]] t) ?_
    · exact ⟨rfl, ht.closed⟩
    · rintro _ t ⟨rfl, ht⟩
      exact ends_pure ⟨rfl, ht⟩
  rw [primaryType, routine_eq, ends_peek_bind, ends_nth_bind, Site.peek_eq hkinds]
  unfold single? at hsingle
  split at hsingle
  · cases hsingle
    exact hnode .literal (by decide)
  · cases hsingle
    exact hnode .literal (by decide)
  · cases hsingle
    exact hnode .literal (by decide)
  · cases hsingle
    exact hnode .stringLiteral (by decide)
  · cases hsingle
    exact hnode .ident (by decide)
  · cases hsingle

/-- Nothing is a suffix where a type does not go on. -/
theorem ends_suffixes_stop
    (h : goesOnType s.peek = false) :
    (iterate (suffix inner) kind).Ends s fun found t => found = kind ∧ t = s := by
  refine ends_iterate ?_
  rw [suffix, ends_peek_bind, ends_nth_bind]
  split
  · simp_all [goesOnType]
  · simp_all [goesOnType]
  · simp_all [goesOnType]
  · simp_all [goesOnType]
  · simp_all [goesOnType]
  · exact ends_pure ⟨by simp, fun _ => ⟨rfl, rfl⟩⟩

/-- A primary expression that nothing goes on with is an error union. -/
theorem ends_errorUnion_of_primary
    (h : (primaryType inner).Ends s fun found t =>
      found = some kind ∧ Q t ∧ goesOnType t.peek = false) :
    (errorUnion inner).Ends s fun found t =>
      found = some kind ∧ Q t ∧ goesOnType t.peek = false := by
  have hsuffix : (suffixExpr inner).Ends s fun found t =>
      found = some kind ∧ Q t ∧ goesOnType t.peek = false := by
    refine h.bind ?_
    rintro _ t ⟨rfl, hQ, hstop⟩
    refine (ends_suffixes_stop hstop).bind ?_
    rintro _ u ⟨rfl, rfl⟩
    exact ends_pure ⟨rfl, hQ, hstop⟩
  refine hsuffix.bind ?_
  rintro _ t ⟨rfl, hQ, hstop⟩
  have hbang : (t.peek == .bang) = false := by
    rw [beq_eq_false_iff_ne]
    intro hbang
    simp [hbang, goesOnType] at hstop
  simp only [ends_at_bind, hbang]
  exact ends_pure ⟨rfl, hQ, hstop⟩

/-- Lexemes that start a primary expression and nothing else. -/
def primaryFirst : List Kind :=
  [.dot, .identifier, .integer, .float, .charLiteral, .stringLiteralSingle, .stringLiteralMulti]

/-- A primary expression that nothing goes on with is a type. -/
theorem ends_type_of_primary
    (hfirst : s.peek ∈ primaryFirst)
    (h : (primaryType inner).Ends s fun found t =>
      found = some kind ∧ Q t ∧ goesOnType t.peek = false) :
    (typeWith inner).Ends s fun found t =>
      found = some kind ∧ Q t ∧ goesOnType t.peek = false := by
  rw [typeWith, ends_peek_bind, ends_nth_bind]
  split
  · simp_all [primaryFirst]
  · simp_all [primaryFirst]
  · simp_all [primaryFirst]
  · simp_all [primaryFirst]
  · simp_all [primaryFirst]
  · exact ends_errorUnion_of_primary h

end Types

/-! ## Expressions -/

section Expressions

variable {s : Site Kind} {kind : Kind} {Q : Site Kind → Prop}

theorem goesOnType_of_expr
    (h : goesOnExpr kind = false) :
    goesOnType kind = false := by
  simp only [goesOnExpr, Bool.or_eq_false_iff] at h
  exact h.1.1

/-- A primary expression that nothing goes on with is an operand without operators. -/
theorem ends_primaryExpr_of_primary
    {depth : Nat}
    (hfirst : s.peek ∈ primaryFirst)
    (hlabel : s.nth 1 ≠ .colon)
    (h : (primaryType (level depth)).Ends s fun found t =>
      found = some kind ∧ Q t ∧ goesOnExpr t.peek = false) :
    (primaryExpr (level (depth + 1))).Ends s fun found t =>
      found = some kind ∧ Q t ∧ goesOnExpr t.peek = false := by
  have hcurly : (curlySuffix (level (depth + 1))).Ends s fun found t =>
      found = some kind ∧ Q t ∧ goesOnExpr t.peek = false := by
    have htype : (level (depth + 1)).type.Ends s fun found t =>
        found = some kind ∧ (Q t ∧ goesOnExpr t.peek = false) ∧ goesOnType t.peek = false :=
      ends_type_of_primary hfirst
        (h.mono fun _ t ht => ⟨ht.1, ht.2, goesOnType_of_expr ht.2.2⟩)
    refine htype.bind ?_
    rintro _ t ⟨rfl, ⟨hQ, hstop⟩, -⟩
    have hbrace : (t.peek == .leftBrace) = false := by
      simp only [goesOnExpr, Bool.or_eq_false_iff] at hstop
      exact hstop.1.2
    simp only [ends_at_bind, hbrace]
    exact ends_pure ⟨rfl, hQ, hstop⟩
  have hlabeled : (atLabeled : Parser Kind Bool).Ends s fun found t => found = false ∧ t = s := by
    rw [atLabeled, ends_at_bind, ends_nthAt_bind, beq_eq_false_iff_ne.mpr hlabel, Bool.and_false]
    exact ends_pure ⟨rfl, rfl⟩
  refine hlabeled.bind ?_
  rintro _ t ⟨rfl, rfl⟩
  simp only [Bool.false_eq_true, if_false, ends_peek_bind]
  simp only [primaryFirst, List.mem_cons, List.not_mem_nil, or_false] at hfirst
  rcases hfirst with hpeek | hpeek | hpeek | hpeek | hpeek | hpeek | hpeek <;> rw [hpeek] <;>
    exact hcurly

/-- An operand that no operator follows is an expression. -/
theorem ends_expr_of_operand
    {depth : Nat}
    (h : (level depth).operand.Ends s fun found t =>
      found = some kind ∧ Q t ∧ goesOnExpr t.peek = false) :
    (level (depth + 1)).expr.Ends s fun found t => found = some kind ∧ Q t := by
  change (binaryExpr (level depth) 1).Ends s _
  rw [binaryExpr]
  refine h.bind ?_
  rintro _ t ⟨rfl, hQ, hstop⟩
  have hoperator : precedence? t.peek = none := by
    simp only [goesOnExpr, Bool.or_eq_false_iff] at hstop
    exact Option.not_isSome_iff_eq_none.mp (by simp [hstop.2])
  refine Ends.bind (P := fun v u => v = (kind, false) ∧ u = t) (ends_iterate ?_) ?_
  · simp only [ends_peek_bind, hoperator]
    exact ends_pure ⟨by simp, fun _ => ⟨rfl, rfl⟩⟩
  · rintro _ u ⟨rfl, rfl⟩
    exact ends_pure ⟨rfl, hQ⟩

/-- A primary expression that nothing goes on with is an operand. -/
theorem ends_operand_of_primary
    {depth : Nat}
    (hfirst : s.peek ∈ primaryFirst)
    (hlabel : s.nth 1 ≠ .colon)
    (h : (primaryType (level depth)).Ends s fun found t =>
      found = some kind ∧ Q t ∧ goesOnExpr t.peek = false) :
    (level (depth + 2)).operand.Ends s fun found t =>
      found = some kind ∧ Q t ∧ goesOnExpr t.peek = false := by
  have hprimary := ends_primaryExpr_of_primary hfirst hlabel h
  change (operandWith (level (depth + 1))).Ends s _
  rw [operandWith, ends_peek_bind]
  simp only [primaryFirst, List.mem_cons, List.not_mem_nil, or_false] at hfirst
  rcases hfirst with hpeek | hpeek | hpeek | hpeek | hpeek | hpeek | hpeek <;> rw [hpeek] <;>
    exact hprimary

end Expressions

end Zig
end ZigCst
