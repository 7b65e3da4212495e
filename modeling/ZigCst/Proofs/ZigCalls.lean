import ZigCst.Proofs.Bounded
import ZigCst.Proofs.ZigGrammar
import ZigCst.Proofs.ZigScript

/-!
# Calls within the Zig grammar

The routines are listed from the inside out.  Expressions, operands and types come first
because everything that they call is called behind a level of their own.  Every other
function calls, outside of those, only functions that come before it.

There is one exception.  The function of binary operators calls itself for what stands on
the right of an operator.  It does so only after an operand on the left was found, and that
takes a level; and it asks there for operators that bind more strongly, of which there are
eight kinds.

**Results.**
* `Routine.below_body`: the other functions call such as come before them.
* `Routine.calls_body`: so does that of binary operators, but for the call of itself.
* `Routine.exec_eq_none`: a prototype cannot be called but at its keyword.
-/

namespace ZigCst
namespace Zig
namespace Routine

open ZigCst.Parser CallOrder Scripted

instance : CallOrder Routine where
  order r := r.ctorIdx
  rest
    | binaryExpr least => 8 - least
    | _ => 0
  Idle
    | operand, a => a = none
    | _, _ => True
  functions := 43
  spread := 9

attribute [simp] Routine.ctorIdx function

@[simp]
theorem order_lt_order
    {α β : Type}
    (r : Routine α)
    (r' : Routine β) :
    order r < order r' ↔ r.ctorIdx < r'.ctorIdx := Iff.rfl

/-! ## Parts of functions -/

section Below

variable {k : Nat}

@[simp]
theorem below_expr {n : Nat} :
    calls.expr.Below n k ↔ order expr < n ∨ order expr = n ∧ rest expr < k := Iff.rfl

@[simp]
theorem below_operand {n : Nat} :
    calls.operand.Below n k ↔ order operand < n ∨ order operand = n ∧ rest operand < k := Iff.rfl

@[simp]
theorem below_type {n : Nat} :
    calls.type.Below n k ↔ order type < n ∨ order type = n ∧ rest type < k := Iff.rfl

@[simp]
theorem below_listed (listing : Listing) :
    (listed calls listing).Below (order (delimited listing)) k := by
  cases listing <;> simp [listed, Zig.param, initializer, forInput, Zig.switchProng, Zig.name]

@[simp]
theorem below_clause (ofFunction : Bool) :
    (clause calls ofFunction).Below (order (clauses ofFunction)) k := by
  refine below_bind.mpr ⟨below_peek, fun kind => ?_⟩
  split <;> simp [keywordClause, Zig.alignClause, Zig.condition]

@[simp]
theorem below_paramBody : (paramBody calls).Below (order param) k := by
  have hname : (fieldName : Scripted Kind Routine Unit).Below (order param) k := by
    simp [fieldName, Zig.name]
  refine below_bind.mpr ⟨hname, fun _ => below_bind.mpr ⟨below_peek, fun kind => ?_⟩⟩
  split <;> simp

@[simp]
theorem below_linkage : (linkage : Scripted Kind Routine Unit).Below (order decl) k := by
  refine below_bind.mpr ⟨below_peek, fun kind => ?_⟩
  split <;> simp [stringLiteral]

@[simp]
theorem below_suffix (lhs : Kind) : (suffix calls lhs).Below (order suffixExpr) k := by
  refine below_bind.mpr ⟨below_peek, fun kind => below_bind.mpr ⟨below_nth 1, fun next => ?_⟩⟩
  split <;> simp [indexOrSlice, Zig.name, Zig.argList]

@[simp]
theorem below_pointerModifier : (pointerModifier calls).Below (order pointerModifiers) k := by
  refine below_bind.mpr ⟨below_peek, fun kind => ?_⟩
  split <;> simp [Zig.clauses]

@[simp]
theorem below_bracketContent : (bracketContent calls).Below (order bracketType) k := by
  refine below_bind.mpr ⟨below_peek, fun kind => ?_⟩
  split <;> simp

theorem below_atLabeled : (atLabeled : Scripted Kind Routine Bool).Below (order primaryExpr) k := by
  refine below_bind.mpr ⟨below_at _, fun isName => below_bind.mpr ⟨below_nthAt _ _, fun _ => ?_⟩⟩
  split
  · refine below_bind.mpr ⟨below_nth 2, fun kind => ?_⟩
    split <;> simp
  · simp

/-! ## Functions -/

/-- What is nested too deep calls nothing. -/
theorem below_enter
    {n : Nat}
    (within : Script Kind Routine (Option Kind)) :
    (Script.enter within (fail (m := Scripted Kind Routine) false)).Below n k := by
  change Scripted.Below n k fail
  simp [fail]

theorem below_body_loop : (body loop).Below (order loop) k := by
  refine below_bind.mpr ⟨below_skip _, fun _ => below_bind.mpr ⟨below_peek, fun kind => ?_⟩⟩
  split <;> simp [Zig.condition, Zig.payload, whileContinue, Zig.assignExpr, Zig.elseBranch, list]

theorem below_body_statement : (body statement).Below (order statement) k := by
  refine below_bind.mpr ⟨below_peek, fun kind => below_bind.mpr ⟨below_nth 1, fun next => ?_⟩⟩
  split <;> simp [Zig.varDecl, deferStatement, Zig.payload, Zig.statementBody]

theorem below_body_testDecl : (body testDecl).Below (order testDecl) k := by
  simp only [body, function, Zig.testDecl, below_routine_true, below_discard, below_node]
  refine below_bind.mpr ⟨below_advance, fun _ => below_bind.mpr ⟨below_peek, fun kind => ?_⟩⟩
  split <;> simp [stringLiteral, Zig.name, Zig.block]

theorem below_body_containerMember : (body containerMember).Below (order containerMember) k := by
  refine below_bind.mpr ⟨below_peek, fun kind => ?_⟩
  split <;> simp [Zig.testDecl, Zig.decl, Zig.block, Zig.containerField]

theorem below_body_containerDecl : (body containerDecl).Below (order containerDecl) k := by
  simp only [body, function, Zig.containerDecl, below_routine_true, below_node]
  refine below_bind.mpr ⟨below_eat _, fun isExtern => ?_⟩
  cases isExtern with
  | true =>
      refine below_bind.mpr ⟨below_peek, fun kind => ?_⟩
      split <;> simp [containerTag, unionTag, Zig.containerMembers]
  | false =>
      refine below_bind.mpr ⟨below_skip _, fun _ => below_bind.mpr ⟨below_peek, fun kind => ?_⟩⟩
      split <;> simp [containerTag, unionTag, Zig.containerMembers]

theorem below_body_primaryType : (body primaryType).Below (order primaryType) k := by
  refine below_bind.mpr ⟨below_peek, fun kind => below_bind.mpr ⟨below_nth 1, fun next => ?_⟩⟩
  split <;> simp [builtinCall, Zig.argList, Zig.containerDecl, Zig.name, Zig.initList, list,
    Zig.fnProto, Zig.ifExpr, Zig.switchExpr, noExpression]

theorem below_body_primaryExpr : (body primaryExpr).Below (order primaryExpr) k := by
  refine below_bind.mpr ⟨below_atLabeled, fun isLabeled => ?_⟩
  split
  · simp [labeled, Zig.label, Zig.blockBody, loopBody]
  refine below_bind.mpr ⟨below_peek, fun kind => ?_⟩
  split <;> simp [Zig.asmExpr, Zig.ifExpr, breakExpr, continueExpr, returnExpr, keywordExpr,
    optionalExpr, Zig.jumpLabel, loopBody, Zig.blockBody, Zig.curlySuffix]

end Below

/-- Behind an operator, the function of binary operators asks for such as bind more
strongly. -/
theorem below_right
    {least : Nat}
    {precedence : Fin 8}
    (h : least ≤ precedence.val) :
    (Zig.binaryExpr calls (precedence.val + 1)).Below (order (binaryExpr least)) (8 - least) := by
  rw [Zig.binaryExpr]
  refine (below_routine _).mpr (.inr ⟨rfl, ?_⟩)
  simp only [rest]
  omega

/-- The function of binary operators calls that of operands, and what it does then depends on
whether there was one. -/
theorem exists_operators (least : Nat) :
    ∃ operators : Kind → Scripted Kind Routine (Option Kind),
      Zig.binaryExpr calls least = Parser.routine (binaryExpr least) (do
        match ← calls.operand with
        | none => return none
        | some lhs => operators lhs) ∧
      ∀ lhs, (operators lhs).Below (order (binaryExpr least)) (8 - least) := by
  rw [Zig.binaryExpr]
  refine ⟨_, rfl, fun lhs => below_bind.mpr ⟨fun v => ?_, fun _ => below_pure _⟩⟩
  refine below_bind.mpr ⟨below_peek, fun kind => ?_⟩
  cases precedence? kind with
  | none => exact below_pure _
  | some precedence =>
      dsimp only
      split
      · rename_i hleast
        simp [below_right hleast, Zig.payload]
      · exact below_pure _

theorem below_body_binaryExpr (least : Nat) :
    (body (binaryExpr least)).Below (order (binaryExpr least)) (8 - least) := by
  obtain ⟨operators, hfunction, hbelow⟩ := exists_operators least
  change (Zig.binaryExpr calls least true).Below _ _
  rw [hfunction, below_routine_true]
  refine below_bind.mpr ⟨by simp, fun lhs => ?_⟩
  cases lhs with
  | none => exact below_pure _
  | some lhs => exact hbelow lhs

/-- Outside of levels, a function calls only such as come before it, but for the function
of binary operators. -/
theorem below_body {α : Type} (r : Routine α) : (body r).Below (order r) (rest r) := by
  cases r with
  | expr => exact below_enter _
  | operand => exact below_enter _
  | type => exact below_enter _
  | name recovery => simp [body, Zig.name]
  | condition => simp [body, Zig.condition]
  | payload => simp [body, Zig.payload, capture, Zig.name]
  | assignExpr => exact below_bind.mpr ⟨by simp, fun lhs => by cases lhs <;> simp⟩
  | elseBranch => simp [body, Zig.elseBranch, Zig.payload, Zig.assignExpr]
  | label => simp [body, Zig.label, Zig.name]
  | jumpLabel => simp [body, Zig.jumpLabel, Zig.name]
  | alignClause => simp [body, Zig.alignClause]
  | clauses ofFunction => simp [body, Zig.clauses]
  | param => simp [body, Zig.param]
  | switchProng => simp [body, Zig.switchProng, switchItem, Zig.payload, Zig.assignExpr]
  | delimited listing => simp [body, list, Zig.delimited, itemAndComma]
  | paramList => simp [body, Zig.paramList, list]
  | argList => simp [body, Zig.argList, list]
  | initList => simp [body, Zig.initList, list]
  | ifExpr =>
      simp [body, Zig.ifExpr, Zig.condition, Zig.payload, Zig.assignExpr, Zig.elseBranch]
  | switchExpr => simp [body, Zig.switchExpr, Zig.condition, list]
  | asmExpr => simp [body, Zig.asmExpr, assemblyToken]
  | loop => exact below_body_loop
  | fnProto => simp [body, Zig.fnProto, Zig.name, Zig.paramList, Zig.clauses]
  | varDecl => simp [body, Zig.varDecl, Zig.name, Zig.clauses]
  | statementBody =>
      exact below_bind.mpr ⟨by simp [Zig.assignExpr], fun lhs => by cases lhs <;> simp⟩
  | statement => exact below_body_statement
  | blockBody => simp [body, Zig.blockBody, statementInBlock, Zig.statement]
  | block => simp [body, Zig.block, Zig.blockBody]
  | testDecl => exact below_body_testDecl
  | decl => simp [body, Zig.decl, declBody, Zig.fnProto, Zig.block, Zig.varDecl]
  | containerField =>
      simp [body, Zig.containerField, fieldName, Zig.name, Zig.alignClause]
  | containerMember => exact below_body_containerMember
  | containerMembers inBraces =>
      simp [body, Zig.containerMembers, memberInContainer, Zig.containerMember]
  | containerDecl => exact below_body_containerDecl
  | primaryType => exact below_body_primaryType
  | suffixExpr =>
      exact below_bind.mpr ⟨by simp [Zig.primaryType], fun lhs => by cases lhs <;> simp⟩
  | errorUnion =>
      exact below_bind.mpr ⟨by simp [Zig.suffixExpr], fun lhs => by cases lhs <;> simp⟩
  | pointerModifiers => simp [body, Zig.pointerModifiers]
  | bracketType => simp [body, Zig.bracketType, Zig.pointerModifiers]
  | curlySuffix =>
      exact below_bind.mpr ⟨by simp, fun lhs => by cases lhs <;> simp [Zig.initList]⟩
  | primaryExpr => exact below_body_primaryExpr
  | binaryExpr least => exact below_body_binaryExpr least
  | sourceFile => simp [body, fileOver, Zig.containerMembers]

/-- The function of binary operators calls itself behind an operand only. -/
theorem calls_body_binaryExpr (least : Nat) :
    (body (binaryExpr least)).Calls (May (binaryExpr least)) False := by
  obtain ⟨operators, hfunction, hbelow⟩ := exists_operators least
  change (Zig.binaryExpr calls least true).Calls _ _
  rw [hfunction]
  refine ⟨.inl (by simp), fun lhs => ?_⟩
  cases lhs with
  | none => trivial
  | some lhs =>
      exact (hbelow lhs).calls fun _ => ⟨.inr (Option.some_ne_none lhs), Nat.le_refl _⟩

theorem calls_body {α : Type} (r : Routine α) : (body r).Calls (May r) False := by
  cases r with
  | binaryExpr least => exact calls_body_binaryExpr least
  | _ => exact (below_body _).calls fun h => absurd h (Nat.lt_irrefl 0)

instance : LawfulGrammar Kind Routine where
  denote_body r depth := denote_body depth r
  calls_body := calls_body
  idle_body r a h := by
    cases r with
    | operand =>
        obtain ⟨_, -, hnone⟩ := h
        exact hnone
    | _ => trivial
  order_lt r := by cases r <;> simp [order, functions]
  rest_lt r := by
    cases r with
    | binaryExpr least => exact Nat.lt_succ_of_le (Nat.sub_le 8 least)
    | _ => exact Nat.succ_pos 8

/-! ## What functions add -/

theorem sound_listed
    {inner : Level}
    (h : inner.Sound)
    (listing : Listing) :
    (listed inner listing).Sound := by
  cases listing with
  | parameters => exact sound_param h
  | arguments => exact h.expr.sound.discard
  | initializers => exact sound_initializer h
  | forInputs => exact sound_forInput h
  | switchProngs => exact sound_switchProng h
  | errorNames => exact sound_name _

/-- A function other than the whole file adds children at every site where it is asked for. -/
theorem ends_parser_of_lt
    {α : Type}
    (r : Routine α)
    (depth : Nat)
    {s : Site Kind}
    (hready : Ready r s.peek)
    (hpart : order r < order sourceFile) :
    (parser r depth).Ends s fun _ t => s.Grows t := by
  have h := sound_level depth
  cases r with
  | expr => exact h.expr.sound s
  | operand => exact h.operand.sound s
  | type => exact h.type.sound s
  | name recovery => exact sound_name recovery s
  | condition => exact sound_condition h s
  | payload => exact sound_payload s
  | assignExpr => exact (plants_assignExpr h).sound s
  | elseBranch => exact sound_elseBranch h s
  | label => exact sound_label s
  | jumpLabel => exact sound_jumpLabel s
  | alignClause => exact (eats_alignClause h).sound s
  | clauses ofFunction => exact sound_clauses h ofFunction s
  | param => exact sound_param h s
  | switchProng => exact sound_switchProng h s
  | delimited listing => exact sound_delimited (sound_listed h listing) _ _ _ s
  | paramList => exact sound_paramList h s
  | argList => exact sound_argList h s
  | initList => exact (plants_initList h).sound s
  | ifExpr => exact (plants_ifExpr h).sound s
  | switchExpr => exact (plants_switchExpr h).sound s
  | asmExpr => exact plants_asmExpr.sound s
  | loop => exact sound_loopBody h s
  | fnProto => exact ends_fnProto h hready
  | varDecl => exact sound_varDecl h s
  | statementBody => exact sound_statementBody h s
  | statement => exact sound_statement h s
  | blockBody => exact sound_blockBody h s
  | block => exact sound_block h s
  | testDecl => exact (plants_testDecl h).sound s
  | decl => exact (plants_nodeOf gives_declBody (sound_declBody h)).discard.sound s
  | containerField => exact (plants_containerField h).sound s
  | containerMember => exact (plants_containerMember h).sound s
  | containerMembers inBraces => exact sound_containerMembers h inBraces s
  | containerDecl => exact (plants_containerDecl h).sound s
  | primaryType => exact (plants_primaryType h).sound s
  | suffixExpr => exact (plants_suffixExpr h).sound s
  | errorUnion => exact (plants_errorUnion h).sound s
  | pointerModifiers => exact sound_pointerModifiers h s
  | bracketType => exact (plants_bracketType h).sound s
  | curlySuffix => exact (plants_curlySuffix h).sound s
  | primaryExpr => exact (plants_primaryExpr h).sound s
  | binaryExpr least => exact (plants_binaryExpr h least).sound s
  | sourceFile => exact absurd hpart (Nat.lt_irrefl _)

instance : SoundGrammar Kind Routine where
  adds r depth c hready := by
    by_cases hpart : order r < order sourceFile
    · exact (ends_parser_of_lt r depth hready hpart).adds
    cases r with
    | sourceFile => exact adds_whole (by decide) (ends_containerMembers (sound_level depth) _)
    | _ => exact absurd (by simp) hpart

/-! ## Where a function is not asked for -/

/-- Where the next token is not of a kind, a run finds that out. -/
theorem exec_at
    {s : State Kind}
    {kind : Kind}
    (hs : s.Legal)
    (h : s.peek ≠ kind)
    (calls : Caller Kind Routine)
    (stack : List (Activation Routine)) :
    ((at_ kind : Scripted Kind Routine Bool) false).exec calls stack s = some ⟨false, s, []⟩ := by
  have hkind : ((s.cursor.rest[0]?.map Lexeme.kind).getD Vocabulary.eof == kind) = false := by
    have hpeek := hs.peek_cursor
    simp only [Site.peek, Site.nth, Site.kinds, Cursor.kinds, Site.ofCursor,
      List.getElem?_map] at hpeek
    rwa [hpeek, beq_eq_false_iff_ne]
  change some (Run.mk (_ == _) s ([] ++ [])) = _
  rw [hkind]
  rfl

/-- An assertion fails where a function is called that is not asked for. -/
theorem exec_eq_none
    {α : Type}
    {r : Routine α}
    {s : State Kind}
    (hs : s.Legal)
    (h : ¬ Grammar.Ready r s.peek)
    (height : Nat)
    (stack : List (Activation Routine)) :
    Grammar.exec height α r stack s = none := by
  cases r
  case fnProto =>
    cases height with
    | zero => rfl
    | succ height =>
        have hat := exec_at hs h (Grammar.exec height) (.of fnProto s :: stack)
        rw [Grammar.exec]
        change Option.map _
          ((((at_ Kind.fnKw : Scripted Kind Routine Bool) false).exec _ _ s).bind _) = none
        rw [hat]
        rfl
  all_goals exact absurd trivial h

end Routine
end Zig
end ZigCst
