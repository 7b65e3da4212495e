import ZigCst.Proofs.Lockstep
import ZigCst.Proofs.ZigGrammar

/-!
# The Zig grammar looks no further than its stops

Semicolons and braces are stops: whatever a parser of the grammar decides, it decides
alike on streams that agree up to the next of them.  One or two lexemes are
looked at behind the next one, but never behind a stop.

A statement asks for the lexeme before it, and then an expression has been taken: a
parser of a node gives one only if it has taken something, and reports a fault
otherwise.

**Definitions.**
* `IsStop`: the kinds that stop.
* `Resolves`: a steady parser that takes a node or reports a fault.
* `Level.Steady`: the parsers of a level resolve.

**Results.**
* `steady_level`: all levels are steady.
* `steady_containerMembers`: so are the members of a file.
-/

namespace ZigCst
namespace Zig

open ZigCst.Parser

/-- Whether nothing behind a lexeme of a kind changes what is done before it. -/
def IsStop (kind : Kind) : Prop :=
  kind = .semicolon ∨ kind = .leftBrace ∨ kind = .rightBrace

instance (kind : Kind) : Decidable (IsStop kind) := inferInstanceAs (Decidable (_ ∨ _ ∨ _))

/-- Whether a parser of a node is steady, and takes something if it gives a node and
reports a fault if it gives none. -/
structure Resolves (p : NodeParser) : Prop where
  steady : p.Steady IsStop
  takes : ∀ c, (p c).value ≠ none → (p c).cursor.left < c.left
  reports : ∀ c, (p c).value = none → Trace.reports (p c).trace ≠ 0

/-- The parsers of a level resolve. -/
structure Level.Steady (inner : Level) : Prop where
  expr : Resolves inner.expr
  operand : Resolves inner.operand
  type : Resolves inner.type

/-- A node that was found goes on to be one. -/
theorem Resolves.bind
    {p : NodeParser}
    {f : Option Kind → NodeParser}
    (hp : Resolves p)
    (hnone : f none = pure none)
    (hsome : ∀ kind, (f (some kind)).Steady IsStop)
    (hgives : ∀ kind, (f (some kind)).Gives (· ≠ none)) :
    Resolves (p >>= f) := by
  have hsteady : ∀ found, (f found).Steady IsStop := by
    rintro (_ | kind)
    · rw [hnone]
      exact steady_pure _
    · exact hsome kind
  have hvalue : ∀ c, (p c).value = none ↔ ((p >>= f) c).value = none := by
    intro c
    change _ ↔ (f (p c).value (p c).cursor).value = none
    cases (p c).value with
    | none =>
        rw [hnone]
        exact Iff.rfl
    | some kind => simpa using hgives kind (p c).cursor
  refine ⟨hp.steady.bind hsteady, fun c hc => ?_, fun c hc hquiet => ?_⟩
  · refine left_bind_lt (hp.takes c fun hnone => hc ((hvalue c).mp hnone)) fun found => ?_
    exact (hsteady found).forward
  · exact hp.reports c ((hvalue c).mpr hc) (reports_bind hquiet).1

/-- Whether a parser of a node resolves where the next lexeme is of a kind. -/
structure ResolvesAt (kind : Kind) (p : NodeParser) : Prop where
  steady : p.Steady IsStop
  takes : ∀ c, kindAt 0 c.rest = kind → (p c).value ≠ none → (p c).cursor.left < c.left
  reports : ∀ c, kindAt 0 c.rest = kind → (p c).value = none → Trace.reports (p c).trace ≠ 0

theorem Resolves.at
    {p : NodeParser}
    (h : Resolves p)
    (kind : Kind) :
    ResolvesAt kind p :=
  ⟨h.steady, fun c _ => h.takes c, fun c _ => h.reports c⟩

/-- A node that starts with the next lexeme. -/
theorem resolvesAt_some
    {kind : Kind}
    {q : Parser Kind Kind}
    {starts : Kind → Prop}
    (hq : q.SteadyFrom IsStop starts)
    (hkind : starts kind) :
    ResolvesAt kind (do return some (← q)) where
  steady := hq.steady.bind fun _ => steady_pure _
  takes c hc _ := hq.takes c (hc ▸ hkind)
  reports _ _ hnone := nomatch hnone

theorem resolves_peek_bind
    {f : Kind → NodeParser}
    (hf : ∀ kind, ResolvesAt kind (f kind)) :
    Resolves (peek >>= f) where
  steady := steady_peek.bind fun kind => (hf kind).steady
  takes c := (hf (kindAt 0 c.rest)).takes c rfl
  reports c := (hf (kindAt 0 c.rest)).reports c rfl

theorem resolves_peek_nth_bind
    {f : Kind → Kind → NodeParser}
    (hf : ∀ kind next, ResolvesAt kind (f kind next))
    (hstop : ∀ kind, IsStop kind → ∀ next next', f kind next = f kind next') :
    Resolves (peek >>= fun kind => nth 1 >>= fun next => f kind next) where
  steady := steady_peek_nth_bind (fun kind next => (hf kind next).steady) hstop
  takes c := (hf (kindAt 0 c.rest) (kindAt 1 c.rest)).takes c rfl
  reports c := (hf (kindAt 0 c.rest) (kindAt 1 c.rest)).reports c rfl

/-! ## Common parts -/

section Lists

theorem steady_name (recovery : KindSet Kind) : (name recovery : Parser Kind Unit).Steady IsStop :=
  (steady_at _).bind fun _ => Steady.ite (Steady.node steady_advance).discard (steady_recover _ _)

variable {item : Parser Kind Unit} (hitem : item.Steady IsStop)
include hitem

theorem steady_itemAndComma
    (closing : Kind)
    (what : Item) :
    (itemAndComma closing what item).Steady IsStop := by
  refine (steady_at _).bind fun _ => steady_atEnd.bind fun _ => Steady.ite (steady_pure _) ?_
  refine (steady_at _).bind fun _ => Steady.ite ((steady_bump _).seq (steady_pure _)) ?_
  refine hitem.moves.bind fun _ => Steady.ite ?_ (steady_pure _)
  refine (steady_eat _).bind fun _ => Steady.ite (steady_pure _) ?_
  refine (steady_at _).bind fun _ => (steady_atAny _).bind fun _ => Steady.ite (steady_pure _) ?_
  exact (steady_expect _).seq (steady_pure _)

theorem steady_delimited
    (opening closing : Kind)
    (what : Item) :
    (delimited opening closing what item).Steady IsStop :=
  (steady_expect opening).seq <|
    (steady_repeatWhile (steady_itemAndComma hitem closing what)).seq (steady_expect closing)

end Lists

section Parts

variable {inner : Level} (h : inner.Steady)
include h

theorem steady_condition : (condition inner).Steady IsStop :=
  (steady_expect _).seq <| h.expr.steady.discard.seq (steady_expect _)

/-! ## Assignments, captures and branches -/

theorem resolves_assignExpr : Resolves (assignExpr inner) := by
  refine h.expr.bind rfl (fun lhs => ?_) fun lhs => ?_
  · refine steady_peek.bind fun _ => Steady.ite ?_ (steady_pure _)
    exact (Steady.wrap (steady_advance.seq h.expr.steady.discard)).bind fun _ => steady_pure _
  · refine gives_bind fun _ => Gives.ite ?_ (gives_pure (by simp))
    exact gives_bind fun _ => gives_pure (by simp)

omit h in
theorem steady_capture : (capture : Parser Kind Bool).Steady IsStop :=
  (steady_skip _).seq <| (steady_name _).seq (steady_eat _)

omit h in
theorem steady_payload : (payload : Parser Kind Unit).Steady IsStop := by
  refine (steady_at _).bind fun _ => Steady.ite (Steady.node ?_).discard (steady_pure _)
  exact steady_advance.seq <| (steady_repeatWhile steady_capture).seq (steady_expect _)

theorem steady_elseBranch : (elseBranch inner).Steady IsStop := by
  refine (steady_at _).bind fun _ => Steady.ite (Steady.node ?_).discard (steady_pure _)
  exact steady_advance.seq <| steady_payload.seq (resolves_assignExpr h).steady.discard

theorem steadyFrom_ifExpr : (ifExpr inner).SteadyFrom IsStop (· ≠ .eof) :=
  SteadyFrom.node <| steadyFrom_advance.bind fun _ => (steady_condition h).seq <|
    steady_payload.seq <| (resolves_assignExpr h).steady.discard.seq (steady_elseBranch h)

theorem steady_switchItem : (switchItem inner).Steady IsStop := by
  refine h.expr.steady.discard.seq <| (steady_eat _).bind fun _ => ?_
  refine Steady.ite (h.expr.steady.discard.seq ?hcomma) ?hcomma
  refine (steady_eat _).bind fun _ => Steady.ite ?_ (steady_pure _)
  exact (steady_at _).bind fun _ => steady_pure _

theorem steady_switchProng : (switchProng inner).Steady IsStop := by
  refine (Steady.node ?_).discard
  refine (steady_skip _).seq <| (Steady.node ?_).discard.seq <| (steady_expect _).seq <|
    steady_payload.seq (resolves_assignExpr h).steady.discard
  refine (steady_eat _).bind fun _ => Steady.ite (steady_pure _) ?_
  exact steady_repeatWhile (steady_switchItem h)

theorem steadyFrom_switchExpr : (switchExpr inner).SteadyFrom IsStop (· ≠ .eof) :=
  SteadyFrom.node <| steadyFrom_advance.bind fun _ => (steady_condition h).seq <|
    steady_delimited (steady_switchProng h) _ _ _

theorem steady_argList : (argList inner).Steady IsStop :=
  (Steady.node (steady_delimited h.expr.steady.discard _ _ _)).discard

theorem steady_initializer : (initializer inner).Steady IsStop := by
  refine steady_three_ahead (by decide) (by decide) (Steady.node ?_).discard h.expr.steady.discard
  exact steady_advance.seq <| (steady_name _).seq <| steady_advance.seq h.expr.steady.discard

theorem steadyFrom_initList : (initList inner).SteadyFrom IsStop (· = .dot) :=
  SteadyFrom.node <| (steadyFrom_skip (by decide)).bind fun _ =>
    steady_delimited (steady_initializer h) _ _ _

/-! ## Clauses, parameters and function prototypes -/

theorem steady_alignClause : (alignClause inner).Steady IsStop := by
  refine (Steady.node ?_).discard
  refine steady_advance.seq <| (steady_expect _).seq <| h.expr.steady.discard.seq <|
    (steady_eat _).bind fun _ => Steady.ite ?_ (steady_expect _)
  exact h.expr.steady.discard.seq <| (steady_expect _).seq <| h.expr.steady.discard.seq (steady_expect _)

theorem steady_keywordClause (kind : Kind) : (keywordClause inner kind).Steady IsStop :=
  (Steady.node (steady_advance.seq (steady_condition h))).discard

theorem steady_clause (ofFunction : Bool) : (clause inner ofFunction).Steady IsStop := by
  refine steady_peek.bind fun kind => ?_
  split
  · exact (steady_alignClause h).seq (steady_pure _)
  · exact (steady_keywordClause h _).seq (steady_pure _)
  · exact (steady_keywordClause h _).seq (steady_pure _)
  · exact Steady.ite ((steady_keywordClause h _).seq (steady_pure _)) (steady_pure _)
  · exact steady_pure _

theorem steady_clauses (ofFunction : Bool) : (clauses inner ofFunction).Steady IsStop :=
  steady_repeatWhile (steady_clause h ofFunction)

omit h in
theorem steady_fieldName : (fieldName : Parser Kind Unit).Steady IsStop :=
  steady_two_ahead (by decide) ((steady_name _).seq steady_advance) (steady_pure _)

theorem steady_paramBody : (paramBody inner).Steady IsStop := by
  refine steady_fieldName.seq <| steady_peek.bind fun kind => ?_
  split
  · exact steady_advance
  · exact steady_advance
  · exact h.type.steady.discard

theorem steady_param : (param inner).Steady IsStop := by
  refine (Steady.node ((steady_eat _).bind fun _ => ?_)).discard
  exact Steady.ite (steady_paramBody h) ((steady_skip _).seq (steady_paramBody h))

theorem steady_paramList : (paramList inner).Steady IsStop :=
  (Steady.node (steady_delimited (steady_param h) _ _ _)).discard

theorem steadyFrom_fnProto : (fnProto inner).SteadyFrom IsStop (· ≠ .eof) := by
  refine (steady_at _).bind_from fun _ => (steady_ensure _).bind_from fun _ =>
    steadyFrom_advance.bind fun _ => (steady_at _).bind fun _ => ?_
  refine Steady.ite ((steady_name _).seq ?hparams) ?hparams
  refine (steady_at _).bind fun _ => ?_
  refine Steady.ite ((steady_paramList h).seq ?hreturn) ((steady_report _).seq ?hreturn)
  refine (steady_clauses h true).seq <| (steady_skip _).seq <|
    (steady_at _).bind fun _ => (steady_at _).bind fun _ => ?_
  exact Steady.ite (steady_report _) h.type.steady.discard

theorem steady_varDecl : (varDecl inner).Steady IsStop := by
  refine steady_advance.seq <| (steady_name _).seq <| (steady_eat _).bind fun _ => ?_
  refine Steady.ite (h.type.steady.discard.seq ?hclauses) ?hclauses
  refine (steady_clauses h false).seq <| (steady_eat _).bind fun _ => ?_
  exact Steady.ite (h.expr.steady.discard.seq (steady_expect _)) (steady_expect _)

/-! ## Statements and blocks -/

theorem steady_statementBody : (statementBody inner).Steady IsStop := by
  refine (resolves_assignExpr h).steady.bind_behind (fun found => ?_) fun c => ?_
  · cases found with
    | none => exact (steady_pure _).behind
    | some kind =>
        exact steadyBehind_prev_bind fun _ => Steady.ite (steady_pure _) (steady_expect _)
  · cases hfound : (assignExpr inner c).value with
    | none => exact .inl (steady_pure _)
    | some kind => exact .inr ((resolves_assignExpr h).takes c (by simp [hfound]))

theorem steady_deferStatement : (deferStatement inner).Steady IsStop := by
  refine (Steady.node ((steady_eat _).bind fun _ => ?_)).discard
  exact Steady.ite (steady_payload.seq (steady_statementBody h))
    (steady_advance.seq (steady_statementBody h))

theorem steady_statement : (statement inner).Steady IsStop := by
  have hvarDecl := steady_varDecl h
  have hbody := steady_statementBody h
  refine steady_peek_nth_bind (fun kind next => ?_) fun kind hkind next next' => ?_
  · split
    · exact (Steady.node (steady_advance.seq hvarDecl)).discard
    · exact (Steady.node (steady_advance.seq hvarDecl)).discard
    · exact (Steady.node hvarDecl).discard
    · exact (Steady.node hvarDecl).discard
    · exact steady_deferStatement h
    · exact steady_deferStatement h
    · exact (Steady.node (steady_advance.seq hbody)).discard
    · exact steady_bump _
    · exact steady_bump _
    · exact steady_bump _
    · exact steady_bump _
    · exact (Steady.node hbody).discard
  · rcases hkind with rfl | rfl | rfl <;> rfl

theorem steady_statementInBlock : (statementInBlock inner).Steady IsStop := by
  refine (steady_at _).bind fun _ => steady_atEnd.bind fun _ => Steady.ite (steady_pure _) ?_
  refine (steady_statement h).moves.bind fun _ => ?_
  exact Steady.ite (steady_pure _) ((steady_bump _).seq (steady_pure _))

theorem steadyFrom_blockBody : (blockBody inner).SteadyFrom IsStop (· = .leftBrace) :=
  (steadyFrom_expect (by decide)).bind fun _ =>
    (steady_repeatWhile (steady_statementInBlock h)).seq (steady_expect _)

theorem steady_block : (block inner).Steady IsStop := by
  refine (steady_at _).bind fun _ => Steady.ite (Steady.node (steadyFrom_blockBody h).steady).discard ?_
  exact steady_peek.bind fun _ => steady_recover _ _

/-! ## Declarations and members of containers -/

omit h in
theorem steady_stringLiteral : (stringLiteral : Parser Kind Unit).Steady IsStop :=
  (Steady.node steady_advance).discard

theorem steady_testDecl : (testDecl inner).Steady IsStop := by
  have hblock := steady_block h
  refine (Steady.node (steady_advance.seq <| steady_peek.bind fun kind => ?_)).discard
  dsimp only
  split
  · exact steady_stringLiteral.seq hblock
  · exact (steady_name _).seq hblock
  · exact hblock

omit h in
theorem steady_linkage : (linkage : Parser Kind Unit).Steady IsStop := by
  refine steady_peek.bind fun kind => ?_
  split
  · exact steady_advance
  · exact steady_advance
  · exact steady_advance
  · refine steady_advance.seq <| (steady_at _).bind fun _ => ?_
    exact Steady.ite steady_stringLiteral (steady_pure _)
  · exact steady_pure _

theorem steady_declBody : (declBody inner).Steady IsStop := by
  refine (steady_skip _).seq <| (steady_eat _).bind fun _ => Steady.ite ?_ ?_
  · exact h.expr.steady.discard.seq <| (steady_expect _).seq (steady_pure _)
  refine steady_linkage.seq <| (steady_at _).bind fun _ => Steady.ite ?_ ?_
  · refine (steadyFrom_fnProto h).steady.seq <| (steady_at _).bind fun _ => Steady.ite ?_ ?_
    · exact (steady_block h).seq (steady_pure _)
    · exact (steady_expect _).seq (steady_pure _)
  · refine (steady_skip _).seq <| (steady_at _).bind fun _ => (steady_at _).bind fun _ => ?_
    exact Steady.ite ((steady_varDecl h).seq (steady_pure _)) ((steady_report _).seq (steady_pure _))

theorem steady_containerField : (containerField inner).Steady IsStop := by
  refine (Steady.node ?_).discard
  refine (steady_skip _).seq <| steady_fieldName.seq <| h.type.steady.discard.seq <|
    (steady_at _).bind fun _ => ?_
  refine Steady.ite ((steady_alignClause h).seq ?hdefault) ?hdefault
  refine (steady_eat _).bind fun _ => ?_
  refine Steady.ite (h.expr.steady.discard.seq ?hcomma) ?hcomma
  refine (steady_eat _).bind fun _ => Steady.ite (steady_pure _) ?_
  refine (steady_at _).bind fun _ => steady_atEnd.bind fun _ => ?_
  exact Steady.ite (steady_pure _) (steady_report _)

theorem steady_containerMember : (containerMember inner).Steady IsStop := by
  have hdecl : (discard (nodeOf (declBody inner)) : Parser Kind Unit).Steady IsStop :=
    (steady_declBody h).nodeOf.discard
  have hcomptime : (discard <| node .comptimeDecl do
      advance
      block inner : Parser Kind Unit).Steady IsStop :=
    (Steady.node (steady_advance.seq (steady_block h))).discard
  have hfield := steady_containerField h
  refine steady_peek_bind_of fun kind => ?_
  split
  · exact .inl (steady_testDecl h)
  · exact .inl hdecl
  · exact .inl hdecl
  · exact .inl hdecl
  · exact .inl hdecl
  · exact .inl hdecl
  · exact .inl hdecl
  · exact .inl hdecl
  · exact .inl hdecl
  · exact .inl hdecl
  · exact .inl hdecl
  · refine .inr ⟨by decide, fun next => if next == .leftBrace then (do
      discard <| node .comptimeDecl do
        advance
        block inner) else containerField inner, fun next => ?_, fun c => rfl⟩
    exact Steady.ite hcomptime hfield
  · exact .inl hfield
  · exact .inl (steady_bump _)
  · exact .inl (steady_bump _)

theorem steady_memberInContainer (inBraces : Bool) :
    (memberInContainer inner inBraces).Steady IsStop := by
  refine steady_atEnd.bind fun _ => (steady_at _).bind fun _ => Steady.ite (steady_pure _) ?_
  refine (steady_containerMember h).moves.bind fun _ => ?_
  exact Steady.ite (steady_pure _) ((steady_bump _).seq (steady_pure _))

theorem steady_containerMembers (inBraces : Bool) :
    (containerMembers inner inBraces).Steady IsStop :=
  steady_repeatWhile (steady_memberInContainer h inBraces)

/-! ## Types and primary expressions -/

theorem steady_containerTag : (containerTag inner).Steady IsStop := by
  refine (steady_eat _).bind fun _ => Steady.ite ?_ (steady_pure _)
  exact h.expr.steady.discard.seq (steady_expect _)

theorem steady_unionTag : (unionTag inner).Steady IsStop := by
  refine (steady_eat _).bind fun _ => Steady.ite ?_ (steady_pure _)
  refine (steady_eat _).bind fun _ => Steady.ite ?_ ?_
  · exact (steady_containerTag h).seq (steady_expect _)
  · exact h.expr.steady.discard.seq (steady_expect _)

/-- Whether a lexeme of a kind is the keyword of a container. -/
def IsContainerKeyword (kind : Kind) : Prop := kind ∈ [.structKw, .enumKw, .unionKw, .opaqueKw]

theorem steadyFrom_containerDecl :
    (containerDecl inner).SteadyFrom IsStop fun kind =>
      kind = .externKw ∨ kind = .packedKw ∨ IsContainerKeyword kind := by
  have hmembers : (do
      if ← eat .leftBrace then
        containerMembers inner true
        expect .rightBrace
      else report .expectedContainerBody : Parser Kind Unit).Steady IsStop :=
    (steady_eat _).bind fun _ =>
      Steady.ite ((steady_containerMembers h true).seq (steady_expect _)) (steady_report _)
  have hopened : ∀ {body : Parser Kind Unit}, body.Steady IsStop → ∀ {kind : Kind}, kind ≠ .eof →
      (advance >>= fun _ => body).SteadyFrom IsStop
        fun next => next = kind ∧ IsContainerKeyword kind := by
    intro body hbody kind hkind
    refine (steadyFrom_advance.bind fun _ => hbody).mono ?_
    rintro _ ⟨rfl, -⟩
    exact hkind
  refine SteadyFrom.node (steadyFrom_eat_bind (by decide) (SteadyFrom.steady ?hkeyword)
    (steadyFrom_skip_bind (by decide) ?hkeyword))
  refine steadyFrom_peek_bind fun kind => ?_
  dsimp only
  split
  · exact hopened ((steady_containerTag h).seq hmembers) (by decide)
  · exact hopened ((steady_containerTag h).seq hmembers) (by decide)
  · exact hopened ((steady_unionTag h).seq hmembers) (by decide)
  · exact hopened hmembers (by decide)
  · refine ((steady_report _).seq hmembers).fromNone ?_
    rintro _ ⟨rfl, hkeyword⟩
    simp only [IsContainerKeyword, List.mem_cons, List.not_mem_nil, or_false] at hkeyword
    rcases hkeyword with rfl | rfl | rfl | rfl <;> contradiction

theorem steadyFrom_builtinCall : (builtinCall inner).SteadyFrom IsStop (· ≠ .eof) := by
  refine SteadyFrom.node (steadyFrom_advance.bind fun _ => (steady_at _).bind fun _ => ?_)
  exact Steady.ite (steady_argList h) (steady_report _)

omit h in
theorem resolves_noExpression : Resolves noExpression := by
  have hfaults : (noExpression : Parser Kind (Option Kind)).Faults :=
    sound_peek.bind_faults fun _ => (faults_recover _ _).bind fun _ => sound_pure _
  refine ⟨?_, fun c hc => absurd rfl hc, fun c _ => hfaults.reports_ne_zero c⟩
  exact steady_peek.bind fun _ => (steady_recover _ _).seq (steady_pure _)

theorem resolves_primaryType : Resolves (primaryType inner) := by
  have htoken : ∀ {node kind : Kind}, kind ≠ .eof →
      ResolvesAt kind (do return some (← Parser.node node advance)) :=
    fun hkind => resolvesAt_some (SteadyFrom.node steadyFrom_advance) hkind
  have hcontainer : ∀ {kind : Kind},
      kind = .externKw ∨ kind = .packedKw ∨ IsContainerKeyword kind →
      ResolvesAt kind (do return some (← containerDecl inner)) :=
    fun hkind => resolvesAt_some (steadyFrom_containerDecl h) hkind
  refine resolves_peek_nth_bind (fun kind next => ?_) fun kind hkind next next' => ?_
  · split
    · exact resolvesAt_some (steadyFrom_builtinCall h) (by decide)
    · exact htoken (by decide)
    · exact htoken (by decide)
    · exact htoken (by decide)
    · exact htoken (by decide)
    · exact htoken (by decide)
    · refine resolvesAt_some (SteadyFrom.node (steadyFrom_repeatWhile (steadyFrom_eat ?_))) rfl
      decide
    · exact htoken (by decide)
    · exact htoken (by decide)
    · exact hcontainer (by simp)
    · exact hcontainer (by simp)
    · exact hcontainer (by simp [IsContainerKeyword])
    · exact hcontainer (by simp [IsContainerKeyword])
    · exact hcontainer (by simp [IsContainerKeyword])
    · exact hcontainer (by simp [IsContainerKeyword])
    · refine resolvesAt_some (SteadyFrom.node (steadyFrom_advance.bind fun _ => ?_)) (by decide)
      exact steady_name _
    · exact resolvesAt_some (steadyFrom_initList h) rfl
    · refine resolvesAt_some (SteadyFrom.node (steadyFrom_advance.bind fun _ => ?_)) (by decide)
      exact steady_delimited (steady_name _) _ _ _
    · refine resolvesAt_some (SteadyFrom.node (steadyFrom_advance.bind fun _ => ?_)) (by decide)
      exact steady_advance.seq (steady_name _)
    · exact resolvesAt_some (SteadyFrom.node (steadyFrom_fnProto h)) (by decide)
    · refine resolvesAt_some (SteadyFrom.node (steadyFrom_advance.bind fun _ => ?_)) (by decide)
      exact h.expr.steady.discard.seq (steady_expect _)
    · exact resolvesAt_some (steadyFrom_ifExpr h) (by decide)
    · exact resolvesAt_some (steadyFrom_switchExpr h) (by decide)
    · refine resolvesAt_some (SteadyFrom.node (steadyFrom_advance.bind fun _ => ?_)) (by decide)
      exact h.type.steady.discard
    · exact resolves_noExpression.at _
  · rcases hkind with rfl | rfl | rfl <;> rfl

theorem steady_indexOrSlice : (indexOrSlice inner).Steady IsStop := by
  have hexpr := h.expr.steady.discard
  refine hexpr.seq <| (steady_eat _).bind fun _ => Steady.ite ?_ (steady_pure _)
  refine (steady_at _).bind fun _ => (steady_at _).bind fun _ => ?_
  refine Steady.ite ?hsentinel (hexpr.seq ?hsentinel)
  exact (steady_eat _).bind fun _ => Steady.ite (hexpr.seq (steady_pure _)) (steady_pure _)

theorem steady_suffix (lhs : Kind) : (suffix inner lhs).Steady IsStop := by
  refine steady_peek_nth_bind (fun kind next => ?_) fun kind hkind next next' => ?_
  · split
    · refine (Steady.wrapOf ?_).bind fun _ => steady_pure _
      exact steady_advance.seq <| (steady_indexOrSlice h).bind fun _ =>
        (steady_expect _).seq (steady_pure _)
    · exact (Steady.wrap (steady_advance.seq (steady_name _))).bind fun _ => steady_pure _
    · exact (Steady.wrap (steady_advance.seq steady_advance)).bind fun _ => steady_pure _
    · exact (Steady.wrap steady_advance).bind fun _ => steady_pure _
    · exact (Steady.wrap (steady_argList h)).bind fun _ => steady_pure _
    · exact steady_pure _
  · rcases hkind with rfl | rfl | rfl <;> rfl

theorem resolves_suffixExpr : Resolves (suffixExpr inner) := by
  refine (resolves_primaryType h).bind rfl (fun lhs => ?_) fun lhs => ?_
  · exact (steady_iterate (steady_suffix h) lhs).bind fun _ => steady_pure _
  · exact gives_bind fun _ => gives_pure (by simp)

theorem resolves_errorUnion : Resolves (errorUnion inner) := by
  refine (resolves_suffixExpr h).bind rfl (fun lhs => ?_) fun lhs => ?_
  · refine (steady_at _).bind fun _ => Steady.ite ?_ (steady_pure _)
    exact (Steady.wrap (steady_advance.seq h.type.steady.discard)).bind fun _ => steady_pure _
  · refine gives_bind fun _ => Gives.ite ?_ (gives_pure (by simp))
    exact gives_bind fun _ => gives_pure (by simp)

theorem steady_pointerModifier : (pointerModifier inner).Steady IsStop := by
  refine steady_peek.bind fun kind => ?_
  split
  · exact steady_advance.seq (steady_pure _)
  · exact steady_advance.seq (steady_pure _)
  · exact steady_advance.seq (steady_pure _)
  · exact (steady_clauses h false).seq (steady_pure _)
  · exact (steady_clauses h false).seq (steady_pure _)
  · exact steady_pure _

theorem steady_pointerModifiers : (pointerModifiers inner).Steady IsStop :=
  steady_repeatWhile (steady_pointerModifier h)

theorem steady_bracketContent : (bracketContent inner).Steady IsStop := by
  have hexpr := h.expr.steady.discard
  refine steady_peek.bind fun kind => ?_
  split
  · refine steady_advance.seq <| (steady_at _).bind fun _ => steady_text.bind fun _ => ?_
    refine Steady.ite (steady_advance.seq (steady_pure _)) ?_
    refine (steady_eat _).bind fun _ => ?_
    exact Steady.ite (hexpr.seq (steady_pure _)) (steady_pure _)
  · exact steady_pure _
  · exact steady_advance.seq <| hexpr.seq (steady_pure _)
  · refine hexpr.seq <| (steady_eat _).bind fun _ => ?_
    exact Steady.ite (hexpr.seq (steady_pure _)) (steady_pure _)

theorem steadyFrom_bracketType : (bracketType inner).SteadyFrom IsStop (· ≠ .eof) := by
  refine SteadyFrom.nodeOf (steadyFrom_advance.bind fun _ => ?_)
  refine (steady_bracketContent h).bind fun kind => (steady_expect _).seq ?_
  refine Steady.ite ?htype ((steady_pointerModifiers h).seq ?htype)
  exact h.type.steady.discard.seq (steady_pure _)

theorem resolves_typeWith : Resolves (typeWith inner) := by
  have htype := h.type.steady.discard
  have hpointer : ∀ {kind : Kind}, kind ≠ .eof → ResolvesAt kind (do
      return some (← node .ptrType do
        advance
        pointerModifiers inner
        discard inner.type)) := by
    intro kind hkind
    refine resolvesAt_some (SteadyFrom.node (steadyFrom_advance.bind fun _ => ?_)) hkind
    exact (steady_pointerModifiers h).seq htype
  refine resolves_peek_nth_bind (fun kind next => ?_) fun kind hkind next next' => ?_
  · split
    · refine resolvesAt_some (SteadyFrom.node (steadyFrom_advance.bind fun _ => ?_)) (by decide)
      exact htype
    · refine resolvesAt_some (SteadyFrom.node (steadyFrom_advance.bind fun _ => ?_)) (by decide)
      exact steady_advance.seq htype
    · exact hpointer (by decide)
    · exact hpointer (by decide)
    · exact resolvesAt_some (steadyFrom_bracketType h) (by decide)
    · exact (resolves_errorUnion h).at _
  · rcases hkind with rfl | rfl | rfl <;> rfl

/-! ## Expressions -/

omit h in
theorem steady_assemblyToken (depth : Nat) :
    (assemblyToken depth : Parser Kind (Bool × Nat)).Steady IsStop := by
  refine steady_atEnd.bind fun _ => Steady.ite (steady_pure _) ?_
  refine steady_peek.bind fun _ => (steady_ensure _).seq <| steady_peek.bind fun _ => ?_
  exact steady_advance.seq (steady_pure _)

omit h in
theorem steadyFrom_asmExpr : (asmExpr : Parser Kind Kind).SteadyFrom IsStop (· ≠ .eof) := by
  refine SteadyFrom.node (steadyFrom_advance.bind fun _ => ?_)
  refine (steady_skip _).seq <| (steady_at _).bind fun _ => Steady.ite ?_ (steady_report _)
  refine (steady_iterate steady_assemblyToken 0).bind fun _ => ?_
  exact Steady.ite (steady_pure _) (steady_report _)

omit h in
theorem steadyFrom_label : (label : Parser Kind Unit).SteadyFrom IsStop (· = .identifier) := by
  have hname : (name .empty : Parser Kind Unit).SteadyFrom IsStop (· = .identifier) := by
    refine ⟨steady_name _, fun c hc => ?_⟩
    have hrun : (name .empty : Parser Kind Unit) c = (if kindAt 0 c.rest == .identifier then
      (discard <| node .ident advance) else recover .expectedIdentifier .empty :
        Parser Kind Unit) c := rfl
    rw [hrun, hc, beq_self_eq_true, if_pos rfl]
    have hident : (node Kind.ident advance : Parser Kind Kind).SteadyFrom IsStop (· ≠ .eof) :=
      SteadyFrom.node steadyFrom_advance
    exact hident.discard.takes c (by rw [hc]; decide)
  exact (SteadyFrom.node (hname.bind fun _ => steady_expect _)).discard

omit h in
theorem steady_jumpLabel : (jumpLabel : Parser Kind Bool).Steady IsStop := by
  refine steady_two_ahead (by decide) ?_ (steady_pure _)
  exact (Steady.node (steady_advance.seq (steady_name _))).discard.seq (steady_pure _)

theorem steady_optionalExpr : (optionalExpr inner).Steady IsStop :=
  (steady_atAny _).bind fun _ => Steady.ite h.expr.steady.discard (steady_pure _)

theorem steadyFrom_breakExpr : (breakExpr inner).SteadyFrom IsStop (· ≠ .eof) :=
  SteadyFrom.node <| steadyFrom_advance.bind fun _ =>
    steady_jumpLabel.discard.seq (steady_optionalExpr h)

theorem steadyFrom_continueExpr : (continueExpr inner).SteadyFrom IsStop (· ≠ .eof) :=
  SteadyFrom.node <| steadyFrom_advance.bind fun _ => steady_jumpLabel.bind fun _ =>
    Steady.ite (steady_optionalExpr h) (steady_pure _)

theorem steadyFrom_returnExpr : (returnExpr inner).SteadyFrom IsStop (· ≠ .eof) :=
  SteadyFrom.node <| steadyFrom_advance.bind fun _ => steady_optionalExpr h

theorem steadyFrom_keywordExpr (kind : Kind) :
    (keywordExpr inner kind).SteadyFrom IsStop (· ≠ .eof) :=
  SteadyFrom.node <| steadyFrom_advance.bind fun _ => h.expr.steady.discard

theorem steady_forInput : (forInput inner).Steady IsStop := by
  have hexpr := h.expr.steady.discard
  refine (Steady.node (hexpr.seq <| (steady_eat _).bind fun _ => ?_)).discard
  refine Steady.ite ((steady_at _).bind fun _ => (steady_at _).bind fun _ => ?_) (steady_pure _)
  exact Steady.ite (steady_pure _) hexpr

theorem steady_whileContinue : (whileContinue inner).Steady IsStop := by
  refine (steady_at _).bind fun _ => Steady.ite (Steady.node ?_).discard (steady_pure _)
  exact steady_advance.seq <| (steady_expect _).seq <|
    (resolves_assignExpr h).steady.discard.seq (steady_expect _)

theorem steadyFrom_loopBody :
    (loopBody inner).SteadyFrom IsStop fun kind =>
      kind = .inlineKw ∨ kind = .whileKw ∨ kind = .forKw := by
  have hbody : ∀ kind : Kind, (do
      discard (assignExpr inner)
      elseBranch inner
      return kind : Parser Kind Kind).Steady IsStop :=
    fun kind => (resolves_assignExpr h).steady.discard.seq <|
      (steady_elseBranch h).seq (steady_pure kind)
  refine steadyFrom_skip_bind (by decide) (steadyFrom_peek_bind fun kind => ?_)
  split
  · refine SteadyFrom.mono (steadyFrom_advance.bind fun _ => ?_) ?_
    · exact (steady_condition h).seq <| steady_payload.seq <| (steady_whileContinue h).seq (hbody _)
    · rintro _ ⟨rfl, -⟩
      decide
  · refine SteadyFrom.mono (steadyFrom_advance.bind fun _ => ?_) ?_
    · refine (steady_delimited (steady_forInput h) _ _ _).seq <| (steady_at _).bind fun _ => ?_
      exact Steady.ite (steady_payload.seq (hbody _)) ((steady_report _).seq (hbody _))
    · rintro _ ⟨rfl, -⟩
      decide
  · refine ((steady_report _).seq (steady_pure _)).fromNone ?_
    rintro _ ⟨rfl, rfl | rfl⟩ <;> contradiction

theorem steadyFrom_labeled : (labeled inner).SteadyFrom IsStop (· = .identifier) := by
  refine SteadyFrom.nodeOf (steadyFrom_label.bind fun _ => (steady_at _).bind fun _ => ?_)
  refine Steady.ite ?_ (steadyFrom_loopBody h).steady
  exact (steadyFrom_blockBody h).steady.seq (steady_pure _)

theorem resolves_curlySuffix : Resolves (curlySuffix inner) := by
  refine h.type.bind rfl (fun type => ?_) fun type => ?_
  · refine (steady_at _).bind fun _ => Steady.ite ?_ (steady_pure _)
    exact (Steady.wrap (steadyFrom_initList h).steady.discard).bind fun _ => steady_pure _
  · refine gives_bind fun _ => Gives.ite ?_ (gives_pure (by simp))
    exact gives_bind fun _ => gives_pure (by simp)

/-- Whether a label stands in front of a block or a loop. -/
def labelAhead (ls : List (Lexeme Kind)) : Bool :=
  kindAt 0 ls == .identifier && kindAt 1 ls == .colon &&
    match kindAt 2 ls with
    | .leftBrace | .whileKw | .forKw | .inlineKw => true
    | _ => false

omit h in
theorem atLabeled_eq (c : Cursor Kind) :
    (atLabeled : Parser Kind Bool) c = ⟨labelAhead c.rest, c, []⟩ := by
  have hrun : (atLabeled : Parser Kind Bool) c =
      (if kindAt 0 c.rest == .identifier && kindAt 1 c.rest == .colon then
        (nth 2 >>= fun kind => match kind with
          | .leftBrace | .whileKw | .forKw | .inlineKw => return true
          | _ => return false)
        else return false : Parser Kind Bool) c := rfl
  rw [hrun, labelAhead]
  cases kindAt 0 c.rest == .identifier && kindAt 1 c.rest == .colon with
  | false => rfl
  | true =>
      rw [if_pos rfl, bind_of_eq (nth_kindAt 2 c)]
      cases kindAt 2 c.rest <;> rfl

omit h in
/-- No stop stands in front of what shows a label. -/
theorem labelAhead_eq
    {x y : List (Lexeme Kind)}
    (hxy : AgreeTo IsStop x y) :
    labelAhead x = labelAhead y := by
  rw [labelAhead, labelAhead, ← kindAt_zero_eq hxy]
  by_cases hidentifier : kindAt 0 x = .identifier
  · have hzero : ¬ IsStop (kindAt 0 x) := by
      rw [hidentifier]
      decide
    rw [← kindAt_one_eq hxy hzero]
    by_cases hcolon : kindAt 1 x = .colon
    · rw [kindAt_two_eq hxy hzero (by rw [hcolon]; decide)]
    · rw [beq_eq_false_iff_ne.mpr hcolon, Bool.and_false, Bool.false_and, Bool.false_and]
  · rw [beq_eq_false_iff_ne.mpr hidentifier, Bool.false_and, Bool.false_and, Bool.false_and,
      Bool.false_and]

omit h in
theorem steady_atLabeled : (atLabeled : Parser Kind Bool).Steady IsStop :=
  steady_of_look (fun ls => pure (labelAhead ls)) atLabeled_eq (fun _ => steady_pure _)
    fun _ _ hxy => by rw [labelAhead_eq hxy]

omit h in
/-- What stands behind a label resolves if everything else does. -/
theorem resolves_atLabeled_bind
    {q : Parser Kind Kind}
    {p : NodeParser}
    (hq : q.SteadyFrom IsStop (· = .identifier))
    (hp : Resolves p) :
    Resolves (atLabeled >>= fun isLabeled => if isLabeled then (do return some (← q)) else p) := by
  have hsome := resolvesAt_some hq rfl
  have hahead : ∀ {ls : List (Lexeme Kind)}, labelAhead ls = true → kindAt 0 ls = .identifier := by
    intro ls hls
    rw [labelAhead, Bool.and_eq_true, Bool.and_eq_true] at hls
    exact beq_iff_eq.mp hls.1.1
  refine ⟨steady_atLabeled.bind fun _ => Steady.ite hsome.steady hp.steady, fun c => ?_, fun c => ?_⟩
  · rw [bind_of_eq (atLabeled_eq c)]
    cases hlabel : labelAhead c.rest with
    | false => exact hp.takes c
    | true => exact hsome.takes c (hahead hlabel)
  · rw [bind_of_eq (atLabeled_eq c)]
    cases hlabel : labelAhead c.rest with
    | false => exact hp.reports c
    | true => exact hsome.reports c (hahead hlabel)

theorem resolves_primaryExpr : Resolves (primaryExpr inner) := by
  have hloop : ∀ {kind : Kind}, kind = .inlineKw ∨ kind = .whileKw ∨ kind = .forKw →
      ResolvesAt kind (do return some (← nodeOf (loopBody inner))) :=
    fun hkind => resolvesAt_some (SteadyFrom.nodeOf (steadyFrom_loopBody h)) hkind
  refine resolves_atLabeled_bind (steadyFrom_labeled h) (resolves_peek_bind fun kind => ?_)
  split
  · exact resolvesAt_some steadyFrom_asmExpr (by decide)
  · exact resolvesAt_some (steadyFrom_ifExpr h) (by decide)
  · exact resolvesAt_some (steadyFrom_breakExpr h) (by decide)
  · exact resolvesAt_some (steadyFrom_continueExpr h) (by decide)
  · exact resolvesAt_some (steadyFrom_returnExpr h) (by decide)
  · exact resolvesAt_some (steadyFrom_keywordExpr h _) (by decide)
  · exact resolvesAt_some (steadyFrom_keywordExpr h _) (by decide)
  · exact resolvesAt_some (steadyFrom_keywordExpr h _) (by decide)
  · exact hloop (by simp)
  · exact hloop (by simp)
  · exact hloop (by simp)
  · exact resolvesAt_some (SteadyFrom.node (steadyFrom_blockBody h)) rfl
  · exact (resolves_curlySuffix h).at _

theorem resolves_operandWith : Resolves (operandWith inner) := by
  have hprefix : ∀ {kind : Kind}, kind ≠ .eof → ResolvesAt kind (do
      return some (← node .prefixExpr do
        advance
        discard inner.operand)) := by
    intro kind hkind
    refine resolvesAt_some (SteadyFrom.node (steadyFrom_advance.bind fun _ => ?_)) hkind
    exact h.operand.steady.discard
  refine resolves_peek_bind fun kind => ?_
  split
  all_goals first | exact hprefix (by decide) | exact (resolves_primaryExpr h).at _

/-- Operators are looked at one by one. -/
theorem resolves_binaryExpr (least : Nat) : Resolves (binaryExpr inner least) := by
  rw [binaryExpr]
  refine h.operand.bind rfl (fun lhs => ?_) fun lhs => ?_
  · refine (steady_iterate (fun v => ?_) _).bind fun _ => steady_pure _
    obtain ⟨lhs, compared⟩ := v
    dsimp only
    refine steady_peek.bind fun kind => ?_
    split
    · exact steady_pure _
    · rename_i precedence hprecedence
      split
      · have hright := (resolves_binaryExpr (precedence.val + 1)).steady.discard
        refine Steady.ite ((steady_report _).seq ?hwrap) ?hwrap
        refine (Steady.wrap ((steady_at _).bind fun _ => steady_advance.seq ?_)).bind fun _ =>
          steady_pure _
        exact Steady.ite (steady_payload.seq hright) hright
      · exact steady_pure _
  · exact gives_bind fun _ => gives_pure (by simp)
termination_by 8 - least
decreasing_by omega

end Parts

/-- All levels are steady. -/
theorem steady_level (depth : Nat) : (level depth).Steady := by
  induction depth with
  | zero =>
      have hfaults : (do tooDeep; return none : NodeParser).Faults :=
        faults_tooDeep.bind fun _ => sound_pure _
      have hfail : Resolves (do tooDeep; return none) :=
        ⟨steady_tooDeep.seq (steady_pure _), fun c hc => absurd rfl hc,
          fun c _ => hfaults.reports_ne_zero c⟩
      exact ⟨hfail, hfail, hfail⟩
  | succ depth ih =>
      exact ⟨resolves_binaryExpr ih 1, resolves_operandWith ih, resolves_typeWith ih⟩

end Zig
end ZigCst
