import ZigCst.Proofs.Braces
import ZigCst.Proofs.Rounds

/-!
# Zig expressions end at closing braces

Every part of the grammar that may stand last in an expression either insists on taking
something or is silent unless an expression goes on.  So an expression that ends with a
brace is parsed in the same way whatever comes behind it that does not go on with it.

**Definitions.**
* `Level.Presses`: the parsers of a level end at a brace.

**Results.**
* `shuns_asmExpr`: inline assembly does not end with a brace.
* `presses_level`: the parsers of all levels end at a brace.
-/

namespace ZigCst
namespace Zig

open ZigCst.Parser

/-- A parser of a node that lands insists on taking something. -/
theorem Resolves.presses
    {p : NodeParser}
    (h : Resolves p)
    (hlands : Lands p) :
    Presses p :=
  ⟨hlands, fun {c} _ hquiet => h.takes c fun hnone => h.reports c hnone hquiet⟩

/-- The parsers of a level insist on taking something. -/
structure Level.Presses (inner : Level) : Prop where
  expr : Zig.Presses inner.expr
  operand : Zig.Presses inner.operand
  type : Zig.Presses inner.type

theorem presses_name (recovery : KindSet Kind) : Presses (name recovery) :=
  presses_at_bind (Presses.node presses_advance).discard
    (presses_of_faults (faults_recover _ _) (steady_recover _ _))

theorem presses_delimited
    {item : Parser Kind Unit}
    (hitem : item.Steady IsStop)
    (opening closing : Kind)
    (what : Item)
    (hclosing : closing ≠ .eof) :
    Presses (delimited opening closing what item) :=
  presses_seq (steady_expect opening) <|
    presses_seq (steady_repeatWhile (steady_itemAndComma hitem closing what))
      (presses_expect hclosing)

section Grammar

variable {inner : Level} (h : inner.Steady) (hend : inner.Presses)
include h hend

/-! ## Assignments, captures and branches -/

omit h in
theorem presses_assignExpr : Presses (assignExpr inner) := by
  refine hend.expr.bind fun found => ?_
  cases found with
  | none => exact settles_pure none
  | some lhs =>
      have hassign : Presses (do
          return some (← wrap .assignExpr do
            advance
            discard inner.expr) : NodeParser) :=
        (Presses.wrap (presses_seq steady_advance hend.expr.discard)).bind
          fun _ => settles_pure _
      refine settles_peek_bind (return some lhs)
        (fun kind => Settles.ite hassign.settles (settles_pure _)) fun kind next hinert => ?_
      exact if_neg (by simp [isAssignment_of_inert hinert])

omit h in
theorem settles_elseBranch : Settles (elseBranch inner) := by
  refine settles_at_bind (fun _ => rfl) (Presses.node ?_).discard.settles (settles_pure _)
  exact presses_seq steady_advance <| presses_seq steady_payload (presses_assignExpr hend).discard

theorem presses_ifExpr : Presses (ifExpr inner) := by
  refine Presses.node (presses_seq steady_advance <| presses_seq (steady_condition h) <|
    presses_seq steady_payload ?_)
  exact (presses_assignExpr hend).discard.bind fun _ => settles_elseBranch hend

omit hend in
theorem presses_switchExpr : Presses (switchExpr inner) :=
  Presses.node <| presses_seq steady_advance <| presses_seq (steady_condition h) <|
    presses_delimited (steady_switchProng h) _ _ _ (by decide)

omit hend in
theorem presses_argList : Presses (argList inner) :=
  (Presses.node (presses_delimited h.expr.steady.discard _ _ _ (by decide))).discard

omit hend in
theorem presses_initList : Presses (initList inner) :=
  Presses.node <| presses_seq (steady_skip _) <|
    presses_delimited (steady_initializer h) _ _ _ (by decide)

/-! ## Function prototypes and blocks -/

theorem presses_fnProto : Presses (fnProto inner) := by
  refine presses_bind (steady_at _) fun _ => presses_seq (steady_ensure _) <|
    presses_seq steady_advance <| presses_bind (steady_at _) fun _ => ?_
  refine Presses.ite (presses_seq (steady_name _) ?hparams) ?hparams
  refine presses_bind (steady_at _) fun _ => ?_
  refine Presses.ite (presses_seq (steady_paramList h) ?hreturn) (presses_seq (steady_report _) ?hreturn)
  refine presses_seq (steady_clauses h true) <| presses_seq (steady_skip _) <|
    presses_bind (steady_at _) fun _ => presses_bind (steady_at _) fun _ => ?_
  exact Presses.ite (presses_report _) hend.type.discard

omit hend in
theorem presses_blockBody : Presses (blockBody inner) :=
  presses_seq (steady_expect _) <|
    presses_seq (steady_repeatWhile (steady_statementInBlock h)) (presses_expect (by decide))

/-! ## Types and primary expressions -/

omit hend in
theorem presses_containerDecl : Presses (containerDecl inner) := by
  have hmembers : Presses (do
      if ← eat .leftBrace then
        containerMembers inner true
        expect .rightBrace
      else report .expectedContainerBody : Parser Kind Unit) := by
    refine presses_bind (steady_eat _) fun _ => Presses.ite ?_ (presses_report _)
    exact presses_seq (steady_containerMembers h true) (presses_expect (by decide))
  refine Presses.node (presses_bind (steady_eat _) fun _ => ?_)
  refine Presses.ite ?hkeyword (presses_seq (steady_skip _) ?hkeyword)
  refine presses_bind steady_peek fun kind => ?_
  dsimp only
  split
  · exact presses_seq steady_advance (presses_seq (steady_containerTag h) hmembers)
  · exact presses_seq steady_advance (presses_seq (steady_containerTag h) hmembers)
  · exact presses_seq steady_advance (presses_seq (steady_unionTag h) hmembers)
  · exact presses_seq steady_advance hmembers
  · exact presses_seq (steady_report _) hmembers

omit hend in
theorem presses_builtinCall : Presses (builtinCall inner) :=
  Presses.node <| presses_seq steady_advance <|
    presses_at_bind (presses_argList h) (presses_report _)

omit h hend in
theorem presses_noExpression : Presses noExpression := by
  have hfaults : (noExpression : Parser Kind (Option Kind)).Faults :=
    sound_peek.bind_faults fun _ => (faults_recover _ _).bind fun _ => sound_pure _
  exact presses_of_faults hfaults resolves_noExpression.steady

omit h hend in
/-- A loop over lexemes of one kind takes no others. -/
theorem kind_of_mem_repeatWhile_eat
    {kind : Kind}
    (hkind : kind ≠ .eof)
    (c : Cursor Kind)
    {taken : List (Lexeme Kind)}
    (h : c.Takes taken ((repeatWhile (eat kind) : Parser Kind Unit) c).cursor) :
    ∀ l ∈ taken, l.kind = kind := by
  by_cases hnext : kindAt 0 c.rest = kind
  · cases hrest : c.rest with
    | nil =>
        rw [hrest] at hnext
        exact absurd hnext.symm hkind
    | cons l rest =>
        rw [hrest] at hnext
        have heat := eat_of_cons hrest hnext
        have hnextTakes := Cursor.Takes.next hrest
        have hleft : c.next.left < c.left := hnextTakes.left_lt_iff.mpr (List.cons_ne_nil _ _)
        have hleft' : ((eat kind : Parser Kind Bool) c).cursor.left < c.left := by rwa [heat]
        have hvalue : ((eat kind : Parser Kind Bool) c).value = true := by rw [heat]
        rw [repeatWhile_again hvalue hleft', heat] at h
        have hsteady : (repeatWhile (eat kind) : Parser Kind Unit).Steady IsStop :=
          steady_repeatWhile (steady_eat kind)
        obtain ⟨more, hmore⟩ := hsteady.forward c.next
        obtain rfl := h.unique (hnextTakes.trans hmore)
        have ih := kind_of_mem_repeatWhile_eat hkind c.next hmore
        exact List.forall_mem_cons.mpr ⟨hnext, ih⟩
  · have heat := eat_of_ne hnext
    have hvalue : ((eat kind : Parser Kind Bool) c).value = false := by rw [heat]
    rw [repeatWhile_last hvalue, heat] at h
    obtain rfl := h.unique (.refl c)
    simp
termination_by c.left

omit h hend in
/-- The lines of a literal are no braces. -/
theorem shuns_lines : Shuns (repeatWhile (eat Kind.stringLiteralMulti)) := by
  rintro c taken htakes - ⟨z, hz, hbrace⟩
  have hkind := kind_of_mem_repeatWhile_eat (by decide) c htakes z (List.mem_of_getLast? hz)
  rw [hkind] at hbrace
  exact absurd hbrace (by decide)

theorem presses_primaryType : Presses (primaryType inner) := by
  have hsome : ∀ {q : Parser Kind Kind}, Presses q → Lands (do return some (← q) : NodeParser) :=
    fun hq => (hq.bind fun _ => settles_pure _).toLands
  have htoken : ∀ kind : Kind, Lands (do return some (← node kind advance) : NodeParser) :=
    fun kind => hsome (Presses.node presses_advance)
  have hcontainer : Lands (do return some (← containerDecl inner) : NodeParser) :=
    hsome (presses_containerDecl h)
  refine (resolves_primaryType h).presses (lands_peek_nth_bind ?_ fun kind next => ?_)
  · rintro kind (rfl | rfl | rfl) next next' <;> rfl
  · split
    · exact hsome (presses_builtinCall h)
    · exact htoken _
    · exact htoken _
    · exact htoken _
    · exact htoken _
    · exact htoken _
    · exact (Lands.node (shuns_lines.lands (steady_repeatWhile (steady_eat _)))).bind
        fun _ => settles_pure _
    · exact htoken _
    · exact htoken _
    · exact hcontainer
    · exact hcontainer
    · exact hcontainer
    · exact hcontainer
    · exact hcontainer
    · exact hcontainer
    · exact hsome (Presses.node (presses_seq steady_advance (presses_name _)))
    · exact hsome (presses_initList h)
    · exact hsome (Presses.node (presses_seq steady_advance
        (presses_delimited (steady_name _) _ _ _ (by decide))))
    · exact hsome (Presses.node (presses_seq steady_advance
        (presses_seq steady_advance (presses_name _))))
    · exact hsome (Presses.node (presses_fnProto h hend))
    · exact hsome (Presses.node (presses_seq steady_advance
        (presses_seq h.expr.steady.discard (presses_expect (by decide)))))
    · exact hsome (presses_ifExpr h hend)
    · exact hsome (presses_switchExpr h)
    · exact hsome (Presses.node (presses_seq steady_advance hend.type.discard))
    · exact presses_noExpression.toLands

omit hend in
theorem settles_suffix (lhs : Kind) : Settles (suffix inner lhs) := by
  have hwrap : ∀ {kind : Kind} {body : Parser Kind Unit}, Presses body →
      Settles (do return (true, ← wrap kind body) : Parser Kind (Bool × Kind)) :=
    fun hbody => ((Presses.wrap hbody).bind fun _ => settles_pure _).settles
  refine settles_peek_nth_bind ?_ (return (false, lhs)) (fun kind next => ?_)
    fun kind next hinert => ?_
  · rintro kind (rfl | rfl | rfl) next next' <;> rfl
  · split
    · refine ((Presses.wrapOf ?_).bind fun _ => settles_pure _).settles
      exact presses_seq steady_advance <| presses_bind (steady_indexOrSlice h) fun _ =>
        (presses_expect (by decide)).bind fun _ => settles_pure _
    · exact hwrap (presses_seq steady_advance (presses_name _))
    · exact hwrap (presses_seq steady_advance presses_advance)
    · exact hwrap presses_advance
    · exact hwrap (presses_argList h)
    · exact settles_pure _
  · split
    all_goals first | rfl | simp [continues] at hinert

theorem presses_suffixExpr : Presses (suffixExpr inner) := by
  refine (presses_primaryType h hend).bind fun found => ?_
  cases found with
  | none => exact settles_pure none
  | some lhs => exact (settles_iterate (settles_suffix h) lhs).bind fun _ => settles_pure _

theorem presses_errorUnion : Presses (errorUnion inner) := by
  refine (presses_suffixExpr h hend).bind fun found => ?_
  cases found with
  | none => exact settles_pure none
  | some lhs =>
      refine settles_at_bind (fun _ => rfl) (Presses.settles ?_) (settles_pure _)
      exact (Presses.wrap (presses_seq steady_advance hend.type.discard)).bind fun _ => settles_pure _

theorem presses_bracketType : Presses (bracketType inner) := by
  refine Presses.nodeOf (presses_seq steady_advance <| presses_bind (steady_bracketContent h)
    fun kind => presses_seq (steady_expect _) ?_)
  refine Presses.ite ?htype (presses_seq (steady_pointerModifiers h) ?htype)
  exact hend.type.discard.bind fun _ => settles_pure _

theorem presses_typeWith : Presses (typeWith inner) := by
  have hsome : ∀ {q : Parser Kind Kind}, Presses q → Lands (do return some (← q) : NodeParser) :=
    fun hq => (hq.bind fun _ => settles_pure _).toLands
  have hpointer : Lands (do
      return some (← node .ptrType do
        advance
        pointerModifiers inner
        discard inner.type) : NodeParser) :=
    hsome (Presses.node (presses_seq steady_advance
      (presses_seq (steady_pointerModifiers h) hend.type.discard)))
  refine (resolves_typeWith h).presses (lands_peek_nth_bind ?_ fun kind next => ?_)
  · rintro kind (rfl | rfl | rfl) next next' <;> rfl
  · split
    · exact hsome (Presses.node (presses_seq steady_advance hend.type.discard))
    · exact hsome (Presses.node (presses_seq steady_advance
        (presses_seq steady_advance hend.type.discard)))
    · exact hpointer
    · exact hpointer
    · exact hsome (presses_bracketType h hend)
    · exact (presses_errorUnion h hend).toLands

/-! ## Expressions -/

/-- How many parentheses are open behind a lexeme of a kind. -/
def openBehind (depth : Nat) : Kind → Nat
  | .leftParen => depth + 1
  | .rightParen => depth - 1
  | _ => depth

omit h hend in
theorem assemblyToken_of_cons
    {c : Cursor Kind}
    {l : Lexeme Kind}
    {rest : List (Lexeme Kind)}
    {depth : Nat}
    (hrest : c.rest = l :: rest)
    (hopen : (depth != 0 || l.kind != .rightParen) = true) :
    (assemblyToken depth : Parser Kind (Bool × Nat)) c =
      ⟨(openBehind depth l.kind != 0, openBehind depth l.kind), c.next, [.advance]⟩ := by
  have hnext : kindAt 0 c.rest = l.kind := by rw [hrest]; rfl
  have hpeek : (peek : Parser Kind Kind) c = ⟨l.kind, c, []⟩ := by rw [← hnext]; rfl
  have hend : (atEnd : Parser Kind Bool) c = ⟨false, c, []⟩ := by
    rw [atEnd, look_eq, hrest]
    rfl
  rw [assemblyToken, bind_of_eq hend, if_neg Bool.false_ne_true, bind_of_eq hpeek, ensure, if_pos hopen]
  rw [bind_of_eq (show (pure () : Parser Kind Unit) c = ⟨(), c, []⟩ from rfl), bind_of_eq hpeek]
  change Outcome.mk _ ((advance : Parser Kind Unit) c).cursor
    (((advance : Parser Kind Unit) c).trace ++ []) = _
  rw [advance_of_cons hrest]
  cases l.kind <;> rfl

omit h hend in
/-- Parentheses that are open are closed by the last lexeme that is taken. -/
theorem exists_rightParen_of_assembly
    {depth : Nat}
    (hdepth : depth ≠ 0)
    (c : Cursor Kind)
    (hclosed : ((iterate assemblyToken depth : Parser Kind Nat) c).value = 0)
    {taken : List (Lexeme Kind)}
    (htakes : c.Takes taken ((iterate assemblyToken depth : Parser Kind Nat) c).cursor) :
    ∃ z, taken.getLast? = some z ∧ z.kind = .rightParen := by
  cases hrest : c.rest with
  | nil =>
      have hrun : (assemblyToken depth : Parser Kind (Bool × Nat)) c = ⟨(false, depth), c, []⟩ := by
        have hend : (atEnd : Parser Kind Bool) c = ⟨true, c, []⟩ := by
          rw [atEnd, look_eq, hrest]
          rfl
        rw [assemblyToken, bind_of_eq hend]
        rfl
      rw [iterate_last (by rw [hrun]), hrun] at hclosed
      exact absurd hclosed hdepth
  | cons l rest =>
      have hopen : (depth != 0 || l.kind != .rightParen) = true := by simp [hdepth]
      have hrun := assemblyToken_of_cons hrest hopen
      have hnext := Cursor.Takes.next hrest
      by_cases hzero : openBehind depth l.kind = 0
      · rw [iterate_last (by rw [hrun]; simp [hzero]), hrun] at htakes
        obtain rfl := htakes.unique hnext
        refine ⟨l, rfl, ?_⟩
        unfold openBehind at hzero
        split at hzero
        · omega
        · assumption
        · exact absurd hzero hdepth
      · have hvalue : ((assemblyToken depth : Parser Kind (Bool × Nat)) c).value.1 = true := by
          rw [hrun]
          simpa using hzero
        have hleft : ((assemblyToken depth : Parser Kind (Bool × Nat)) c).cursor.left < c.left := by
          rw [hrun]
          exact hnext.left_lt_iff.mpr (List.cons_ne_nil _ _)
        have hless : c.next.left < c.left := hnext.left_lt_iff.mpr (List.cons_ne_nil _ _)
        rw [iterate_again hvalue hleft, hrun] at hclosed htakes
        have hsteady : ∀ depth, (assemblyToken depth : Parser Kind (Bool × Nat)).Steady IsStop :=
          steady_assemblyToken
        obtain ⟨more, hmore⟩ := exists_takes_iterate hsteady (openBehind depth l.kind) c.next
        obtain rfl := htakes.unique (hnext.trans hmore)
        obtain ⟨z, hz, hparen⟩ := exists_rightParen_of_assembly hzero c.next hclosed hmore
        exact ⟨z, by rw [List.getLast?_append, hz]; rfl, hparen⟩
termination_by c.left

/-- The operands of inline assembly. -/
def assemblyOperands : Parser Kind Unit := do
  if ← at_ .leftParen then
    let depth ← iterate assemblyToken 0
    unless depth == 0 do
      report .unclosedAssembly
  else report .expectedAssemblyParen

omit h hend in
theorem steady_assemblyOperands : assemblyOperands.Steady IsStop := by
  refine (steady_at _).bind fun _ => Steady.ite ?_ (steady_report _)
  exact (steady_iterate steady_assemblyToken 0).bind fun _ =>
    Steady.ite (steady_pure _) (steady_report _)

omit h hend in
/-- The operands of inline assembly end with a parenthesis. -/
theorem exists_rightParen_of_operands
    {c : Cursor Kind}
    {taken : List (Lexeme Kind)}
    (hquiet : Trace.reports (assemblyOperands c).trace = 0)
    (htakes : c.Takes taken (assemblyOperands c).cursor) :
    ∃ z, taken.getLast? = some z ∧ z.kind = .rightParen := by
  have hat : (at_ .leftParen : Parser Kind Bool) c = ⟨kindAt 0 c.rest == .leftParen, c, []⟩ := rfl
  rw [assemblyOperands, bind_of_eq hat] at hquiet htakes
  by_cases hnext : kindAt 0 c.rest = .leftParen
  · rw [hnext, beq_self_eq_true, if_pos rfl] at hquiet htakes
    have hsecond := (reports_bind hquiet).2
    have hclosed : ((iterate assemblyToken 0 : Parser Kind Nat) c).value = 0 := by
      by_cases hzero : ((iterate assemblyToken 0 : Parser Kind Nat) c).value = 0
      · exact hzero
      · rw [beq_eq_false_iff_ne.mpr hzero, if_neg Bool.false_ne_true] at hsecond
        exact absurd hsecond ((faults_report _).reports_ne_zero _)
    have hcursor : c.Takes taken ((iterate assemblyToken 0 : Parser Kind Nat) c).cursor := by
      have hsame := htakes
      change c.Takes taken
        ((if ((iterate assemblyToken 0 : Parser Kind Nat) c).value == 0 then pure ()
          else report .unclosedAssembly : Parser Kind Unit)
            ((iterate assemblyToken 0 : Parser Kind Nat) c).cursor).cursor at hsame
      rwa [hclosed] at hsame
    cases hrest : c.rest with
    | nil =>
        rw [hrest] at hnext
        exact absurd hnext (by decide)
    | cons l rest =>
        rw [hrest] at hnext
        have hl : l.kind = .leftParen := hnext
        have hrun : (assemblyToken 0 : Parser Kind (Bool × Nat)) c =
            ⟨(true, 1), c.next, [.advance]⟩ := by
          rw [assemblyToken_of_cons hrest (by rw [hl]; rfl), hl]
          rfl
        have hstart := Cursor.Takes.next hrest
        have hleft : ((assemblyToken 0 : Parser Kind (Bool × Nat)) c).cursor.left < c.left := by
          rw [hrun]
          exact hstart.left_lt_iff.mpr (List.cons_ne_nil _ _)
        rw [iterate_again (by rw [hrun]) hleft, hrun] at hclosed hcursor
        have hsteady : ∀ depth, (assemblyToken depth : Parser Kind (Bool × Nat)).Steady IsStop :=
          steady_assemblyToken
        obtain ⟨more, hmore⟩ := exists_takes_iterate hsteady 1 c.next
        obtain rfl := hcursor.unique (hstart.trans hmore)
        obtain ⟨z, hz, hparen⟩ := exists_rightParen_of_assembly Nat.one_ne_zero c.next hclosed hmore
        exact ⟨z, by rw [List.getLast?_append, hz]; rfl, hparen⟩
  · rw [beq_eq_false_iff_ne.mpr hnext, if_neg Bool.false_ne_true] at hquiet
    exact absurd hquiet ((faults_report _).reports_ne_zero c)

omit h hend in
theorem shuns_asmExpr : Shuns asmExpr := by
  have hoperands : Shuns assemblyOperands := by
    rintro c taken htakes hquiet ⟨z, hz, hbrace⟩
    obtain ⟨z', hz', hparen⟩ := exists_rightParen_of_operands hquiet htakes
    obtain rfl := Option.some.inj (hz.symm.trans hz')
    rw [hparen] at hbrace
    exact absurd hbrace (by decide)
  have htakes : ∀ (_ : Unit) (c : Cursor Kind), Trace.reports (assemblyOperands c).trace = 0 →
      (assemblyOperands c).cursor.left < c.left := by
    intro _ c hquiet
    obtain ⟨taken, htaken⟩ := steady_assemblyOperands.forward c
    obtain ⟨z, hz, -⟩ := exists_rightParen_of_operands hquiet htaken
    rw [htaken.left_lt_iff]
    rintro rfl
    cases hz
  have hbody : Shuns (do (do advance; skip .volatileKw); assemblyOperands : Parser Kind Unit) :=
    shuns_bind (steady_advance.seq (steady_skip _)) (fun _ => steady_assemblyOperands)
      (fun _ => hoperands) htakes
  refine hbody.of_cursor_eq (fun _ => rfl) fun c hquiet => ?_
  change Trace.reports ((node .asmExpr (do advance; skip .volatileKw; assemblyOperands) :
    Parser Kind Kind) c).trace = 0 at hquiet
  rw [reports_node] at hquiet
  have htrace : ((do (do advance; skip .volatileKw); assemblyOperands : Parser Kind Unit) c).trace =
      ((do advance; skip .volatileKw; assemblyOperands : Parser Kind Unit) c).trace :=
    List.append_assoc _ _ _
  rwa [htrace]

omit h hend in
/-- A name that is there is the next lexeme. -/
theorem exists_rest_of_name
    {recovery : KindSet Kind}
    {c : Cursor Kind}
    (hquiet : Trace.reports ((name recovery : Parser Kind Unit) c).trace = 0) :
    ∃ l rest, c.rest = l :: rest ∧ l.kind = .identifier ∧
      ((name recovery : Parser Kind Unit) c).cursor = c.next := by
  have hrun : (name recovery : Parser Kind Unit) c = (if kindAt 0 c.rest == .identifier then
      (discard <| node .ident advance) else recover .expectedIdentifier recovery :
        Parser Kind Unit) c := rfl
  by_cases hnext : kindAt 0 c.rest = .identifier
  · cases hrest : c.rest with
    | nil =>
        rw [hrest] at hnext
        exact absurd hnext (by decide)
    | cons l rest =>
        refine ⟨l, rest, rfl, by rw [hrest] at hnext; exact hnext, ?_⟩
        rw [hrun, hnext, beq_self_eq_true, if_pos rfl]
        change ((advance : Parser Kind Unit) c).cursor = _
        rw [advance_of_cons hrest]
  · rw [hrun, beq_eq_false_iff_ne.mpr hnext, if_neg Bool.false_ne_true] at hquiet
    exact absurd hquiet ((faults_recover _ _).reports_ne_zero c)

omit h hend in
theorem shuns_jumpLabel : Shuns jumpLabel := by
  have hname : Shuns (name .empty) := by
    rintro c taken htakes hquiet ⟨z, hz, hbrace⟩
    obtain ⟨l, rest, hrest, hl, hcursor⟩ := exists_rest_of_name hquiet
    rw [hcursor] at htakes
    obtain rfl := htakes.unique (.next hrest)
    obtain rfl : l = z := Option.some.inj hz
    rw [hl] at hbrace
    exact absurd hbrace (by decide)
  have hlabel : Shuns (do advance; name .empty : Parser Kind Unit) := by
    refine shuns_bind steady_advance (fun _ => steady_name _) (fun _ => hname) fun _ c hquiet => ?_
    obtain ⟨l, rest, hrest, -, hcursor⟩ := exists_rest_of_name hquiet
    rw [hcursor]
    exact (Cursor.Takes.next hrest).left_lt_iff.mpr (List.cons_ne_nil _ _)
  intro c taken htakes hquiet hbrace
  have hrun : (jumpLabel : Parser Kind Bool) c =
      (if kindAt 0 c.rest == .colon && kindAt 1 c.rest == .identifier then
        (do
          discard <| node .label do
            advance
            name .empty
          return true)
        else return false : Parser Kind Bool) c := rfl
  rw [hrun] at htakes hquiet
  split at htakes
  · rename_i hahead
    rw [if_pos hahead] at hquiet
    have hquiet' := (reports_bind hquiet).1
    rw [reports_discard, reports_node] at hquiet'
    exact hlabel c taken htakes hquiet' hbrace
  · obtain rfl := htakes.unique (.refl c)
    exact not_braced_nil hbrace

omit h in
theorem lands_optionalExpr : Lands (optionalExpr inner) :=
  lands_of_look (fun ls => if exprFirst.contains (kindAt 0 ls) then discard inner.expr else pure ())
    (fun _ => rfl) (fun _ _ hxy => by rw [kindAt_zero_eq hxy])
    fun _ => Lands.ite hend.expr.discard.toLands (settles_pure _).lands

omit h in
theorem landsFrom_breakExpr :
    LandsFrom .breakKw (do return some (← breakExpr inner) : NodeParser) := by
  refine LandsFrom.some_node (landsFrom_advance_bind (by decide) ?_)
  have hjump : Shuns (discard jumpLabel : Parser Kind Unit) :=
    shuns_jumpLabel.of_cursor_eq (fun _ => rfl) fun c hquiet => reports_discard jumpLabel c ▸ hquiet
  exact hjump.bind_lands steady_jumpLabel.discard fun _ => lands_optionalExpr hend

omit h in
theorem landsFrom_continueExpr :
    LandsFrom .continueKw (do return some (← continueExpr inner) : NodeParser) := by
  refine LandsFrom.some_node (landsFrom_advance_bind (by decide) ?_)
  refine shuns_jumpLabel.bind_lands steady_jumpLabel fun _ => ?_
  exact Lands.ite (lands_optionalExpr hend) (settles_pure _).lands

omit h in
theorem landsFrom_returnExpr :
    LandsFrom .returnKw (do return some (← returnExpr inner) : NodeParser) :=
  LandsFrom.some_node (landsFrom_advance_bind (by decide) (lands_optionalExpr hend))

omit h in
theorem presses_keywordExpr (kind : Kind) : Presses (keywordExpr inner kind) :=
  Presses.node (presses_seq steady_advance hend.expr.discard)

theorem presses_loopBody : Presses (loopBody inner) := by
  have hbody : ∀ kind : Kind, Presses (do
      discard (assignExpr inner)
      elseBranch inner
      return kind : Parser Kind Kind) :=
    fun kind => (presses_assignExpr hend).discard.bind fun _ =>
      (settles_elseBranch hend).bind fun _ => settles_pure kind
  refine presses_seq (steady_skip _) (presses_bind steady_peek fun kind => ?_)
  split
  · exact presses_seq steady_advance <| presses_seq (steady_condition h) <|
      presses_seq steady_payload <| presses_seq (steady_whileContinue h) (hbody _)
  · refine presses_seq steady_advance <| presses_seq (steady_delimited (steady_forInput h) _ _ _) <|
      presses_bind (steady_at _) fun _ => ?_
    exact Presses.ite (presses_seq steady_payload (hbody _)) (presses_seq (steady_report _) (hbody _))
  · have hfaults : (do report .expectedLoop; return .error : Parser Kind Kind).Faults :=
      (faults_report _).bind fun _ => sound_pure _
    exact presses_of_faults hfaults ((steady_report _).seq (steady_pure _))

theorem presses_labeled : Presses (labeled inner) := by
  refine Presses.nodeOf (presses_seq steadyFrom_label.steady (presses_bind (steady_at _) fun _ => ?_))
  refine Presses.ite ?_ (presses_loopBody h hend)
  exact (presses_blockBody h).bind fun _ => settles_pure _

theorem presses_curlySuffix : Presses (curlySuffix inner) := by
  refine hend.type.bind fun found => ?_
  cases found with
  | none => exact settles_pure none
  | some type =>
      refine settles_at_bind (fun _ => rfl) (Presses.settles ?_) (settles_pure _)
      exact (Presses.wrap (presses_initList h).discard).bind fun _ => settles_pure _

theorem presses_primaryExpr : Presses (primaryExpr inner) := by
  have hsome : ∀ {q : Parser Kind Kind}, Presses q → Lands (do return some (← q) : NodeParser) :=
    fun hq => (hq.bind fun _ => settles_pure _).toLands
  have hloop : Lands (do return some (← nodeOf (loopBody inner)) : NodeParser) :=
    hsome (Presses.nodeOf (presses_loopBody h hend))
  refine (resolves_primaryExpr h).presses ?_
  refine lands_of_look (fun ls => if labelAhead ls then (do return some (← labeled inner)) else _)
    (fun c => bind_of_eq (atLabeled_eq c)) (fun _ _ hxy => by rw [labelAhead_eq hxy])
    fun ls => Lands.ite (hsome (presses_labeled h hend)) (lands_peek_bind fun kind => ?_)
  split
  · exact (Lands.bind (shuns_asmExpr.lands steadyFrom_asmExpr.steady) fun _ => settles_pure _).from _
  · exact (hsome (presses_ifExpr h hend)).from _
  · exact landsFrom_breakExpr hend
  · exact landsFrom_continueExpr hend
  · exact landsFrom_returnExpr hend
  · exact (hsome (presses_keywordExpr hend _)).from _
  · exact (hsome (presses_keywordExpr hend _)).from _
  · exact (hsome (presses_keywordExpr hend _)).from _
  · exact hloop.from _
  · exact hloop.from _
  · exact hloop.from _
  · exact (hsome (Presses.node (presses_blockBody h))).from _
  · exact (presses_curlySuffix h hend).toLands.from _

theorem presses_operandWith : Presses (operandWith inner) := by
  have hprefix : Presses (do
      return some (← node .prefixExpr do
        advance
        discard inner.operand) : NodeParser) :=
    (Presses.node (presses_seq steady_advance hend.operand.discard)).bind fun _ => settles_pure _
  refine presses_bind steady_peek fun kind => ?_
  split
  all_goals first | exact hprefix | exact presses_primaryExpr h hend

omit h in
/-- Only operators are looked at behind an operand. -/
theorem presses_binaryExpr (least : Nat) : Presses (binaryExpr inner least) := by
  rw [binaryExpr]
  refine hend.operand.bind fun found => ?_
  cases found with
  | none => exact settles_pure none
  | some lhs =>
      refine (settles_iterate (fun v => ?_) _).bind fun _ => settles_pure _
      obtain ⟨lhs, compared⟩ := v
      dsimp only
      refine settles_peek_bind (return (false, lhs, compared)) (fun kind => ?_)
        fun kind next hinert => ?_
      · split
        · exact settles_pure _
        · rename_i precedence hprecedence
          split
          · have hright := (presses_binaryExpr (precedence.val + 1)).discard
            refine Settles.ite (Presses.settles (presses_seq (steady_report _) ?hwrap))
              (Presses.settles ?hwrap)
            refine (Presses.wrap (presses_bind (steady_at _) fun _ => presses_seq steady_advance ?_)).bind
              fun _ => settles_pure _
            exact Presses.ite (presses_seq steady_payload hright) hright
          · exact settles_pure _
      · rw [precedence?_of_inert hinert]
termination_by 8 - least
decreasing_by omega

end Grammar

/-- The parsers of all levels end at a brace. -/
theorem presses_level (depth : Nat) : (level depth).Presses := by
  induction depth with
  | zero =>
      have hfaults : (do tooDeep; return none : NodeParser).Faults :=
        faults_tooDeep.bind fun _ => sound_pure _
      have hfail : Presses (do tooDeep; return none : NodeParser) :=
        presses_of_faults hfaults (steady_tooDeep.seq (steady_pure _))
      exact ⟨hfail, hfail, hfail⟩
  | succ depth ih =>
      have hsteady := steady_level depth
      exact ⟨presses_binaryExpr ih 1, presses_operandWith hsteady ih,
        presses_typeWith hsteady ih⟩

end Zig
end ZigCst
