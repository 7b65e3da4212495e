import ZigCst.Proofs.Congruence
import ZigCst.Proofs.ZigGrammar
import ZigCst.Zig.Grammar.Function

/-!
# The Zig grammar over related levels

What is related to what in the grammar follows from the levels further in, by going
through the grammar once for all relations that the combinators keep.  On one side stands the
grammar of parsers, on the other that of whatever is related to parsers.  A relation may
speak of declarations, the nodes with a name behind a keyword; then their nodes have to be
related by other means, and everything else follows.

**Definitions.**
* `declarationKinds`: the kinds of nodes that declare a name behind a keyword.
* `LevelOf.Related`: the functions of a level are related to the parsers of another.
* `LevelOf.RelatesDeclarations`: so are the functions of what may be a declaration.

**Results.**
* `related_function`: all functions of the grammar are related.
* `related_levelOver`: so are the levels further out.
-/

universe u

namespace ZigCst
namespace Zig

open ZigCst.Parser

/-- Nodes that declare a name behind a keyword. -/
def declarationKinds : List Kind := [.varDecl, .fnDecl]

section Levels

variable {m : Type → Type u} [Routines Routine m]

/-- Whether the functions of a level are related to the parsers of another, and calls of the
functions over the one to whatever their bodies are related to over the other. -/
structure LevelOf.Related
    (R : ∀ ⦃α : Type⦄, m α → Parser Kind α → Prop)
    (inner : LevelOf m)
    (inner' : Level) : Prop where
  expr : R inner.expr inner'.expr
  operand : R inner.operand inner'.operand
  type : R inner.type inner'.type
  routine {α : Type} (r : Routine α) {p : m α} :
    R p (function inner' r) → R (routine r p) (function inner' r)

/-- A call of a function is related to its parser if the body is. -/
theorem LevelOf.Related.call
    {R : ∀ ⦃α : Type⦄, m α → Parser Kind α → Prop}
    {inner : LevelOf m}
    {inner' : Level}
    {α : Type}
    {p : m α}
    {q : Parser Kind α}
    (h : LevelOf.Related R inner inner')
    (r : Routine α)
    (hq : function inner' r = q)
    (hp : R p q) :
    R (Parser.routine r p) q := by
  subst hq
  exact h.routine r hp

/-- Whether the functions of what may be a declaration are related, in blocks and in
containers. -/
structure LevelOf.RelatesDeclarations
    [Monad m]
    [Parsing Kind m]
    (R : ∀ ⦃α : Type⦄, m α → Parser Kind α → Prop)
    (inner : LevelOf m)
    (inner' : Level) : Prop where
  statement : R (statement inner) (statement inner')
  member : R (nodeOf (declBody inner)) (nodeOf (declBody inner'))

end Levels

variable
  {m : Type → Type u}
  [Monad m]
  [Parsing Kind m]
  [Routines Routine m]
  {R : ∀ ⦃α : Type⦄, m α → Parser Kind α → Prop}
  {inner : LevelOf m}
  {inner' : Level}
  (hR : Congruence (· ∉ declarationKinds) R)
  (h : LevelOf.Related R inner inner')
include hR h

/-! ## Common parts -/

theorem related_name (recovery : KindSet Kind) : R (name recovery) (name recovery) :=
  h.call (.name recovery) rfl <| hR.bind (hR.at_ _) fun _ =>
    related_ite (hR.discard (hR.node (by decide) hR.advance)) (hR.recover _ _)

section Lists

variable {item : m Unit} {item' : Parser Kind Unit} (hitem : R item item')
include hitem

omit [Routines Routine m] h in
theorem related_itemAndComma
    (closing : Kind)
    (what : Item) :
    R (itemAndComma closing what item) (itemAndComma closing what item') := by
  refine hR.bind (hR.at_ _) fun _ => hR.bind hR.atEnd fun _ => related_ite (hR.pure _) ?_
  refine hR.bind (hR.at_ _) fun _ => related_ite (hR.seq (hR.bump _) (hR.pure _)) ?_
  refine hR.bind (hR.moves hitem) fun _ => related_ite ?_ (hR.pure _)
  refine hR.bind (hR.eat _) fun _ => related_ite (hR.pure _) ?_
  refine hR.bind (hR.at_ _) fun _ => hR.bind (hR.atAny _) fun _ => related_ite (hR.pure _) ?_
  exact hR.seq (hR.expect _) (hR.pure _)

omit [Routines Routine m] h in
theorem related_delimited
    (opening closing : Kind)
    (what : Item) :
    R (delimited opening closing what item) (delimited opening closing what item') :=
  hR.seq (hR.expect _) <|
    hR.seq (hR.repeatWhile (related_itemAndComma hR hitem closing what)) (hR.expect _)

/-- Lists are related to those of the grammar if their items are. -/
theorem related_list
    {listing : Listing}
    (hlist : list listing item' = function inner' (.delimited listing)) :
    R (list listing item) (list listing item') :=
  h.call (.delimited listing) hlist.symm <| related_delimited hR hitem _ _ _

end Lists

section Parts

theorem related_condition : R (condition inner) (condition inner') :=
  h.call .condition rfl <| hR.seq (hR.expect _) <| hR.seq (hR.discard h.expr) (hR.expect _)

/-! ## Assignments, captures and branches -/

theorem related_assignExpr : R (assignExpr inner) (assignExpr inner') := by
  refine h.call .assignExpr rfl ?_
  refine hR.bind h.expr fun found => ?_
  cases found with
  | none => exact hR.pure _
  | some lhs =>
      refine hR.bind hR.peek fun _ => related_ite ?_ (hR.pure _)
      exact hR.bind (hR.wrap (by decide) (hR.seq hR.advance (hR.discard h.expr))) fun _ => hR.pure _

theorem related_capture : R capture capture :=
  hR.seq (hR.skip _) <| hR.seq (related_name hR h _) (hR.eat _)

theorem related_payload : R payload payload := by
  refine h.call .payload rfl ?_
  refine hR.bind (hR.at_ _) fun _ => related_ite (hR.discard (hR.node (by decide) ?_)) (hR.pure _)
  exact hR.seq hR.advance <| hR.seq (hR.repeatWhile (related_capture hR h)) (hR.expect _)

theorem related_elseBranch : R (elseBranch inner) (elseBranch inner') := by
  refine h.call .elseBranch rfl ?_
  refine hR.bind (hR.at_ _) fun _ => related_ite (hR.discard (hR.node (by decide) ?_)) (hR.pure _)
  exact hR.seq hR.advance <| hR.seq (related_payload hR h) (hR.discard (related_assignExpr hR h))

theorem related_ifExpr : R (ifExpr inner) (ifExpr inner') :=
  h.call .ifExpr rfl <| hR.node (by decide) <| hR.seq hR.advance <|
    hR.seq (related_condition hR h) <| hR.seq (related_payload hR h) <|
      hR.seq (hR.discard (related_assignExpr hR h)) (related_elseBranch hR h)

theorem related_switchItem : R (switchItem inner) (switchItem inner') := by
  refine hR.seq (hR.discard h.expr) <| hR.bind (hR.eat _) fun _ => ?_
  refine related_ite (hR.seq (hR.discard h.expr) ?hcomma) ?hcomma
  refine hR.bind (hR.eat _) fun _ => related_ite ?_ (hR.pure _)
  exact hR.bind (hR.at_ _) fun _ => hR.pure _

theorem related_switchProng : R (switchProng inner) (switchProng inner') := by
  refine h.call .switchProng rfl ?_
  refine hR.discard (hR.node (by decide) ?_)
  refine hR.seq (hR.skip _) <| hR.seq (hR.discard (hR.node (by decide) ?_)) <|
    hR.seq (hR.expect _) <| hR.seq (related_payload hR h) (hR.discard (related_assignExpr hR h))
  refine hR.bind (hR.eat _) fun _ => related_ite (hR.pure _) ?_
  exact hR.repeatWhile (related_switchItem hR h)

theorem related_switchExpr : R (switchExpr inner) (switchExpr inner') :=
  h.call .switchExpr rfl <| hR.node (by decide) <| hR.seq hR.advance <|
    hR.seq (related_condition hR h) <| related_list hR h (related_switchProng hR h) rfl

theorem related_argList : R (argList inner) (argList inner') :=
  h.call .argList rfl <|
    hR.discard (hR.node (by decide) (related_list hR h (hR.discard h.expr) rfl))

theorem related_initializer : R (initializer inner) (initializer inner') := by
  refine hR.bind (hR.at_ _) fun _ => hR.bind (hR.nthAt _ _) fun _ => hR.bind (hR.nthAt _ _) fun _ =>
    related_ite (hR.discard (hR.node (by decide) ?_)) (hR.discard h.expr)
  exact hR.seq hR.advance <| hR.seq (related_name hR h _) <|
    hR.seq hR.advance (hR.discard h.expr)

theorem related_initList : R (initList inner) (initList inner') :=
  h.call .initList rfl <| hR.node (by decide) <| hR.seq (hR.skip _) <|
    related_list hR h (related_initializer hR h) rfl

/-! ## Clauses, parameters and function prototypes -/

theorem related_alignClause : R (alignClause inner) (alignClause inner') := by
  refine h.call .alignClause rfl ?_
  have hexpr := hR.discard h.expr
  refine hR.discard (hR.node (by decide) ?_)
  refine hR.seq hR.advance <| hR.seq (hR.expect _) <| hR.seq hexpr <|
    hR.bind (hR.eat _) fun _ => related_ite ?_ (hR.expect _)
  exact hR.seq hexpr <| hR.seq (hR.expect _) <| hR.seq hexpr (hR.expect _)

theorem related_keywordClause
    {kind : Kind}
    (hkind : kind ∉ declarationKinds) :
    R (keywordClause inner kind) (keywordClause inner' kind) :=
  hR.discard (hR.node hkind (hR.seq hR.advance (related_condition hR h)))

theorem related_clause (ofFunction : Bool) :
    R (clause inner ofFunction) (clause inner' ofFunction) := by
  have hclause : ∀ {kind : Kind}, kind ∉ declarationKinds →
      R (keywordClause inner kind >>= fun _ => pure true)
        (keywordClause inner' kind >>= fun _ => pure true) :=
    fun hkind => hR.seq (related_keywordClause hR h hkind) (hR.pure _)
  refine hR.bind hR.peek fun kind => ?_
  split
  · exact hR.seq (related_alignClause hR h) (hR.pure _)
  · exact hclause (by decide)
  · exact hclause (by decide)
  · exact related_ite (hclause (by decide)) (hR.pure _)
  · exact hR.pure _

theorem related_clauses (ofFunction : Bool) :
    R (clauses inner ofFunction) (clauses inner' ofFunction) :=
  h.call (.clauses ofFunction) rfl <| hR.repeatWhile (related_clause hR h ofFunction)

theorem related_fieldName : R fieldName fieldName :=
  hR.bind (hR.at_ _) fun _ => hR.bind (hR.nthAt _ _) fun _ =>
    related_ite (hR.seq (related_name hR h _) hR.advance) (hR.pure _)

theorem related_paramBody : R (paramBody inner) (paramBody inner') := by
  refine hR.seq (related_fieldName hR h) <| hR.bind hR.peek fun kind => ?_
  split
  · exact hR.advance
  · exact hR.advance
  · exact hR.discard h.type

theorem related_param : R (param inner) (param inner') := by
  refine h.call .param rfl ?_
  refine hR.discard (hR.node (by decide) (hR.bind (hR.eat _) fun _ => ?_))
  exact related_ite (related_paramBody hR h) (hR.seq (hR.skip _) (related_paramBody hR h))

theorem related_paramList : R (paramList inner) (paramList inner') :=
  h.call .paramList rfl <|
    hR.discard (hR.node (by decide) (related_list hR h (related_param hR h) rfl))

theorem related_fnProto : R (fnProto inner) (fnProto inner') := by
  refine h.call .fnProto rfl ?_
  refine hR.bind (hR.at_ _) fun _ => hR.seq (hR.ensure _) <| hR.seq hR.advance <|
    hR.bind (hR.at_ _) fun _ => ?_
  refine related_ite (hR.seq (related_name hR h _) ?hparams) ?hparams
  refine hR.bind (hR.at_ _) fun _ => ?_
  refine related_ite (hR.seq (related_paramList hR h) ?hreturn) (hR.seq (hR.report _) ?hreturn)
  refine hR.seq (related_clauses hR h true) <| hR.seq (hR.skip _) <|
    hR.bind (hR.at_ _) fun _ => hR.bind (hR.at_ _) fun _ => ?_
  exact related_ite (hR.report _) (hR.discard h.type)

theorem related_varDecl : R (varDecl inner) (varDecl inner') := by
  refine h.call .varDecl rfl ?_
  refine hR.seq hR.advance <| hR.seq (related_name hR h _) <| hR.bind (hR.eat _) fun _ => ?_
  refine related_ite (hR.seq (hR.discard h.type) ?hclauses) ?hclauses
  refine hR.seq (related_clauses hR h false) <| hR.bind (hR.eat _) fun _ => ?_
  exact related_ite (hR.seq (hR.discard h.expr) (hR.expect _)) (hR.expect _)

/-! ## Statements and blocks -/

theorem related_statementBody : R (statementBody inner) (statementBody inner') := by
  refine h.call .statementBody rfl ?_
  refine hR.bind (related_assignExpr hR h) fun found => ?_
  cases found with
  | none => exact hR.pure _
  | some kind => exact hR.bind hR.prev? fun _ => related_ite (hR.pure _) (hR.expect _)

theorem related_deferStatement : R (deferStatement inner) (deferStatement inner') := by
  have hbody := related_statementBody hR h
  refine hR.discard (hR.node (by decide) (hR.bind (hR.eat _) fun _ => ?_))
  exact related_ite (hR.seq (related_payload hR h) hbody) (hR.seq hR.advance hbody)

/-- Statements are related if the nodes for variables are. -/
theorem related_statement
    (hplain : R (node .varDecl (varDecl inner)) (node .varDecl (varDecl inner')))
    (hcomptime :
      R (node .varDecl do advance; varDecl inner) (node .varDecl do advance; varDecl inner')) :
    R (statement inner) (statement inner') := by
  refine h.call .statement rfl ?_
  have hbody := related_statementBody hR h
  refine hR.bind hR.peek fun kind => hR.bind (hR.nth 1) fun next => ?_
  split
  · exact hR.discard hcomptime
  · exact hR.discard hcomptime
  · exact hR.discard hplain
  · exact hR.discard hplain
  · exact related_deferStatement hR h
  · exact related_deferStatement hR h
  · exact hR.discard (hR.node (by decide) (hR.seq hR.advance hbody))
  · exact hR.bump _
  · exact hR.bump _
  · exact hR.bump _
  · exact hR.bump _
  · exact hR.discard (hR.node (by decide) hbody)

section Blocks

variable (hstatement : R (statement inner) (statement inner'))
include hstatement

omit h in
theorem related_statementInBlock : R (statementInBlock inner) (statementInBlock inner') := by
  refine hR.bind (hR.at_ _) fun _ => hR.bind hR.atEnd fun _ => related_ite (hR.pure _) ?_
  refine hR.bind (hR.moves hstatement) fun _ => ?_
  exact related_ite (hR.pure _) (hR.seq (hR.bump _) (hR.pure _))

theorem related_blockBody : R (blockBody inner) (blockBody inner') :=
  h.call .blockBody rfl <| hR.seq (hR.expect _) <|
    hR.seq (hR.repeatWhile (related_statementInBlock hR hstatement)) (hR.expect _)

theorem related_block : R (block inner) (block inner') := by
  refine h.call .block rfl ?_
  refine hR.bind (hR.at_ _) fun _ => related_ite ?_ (hR.bind hR.peek fun _ => hR.recover _ _)
  exact hR.discard (hR.node (by decide) (related_blockBody hR h hstatement))

/-! ## Declarations and members of containers -/

omit [Routines Routine m] h hstatement in
theorem related_stringLiteral : R stringLiteral stringLiteral :=
  hR.discard (hR.node (by decide) hR.advance)

theorem related_testDecl : R (testDecl inner) (testDecl inner') := by
  refine h.call .testDecl rfl ?_
  have hblock := related_block hR h hstatement
  refine hR.discard (hR.node (by decide) (hR.seq hR.advance <| hR.bind hR.peek fun kind => ?_))
  dsimp only
  split
  · exact hR.seq (related_stringLiteral hR) hblock
  · exact hR.seq (related_name hR h _) hblock
  · exact hblock

omit [Routines Routine m] h hstatement in
theorem related_linkage : R linkage linkage := by
  refine hR.bind hR.peek fun kind => ?_
  split
  · exact hR.advance
  · exact hR.advance
  · exact hR.advance
  · refine hR.seq hR.advance <| hR.bind (hR.at_ _) fun _ => ?_
    exact related_ite (related_stringLiteral hR) (hR.pure _)
  · exact hR.pure _

theorem related_declBody : R (declBody inner) (declBody inner') := by
  refine hR.seq (hR.skip _) <| hR.bind (hR.eat _) fun _ => related_ite ?_ ?_
  · exact hR.seq (hR.discard h.expr) <| hR.seq (hR.expect _) (hR.pure _)
  refine hR.seq (related_linkage hR) <| hR.bind (hR.at_ _) fun _ => related_ite ?_ ?_
  · refine hR.seq (related_fnProto hR h) <| hR.bind (hR.at_ _) fun _ => related_ite ?_ ?_
    · exact hR.seq (related_block hR h hstatement) (hR.pure _)
    · exact hR.seq (hR.expect _) (hR.pure _)
  · refine hR.seq (hR.skip _) <| hR.bind (hR.at_ _) fun _ => hR.bind (hR.at_ _) fun _ => ?_
    exact related_ite (hR.seq (related_varDecl hR h) (hR.pure _))
      (hR.seq (hR.report _) (hR.pure _))

end Blocks

theorem related_containerField : R (containerField inner) (containerField inner') := by
  refine h.call .containerField rfl ?_
  refine hR.discard (hR.node (by decide) ?_)
  refine hR.seq (hR.skip _) <| hR.seq (related_fieldName hR h) <| hR.seq (hR.discard h.type) <|
    hR.bind (hR.at_ _) fun _ => ?_
  refine related_ite (hR.seq (related_alignClause hR h) ?hdefault) ?hdefault
  refine hR.bind (hR.eat _) fun _ => ?_
  refine related_ite (hR.seq (hR.discard h.expr) ?hcomma) ?hcomma
  refine hR.bind (hR.eat _) fun _ => related_ite (hR.pure _) ?_
  refine hR.bind (hR.at_ _) fun _ => hR.bind hR.atEnd fun _ => ?_
  exact related_ite (hR.pure _) (hR.report _)

section Containers

variable (hdecls : LevelOf.RelatesDeclarations R inner inner')
include hdecls

theorem related_decl : R (decl inner) (decl inner') :=
  h.call .decl rfl <| hR.discard hdecls.member

theorem related_containerMember : R (containerMember inner) (containerMember inner') := by
  refine h.call .containerMember rfl ?_
  have hdecl := related_decl hR h hdecls
  have hfield := related_containerField hR h
  refine hR.bind hR.peek fun kind => ?_
  split
  · exact related_testDecl hR h hdecls.statement
  · exact hdecl
  · exact hdecl
  · exact hdecl
  · exact hdecl
  · exact hdecl
  · exact hdecl
  · exact hdecl
  · exact hdecl
  · exact hdecl
  · exact hdecl
  · refine hR.bind (hR.nthAt _ _) fun _ => related_ite (hR.discard (hR.node (by decide) ?_)) hfield
    exact hR.seq hR.advance (related_block hR h hdecls.statement)
  · exact hfield
  · exact hR.bump _
  · exact hR.bump _

theorem related_memberInContainer (inBraces : Bool) :
    R (memberInContainer inner inBraces) (memberInContainer inner' inBraces) := by
  refine hR.bind hR.atEnd fun _ => hR.bind (hR.at_ _) fun _ => related_ite (hR.pure _) ?_
  refine hR.bind (hR.moves (related_containerMember hR h hdecls)) fun _ => ?_
  exact related_ite (hR.pure _) (hR.seq (hR.bump _) (hR.pure _))

/-- The members of a container are related where declarations are. -/
theorem related_containerMembers (inBraces : Bool) :
    R (containerMembers inner inBraces) (containerMembers inner' inBraces) :=
  h.call (.containerMembers inBraces) rfl <|
    hR.repeatWhile (related_memberInContainer hR h hdecls inBraces)

/-! ## Types and primary expressions -/

omit hdecls in
theorem related_containerTag : R (containerTag inner) (containerTag inner') :=
  hR.bind (hR.eat _) fun _ => related_ite (hR.seq (hR.discard h.expr) (hR.expect _)) (hR.pure _)

omit hdecls in
theorem related_unionTag : R (unionTag inner) (unionTag inner') := by
  refine hR.bind (hR.eat _) fun _ => related_ite ?_ (hR.pure _)
  refine hR.bind (hR.eat _) fun _ => related_ite ?_ ?_
  · exact hR.seq (related_containerTag hR h) (hR.expect _)
  · exact hR.seq (hR.discard h.expr) (hR.expect _)

theorem related_containerDecl : R (containerDecl inner) (containerDecl inner') := by
  refine h.call .containerDecl rfl ?_
  refine hR.node (by decide) (hR.bind (hR.eat _) fun _ => ?_)
  refine related_ite ?hkeyword (hR.seq (hR.skip _) ?hkeyword)
  refine hR.bind hR.peek fun kind => ?_
  have hbody : R (do
      if ← eat .leftBrace then
        containerMembers inner true
        expect .rightBrace
      else report .expectedContainerBody)
      (do
      if ← eat .leftBrace then
        containerMembers inner' true
        expect .rightBrace
      else report .expectedContainerBody) :=
    hR.bind (hR.eat _) fun _ =>
      related_ite (hR.seq (related_containerMembers hR h hdecls true) (hR.expect _)) (hR.report _)
  dsimp only
  split
  · exact hR.seq hR.advance <| hR.seq (related_containerTag hR h) hbody
  · exact hR.seq hR.advance <| hR.seq (related_containerTag hR h) hbody
  · exact hR.seq hR.advance <| hR.seq (related_unionTag hR h) hbody
  · exact hR.seq hR.advance hbody
  · exact hR.seq (hR.report _) hbody

omit hdecls in
theorem related_builtinCall : R (builtinCall inner) (builtinCall inner') :=
  hR.node (by decide) <| hR.seq hR.advance <| hR.bind (hR.at_ _) fun _ =>
    related_ite (related_argList hR h) (hR.report _)

omit [Routines Routine m] h hdecls in
theorem related_noExpression : R noExpression noExpression :=
  hR.bind hR.peek fun _ => hR.seq (hR.recover _ _) (hR.pure _)

omit [Routines Routine m] hdecls h in
/-- The kind of a node is the result of a parser. -/
theorem related_some
    {p : m Kind}
    {q : Parser Kind Kind}
    (hpq : R p q) :
    R (do return some (← p)) (do return some (← q)) :=
  hR.bind hpq fun _ => hR.pure _

theorem related_primaryType : R (primaryType inner) (primaryType inner') := by
  refine h.call .primaryType rfl ?_
  have htoken : ∀ {kind : Kind}, kind ∉ declarationKinds →
      R (do return some (← node kind advance)) (do return some (← node kind advance)) :=
    fun hkind => related_some hR (hR.node hkind hR.advance)
  have hcontainer := related_some hR (related_containerDecl hR h hdecls)
  refine hR.bind hR.peek fun kind => hR.bind (hR.nth 1) fun next => ?_
  split
  · exact related_some hR (related_builtinCall hR h)
  · exact htoken (by decide)
  · exact htoken (by decide)
  · exact htoken (by decide)
  · exact htoken (by decide)
  · exact htoken (by decide)
  · exact related_some hR (hR.node (by decide) (hR.repeatWhile (hR.eat _)))
  · exact htoken (by decide)
  · exact htoken (by decide)
  · exact hcontainer
  · exact hcontainer
  · exact hcontainer
  · exact hcontainer
  · exact hcontainer
  · exact hcontainer
  · exact related_some hR (hR.node (by decide) (hR.seq hR.advance (related_name hR h _)))
  · exact related_some hR (related_initList hR h)
  · refine related_some hR (hR.node (by decide) (hR.seq hR.advance ?_))
    exact related_list hR h (related_name hR h _) rfl
  · refine related_some hR (hR.node (by decide) (hR.seq hR.advance ?_))
    exact hR.seq hR.advance (related_name hR h _)
  · exact related_some hR (hR.node (by decide) (related_fnProto hR h))
  · refine related_some hR (hR.node (by decide) (hR.seq hR.advance ?_))
    exact hR.seq (hR.discard h.expr) (hR.expect _)
  · exact related_some hR (related_ifExpr hR h)
  · exact related_some hR (related_switchExpr hR h)
  · exact related_some hR (hR.node (by decide) (hR.seq hR.advance (hR.discard h.type)))
  · exact related_noExpression hR

omit hdecls in
theorem related_indexOrSlice : R (indexOrSlice inner) (indexOrSlice inner') := by
  have hexpr := hR.discard h.expr
  refine hR.seq hexpr <| hR.bind (hR.eat _) fun _ => related_ite ?_ (hR.pure _)
  refine hR.bind (hR.at_ _) fun _ => hR.bind (hR.at_ _) fun _ => ?_
  refine related_ite ?hsentinel (hR.seq hexpr ?hsentinel)
  exact hR.bind (hR.eat _) fun _ => related_ite (hR.seq hexpr (hR.pure _)) (hR.pure _)

omit hdecls in
theorem related_suffix (lhs : Kind) : R (suffix inner lhs) (suffix inner' lhs) := by
  refine hR.bind hR.peek fun kind => hR.bind (hR.nth 1) fun next => ?_
  split
  · refine hR.bind (hR.wrapOf ?_ ?_) fun _ => hR.pure _
    · refine gives_bind fun _ => gives_indexOrSlice.bind fun kind hkind =>
        gives_bind fun _ => gives_pure ?_
      revert kind
      decide
    · exact hR.seq hR.advance <| hR.bind (related_indexOrSlice hR h) fun _ =>
        hR.seq (hR.expect _) (hR.pure _)
  · exact hR.bind (hR.wrap (by decide) (hR.seq hR.advance (related_name hR h _))) fun _ => hR.pure _
  · exact hR.bind (hR.wrap (by decide) (hR.seq hR.advance hR.advance)) fun _ => hR.pure _
  · exact hR.bind (hR.wrap (by decide) hR.advance) fun _ => hR.pure _
  · exact hR.bind (hR.wrap (by decide) (related_argList hR h)) fun _ => hR.pure _
  · exact hR.pure _

theorem related_suffixExpr : R (suffixExpr inner) (suffixExpr inner') := by
  refine h.call .suffixExpr rfl ?_
  refine hR.bind (related_primaryType hR h hdecls) fun found => ?_
  cases found with
  | none => exact hR.pure _
  | some lhs => exact hR.bind (hR.iterate (related_suffix hR h) lhs) fun _ => hR.pure _

theorem related_errorUnion : R (errorUnion inner) (errorUnion inner') := by
  refine h.call .errorUnion rfl ?_
  refine hR.bind (related_suffixExpr hR h hdecls) fun found => ?_
  cases found with
  | none => exact hR.pure _
  | some lhs =>
      refine hR.bind (hR.at_ _) fun _ => related_ite ?_ (hR.pure _)
      exact hR.bind (hR.wrap (by decide) (hR.seq hR.advance (hR.discard h.type))) fun _ => hR.pure _

omit hdecls in
theorem related_pointerModifiers : R (pointerModifiers inner) (pointerModifiers inner') := by
  refine h.call .pointerModifiers rfl ?_
  refine hR.repeatWhile (hR.bind hR.peek fun kind => ?_)
  split
  · exact hR.seq hR.advance (hR.pure _)
  · exact hR.seq hR.advance (hR.pure _)
  · exact hR.seq hR.advance (hR.pure _)
  · exact hR.seq (related_clauses hR h false) (hR.pure _)
  · exact hR.seq (related_clauses hR h false) (hR.pure _)
  · exact hR.pure _

omit hdecls in
theorem related_bracketContent : R (bracketContent inner) (bracketContent inner') := by
  have hexpr := hR.discard h.expr
  refine hR.bind hR.peek fun kind => ?_
  split
  · refine hR.seq hR.advance <| hR.bind (hR.at_ _) fun _ => hR.bind hR.text fun _ => ?_
    refine related_ite (hR.seq hR.advance (hR.pure _)) ?_
    refine hR.bind (hR.eat _) fun _ => ?_
    exact related_ite (hR.seq hexpr (hR.pure _)) (hR.pure _)
  · exact hR.pure _
  · exact hR.seq hR.advance <| hR.seq hexpr (hR.pure _)
  · refine hR.seq hexpr <| hR.bind (hR.eat _) fun _ => ?_
    exact related_ite (hR.seq hexpr (hR.pure _)) (hR.pure _)

omit hdecls in
theorem related_bracketType : R (bracketType inner) (bracketType inner') := by
  refine h.call .bracketType rfl ?_
  refine hR.nodeOf (gives_bracketType.mono (by decide)) (hR.seq hR.advance ?_)
  refine hR.bind (related_bracketContent hR h) fun kind => hR.seq (hR.expect _) ?_
  refine related_ite ?htype (hR.seq (related_pointerModifiers hR h) ?htype)
  exact hR.seq (hR.discard h.type) (hR.pure _)

theorem related_typeWith : R (typeWith inner) (typeWith inner') := by
  have htype := hR.discard h.type
  have hpointer := related_some hR (hR.node (by decide : Kind.ptrType ∉ _)
    (hR.seq hR.advance (hR.seq (related_pointerModifiers hR h) htype)))
  refine hR.bind hR.peek fun kind => hR.bind (hR.nth 1) fun next => ?_
  split
  · exact related_some hR (hR.node (by decide) (hR.seq hR.advance htype))
  · exact related_some hR (hR.node (by decide) (hR.seq hR.advance (hR.seq hR.advance htype)))
  · exact hpointer
  · exact hpointer
  · exact related_some hR (related_bracketType hR h)
  · exact related_errorUnion hR h hdecls

/-! ## Expressions -/

omit hdecls in
theorem related_asmExpr : R asmExpr asmExpr := by
  refine h.call .asmExpr rfl ?_
  refine hR.node (by decide) <| hR.seq hR.advance <| hR.seq (hR.skip _) <|
    hR.bind (hR.at_ _) fun _ => related_ite ?_ (hR.report _)
  refine hR.bind (hR.iterate (fun depth => ?_) 0) fun _ => related_ite (hR.pure _) (hR.report _)
  refine hR.bind hR.atEnd fun _ => related_ite (hR.pure _) ?_
  refine hR.bind hR.peek fun _ => hR.seq (hR.ensure _) <| hR.bind hR.peek fun _ => ?_
  exact hR.seq hR.advance (hR.pure _)

omit hdecls in
theorem related_label : R label label :=
  h.call .label rfl <| hR.discard (hR.node (by decide) (hR.seq (related_name hR h _) (hR.expect _)))

omit hdecls in
theorem related_jumpLabel : R jumpLabel jumpLabel := by
  refine h.call .jumpLabel rfl ?_
  refine hR.bind (hR.at_ _) fun _ => hR.bind (hR.nthAt _ _) fun _ => related_ite ?_ (hR.pure _)
  exact hR.seq (hR.discard (hR.node (by decide) (hR.seq hR.advance (related_name hR h _))))
    (hR.pure _)

omit hdecls in
theorem related_optionalExpr : R (optionalExpr inner) (optionalExpr inner') :=
  hR.bind (hR.atAny _) fun _ => related_ite (hR.discard h.expr) (hR.pure _)

omit hdecls in
theorem related_breakExpr : R (breakExpr inner) (breakExpr inner') :=
  hR.node (by decide) <| hR.seq hR.advance <|
    hR.seq (hR.discard (related_jumpLabel hR h)) (related_optionalExpr hR h)

omit hdecls in
theorem related_continueExpr : R (continueExpr inner) (continueExpr inner') :=
  hR.node (by decide) <| hR.seq hR.advance <|
    hR.bind (related_jumpLabel hR h) fun _ => related_ite (related_optionalExpr hR h) (hR.pure _)

omit hdecls in
theorem related_returnExpr : R (returnExpr inner) (returnExpr inner') :=
  hR.node (by decide) <| hR.seq hR.advance (related_optionalExpr hR h)

omit hdecls in
theorem related_keywordExpr
    {kind : Kind}
    (hkind : kind ∉ declarationKinds) :
    R (keywordExpr inner kind) (keywordExpr inner' kind) :=
  hR.node hkind (hR.seq hR.advance (hR.discard h.expr))

omit hdecls in
theorem related_forInput : R (forInput inner) (forInput inner') := by
  have hexpr := hR.discard h.expr
  refine hR.discard (hR.node (by decide) (hR.seq hexpr <| hR.bind (hR.eat _) fun _ => ?_))
  refine related_ite (hR.bind (hR.at_ _) fun _ => hR.bind (hR.at_ _) fun _ => ?_) (hR.pure _)
  exact related_ite (hR.pure _) hexpr

omit hdecls in
theorem related_listed (listing : Listing) : R (listed inner listing) (listed inner' listing) := by
  cases listing with
  | parameters => exact related_param hR h
  | arguments => exact hR.discard h.expr
  | initializers => exact related_initializer hR h
  | forInputs => exact related_forInput hR h
  | switchProngs => exact related_switchProng hR h
  | errorNames => exact related_name hR h recovery

omit hdecls in
theorem related_whileContinue : R (whileContinue inner) (whileContinue inner') := by
  refine hR.bind (hR.at_ _) fun _ => related_ite (hR.discard (hR.node (by decide) ?_)) (hR.pure _)
  exact hR.seq hR.advance <| hR.seq (hR.expect _) <|
    hR.seq (hR.discard (related_assignExpr hR h)) (hR.expect _)

omit hdecls in
theorem related_loopBody : R (loopBody inner) (loopBody inner') := by
  refine h.call .loop rfl ?_
  have hbody : ∀ kind : Kind,
      R (do
        discard (assignExpr inner)
        elseBranch inner
        return kind)
        (do
        discard (assignExpr inner')
        elseBranch inner'
        return kind) :=
    fun kind => hR.seq (hR.discard (related_assignExpr hR h)) <|
      hR.seq (related_elseBranch hR h) (hR.pure kind)
  refine hR.seq (hR.skip _) <| hR.bind hR.peek fun kind => ?_
  split
  · exact hR.seq hR.advance <| hR.seq (related_condition hR h) <| hR.seq (related_payload hR h) <|
      hR.seq (related_whileContinue hR h) (hbody _)
  · refine hR.seq hR.advance <| hR.seq (related_list hR h (related_forInput hR h) rfl) <|
      hR.bind (hR.at_ _) fun _ => ?_
    exact related_ite (hR.seq (related_payload hR h) (hbody _)) (hR.seq (hR.report _) (hbody _))
  · exact hR.seq (hR.report _) (hR.pure _)

theorem related_labeled : R (labeled inner) (labeled inner') := by
  refine hR.nodeOf (gives_labeled.mono (by decide)) (hR.seq (related_label hR h) ?_)
  refine hR.bind (hR.at_ _) fun _ => related_ite ?_ (related_loopBody hR h)
  exact hR.seq (related_blockBody hR h hdecls.statement) (hR.pure _)

omit hdecls in
theorem related_curlySuffix : R (curlySuffix inner) (curlySuffix inner') := by
  refine h.call .curlySuffix rfl ?_
  refine hR.bind h.type fun found => ?_
  cases found with
  | none => exact hR.pure _
  | some type =>
      refine hR.bind (hR.at_ _) fun _ => related_ite ?_ (hR.pure _)
      exact hR.bind (hR.wrap (by decide) (hR.discard (related_initList hR h))) fun _ => hR.pure _

omit [Routines Routine m] h hdecls in
theorem related_atLabeled : R atLabeled atLabeled := by
  refine hR.bind (hR.at_ _) fun _ => hR.bind (hR.nthAt _ _) fun _ => related_ite ?_ (hR.pure _)
  refine hR.bind (hR.nth 2) fun kind => ?_
  split <;> exact hR.pure _

theorem related_primaryExpr : R (primaryExpr inner) (primaryExpr inner') := by
  refine h.call .primaryExpr rfl ?_
  have hkeyword : ∀ {kind : Kind}, kind ∉ declarationKinds →
      R (do return some (← keywordExpr inner kind)) (do return some (← keywordExpr inner' kind)) :=
    fun hkind => related_some hR (related_keywordExpr hR h hkind)
  have hloop := related_some hR
    (hR.nodeOf (gives_loopBody.mono (by decide)) (related_loopBody hR h))
  refine hR.bind (related_atLabeled hR) fun _ => related_ite ?_ (hR.bind hR.peek fun kind => ?_)
  · exact related_some hR (related_labeled hR h hdecls)
  split
  · exact related_some hR (related_asmExpr hR h)
  · exact related_some hR (related_ifExpr hR h)
  · exact related_some hR (related_breakExpr hR h)
  · exact related_some hR (related_continueExpr hR h)
  · exact related_some hR (related_returnExpr hR h)
  · exact hkeyword (by decide)
  · exact hkeyword (by decide)
  · exact hkeyword (by decide)
  · exact hloop
  · exact hloop
  · exact hloop
  · exact related_some hR
      (hR.node (by decide) (related_blockBody hR h hdecls.statement))
  · exact related_curlySuffix hR h

theorem related_operandWith : R (operandWith inner) (operandWith inner') := by
  have hprefix := related_some hR (hR.node (by decide : Kind.prefixExpr ∉ _)
    (hR.seq hR.advance (hR.discard h.operand)))
  refine hR.bind hR.peek fun kind => ?_
  split
  all_goals first | exact hprefix | exact related_primaryExpr hR h hdecls

omit hdecls in
/-- Operators are related one by one. -/
theorem related_binaryExpr (least : Nat) :
    R (binaryExpr inner least) (binaryExpr inner' least) := by
  rw [binaryExpr]
  refine h.call (.binaryExpr least) rfl ?_
  rw [binaryExpr]
  refine hR.bind h.operand fun found => ?_
  cases found with
  | none => exact hR.pure _
  | some lhs =>
      refine hR.bind (hR.iterate (fun v => ?_) _) fun _ => hR.pure _
      obtain ⟨lhs, compared⟩ := v
      dsimp only
      refine hR.bind hR.peek fun kind => ?_
      split
      · exact hR.pure _
      · rename_i precedence hprecedence
        split
        · have hright := hR.discard (related_binaryExpr (precedence.val + 1))
          refine related_ite (hR.seq (hR.report _) ?hwrap) ?hwrap
          refine hR.bind (hR.wrap (by decide) (hR.bind (hR.at_ _) fun _ => hR.seq hR.advance ?_))
            fun _ => hR.pure _
          exact related_ite (hR.seq (related_payload hR h) hright) hright
        · exact hR.pure _
termination_by 8 - least
decreasing_by omega

/-- The functions of the level further out are related. -/
theorem related_levelOver :
    R (levelOver inner).expr (levelOver inner').expr ∧
      R (levelOver inner).operand (levelOver inner').operand ∧
        R (levelOver inner).type (levelOver inner').type :=
  ⟨related_binaryExpr hR h 1, related_operandWith hR h hdecls, related_typeWith hR h hdecls⟩

/-- All functions over the levels are related if that of a whole file is. -/
theorem related_function
    (hfile : R (fileOver inner) (fileOver inner'))
    {α : Type}
    (r : Routine α) :
    R (function inner r) (function inner' r) := by
  cases r with
  | expr => exact h.expr
  | operand => exact h.operand
  | type => exact h.type
  | name recovery => exact related_name hR h recovery
  | condition => exact related_condition hR h
  | payload => exact related_payload hR h
  | assignExpr => exact related_assignExpr hR h
  | elseBranch => exact related_elseBranch hR h
  | label => exact related_label hR h
  | jumpLabel => exact related_jumpLabel hR h
  | alignClause => exact related_alignClause hR h
  | clauses ofFunction => exact related_clauses hR h ofFunction
  | param => exact related_param hR h
  | switchProng => exact related_switchProng hR h
  | delimited listing => exact related_list hR h (related_listed hR h listing) rfl
  | paramList => exact related_paramList hR h
  | argList => exact related_argList hR h
  | initList => exact related_initList hR h
  | ifExpr => exact related_ifExpr hR h
  | switchExpr => exact related_switchExpr hR h
  | asmExpr => exact related_asmExpr hR h
  | loop => exact related_loopBody hR h
  | fnProto => exact related_fnProto hR h
  | varDecl => exact related_varDecl hR h
  | statementBody => exact related_statementBody hR h
  | statement => exact hdecls.statement
  | blockBody => exact related_blockBody hR h hdecls.statement
  | block => exact related_block hR h hdecls.statement
  | testDecl => exact related_testDecl hR h hdecls.statement
  | decl => exact related_decl hR h hdecls
  | containerField => exact related_containerField hR h
  | containerMember => exact related_containerMember hR h hdecls
  | containerMembers inBraces => exact related_containerMembers hR h hdecls inBraces
  | containerDecl => exact related_containerDecl hR h hdecls
  | primaryType => exact related_primaryType hR h hdecls
  | suffixExpr => exact related_suffixExpr hR h hdecls
  | errorUnion => exact related_errorUnion hR h hdecls
  | pointerModifiers => exact related_pointerModifiers hR h
  | bracketType => exact related_bracketType hR h
  | curlySuffix => exact related_curlySuffix hR h
  | primaryExpr => exact related_primaryExpr hR h hdecls
  | binaryExpr least => exact related_binaryExpr hR h least
  | sourceFile => exact hfile

end Containers
end Parts

omit hR h in
/-- Declarations are related like everything else if nodes of all kinds are. -/
theorem LevelOf.Related.declarations
    (hR : Congruence (fun _ => True) R)
    (h : LevelOf.Related R inner inner') :
    LevelOf.RelatesDeclarations R inner inner' := by
  have hparts : Congruence (· ∉ declarationKinds) R := hR.mono (by decide) fun _ _ => trivial
  have hvarDecl := related_varDecl hparts h
  have hstatement :=
    related_statement hparts h (hR.node trivial hvarDecl)
      (hR.node trivial (hR.seq hR.advance hvarDecl))
  exact ⟨hstatement, hR.nodeOf (fun _ => trivial) (related_declBody hparts h hstatement)⟩

end Zig
end ZigCst
