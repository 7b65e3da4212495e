import ZigCst.Proofs.Pattern
import ZigCst.Proofs.ZigGrammar

/-!
# What the nodes of a Zig file consist of

Every node of a Zig file matches the pattern of its kind, however malformed the file
is.  Two kinds have none: an error holds whatever could not be understood, and a fault
that says so; inline assembly holds tokens only.  An operator between two operands also
binds at least as weakly as the operators on its left, and more weakly than those on
its right.

**Definitions.**
* `Form.of`: the pattern of a kind.
* `Operation.Climbs`: how the operators around an operator bind.
* `Rule`: what is asked of a node.
* `Level.Regular`: the three parsers of a level leave one node each, of known kinds.

**Results.**
* `regular_level`: all levels are regular.
* `exists_marked_sourceFile`: every file has a tree in which all nodes obey the rule,
  and its errors are the faults of that tree.
-/

namespace ZigCst
namespace Zig

open Pattern

/-! ## Patterns -/

/-- Nodes that may stand for a type. -/
def typeKinds : List Kind :=
  [.error, .ident, .literal, .stringLiteral, .builtinCall, .containerDecl, .enumLiteral, .initList,
    .errorSetDecl, .errorValue, .fnType, .parenExpr, .ifExpr, .switchExpr, .comptimeExpr,
    .anyframeType, .optionalType, .ptrType, .sliceType, .arrayType, .errorUnionExpr, .callExpr,
    .fieldExpr, .derefExpr, .unwrapExpr, .indexExpr, .sliceExpr]

/-- Nodes that may stand for an operand. -/
def operandKinds : List Kind :=
  [.prefixExpr, .initExpr, .block, .whileExpr, .forExpr, .asmExpr, .breakExpr, .continueExpr,
    .returnExpr, .nosuspendExpr, .resumeExpr] ++ typeKinds

/-- Nodes that may stand for an expression. -/
def exprKinds : List Kind := .binaryExpr :: operandKinds

/-- Nodes that may stand for an expression or an assignment. -/
def assignKinds : List Kind := .assignExpr :: exprKinds

/-- Nodes that may stand in a block. -/
def statementKinds : List Kind := [.error, .varDecl, .deferStmt, .suspendStmt, .exprStmt]

/-- Nodes that may stand in a container. -/
def memberKinds : List Kind :=
  [.error, .testDecl, .comptimeDecl, .usingnamespaceDecl, .fnDecl, .varDecl, .containerField]

def clauseKinds : List Kind := [.alignClause, .addrspaceClause, .linksectionClause, .callconvClause]

/-- Operators between two operands. -/
def operatorKinds : List Kind :=
  [.orKw, .andKw, .eq2, .bangEq, .lt, .gt, .ltEq, .gtEq, .amp, .caret, .pipe, .orelseKw, .catchKw,
    .shl, .shr, .shlPipe, .plus, .minus, .plus2, .plusPercent, .minusPercent, .plusPipe,
    .minusPipe, .pipe2, .star, .slash, .percent, .star2, .starPercent, .starPipe]

def assignmentKinds : List Kind :=
  [.eq, .starEq, .starPipeEq, .slashEq, .percentEq, .plusEq, .plusPipeEq, .minusEq, .minusPipeEq,
    .shlEq, .shlPipeEq, .shrEq, .ampEq, .caretEq, .pipeEq, .starPercentEq, .plusPercentEq,
    .minusPercentEq]

namespace Form

/-- A token of one kind. -/
def token (kind : Kind) : Pattern Kind := tokens [kind]

def expr : Pattern Kind := nodes exprKinds

def assignment : Pattern Kind := nodes assignKinds

def operand : Pattern Kind := nodes operandKinds

def type : Pattern Kind := nodes typeKinds

/-- An identifier, or an error in its place. -/
def name : Pattern Kind := nodes [.ident, .error]

/-- A block, or an error in its place. -/
def block : Pattern Kind := nodes [.block, .error]

/-- An expression in parentheses. -/
def condition : Pattern Kind := all [expected .leftParen, expr, expected .rightParen]

def payload : Pattern Kind := perhaps [nodes [.payload]]

def elseBranch : Pattern Kind := perhaps [nodes [.elseBranch]]

/-- Items with commas between them, in brackets. -/
def delimited (opening closing : Kind) (item : Pattern Kind) : Pattern Kind :=
  all [expected opening,
    many [perhaps [any [nodes [.error], all [item, perhaps [expected .comma]]]]],
    expected closing]

def inParens : Pattern Kind → Pattern Kind := delimited .leftParen .rightParen

def inBraces : Pattern Kind → Pattern Kind := delimited .leftBrace .rightBrace

def clauses : Pattern Kind := many [perhaps [nodes clauseKinds]]

/-- A name and a colon, if they are there. -/
def fieldName : Pattern Kind := perhaps [nodes [.ident], token .colon]

/-- A function from its keyword to its return type. -/
def prototype : Pattern Kind :=
  all [token .fnKw, perhaps [nodes [.ident]], any [nodes [.paramList], fault], clauses,
    perhaps [token .bang], any [fault, type]]

/-- A variable from its keyword to its semicolon. -/
def varBody : Pattern Kind :=
  all [tokens [.constKw, .varKw], name, perhaps [token .colon, type], clauses,
    perhaps [token .eq, expr], expected .semicolon]

/-- An expression or assignment with its semicolon. -/
def statement : Pattern Kind := all [assignment, perhaps [expected .semicolon]]

/-- Statements in braces. -/
def statements : Pattern Kind :=
  all [expected .leftBrace, many [perhaps [nodes statementKinds, perhaps [nodes [.error]]]],
    expected .rightBrace]

/-- Members one after another. -/
def members : Pattern Kind := many [perhaps [nodes memberKinds, perhaps [nodes [.error]]]]

/-- What may stand between `pub` and the keyword of a declaration. -/
def linkage : Pattern Kind :=
  perhaps [any [tokens [.exportKw, .inlineKw, .noinlineKw],
    all [token .externKw, perhaps [nodes [.stringLiteral]]]]]

/-- An expression in parentheses after a container keyword, if there is one. -/
def containerTag : Pattern Kind := perhaps [token .leftParen, expr, expected .rightParen]

/-- The tag of a union, if there is one. -/
def unionTag : Pattern Kind :=
  perhaps [token .leftParen, any [all [token .enumKw, containerTag], expr], expected .rightParen]

/-- Modifiers of a pointer. -/
def modifiers : Pattern Kind :=
  many [perhaps [any [tokens [.constKw, .volatileKw, .allowzeroKw], clauses]]]

/-- What a node of a kind consists of.  Errors and inline assembly have no pattern. -/
def of : Kind → List (Pattern Kind)
  | .sourceFile => [members, token .eof]
  | .testDecl => [token .testKw, perhaps [nodes [.stringLiteral, .ident]], block]
  | .comptimeDecl => [token .comptimeKw, block]
  | .usingnamespaceDecl =>
      [perhaps [token .pubKw], token .usingnamespaceKw, expr, expected .semicolon]
  | .fnDecl =>
      [perhaps [token .pubKw], linkage, prototype, any [block, expected .semicolon]]
  | .varDecl =>
      [any [all [perhaps [token .pubKw], linkage, perhaps [token .threadlocalKw]],
        token .comptimeKw], varBody]
  | .containerField =>
      [perhaps [token .comptimeKw], fieldName, type, perhaps [nodes [.alignClause]],
        perhaps [token .eq, expr], perhaps [expected .comma]]
  | .paramList => [inParens (nodes [.param])]
  | .param =>
      [any [token .noaliasKw, perhaps [token .comptimeKw]], fieldName,
        any [tokens [.anytypeKw, .ellipsis], type]]
  | .alignClause =>
      [token .alignKw, expected .leftParen, expr,
        perhaps [token .colon, expr, expected .colon, expr], expected .rightParen]
  | .addrspaceClause => [token .addrspaceKw, condition]
  | .linksectionClause => [token .linksectionKw, condition]
  | .callconvClause => [token .callconvKw, condition]
  | .block => [perhaps [nodes [.label]], statements]
  | .label => [any [all [nodes [.ident], expected .colon], all [token .colon, nodes [.ident]]]]
  | .exprStmt => [statement]
  | .assignExpr => [expr, tokens assignmentKinds, expr]
  | .deferStmt => [any [all [token .errdeferKw, payload], token .deferKw], statement]
  | .suspendStmt => [token .suspendKw, statement]
  | .comptimeExpr => [token .comptimeKw, expr]
  | .nosuspendExpr => [token .nosuspendKw, expr]
  | .resumeExpr => [token .resumeKw, expr]
  | .ifExpr => [token .ifKw, condition, payload, assignment, elseBranch]
  | .elseBranch => [token .elseKw, payload, assignment]
  | .whileExpr =>
      [perhaps [nodes [.label]], perhaps [token .inlineKw], token .whileKw, condition, payload,
        perhaps [nodes [.whileContinue]], assignment, elseBranch]
  | .whileContinue =>
      [token .colon, expected .leftParen, assignment, expected .rightParen]
  | .forExpr =>
      [perhaps [nodes [.label]], perhaps [token .inlineKw], token .forKw,
        inParens (nodes [.forInput]), any [payload, fault], assignment, elseBranch]
  | .forInput => [expr, perhaps [token .dot2, perhaps [expr]]]
  | .switchExpr => [token .switchKw, condition, inBraces (nodes [.switchProng])]
  | .switchProng =>
      [perhaps [token .inlineKw], nodes [.switchCase], expected .fatArrow, payload, assignment]
  | .switchCase =>
      [any [token .elseKw,
        many [expr, perhaps [token .ellipsis, expr], perhaps [token .comma]]]]
  | .payload =>
      [token .pipe, many [perhaps [token .star], name, perhaps [token .comma]], expected .pipe]
  | .breakExpr => [token .breakKw, perhaps [nodes [.label]], perhaps [expr]]
  | .continueExpr => [token .continueKw, perhaps [nodes [.label]], perhaps [expr]]
  | .returnExpr => [token .returnKw, perhaps [expr]]
  | .binaryExpr => [expr, perhaps [Pattern.chain], tokens operatorKinds, payload, expr]
  | .prefixExpr =>
      [tokens [.bang, .minus, .tilde, .minusPercent, .amp, .tryKw, .awaitKw], operand]
  | .errorUnionExpr => [type, token .bang, type]
  | .parenExpr => [token .leftParen, expr, expected .rightParen]
  | .callExpr => [type, nodes [.argList]]
  | .argList => [inParens expr]
  | .fieldExpr => [type, token .dot, nodes [.ident]]
  | .derefExpr => [type, token .dotStar]
  | .unwrapExpr => [type, token .dot, token .question]
  | .indexExpr => [type, token .leftBracket, expr, expected .rightBracket]
  | .sliceExpr =>
      [type, token .leftBracket, expr, token .dot2, perhaps [expr], perhaps [token .colon, expr],
        expected .rightBracket]
  | .initExpr => [type, nodes [.initList]]
  | .initList => [perhaps [token .dot], inBraces (any [nodes [.fieldInit], expr])]
  | .fieldInit => [token .dot, nodes [.ident], token .eq, expr]
  | .enumLiteral => [token .dot, nodes [.ident]]
  | .errorValue => [token .errorKw, token .dot, name]
  | .errorSetDecl => [token .errorKw, inBraces name]
  | .builtinCall => [token .builtin, any [nodes [.argList], fault]]
  | .ident => [token .identifier]
  | .stringLiteral =>
      [any [token .stringLiteralSingle,
        all [token .stringLiteralMulti, many [perhaps [token .stringLiteralMulti]]]]]
  | .literal => [tokens [.charLiteral, .integer, .float, .unreachableKw]]
  | .ptrType =>
      [any [tokens [.star, .star2],
        all [token .leftBracket, token .star,
          perhaps [any [token .identifier, all [token .colon, expr]]], expected .rightBracket]],
        modifiers, type]
  | .sliceType =>
      [token .leftBracket, perhaps [token .colon, expr], expected .rightBracket, modifiers, type]
  | .arrayType =>
      [token .leftBracket, expr, perhaps [token .colon, expr], expected .rightBracket, type]
  | .optionalType => [token .question, type]
  | .anyframeType => [token .anyframeKw, perhaps [token .arrow, type]]
  | .fnType => [prototype]
  | .containerDecl =>
      [any [token .externKw, perhaps [token .packedKw]],
        any [all [tokens [.structKw, .enumKw], containerTag], all [token .unionKw, unionTag],
          token .opaqueKw, fault],
        any [all [token .leftBrace, members, expected .rightBrace], fault]]
  | _ => [0]

end Form

/-! ## Operators -/

/-- The first token among children, which is the operator of operands. -/
def firstToken? (children : List (Shape Kind Kind)) : Option Kind :=
  children.findSome? fun
    | .leaf kind => some kind
    | .node _ _ => none

/-- How strongly the operator of a node binds; nothing binds as strongly as what is not
made of operands with an operator between them. -/
def strength : Shape Kind Kind → Nat
  | .node .binaryExpr children => ((firstToken? children).bind precedence?).elim 0 Fin.val
  | _ => 8

/-- Whether the last child is an error. -/
def fails : Shape Kind Kind → Bool
  | .node _ children =>
      match children.getLast? with
      | some (.node kind _) => kind == .error
      | _ => false
  | .leaf _ => false

/-- Whether there is a comparison among the operators down the left side. -/
def compares : Shape Kind Kind → Bool
  | .node .binaryExpr (lhs :: rest) =>
      (firstToken? (lhs :: rest)).bind precedence? == some comparison || compares lhs
  | _ => false

/-- The node without its faults. -/
abbrev plainNode (kind : Kind) (children : List (Marked Kind)) : Shape Kind Kind :=
  .node kind (children.filterMap Marked.plain?)

/-- The fault of a comparison that is chained to another one. -/
def chainFaults (chained : Bool) : List (Marked Kind) :=
  if chained then [.leaf (.fault .chainedComparison)] else []

/-- Two operands and the operator between them, which may be faulty and may capture
something. -/
structure Operation where
  leftKind : Kind
  leftChildren : List (Marked Kind)
  chained : Bool
  op : Kind
  precedence : Fin 8
  captures : List (Marked Kind)
  rightKind : Kind
  rightChildren : List (Marked Kind)

namespace Operation

variable (o : Operation)

def left : Shape Kind Kind := plainNode o.leftKind o.leftChildren

def right : Shape Kind Kind := plainNode o.rightKind o.rightChildren

/-- All children in order. -/
def children : List (Marked Kind) :=
  .node o.leftKind o.leftChildren ::
    (chainFaults o.chained ++
      .leaf (.lexeme o.op) :: (o.captures ++ [.node o.rightKind o.rightChildren]))

/-- The operator binds more weakly than the one on its right, and at most as strongly as
the one on its left unless that one lacks an operand.  A comparison is faulty exactly if
there is another one further to the left. -/
structure Climbs : Prop where
  op_eq : precedence? o.op = some o.precedence
  right_lt : o.precedence.val < strength o.right
  left_le : fails o.left = false → o.precedence.val ≤ strength o.left
  chained_eq : o.chained = (o.precedence == comparison && compares o.left)
  captures_eq : ∀ m ∈ o.captures, m.sign = .node .payload

end Operation

/-- What is asked of a node. -/
structure Rule (kind : Kind) (ms : List (Marked Kind)) : Prop where
  fault : kind = .error → ∃ m ∈ ms, m.isFault = true
  leaves : kind = .asmExpr → ∀ m ∈ ms, ∃ mark, m = .leaf mark
  fits : kind ≠ .error → kind ≠ .asmExpr → (all (Form.of kind)).Matches ms
  climbs : kind = .binaryExpr → ∃ o : Operation, ms = o.children ∧ o.Climbs
  unchained : kind ≠ .binaryExpr → ∀ m ∈ ms, m.sign ≠ .chain

/-- Comparisons are chained between operands only. -/
theorem chain_not_mem_signs
    {kind : Kind}
    (hkind : kind ∉ [.error, .asmExpr, .binaryExpr]) :
    Sign.chain ∉ (all (Form.of kind)).signs := by
  cases kind <;> first | decide | simp at hkind

/-- Most nodes only have to match their pattern. -/
theorem rule_of_regular
    {kind : Kind}
    {ms : List (Marked Kind)}
    (hkind : kind ∉ [.error, .asmExpr, .binaryExpr])
    (h : Regular Rule (Form.of kind) ms) :
    Rule kind ms where
  fault := fun heq => absurd hkind (by simp [heq])
  leaves := fun heq => absurd hkind (by simp [heq])
  fits := fun _ _ => h.fits
  climbs := fun heq => absurd hkind (by simp [heq])
  unchained := fun _ m hm hsign => chain_not_mem_signs hkind (hsign ▸ sign_mem_signs h.fits m hm)

/-- A fault is asked of an error, and no chained comparison. -/
theorem rule_error
    {ms : List (Marked Kind)}
    (hfault : ∃ m ∈ ms, m.isFault = true)
    (hloose : ∀ m ∈ ms, m.Loose) :
    Rule .error ms :=
  ⟨fun _ => hfault, nofun, fun hne => absurd rfl hne, nofun, fun _ m hm => (hloose m hm).2⟩

/-- What an error holds, a fault among it. -/
theorem rule_error_of_regular
    {Ps : List (Pattern Kind)}
    {ms : List (Marked Kind)}
    (hchain : Sign.chain ∉ (all (Ps ++ [fault])).signs)
    (h : Regular Rule (Ps ++ [fault]) ms) :
    Rule .error ms := by
  have hunchained : ∀ m ∈ ms, m.sign ≠ .chain := fun m hm hsign =>
    hchain (hsign ▸ sign_mem_signs h.fits m hm)
  obtain ⟨xs, ys, rfl, -, hys⟩ := matches_all_append_iff.mp h.fits
  obtain ⟨m, rfl, hm⟩ := matches_oneOf_iff.mp (matches_all_singleton_iff.mp hys)
  refine ⟨fun _ => ⟨m, by simp, ?_⟩, nofun, fun hne => absurd rfl hne, nofun, fun _ => hunchained⟩
  match m, hm with
  | .leaf (.lexeme _), hm => simp [Marked.sign] at hm
  | .leaf (.fault _), _ => rfl
  | .node _ _, hm => simp [Marked.sign] at hm

/-! ## Parsers of nodes -/

open ZigCst.Parser

section Nodes

variable {c : Cursor Kind} {kind : Kind} {kinds : List Kind}

/-- A node that only has to match its pattern. -/
theorem forms_kind
    {body : Parser Kind Unit}
    (hkind : kind ∉ [.error, .asmExpr, .binaryExpr])
    (hbody : body.Forms Rule c fun _ => Form.of kind) :
    (node kind body).Forms Rule c fun _ => [nodes [kind]] :=
  forms_node hbody fun _ hms => rule_of_regular hkind hms

/-- Kinds of the node that a parser leaves which may fail. -/
def slot (kinds : List Kind) : Option Kind → List Kind
  | none => [.error]
  | some _ => kinds

theorem mem_of_mem_slot
    {found : Option Kind}
    (herror : .error ∈ kinds)
    (h : kind ∈ slot kinds found) :
    kind ∈ kinds := by
  cases found with
  | none => exact List.mem_singleton.mp h ▸ herror
  | some _ => exact h

/-- At the cursor, a parser leaves one node of some kinds, which is an error if it
fails. -/
abbrev Leaves (p : NodeParser) (c : Cursor Kind) (kinds : List Kind) : Prop :=
  p.Forms Rule c fun found => [nodes (slot kinds found)]

/-- Whether it failed or not, there is one node. -/
theorem Leaves.discard
    {p : NodeParser}
    (h : Leaves p c kinds)
    (herror : .error ∈ kinds) :
    (Functor.discard p : Parser Kind Unit).Forms Rule c fun _ => [nodes kinds] := by
  intro children
  refine draws_discard ((h children).mono fun found t ⟨ms, hms, hregular⟩ => ⟨ms, hms, ?_⟩)
  refine hregular.mono_head fun ms hms => ?_
  obtain ⟨kind, children, rfl, hkind⟩ := matches_nodes_iff.mp hms
  exact matches_nodes_iff.mpr ⟨kind, children, rfl, mem_of_mem_slot herror hkind⟩

/-- Whether it failed or not, the run goes on behind one node. -/
theorem Leaves.seq
    {β : Type}
    {p : NodeParser}
    {f : Option Kind → Parser Kind β}
    {G : β → List (Pattern Kind)}
    (h : Leaves p c kinds)
    (herror : .error ∈ kinds)
    (hf : ∀ found c, (f found).Forms Rule c G) :
    (p >>= f).Forms Rule c fun b => nodes kinds :: G b := by
  refine h.bind hf fun found b ms hms => hms.mono_head fun ms hms => ?_
  obtain ⟨kind, children, rfl, hkind⟩ := matches_nodes_iff.mp hms
  exact matches_nodes_iff.mpr ⟨kind, children, rfl, mem_of_mem_slot herror hkind⟩

/-- A node that does not fail. -/
theorem leaves_some
    {p : Parser Kind Kind}
    {kinds' : List Kind}
    (h : p.Forms Rule c fun _ => [nodes kinds'])
    (hsub : ∀ kind ∈ kinds', kind ∈ kinds) :
    Leaves (do return some (← p)) c kinds := by
  intro children
  refine (h children).bind fun kind t ⟨ms, hms, hregular⟩ => draws_pure ⟨ms, hms, ?_⟩
  refine hregular.mono_head fun ms hms => ?_
  obtain ⟨kind, children, rfl, hkind⟩ := matches_nodes_iff.mp hms
  exact matches_nodes_iff.mpr ⟨kind, children, rfl, hsub kind hkind⟩

theorem leaves_kind
    {body : Parser Kind Unit}
    (hkind : kind ∉ [.error, .asmExpr, .binaryExpr])
    (hmem : kind ∈ kinds)
    (hbody : body.Forms Rule c fun _ => Form.of kind) :
    Leaves (do return some (← node kind body)) c kinds :=
  leaves_some (forms_kind hkind hbody) (by simpa using hmem)

/-- What stands for something malformed. -/
theorem leaves_none
    {p : Parser Kind Unit}
    (h : p.Forms Rule c fun _ => [nodes [.error]]) :
    Leaves (do p; return none) c kinds :=
  fun children => (h children).bind fun _ _ ht => draws_pure ht

/-- A failure is left as it is. -/
theorem reworks_none
    {children : List (Marked Kind)}
    (hkind : kind ∈ slot kinds none)
    (hnode : (Shape.node kind children : Marked Kind).Everywhere Rule) :
    (pure none : NodeParser).Reworks Rule c (.node kind children) (slot kinds) :=
  reworks_pure none hkind hnode

/-- A node becomes the first child of a node that only has to match its pattern. -/
theorem reworks_wrap
    {α : Type}
    {outer : Kind}
    {body : Parser Kind Unit}
    {Ps : List (Pattern Kind)}
    {children : List (Marked Kind)}
    {F : α → List Kind}
    (g : Kind → α)
    (houter : outer ∉ [.error, .asmExpr, .binaryExpr])
    (hform : Form.of outer = nodes kinds :: Ps)
    (hF : ∀ kind, outer ∈ F (g kind))
    (hbody : body.Forms Rule c fun _ => Ps)
    (hkind : kind ∈ kinds)
    (hnode : (Shape.node kind children : Marked Kind).Everywhere Rule) :
    (do return g (← wrap outer body)).Reworks Rule c (.node kind children) F := by
  have hcompletes : (do body; return outer : Parser Kind Kind).Completes Rule c [nodes kinds]
      [outer] :=
    hbody.completes_pure fun ms hms => rule_of_regular houter (hform ▸ hms)
  refine (hcompletes.wrapOf hkind hnode).bind fun kind' c kind'' children' hkind'' hnode' => ?_
  exact reworks_pure _ (List.mem_singleton.mp hkind'' ▸ hF kind') hnode'

end Nodes

/-- The parsers of a level leave one node each, of known kinds. -/
structure Level.Regular (inner : Level) : Prop where
  expr : ∀ c, Leaves inner.expr c exprKinds
  operand : ∀ c, Leaves inner.operand c operandKinds
  type : ∀ c, Leaves inner.type c typeKinds

/-! ## Common parts -/

section Lists

variable {c : Cursor Kind}

theorem forms_ident (hpeek : c.peek = .identifier) :
    (node .ident advance : Parser Kind Kind).Forms Rule c fun _ => [nodes [.ident]] :=
  forms_kind (by decide) (forms_advance hpeek (by decide))

/-- Where an identifier stands, it is the name. -/
theorem forms_name_at
    (recovery : KindSet Kind)
    (hpeek : c.peek = .identifier) :
    (name recovery : Parser Kind Unit).Forms Rule c fun _ => [nodes [.ident]] := by
  refine forms_at_bind.mpr (Forms.ite (fun _ => (forms_ident hpeek).discard) fun hne => ?_)
  simp [hpeek] at hne

/-- The run goes on behind the identifier. -/
theorem forms_name_bind
    {β : Type}
    {f : Unit → Parser Kind β}
    {F : β → List (Pattern Kind)}
    (recovery : KindSet Kind)
    (hpeek : c.peek = .identifier)
    (hf : (f ()).Forms Rule c.next F) :
    (name recovery >>= f).Forms Rule c fun b => nodes [.ident] :: F b := by
  refine (forms_name_at recovery hpeek).seq_at ?_ fun _ => hf
  have hname : (name recovery : Parser Kind Unit) c =
      (discard (node .ident advance) : Parser Kind Unit) c := by
    rw [name, routine_eq]
    simp [at_, Bind.bind, nthAt_cursor, ← Cursor.peek.eq_1, hpeek]
  rw [hname]
  exact cursor_advance

theorem forms_name (recovery : KindSet Kind) :
    (name recovery : Parser Kind Unit).Forms Rule c fun _ => [Form.name] := by
  refine forms_at_bind.mpr (Forms.ite (fun hpeek => ?_) fun _ => ?_)
  · exact (forms_ident (by simpa using hpeek)).discard.nodes_subset (by decide)
  · exact (forms_recover (fun _ => rule_error) rfl recovery).nodes_subset (by decide)

theorem forms_itemAndComma
    {item : Parser Kind Unit}
    {P : Pattern Kind}
    (closing : Kind)
    (what : Item)
    (hitem : ∀ c, item.Forms Rule c fun _ => [P]) :
    (itemAndComma closing what item).Forms Rule c fun _ =>
      [perhaps [any [nodes [.error], all [P, perhaps [expected .comma]]]]] := by
  refine forms_at_bind.mpr (forms_atEnd_bind.mpr (Forms.ite (fun _ => ?_) fun _ => ?_))
  · exact .missing (forms_pure _ rfl)
  refine Forms.there (forms_at_bind.mpr (Forms.ite (fun _ => ?_) fun _ => ?_))
  · refine Forms.choose ?_ List.mem_cons_self
    exact (forms_bump (fun _ => rule_error) rfl).seq fun _ _ => forms_pure _ rfl
  refine Forms.choose (P := all [P, perhaps [expected .comma]]) ?_ (by simp)
  refine Forms.group ((forms_moves (hitem c)).seq fun moved c => ?_)
  refine Forms.ite (fun _ => ?_) fun _ => ?_
  · refine forms_eat_bind (fun hpeek => ?_) fun _ => ?_
    · exact .there (.expected ((forms_advance hpeek (by decide)).seq fun _ _ => forms_pure _ rfl))
    refine forms_at_bind.mpr (forms_atAny_bind.mpr (Forms.ite (fun _ => ?_) fun _ => ?_))
    · exact .missing (forms_pure _ rfl)
    · exact .there ((forms_expect (by decide)).seq fun _ _ => forms_pure _ rfl)
  · exact .missing (forms_pure _ rfl)

theorem forms_delimited
    {item : Parser Kind Unit}
    {P : Pattern Kind}
    {opening closing : Kind}
    (what : Item)
    (hopening : opening ≠ .eof)
    (hclosing : closing ≠ .eof)
    (hitem : ∀ c, item.Forms Rule c fun _ => [P]) :
    (delimited opening closing what item).Forms Rule c fun _ =>
      [Form.delimited opening closing P] :=
  Forms.group <| (forms_expect hopening).seq fun _ _ =>
    (forms_repeatWhile fun _ => forms_itemAndComma closing what hitem).seq fun _ _ =>
      forms_expect hclosing

theorem forms_list
    {item : Parser Kind Unit}
    {P : Pattern Kind}
    (listing : Listing)
    (hitem : ∀ c, item.Forms Rule c fun _ => [P]) :
    (list listing item).Forms Rule c fun _ =>
      [Form.delimited listing.opening listing.closing P] :=
  forms_delimited listing.item (by cases listing <;> decide) (by cases listing <;> decide) hitem

end Lists

section Parts

variable {inner : Level} (h : inner.Regular) {c : Cursor Kind}
include h

theorem Level.Regular.forms_expr : (discard inner.expr : Parser Kind Unit).Forms Rule c fun _ =>
    [Form.expr] :=
  (h.expr c).discard (by decide)

theorem Level.Regular.forms_operand :
    (discard inner.operand : Parser Kind Unit).Forms Rule c fun _ => [Form.operand] :=
  (h.operand c).discard (by decide)

theorem Level.Regular.forms_type : (discard inner.type : Parser Kind Unit).Forms Rule c fun _ =>
    [Form.type] :=
  (h.type c).discard (by decide)

theorem forms_condition : (condition inner).Forms Rule c fun _ => [Form.condition] :=
  Forms.group <| (forms_expect (by decide)).seq fun _ _ => h.forms_expr.seq fun _ _ =>
    forms_expect (by decide)

/-! ## Assignments, captures and branches -/

omit h in
theorem mem_assignmentKinds
    {kind : Kind}
    (hkind : kind.isAssignment = true) :
    kind ∈ assignmentKinds := by
  cases kind <;> first | (cases hkind; done) | decide

theorem leaves_assignExpr : Leaves (assignExpr inner) c assignKinds := by
  refine (h.expr c).rework fun found c kind children hkind hnode => ?_
  cases found with
  | none => exact reworks_none hkind hnode
  | some lhs =>
      refine (reworks_bind_of_eq (nth_cursor 0)).mpr ?_
      split
      · rename_i hassignment
        refine reworks_wrap some (by decide) rfl (fun _ => List.mem_cons_self) ?_ hkind hnode
        exact (forms_advance_mem (mem_assignmentKinds hassignment) (by decide)).seq fun _ _ =>
          h.forms_expr
      · exact reworks_pure _ (List.mem_cons_of_mem _ hkind) hnode

theorem forms_assignment : (discard (assignExpr inner) : Parser Kind Unit).Forms Rule c fun _ =>
    [Form.assignment] :=
  (leaves_assignExpr h).discard (by decide)

omit h in
theorem forms_capture : (capture : Parser Kind Bool).Forms Rule c fun _ =>
    [perhaps [Form.token .star], Form.name, perhaps [Form.token .comma]] :=
  (forms_skip (by decide)).seq fun _ _ => (forms_name _).seq fun _ _ => forms_eat (by decide)

omit h in
/-- Where a pipe stands, there are captures. -/
theorem forms_payload_at (hpeek : c.peek = .pipe) :
    (payload : Parser Kind Unit).Forms Rule c fun _ => [nodes [.payload]] := by
  refine forms_at_bind.mpr (Forms.ite (fun _ => ?_) fun hne => ?_)
  · refine Forms.discard (forms_kind (by decide) ?_)
    exact (forms_advance hpeek (by decide)).seq fun _ _ =>
      (forms_repeatWhile fun _ => forms_capture).seq fun _ _ => forms_expect (by decide)
  · simp [hpeek] at hne

omit h in
theorem forms_payload : (payload : Parser Kind Unit).Forms Rule c fun _ => [Form.payload] := by
  by_cases hpeek : c.peek = .pipe
  · exact .there (forms_payload_at hpeek)
  · refine forms_at_bind.mpr (Forms.ite (fun heq => absurd (by simpa using heq) hpeek) fun _ => ?_)
    exact .missing (forms_pure _ rfl)

theorem forms_elseBranch : (elseBranch inner).Forms Rule c fun _ => [Form.elseBranch] := by
  refine forms_at_bind.mpr (Forms.ite (fun hpeek => .there ?_) fun _ => .missing (forms_pure _ rfl))
  refine Forms.discard (forms_kind (by decide) ?_)
  exact (forms_advance (by simpa using hpeek) (by decide)).seq fun _ _ =>
    forms_payload.seq fun _ _ => forms_assignment h

theorem forms_ifExpr (hpeek : c.peek = .ifKw) :
    (ifExpr inner).Forms Rule c fun _ => [nodes [.ifExpr]] :=
  forms_kind (by decide) <| (forms_advance hpeek (by decide)).seq fun _ _ =>
    (forms_condition h).seq fun _ _ => forms_payload.seq fun _ _ =>
      (forms_assignment h).seq fun _ _ => forms_elseBranch h

theorem forms_switchItem : (switchItem inner).Forms Rule c fun _ =>
    [Form.expr, perhaps [Form.token .ellipsis, Form.expr], perhaps [Form.token .comma]] := by
  refine h.forms_expr.seq fun _ _ => forms_ifEat (by decide) (fun _ => h.forms_expr.group)
    fun _ => forms_eat_bind (fun hpeek => ?_) fun _ => .missing (forms_pure _ rfl)
  refine .there ((forms_advance hpeek (by decide)).seq fun _ _ => ?_)
  exact forms_at_bind.mpr (forms_pure _ rfl)

theorem forms_switchProng : (switchProng inner).Forms Rule c fun _ => [nodes [.switchProng]] := by
  have hcase : ∀ c, (node .switchCase do
      unless ← eat .elseKw do
        repeatWhile (switchItem inner) : Parser Kind Kind).Forms Rule c
          fun _ => [nodes [.switchCase]] := by
    intro c
    refine forms_kind (by decide) (forms_eat_bind (fun hpeek => ?_) fun _ => ?_)
    · refine Forms.choose ?_ List.mem_cons_self
      exact (forms_advance hpeek (by decide)).seq fun _ _ => forms_pure _ rfl
    · exact (forms_repeatWhile fun _ => forms_switchItem h).choose (by simp)
  refine Forms.discard (forms_kind (by decide) ?_)
  exact (forms_skip (by decide)).seq fun _ c => (hcase c).discard.seq fun _ _ =>
    (forms_expect (by decide)).seq fun _ _ => forms_payload.seq fun _ _ => forms_assignment h

theorem forms_switchExpr (hpeek : c.peek = .switchKw) :
    (switchExpr inner).Forms Rule c fun _ => [nodes [.switchExpr]] :=
  forms_kind (by decide) <| (forms_advance hpeek (by decide)).seq fun _ _ =>
    (forms_condition h).seq fun _ _ => forms_list _ fun _ => forms_switchProng h

theorem forms_argList : (argList inner).Forms Rule c fun _ => [nodes [.argList]] :=
  Forms.discard (forms_kind (by decide) (forms_list _ fun _ => h.forms_expr))

theorem forms_initializer : (initializer inner).Forms Rule c fun _ =>
    [any [nodes [.fieldInit], Form.expr]] := by
  refine forms_at_bind.mpr (forms_nthAt_bind.mpr (forms_nthAt_bind.mpr ?_))
  refine Forms.ite (fun hfield => ?_) fun _ => h.forms_expr.choose (by simp)
  simp only [Bool.and_eq_true, beq_iff_eq] at hfield
  obtain ⟨⟨hdot, hname⟩, heq⟩ := hfield
  have hname' : c.next.peek = .identifier := (Cursor.nth_next hdot (by decide) 0).trans hname
  have heq' : c.next.next.peek = .eq :=
    (Cursor.nth_next hname' (by decide) 0).trans ((Cursor.nth_next hdot (by decide) 1).trans heq)
  refine Forms.choose (Forms.discard (forms_kind (by decide) ?_)) List.mem_cons_self
  exact forms_advance_bind hdot (by decide) <| forms_name_bind _ hname' <|
    (forms_advance heq' (by decide)).seq fun _ _ => h.forms_expr

theorem forms_initList : (initList inner).Forms Rule c fun _ => [nodes [.initList]] :=
  forms_kind (by decide) <| (forms_skip (by decide)).seq fun _ _ =>
    forms_list _ fun _ => forms_initializer h

/-! ## Clauses, parameters and function prototypes -/

theorem forms_alignClause (hpeek : c.peek = .alignKw) :
    (alignClause inner).Forms Rule c fun _ => [nodes [.alignClause]] := by
  refine Forms.discard (forms_kind (by decide) ?_)
  refine (forms_advance hpeek (by decide)).seq fun _ _ => (forms_expect (by decide)).seq
    fun _ _ => h.forms_expr.seq fun _ _ => forms_eat_bind (fun hcolon => ?_) fun _ => ?_
  · exact .there <| (forms_advance hcolon (by decide)).seq fun _ _ => h.forms_expr.seq fun _ _ =>
      (forms_expect (by decide)).seq fun _ _ => h.forms_expr.seq fun _ _ =>
        forms_expect (by decide)
  · exact .missing (forms_expect (by decide))

theorem forms_keywordClause
    {kind keyword : Kind}
    (hkind : kind ∉ [.error, .asmExpr, .binaryExpr])
    (hform : Form.of kind = [Form.token keyword, Form.condition])
    (hpeek : c.peek = keyword)
    (hkeyword : keyword ≠ .eof) :
    (keywordClause inner kind).Forms Rule c fun _ => [nodes [kind]] := by
  refine Forms.discard (forms_kind hkind ?_)
  rw [hform]
  exact (forms_advance hpeek hkeyword).seq fun _ _ => forms_condition h

theorem forms_clause (ofFunction : Bool) :
    (clause inner ofFunction).Forms Rule c fun _ => [perhaps [nodes clauseKinds]] := by
  have hthere : ∀ {p : Parser Kind Unit} {kind : Kind}, kind ∈ clauseKinds →
      (p.Forms Rule c fun _ => [nodes [kind]]) →
      (do p; return true : Parser Kind Bool).Forms Rule c fun _ => [perhaps [nodes clauseKinds]] :=
    fun hkind hp => .there <| (hp.nodes_subset (by simpa using hkind)).seq fun _ _ =>
      forms_pure _ rfl
  have hmissing : (pure false : Parser Kind Bool).Forms Rule c fun _ =>
      [perhaps [nodes clauseKinds]] := .missing (forms_pure _ rfl)
  rw [clause, forms_peek_bind]
  split
  · exact hthere (by decide) (forms_alignClause h ‹_›)
  · exact hthere (by decide) (forms_keywordClause h (by decide) rfl ‹_› (by decide))
  · exact hthere (by decide) (forms_keywordClause h (by decide) rfl ‹_› (by decide))
  · split
    · exact hthere (by decide) (forms_keywordClause h (by decide) rfl ‹_› (by decide))
    · exact hmissing
  · exact hmissing

theorem forms_clauses (ofFunction : Bool) :
    (clauses inner ofFunction).Forms Rule c fun _ => [Form.clauses] :=
  forms_repeatWhile fun _ => forms_clause h ofFunction

omit h in
theorem forms_fieldName :
    (fieldName : Parser Kind Unit).Forms Rule c fun _ => [Form.fieldName] := by
  refine forms_at_bind.mpr (forms_nthAt_bind.mpr (Forms.ite (fun hfield => ?_) fun _ => ?_))
  · simp only [Bool.and_eq_true, beq_iff_eq] at hfield
    have hcolon : c.next.peek = .colon :=
      (Cursor.nth_next hfield.1 (by decide) 0).trans hfield.2
    exact .there (forms_name_bind _ hfield.1 (forms_advance hcolon (by decide)))
  · exact .missing (forms_pure _ rfl)

theorem forms_paramBody : (paramBody inner).Forms Rule c fun _ =>
    [Form.fieldName, any [tokens [.anytypeKw, .ellipsis], Form.type]] := by
  refine forms_fieldName.seq fun _ c => forms_peek_bind.mpr ?_
  split
  · exact (forms_advance_mem (by simp [*]) (by decide)).choose List.mem_cons_self
  · exact (forms_advance_mem (by simp [*]) (by decide)).choose List.mem_cons_self
  · exact h.forms_type.choose (by simp)

theorem forms_param : (param inner).Forms Rule c fun _ => [nodes [.param]] := by
  refine Forms.discard (forms_kind (by decide) ?_)
  refine forms_eat_bind (fun hpeek => ?_) fun _ => ?_
  · refine Forms.choose ?_ List.mem_cons_self
    exact (forms_advance hpeek (by decide)).seq fun _ _ => forms_paramBody h
  · refine Forms.choose (P := perhaps [Form.token .comptimeKw]) ?_ (by simp)
    exact (forms_skip (by decide)).seq fun _ _ => forms_paramBody h

theorem forms_paramList : (paramList inner).Forms Rule c fun _ => [nodes [.paramList]] :=
  Forms.discard (forms_kind (by decide) (forms_list _ fun _ => forms_param h))

/-- A function from its parameters to its return type. -/
theorem forms_signature :
    (do
      if ← at_ .leftParen then paramList inner
      else report .expectedParameters
      clauses inner true
      skip .bang
      if (← at_ .leftBrace) || (← at_ .semicolon) then report .expectedReturnType
      else discard inner.type : Parser Kind Unit).Forms Rule c fun _ =>
      [any [nodes [.paramList], fault], Form.clauses, perhaps [Form.token .bang],
        any [fault, Form.type]] := by
  refine forms_at_bind.mpr ?_
  refine Forms.ite_seq (fun _ => forms_paramList h) (fun _ => forms_report rfl) fun c => ?_
  refine (forms_clauses h true).seq fun _ _ => (forms_skip (by decide)).seq fun _ c => ?_
  refine forms_at_bind.mpr (forms_at_bind.mpr (Forms.ite (fun _ => ?_) fun _ => ?_))
  · exact (forms_report rfl).choose List.mem_cons_self
  · exact h.forms_type.choose (by simp)

theorem forms_fnProto : (fnProto inner).Forms Rule c fun _ => [Form.prototype] := by
  refine Forms.group (forms_at_bind.mpr (forms_ensure_bind fun hpeek => ?_))
  refine (forms_advance (by simpa using hpeek) (by decide)).seq fun _ c => ?_
  exact forms_ifAt (fun hname => forms_name_at _ hname) fun c => forms_signature h

/-- A variable from its type to its semicolon. -/
theorem forms_typeAndValue :
    (do
      if ← eat .colon then discard inner.type
      clauses inner false
      if ← eat .eq then discard inner.expr
      expect .semicolon : Parser Kind Unit).Forms Rule c fun _ =>
      [perhaps [Form.token .colon, Form.type], Form.clauses, perhaps [Form.token .eq, Form.expr],
        expected .semicolon] :=
  forms_ifEat (by decide) (fun _ => h.forms_type.group) fun _ =>
    (forms_clauses h false).seq fun _ _ =>
      forms_ifEat (by decide) (fun _ => h.forms_expr.group) fun _ => forms_expect (by decide)

theorem forms_varDecl (hpeek : c.peek ∈ [.constKw, .varKw]) :
    (varDecl inner).Forms Rule c fun _ => [Form.varBody] :=
  Forms.group <| (forms_advance_mem hpeek (by decide)).seq fun _ _ =>
    (forms_name _).seq fun _ _ => forms_typeAndValue h

/-! ## Statements and blocks -/

theorem forms_statementBody : (statementBody inner).Forms Rule c fun _ => [Form.statement] := by
  refine Forms.group ((leaves_assignExpr h).seq (by decide) fun found c => ?_)
  cases found with
  | none => exact .missing (forms_pure _ rfl)
  | some kind =>
      refine forms_prev_bind.mpr (Forms.ite (fun _ => ?_) fun _ => ?_)
      · exact .missing (forms_pure _ rfl)
      · exact .there (forms_expect (by decide))

theorem forms_deferStatement (hpeek : c.peek ∈ [.deferKw, .errdeferKw]) :
    (deferStatement inner).Forms Rule c fun _ => [nodes [.deferStmt]] := by
  refine Forms.discard (forms_kind (by decide) (forms_eat_bind (fun herr => ?_) fun hne => ?_))
  · refine Forms.choose (P := all [Form.token .errdeferKw, Form.payload]) ?_ List.mem_cons_self
    refine Forms.gather ((forms_advance herr (by decide)).seq fun _ _ => ?_)
    exact forms_payload.seq fun _ _ => forms_statementBody h
  · refine Forms.choose (P := Form.token .deferKw) ?_ (by simp)
    have hkw : c.peek = .deferKw := by simpa [hne] using hpeek
    exact (forms_advance hkw (by decide)).seq fun _ _ => forms_statementBody h

theorem forms_statement : (statement inner).Forms Rule c fun _ => [nodes statementKinds] := by
  have hkind : ∀ {kind : Kind} {body : Parser Kind Unit},
      kind ∉ [.error, .asmExpr, .binaryExpr] → kind ∈ statementKinds →
      (body.Forms Rule c fun _ => Form.of kind) →
      (discard (node kind body) : Parser Kind Unit).Forms Rule c
        fun _ => [nodes statementKinds] :=
    fun hkind hmem hbody => (forms_kind hkind hbody).discard.nodes_subset (by simpa using hmem)
  have hvar : c.peek ∈ [.constKw, .varKw] →
      (varDecl inner).Forms Rule c fun _ => Form.of .varDecl := fun hpeek =>
    ((((forms_varDecl h hpeek).missing.missing.missing).gather)).choose List.mem_cons_self
  have hcomptime : c.peek = .comptimeKw → c.nth 1 ∈ [.constKw, .varKw] →
      (do advance; varDecl inner : Parser Kind Unit).Forms Rule c fun _ => Form.of .varDecl := by
    intro hpeek hnext
    rw [← Cursor.nth_next hpeek (by decide) 0] at hnext
    exact Forms.choose (forms_advance_bind hpeek (by decide) (forms_varDecl h hnext))
      (List.mem_cons_of_mem _ List.mem_cons_self)
  have hbump : ∀ {fault : Fault Kind}, fault.sign = .fault →
      (bump fault : Parser Kind Unit).Forms Rule c fun _ => [nodes statementKinds] := fun hfault =>
    (forms_bump (fun _ => rule_error) hfault).nodes_subset (by decide)
  rw [statement, routine_eq, forms_peek_bind, forms_nth_bind]
  split
  · exact hkind (by decide) (by decide) (hcomptime ‹_› (by simp [*]))
  · exact hkind (by decide) (by decide) (hcomptime ‹_› (by simp [*]))
  · exact hkind (by decide) (by decide) (hvar (by simp [*]))
  · exact hkind (by decide) (by decide) (hvar (by simp [*]))
  · exact (forms_deferStatement h (by simp [*])).nodes_subset (by decide)
  · exact (forms_deferStatement h (by simp [*])).nodes_subset (by decide)
  · refine hkind (by decide) (by decide) ?_
    exact (forms_advance ‹_› (by decide)).seq fun _ _ => forms_statementBody h
  · exact hbump rfl
  · exact hbump rfl
  · exact hbump rfl
  · exact hbump rfl
  · exact hkind (by decide) (by decide) (forms_statementBody h)

omit h in
/-- A node, and another one where nothing was taken. -/
theorem forms_moves_or_bump
    {p : Parser Kind Unit}
    {kinds : List Kind}
    {fault : Fault Kind}
    (hfault : fault.sign = .fault)
    (hp : p.Forms Rule c fun _ => [nodes kinds]) :
    (do
      unless ← moves p do
        bump fault
      return true : Parser Kind Bool).Forms Rule c
        fun _ => [perhaps [nodes kinds, perhaps [nodes [.error]]]] := by
  refine .there ((forms_moves hp).seq fun moved c => Forms.ite (fun _ => ?_) fun _ => ?_)
  · exact .missing (forms_pure _ rfl)
  · exact .there ((forms_bump (fun _ => rule_error) hfault).seq fun _ _ => forms_pure _ rfl)

theorem forms_blockBody : (blockBody inner).Forms Rule c fun _ => [Form.statements] := by
  refine Forms.group <| (forms_expect (by decide)).seq fun _ _ =>
    (forms_repeatWhile fun c => ?_).seq fun _ _ => forms_expect (by decide)
  refine forms_at_bind.mpr (forms_atEnd_bind.mpr (Forms.ite (fun _ => ?_) fun _ => ?_))
  · exact .missing (forms_pure _ rfl)
  · exact forms_moves_or_bump rfl (forms_statement h)

theorem forms_block : (block inner).Forms Rule c fun _ => [Form.block] := by
  refine forms_at_bind.mpr (Forms.ite (fun _ => ?_) fun _ => forms_peek_bind.mpr ?_)
  · have hblock : (blockBody inner).Forms Rule c fun _ => Form.of .block :=
      .missing (forms_blockBody h)
    exact (forms_kind (by decide) hblock).discard.nodes_subset (by decide)
  · exact (forms_recover (fun _ => rule_error) rfl _).nodes_subset (by decide)

/-! ## Declarations and members of containers -/

omit h in
theorem forms_stringLiteral (hpeek : c.peek = .stringLiteralSingle) :
    (node .stringLiteral advance : Parser Kind Kind).Forms Rule c
      fun _ => [nodes [.stringLiteral]] :=
  forms_kind (by decide) ((forms_advance hpeek (by decide)).choose List.mem_cons_self)

theorem forms_testDecl (hpeek : c.peek = .testKw) :
    (testDecl inner).Forms Rule c fun _ => [nodes [.testDecl]] := by
  refine Forms.discard (forms_kind (by decide) ?_)
  refine (forms_advance hpeek (by decide)).seq fun _ c => forms_peek_bind.mpr ?_
  dsimp only
  split
  · refine .there (Forms.seq ?_ fun _ _ => forms_block h)
    exact (forms_stringLiteral ‹_›).discard.nodes_subset (by decide)
  · refine .there (Forms.seq ?_ fun _ _ => forms_block h)
    exact (forms_name_at _ ‹_›).nodes_subset (by decide)
  · exact .missing (forms_block h)

omit h in
theorem forms_linkage : (linkage : Parser Kind Unit).Forms Rule c fun _ => [Form.linkage] := by
  have hkeyword : c.peek ∈ [.exportKw, .inlineKw, .noinlineKw] →
      (advance : Parser Kind Unit).Forms Rule c fun _ => [Form.linkage] := fun hpeek =>
    .there ((forms_advance_mem hpeek (by decide)).choose List.mem_cons_self)
  rw [linkage, forms_peek_bind]
  split
  · exact hkeyword (by simp [*])
  · exact hkeyword (by simp [*])
  · exact hkeyword (by simp [*])
  · refine .there (Forms.choose (P := all [Form.token .externKw, perhaps [nodes [.stringLiteral]]])
      (Forms.group ?_) (by simp))
    refine (forms_advance ‹_› (by decide)).seq fun _ c => forms_at_bind.mpr ?_
    refine Forms.ite (fun hpeek => ?_) fun _ => .missing (forms_pure _ rfl)
    exact .there (forms_stringLiteral (by simpa using hpeek)).discard
  · exact .missing (forms_pure _ rfl)

/-- A declaration has the form of the kind that it turns out to have. -/
theorem completes_declBody :
    (declBody inner).Completes Rule c [] [.usingnamespaceDecl, .fnDecl, .varDecl, .error] := by
  refine (forms_skip (by decide)).completes fun _ c => ?_
  refine completes_eat_bind (fun hpeek => ?_) fun _ => ?_
  · refine (forms_advance hpeek (by decide)).completes fun _ c => ?_
    refine h.forms_expr.completes fun _ c => (forms_expect (by decide)).completes fun _ c => ?_
    exact completes_pure (by decide) fun ms hms => rule_of_regular (by decide) hms
  refine forms_linkage.completes fun _ c => completes_bind_of_eq (nthAt_cursor 0 _) ?_
  refine Completes.ite (fun _ => ?_) fun _ => ?_
  · refine (forms_fnProto h).completes fun _ c => completes_bind_of_eq (nthAt_cursor 0 _) ?_
    have hdone : ∀ c, (pure Kind.fnDecl : Parser Kind Kind).Completes Rule c
        (Form.of .fnDecl) [.usingnamespaceDecl, .fnDecl, .varDecl, .error] := fun c =>
      completes_pure (by decide) fun ms hms => rule_of_regular (by decide) hms
    refine Completes.ite (fun _ => ?_) fun _ => ?_
    · exact ((forms_block h).choose List.mem_cons_self).completes fun _ => hdone
    · exact ((forms_expect (by decide)).choose (by simp)).completes fun _ => hdone
  refine (forms_skip (by decide)).completes fun _ c => ?_
  refine completes_bind_of_eq (nthAt_cursor 0 _) (completes_bind_of_eq (nthAt_cursor 0 _) ?_)
  refine Completes.ite (fun hpeek => ?_) fun _ => ?_
  · refine (forms_varDecl h (by simpa [Cursor.peek] using hpeek)).completes fun _ c => ?_
    refine completes_pure (by decide) fun ms hms => rule_of_regular (by decide) ?_
    have hparts : Regular Rule ([perhaps [Form.token .pubKw], Form.linkage,
        perhaps [Form.token .threadlocalKw]] ++ [Form.varBody]) ms := hms
    exact hparts.gather.choose List.mem_cons_self
  · refine (forms_report rfl).completes fun _ c => ?_
    exact completes_pure (by decide) fun ms hms => rule_error_of_regular (by decide) hms

theorem forms_containerField :
    (containerField inner).Forms Rule c fun _ => [nodes [.containerField]] := by
  refine Forms.discard (forms_kind (by decide) ?_)
  refine (forms_skip (by decide)).seq fun _ _ => forms_fieldName.seq fun _ _ =>
    h.forms_type.seq fun _ c => forms_ifAt (fun hpeek => forms_alignClause h hpeek) fun c => ?_
  refine forms_ifEat (by decide) (fun _ => h.forms_expr.group) fun c => ?_
  refine forms_eat_bind (fun hpeek => ?_) fun _ => ?_
  · exact .there (.expected ((forms_advance hpeek (by decide)).seq fun _ _ => forms_pure _ rfl))
  refine forms_at_bind.mpr (forms_atEnd_bind.mpr (Forms.ite (fun _ => ?_) fun _ => ?_))
  · exact .missing (forms_pure _ rfl)
  · exact .there (.faulty (forms_report rfl))

theorem forms_containerMember :
    (containerMember inner).Forms Rule c fun _ => [nodes memberKinds] := by
  have hdecl : (discard (nodeOf (declBody inner)) : Parser Kind Unit).Forms Rule c
      fun _ => [nodes memberKinds] :=
    (completes_declBody h).nodeOf.discard.nodes_subset (by decide)
  have hfield : (containerField inner).Forms Rule c fun _ => [nodes memberKinds] :=
    (forms_containerField h).nodes_subset (by decide)
  have hbump : ∀ {fault : Fault Kind}, fault.sign = .fault →
      (bump fault : Parser Kind Unit).Forms Rule c fun _ => [nodes memberKinds] := fun hfault =>
    (forms_bump (fun _ => rule_error) hfault).nodes_subset (by decide)
  rw [containerMember, routine_eq, forms_peek_bind]
  split
  · exact (forms_testDecl h ‹_›).nodes_subset (by decide)
  · exact hdecl
  · exact hdecl
  · exact hdecl
  · exact hdecl
  · exact hdecl
  · exact hdecl
  · exact hdecl
  · exact hdecl
  · exact hdecl
  · exact hdecl
  · rename_i hpeek
    refine forms_nthAt_bind.mpr (Forms.ite (fun _ => ?_) fun _ => hfield)
    have hcomptime : (node .comptimeDecl do
        advance
        block inner : Parser Kind Kind).Forms Rule c fun _ => [nodes [.comptimeDecl]] :=
      forms_kind (by decide) ((forms_advance hpeek (by decide)).seq fun _ _ => forms_block h)
    exact hcomptime.discard.nodes_subset (by decide)
  · exact hfield
  · exact hbump rfl
  · exact hbump rfl

theorem forms_containerMembers (inBraces : Bool) :
    (containerMembers inner inBraces).Forms Rule c fun _ => [Form.members] := by
  refine forms_repeatWhile fun c => forms_atEnd_bind.mpr (forms_at_bind.mpr ?_)
  refine Forms.ite (fun _ => .missing (forms_pure _ rfl)) fun _ => ?_
  exact forms_moves_or_bump rfl (forms_containerMember h)

/-! ## Types and primary expressions -/

theorem forms_containerTag : (containerTag inner).Forms Rule c fun _ => [Form.containerTag] := by
  refine forms_eat_bind (fun hpeek => .there ?_) fun _ => .missing (forms_pure _ rfl)
  exact (forms_advance hpeek (by decide)).seq fun _ _ => h.forms_expr.seq fun _ _ =>
    forms_expect (by decide)

theorem forms_unionTag : (unionTag inner).Forms Rule c fun _ => [Form.unionTag] := by
  refine forms_eat_bind (fun hpeek => .there ?_) fun _ => .missing (forms_pure _ rfl)
  refine (forms_advance hpeek (by decide)).seq fun _ c => ?_
  refine forms_eat_bind (fun henum => ?_) fun _ => ?_
  · refine Forms.choose (P := all [Form.token .enumKw, Form.containerTag]) ?_ List.mem_cons_self
    exact .gather <| (forms_advance henum (by decide)).seq fun _ _ =>
      (forms_containerTag h).seq fun _ _ => forms_expect (by decide)
  · refine Forms.choose (P := Form.expr) ?_ (by simp)
    exact h.forms_expr.seq fun _ _ => forms_expect (by decide)

omit h in
/-- How a container is laid out may be said in front of it. -/
theorem forms_externOrPacked
    {rest : Parser Kind Unit}
    {Ps : List (Pattern Kind)}
    (hrest : ∀ c, rest.Forms Rule c fun _ => Ps) :
    (do
      unless ← eat .externKw do
        skip .packedKw
      rest : Parser Kind Unit).Forms Rule c fun _ =>
        any [Form.token .externKw, perhaps [Form.token .packedKw]] :: Ps := by
  refine forms_eat_bind (fun hpeek => ?_) fun _ => ?_
  · refine Forms.choose ?_ List.mem_cons_self
    exact (forms_advance hpeek (by decide)).seq fun _ => hrest
  · refine Forms.choose (P := perhaps [Form.token .packedKw]) ?_ (by simp)
    exact (forms_skip (by decide)).seq fun _ => hrest

theorem forms_containerDecl :
    (containerDecl inner).Forms Rule c fun _ => [nodes [.containerDecl]] := by
  have hmembers : ∀ c, (do
      if ← eat .leftBrace then
        containerMembers inner true
        expect .rightBrace
      else report .expectedContainerBody : Parser Kind Unit).Forms Rule c
        fun _ =>
          [any [all [Form.token .leftBrace, Form.members, expected .rightBrace], fault]] := by
    intro c
    refine forms_eat_bind (fun hpeek => ?_) fun _ => (forms_report rfl).choose (by simp)
    refine Forms.choose (Forms.group ?_) List.mem_cons_self
    exact (forms_advance hpeek (by decide)).seq fun _ _ =>
      (forms_containerMembers h true).seq fun _ _ => forms_expect (by decide)
  refine forms_kind (by decide) (forms_externOrPacked fun c => forms_peek_bind.mpr ?_)
  dsimp only
  split
  · refine Forms.choose (.gather ?_) List.mem_cons_self
    exact (forms_advance_mem (by simp [*]) (by decide)).seq fun _ _ =>
      (forms_containerTag h).seq fun _ => hmembers
  · refine Forms.choose (.gather ?_) List.mem_cons_self
    exact (forms_advance_mem (by simp [*]) (by decide)).seq fun _ _ =>
      (forms_containerTag h).seq fun _ => hmembers
  · refine Forms.choose (P := all [Form.token .unionKw, Form.unionTag]) (.gather ?_) (by simp)
    exact (forms_advance ‹_› (by decide)).seq fun _ _ => (forms_unionTag h).seq fun _ => hmembers
  · refine Forms.choose (P := Form.token .opaqueKw) ?_ (by simp)
    exact (forms_advance ‹_› (by decide)).seq fun _ => hmembers
  · exact Forms.choose (P := fault) ((forms_report rfl).seq fun _ => hmembers) (by simp)

theorem forms_builtinCall (hpeek : c.peek = .builtin) :
    (builtinCall inner).Forms Rule c fun _ => [nodes [.builtinCall]] := by
  refine forms_kind (by decide) ((forms_advance hpeek (by decide)).seq fun _ c => ?_)
  refine forms_at_bind.mpr (Forms.ite (fun _ => ?_) fun _ => ?_)
  · exact (forms_argList h).choose List.mem_cons_self
  · exact (forms_report rfl).choose (by simp)

omit h in
theorem leaves_noExpression
    {kinds : List Kind} :
    Leaves noExpression c kinds :=
  forms_peek_bind.mpr (leaves_none (forms_recover (fun _ => rule_error) rfl _))

omit h in
theorem forms_multiline (hpeek : c.peek = .stringLiteralMulti) :
    (node .stringLiteral (repeatWhile (eat .stringLiteralMulti)) : Parser Kind Kind).Forms Rule c
      fun _ => [nodes [.stringLiteral]] := by
  have hlines : (repeatWhile (eat .stringLiteralMulti) : Parser Kind Unit).Forms Rule c fun _ =>
      [Form.token .stringLiteralMulti, many [perhaps [Form.token .stringLiteralMulti]]] :=
    forms_repeatWhile_first (forms_eat_at hpeek (by decide)) fun _ => forms_eat (by decide)
  exact forms_kind (by decide) (hlines.group.choose (by simp))

theorem leaves_primaryType : Leaves (primaryType inner) c typeKinds := by
  have hliteral : c.peek ∈ [.charLiteral, .integer, .float, .unreachableKw] →
      Leaves (do return some (← node .literal advance)) c typeKinds := fun hpeek =>
    leaves_kind (by decide) (by decide) (forms_advance_mem hpeek (by decide))
  have hcontainer : Leaves (do return some (← containerDecl inner)) c typeKinds :=
    leaves_some (forms_containerDecl h) (by decide)
  have hnext : ∀ {kind : Kind}, c.peek ≠ .eof → c.nth 1 = kind → c.next.peek = kind :=
    fun hne hkind => (Cursor.nth_next rfl hne 0).trans hkind
  refine forms_peek_bind.mpr (forms_nth_bind.mpr ?_)
  split
  · exact leaves_some (forms_builtinCall h ‹_›) (by decide)
  · exact hliteral (by simp [*])
  · exact hliteral (by simp [*])
  · exact hliteral (by simp [*])
  · exact hliteral (by simp [*])
  · exact leaves_some (forms_stringLiteral ‹_›) (by decide)
  · exact leaves_some (forms_multiline ‹_›) (by decide)
  · refine leaves_kind (by decide) (by decide) (forms_advance ‹_› (by decide)).missing_last
  · exact leaves_some (forms_ident ‹_›) (by decide)
  · exact hcontainer
  · exact hcontainer
  · exact hcontainer
  · exact hcontainer
  · exact hcontainer
  · exact hcontainer
  · rename_i hpeek hname
    refine leaves_kind (by decide) (by decide) (forms_advance_bind hpeek (by decide) ?_)
    exact forms_name_at _ (hnext (by simp [hpeek]) hname)
  · exact leaves_some (forms_initList h) (by decide)
  · rename_i hpeek _
    refine leaves_kind (by decide) (by decide) ((forms_advance hpeek (by decide)).seq fun _ _ => ?_)
    exact forms_list _ fun _ => forms_name _
  · rename_i hpeek hdot
    refine leaves_kind (by decide) (by decide) (forms_advance_bind hpeek (by decide) ?_)
    exact (forms_advance (hnext (by simp [hpeek]) hdot) (by decide)).seq fun _ _ => forms_name _
  · exact leaves_kind (by decide) (by decide) (forms_fnProto h)
  · refine leaves_kind (by decide) (by decide) ((forms_advance ‹_› (by decide)).seq fun _ _ => ?_)
    exact h.forms_expr.seq fun _ _ => forms_expect (by decide)
  · exact leaves_some (forms_ifExpr h ‹_›) (by decide)
  · exact leaves_some (forms_switchExpr h ‹_›) (by decide)
  · refine leaves_kind (by decide) (by decide) ((forms_advance ‹_› (by decide)).seq fun _ _ => ?_)
    exact h.forms_type.nodes_subset (by decide)
  · exact leaves_noExpression

/-- What stands behind the expression in the brackets of an index or a slice. -/
def sliceTail : Kind → List (Pattern Kind)
  | .indexExpr => []
  | .sliceExpr =>
      [Form.token .dot2, perhaps [Form.expr], perhaps [Form.token .colon, Form.expr]]
  | _ => [0]

theorem forms_indexOrSlice : (indexOrSlice inner).Forms Rule c fun kind =>
    Form.expr :: sliceTail kind := by
  refine h.forms_expr.seq fun _ c => forms_eat_bind (fun hpeek => ?_) fun _ => forms_pure _ rfl
  have hsentinel : ∀ c, (do
      if ← eat .colon then discard inner.expr
      return .sliceExpr : Parser Kind Kind).Forms Rule c fun _ =>
        [perhaps [Form.token .colon, Form.expr]] := fun c =>
    forms_ifEat (by decide) (fun _ => h.forms_expr.group) fun _ => forms_pure _ rfl
  refine Forms.of_gives (a := .sliceExpr) ?_ ?_
  · refine (forms_advance hpeek (by decide)).seq fun _ c => ?_
    refine forms_at_bind.mpr (forms_at_bind.mpr (Forms.ite (fun _ => ?_) fun _ => ?_))
    · exact .missing (hsentinel c)
    · exact .there (h.forms_expr.seq fun _ => hsentinel)
  · have hgives : (do
        if ← eat .colon then discard inner.expr
        return .sliceExpr : Parser Kind Kind).Gives (· = .sliceExpr) :=
      gives_bind fun _ => Gives.ite (gives_bind fun _ => gives_pure rfl) (gives_pure rfl)
    refine gives_bind fun _ => gives_bind fun _ => gives_bind fun _ => ?_
    exact Gives.ite hgives (gives_bind fun _ => hgives)

/-- An index or a slice around what stands before it. -/
theorem completes_brackets (hpeek : c.peek = .leftBracket) :
    (do
      advance
      let kind ← indexOrSlice inner
      expect .rightBracket
      return kind : Parser Kind Kind).Completes Rule c [Form.type] [.indexExpr, .sliceExpr] := by
  refine (forms_advance hpeek (by decide)).completes fun _ c => ?_
  refine (forms_indexOrSlice h).completes_bind fun kind c => ?_
  by_cases hindex : kind = .indexExpr
  · subst hindex
    refine (forms_expect (by decide)).completes fun _ c => ?_
    exact completes_pure (by decide) fun ms hms => rule_of_regular (by decide) hms
  by_cases hslice : kind = .sliceExpr
  · subst hslice
    refine (forms_expect (by decide)).completes fun _ c => ?_
    exact completes_pure (by decide) fun ms hms => rule_of_regular (by decide) hms
  · have htail : sliceTail kind = [0] := by
      unfold sliceTail
      split <;> simp_all
    have hnone : ∀ ms, ¬Regular Rule ([Form.type, Form.token .leftBracket, Form.expr] ++ [0]) ms :=
      fun _ => Regular.not_zero
    rw [htail]
    exact fun ms hms => absurd hms (hnone ms)

theorem reworks_suffix
    {kind : Kind}
    {children : List (Marked Kind)}
    (lhs : Kind)
    (hkind : kind ∈ typeKinds)
    (hnode : (Shape.node kind children : Marked Kind).Everywhere Rule) :
    (suffix inner lhs).Reworks Rule c (.node kind children) fun _ => typeKinds := by
  have hnext : ∀ {kind : Kind}, c.peek ≠ .eof → c.nth 1 = kind → c.next.peek = kind :=
    fun hne hkind => (Cursor.nth_next rfl hne 0).trans hkind
  refine (reworks_bind_of_eq (nth_cursor 0)).mpr ((reworks_bind_of_eq (nth_cursor 1)).mpr ?_)
  split
  · refine ((completes_brackets h ‹_›).wrapOf hkind hnode).bind ?_
    intro _ c kind' children' hkind' hnode'
    refine reworks_pure _ ?_ hnode'
    rcases List.mem_pair.mp hkind' with rfl | rfl <;> decide
  · rename_i hpeek hname
    refine reworks_wrap _ (by decide) rfl (fun _ => by decide) ?_ hkind hnode
    exact forms_advance_bind hpeek (by decide)
      (forms_name_at _ (hnext (by simp [Cursor.peek, hpeek]) hname))
  · rename_i hpeek hquestion
    refine reworks_wrap _ (by decide) rfl (fun _ => by decide) ?_ hkind hnode
    exact forms_advance_bind hpeek (by decide)
      (forms_advance (hnext (by simp [Cursor.peek, hpeek]) hquestion) (by decide))
  · exact reworks_wrap _ (by decide) rfl (fun _ => by decide) (forms_advance ‹_› (by decide)) hkind
      hnode
  · exact reworks_wrap _ (by decide) rfl (fun _ => by decide) (forms_argList h) hkind hnode
  · exact reworks_pure _ hkind hnode

theorem leaves_suffixExpr : Leaves (suffixExpr inner) c typeKinds := by
  refine (leaves_primaryType h).rework fun found c kind children hkind hnode => ?_
  cases found with
  | none => exact reworks_none hkind hnode
  | some lhs =>
      refine (reworks_iterate (F := fun _ => typeKinds) ?_ hkind hnode).bind ?_
      · exact fun lhs c kind children hkind hnode => reworks_suffix h lhs hkind hnode
      · exact fun _ c kind children hkind hnode => reworks_pure _ hkind hnode

theorem leaves_errorUnion : Leaves (errorUnion inner) c typeKinds := by
  refine (leaves_suffixExpr h).rework fun found c kind children hkind hnode => ?_
  cases found with
  | none => exact reworks_none hkind hnode
  | some lhs =>
      refine (reworks_bind_of_eq (nthAt_cursor 0 _)).mpr ?_
      split
      · rename_i hpeek
        have hmem : .errorUnionExpr ∈ typeKinds := by decide
        refine reworks_wrap some (by decide) rfl (fun _ => hmem) ?_ hkind hnode
        exact (forms_advance (eq_of_beq hpeek) (by decide)).seq fun _ _ => h.forms_type
      · exact reworks_pure _ hkind hnode

theorem forms_pointerModifiers :
    (pointerModifiers inner).Forms Rule c fun _ => [Form.modifiers] := by
  refine forms_repeatWhile fun c => forms_peek_bind.mpr ?_
  have hkeyword : c.peek ∈ [.constKw, .volatileKw, .allowzeroKw] →
      (do advance; return true : Parser Kind Bool).Forms Rule c fun _ =>
        [perhaps [any [tokens [.constKw, .volatileKw, .allowzeroKw], Form.clauses]]] :=
    fun hpeek => .there <| Forms.choose ((forms_advance_mem hpeek (by decide)).seq fun _ _ =>
      forms_pure _ rfl) List.mem_cons_self
  have hclauses : (do clauses inner false; return true : Parser Kind Bool).Forms Rule c fun _ =>
      [perhaps [any [tokens [.constKw, .volatileKw, .allowzeroKw], Form.clauses]]] :=
    .there <| Forms.choose ((forms_clauses h false).seq fun _ _ => forms_pure _ rfl) (by simp)
  split
  · exact hkeyword (by simp [*])
  · exact hkeyword (by simp [*])
  · exact hkeyword (by simp [*])
  · exact hclauses
  · exact hclauses
  · exact .missing (forms_pure _ rfl)

/-- What stands in the brackets of a type. -/
def bracketForm : Kind → List (Pattern Kind)
  | .ptrType =>
      [Form.token .star, perhaps [any [Form.token .identifier, all [Form.token .colon, Form.expr]]]]
  | .sliceType => [perhaps [Form.token .colon, Form.expr]]
  | .arrayType => [Form.expr, perhaps [Form.token .colon, Form.expr]]
  | _ => [0]

theorem forms_bracketContent : (bracketContent inner).Forms Rule c bracketForm := by
  refine forms_peek_bind.mpr ?_
  split
  · refine Forms.of_gives (a := .ptrType) ?_ ?_
    · refine (forms_advance ‹_› (by decide)).seq fun _ c => forms_at_bind.mpr ?_
      refine forms_text_bind fun text => Forms.ite (fun hc => ?_) fun _ => ?_
      · have hpeek : c.peek = .identifier := by simp_all
        refine .there (Forms.choose ?_ List.mem_cons_self)
        exact (forms_advance hpeek (by decide)).seq fun _ _ => forms_pure _ rfl
      refine forms_eat_bind (fun hpeek => ?_) fun _ => .missing (forms_pure _ rfl)
      refine .there (Forms.choose (P := all [Form.token .colon, Form.expr]) (.gather ?_) (by simp))
      exact (forms_advance hpeek (by decide)).seq fun _ _ => h.forms_expr.seq fun _ _ =>
        forms_pure _ rfl
    · refine gives_bind fun _ => gives_bind fun _ => gives_bind fun _ => ?_
      refine Gives.ite (gives_bind fun _ => gives_pure rfl) (gives_bind fun _ => ?_)
      exact Gives.ite (gives_bind fun _ => gives_pure rfl) (gives_pure rfl)
  · exact Forms.of_gives (a := .sliceType) (.missing (forms_pure _ rfl)) (gives_pure rfl)
  · refine Forms.of_gives (a := .sliceType) (.there ?_) ?_
    · exact (forms_advance ‹_› (by decide)).seq fun _ _ => h.forms_expr.seq fun _ _ =>
        forms_pure _ rfl
    · exact gives_bind fun _ => gives_bind fun _ => gives_pure rfl
  · refine Forms.of_gives (a := .arrayType) ?_ ?_
    · exact h.forms_expr.seq fun _ _ => forms_ifEat (by decide) (fun _ => h.forms_expr.group)
        fun _ => forms_pure _ rfl
    · refine gives_bind fun _ => gives_bind fun _ => ?_
      exact Gives.ite (gives_bind fun _ => gives_pure rfl) (gives_pure rfl)

theorem forms_bracketType (hpeek : c.peek = .leftBracket) :
    (bracketType inner).Forms Rule c fun _ => [nodes [.ptrType, .sliceType, .arrayType]] := by
  refine Completes.nodeOf ((forms_advance hpeek (by decide)).completes fun _ c => ?_)
  refine (forms_bracketContent h).completes_bind fun kind c => ?_
  have hdone : ∀ {kind : Kind} {Ps : List (Pattern Kind)},
      kind ∈ [.ptrType, .sliceType, .arrayType] →
      (∀ ms, Regular Rule (Ps ++ [Form.type]) ms → Rule kind ms) →
      ∀ c, (do
        discard inner.type
        return kind : Parser Kind Kind).Completes Rule c Ps [.ptrType, .sliceType, .arrayType] :=
    fun hkind hrule c => h.forms_type.completes fun _ c => completes_pure hkind hrule
  by_cases hpointer : kind = .ptrType
  · subst hpointer
    refine (forms_expect (by decide)).completes fun _ c => ?_
    refine (forms_pointerModifiers h).completes fun _ => hdone (by decide) fun ms hms => ?_
    have hparts : Regular Rule ([Form.token .leftBracket, Form.token .star,
        perhaps [any [Form.token .identifier, all [Form.token .colon, Form.expr]]],
        expected .rightBracket] ++ [Form.modifiers, Form.type]) ms := hms
    exact rule_of_regular (by decide) (hparts.gather.choose (by simp))
  by_cases hslice : kind = .sliceType
  · subst hslice
    refine (forms_expect (by decide)).completes fun _ c => ?_
    exact (forms_pointerModifiers h).completes fun _ => hdone (by decide) fun ms hms =>
      rule_of_regular (by decide) hms
  by_cases harray : kind = .arrayType
  · subst harray
    refine (forms_expect (by decide)).completes fun _ => ?_
    exact hdone (by decide) fun ms hms => rule_of_regular (by decide) hms
  · have hform : bracketForm kind = [0] := by
      unfold bracketForm
      split <;> simp_all
    rw [hform]
    exact completes_zero

theorem leaves_typeWith : Leaves (typeWith inner) c typeKinds := by
  have hpointer : c.peek ∈ [.star, .star2] → Leaves (do
      return some (← node .ptrType do
        advance
        pointerModifiers inner
        discard inner.type)) c typeKinds := by
    intro hpeek
    refine leaves_kind (by decide) (by decide) (Forms.choose ?_ List.mem_cons_self)
    exact (forms_advance_mem hpeek (by decide)).seq fun _ _ =>
      (forms_pointerModifiers h).seq fun _ _ => h.forms_type
  refine forms_peek_bind.mpr (forms_nth_bind.mpr ?_)
  split
  · refine leaves_kind (by decide) (by decide) ?_
    exact (forms_advance ‹_› (by decide)).seq fun _ _ => h.forms_type
  · rename_i hpeek harrow
    refine leaves_kind (by decide) (by decide) (forms_advance_bind hpeek (by decide) (.there ?_))
    have hnext : c.next.peek = .arrow := (Cursor.nth_next hpeek (by decide) 0).trans harrow
    exact (forms_advance hnext (by decide)).seq fun _ _ => h.forms_type
  · exact hpointer (by simp [*])
  · exact hpointer (by simp [*])
  · exact leaves_some (forms_bracketType h ‹_›) (by decide)
  · exact leaves_errorUnion h

/-! ## Expressions -/

omit h in
/-- Inline assembly is made of tokens. -/
theorem forms_asmExpr : (asmExpr : Parser Kind Kind).Forms Rule c fun _ => [nodes [.asmExpr]] := by
  have hassembly : ∀ depth, (assemblyToken depth : Parser Kind (Bool × Nat)).Strews := by
    intro depth
    refine strews_atEnd.bind fun _ => Strews.ite (strews_pure _) ?_
    refine strews_peek.bind fun kind => (strews_ensure _).bind fun _ => ?_
    exact strews_peek.bind fun kind => strews_advance.bind fun _ => strews_pure _
  have hat : ∀ kind : Kind, (at_ kind : Parser Kind Bool).Strews := fun kind =>
    strews_of_eq fun c => ⟨_, nthAt_cursor 0 kind⟩
  have hskip : ∀ kind : Kind, (skip kind : Parser Kind Unit).Strews := fun kind =>
    ((hat kind).bind fun _ => Strews.ite (strews_advance.bind fun _ => strews_pure _)
      (strews_pure _)).discard
  have hbody : (do
      advance
      skip .volatileKw
      if ← at_ .leftParen then
        let depth ← iterate assemblyToken 0
        unless depth == 0 do
          report .unclosedAssembly
      else report .expectedAssemblyParen : Parser Kind Unit).Strews := by
    refine strews_advance.bind fun _ => (hskip _).bind fun _ => (hat _).bind fun _ => ?_
    refine Strews.ite ((strews_iterate hassembly 0).bind fun depth => ?_) (strews_report rfl)
    exact Strews.ite (strews_pure _) (strews_report rfl)
  intro children
  refine draws_nodeOf ((hbody ⟨c, []⟩).bind fun _ t ⟨ms, hms, hloose⟩ => draws_pure ?_)
  rw [List.append_nil] at hms
  have hchildren : ∀ m ∈ t.children.reverse, m.Loose := fun m hm =>
    hloose m (hms ▸ List.mem_reverse.mp hm)
  refine ⟨[.node .asmExpr t.children.reverse], rfl, .nodes (List.mem_singleton.mpr rfl) ?_ ?_⟩
  · exact ⟨nofun, fun _ m hm => (hchildren m hm).1, fun _ hne => absurd rfl hne, nofun,
      fun _ m hm => (hchildren m hm).2⟩
  · exact fun m hm => (hchildren m hm).everywhere

omit h in
theorem forms_label (hpeek : c.peek = .identifier) :
    (label : Parser Kind Unit).Forms Rule c fun _ => [nodes [.label]] := by
  refine Forms.discard (forms_kind (by decide) (Forms.choose (Forms.group ?_) List.mem_cons_self))
  exact (forms_name_at _ hpeek).seq fun _ _ => forms_expect (by decide)

omit h in
/-- A label after a jump, if there is one, and the run goes on. -/
theorem forms_jumpLabel_bind
    {β : Type}
    {f : Bool → Parser Kind β}
    {F : β → List (Pattern Kind)}
    (hf : ∀ found c, (f found).Forms Rule c F) :
    (jumpLabel >>= f).Forms Rule c fun b => perhaps [nodes [.label]] :: F b := by
  refine Forms.seq ?_ hf
  refine forms_at_bind.mpr (forms_nthAt_bind.mpr (Forms.ite (fun hlabel => ?_) fun _ => ?_))
  · simp only [Bool.and_eq_true, beq_iff_eq] at hlabel
    have hname : c.next.peek = .identifier :=
      (Cursor.nth_next hlabel.1 (by decide) 0).trans hlabel.2
    have hbody : (do
        advance
        name .empty : Parser Kind Unit).Forms Rule c fun _ => Form.of .label :=
      Forms.choose (Forms.group (forms_advance_bind hlabel.1 (by decide) (forms_name_at _ hname)))
        (by simp [Form.token])
    exact .there ((forms_kind (by decide) hbody).discard.seq fun _ _ => forms_pure _ rfl)
  · exact .missing (forms_pure _ rfl)

theorem forms_optionalExpr : (optionalExpr inner).Forms Rule c fun _ => [perhaps [Form.expr]] := by
  refine forms_atAny_bind.mpr (Forms.ite (fun _ => .there h.forms_expr) fun _ => ?_)
  exact .missing (forms_pure _ rfl)

theorem forms_breakExpr (hpeek : c.peek = .breakKw) :
    (breakExpr inner).Forms Rule c fun _ => [nodes [.breakExpr]] := by
  refine forms_kind (by decide) ((forms_advance hpeek (by decide)).seq fun _ c => ?_)
  have hlabel : (discard jumpLabel : Parser Kind Unit).Forms Rule c fun _ =>
      [perhaps [nodes [.label]]] :=
    forms_jumpLabel_bind fun _ _ => forms_pure _ rfl
  exact hlabel.seq fun _ _ => forms_optionalExpr h

theorem forms_continueExpr (hpeek : c.peek = .continueKw) :
    (continueExpr inner).Forms Rule c fun _ => [nodes [.continueExpr]] := by
  refine forms_kind (by decide) ((forms_advance hpeek (by decide)).seq fun _ c => ?_)
  refine forms_jumpLabel_bind fun found c => Forms.ite (fun _ => forms_optionalExpr h) fun _ => ?_
  exact .missing (forms_pure _ rfl)

theorem forms_returnExpr (hpeek : c.peek = .returnKw) :
    (returnExpr inner).Forms Rule c fun _ => [nodes [.returnExpr]] :=
  forms_kind (by decide) <| (forms_advance hpeek (by decide)).seq fun _ _ => forms_optionalExpr h

theorem forms_keywordExpr
    {kind keyword : Kind}
    (hkind : kind ∉ [.error, .asmExpr, .binaryExpr])
    (hform : Form.of kind = [Form.token keyword, Form.expr])
    (hpeek : c.peek = keyword)
    (hkeyword : keyword ≠ .eof) :
    (keywordExpr inner kind).Forms Rule c fun _ => [nodes [kind]] := by
  refine forms_kind hkind ?_
  rw [hform]
  exact (forms_advance hpeek hkeyword).seq fun _ _ => h.forms_expr

theorem forms_forInput : (forInput inner).Forms Rule c fun _ => [nodes [.forInput]] := by
  refine Forms.discard (forms_kind (by decide) (h.forms_expr.seq fun _ c => ?_))
  refine forms_eat_bind (fun hpeek => .there ?_) fun _ => .missing (forms_pure _ rfl)
  refine (forms_advance hpeek (by decide)).seq fun _ c => forms_at_bind.mpr (forms_at_bind.mpr ?_)
  refine Forms.ite (fun _ => .missing (forms_pure _ rfl)) fun _ => .there h.forms_expr

theorem forms_whileContinue :
    (whileContinue inner).Forms Rule c fun _ => [perhaps [nodes [.whileContinue]]] := by
  refine forms_at_bind.mpr (Forms.ite (fun hpeek => .there ?_) fun _ => .missing (forms_pure _ rfl))
  refine Forms.discard (forms_kind (by decide) ?_)
  exact (forms_advance (eq_of_beq hpeek) (by decide)).seq fun _ _ =>
    (forms_expect (by decide)).seq fun _ _ => (forms_assignment h).seq fun _ _ =>
      forms_expect (by decide)

/-- A loop has the form of the kind that it turns out to have. -/
theorem completes_loopBody :
    (loopBody inner).Completes Rule c [perhaps [nodes [.label]]]
      [.whileExpr, .forExpr, .error] := by
  refine (forms_skip (by decide)).completes fun _ c => completes_bind_of_eq (nth_cursor 0) ?_
  split
  · refine (forms_advance ‹_› (by decide)).completes fun _ c => ?_
    refine (forms_condition h).completes fun _ c => forms_payload.completes fun _ c => ?_
    refine (forms_whileContinue h).completes fun _ c => (forms_assignment h).completes fun _ c => ?_
    refine (forms_elseBranch h).completes fun _ c => completes_pure (by decide) fun ms hms => ?_
    exact rule_of_regular (by decide) hms
  · refine (forms_advance ‹_› (by decide)).completes fun _ c => ?_
    refine (forms_list _ fun _ => forms_forInput h).completes fun _ c => ?_
    have hrest : ∀ c, (do
        discard (assignExpr inner)
        elseBranch inner
        return .forExpr : Parser Kind Kind).Completes Rule c
          [perhaps [nodes [.label]], perhaps [Form.token .inlineKw], Form.token .forKw,
            Form.inParens (nodes [.forInput]), any [Form.payload, fault]]
          [.whileExpr, .forExpr, .error] := fun c =>
      (forms_assignment h).completes fun _ c => (forms_elseBranch h).completes fun _ c =>
        completes_pure (by decide) fun ms hms => rule_of_regular (by decide) hms
    refine completes_bind_of_eq (nthAt_cursor 0 _) (Completes.ite (fun _ => ?_) fun _ => ?_)
    · exact (forms_payload.choose List.mem_cons_self).completes fun _ => hrest
    · exact ((forms_report rfl).choose (by simp)).completes fun _ => hrest
  · refine (forms_report rfl).completes fun _ c => ?_
    exact completes_pure (by decide) fun ms hms => rule_error_of_regular (by decide) hms

theorem forms_labeled (hpeek : c.peek = .identifier) :
    (labeled inner).Forms Rule c fun _ => [nodes [.block, .whileExpr, .forExpr, .error]] := by
  refine Completes.nodeOf ((forms_label hpeek).there_last.completes fun _ c => ?_)
  refine completes_bind_of_eq (nthAt_cursor 0 _) (Completes.ite (fun _ => ?_) fun _ => ?_)
  · refine (forms_blockBody h).completes fun _ c => ?_
    exact completes_pure (by decide) fun ms hms => rule_of_regular (by decide) hms
  · exact (completes_loopBody h).subset (by decide)

theorem leaves_curlySuffix : Leaves (curlySuffix inner) c operandKinds := by
  refine (h.type c).rework fun found c kind children hkind hnode => ?_
  have hsub : ∀ kind ∈ typeKinds, kind ∈ operandKinds := by decide
  cases found with
  | none => exact reworks_none hkind hnode
  | some type =>
      refine (reworks_bind_of_eq (nthAt_cursor 0 _)).mpr ?_
      split
      · have hmem : .initExpr ∈ operandKinds := by decide
        exact reworks_wrap some (by decide) rfl (fun _ => hmem) (forms_initList h).discard
          hkind hnode
      · exact reworks_pure _ (hsub kind hkind) hnode

omit h in
/-- A label in front of a block or a loop starts with an identifier. -/
theorem atLabeled_cursor :
    ∃ found, (atLabeled : Parser Kind Bool) c = ⟨found, c, []⟩ ∧
      (found = true → c.peek = .identifier) := by
  rw [atLabeled, at_, bind_of_eq (nthAt_cursor 0 _), bind_of_eq (nthAt_cursor 1 _)]
  split
  · rename_i hlabel
    have hname : c.peek = .identifier := by simp_all [Cursor.peek]
    rw [bind_of_eq (nth_cursor 2)]
    cases c.nth 2 <;> exact ⟨_, rfl, fun _ => hname⟩
  · exact ⟨false, rfl, by simp⟩

theorem leaves_primaryExpr : Leaves (primaryExpr inner) c operandKinds := by
  obtain ⟨labels, hlabels, hname⟩ := atLabeled_cursor (c := c)
  have hloop : Leaves (do return some (← nodeOf (loopBody inner))) c operandKinds :=
    leaves_some (((completes_loopBody h).weaken fun _ hms => hms.missing).nodeOf) (by decide)
  refine (forms_bind_of_eq hlabels).mpr (Forms.ite (fun hlabeled => ?_) fun _ => ?_)
  · exact leaves_some (forms_labeled h (hname hlabeled)) (by decide)
  refine forms_peek_bind.mpr ?_
  split
  · exact leaves_some forms_asmExpr (by decide)
  · exact leaves_some (forms_ifExpr h ‹_›) (by decide)
  · exact leaves_some (forms_breakExpr h ‹_›) (by decide)
  · exact leaves_some (forms_continueExpr h ‹_›) (by decide)
  · exact leaves_some (forms_returnExpr h ‹_›) (by decide)
  · exact leaves_some (forms_keywordExpr h (by decide) rfl ‹_› (by decide)) (by decide)
  · exact leaves_some (forms_keywordExpr h (by decide) rfl ‹_› (by decide)) (by decide)
  · exact leaves_some (forms_keywordExpr h (by decide) rfl ‹_› (by decide)) (by decide)
  · exact hloop
  · exact hloop
  · exact hloop
  · exact leaves_kind (by decide) (by decide) (.missing (forms_blockBody h))
  · exact leaves_curlySuffix h

theorem leaves_operandWith : Leaves (operandWith inner) c operandKinds := by
  have hprefix : c.peek ∈ [.bang, .minus, .tilde, .minusPercent, .amp, .tryKw, .awaitKw] →
      Leaves (do
        return some (← node .prefixExpr do
          advance
          discard inner.operand)) c operandKinds := fun hpeek =>
    leaves_kind (by decide) (by decide) <| (forms_advance_mem hpeek (by decide)).seq fun _ _ =>
      h.forms_operand
  refine forms_peek_bind.mpr ?_
  split
  · exact hprefix (by simp [*])
  · exact hprefix (by simp [*])
  · exact hprefix (by simp [*])
  · exact hprefix (by simp [*])
  · exact hprefix (by simp [*])
  · exact hprefix (by simp [*])
  · exact hprefix (by simp [*])
  · exact leaves_primaryExpr h

end Parts

/-! ## Operators between operands -/

section Operators

/-- Everything but operands with an operator between them binds most strongly, and has
no comparison down its left side. -/
theorem strength_of_ne
    {kind : Kind}
    (children : List (Shape Kind Kind))
    (hkind : kind ≠ .binaryExpr) :
    strength (.node kind children) = 8 ∧ compares (.node kind children) = false := by
  constructor
  · unfold strength
    split <;> simp_all
  · unfold compares
    split <;> simp_all

theorem mem_operatorKinds
    {kind : Kind}
    {precedence : Fin 8}
    (h : precedence? kind = some precedence) :
    kind ∈ operatorKinds := by
  cases kind <;> first | (cases h; done) | decide

theorem isFault_of_mem_chainFaults
    {chained : Bool}
    {m : Marked Kind}
    (hm : m ∈ chainFaults chained) :
    m.isFault = true := by
  cases chained with
  | false => simp [chainFaults] at hm
  | true =>
      rw [List.mem_singleton.mp hm]
      rfl

theorem reverse_chainFaults (chained : Bool) :
    (chainFaults chained).reverse = chainFaults chained := by
  cases chained <;> rfl

/-- What remains without the faults. -/
theorem Operation.plain_children (o : Operation) :
    o.children.filterMap Marked.plain? =
      o.left :: .leaf o.op :: (o.captures.filterMap Marked.plain? ++ [o.right]) := by
  have hnone : (chainFaults o.chained).filterMap Marked.plain? = [] :=
    List.filterMap_eq_nil_iff.mpr fun m hm =>
      Marked.plain?_of_isFault (isFault_of_mem_chainFaults hm)
  simp [Operation.children, Operation.left, Operation.right, hnone]

section Strength

variable {o : Operation} (hop : precedence? o.op = some o.precedence)
include hop

theorem Operation.strength_eq :
    strength (plainNode .binaryExpr o.children) = o.precedence.val := by
  rw [plainNode, plain_children]
  simp [strength, firstToken?, hop, Operation.left]

theorem Operation.compares_eq :
    compares (plainNode .binaryExpr o.children) =
      (o.precedence == comparison || compares o.left) := by
  rw [plainNode, plain_children, compares]
  simp [firstToken?, hop, Operation.left]

omit hop in
/-- An operation fails if its right operand is an error. -/
theorem Operation.fails_eq :
    fails (plainNode .binaryExpr o.children) = (o.rightKind == .error) := by
  rw [plainNode, plain_children, fails, List.getLast?_cons_cons, ← List.cons_append,
    List.getLast?_concat]
  rfl

end Strength

/-- Operands and operators down to `least` are one node, and no operator follows that
could be taken, unless the node stands for something malformed. -/
structure Climbed (least : Nat) (found : Option Kind) (next kind : Kind)
    (children : List (Marked Kind)) : Prop where
  everywhere : (Shape.node kind children : Marked Kind).Everywhere Rule
  kind_mem : kind ∈ slot exprKinds found
  strong : least ≤ strength (plainNode kind children)
  next_lt : found.isSome → ∀ precedence, precedence? next = some precedence →
    precedence.val < least

/-- Whether a parser makes one node, of operators that bind at least as strongly as `least`. -/
def ClimbsFrom (least : Nat) (p : NodeParser) : Prop :=
  ∀ (c : Cursor Kind) (others : List (Marked Kind)),
    p.Draws ⟨c, others⟩ fun found t => ∃ kind children,
      t.children = .node kind children :: others ∧
        Climbed least found t.cursor.peek kind children

/-- What holds while operators are taken: the flag knows of the comparisons, and the next
operator binds at most as strongly as the last one. -/
structure Climbing (least : Nat) (compared : Bool) (next kind : Kind)
    (children : List (Marked Kind)) : Prop where
  everywhere : (Shape.node kind children : Marked Kind).Everywhere Rule
  kind_mem : kind ∈ exprKinds
  strong : least ≤ strength (plainNode kind children)
  compared_eq : compared = compares (plainNode kind children)
  next_le : ∀ precedence, precedence? next = some precedence →
    fails (plainNode kind children) = false →
      precedence.val ≤ strength (plainNode kind children)

/-- An operand is where it starts. -/
theorem climbing_of_operand
    {least : Nat}
    {next kind : Kind}
    {children : List (Marked Kind)}
    (hleast : least ≤ 8)
    (hkind : kind ∈ operandKinds)
    (hnode : (Shape.node kind children : Marked Kind).Everywhere Rule) :
    Climbing least false next kind children := by
  have hne : kind ≠ .binaryExpr := fun heq => by simp [heq, operandKinds, typeKinds] at hkind
  obtain ⟨hstrength, hcompares⟩ := strength_of_ne (children.filterMap Marked.plain?) hne
  refine ⟨hnode, List.mem_cons_of_mem _ hkind, hstrength ▸ hleast, hcompares.symm, ?_⟩
  intro precedence _ _
  rw [plainNode, hstrength]
  exact precedence.isLt.le

/-- The parts of an operation match its pattern. -/
theorem Operation.regular_children
    {o : Operation}
    (hlhs : (Shape.node o.leftKind o.leftChildren : Marked Kind).Everywhere Rule)
    (hlhsKind : o.leftKind ∈ exprKinds)
    (hop : precedence? o.op = some o.precedence)
    (hcaptures : Regular Rule [Form.payload] o.captures)
    (hrhs : (Shape.node o.rightKind o.rightChildren : Marked Kind).Everywhere Rule)
    (hrhsKind : o.rightKind ∈ exprKinds) :
    Regular Rule (Form.of .binaryExpr) o.children := by
  have hleft : Regular Rule [Form.expr] [.node o.leftKind o.leftChildren] :=
    .oneOf (List.mem_map_of_mem hlhsKind) hlhs
  have hfaults : Regular Rule [perhaps [Pattern.chain]] (chainFaults o.chained) := by
    unfold chainFaults
    split
    · refine (Regular.oneOf (List.mem_singleton.mpr rfl) (Shape.everywhere_leaf _)).mono_head
        fun ms hms => ?_
      exact matches_perhaps_iff.mpr (.inr (matches_all_singleton_iff.mpr hms))
    · exact Regular.nil.missing
  have htoken : Regular Rule [tokens operatorKinds] [.leaf (.lexeme o.op)] :=
    .lexeme (mem_operatorKinds hop)
  have hright : Regular Rule [Form.expr] [.node o.rightKind o.rightChildren] :=
    .oneOf (List.mem_map_of_mem hrhsKind) hrhs
  exact hleft.append (hfaults.append (htoken.append (hcaptures.append hright)))

/-- An operator with its right operand is one step. -/
theorem Climbing.step
    {least : Nat}
    {compared : Bool}
    {next kind kind' : Kind}
    {children children' captures : List (Marked Kind)}
    {precedence : Fin 8}
    {found : Option Kind}
    {op : Kind}
    (hlhs : Climbing least compared op kind children)
    (hop : precedence? op = some precedence)
    (hleast : least ≤ precedence.val)
    (hcaptures : Regular Rule [Form.payload] captures)
    (hrhs : Climbed (precedence.val + 1) found next kind' children') :
    Climbing least (compared || precedence == comparison) next .binaryExpr
      (Operation.mk kind children (precedence == comparison && compared) op precedence captures
        kind' children').children := by
  generalize ho : Operation.mk kind children (precedence == comparison && compared) op precedence
    captures kind' children' = o
  have hopEq : precedence? o.op = some o.precedence := by rw [← ho]; exact hop
  have hregular : Regular Rule (Form.of .binaryExpr) o.children := by
    subst ho
    exact Operation.regular_children hlhs.everywhere hlhs.kind_mem hop hcaptures hrhs.everywhere
      (mem_of_mem_slot (by decide) hrhs.kind_mem)
  have hclimbs : o.Climbs := by
    subst ho
    refine ⟨hop, hrhs.strong, hlhs.next_le precedence hop, by rw [hlhs.compared_eq]; rfl, ?_⟩
    intro m hm
    have hsign := sign_mem_signs (matches_all_singleton_iff.mp hcaptures.fits) m hm
    simpa [Form.payload, perhaps, all, nodes, oneOf, signs] using hsign
  have hrule : Rule .binaryExpr o.children :=
    ⟨fun herror => absurd herror (by decide), fun hasm => absurd hasm (by decide),
      fun _ _ => hregular.fits, fun _ => ⟨o, rfl, hclimbs⟩, fun hne => absurd rfl hne⟩
  have heverywhere := Shape.everywhere_node_iff.mpr ⟨hrule, hregular.everywhere⟩
  refine ⟨heverywhere, List.mem_cons_self, ?_, ?_, ?_⟩
  · rw [Operation.strength_eq hopEq, ← ho]
    exact hleast
  · rw [Operation.compares_eq hopEq, hlhs.compared_eq, Bool.or_comm, ← ho]
    rfl
  · intro precedence' hnext hfails
    rw [Operation.strength_eq hopEq]
    rw [Operation.fails_eq] at hfails
    subst ho
    have hfound : found.isSome := by
      cases found with
      | none => simp [List.mem_singleton.mp hrhs.kind_mem] at hfails
      | some _ => rfl
    exact Nat.le_of_lt_succ (hrhs.next_lt hfound precedence' hnext)

variable {inner : Level}

section Turn

variable
  {right : NodeParser}
  {least : Nat}
  {compared : Bool}
  {kind : Kind}
  {children others : List (Marked Kind)}
  {precedence : Fin 8}
  {s : Desk Kind}
  (hop : precedence? s.cursor.peek = some precedence)
  (hright : ClimbsFrom (precedence.val + 1) right)

include hop hright

/-- An operator and its right operand, from the left one on. -/
theorem draws_operator :
    (do
      let catches ← at_ .catchKw
      advance
      if catches then payload
      discard right : Parser Kind Unit).Draws s fun _ t =>
        ∃ captures kind children found,
          t.children = .node kind children :: (captures.reverse ++
            .leaf (.lexeme s.cursor.peek) :: s.children) ∧
          Regular Rule [Form.payload] captures ∧
          Climbed (precedence.val + 1) found t.cursor.peek kind children := by
  have hne : s.cursor.peek ≠ .eof := fun heof => by simp [heof, precedence?] at hop
  refine (draws_bind_of_eq (nthAt_cursor 0 _)).mpr ?_
  refine Draws.bind (P := fun _ t => t.children = .leaf (.lexeme s.cursor.peek) :: s.children)
    (draws_advance_peek rfl hne rfl) fun _ t ht => ?_
  have hrest : ∀ captures u, Regular Rule [Form.payload] captures →
      u.children = captures.reverse ++ t.children →
      (discard right : Parser Kind Unit).Draws u fun _ v =>
        ∃ captures kind children found,
          v.children = .node kind children :: (captures.reverse ++
            .leaf (.lexeme s.cursor.peek) :: s.children) ∧
          Regular Rule [Form.payload] captures ∧
          Climbed (precedence.val + 1) found v.cursor.peek kind children := by
    intro captures u hcaptures hu
    refine draws_discard ((hright u.cursor u.children).mono ?_)
    rintro found v ⟨kind, children, hchildren, hclimbed⟩
    exact ⟨captures, kind, children, found, by rw [hchildren, hu, ht], hcaptures, hclimbed⟩
  split
  · refine (@forms_payload t.cursor t.children).bind ?_
    rintro _ u ⟨captures, hu, hcaptures⟩
    exact hrest captures u hcaptures hu
  · exact hrest [] t Regular.nil.missing rfl

variable
  (hlhs : Climbing least compared s.cursor.peek kind children)
  (hleast : least ≤ precedence.val)

include hlhs hleast

/-- An operator with its right operand is put around the left one, together with the
fault that was reported before. -/
theorem draws_wrap_operator
    (hs : s.children = chainFaults (precedence == comparison && compared) ++
      .node kind children :: others) :
    (wrap .binaryExpr do
      let catches ← at_ .catchKw
      advance
      if catches then payload
      discard right : Parser Kind Kind).Draws s fun _ t =>
        ∃ children, t.children = .node .binaryExpr children :: others ∧
          Climbing least (compared || precedence == comparison) t.cursor.peek .binaryExpr
            children := by
  refine draws_wrapOf hs (fun m hm => isFault_of_mem_chainFaults hm) ?_
  refine Draws.bind (draws_operator hop hright) ?_
  rintro _ t ⟨captures, kind', children', found, ht, hcaptures, hrhs⟩
  refine draws_pure ⟨_, rfl, ?_⟩
  have hreverse : t.children.reverse = (Operation.mk kind children
      (precedence == comparison && compared) s.cursor.peek precedence captures kind'
      children').children := by
    simp [ht, Operation.children, reverse_chainFaults]
  rw [hreverse]
  exact hlhs.step hop hleast hcaptures hrhs

/-- A turn with an operator that binds strongly enough reports the fault, if there is one,
and goes on. -/
theorem draws_operator_turn
    (hs : s.children = .node kind children :: others) :
    (do
      let compares := precedence == comparison
      if compares && compared then report .chainedComparison
      let kind ← wrap .binaryExpr do
        let catches ← at_ .catchKw
        advance
        if catches then payload
        discard right
      return (true, kind, compared || compares) : Parser Kind (Bool × Kind × Bool)).Draws s
        fun v t => v.1 = true ∧ ∃ kind children, t.children = .node kind children :: others ∧
          Climbing least v.2.2 t.cursor.peek kind children := by
  have hwrap : ∀ u : Desk Kind, u.cursor = s.cursor →
      u.children = chainFaults (precedence == comparison && compared) ++
        .node kind children :: others →
      (do
        let kind ← wrap .binaryExpr do
          let catches ← at_ .catchKw
          advance
          if catches then payload
          discard right
        return (true, kind, compared || precedence == comparison) :
        Parser Kind (Bool × Kind × Bool)).Draws u fun v t =>
          v.1 = true ∧ ∃ kind children, t.children = .node kind children :: others ∧
            Climbing least v.2.2 t.cursor.peek kind children := by
    intro u hcursor hu
    rw [← hcursor] at hlhs hop
    refine (draws_wrap_operator hop hright hlhs hleast hu).bind ?_
    rintro _ t ⟨children, ht, hstep⟩
    exact draws_pure ⟨rfl, _, children, ht, hstep⟩
  dsimp only
  split
  · rename_i hchained
    refine Draws.bind (P := fun _ v => v = ⟨s.cursor,
      .leaf (.fault .chainedComparison) :: s.children⟩) (draws_report rfl) ?_
    rintro _ _ rfl
    refine hwrap _ rfl ?_
    rw [hchained, hs]
    rfl
  · rename_i hchained
    refine hwrap s rfl ?_
    rw [Bool.eq_false_iff.mpr hchained, hs]
    rfl

end Turn

/-- Operands and operators are one node, in which the operators climb. -/
theorem climbsFrom_binaryExpr
    (h : inner.Regular)
    (least : Nat)
    (hleast : least ≤ 8) :
    ClimbsFrom least (binaryExpr inner least) := by
  intro c others
  rw [binaryExpr]
  refine (h.operand c others).bind ?_
  rintro found t ⟨ms, hms, hregular⟩
  obtain ⟨kind, children, rfl, hkind, hnode⟩ := hregular.exists_node
  have hchildren : t.children = .node kind children :: others := hms
  cases found with
  | none =>
      refine draws_pure ⟨kind, children, hchildren, hnode, hkind, ?_, by simp⟩
      have hne : kind ≠ .binaryExpr := by simp [List.mem_singleton.mp hkind]
      exact (strength_of_ne _ hne).1.symm ▸ hleast
  | some first =>
      refine Draws.bind (P := fun _ u => ∃ kind children,
        u.children = .node kind children :: others ∧
          Climbed least (some first) u.cursor.peek kind children) ?_ ?_
      case refine_2 =>
        rintro _ u ⟨kind, children, hchildren, hclimbed⟩
        exact draws_pure ⟨kind, children, hchildren, hclimbed.everywhere, hclimbed.kind_mem,
          hclimbed.strong, fun _ => hclimbed.next_lt rfl⟩
      refine Draws.iterate (I := fun v u => ∃ kind children,
        u.children = .node kind children :: others ∧
          Climbing least v.2 u.cursor.peek kind children) ?_
        ⟨kind, children, hchildren, climbing_of_operand hleast hkind hnode⟩
      rintro ⟨_, compared⟩ u ⟨kind, children, hchildren, hclimbing⟩
      have hlast : (∀ precedence, precedence? u.cursor.peek = some precedence →
          precedence.val < least) → ∃ kind children,
            u.children = .node kind children :: others ∧
              Climbed least (some first) u.cursor.peek kind children := fun hnext =>
        ⟨kind, children, hchildren, hclimbing.everywhere, hclimbing.kind_mem, hclimbing.strong,
          fun _ => hnext⟩
      refine (draws_bind_of_eq (nth_cursor 0)).mpr ?_
      split
      · rename_i hnone
        exact draws_pure ⟨by simp, fun _ => hlast fun precedence hsome => by
          simp [Cursor.peek, hnone] at hsome⟩
      rename_i precedence hop
      split
      · rename_i hprecedence
        have hright := climbsFrom_binaryExpr h (precedence.val + 1) precedence.isLt
        refine (draws_operator_turn hop hright hclimbing hprecedence hchildren).mono ?_
        rintro ⟨_, kind', compared'⟩ t ⟨rfl, hstep⟩
        exact ⟨fun _ => hstep, by simp⟩
      · rename_i hprecedence
        refine draws_pure ⟨by simp, fun _ => hlast fun precedence' hsome => ?_⟩
        have heq : precedence' = precedence := Option.some.inj (hsome.symm.trans hop)
        omega
termination_by 8 - least
decreasing_by all_goals omega

/-- All levels are regular. -/
theorem regular_level (depth : Nat) : (level depth).Regular := by
  induction depth with
  | zero =>
      have hfail : ∀ c kinds, Leaves (do tooDeep; return none) c kinds := fun c kinds =>
        leaves_none (forms_tooDeep fun _ => rule_error)
      exact ⟨fun c => hfail c _, fun c => hfail c _, fun c => hfail c _⟩
  | succ depth ih =>
      refine ⟨fun c others => ?_, fun c => leaves_operandWith ih, fun c => leaves_typeWith ih⟩
      refine (climbsFrom_binaryExpr ih 1 (by decide) c others).mono ?_
      rintro found t ⟨kind, children, ht, hclimbed⟩
      refine ⟨[.node kind children], ht, ?_⟩
      exact .oneOf (List.mem_map_of_mem hclimbed.kind_mem) hclimbed.everywhere

end Operators

/-! ## Files -/

/-- Every file has a tree in which all nodes obey the rule, and its errors are the faults
of that tree. -/
theorem exists_marked_sourceFile (text : Text) :
    ∃ p m,
      parse? text = some p ∧
      p.root.Keeps .sourceFile text (lex text) ∧
      (m : Marked Kind).Everywhere Rule ∧
      m.plain? = some p.root.outline ∧
      p.diagnostics.map Diagnostic.message = m.faults.map Fault.message ∧
      ∀ d ∈ p.diagnostics, d.severity = .error := by
  have hdraws : ∀ c, (containerMembers (level maxDepth) false).Draws ⟨c, []⟩ fun _ t =>
      Regular Rule [Form.members] t.children.reverse := by
    intro c
    have hforms := forms_containerMembers (c := c) (regular_level maxDepth) false
    refine (hforms []).mono fun _ t ⟨ms, hms, hregular⟩ => ?_
    rwa [hms, List.append_nil, List.reverse_reverse]
  obtain ⟨p, ms, hp, hkeeps, hms, houtline, hfaults, hseverity⟩ :=
    @exists_marked Kind _ _ _ read _ .sourceFile (fun _ => Regular Rule [Form.members]) (by decide)
      (ends_containerMembers (sound_level maxDepth)) hdraws text
  have heof : Regular Rule [Form.token .eof] [.leaf (.lexeme .eof)] :=
    .lexeme (List.mem_singleton.mpr rfl)
  have hfile := hms.append heof
  refine ⟨p, .node .sourceFile (ms ++ [Shape.leaf (Mark.lexeme Kind.eof)]), hp, hkeeps,
    ?_, ?_, ?_, hseverity⟩
  · exact Shape.everywhere_node_iff.mpr ⟨rule_of_regular (by decide) hfile, hfile.everywhere⟩
  · rw [houtline, Marked.plain?_node, List.filterMap_append]
    rfl
  · rw [hfaults, Marked.faults_node, List.flatMap_append]
    simp

end Zig
end ZigCst
