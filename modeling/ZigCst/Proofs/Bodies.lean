import ZigCst.Proofs.Statements
import ZigCst.Proofs.ZigExact

/-!
# Statements of a function body one behind the other

Texts are put into the body of a function.  If nothing is reported of a file that is made
in this way and the file is still one function, then the text consists of statements that
fill the body, and such texts can be put one behind the other.

**Definitions.**
* `inFunction`: a text as the body of a function.
* `Encloses`: a block was completed behind its statements, or else its brace reported.
* `Fills`: lexemes are statements in front of a closing brace.
* `Joins`: statements may follow others.

**Results.**
* `ends_members_function`: a function at the top of a file.
* `Fills.append`: statements fill a block behind others.
* `exists_fills`, `Fills.exists_parse_inFunction`: files that are one function are bodies that are
  filled.
* `exists_parse_statements`: statements compose.
-/

namespace ZigCst
namespace Zig

open ZigCst.Parser

/-! ## A function without parameters -/

/-- The lexemes of `fn f() void`. -/
def signature : List (Lexeme Kind) :=
  [⟨.fnKw, "fn".toList⟩, ⟨.identifier, ['f']⟩, ⟨.leftParen, ['(']⟩, ⟨.rightParen, [')']⟩,
    ⟨.identifier, "void".toList⟩]

/-- The outline of a signature. -/
def signatureOutline : List (Shape Kind Kind) :=
  [.leaf .fnKw, .node .ident [.leaf .identifier],
    .node .paramList [.leaf .leftParen, .leaf .rightParen], .node .ident [.leaf .identifier]]

section Function

variable {s : Site Kind}

theorem ends_paramList_empty
    {inner : Level}
    {rest : List Kind}
    (h : s.kinds = [Kind.leftParen, Kind.rightParen] ++ rest) :
    (paramList inner).Ends s fun _ t =>
      s.Adds [.leftParen, .rightParen]
        [.node .paramList [.leaf .leftParen, .leaf .rightParen]] t := by
  have hopened : s.opened.kinds = [Kind.leftParen] ++ ([] ++ ([Kind.rightParen] ++ rest)) := h
  have hitems : ∀ t : Site Kind, t.kinds = [] ++ ([Kind.rightParen] ++ rest) →
      (repeatWhile (itemAndComma .rightParen .parameter (param inner))).Ends t fun _ u =>
        t.Adds [] [] u := by
    intro t ht
    refine (ends_items_stop (Site.peek_eq ht)).mono ?_
    rintro _ u rfl
    exact .refl u
  exact ends_node_adds (by decide) (ends_delimited_adds hopened hitems)

theorem ends_fnProto_signature
    {depth : Nat}
    {rest : List Kind}
    (h : s.kinds = signature.map Lexeme.kind ++ ([Kind.leftBrace] ++ rest)) :
    (fnProto (level (depth + 1))).Ends s fun _ t =>
      s.Adds (signature.map Lexeme.kind) signatureOutline t := by
  have hfn : s.kinds = [Kind.fnKw] ++ ([Kind.identifier] ++ ([Kind.leftParen, Kind.rightParen] ++
      ([Kind.identifier] ++ ([Kind.leftBrace] ++ rest)))) := h
  rw [fnProto, routine_eq, ends_at_bind, Site.peek_eq h]
  refine Ends.bind (P := fun _ t => t = s) (ends_ensure rfl rfl) ?_
  rintro _ _ rfl
  refine (ends_advance_adds hfn).bind fun _ t ht => ?_
  have hname := ht.kinds_eq hfn
  simp only [ends_at_bind, Site.peek_eq hname, beq_self_eq_true, if_true]
  refine (ends_name_adds _ hname).bind fun _ u hu => ?_
  have hparams := hu.kinds_eq hname
  simp only [ends_at_bind, Site.peek_eq hparams, beq_self_eq_true, if_true]
  refine (ends_paramList_empty hparams).bind fun _ v hv => ?_
  have htype := hv.kinds_eq hparams
  have hpeek : v.peek = .identifier := Site.peek_eq htype
  refine (ends_clauses_missing (by rw [hpeek]; decide)).bind ?_
  rintro _ _ rfl
  refine (ends_skip_missing (by rw [hpeek]; decide)).bind ?_
  rintro _ w rfl
  simp only [ends_at_bind, hpeek]
  have hvoid : (primaryType (level depth)).Ends w fun found x =>
      found = some .ident ∧ w.Adds [.identifier] [.node .ident [.leaf .identifier]] x ∧
        goesOnType x.peek = false := by
    refine (ends_primaryType_single rfl htype).mono fun _ x hx => ⟨hx.1, hx.2, ?_⟩
    rw [Site.peek_eq (hx.2.kinds_eq htype)]
    rfl
  refine ends_discard ((ends_type_of_primary ?_ hvoid).mono fun _ x hx => ?_)
  · rw [hpeek]
    decide
  · exact ht.trans (hu.trans (hv.trans hx.2.1))

/-- The lexeme that opens a block. -/
def opening : Lexeme Kind := ⟨.leftBrace, ['\x7b']⟩

/-- The lexeme that closes a block. -/
def closing : Lexeme Kind := ⟨.rightBrace, ['\x7d']⟩

/-- The statements of a block in a function. -/
def statements : Parser Kind Unit := repeatWhile (statementInBlock (level maxDepth))

theorem steady_statements : statements.Steady IsStop :=
  steady_repeatWhile (steady_statementInBlock (steady_level maxDepth))

/-- Whether the statements from a cursor are some children, found with so many reports. -/
def Yields (c : Cursor Kind) (children : List (Shape Kind Kind)) (reports : Nat) : Prop :=
  (Site.mk c [] [] 0).Leads (statements c).trace ⟨(statements c).cursor, [], children, reports⟩

theorem exists_yields (c : Cursor Kind) : ∃ children reports, Yields c children reports := by
  obtain ⟨⟨cursor, behind, children, reports⟩, hcursor, hleads, hgrows⟩ :=
    sound_repeatWhile (turns_statementInBlock (sound_level maxDepth)) ⟨c, [], [], 0⟩
  obtain rfl : cursor = (statements c).cursor := hcursor
  obtain rfl : behind = [] := hgrows.behind
  exact ⟨children, reports, hleads⟩

/-- The outline of a block of statements, which are given the last first. -/
def blockOutline (children : List (Shape Kind Kind)) : Shape Kind Kind :=
  .node .block ([.leaf .leftBrace] ++ (children.reverse ++ [.leaf .rightBrace]))

/-- Whether a block was completed behind its statements, or else its brace reported. -/
structure Encloses
    (ls : List (Lexeme Kind))
    (t : Site Kind)
    (whole : Shape Kind Kind → List (Shape Kind Kind)) : Prop where
  exists_yields : ∃ c children reports,
    c.rest = ls ∧
    Yields c children reports ∧
    (kindAt 0 (statements c).cursor.rest = .rightBrace →
      t = ⟨(statements c).cursor.next, [], whole (blockOutline children), reports⟩) ∧
    (kindAt 0 (statements c).cursor.rest ≠ .rightBrace → 0 < t.reports)

theorem ends_block_encloses
    {ls : List (Lexeme Kind)}
    (h : s.cursor.rest = opening :: ls)
    (hbehind : s.behind = [])
    (hreports : s.reports = 0) :
    (block (level maxDepth)).Ends s fun _ t => Encloses ls t fun shape => shape :: s.children := by
  obtain ⟨cursor, _, above, _⟩ := s
  cases hbehind
  cases hreports
  have hkinds : (Site.mk cursor [] above 0).kinds = .leftBrace :: ls.map Lexeme.kind := by
    rw [Site.kinds, Cursor.kinds, h]
    rfl
  have hadvanced : (Site.mk cursor [] above 0).opened.advanced =
      ⟨cursor.next, [], [.leaf .leftBrace], 0⟩ := by
    simp_all [Site.advanced, Site.opened, opening]
  rw [block, routine_eq, ends_at_bind, Site.peek_eq hkinds]
  refine ends_discard (ends_node (by decide) ?_)
  refine Ends.bind (P := fun _ t => t = ⟨cursor.next, [], [.leaf .leftBrace], 0⟩)
    (ends_expect (fun _ => hadvanced) fun hne => absurd (Site.peek_eq hkinds) hne) ?_
  rintro _ _ rfl
  -- The statements are found above the opening brace.
  obtain ⟨children, reports, hyields⟩ := exists_yields cursor.next
  have hleads := hyields.over [.leaf .leftBrace]
  refine Ends.bind (P := fun _ t => t = ⟨(statements cursor.next).cursor, [],
    children ++ [.leaf .leftBrace], reports⟩) ⟨_, rfl, hleads, rfl⟩ ?_
  rintro _ _ rfl
  have hrest : cursor.next.rest = ls := by
    have htakes := Cursor.Takes.next h
    exact (List.cons.inj (h.symm.trans htakes.rest)).2.symm
  refine ends_expect (fun hpeek => ?_) fun hne => ?_
  · rw [peek_eq_kindAt] at hpeek
    refine ⟨_, children, reports, hrest, hyields, fun _ => ?_, fun hne => absurd hpeek hne⟩
    rw [advanced_of_kindAt hpeek (by decide)]
    simp [Site.closed, blockOutline]
  · rw [peek_eq_kindAt] at hne
    exact ⟨_, children, reports, hrest, hyields, fun hpeek => absurd hpeek hne,
      fun _ => Nat.succ_pos _⟩

/-- The outline of a function with a body of statements. -/
def functionOutline (body : Shape Kind Kind) : Shape Kind Kind :=
  .node .fnDecl (signatureOutline ++ [body])

/-- A function without parameters is its signature and its block. -/
theorem ends_function_encloses
    {ls : List (Lexeme Kind)}
    (h : s.cursor.rest = signature ++ opening :: ls)
    (hbehind : s.behind = [])
    (hreports : s.reports = 0) :
    (containerMember (level maxDepth)).Ends s fun _ t =>
      t.left < s.left ∧ Encloses ls t fun shape => functionOutline shape :: s.children := by
  have hkinds : s.opened.kinds =
      signature.map Lexeme.kind ++ ([Kind.leftBrace] ++ ls.map Lexeme.kind) := by
    change s.cursor.rest.map Lexeme.kind = _
    rw [h, List.map_append]
    rfl
  have hpeek : s.opened.peek = .fnKw := Site.peek_eq hkinds
  have hfirst : s.peek = .fnKw := hpeek
  rw [containerMember, routine_eq, ends_peek_bind, hfirst]
  refine ends_discard (ends_nodeOf ?_)
  rw [declBody]
  refine (ends_skip_missing (by rw [hpeek]; decide)).bind ?_
  rintro _ _ rfl
  refine (ends_eat_missing (by rw [hpeek]; decide)).bind ?_
  rintro _ _ ⟨rfl, rfl⟩
  refine (ends_linkage_missing (by rw [hpeek]; decide)).bind ?_
  rintro _ _ rfl
  simp only [ends_at_bind, hpeek, beq_self_eq_true, if_true]
  have hforward := (steadyFrom_fnProto (steady_level maxDepth)).steady.forward
  refine ((ends_fnProto_signature hkinds).takes hforward).bind ?_
  rintro _ t ⟨ht, taken, htaken⟩
  have hrest : t.cursor.rest = opening :: ls := ht.rest_eq htaken h rfl
  have hbrace : t.kinds = .leftBrace :: ls.map Lexeme.kind := ht.kinds_eq hkinds
  simp only [ends_at_bind, Site.peek_eq hbrace, beq_self_eq_true, if_true]
  have hblock := ends_block_encloses hrest (ht.behind.trans hbehind) (ht.reports.trans hreports)
  refine (hblock.and (sound_block (sound_level maxDepth) t)).bind ?_
  rintro _ u ⟨⟨c, children, reports, hc, hyields, hclosed, hopen⟩, hgrows⟩
  have hless : t.left < s.left := ht.left_lt (by decide)
  refine ends_pure ⟨by decide, Nat.lt_of_le_of_lt hgrows.left hless, c, children, reports, hc,
    hyields, fun hend => ?_, hopen⟩
  rw [hclosed hend, Site.closed, ht.children]
  simp [Site.opened, functionOutline]

/-- A turn over a member adds a node. -/
theorem ends_memberInContainer_node
    (hkinds : s.kinds ≠ []) :
    (memberInContainer (level maxDepth) false).Ends s fun again t =>
      again = true ∧ t.left < s.left ∧
        ∃ kind children, .node kind children :: s.children <:+ t.children := by
  have hplants := plants_containerMember (sound_level maxDepth)
  have hend : s.kinds.isEmpty = false := by simpa using hkinds
  rw [memberInContainer, ends_atEnd_bind, ends_at_bind, hend]
  simp only [Bool.false_and, Bool.or_false, Bool.false_eq_true, if_false]
  have hnode : (do
      unless ← moves (containerMember (level maxDepth)) do
        bump .expectedDeclaration
      return true : Parser Kind Bool).Ends s fun _ t =>
        ∃ kind children, .node kind children :: s.children <:+ t.children := by
    refine Ends.bind (P := fun _ t => s.Plants t) (ends_moves (hplants s)) fun moved t ht => ?_
    obtain ⟨kind, children, hchildren⟩ := ht.children
    have hfirst : .node kind children :: s.children <:+ t.children := hchildren ▸ List.suffix_rfl
    cases moved with
    | true => exact ends_pure ⟨kind, children, hfirst⟩
    | false =>
        refine (plants_bump _ t).bind fun _ u hu => ends_pure ⟨kind, children, ?_⟩
        exact hfirst.trans hu.grows.children
  refine Ends.mono (Ends.and (ends_moves_or_bump hplants.sound (Site.left_pos_iff.mpr hkinds))
    hnode) fun _ t ht => ?_
  exact ⟨ht.1.1, ht.1.2.2, ht.2⟩

/-- Where something is left, members add a node. -/
theorem ends_members_node (s : Site Kind) :
    members.Ends s fun _ t =>
      s.Grows t ∧ t.kinds = [] ∧ (s.kinds = [] → t = s) ∧
        (s.kinds ≠ [] → ∃ kind children, .node kind children :: s.children <:+ t.children) := by
  by_cases hkinds : s.kinds = []
  · refine ends_iterate (Ends.bind (P := fun again t => again = false ∧ t = s) ?_ ?_)
    · rw [memberInContainer, ends_atEnd_bind, ends_at_bind, hkinds]
      exact ends_pure ⟨rfl, rfl⟩
    · rintro _ t ⟨rfl, rfl⟩
      exact ends_pure ⟨by simp, fun _ => ⟨.refl t, hkinds, fun _ => rfl, fun h => absurd hkinds h⟩⟩
  · have hmembers := ends_containerMembers (sound_level maxDepth) s
    refine (hmembers.and (?_ : members.Ends s fun _ t =>
      ∃ kind children, .node kind children :: s.children <:+ t.children)).mono fun _ t ht =>
        ⟨ht.1.1, ht.1.2, fun h => absurd h hkinds, fun _ => ht.2⟩
    refine ends_iterate ((ends_memberInContainer_node hkinds).bind ?_)
    rintro _ t ⟨rfl, hleft, kind, children, hnode⟩
    refine ends_pure ⟨fun _ => ⟨hleft, ?_⟩, by simp⟩
    refine (ends_containerMembers (sound_level maxDepth) t).mono fun _ u hu => ?_
    exact ⟨kind, children, hnode.trans hu.1.children⟩

/-- A function without parameters at the top of a file, and what follows it. -/
theorem ends_members_function
    {c : Cursor Kind}
    {ls : List (Lexeme Kind)}
    (h : c.rest = signature ++ opening :: ls) :
    members.Ends ⟨c, [], [], 0⟩ fun _ u => ∃ t : Site Kind,
      Encloses ls t (fun shape => [functionOutline shape]) ∧
      t.Grows u ∧ u.kinds = [] ∧ (t.kinds = [] → u = t) ∧
      (t.kinds ≠ [] → ∃ kind children, .node kind children :: t.children <:+ u.children) := by
  have hkinds : (Site.mk c [] [] 0).kinds.isEmpty = false := by
    simp [Site.kinds, Cursor.kinds, h]
  have hmoves : (moves (containerMember (level maxDepth))).Ends ⟨c, [], [], 0⟩ fun moved t =>
      moved = true ∧ t.left < c.left ∧ Encloses ls t fun shape => [functionOutline shape] :=
    ends_moves ((ends_function_encloses h rfl rfl).mono fun _ t ht => ⟨decide_eq_true ht.1, ht⟩)
  have hturn : (memberInContainer (level maxDepth) false).Ends ⟨c, [], [], 0⟩ fun again t =>
      again = true ∧ t.left < c.left ∧ Encloses ls t fun shape => [functionOutline shape] := by
    rw [memberInContainer, ends_atEnd_bind, ends_at_bind, hkinds]
    refine hmoves.bind ?_
    rintro _ t ⟨rfl, ht⟩
    exact ends_pure ⟨rfl, ht⟩
  refine ends_iterate (hturn.bind ?_)
  rintro _ t ⟨rfl, hleft, hencloses⟩
  refine ends_pure ⟨fun _ => ⟨hleft, ?_⟩, by simp⟩
  exact (ends_members_node t).mono fun _ u hu => ⟨t, hencloses, hu⟩

end Function

/-! ## Bodies that are filled by statements -/

/-- Whether lexemes are statements, found without a report, in front of a closing
brace. -/
def Fills (ls : List (Lexeme Kind)) (children : List (Shape Kind Kind)) : Prop :=
  ∀ c : Cursor Kind, c.rest = ls ++ [closing] →
    c.Takes ls (statements c).cursor ∧ Yields c children 0

/-- What fills a block in one place fills it in all. -/
theorem fills_of_yields
    {c : Cursor Kind}
    {ls : List (Lexeme Kind)}
    {children : List (Shape Kind Kind)}
    (hc : c.rest = ls ++ [closing])
    (htakes : c.Takes ls (statements c).cursor)
    (hyields : Yields c children 0) :
    Fills ls children := by
  intro d hd
  have hrest : (statements c).cursor.rest = [closing] :=
    List.append_cancel_left (htakes.rest.symm.trans hc)
  have hstep : statements.InStep c d ls :=
    steady_statements.inStep htakes hd (.inl hrest)
  refine ⟨hstep.takes, ?_⟩
  rw [Yields, hstep.trace]
  exact hyields.exchange htakes hstep.takes []

/-- The statements in front of a closing brace are made in turns that close. -/
theorem Fills.exists_rounds
    {ls : List (Lexeme Kind)}
    {children : List (Shape Kind Kind)}
    (h : Fills ls children) :
    let c := Cursor.ofList (ls ++ [closing])
    Rounds (statementInBlock (level maxDepth))
      ((statementInBlock (level maxDepth)).ClosesAt IsStop Fits) c (statements c).trace
      (statements c).cursor := by
  intro c
  obtain ⟨-, hyields⟩ := h c rfl
  have hturns : ∀ c, (statementInBlock (level maxDepth) c).value = true →
      (statementInBlock (level maxDepth) c).cursor.left < c.left := by
    intro c hvalue
    obtain ⟨t, hcursor, -, -, hleft⟩ :=
      turns_statementInBlock (sound_level maxDepth) ⟨c, [], [], 0⟩
    exact hcursor ▸ hleft hvalue
  obtain ⟨trace, c', hrounds, hlast⟩ := Parser.exists_rounds hturns c
  obtain ⟨-, hrun⟩ := statementInBlock_last hlast
  have hall : statements c = ⟨(), c', trace⟩ := by
    have hall := hrounds.repeatWhile_eq
    rw [repeatWhile_last hlast, hrun] at hall
    rwa [List.append_nil, List.append_nil] at hall
  rw [Yields, hall] at hyields
  have hquiet : Trace.reports trace = 0 := by
    have hreports : 0 = 0 + Trace.reports trace := hyields.reports
    omega
  rw [hall]
  exact closing_rounds_of_quiet (steady_level maxDepth) (presses_level maxDepth) hrounds hquiet

/-- Statements end with a stop. -/
theorem Fills.stops
    {ls : List (Lexeme Kind)}
    {children : List (Shape Kind Kind)}
    (h : Fills ls children)
    (l : Lexeme Kind)
    (hl : l ∈ ls.getLast?) :
    IsStop l.kind := by
  obtain ⟨htakes, -⟩ := h (.ofList (ls ++ [closing])) rfl
  have hsteady := steady_statementInBlock (steady_level maxDepth)
  rcases h.exists_rounds.stops hsteady htakes with rfl | ⟨z, hz, hstop⟩
  · simp at hl
  · obtain rfl := Option.some.inj (hl.symm.trans hz)
    exact hstop

/-- Whether statements may follow others: those end with a semicolon, or these do not go
on with an expression. -/
def Joins (front behind : List (Lexeme Kind)) : Prop :=
  (∀ l ∈ front.getLast?, l.kind = .semicolon) ∨
    continues (kindAt 0 behind) (kindAt 1 behind) = false

theorem inert_concat_closing
    {ls : List (Lexeme Kind)}
    (h : continues (kindAt 0 ls) (kindAt 1 ls) = false) :
    Inert (ls ++ [closing]) := by
  have hend : ∀ kind, continues kind .eof = continues kind .rightBrace := by
    intro kind
    unfold continues
    congr 1
  refine ⟨by simp, ?_⟩
  rcases ls with _ | ⟨first, _ | ⟨second, rest⟩⟩
  · rfl
  · exact (hend first.kind).symm.trans h
  · exact h

/-- Statements fill a block behind others. -/
theorem Fills.append
    {front behind : List (Lexeme Kind)}
    {children children' : List (Shape Kind Kind)}
    (h : Fills front children)
    (h' : Fills behind children')
    (hjoins : Joins front behind) :
    Fills (front ++ behind) (children' ++ children) := by
  have hsteady := steady_statementInBlock (steady_level maxDepth)
  intro c hc
  rw [List.append_assoc] at hc
  obtain ⟨htakes, hyields⟩ := h (.ofList (front ++ [closing])) rfl
  have hrest : (statements (.ofList (front ++ [closing]))).cursor.rest = [closing] :=
    (List.append_cancel_left htakes.rest).symm
  have hfits : ∀ z ∈ front.getLast?,
      Fits z.kind (statements (.ofList (front ++ [closing]))).cursor.rest (behind ++ [closing]) := by
    intro z hz
    rw [hrest]
    rcases hjoins with hsemicolon | hinert
    · exact .inl (hsemicolon z hz)
    · exact .inr ⟨⟨List.cons_ne_nil _ _, rfl⟩, inert_concat_closing hinert⟩
  obtain ⟨d, hrounds, hd⟩ := h.exists_rounds.transfer hsteady htakes hfits hc
  have hdrest : d.rest = behind ++ [closing] := List.append_cancel_left (hd.rest.symm.trans hc)
  obtain ⟨htakes', hyields'⟩ := h' d hdrest
  have hall : statements c = ⟨(), (statements d).cursor,
      (statements (.ofList (front ++ [closing]))).trace ++ (statements d).trace⟩ :=
    hrounds.repeatWhile_eq
  rw [Yields, hall]
  refine ⟨hd.trans htakes', ?_⟩
  exact (hyields.exchange htakes hd []).trans (hyields'.over children)

/-! ## Files that are one function -/

/-- A text as the body of a function. -/
def inFunction (body : Text) : Text :=
  "fn f() void \x7b\n".toList ++ body ++ "\n\x7d\n".toList

theorem tokensOf_lex_inFunction (body : Text) :
    tokensOf (lex (inFunction body)) =
      signature ++ opening :: (tokensOf (lex body) ++ [closing]) := by
  have htext : inFunction body =
      "fn f() void \x7b".toList ++ '\n' :: (body ++ '\n' :: "\x7d\n".toList) := by
    have hhead : "fn f() void \x7b\n".toList = "fn f() void \x7b".toList ++ ['\n'] := by decide
    have htail : "\n\x7d\n".toList = '\n' :: "\x7d\n".toList := by decide
    change "fn f() void \x7b\n".toList ++ body ++ "\n\x7d\n".toList = _
    rw [hhead, htail, List.append_assoc, List.append_assoc, List.singleton_append]
  have hfront : tokensOf (lex "fn f() void \x7b".toList) = signature ++ [opening] := by
    decide +kernel
  have hbehind : tokensOf (lex "\x7d\n".toList) = [closing] := by
    decide +kernel
  have hunmarked : ¬ Scan.Marked "\x7d\n".toList := by
    unfold Scan.Marked
    decide
  have hbody := tokensOf_lex_lineFeed body "\x7d\n".toList fun _ _ _ => hunmarked
  have hwhole := tokensOf_lex_lineFeed "fn f() void \x7b".toList
    (body ++ '\n' :: "\x7d\n".toList) (by rw [hfront]; simp [opening])
  rw [htext, hwhole, hbody, hfront, hbehind, List.append_assoc, List.singleton_append]

/-- The outline of a file that is one function. -/
def fileOutline (children : List (Shape Kind Kind)) : Shape Kind Kind :=
  .node .sourceFile [functionOutline (blockOutline children), .leaf .eof]

/-- Statements that fill a block make a function of which nothing is reported. -/
theorem Fills.exists_parse_inFunction
    {body : Text}
    {children : List (Shape Kind Kind)}
    (h : Fills (tokensOf (lex body)) children) :
    ∃ p,
      parse? (inFunction body) = some p ∧
      p.root.lexemes = lex (inFunction body) ∧
      p.root.outline = fileOutline children ∧
      p.diagnostics = [] := by
  obtain ⟨u, hcursor, hleads, t, ⟨c, children', reports, hc, hyields, hclosed, -⟩, -, -, hlast, -⟩ :=
    @ends_members_function (.ofList (signature ++ opening :: (tokensOf (lex body) ++ [closing]))) _ rfl
  obtain ⟨htakes, hyields'⟩ := h c hc
  obtain ⟨rfl, rfl⟩ : children' = children ∧ reports = 0 := by
    have hsites := hyields.unique hyields' rfl
    simpa using hsites
  have hrest : (statements c).cursor.rest = [closing] :=
    List.append_cancel_left (htakes.rest.symm.trans hc)
  obtain rfl := hclosed (by rw [hrest]; rfl)
  have hend : (statements c).cursor.next.rest = [] := by
    have hnext := (Cursor.Takes.next hrest).rest
    rw [hrest] at hnext
    exact (List.cons.inj hnext).2.symm
  obtain rfl := hlast (Site.rest_eq_nil_iff.mp hend)
  have hcursor' : (statements c).cursor.next = (members (.ofList
      (signature ++ opening :: (tokensOf (lex body) ++ [closing])))).cursor := hcursor
  rw [hcursor'] at hleads
  obtain ⟨p, hp, hlexemes, houtline, -, hlength⟩ :=
    exists_parse_of_leads (tokensOf_lex_inFunction body) rfl hleads
  exact ⟨p, hp, hlexemes, houtline, List.length_eq_zero_iff.mp hlength⟩

/-- Two nodes below the root are two child nodes. -/
theorem two_le_length_childNodes
    {r : Root Kind}
    {shapes : List (Shape Kind Kind)}
    {kind kind' : Kind}
    {children children' : List (Shape Kind Kind)}
    (houtline : r.outline = .node .sourceFile (shapes.reverse ++ [Shape.leaf Kind.eof]))
    (hsuffix : [.node kind children, .node kind' children'] <:+ shapes) :
    2 ≤ r.node.childNodes.length := by
  have houtlines : Tree.outlines r.node.children = shapes.reverse ++ [Shape.leaf Kind.eof] :=
    (Shape.node.inj houtline).2
  have hcount : r.node.childNodes.length = shapes.countP Shape.isNode := by
    rw [← List.length_map Node.outline, Node.map_outline_childNodes, houtlines,
      ← List.countP_eq_length_filter, List.countP_append, List.countP_reverse]
    rfl
  have hle : List.countP Shape.isNode [.node kind children, .node kind' children'] ≤
      shapes.countP Shape.isNode := hsuffix.sublist.countP_le
  rwa [← hcount] at hle

/-- A file of which nothing is reported and that is one function has a body that is
filled by statements. -/
theorem exists_fills
    {body : Text}
    {p : Parse Kind}
    (hp : parse? (inFunction body) = some p)
    (hquiet : p.diagnostics = [])
    (hone : p.root.node.childNodes.map (fun n => n.kind) = [.fnDecl]) :
    ∃ children, Fills (tokensOf (lex body)) children := by
  obtain ⟨u, hcursor, hleads, t, ⟨c, children, reports, hc, hyields, hclosed, hopen⟩, hgrows, -, -,
      hmore⟩ :=
    @ends_members_function (.ofList (signature ++ opening :: (tokensOf (lex body) ++ [closing]))) _ rfl
  obtain ⟨shapes, count, -, -, hleads'⟩ :=
    exists_leads_members (signature ++ opening :: (tokensOf (lex body) ++ [closing]))
  obtain rfl := hleads.unique hleads' hcursor
  obtain ⟨p', hp', -, houtline, -, hlength⟩ :=
    exists_parse_of_leads (tokensOf_lex_inFunction body) rfl hleads'
  obtain rfl : p = p' := Option.some.inj (hp.symm.trans hp')
  have hnone : t.reports = 0 := by
    have hcount : t.reports ≤ count := hgrows.reports
    rw [hquiet, List.length_nil] at hlength
    omega
  -- The brace of the function is there, and nothing stands behind it.
  have hbrace : kindAt 0 (statements c).cursor.rest = .rightBrace := by
    refine Decidable.byContradiction fun hne => ?_
    have hpos := hopen hne
    omega
  obtain rfl := hclosed hbrace
  have hend : (statements c).cursor.next.rest = [] := by
    refine Decidable.byContradiction fun hne => ?_
    obtain ⟨kind, grandchildren, hsuffix⟩ := hmore (mt Site.rest_eq_nil_iff.mpr hne)
    have htwo := two_le_length_childNodes houtline hsuffix
    have hlength := congrArg List.length hone
    rw [List.length_map, List.length_singleton] at hlength
    omega
  obtain ⟨l, hl⟩ : ∃ l, (statements c).cursor.rest = [l] := by
    cases hrest : (statements c).cursor.rest with
    | nil =>
        rw [hrest] at hbrace
        exact absurd hbrace (by decide)
    | cons l more =>
        have hnext := (Cursor.Takes.next hrest).rest
        rw [hend, hrest] at hnext
        exact ⟨l, hnext⟩
  obtain ⟨taken, htaken⟩ := steady_statements.forward c
  have htokens : taken ++ [l] = tokensOf (lex body) ++ [closing] := by
    rw [← hc, htaken.rest, hl]
  obtain ⟨rfl, -⟩ := List.append_inj' htokens rfl
  obtain rfl : reports = 0 := hnone
  exact ⟨children, fills_of_yields hc htaken hyields⟩

/-! ## The statements of the body -/

/-- The statements in the bodies of the functions of a file. -/
def bodyStatements (file : Node Kind) : List (Node Kind) :=
  (file.childNodes.filterMap FnDecl.body?).flatMap Block.statements

section Views

/-- Whether a shape is a statement of the block that it stands in. -/
def isStatement {α : Type} : Shape α Kind → Bool
  | .leaf _ => false
  | .node kind _ => kind != .label

theorem map_bare_statements (n : Node Kind) :
    (Block.statements n).map Node.bare = (Tree.bares n.children).filter isStatement := by
  have hbare : isStatement ∘ Node.bare = fun n : Node Kind => n.kind != .label := rfl
  have hboth : (fun shape : Shape (Lexeme Kind) Kind => isStatement shape && shape.isNode) =
      isStatement := by
    funext shape
    cases shape with
    | leaf l => rfl
    | node kind children => exact Bool.and_true _
  rw [Block.statements, ← hbare, ← List.filter_map, Node.map_bare_childNodes, List.filter_filter,
    hboth]

/-- A block behind everything else is the body. -/
theorem exists_body
    {n : Node Kind}
    {front inner : List (Shape (Lexeme Kind) Kind)}
    (h : Tree.bares n.children = front ++ [Shape.node Kind.block inner]) :
    ∃ b, FnDecl.body? n = some b ∧ Tree.bares b.children = inner := by
  have hnodes : n.childNodes.map Node.bare =
      front.filter Shape.isNode ++ [Shape.node Kind.block inner] := by
    rw [Node.map_bare_childNodes, h, List.filter_append]
    rfl
  obtain ⟨before, last, hchildren, -, hlast⟩ := List.map_eq_append_iff.mp hnodes
  obtain ⟨b, rfl, hb⟩ := List.map_eq_singleton_iff.mp hlast
  obtain ⟨hkind, hinner⟩ := Shape.node.inj hb
  refine ⟨b, ?_, hinner⟩
  rw [FnDecl.body?, Node.childrenOf, hchildren, List.filter_append]
  simp [hkind]

/-- A shape over a node is a node over the children. -/
theorem exists_node_of_map
    {α β : Type}
    {f : α → β}
    {kind : Kind}
    {shape : Shape α Kind}
    {children : List (Shape β Kind)}
    (h : shape.map f = .node kind children) :
    ∃ below, shape = .node kind below ∧ below.map (Shape.map f) = children := by
  cases shape with
  | leaf a => simp at h
  | node kind' below =>
      rw [Shape.map_node] at h
      obtain ⟨rfl, hbelow⟩ := Shape.node.inj h
      exact ⟨below, rfl, hbelow⟩

theorem exists_leaf_of_map
    {α β : Type}
    {f : α → β}
    {shape : Shape α Kind}
    {b : β}
    (h : shape.map f = .leaf b) :
    ∃ a, shape = .leaf a ∧ f a = b := by
  cases shape with
  | leaf a => exact ⟨a, rfl, Shape.leaf.inj h⟩
  | node kind children => simp at h

end Views

/-- A tree with the outline of a file that is one function, taken apart from the root down
to the statements. -/
theorem exists_shapes_of_fileOutline
    {file : Shape (Lexeme Kind) Kind}
    {children : List (Shape Kind Kind)}
    (h : file.map Lexeme.kind = fileOutline children) :
    ∃ front o shapes c e,
      file = .node .sourceFile [.node .fnDecl (front ++
        [Shape.node Kind.block (Shape.leaf o :: (shapes ++ [Shape.leaf c]))]), .leaf e] ∧
      front.map (Shape.map Lexeme.kind) = signatureOutline ∧
      shapes.map (Shape.map Lexeme.kind) = children.reverse := by
  obtain ⟨top, rfl, htops⟩ := exists_node_of_map h
  obtain ⟨f, ends, rfl, hf, hends⟩ := List.map_eq_cons_iff.mp htops
  obtain ⟨e, rfl, he⟩ := List.map_eq_singleton_iff.mp hends
  obtain ⟨parts, rfl, hparts⟩ := exists_node_of_map hf
  obtain ⟨front, blocks, rfl, hfront, hblocks⟩ := List.map_eq_append_iff.mp hparts
  obtain ⟨block, rfl, hblock⟩ := List.map_eq_singleton_iff.mp hblocks
  obtain ⟨inner, rfl, hinner⟩ := exists_node_of_map hblock
  obtain ⟨openings, rest, rfl, hopenings, hrest⟩ := List.map_eq_append_iff.mp hinner
  obtain ⟨o, rfl, ho⟩ := List.map_eq_singleton_iff.mp hopenings
  obtain ⟨shapes, closings, rfl, hshapes, hclosings⟩ := List.map_eq_append_iff.mp hrest
  obtain ⟨c, rfl, hc⟩ := List.map_eq_singleton_iff.mp hclosings
  obtain ⟨o, rfl, -⟩ := exists_leaf_of_map ho
  obtain ⟨c, rfl, -⟩ := exists_leaf_of_map hc
  obtain ⟨e, rfl, -⟩ := exists_leaf_of_map he
  exact ⟨front, o, shapes, c, e, rfl, hfront, hshapes⟩

/-- The tokens between the braces of a file that is one function are those of the body. -/
theorem leaves_statements
    {file : Shape (Lexeme Kind) Kind}
    {front shapes : List (Shape (Lexeme Kind) Kind)}
    {o c e l : Lexeme Kind}
    {body : Text}
    (hfile : file = .node .sourceFile [.node .fnDecl (front ++
      [Shape.node Kind.block (Shape.leaf o :: (shapes ++ [Shape.leaf c]))]), .leaf e])
    (hfront : front.map (Shape.map Lexeme.kind) = signatureOutline)
    (hleaves : file.leaves = tokensOf (lex (inFunction body)) ++ [l]) :
    shapes.flatMap Shape.leaves = tokensOf (lex body) := by
  rw [tokensOf_lex_inFunction, hfile] at hleaves
  simp only [Shape.leaves_node, Shape.leaves_leaf, List.flatMap_cons, List.flatMap_append,
    List.flatMap_nil, List.append_nil, List.append_assoc, List.cons_append, List.nil_append]
    at hleaves
  have hlength : (front.flatMap Shape.leaves).length = signature.length := by
    have hkinds := congrArg (List.flatMap Shape.leaves) hfront
    rw [Shape.flatMap_leaves_map] at hkinds
    simpa [signatureOutline, signature] using congrArg List.length hkinds
  have hrest := (List.append_inj hleaves hlength).2
  exact (List.append_inj' (List.cons.inj hrest).2 rfl).1

/-- The statements of a file that is one function: they have the shapes of the outline
and the tokens of the body. -/
theorem exists_statements
    {r : Root Kind}
    {body : Text}
    {children : List (Shape Kind Kind)}
    (houtline : r.outline = fileOutline children)
    (hlexemes : r.lexemes = lex (inFunction body)) :
    r.node.childNodes.map (fun n => n.kind) = [.fnDecl] ∧
    ∃ shapes : List (Shape (Lexeme Kind) Kind),
      shapes.map (Shape.map Lexeme.kind) = children.reverse ∧
      shapes.flatMap Shape.leaves = tokensOf (lex body) ∧
      (bodyStatements r.node).map Node.bare = shapes.filter isStatement := by
  obtain ⟨front, o, shapes, c, e, hfile, hfront, hshapes⟩ :=
    exists_shapes_of_fileOutline (r.map_kind_bare.trans houtline)
  have hnodes : r.node.childNodes.map Node.bare =
      [.node .fnDecl (front ++
        [Shape.node Kind.block (Shape.leaf o :: (shapes ++ [Shape.leaf c]))])] := by
    rw [Node.map_bare_childNodes]
    exact congrArg (List.filter Shape.isNode) (Shape.node.inj hfile).2
  obtain ⟨n, hn, hfn⟩ := List.map_eq_singleton_iff.mp hnodes
  obtain ⟨hkind, hbares⟩ := Shape.node.inj hfn
  obtain ⟨b, hbody, hinner⟩ := exists_body hbares
  refine ⟨by rw [hn, List.map_singleton, hkind], shapes, hshapes, ?_, ?_⟩
  · have hleaves : r.bare.leaves = tokensOf (lex (inFunction body)) ++
        [(significantLexemes (lex (inFunction body))).getLast
          (significantLexemes_lex_ne_nil (inFunction body))] := by
      rw [Root.leaves_bare, hlexemes, tokensOf, List.dropLast_append_getLast]
    exact leaves_statements hfile hfront hleaves
  · rw [bodyStatements, hn, List.filterMap_cons_some hbody, List.filterMap_nil,
      List.flatMap_singleton, map_bare_statements, hinner]
    simp [isStatement]

/-- **Statements compose.**  If two texts are each the body of a function of which nothing
is reported, then so are both, one behind the other, and the statements are those of the
first followed by those of the second, provided that the first ends with a semicolon or
the second does not go on with an expression. -/
theorem exists_parse_statements
    {first second : Text}
    {p q : Parse Kind}
    (hp : parse? (inFunction first) = some p)
    (hquiet : p.diagnostics = [])
    (hone : p.root.node.childNodes.map (fun n => n.kind) = [.fnDecl])
    (hq : parse? (inFunction second) = some q)
    (hquiet' : q.diagnostics = [])
    (hone' : q.root.node.childNodes.map (fun n => n.kind) = [.fnDecl])
    (hjoins : Joins (tokensOf (lex first)) (tokensOf (lex second))) :
    ∃ r,
      parse? (inFunction (first ++ '\n' :: second)) = some r ∧
      r.diagnostics = [] ∧
      r.root.node.childNodes.map (fun n => n.kind) = [.fnDecl] ∧
      (bodyStatements r.root.node).map Node.bare =
        (bodyStatements p.root.node).map Node.bare ++
          (bodyStatements q.root.node).map Node.bare := by
  obtain ⟨children, hfills⟩ := exists_fills hp hquiet hone
  obtain ⟨children', hfills'⟩ := exists_fills hq hquiet' hone'
  have hlast : ∀ l ∈ (tokensOf (lex first)).getLast?, l.kind = .stringLiteralMulti →
      ¬ Scan.Marked second := by
    intro l hl hmulti
    rcases hfills.stops l hl with hstop | hstop | hstop <;> simp [hmulti] at hstop
  have htokens := tokensOf_lex_lineFeed first second hlast
  have hboth := hfills.append hfills' hjoins
  rw [← htokens] at hboth
  obtain ⟨p', hp', hplexemes, hpoutline, -⟩ := hfills.exists_parse_inFunction
  obtain rfl : p = p' := Option.some.inj (hp.symm.trans hp')
  obtain ⟨q', hq', hqlexemes, hqoutline, -⟩ := hfills'.exists_parse_inFunction
  obtain rfl : q = q' := Option.some.inj (hq.symm.trans hq')
  obtain ⟨r, hr, hrlexemes, hroutline, hrquiet⟩ := hboth.exists_parse_inFunction
  obtain ⟨-, shapes, hshapes, hleaves, hstatements⟩ := exists_statements hpoutline hplexemes
  obtain ⟨-, shapes', hshapes', hleaves', hstatements'⟩ := exists_statements hqoutline hqlexemes
  obtain ⟨hkinds, both, hbothShapes, hbothLeaves, hall⟩ := exists_statements hroutline hrlexemes
  refine ⟨r, hr, hrquiet, hkinds, ?_⟩
  have hjoined : both = shapes ++ shapes' := by
    refine Shape.all_eq_of_map_eq (f := Lexeme.kind) _ _ ?_ ?_
    · rw [hbothShapes, List.map_append, hshapes, hshapes', List.reverse_append]
    · rw [hbothLeaves, List.flatMap_append, hleaves, hleaves', htokens]
  rw [hall, hstatements, hstatements', hjoined, List.filter_append]

/-- A branch that ends with a brace in front of a call. -/
theorem exists_parse_statements_branch :
    ∃ p q r,
      parse? (inFunction "if (a) \x7b\x7d // one".toList) = some p ∧
      p.diagnostics = [] ∧
      p.root.node.childNodes.map (fun n => n.kind) = [.fnDecl] ∧
      parse? (inFunction "b(c);".toList) = some q ∧
      q.diagnostics = [] ∧
      q.root.node.childNodes.map (fun n => n.kind) = [.fnDecl] ∧
      Joins (tokensOf (lex "if (a) \x7b\x7d // one".toList)) (tokensOf (lex "b(c);".toList)) ∧
      parse? (inFunction "if (a) \x7b\x7d // one\nb(c);".toList) = some r ∧
      r.diagnostics = [] ∧
      r.root.node.childNodes.map (fun n => n.kind) = [.fnDecl] ∧
      (bodyStatements r.root.node).map Node.bare =
        (bodyStatements p.root.node).map Node.bare ++
          (bodyStatements q.root.node).map Node.bare := by
  have hsome : ∀ text : Text,
      (parse? (inFunction text)).any (fun p => p.diagnostics == [] &&
        p.root.node.childNodes.map (fun n => n.kind) == [.fnDecl]) = true →
      ∃ p, parse? (inFunction text) = some p ∧ p.diagnostics = [] ∧
        p.root.node.childNodes.map (fun n => n.kind) = [.fnDecl] := by
    intro text htext
    rw [Option.any_eq_true] at htext
    obtain ⟨p, hp, hgood⟩ := htext
    simp only [Bool.and_eq_true, beq_iff_eq] at hgood
    exact ⟨p, hp, hgood⟩
  obtain ⟨p, hp, hquiet, hone⟩ := hsome "if (a) \x7b\x7d // one".toList (by decide +kernel)
  obtain ⟨q, hq, hquiet', hone'⟩ := hsome "b(c);".toList (by decide +kernel)
  have hjoins : Joins (tokensOf (lex "if (a) \x7b\x7d // one".toList))
      (tokensOf (lex "b(c);".toList)) := .inr (by decide +kernel)
  obtain ⟨r, hr, hresult⟩ := exists_parse_statements hp hquiet hone hq hquiet' hone' hjoins
  exact ⟨p, q, r, hp, hquiet, hone, hq, hquiet', hone', hjoins, hr, hresult⟩

end Zig
end ZigCst
