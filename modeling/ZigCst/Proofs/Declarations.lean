import ZigCst.Proofs.Joining
import ZigCst.Proofs.Rounds
import ZigCst.Proofs.Seam
import ZigCst.Proofs.ZigSteady

/-!
# Declarations do not look at what follows

A declaration that is parsed without a fault ends with a semicolon or a closing brace
that it has taken itself, and nothing behind that changes how it was parsed.  The
exception are the fields of containers, which may end where the file does.  So the
declarations of a file without faults and without fields are found again when another
text stands behind it on a line of its own.

**Definitions.**
* `memberFrom`: a member of a container, by the two lexemes that it starts with.

**Results.**
* `closes_memberFrom`: all members but fields close.
* `exists_rounds_closing`: a file without faults and fields consists of such members.
* `exists_parse_append`: the declarations of a file and of a text behind it.
-/

namespace ZigCst
namespace Zig

open ZigCst.Parser

/-! ## Declarations close -/

section Closing

variable {fits : Kind → List (Lexeme Kind) → List (Lexeme Kind) → Prop}
  {inner : Level} (h : inner.Steady)
include h

theorem closes_blockBody : (blockBody inner).Closes IsStop fits :=
  (steady_expect _).bind_closes fun _ =>
    (steady_repeatWhile (steady_statementInBlock h)).bind_closes fun _ =>
      closes_expect (.inr (.inr rfl)) (by decide)

theorem closes_block : (block inner).Closes IsStop fits := by
  refine (steady_at _).bind_closes fun _ =>
    Closes.ite (Closes.node (closes_blockBody h)).discard ?_
  exact steady_peek.bind_closes fun _ => (faults_recover _ _).closes (steady_recover _ _)

theorem closes_varDecl : (varDecl inner).Closes IsStop fits := by
  have hsemicolon : (expect Kind.semicolon : Parser Kind Unit).Closes IsStop fits :=
    closes_expect (.inl rfl) (by decide)
  refine steady_advance.bind_closes fun _ => (steady_name _).bind_closes fun _ =>
    (steady_eat _).bind_closes fun _ => ?_
  refine Closes.ite (h.type.steady.discard.bind_closes fun _ => ?hclauses) ?hclauses
  refine (steady_clauses h false).bind_closes fun _ => (steady_eat _).bind_closes fun _ => ?_
  exact Closes.ite (h.expr.steady.discard.bind_closes fun _ => hsemicolon) hsemicolon

theorem closes_testDecl : (testDecl inner).Closes IsStop fits := by
  have hblock : (block inner).Closes IsStop fits := closes_block h
  refine (Closes.node (steady_advance.bind_closes fun _ =>
    steady_peek.bind_closes fun kind => ?_)).discard
  dsimp only
  split
  · exact steady_stringLiteral.bind_closes fun _ => hblock
  · exact (steady_name _).bind_closes fun _ => hblock
  · exact hblock

theorem closes_declBody : (declBody inner).Closes IsStop fits := by
  have hsemicolon : ∀ kind : Kind,
      (do expect .semicolon; return kind : Parser Kind Kind).Closes IsStop fits :=
    fun kind => (closes_expect (.inl rfl) (by decide)).bind_still fun _ => still_pure kind
  refine (steady_skip _).bind_closes fun _ => (steady_eat _).bind_closes fun _ => Closes.ite ?_ ?_
  · exact h.expr.steady.discard.bind_closes fun _ => hsemicolon _
  refine steady_linkage.bind_closes fun _ => (steady_at _).bind_closes fun _ => Closes.ite ?_ ?_
  · refine (steadyFrom_fnProto h).steady.bind_closes fun _ =>
      (steady_at _).bind_closes fun _ => Closes.ite ?_ (hsemicolon _)
    exact (closes_block h).bind_still fun _ => still_pure _
  · refine (steady_skip _).bind_closes fun _ => (steady_at _).bind_closes fun _ =>
      (steady_at _).bind_closes fun _ => Closes.ite ?_ ?_
    · exact (closes_varDecl h).bind_still fun _ => still_pure _
    · have hfaults : (do report .expectedDeclarationKeyword; return .error :
          Parser Kind Kind).Faults := (faults_report _).bind fun _ => sound_pure _
      exact hfaults.closes ((steady_report _).seq (steady_pure _))

theorem closes_comptimeDecl :
    (discard <| node .comptimeDecl do
      advance
      block inner : Parser Kind Unit).Closes IsStop fits :=
  (Closes.node (steady_advance.bind_closes fun _ => closes_block h)).discard

end Closing

/-- A member of a container that starts with lexemes of two kinds. -/
def memberFrom (inner : Level) (kind next : Kind) : Parser Kind Unit :=
  match kind with
  | .testKw => testDecl inner
  | .pubKw | .usingnamespaceKw | .exportKw | .externKw | .inlineKw | .noinlineKw
  | .threadlocalKw | .fnKw | .constKw | .varKw => discard <| nodeOf (declBody inner)
  | .comptimeKw =>
      if next == .leftBrace then
        discard <| node .comptimeDecl do
          advance
          block inner
      else containerField inner
  | .identifier => containerField inner
  | .rightBrace => bump .unmatchedBrace
  | _ => bump .expectedDeclaration

theorem containerMember_eq
    (inner : Level)
    (c : Cursor Kind) :
    containerMember inner c = memberFrom inner (kindAt 0 c.rest) (kindAt 1 c.rest) c := by
  rw [containerMember, routine_eq, bind_of_eq (peek_kindAt c)]
  cases kindAt 0 c.rest <;> rfl

/-- Streams that agree to a stop start with the same member. -/
theorem memberFrom_eq
    (inner : Level)
    {x y : List (Lexeme Kind)}
    (h : AgreeTo IsStop x y) :
    memberFrom inner (kindAt 0 x) (kindAt 1 x) = memberFrom inner (kindAt 0 y) (kindAt 1 y) := by
  rw [← kindAt_zero_eq h]
  by_cases hzero : IsStop (kindAt 0 x)
  · rcases hzero with hzero | hzero | hzero <;> rw [hzero] <;> rfl
  · rw [kindAt_one_eq h hzero]

/-- All members but fields close. -/
theorem closes_memberFrom
    {fits : Kind → List (Lexeme Kind) → List (Lexeme Kind) → Prop}
    {inner : Level}
    (h : inner.Steady)
    (kind next : Kind) :
    memberFrom inner kind next = containerField inner ∨
      (memberFrom inner kind next).Closes IsStop fits := by
  have hdecl : (discard (nodeOf (declBody inner)) : Parser Kind Unit).Closes IsStop fits :=
    (closes_declBody h).nodeOf.discard
  have hbump : ∀ fault : Fault Kind, (bump fault : Parser Kind Unit).Closes IsStop fits :=
    fun fault => (faults_bump fault).closes (steady_bump fault)
  unfold memberFrom
  split
  · exact .inr (closes_testDecl h)
  · exact .inr hdecl
  · exact .inr hdecl
  · exact .inr hdecl
  · exact .inr hdecl
  · exact .inr hdecl
  · exact .inr hdecl
  · exact .inr hdecl
  · exact .inr hdecl
  · exact .inr hdecl
  · exact .inr hdecl
  · split
    · exact .inr (closes_comptimeDecl h)
    · exact .inl rfl
  · exact .inl rfl
  · exact .inr (hbump _)
  · exact .inr (hbump _)

/-! ## Turns over the members of a file -/

section Turns

variable {inner : Level}

/-- A turn outside of braces takes a member unless nothing is left. -/
theorem memberInContainer_eq (c : Cursor Kind) :
    memberInContainer inner false c =
      (if c.rest.isEmpty then return false
      else (do
        unless ← moves (containerMember inner) do
          bump .expectedDeclaration
        return true) : Parser Kind Bool) c := by
  rw [memberInContainer, bind_of_eq (atEnd_isEmpty c), bind_of_eq (at_kindAt .rightBrace c)]
  cases c.rest.isEmpty <;> rfl

/-- A turn that reports nothing closes unless it takes a field. -/
theorem closesAt_memberInContainer
    (h : inner.Steady)
    {c : Cursor Kind}
    (hvalue : (memberInContainer inner false c).value = true)
    (hquiet : Trace.reports (memberInContainer inner false c).trace = 0) :
    (memberInContainer inner false c).trace = (containerField inner c).trace ∨
      (memberInContainer inner false).ClosesAt IsStop (fun _ _ _ => True) c := by
  have hrest : c.rest.isEmpty = false := by
    cases hempty : c.rest.isEmpty with
    | false => rfl
    | true =>
        rw [memberInContainer_eq, hempty] at hvalue
        exact absurd hvalue (by simp [pure])
  rw [memberInContainer_eq, hrest, if_neg Bool.false_ne_true] at hquiet ⊢
  have hleft := left_lt_of_moves_or_bump hquiet
  rw [moves_or_bump_eq _ hleft] at hquiet ⊢
  rcases closes_memberFrom h (kindAt 0 c.rest) (kindAt 1 c.rest) with hfield | hcloses
  · left
    rw [containerMember_eq, hfield]
  · right
    have hmember : (containerMember inner).ClosesAt IsStop (fun _ _ _ => True) c := by
      refine .of_look (fun ls => memberFrom inner (kindAt 0 ls) (kindAt 1 ls))
        (containerMember_eq inner) (fun _ _ => memberFrom_eq inner) ?_
      exact hcloses.closesAt (containerMember_eq inner c ▸ hquiet)
    refine .of_look (fun ls => if ls.isEmpty then return false
      else (do
        unless ← moves (containerMember inner) do
          bump .expectedDeclaration
        return true)) memberInContainer_eq (fun _ _ hagree => by rw [hagree.isEmpty_eq]) ?_
    rw [hrest, if_neg Bool.false_ne_true]
    exact hmember.moves_or_bump _ hleft

/-- Turns that report nothing and add no field close. -/
theorem exists_closing_rounds
    {inner : Level}
    (hsound : inner.Sound)
    (hsteady : inner.Steady)
    {c c' : Cursor Kind}
    {trace : Trace Kind}
    (hrounds : Rounds (memberInContainer inner false) (fun _ => True) c trace c')
    (hquiet : Trace.reports trace = 0)
    (s : Site Kind)
    (hs : s.cursor = c) :
    ∃ t : Site Kind,
      t.cursor = c' ∧ s.Leads trace t ∧ s.Grows t ∧
      ((∀ children, .node .containerField children ∉ t.children) →
        Rounds (memberInContainer inner false)
          ((memberInContainer inner false).ClosesAt IsStop (fun _ _ _ => True)) c trace c') := by
  induction hrounds generalizing s with
  | done c => exact ⟨s, hs, .nil s, .refl s, fun _ => .done c⟩
  | turn hvalue hleft _ _ ih =>
      subst hs
      obtain ⟨t, hcursor, hleads, hgrows, -⟩ := ends_memberInContainer hsound false s
      rw [Trace.reports_append] at hquiet
      obtain ⟨u, hlast, hmore, hgrows', hrest⟩ := ih (by omega) t hcursor
      refine ⟨u, hlast, hleads.trans hmore, hgrows.trans hgrows', fun hfields => ?_⟩
      refine .turn hvalue hleft ?_ (hrest hfields)
      rcases closesAt_memberInContainer hsteady hvalue (by omega) with hfield | hcloses
      · -- A field is completed, and stays among the children.
        rw [hfield, containerField, routine_eq, trace_discard_node] at hleads
        obtain ⟨children, others, hchildren⟩ := hleads.exists_node_of_complete
        refine absurd (hgrows'.children.mem ?_) (hfields children)
        rw [hchildren]
        exact List.mem_cons_self
      · exact hcloses

end Turns

/-- A turn is the last one only where nothing is left. -/
theorem memberInContainer_last
    {inner : Level}
    {c : Cursor Kind}
    (h : (memberInContainer inner false c).value = false) :
    c.rest = [] ∧ memberInContainer inner false c = ⟨false, c, []⟩ := by
  rw [memberInContainer_eq] at h ⊢
  cases hempty : c.rest.isEmpty with
  | true => exact ⟨List.isEmpty_iff.mp hempty, rfl⟩
  | false =>
      rw [hempty, if_neg Bool.false_ne_true, gives_moves_or_bump _ _ c] at h
      exact absurd h (by decide)

/-! ## Whole files -/

/-- The members of a file. -/
def members : Parser Kind Unit := containerMembers (level maxDepth) false

theorem steady_members : members.Steady IsStop := steady_containerMembers (steady_level maxDepth) false

/-- The members of a file take all lexemes, and lead to some children. -/
theorem exists_leads_members (ls : List (Lexeme Kind)) :
    ∃ (children : List (Shape Kind Kind)) (reports : Nat),
      (Cursor.ofList ls).Takes ls (members (.ofList ls)).cursor ∧
      (members (.ofList ls)).cursor.rest = [] ∧
      (Site.mk (.ofList ls) [] [] 0).Leads (members (.ofList ls)).trace
        ⟨(members (.ofList ls)).cursor, [], children, reports⟩ := by
  obtain ⟨⟨cursor, behind, children, reports⟩, hcursor, hleads, hgrows, hkinds⟩ :=
    ends_containerMembers (sound_level maxDepth) ⟨.ofList ls, [], [], 0⟩
  obtain rfl : cursor = (members (.ofList ls)).cursor := hcursor
  obtain rfl : behind = [] := hgrows.behind
  have hend : (members (.ofList ls)).cursor.rest = [] := Site.rest_eq_nil_iff.mpr hkinds
  obtain ⟨taken, htaken⟩ := steady_members.forward (.ofList ls)
  obtain rfl := htaken.eq_of_rest_nil hend
  exact ⟨children, reports, htaken, hend, hleads⟩

/-- The tree of a file has the children that its members lead to, and the end of file
behind them. -/
theorem exists_parse_of_leads
    {text : Text}
    {ls : List (Lexeme Kind)}
    {trace : Trace Kind}
    {children : List (Shape Kind Kind)}
    {reports : Nat}
    (hls : tokensOf (lex text) = ls)
    (htrace : (members (.ofList ls)).trace = trace)
    (hleads : (Site.mk (.ofList ls) [] [] 0).Leads trace
      ⟨(members (.ofList ls)).cursor, [], children, reports⟩) :
    ∃ p,
      parse? text = some p ∧
      p.root.lexemes = lex text ∧
      p.root.outline = .node .sourceFile (children.reverse ++ [Shape.leaf Kind.eof]) ∧
      p.diagnostics = Trace.errors (tokensWith read text) trace ∧
      p.diagnostics.length = reports := by
  subst htrace
  obtain ⟨-, -, htakes, hend, -⟩ := exists_leads_members ls
  have hkind : Kind.sourceFile ≠ Vocabulary.tombstone := by decide
  have hends : members.Ends (.ofList ls) fun _ t => t.kinds = [] ∧ t.behind = [Vocabulary.eof] ∧
      t.children = children ∧ t.reports = reports :=
    ⟨_, rfl, hleads.exchange htakes htakes _, Site.rest_eq_nil_iff.mp hend, rfl, rfl, rfl⟩
  obtain ⟨t, ⟨hchildren, hreports⟩, hgrow, herrors⟩ := Parser.Ends.exists_grow? hkind hends
  have hseen : significant (tokensWith read text) = ls := by
    rw [significant_tokensWith]
    exact hls
  rw [← hseen] at hgrow herrors
  obtain ⟨p, hp, hdiagnostics, hkeeps, houtline⟩ := ofGrammar?_of_grow? hgrow
  refine ⟨p, hp, hkeeps.lexemes_eq, ?_, ?_, ?_⟩
  · rw [houtline, hchildren]
    rfl
  · rw [hdiagnostics, hseen, trace_whole _ hend, ← List.cons_append, Trace.errors_append _ _ _ rfl]
    rfl
  · rw [hdiagnostics, herrors _ (length_tokensWith read text), hreports]

/-- A stream whose members report nothing and are no fields: its members are found
again in front of every other stream. -/
theorem members_append
    {front : List (Lexeme Kind)}
    {children : List (Shape Kind Kind)}
    (hleads : (Site.mk (.ofList front) [] [] 0).Leads (members (.ofList front)).trace
      ⟨(members (.ofList front)).cursor, [], children, 0⟩)
    (hfields : ∀ grandchildren, .node .containerField grandchildren ∉ children) :
    (∀ z ∈ front.getLast?, IsStop z.kind) ∧
    ∀ behind : List (Lexeme Kind), ∃ d : Cursor Kind,
      (Cursor.ofList (front ++ behind)).Takes front d ∧
      (members (.ofList (front ++ behind))).trace =
        (members (.ofList front)).trace ++ (members d).trace ∧
      (members (.ofList (front ++ behind))).cursor = (members d).cursor := by
  have hsteady := steady_memberInContainer (steady_level maxDepth) false
  have hturns : ∀ c, (memberInContainer (level maxDepth) false c).value = true →
      (memberInContainer (level maxDepth) false c).cursor.left < c.left := by
    intro c hvalue
    obtain ⟨t, hcursor, -, -, hleft, -⟩ :=
      ends_memberInContainer (sound_level maxDepth) false ⟨c, [], [], 0⟩
    exact hcursor ▸ hleft hvalue
  obtain ⟨trace, c', hrounds, hlast⟩ := exists_rounds hturns (.ofList front)
  obtain ⟨hend, hrun⟩ := memberInContainer_last hlast
  -- The turns are all that the members of the front do.
  have hmembers : members (.ofList front) = ⟨(), c', trace⟩ := by
    have hall := hrounds.repeatWhile_eq
    rw [repeatWhile_last hlast, hrun] at hall
    rwa [List.append_nil, List.append_nil] at hall
  rw [hmembers] at hleads
  have hquiet : Trace.reports trace = 0 := by
    have hreports : 0 = 0 + Trace.reports trace := hleads.reports
    omega
  obtain ⟨t, hcursor, hleads', -, hclosing⟩ := exists_closing_rounds
    (sound_level maxDepth) (steady_level maxDepth) hrounds hquiet ⟨.ofList front, [], [], 0⟩ rfl
  obtain rfl := hleads'.unique hleads hcursor
  have hrounds := hclosing hfields
  obtain ⟨taken, htaken⟩ := hrounds.exists_takes hsteady
  obtain rfl := htaken.eq_of_rest_nil hend
  constructor
  · intro z hz
    rcases hrounds.stops hsteady htaken with rfl | ⟨z', hz', hstop⟩
    · simp at hz
    · obtain rfl := Option.some.inj (hz.symm.trans hz')
      exact hstop
  · intro behind
    obtain ⟨d, hrounds', hd⟩ := hrounds.transfer (d := .ofList (front ++ behind)) hsteady htaken
      (fun _ _ => trivial) rfl
    have hall : members (.ofList (front ++ behind)) =
        ⟨(), (members d).cursor, trace ++ (members d).trace⟩ := hrounds'.repeatWhile_eq
    rw [hall, hmembers]
    exact ⟨d, hd, rfl, rfl⟩

/-- **Declarations are parsed independently of what follows.**  If a text has no
diagnostics and no fields at its top, then with a line feed and any other text behind
it the declarations of both are found, each tree as it was but for its trivia and its
place, and the diagnostics are those of the other text in their new places. -/
theorem exists_parse_append
    {a : Text}
    {p : Parse Kind}
    (hp : parse? a = some p)
    (hquiet : p.diagnostics = [])
    (hfields : ∀ n ∈ p.root.node.childNodes, n.kind ≠ .containerField)
    (b : Text) :
    ∃ q r,
      parse? b = some q ∧
      parse? (a ++ '\n' :: b) = some r ∧
      r.root.node.childNodes.map Node.placed =
        p.root.node.childNodes.map Node.placed ++
          (q.root.node.childNodes.map Node.placed).map (Shape.map (Located.shift (a.size + 1))) ∧
      r.diagnostics = q.diagnostics.map (Diagnostic.shift (a.size + 1)) := by
  obtain ⟨before, reports, htakes, -, hleads⟩ := exists_leads_members (tokensOf (lex a))
  obtain ⟨behind, reports', htakes', hend', hleads'⟩ := exists_leads_members (tokensOf (lex b))
  obtain ⟨p', hp', hplexemes, hpoutline, -, hlength⟩ := exists_parse_of_leads rfl rfl hleads
  obtain rfl : p = p' := Option.some.inj (hp.symm.trans hp')
  obtain rfl : reports = 0 := by rw [← hlength, hquiet]; rfl
  obtain ⟨q, hq, hqlexemes, hqoutline, hqdiagnostics, -⟩ := exists_parse_of_leads rfl rfl hleads'
  have hnone : ∀ grandchildren, .node .containerField grandchildren ∉ before := by
    intro grandchildren hmem
    obtain ⟨n, hn, houtline⟩ := Root.exists_childNode_of_mem hpoutline
      (List.mem_append_left _ (List.mem_reverse.mpr hmem))
    exact hfields n hn (Shape.node.inj houtline).1
  obtain ⟨hstops, hfound⟩ := members_append hleads hnone
  have hlast : ∀ l ∈ (tokensOf (lex a)).getLast?, l.kind = .stringLiteralMulti →
      ¬ Scan.Marked b := by
    intro l hl hmulti
    rcases hstops l hl with hstop | hstop | hstop <;> simp [hmulti] at hstop
  have hplaces := places_lex_lineFeed 0 a b hlast
  rw [Nat.zero_add] at hplaces
  -- The members of the whole are those of the first text, and then those of the second.
  obtain ⟨d, hd, htrace, hcursor⟩ := hfound (tokensOf (lex b))
  have hrest : d.rest = tokensOf (lex b) := List.append_cancel_left hd.rest.symm
  have hstep : members.InStep (.ofList (tokensOf (lex b))) d (tokensOf (lex b)) :=
    steady_members.inStep htakes' (by rw [hrest, List.append_nil]) (.inl hend')
  rw [hstep.trace] at htrace
  have hfirst := hleads.exchange htakes hd []
  have hsecond := (hleads'.over before).exchange htakes' hstep.takes []
  have hboth := hfirst.trans hsecond
  rw [← hcursor] at hboth
  obtain ⟨r, hr, hrlexemes, hroutline, hrdiagnostics, -⟩ :=
    exists_parse_of_leads (tokensOf_lex_lineFeed a b hlast) htrace hboth
  refine ⟨q, r, hq, hr, ?_, ?_⟩
  · refine Root.map_placed_childNodes_append hpoutline hqoutline ?_ ?_
    · rw [hroutline, List.reverse_append, List.append_assoc]
    · rw [hplexemes, hqlexemes, hrlexemes, hplaces]
  · have hreports : 0 = 0 + Trace.reports _ := hleads.reports
    rw [hrdiagnostics, hqdiagnostics]
    exact Trace.errors_joined hplaces (by omega) (hleads.advances_eq rfl htakes)

/-- A constant stays what it is in front of a stray parenthesis, which is still the only
one to be reported. -/
theorem exists_parse_append_stray :
    ∃ p q r,
      parse? "const x = 1; // one".toList = some p ∧
      p.diagnostics = [] ∧
      (∀ n ∈ p.root.node.childNodes, n.kind ≠ .containerField) ∧
      parse? ")".toList = some q ∧
      parse? "const x = 1; // one\n)".toList = some r ∧
      r.root.node.childNodes.map Node.placed =
        p.root.node.childNodes.map Node.placed ++
          (q.root.node.childNodes.map Node.placed).map (Shape.map (Located.shift 20)) ∧
      r.diagnostics = q.diagnostics.map (Diagnostic.shift 20) := by
  have hsome : ∃ p, parse? "const x = 1; // one".toList = some p ∧
      (p.diagnostics == [] && p.root.node.childNodes.all fun n => n.kind != .containerField) =
        true := by
    rw [← Option.any_eq_true]
    decide +kernel
  obtain ⟨p, hp, hgood⟩ := hsome
  simp only [Bool.and_eq_true, beq_iff_eq, List.all_eq_true, bne_iff_ne] at hgood
  obtain ⟨q, r, hq, hr, hnodes, hdiagnostics⟩ :=
    exists_parse_append hp hgood.1 hgood.2 ")".toList
  exact ⟨p, q, r, hp, hgood.1, hgood.2, hq, hr, hnodes, hdiagnostics⟩

end Zig
end ZigCst
