import ZigCst.Proofs.Following
import ZigCst.Proofs.ZigCongruence
import ZigCst.Proofs.ZigForms

/-!
# Declarations and the lexeme behind their keyword

A declaration starts with its keyword, up to what may stand in front of that.  The parser
makes a name of the lexeme behind the keyword if this is an identifier, and else leaves the
name out or puts an error in its place.  So a node for a declaration tells whether an
identifier stands behind its keyword in the file, also where the node has no name and the
next lexeme belongs to a node further out.

**Definitions.**
* `declarationKeywords`: the keywords of a kind of declaration.
* `Announced`: what the children of a declaration hold behind the keyword.
* `Announces`, `AnnouncesValue`: what is parsed announces a declaration.

**Results.**
* `announces_varDecl`, `announces_fnProto`, `announcesValue_declBody`: what the grammar
  announces.
* `conserving_level`: no level of nesting changes the order of the leaves.
* `exists_followed_sourceFile`: every file has a tree in which declarations are announced.
-/

namespace ZigCst
namespace Zig

open Pattern ZigCst.Parser

/-! ## Keywords and the lexemes behind them -/

/-- The keywords in front of the name of a declaration. -/
def declarationKeywords : Kind → List Kind
  | .varDecl => [.constKw, .varKw]
  | .fnDecl => [.fnKw]
  | _ => []

/-- Whether the children of a declaration hold its keyword, and behind it an identifier,
unless the lexeme behind the keyword is none.  The leaves are those from the first child to
the end of the file. -/
def Announced (kind : Kind) (leaves : List Kind) (children : List (Shape Kind Kind)) : Prop :=
  ∃ before keyword behind,
    children = before ++ .leaf keyword :: behind ∧
    keyword ∈ declarationKeywords kind ∧
    ((∃ others, behind = .node .ident [.leaf .identifier] :: others) ∨
      ∃ next, leaves = before.flatMap Shape.leaves ++ keyword :: next ∧
        next.head? ≠ some .identifier)

/-- What is asked of a declaration with regard to what stands behind it. -/
def AnnouncedBefore (kind : Kind) (children : List (Shape Kind Kind)) (rest : List Kind) : Prop :=
  kind ∈ declarationKinds → Announced kind (children.flatMap Shape.leaves ++ rest) children

/-- Behind the children of a declaration, others may follow. -/
theorem Announced.append
    {kind : Kind}
    {leaves : List Kind}
    {children : List (Shape Kind Kind)}
    (h : Announced kind leaves children)
    (more : List (Shape Kind Kind)) :
    Announced kind leaves (children ++ more) := by
  obtain ⟨before, keyword, behind, rfl, hkeyword, hbehind⟩ := h
  refine ⟨before, keyword, behind ++ more, by simp, hkeyword, hbehind.imp_left ?_⟩
  rintro ⟨others, rfl⟩
  exact ⟨others ++ more, rfl⟩

/-- What stands behind the keyword of a declaration. -/
theorem Announced.exists_behind
    {kind : Kind}
    {children : List (Shape Kind Kind)}
    {rest : List Kind}
    (h : Announced kind (children.flatMap Shape.leaves ++ rest) children) :
    ∃ before keyword behind,
      children = before ++ Shape.leaf keyword :: behind ∧
      keyword ∈ declarationKeywords kind ∧
      ((behind.flatMap Shape.leaves ++ rest).head? = some .identifier →
        ∃ others, behind = Shape.node Kind.ident [Shape.leaf Kind.identifier] :: others) := by
  obtain ⟨before, keyword, behind, rfl, hkeyword, hbehind⟩ := h
  refine ⟨before, keyword, behind, rfl, hkeyword, fun hhead => hbehind.resolve_right ?_⟩
  rintro ⟨next, hleaves, hnext⟩
  have hsame : behind.flatMap Shape.leaves ++ rest = next := by
    simpa [List.flatMap_append] using hleaves
  exact hnext (hsame ▸ hhead)

/-! ## Parsers of declarations -/

section Parsers

variable {α β : Type} {c : Cursor Kind} {kind : Kind}

/-- The first of two parsers conserves, which makes a relation of it. -/
abbrev Conserving ⦃α : Type⦄ (_ p : Parser Kind α) : Prop := p.Conserves AnnouncedBefore

/-- Whether, on drafts, what is parsed at a cursor announces a declaration of a kind. -/
def Announces (kind : Kind) (p : Parser Kind α) (c : Cursor Kind) : Prop :=
  ∀ children, p.Draws ⟨c, children⟩ fun _ t =>
    Announced kind (Desk.mk c children).leaves t.shapes

/-- Whether, on drafts, what is parsed at a cursor announces a declaration of the kind
that it turns out to have. -/
def AnnouncesValue (p : Parser Kind Kind) (c : Cursor Kind) : Prop :=
  ∀ children, p.Draws ⟨c, children⟩ fun kind t =>
    kind ∈ declarationKinds → Announced kind (Desk.mk c children).leaves t.shapes

/-- What comes first may be anything that keeps the order of the leaves. -/
theorem AnnouncesValue.seq
    {p : Parser Kind α}
    {f : α → Parser Kind Kind}
    (hp : Conserving p p)
    (hf : ∀ a c, AnnouncesValue (f a) c) :
    AnnouncesValue (p >>= f) c := by
  intro children
  refine (hp ⟨c, children⟩).bind fun a t ht => ?_
  refine (hf a t.cursor t.children).mono fun kind u hu hkind => ?_
  rw [← ht.leaves_eq]
  exact hu hkind

/-- Other kinds of nodes announce nothing. -/
theorem AnnouncesValue.of_gives
    {p : Parser Kind Kind}
    (hgives : p.Gives (· ∉ declarationKinds))
    (hp : Conserving p p) :
    AnnouncesValue p c := fun children =>
  (hp ⟨c, children⟩).outcome.mono fun _ _ ⟨hkind, _⟩ hmem => absurd hmem (hkind ▸ hgives c)

theorem AnnouncesValue.ite
    {holds : Bool}
    {p q : Parser Kind Kind}
    (hp : holds = true → AnnouncesValue p c)
    (hq : holds = false → AnnouncesValue q c) :
    AnnouncesValue (if holds then p else q) c := by
  cases holds with
  | true => exact hp rfl
  | false => exact hq rfl

/-- What looks only goes on with what it has seen. -/
theorem announcesValue_bind_of_eq
    {p : Parser Kind α}
    {f : α → Parser Kind Kind}
    {a : α}
    (hp : p c = ⟨a, c, []⟩) :
    AnnouncesValue (p >>= f) c ↔ AnnouncesValue (f a) c := by
  simp only [AnnouncesValue, draws_bind_of_eq (s := ⟨c, _⟩) hp]

/-- The combinators conserve, but for the nodes of declarations. -/
theorem congruence_conserving : Congruence (· ∉ declarationKinds) @Conserving :=
  congruence_conserves (by decide) fun _ hfree _ _ hmem => absurd hmem hfree

/-- What is announced stays so, whatever children are added. -/
theorem draws_announced
    {p : Parser Kind α}
    {F : α → List (Pattern Kind)}
    {leaves : List Kind}
    {children : List (Marked Kind)}
    (hp : p.Forms Rule c F)
    (h : Announced kind leaves (Desk.mk c children).shapes) :
    p.Draws ⟨c, children⟩ fun _ t => Announced kind leaves t.shapes := by
  refine (hp children).mono ?_
  rintro a ⟨d, _⟩ ⟨ms, rfl, -⟩
  rw [Desk.shapes_append]
  exact h.append _

/-- The kind is known where a declaration has been announced. -/
theorem draws_announced_value
    {p : Parser Kind α}
    {F : α → List (Pattern Kind)}
    {leaves : List Kind}
    {children : List (Marked Kind)}
    (hp : p.Forms Rule c F)
    (h : Announced kind leaves (Desk.mk c children).shapes) :
    (p >>= fun _ => pure kind).Draws ⟨c, children⟩ fun found t =>
      found ∈ declarationKinds → Announced found leaves t.shapes :=
  (draws_announced hp h).bind fun _ _ ht => draws_pure fun _ => ht

theorem Announces.value
    {p : Parser Kind α}
    (h : Announces kind p c) :
    AnnouncesValue (p >>= fun _ => pure kind) c := fun children =>
  (h children).bind fun _ _ ht => draws_pure fun _ => ht

/-- The node of a declaration that has been announced conserves. -/
theorem AnnouncesValue.draws_nodeOf
    {p : Parser Kind Kind}
    (h : AnnouncesValue p c)
    (hp : Conserving p p)
    (children : List (Marked Kind)) :
    (nodeOf p).Draws ⟨c, children⟩ fun _ t =>
      Desk.Conserved AnnouncedBefore ⟨c, children⟩ t := by
  refine draws_nodeOf_conserved hp (((hp ⟨c, []⟩).and (h [])).mono ?_)
  rintro kind t ⟨hconserved, ht⟩ hkind
  have hleaves : (Desk.mk c []).leaves = t.shapes.flatMap Shape.leaves ++ t.cursor.ahead :=
    hconserved.leaves_eq.symm
  exact hleaves ▸ ht hkind

/-- A keyword that no identifier follows announces a declaration by itself. -/
theorem announced_of_ne
    {keyword : Kind}
    {children : List (Marked Kind)}
    (hpeek : c.peek = keyword)
    (hkeyword : keyword ∈ declarationKeywords kind)
    (heof : keyword ≠ .eof)
    (hnext : c.next.peek ≠ .identifier) :
    Announced kind (Desk.mk c children).leaves
      (Desk.mk c.next (.leaf (.lexeme keyword) :: children)).shapes := by
  refine ⟨(Desk.mk c children).shapes, keyword, [], Desk.shapes_cons _ _ _, hkeyword,
    .inr ⟨c.next.ahead, ?_, ?_⟩⟩
  · rw [Desk.leaves, Cursor.ahead, Cursor.kinds_of_peek hpeek heof]
    rfl
  · intro hhead
    apply hnext
    rw [Cursor.peek, Cursor.nth]
    rw [Cursor.ahead] at hhead
    cases hkinds : c.next.kinds with
    | nil => simp [hkinds] at hhead
    | cons kind kinds => simpa [hkinds] using hhead

/-- A keyword with the identifier behind it announces a declaration. -/
theorem announced_of_ident
    {keyword : Kind}
    {leaves : List Kind}
    {children : List (Marked Kind)}
    (hkeyword : keyword ∈ declarationKeywords kind)
    (d : Cursor Kind) :
    Announced kind leaves (Desk.mk d
      (.node .ident [.leaf (.lexeme .identifier)] :: .leaf (.lexeme keyword) :: children)).shapes :=
  ⟨(Desk.mk d children).shapes, keyword, [.node .ident [.leaf .identifier]], by simp, hkeyword,
    .inl ⟨[], rfl⟩⟩

/-- An identifier that is next becomes a node. -/
theorem draws_name_at
    (hpeek : c.peek = .identifier)
    (recovery : KindSet Kind)
    (children : List (Marked Kind)) :
    (name recovery : Parser Kind Unit).Draws ⟨c, children⟩ fun _ t =>
      t.children = .node .ident [.leaf (.lexeme .identifier)] :: children := by
  rw [name, at_, routine_eq, draws_bind_of_eq (s := ⟨c, children⟩) (nthAt_cursor 0 _),
    show (c.nth 0 == .identifier) = true from beq_iff_eq.mpr hpeek]
  refine draws_discard (draws_nodeOf ?_)
  exact (draws_advance_peek (Q := fun _ t => t.children = [.leaf (.lexeme .identifier)]) hpeek
    (by decide) rfl).bind fun _ t ht => draws_pure (by rw [ht]; rfl)

section Levels

variable {inner : Level} (h : inner.Regular)
include h

theorem announces_varDecl (hpeek : c.peek ∈ [.constKw, .varKw]) :
    Announces .varDecl (varDecl inner) c := by
  have heof : c.peek ≠ .eof := fun heq => by simp [heq] at hpeek
  intro children
  refine (draws_advance_peek (Q := fun _ t => t = ⟨c.next, .leaf (.lexeme c.peek) :: children⟩) rfl
    heof rfl).bind ?_
  rintro _ _ rfl
  refine Draws.bind (P := fun _ t => Announced .varDecl (Desk.mk c children).leaves t.shapes) ?_
    fun _ t ht => draws_announced (forms_typeAndValue h) ht
  by_cases hname : c.next.peek = .identifier
  · refine (draws_name_at hname _ _).mono ?_
    rintro _ ⟨d, _⟩ rfl
    exact announced_of_ident hpeek d
  · exact draws_announced (forms_name _) (announced_of_ne rfl hpeek heof hname)

/-- In front of the keyword, there may be another one. -/
theorem announces_comptime
    (hpeek : c.peek = .comptimeKw)
    (hnext : c.nth 1 ∈ [.constKw, .varKw]) :
    Announces .varDecl (do advance; varDecl inner) c := by
  have hkeyword : c.next.peek ∈ [.constKw, .varKw] := by
    rwa [← Cursor.nth_next hpeek (by decide) 0] at hnext
  intro children
  refine (congruence_conserving.advance ⟨c, children⟩).outcome.bind ?_
  rintro _ ⟨d, _⟩ ⟨-, hd, hconserved⟩
  obtain rfl : d = c.next := hd.trans cursor_advance
  rw [← hconserved.leaves_eq]
  exact announces_varDecl h hkeyword _

theorem announces_fnProto : Announces .fnDecl (fnProto inner) c := by
  intro children
  rw [fnProto, at_, routine_eq, draws_bind_of_eq (s := ⟨c, children⟩) (nthAt_cursor 0 _)]
  refine (draws_ensure (Q := fun _ t => t = ⟨c, children⟩ ∧ c.peek = .fnKw)
    fun heq => ⟨rfl, beq_iff_eq.mp heq⟩).bind ?_
  rintro _ _ ⟨rfl, hpeek⟩
  refine (draws_advance_peek (Q := fun _ t => t = ⟨c.next, .leaf (.lexeme .fnKw) :: children⟩)
    hpeek (by decide) rfl).bind ?_
  rintro _ _ rfl
  rw [at_, draws_bind_of_eq (s := ⟨c.next, _⟩) (nthAt_cursor 0 _)]
  by_cases hname : c.next.peek = .identifier
  · rw [show (c.next.nth 0 == .identifier) = true from beq_iff_eq.mpr hname]
    refine (draws_name_at hname _ _).bind ?_
    rintro _ ⟨d, _⟩ rfl
    exact draws_announced (forms_signature h) (announced_of_ident List.mem_cons_self d)
  · rw [show (c.next.nth 0 == .identifier) = false from beq_eq_false_iff_ne.mpr hname]
    exact draws_announced (forms_signature h)
      (announced_of_ne hpeek List.mem_cons_self (by decide) hname)

variable (hrelated : LevelOf.Related Conserving inner inner)
include hrelated

/-- A statement starts with a keyword where it is a declaration. -/
theorem conserving_statement : Conserving (statement inner) (statement inner) := by
  have hR := congruence_conserving
  have hbody := related_statementBody hR hrelated
  have hvarDecl := related_varDecl hR hrelated
  have hcomptime := hR.seq hR.advance hvarDecl
  rintro ⟨c, children⟩
  have hvariable : c.peek ∈ [.constKw, .varKw] →
      (discard (node .varDecl (varDecl inner)) : Parser Kind Unit).Draws ⟨c, children⟩ fun _ t =>
        Desk.Conserved AnnouncedBefore ⟨c, children⟩ t := fun hpeek =>
    draws_discard ((announces_varDecl h hpeek).value.draws_nodeOf
      (hR.seq hvarDecl (hR.pure Kind.varDecl)) children)
  have hconstant : c.peek = .comptimeKw → c.nth 1 ∈ [.constKw, .varKw] →
      (discard (node .varDecl do advance; varDecl inner) : Parser Kind Unit).Draws ⟨c, children⟩
        fun _ t => Desk.Conserved AnnouncedBefore ⟨c, children⟩ t := fun hpeek hnext =>
    draws_discard ((announces_comptime h hpeek hnext).value.draws_nodeOf
      (hR.seq hcomptime (hR.pure Kind.varDecl)) children)
  rw [statement, peek, routine_eq, draws_bind_of_eq (s := ⟨c, children⟩) (nth_cursor 0),
    draws_bind_of_eq (s := ⟨c, children⟩) (nth_cursor 1)]
  split
  · exact hconstant ‹_› (by simp [*])
  · exact hconstant ‹_› (by simp [*])
  · exact hvariable (by simp [Cursor.peek, *])
  · exact hvariable (by simp [Cursor.peek, *])
  · exact related_deferStatement hR hrelated _
  · exact related_deferStatement hR hrelated _
  · exact hR.discard (hR.node (by decide) (hR.seq hR.advance hbody)) _
  · exact hR.bump _ _
  · exact hR.bump _ _
  · exact hR.bump _ _
  · exact hR.bump _ _
  · exact hR.discard (hR.node (by decide) hbody) _

/-- So does what may be a declaration in a container. -/
theorem announcesValue_declBody : AnnouncesValue (declBody inner) c := by
  have hR := congruence_conserving
  refine .seq (hR.skip _) fun _ c => .seq (hR.eat _) fun _ c => .ite (fun _ => ?_) fun _ => ?_
  · refine .of_gives ?_ (hR.seq (hR.discard hrelated.expr) <| hR.seq (hR.expect _) (hR.pure _))
    exact gives_bind fun _ => gives_bind fun _ => gives_pure (by decide)
  refine .seq (related_linkage hR) fun _ c => ?_
  refine (announcesValue_bind_of_eq (nthAt_cursor 0 _)).mpr (.ite (fun _ => ?_) fun _ => ?_)
  · intro children
    refine (announces_fnProto h children).bind fun _ t ht => ?_
    rw [at_, draws_bind_of_eq (nthAt_cursor 0 _)]
    cases t.cursor.nth 0 == .leftBrace with
    | true => exact draws_announced_value (forms_block h) ht
    | false => exact draws_announced_value (forms_expect (by decide)) ht
  refine .seq (hR.skip _) fun _ c => ?_
  refine (announcesValue_bind_of_eq (nthAt_cursor 0 _)).mpr ?_
  refine (announcesValue_bind_of_eq (nthAt_cursor 0 _)).mpr (.ite (fun hpeek => ?_) fun _ => ?_)
  · exact (announces_varDecl h (by simpa [Cursor.peek] using hpeek)).value
  · refine .of_gives ?_ (hR.seq (hR.report _) (hR.pure _))
    exact gives_bind fun _ => gives_pure (by decide)

theorem conserving_declarations : LevelOf.RelatesDeclarations Conserving inner inner := by
  have hstatement := conserving_statement h hrelated
  have hdecl := related_declBody congruence_conserving hrelated hstatement
  exact ⟨hstatement, fun ⟨_, children⟩ =>
    (announcesValue_declBody h hrelated).draws_nodeOf hdecl children⟩

end Levels

/-- All levels conserve. -/
theorem conserving_level (depth : Nat) :
    LevelOf.Related Conserving (level depth) (level depth) := by
  have hR := congruence_conserving
  induction depth with
  | zero =>
      have hfail : Conserving (do tooDeep; return none : NodeParser) (do tooDeep; return none) :=
        hR.seq hR.tooDeep (hR.pure none)
      exact ⟨hfail, hfail, hfail, fun _ _ hp => hp⟩
  | succ depth ih =>
      obtain ⟨hexpr, hoperand, htype⟩ :=
        related_levelOver hR ih (conserving_declarations (regular_level depth) ih)
      exact ⟨hexpr, hoperand, htype, fun _ _ hp => hp⟩

end Parsers

/-- Every file has a tree in which declarations are announced, and at whose end stands the
end of file. -/
theorem exists_followed_sourceFile (text : Text) :
    ∃ p shapes,
      parse? text = some p ∧
      p.root.outline = .node .sourceFile (shapes ++ [Shape.leaf Kind.eof]) ∧
      p.root.outline.Followed AnnouncedBefore [] := by
  have hlevel := conserving_level maxDepth
  have hmembers : Conserving (containerMembers (level maxDepth) false)
      (containerMembers (level maxDepth) false) :=
    related_containerMembers congruence_conserving hlevel
      (conserving_declarations (regular_level maxDepth) hlevel) false
  exact exists_followed (by decide) (ends_containerMembers (sound_level maxDepth)) hmembers
    (fun _ hmem => absurd hmem (by decide)) text

end Zig
end ZigCst
