import ZigCst.Proofs.Soundness
import ZigCst.Zig.Parse

/-!
# The Zig grammar is sound

Every parser of the grammar adds children to the innermost node and nothing else,
from every site, and no loop of it turns without consuming something.  The parts
of the grammar are sound as soon as the parsers one level further in are; the
levels follow by induction on the depth.

**Results.**
* `Level.Sound`: the three parsers of a level plant one node each.
* `sound_level`: all levels are sound.
* `ends_containerMembers`: the members of a file end at its end.
-/

namespace ZigCst
namespace Zig

open ZigCst.Parser

/-- The parsers of a level plant one node each. -/
structure Level.Sound (inner : Level) : Prop where
  expr : inner.expr.Plants
  operand : inner.operand.Plants
  type : inner.type.Plants

/-! ## Common parts -/

section Lists

theorem plants_name (recovery : KindSet Kind) : (name recovery : Parser Kind Unit).Plants := by
  intro s
  rw [name, routine_eq, ends_at_bind]
  split
  · exact (plants_node (by decide) sound_advance).discard s
  · exact plants_recover _ recovery s

theorem sound_name (recovery : KindSet Kind) : (name recovery : Parser Kind Unit).Sound :=
  (plants_name recovery).sound

variable {item : Parser Kind Unit} (hitem : item.Sound)
include hitem

/-- A list goes on only after a comma or an item that took something. -/
theorem turns_itemAndComma
    (closing : Kind)
    (what : Item) :
    (itemAndComma closing what item).Turns id := by
  intro s
  rw [itemAndComma, ends_at_bind, ends_atEnd_bind]
  split
  · exact ends_pure ⟨.refl s, by simp⟩
  rename_i hend
  have hleft : 0 < s.left := Site.left_pos_iff.mpr (by simp_all)
  rw [ends_at_bind]
  split
  · exact ((eats_bump _).ends hleft).bind fun _ t ht => ends_pure ⟨ht.1, fun _ => ht.2⟩
  refine Ends.bind (P := fun moved t => s.Grows t ∧ (moved = true → t.left < s.left)) ?_ ?_
  · exact ends_moves ((hitem s).mono fun _ t ht => ⟨ht, by simp⟩)
  intro moved t ht
  cases moved with
  | false => exact ends_pure ⟨ht.1, by simp⟩
  | true =>
      have hmoved := ht.2 rfl
      refine (sound_eat Kind.comma t).bind fun found u hu => ?_
      have hless : u.left < s.left := Nat.lt_of_le_of_lt hu.left hmoved
      cases found with
      | true => exact ends_pure ⟨ht.1.trans hu, fun _ => hless⟩
      | false =>
          simp only [Bool.false_eq_true, if_false, ends_at_bind, ends_atAny_bind]
          split
          · exact ends_pure ⟨ht.1.trans hu, by simp⟩
          · refine (sound_expect Kind.comma u).bind fun _ v hv => ends_pure ?_
            exact ⟨(ht.1.trans hu).trans hv, fun _ => Nat.lt_of_le_of_lt hv.left hless⟩

theorem sound_delimited
    (opening closing : Kind)
    (what : Item) :
    (delimited opening closing what item).Sound :=
  (sound_expect opening).seq <|
    (sound_repeatWhile (turns_itemAndComma hitem closing what)).seq <| sound_expect closing

end Lists

section Parts

variable {inner : Level} (h : inner.Sound)
include h

theorem sound_condition : (condition inner).Sound :=
  (sound_expect _).seq <| h.expr.sound.discard.seq <| sound_expect _

/-! ## Assignments, captures and branches -/

theorem plants_assignExpr : (assignExpr inner).Plants := by
  intro s
  refine (h.expr s).bind fun found t ht => ?_
  cases found with
  | none => exact ends_pure ht
  | some lhs =>
      rw [ends_peek_bind]
      split
      · exact ends_wrap_of_plants ht (by decide) (sound_advance.seq h.expr.sound.discard)
      · exact ends_pure ht

omit h in
/-- Captures go on only after a comma. -/
theorem turns_capture : (capture : Parser Kind Bool).Turns id :=
  (sound_skip _).bind_turns fun _ => (sound_name _).bind_turns fun _ => turns_eat (by decide)

omit h in
theorem sound_payload : (payload : Parser Kind Unit).Sound := by
  refine (sound_at _).bind fun _ => Sound.ite ?_ (sound_pure _)
  refine (sound_node (by decide) ?_).discard
  exact sound_advance.seq <| (sound_repeatWhile turns_capture).seq <| sound_expect _

theorem sound_elseBranch : (elseBranch inner).Sound := by
  refine (sound_at _).bind fun _ => Sound.ite ?_ (sound_pure _)
  refine (sound_node (by decide) ?_).discard
  exact sound_advance.seq <| sound_payload.seq (plants_assignExpr h).sound.discard

theorem plants_ifExpr : (ifExpr inner).Plants := by
  refine plants_node (by decide) ?_
  exact sound_advance.seq <| (sound_condition h).seq <| sound_payload.seq <|
    (plants_assignExpr h).sound.discard.seq <| sound_elseBranch h

/-- Cases go on only after a comma. -/
theorem turns_switchItem : (switchItem inner).Turns id := by
  have hcomma : (do
      if ← eat .comma then return !(← at_ .fatArrow)
      else return false : Parser Kind Bool).Turns id := by
    intro s
    refine (turns_eat (by decide) s).bind fun found t ht => ?_
    cases found with
    | false => exact ends_pure ⟨ht.1, by simp⟩
    | true =>
        rw [if_pos rfl, ends_at_bind]
        exact ends_pure ⟨ht.1, fun _ => ht.2 rfl⟩
  refine h.expr.sound.discard.bind_turns fun _ => (sound_eat _).bind_turns fun found => ?_
  cases found with
  | false => exact hcomma
  | true => exact h.expr.sound.discard.bind_turns fun _ => hcomma

theorem sound_switchProng : (switchProng inner).Sound := by
  refine (sound_node (by decide) ?_).discard
  refine (sound_skip _).seq <| Sound.seq ?_ <| (sound_expect _).seq <| sound_payload.seq <|
    (plants_assignExpr h).sound.discard
  refine (sound_node (by decide) ?_).discard
  refine (sound_eat _).bind fun _ => Sound.ite (sound_pure _) ?_
  exact sound_repeatWhile (turns_switchItem h)

theorem plants_switchExpr : (switchExpr inner).Plants := by
  refine plants_node (by decide) ?_
  exact sound_advance.seq <| (sound_condition h).seq <| sound_delimited (sound_switchProng h) _ _ _

theorem sound_argList : (argList inner).Sound :=
  (sound_node (by decide) (sound_delimited h.expr.sound.discard _ _ _)).discard

theorem sound_initializer : (initializer inner).Sound := by
  refine (sound_at _).bind fun _ => (sound_nthAt _ _).bind fun _ => ?_
  refine (sound_nthAt _ _).bind fun _ => ?_
  refine Sound.ite ?_ h.expr.sound.discard
  refine (sound_node (by decide) ?_).discard
  exact sound_advance.seq <| (sound_name _).seq <| sound_advance.seq h.expr.sound.discard

theorem plants_initList : (initList inner).Plants := by
  refine plants_node (by decide) ?_
  exact (sound_skip _).seq <| sound_delimited (sound_initializer h) _ _ _

/-! ## Clauses, parameters and function prototypes -/

theorem eats_alignClause : (alignClause inner).Eats := by
  intro s
  refine ends_discard (eats_node (by decide) ?_ s)
  refine eats_advance.bind fun _ => (sound_expect _).seq <| h.expr.sound.discard.seq <|
    (sound_eat _).bind fun found => ?_
  cases found with
  | false => exact sound_expect _
  | true =>
      exact h.expr.sound.discard.seq <| (sound_expect _).seq <| h.expr.sound.discard.seq <|
        sound_expect _

theorem eats_keywordClause
    {kind : Kind}
    (hkind : kind ≠ Vocabulary.tombstone) :
    (keywordClause inner kind).Eats :=
  fun s => ends_discard (eats_node hkind (eats_advance.bind fun _ => sound_condition h) s)

/-- Where there is a clause, it is consumed. -/
theorem turns_clause (ofFunction : Bool) : (clause inner ofFunction).Turns id := by
  intro s
  rw [clause, ends_peek_bind]
  split
  · rename_i hpeek
    exact ((eats_alignClause h).ends_true (Site.left_pos_of_peek hpeek (by decide))).turn
  · rename_i hpeek
    exact ((eats_keywordClause h (by decide)).ends_true
      (Site.left_pos_of_peek hpeek (by decide))).turn
  · rename_i hpeek
    exact ((eats_keywordClause h (by decide)).ends_true
      (Site.left_pos_of_peek hpeek (by decide))).turn
  · rename_i hpeek
    split
    · exact ((eats_keywordClause h (by decide)).ends_true
        (Site.left_pos_of_peek hpeek (by decide))).turn
    · exact ends_pure ⟨.refl s, by simp⟩
  · exact ends_pure ⟨.refl s, by simp⟩

theorem sound_clauses (ofFunction : Bool) : (clauses inner ofFunction).Sound :=
  sound_repeatWhile (turns_clause h ofFunction)

/-- Clauses that start with an alignment or an address space are consumed. -/
theorem ends_clauses_eats
    {s : Site Kind}
    (ofFunction : Bool)
    (hpeek : s.peek = .alignKw ∨ s.peek = .addrspaceKw) :
    (clauses inner ofFunction).Ends s fun _ t => s.Grows t ∧ t.left < s.left := by
  refine ends_repeatWhile_of_first (turns_clause h ofFunction) ?_
  refine Ends.mono (P := fun again t => again = true ∧ s.Grows t ∧ t.left < s.left) ?_
    fun _ _ ht => ht.2
  rw [clause, ends_peek_bind]
  rcases hpeek with hpeek | hpeek <;> rw [hpeek]
  · exact (eats_alignClause h).ends_true (Site.left_pos_of_peek hpeek (by decide))
  · exact (eats_keywordClause h (by decide)).ends_true (Site.left_pos_of_peek hpeek (by decide))

omit h in
theorem sound_fieldName : (fieldName : Parser Kind Unit).Sound := by
  refine (sound_at _).bind fun _ => (sound_nthAt _ _).bind fun _ => ?_
  exact Sound.ite ((sound_name _).seq sound_advance) (sound_pure _)

theorem sound_paramBody : (paramBody inner).Sound := by
  refine sound_fieldName.seq <| sound_peek.bind fun kind => ?_
  split
  · exact sound_advance
  · exact sound_advance
  · exact h.type.sound.discard

theorem sound_param : (param inner).Sound := by
  refine (sound_node (by decide) ?_).discard
  refine (sound_eat _).bind fun _ => Sound.ite (sound_paramBody h) ?_
  exact (sound_skip _).seq (sound_paramBody h)

theorem sound_paramList : (paramList inner).Sound :=
  (sound_node (by decide) (sound_delimited (sound_param h) _ _ _)).discard

/-- A prototype is only asked for at its keyword. -/
theorem ends_fnProto
    {s : Site Kind}
    (hpeek : s.peek = .fnKw) :
    (fnProto inner).Ends s fun _ t => s.Grows t := by
  rw [fnProto, routine_eq, ends_at_bind]
  refine Ends.bind (P := fun _ t => t = s) (ends_ensure (by simp [hpeek]) rfl) ?_
  rintro _ _ rfl
  refine sound_advance.seq ((sound_at _).bind fun _ => ?_) _
  refine Sound.ite ((sound_name _).seq ?hparams) ?hparams
  refine (sound_at _).bind fun _ => ?_
  refine Sound.ite ((sound_paramList h).seq ?hreturn) ((sound_report _).seq ?hreturn)
  refine (sound_clauses h true).seq <| (sound_skip _).seq <|
    (sound_at _).bind fun _ => (sound_at _).bind fun _ => ?_
  exact Sound.ite (sound_report _) h.type.sound.discard

theorem sound_varDecl : (varDecl inner).Sound := by
  refine sound_advance.seq <| (sound_name _).seq <| (sound_eat _).bind fun _ => ?_
  refine Sound.ite (h.type.sound.discard.seq ?hclauses) ?hclauses
  refine (sound_clauses h false).seq <| (sound_eat _).bind fun _ => ?_
  exact Sound.ite (h.expr.sound.discard.seq (sound_expect _)) (sound_expect _)

/-! ## Statements and blocks -/

theorem sound_statementBody : (statementBody inner).Sound := by
  refine (plants_assignExpr h).sound.bind fun found => ?_
  cases found with
  | none => exact sound_pure _
  | some kind => exact sound_prev.bind fun _ => Sound.ite (sound_pure _) (sound_expect _)

theorem sound_deferStatement : (deferStatement inner).Sound := by
  refine (sound_node (by decide) ?_).discard
  refine (sound_eat _).bind fun _ => ?_
  exact Sound.ite (sound_payload.seq (sound_statementBody h))
    (sound_advance.seq (sound_statementBody h))

theorem sound_statement : (statement inner).Sound := by
  have hvarDecl := sound_varDecl h
  have hbody := sound_statementBody h
  refine sound_peek.bind fun kind => (sound_nth _).bind fun next => ?_
  split
  · exact (sound_node (by decide) (sound_advance.seq hvarDecl)).discard
  · exact (sound_node (by decide) (sound_advance.seq hvarDecl)).discard
  · exact (sound_node (by decide) hvarDecl).discard
  · exact (sound_node (by decide) hvarDecl).discard
  · exact sound_deferStatement h
  · exact sound_deferStatement h
  · exact (sound_node (by decide) (sound_advance.seq hbody)).discard
  · exact (plants_bump _).sound
  · exact (plants_bump _).sound
  · exact (plants_bump _).sound
  · exact (plants_bump _).sound
  · exact (sound_node (by decide) hbody).discard

omit h in
/-- Where a parser takes nothing, the next lexeme goes into an error node. -/
theorem ends_moves_or_bump
    {p : Parser Kind Unit}
    {fault : Fault Kind}
    {s : Site Kind}
    (hp : p.Sound)
    (hleft : 0 < s.left) :
    (do
      unless ← moves p do
        bump fault
      return true : Parser Kind Bool).Ends s fun again t =>
        again = true ∧ s.Grows t ∧ t.left < s.left := by
  refine Ends.bind (P := fun moved t =>
    s.Grows t ∧ (moved = true → t.left < s.left) ∧ (moved = false → t.left = s.left)) ?_ ?_
  · refine ends_moves ((hp s).mono fun _ t ht => ⟨ht, by simp, ?_⟩)
    have hle := ht.left
    simp only [decide_eq_false_iff_not]
    omega
  intro moved t ht
  cases moved with
  | true => exact ends_pure ⟨rfl, ht.1, ht.2.1 rfl⟩
  | false =>
      have hstay := ht.2.2 rfl
      refine ((eats_bump _).ends_true (hstay ▸ hleft)).mono fun _ u hu => ?_
      exact ⟨hu.1, ht.1.trans hu.2.1, hstay ▸ hu.2.2⟩

theorem turns_statementInBlock : (statementInBlock inner).Turns id := by
  intro s
  rw [statementInBlock, ends_at_bind, ends_atEnd_bind]
  split
  · exact ends_pure ⟨.refl s, by simp⟩
  · have hleft : 0 < s.left := Site.left_pos_iff.mpr (by simp_all)
    exact (ends_moves_or_bump (sound_statement h) hleft).turn

theorem sound_blockBody : (blockBody inner).Sound :=
  (sound_expect _).seq <| (sound_repeatWhile (turns_statementInBlock h)).seq <| sound_expect _

theorem sound_block : (block inner).Sound := by
  refine (sound_at _).bind fun _ => Sound.ite ?_ ?_
  · exact (sound_node (by decide) (sound_blockBody h)).discard
  · exact sound_peek.bind fun _ => sound_recover _ _

/-! ## Declarations and members of containers -/

omit h in
theorem sound_stringLiteral : (stringLiteral : Parser Kind Unit).Sound :=
  (sound_node (by decide) sound_advance).discard

theorem plants_testDecl : (testDecl inner).Plants := by
  have hblock := sound_block h
  refine (plants_node (by decide) ?_).discard
  refine sound_advance.seq <| sound_peek.bind fun kind => ?_
  dsimp only
  split
  · exact sound_stringLiteral.seq hblock
  · exact (sound_name _).seq hblock
  · exact hblock

omit h in
theorem sound_linkage : (linkage : Parser Kind Unit).Sound := by
  refine sound_peek.bind fun kind => ?_
  split
  · exact sound_advance
  · exact sound_advance
  · exact sound_advance
  · refine sound_advance.seq <| (sound_at _).bind fun _ => ?_
    exact Sound.ite sound_stringLiteral (sound_pure _)
  · exact sound_pure _

theorem sound_declBody : (declBody inner).Sound := by
  have hblock := sound_block h
  refine (sound_skip _).seq <| (sound_eat _).bind fun _ => Sound.ite ?_ ?_
  · exact h.expr.sound.discard.seq <| (sound_expect _).seq <| sound_pure _
  refine sound_linkage.seq fun s => ?_
  rw [ends_at_bind]
  split
  · rename_i hpeek
    refine (ends_fnProto h (by simpa using hpeek)).bind fun _ t ht => ?_
    refine Ends.mono (P := fun _ u => t.Grows u) ?_ fun _ u hu => ht.trans hu
    refine (sound_at _).bind (fun _ => Sound.ite ?_ ?_) t
    · exact hblock.seq (sound_pure _)
    · exact (sound_expect _).seq (sound_pure _)
  · refine ((sound_skip _).seq <| (sound_at _).bind fun _ => (sound_at _).bind fun _ => ?_) s
    refine Sound.ite ?_ ?_
    · exact (sound_varDecl h).seq (sound_pure _)
    · exact (sound_report _).seq (sound_pure _)

omit h in
/-- The kind of a declaration is known when it ends. -/
theorem gives_declBody : (declBody inner).Gives (· ≠ Vocabulary.tombstone) := by
  refine gives_bind fun _ => gives_bind fun _ => Gives.ite ?_ ?_
  · exact gives_bind fun _ => gives_bind fun _ => gives_pure (by decide)
  refine gives_bind fun _ => gives_bind fun _ => Gives.ite ?_ ?_
  · refine gives_bind fun _ => gives_bind fun _ => Gives.ite ?_ ?_
    · exact gives_bind fun _ => gives_pure (by decide)
    · exact gives_bind fun _ => gives_pure (by decide)
  · refine gives_bind fun _ => gives_bind fun _ => gives_bind fun _ => Gives.ite ?_ ?_
    · exact gives_bind fun _ => gives_pure (by decide)
    · exact gives_bind fun _ => gives_pure (by decide)

theorem plants_containerField : (containerField inner).Plants := by
  refine (plants_node (by decide) ?_).discard
  refine (sound_skip _).seq <| sound_fieldName.seq <| h.type.sound.discard.seq <|
    (sound_at _).bind fun _ => ?_
  refine Sound.ite ((eats_alignClause h).sound.seq ?hdefault) ?hdefault
  refine (sound_eat _).bind fun _ => ?_
  refine Sound.ite (h.expr.sound.discard.seq ?hcomma) ?hcomma
  refine (sound_eat _).bind fun _ => Sound.ite (sound_pure _) ?_
  refine (sound_at _).bind fun _ => sound_atEnd.bind fun _ => ?_
  exact Sound.ite (sound_pure _) (sound_report _)

theorem plants_containerMember : (containerMember inner).Plants := by
  have hdecl : (discard (nodeOf (declBody inner)) : Parser Kind Unit).Plants :=
    (plants_nodeOf gives_declBody (sound_declBody h)).discard
  have hfield := plants_containerField h
  intro s
  rw [containerMember, routine_eq, ends_peek_bind]
  split
  · exact plants_testDecl h s
  · exact hdecl s
  · exact hdecl s
  · exact hdecl s
  · exact hdecl s
  · exact hdecl s
  · exact hdecl s
  · exact hdecl s
  · exact hdecl s
  · exact hdecl s
  · exact hdecl s
  · rw [ends_nthAt_bind]
    split
    · exact (plants_node (by decide) (sound_advance.seq (sound_block h))).discard s
    · exact hfield s
  · exact hfield s
  · exact plants_bump _ s
  · exact plants_bump _ s

/-- A turn takes something or is the last one; outside of braces the last one is
at the end. -/
theorem ends_memberInContainer
    (inBraces : Bool)
    (s : Site Kind) :
    (memberInContainer inner inBraces).Ends s fun again t =>
      s.Grows t ∧ (again = true → t.left < s.left) ∧
        (again = false → inBraces = false → t.kinds = []) := by
  rw [memberInContainer, ends_atEnd_bind, ends_at_bind]
  split
  · rename_i hend
    exact ends_pure ⟨.refl s, by simp, fun _ hbraces => by simpa [hbraces] using hend⟩
  · have hleft : 0 < s.left := Site.left_pos_iff.mpr (by simp_all)
    refine (ends_moves_or_bump (plants_containerMember h).sound hleft).mono fun again t ht => ?_
    exact ⟨ht.2.1, fun _ => ht.2.2, fun hagain => by simp [ht.1] at hagain⟩

theorem sound_containerMembers (inBraces : Bool) : (containerMembers inner inBraces).Sound :=
  sound_repeatWhile fun s =>
    (ends_memberInContainer h inBraces s).mono fun _ _ ht => ⟨ht.1, ht.2.1⟩

/-- Members that stand in no braces end at the end. -/
theorem ends_containerMembers (s : Site Kind) :
    (containerMembers inner false).Ends s fun _ t => s.Grows t ∧ t.kinds = [] := by
  refine Ends.iterate (I := fun _ t => s.Grows t) ?_ (.refl s)
  intro _ t ht
  refine (ends_memberInContainer h false t).bind fun again u hu => ends_pure ?_
  have hgrows := ht.trans hu.1
  exact ⟨fun hagain => ⟨hu.2.1 hagain, hgrows⟩, fun hlast => ⟨hgrows, hu.2.2 hlast rfl⟩⟩

/-! ## Types and primary expressions -/

theorem sound_containerTag : (containerTag inner).Sound := by
  refine (sound_eat _).bind fun _ => Sound.ite ?_ (sound_pure _)
  exact h.expr.sound.discard.seq (sound_expect _)

theorem sound_unionTag : (unionTag inner).Sound := by
  refine (sound_eat _).bind fun _ => Sound.ite ?_ (sound_pure _)
  refine (sound_eat _).bind fun _ => Sound.ite ?_ ?_
  · exact (sound_containerTag h).seq (sound_expect _)
  · exact h.expr.sound.discard.seq (sound_expect _)

theorem plants_containerDecl : (containerDecl inner).Plants := by
  refine plants_node (by decide) ((sound_eat _).bind fun _ => ?_)
  refine Sound.ite ?hkeyword ((sound_skip _).seq ?hkeyword)
  have hmembers : (do
      if ← eat .leftBrace then
        containerMembers inner true
        expect .rightBrace
      else report .expectedContainerBody : Parser Kind Unit).Sound :=
    (sound_eat _).bind fun _ =>
      Sound.ite ((sound_containerMembers h true).seq (sound_expect _)) (sound_report _)
  refine sound_peek.bind fun kind => ?_
  dsimp only
  split
  · exact sound_advance.seq <| (sound_containerTag h).seq hmembers
  · exact sound_advance.seq <| (sound_containerTag h).seq hmembers
  · exact sound_advance.seq <| (sound_unionTag h).seq hmembers
  · exact sound_advance.seq hmembers
  · exact (sound_report _).seq hmembers

theorem plants_builtinCall : (builtinCall inner).Plants := by
  refine plants_node (by decide) (sound_advance.seq <| (sound_at _).bind fun _ => ?_)
  exact Sound.ite (sound_argList h) (sound_report _)

omit h in
theorem plants_noExpression : (noExpression : Parser Kind (Option Kind)).Plants := by
  intro s
  rw [noExpression, ends_peek_bind]
  exact (plants_recover _ _ s).bind fun _ _ ht => ends_pure ht

theorem plants_primaryType : (primaryType inner).Plants := by
  intro s
  rw [primaryType, routine_eq, ends_peek_bind, ends_nth_bind]
  have htoken : ∀ {kind : Kind}, kind ≠ Vocabulary.tombstone →
      (do return some (← node kind advance) : NodeParser).Ends s fun _ t => s.Plants t :=
    fun hkind => (plants_node hkind sound_advance).bind_pure some s
  have hcontainer := (plants_containerDecl h).bind_pure some s
  split
  · exact (plants_builtinCall h).bind_pure some s
  · exact htoken (by decide)
  · exact htoken (by decide)
  · exact htoken (by decide)
  · exact htoken (by decide)
  · exact htoken (by decide)
  · exact (plants_node (by decide) (sound_repeatWhile (turns_eat (by decide)))).bind_pure some s
  · exact htoken (by decide)
  · exact htoken (by decide)
  · exact hcontainer
  · exact hcontainer
  · exact hcontainer
  · exact hcontainer
  · exact hcontainer
  · exact hcontainer
  · exact (plants_node (by decide) (sound_advance.seq (sound_name _))).bind_pure some s
  · exact (plants_initList h).bind_pure some s
  · refine (plants_node (by decide) ?_).bind_pure some s
    exact sound_advance.seq (sound_delimited (sound_name _) _ _ _)
  · refine (plants_node (by decide) ?_).bind_pure some s
    exact sound_advance.seq <| sound_advance.seq (sound_name _)
  · rename_i hpeek
    refine (ends_node (by decide) ?_).bind fun _ _ ht => ends_pure ht
    have hopened : s.opened.peek = .fnKw := hpeek
    exact (ends_fnProto h hopened).mono fun _ _ ht => Site.plants_closed ht
  · refine (plants_node (by decide) ?_).bind_pure some s
    exact sound_advance.seq <| h.expr.sound.discard.seq (sound_expect _)
  · exact (plants_ifExpr h).bind_pure some s
  · exact (plants_switchExpr h).bind_pure some s
  · exact (plants_node (by decide) (sound_advance.seq h.type.sound.discard)).bind_pure some s
  · exact plants_noExpression s

theorem sound_indexOrSlice : (indexOrSlice inner).Sound := by
  have hexpr := h.expr.sound.discard
  have hsentinel : (do
      if ← eat .colon then discard inner.expr
      return .sliceExpr : Parser Kind Kind).Sound :=
    (sound_eat _).bind fun _ => Sound.ite (hexpr.seq (sound_pure _)) (sound_pure _)
  refine hexpr.seq <| (sound_eat _).bind fun _ => Sound.ite ?_ (sound_pure _)
  refine (sound_at _).bind fun _ => (sound_at _).bind fun _ => ?_
  exact Sound.ite hsentinel (hexpr.seq hsentinel)

omit h in
theorem gives_indexOrSlice : (indexOrSlice inner).Gives (· ∈ [.indexExpr, .sliceExpr]) := by
  have hsentinel : (do
      if ← eat .colon then discard inner.expr
      return .sliceExpr : Parser Kind Kind).Gives (· ∈ [.indexExpr, .sliceExpr]) :=
    gives_bind fun _ =>
      Gives.ite (gives_bind fun _ => gives_pure (by decide)) (gives_pure (by decide))
  refine gives_bind fun _ => gives_bind fun _ => Gives.ite ?_ (gives_pure (by decide))
  exact gives_bind fun _ => gives_bind fun _ => Gives.ite hsentinel (gives_bind fun _ => hsentinel)

/-- Arguments are consumed from their opening parenthesis on. -/
theorem ends_argList_eats
    {s : Site Kind}
    (hpeek : s.peek = .leftParen) :
    (argList inner).Ends s fun _ t => s.Grows t ∧ t.left < s.left := by
  have hleft := Site.left_pos_of_peek hpeek (by decide)
  refine ends_discard (ends_node (by decide) ?_)
  have hopening : (expect .leftParen : Parser Kind Unit).Ends s.opened fun _ t =>
      s.opened.Grows t ∧ t.left < s.left :=
    ends_expect (fun _ => ⟨s.opened.grows_advanced, Site.left_advanced hleft⟩)
      fun hne => absurd hpeek hne
  rw [list, routine_eq, delimited]
  refine hopening.bind fun _ t ht => ?_
  have hrest := (sound_repeatWhile (turns_itemAndComma h.expr.sound.discard .rightParen
    .argument)).seq (sound_expect .rightParen) t
  refine hrest.mono fun _ u hu => ?_
  exact ⟨(Site.plants_closed (ht.1.trans hu)).grows, Nat.lt_of_le_of_lt hu.left ht.2⟩

/-- A suffix wraps what stands before it, and is consumed if there is one. -/
theorem ends_suffix
    {s : Site Kind}
    (lhs : Kind)
    (hnode : ∃ kind children others, s.children = .node kind children :: others) :
    (suffix inner lhs).Ends s fun r t => s.Wraps t ∧ (r.1 = true → t.left < s.left) := by
  have hwrap : ∀ {kind : Kind} {body : Parser Kind Unit}, kind ≠ Vocabulary.tombstone →
      (body.Ends s.opened fun _ t => s.opened.Grows t ∧ t.left < s.left) →
      (do
        let kind ← wrap kind body
        return (true, kind) : Parser Kind (Bool × Kind)).Ends s fun r t =>
          s.Wraps t ∧ (r.1 = true → t.left < s.left) := by
    intro kind body hkind hbody
    refine (ends_wrap_wraps (P := (· < s.left)) hnode hkind hbody).bind fun _ t ht => ?_
    exact ends_pure ⟨ht.1, fun _ => ht.2⟩
  rw [suffix, ends_peek_bind, ends_nth_bind]
  split
  · rename_i hpeek
    have hleft : 0 < s.opened.left := Site.left_pos_of_peek hpeek (by decide)
    have hbody : (do
        advance
        let kind ← indexOrSlice inner
        expect .rightBracket
        return kind : Parser Kind Kind).Eats :=
      eats_advance.bind fun _ => (sound_indexOrSlice h).bind fun _ =>
        (sound_expect _).seq (sound_pure _)
    have hkind : (do
        advance
        let kind ← indexOrSlice inner
        expect .rightBracket
        return kind : Parser Kind Kind).Gives (· ≠ Vocabulary.tombstone) :=
      gives_bind fun _ => (gives_indexOrSlice.ne (by decide)).bind fun _ hkind =>
        gives_bind fun _ => gives_pure hkind
    obtain ⟨t, hcursor, hleads, ht⟩ := hbody.ends hleft
    refine (ends_wrapOf_wraps (P := (· < s.left)) hnode
      ⟨t, hcursor, hleads, hkind _, ht⟩).bind fun _ t ht => ?_
    exact ends_pure ⟨ht.1, fun _ => ht.2⟩
  · rename_i hpeek _
    have hleft : 0 < s.opened.left := Site.left_pos_of_peek hpeek (by decide)
    exact hwrap (by decide) ((eats_advance.bind fun _ => sound_name _).ends hleft)
  · rename_i hpeek _
    have hleft : 0 < s.opened.left := Site.left_pos_of_peek hpeek (by decide)
    exact hwrap (by decide) ((eats_advance.bind fun _ => sound_advance).ends hleft)
  · rename_i hpeek
    have hleft : 0 < s.opened.left := Site.left_pos_of_peek hpeek (by decide)
    exact hwrap (by decide) (eats_advance.ends hleft)
  · rename_i hpeek
    have hopened : s.opened.peek = .leftParen := hpeek
    exact hwrap (by decide) (ends_argList_eats h hopened)
  · exact ends_pure ⟨.refl s, by simp⟩

theorem plants_suffixExpr : (suffixExpr inner).Plants := by
  intro s
  refine (plants_primaryType h s).bind fun found t ht => ?_
  cases found with
  | none => exact ends_pure ht
  | some lhs =>
      have hloop : (iterate (suffix inner) lhs).Ends t fun _ u => s.Plants u := by
        refine Ends.iterate (I := fun _ u => s.Plants u) ?_ ht
        intro lhs u hu
        refine (ends_suffix h lhs hu.exists_node).mono fun r v hv => ?_
        exact ⟨fun hr => ⟨hv.2 hr, hu.wraps hv.1⟩, fun _ => hu.wraps hv.1⟩
      exact hloop.bind fun _ _ hu => ends_pure hu

theorem plants_errorUnion : (errorUnion inner).Plants := by
  intro s
  refine (plants_suffixExpr h s).bind fun found t ht => ?_
  cases found with
  | none => exact ends_pure ht
  | some lhs =>
      rw [ends_at_bind]
      split
      · exact ends_wrap_of_plants ht (by decide) (sound_advance.seq h.type.sound.discard)
      · exact ends_pure ht

/-- A modifier is consumed if there is one. -/
theorem turns_pointerModifier : (pointerModifier inner).Turns id := by
  intro s
  have hkeyword : ∀ {kind : Kind}, s.peek = kind → kind ≠ .eof →
      (do advance; return true : Parser Kind Bool).Ends s fun b t =>
        s.Grows t ∧ (id b = true → t.left < s.left) := by
    intro kind hpeek hkind
    exact (eats_advance.ends_true (Site.left_pos_of_peek hpeek hkind)).turn
  have hclauses : s.peek = .alignKw ∨ s.peek = .addrspaceKw →
      (do clauses inner false; return true : Parser Kind Bool).Ends s fun b t =>
        s.Grows t ∧ (id b = true → t.left < s.left) := by
    intro hpeek
    refine (ends_clauses_eats h false hpeek).bind fun _ t ht => ?_
    exact ends_pure ⟨ht.1, fun _ => ht.2⟩
  rw [pointerModifier, ends_peek_bind]
  split
  · exact hkeyword ‹_› (by decide)
  · exact hkeyword ‹_› (by decide)
  · exact hkeyword ‹_› (by decide)
  · exact hclauses (.inl ‹_›)
  · exact hclauses (.inr ‹_›)
  · exact ends_pure ⟨.refl s, by simp⟩

theorem sound_pointerModifiers : (pointerModifiers inner).Sound :=
  sound_repeatWhile (turns_pointerModifier h)

theorem sound_bracketContent : (bracketContent inner).Sound := by
  have hexpr := h.expr.sound.discard
  refine sound_peek.bind fun kind => ?_
  split
  · refine sound_advance.seq <| (sound_at _).bind fun _ => sound_text.bind fun _ => ?_
    refine Sound.ite (sound_advance.seq (sound_pure _)) ?_
    refine (sound_eat _).bind fun _ => ?_
    exact Sound.ite (hexpr.seq (sound_pure _)) (sound_pure _)
  · exact sound_pure _
  · exact sound_advance.seq <| hexpr.seq (sound_pure _)
  · refine hexpr.seq <| (sound_eat _).bind fun _ => ?_
    exact Sound.ite (hexpr.seq (sound_pure _)) (sound_pure _)

omit h in
theorem gives_bracketContent :
    (bracketContent inner).Gives (· ∈ [.ptrType, .sliceType, .arrayType]) := by
  refine gives_bind fun kind => ?_
  split
  · refine gives_bind fun _ => gives_bind fun _ => gives_bind fun _ => ?_
    refine Gives.ite (gives_bind fun _ => gives_pure (by decide)) ?_
    refine gives_bind fun _ => ?_
    exact Gives.ite (gives_bind fun _ => gives_pure (by decide)) (gives_pure (by decide))
  · exact gives_pure (by decide)
  · exact gives_bind fun _ => gives_bind fun _ => gives_pure (by decide)
  · refine gives_bind fun _ => gives_bind fun _ => ?_
    exact Gives.ite (gives_bind fun _ => gives_pure (by decide)) (gives_pure (by decide))

omit h in
theorem gives_bracketType :
    (do
      advance
      let kind ← bracketContent inner
      expect .rightBracket
      unless kind == .arrayType do
        pointerModifiers inner
      discard inner.type
      return kind : Parser Kind Kind).Gives (· ∈ [.ptrType, .sliceType, .arrayType]) := by
  refine gives_bind fun _ => gives_bracketContent.bind fun kind hkind => gives_bind fun _ => ?_
  have htype : (do discard inner.type; return kind : Parser Kind Kind).Gives
      (· ∈ [.ptrType, .sliceType, .arrayType]) := gives_bind fun _ => gives_pure hkind
  exact Gives.ite htype (gives_bind fun _ => htype)

theorem plants_bracketType : (bracketType inner).Plants := by
  refine plants_nodeOf (gives_bracketType.ne (by decide)) ?_
  refine sound_advance.seq <| (sound_bracketContent h).bind fun kind => (sound_expect _).seq ?_
  refine Sound.ite ?htype ((sound_pointerModifiers h).seq ?htype)
  exact h.type.sound.discard.seq (sound_pure _)

theorem plants_typeWith : (typeWith inner).Plants := by
  have htype := h.type.sound.discard
  intro s
  rw [typeWith, ends_peek_bind, ends_nth_bind]
  have hpointer : (do
      return some (← node .ptrType do
        advance
        pointerModifiers inner
        discard inner.type) : NodeParser).Ends s fun _ t => s.Plants t := by
    refine (plants_node (by decide) ?_).bind_pure some s
    exact sound_advance.seq <| (sound_pointerModifiers h).seq htype
  split
  · exact (plants_node (by decide) (sound_advance.seq htype)).bind_pure some s
  · exact (plants_node (by decide) (sound_advance.seq <| sound_advance.seq htype)).bind_pure some s
  · exact hpointer
  · exact hpointer
  · exact (plants_bracketType h).bind_pure some s
  · exact plants_errorUnion h s

/-! ## Expressions -/

omit h in
/-- Every token is consumed, and no parenthesis is closed that was not opened. -/
theorem ends_assembly
    {s : Site Kind}
    (hpeek : s.peek = .leftParen) :
    (iterate assemblyToken 0 : Parser Kind Nat).Ends s fun _ t => s.Grows t := by
  -- Only the opening parenthesis is read at depth zero: a turn that ends there is the last.
  refine Ends.iterate (I := fun depth t => s.Grows t ∧ (depth = 0 → t.peek = .leftParen)) ?_
    ⟨.refl s, fun _ => hpeek⟩
  rintro depth t ⟨ht, hdepth⟩
  rw [assemblyToken, ends_atEnd_bind]
  split
  · exact ends_pure ⟨by simp, fun _ => ht⟩
  · rename_i hend
    have hleft : 0 < t.left := Site.left_pos_iff.mpr (by simpa using hend)
    rw [ends_peek_bind]
    refine Ends.bind (P := fun _ u => u = t) (ends_ensure ?_ rfl) ?_
    · rcases Nat.eq_zero_or_pos depth with hzero | hpos
      · simp [hdepth hzero]
      · simp [Nat.pos_iff_ne_zero.mp hpos]
    · rintro _ _ rfl
      rw [ends_peek_bind]
      refine (eats_advance.ends hleft).bind fun _ u hu => ends_pure ?_
      refine ⟨fun hr => ⟨hu.2, ht.trans hu.1, fun hzero => ?_⟩, fun _ => ht.trans hu.1⟩
      exact absurd hzero (by simpa using hr)

omit h in
theorem plants_asmExpr : (asmExpr : Parser Kind Kind).Plants := by
  refine plants_node (by decide) ?_
  refine sound_advance.seq <| (sound_skip _).seq fun s => ?_
  rw [ends_at_bind]
  split
  · rename_i hpeek
    refine (ends_assembly (by simpa using hpeek)).bind fun depth t ht => ?_
    split
    · exact ends_pure ht
    · exact (sound_report _ t).mono fun _ _ hu => ht.trans hu
  · exact sound_report _ s

omit h in
theorem sound_label : (label : Parser Kind Unit).Sound :=
  (sound_node (by decide) ((sound_name _).seq (sound_expect _))).discard

omit h in
theorem sound_jumpLabel : (jumpLabel : Parser Kind Bool).Sound := by
  refine (sound_at _).bind fun _ => (sound_nthAt _ _).bind fun _ => Sound.ite ?_ (sound_pure _)
  exact (sound_node (by decide) (sound_advance.seq (sound_name _))).discard.seq (sound_pure _)

theorem sound_optionalExpr : (optionalExpr inner).Sound :=
  (sound_atAny _).bind fun _ => Sound.ite h.expr.sound.discard (sound_pure _)

theorem plants_breakExpr : (breakExpr inner).Plants :=
  plants_node (by decide) <| sound_advance.seq <| sound_jumpLabel.discard.seq (sound_optionalExpr h)

theorem plants_continueExpr : (continueExpr inner).Plants :=
  plants_node (by decide) <| sound_advance.seq <| sound_jumpLabel.bind fun _ =>
    Sound.ite (sound_optionalExpr h) (sound_pure _)

theorem plants_returnExpr : (returnExpr inner).Plants :=
  plants_node (by decide) <| sound_advance.seq (sound_optionalExpr h)

theorem plants_keywordExpr
    {kind : Kind}
    (hkind : kind ≠ Vocabulary.tombstone) :
    (keywordExpr inner kind).Plants :=
  plants_node hkind <| sound_advance.seq h.expr.sound.discard

theorem sound_forInput : (forInput inner).Sound := by
  have hexpr := h.expr.sound.discard
  refine (sound_node (by decide) ?_).discard
  refine hexpr.seq <| (sound_eat _).bind fun _ => Sound.ite ?_ (sound_pure _)
  refine (sound_at _).bind fun _ => (sound_at _).bind fun _ => ?_
  exact Sound.ite (sound_pure _) hexpr

theorem sound_whileContinue : (whileContinue inner).Sound := by
  refine (sound_at _).bind fun _ => Sound.ite ?_ (sound_pure _)
  refine (sound_node (by decide) ?_).discard
  exact sound_advance.seq <| (sound_expect _).seq <|
    (plants_assignExpr h).sound.discard.seq (sound_expect _)

theorem sound_loopBody : (loopBody inner).Sound := by
  have hassign := (plants_assignExpr h).sound.discard
  have helse := sound_elseBranch h
  refine (sound_skip _).seq <| sound_peek.bind fun kind => ?_
  split
  · exact sound_advance.seq <| (sound_condition h).seq <| sound_payload.seq <|
      (sound_whileContinue h).seq <| hassign.seq <| helse.seq (sound_pure _)
  · refine sound_advance.seq <| (sound_delimited (sound_forInput h) _ _ _).seq <|
      (sound_at _).bind fun _ => ?_
    refine Sound.ite (sound_payload.seq ?hbody) ((sound_report _).seq ?hbody)
    exact hassign.seq <| helse.seq (sound_pure _)
  · exact (sound_report _).seq (sound_pure _)

omit h in
theorem gives_loopBody : (loopBody inner).Gives (· ∈ [.whileExpr, .forExpr, .error]) := by
  refine gives_bind fun _ => gives_bind fun kind => ?_
  split
  · exact gives_bind fun _ => gives_bind fun _ => gives_bind fun _ => gives_bind fun _ =>
      gives_bind fun _ => gives_bind fun _ => gives_pure (by decide)
  · have hbody : (do
        discard (assignExpr inner)
        elseBranch inner
        return .forExpr : Parser Kind Kind).Gives (· ∈ [.whileExpr, .forExpr, .error]) :=
      gives_bind fun _ => gives_bind fun _ => gives_pure (by decide)
    refine gives_bind fun _ => gives_bind fun _ => gives_bind fun _ => ?_
    exact Gives.ite (gives_bind fun _ => hbody) (gives_bind fun _ => hbody)
  · exact gives_bind fun _ => gives_pure (by decide)

omit h in
theorem gives_labeled :
    (do
      label
      if ← at_ .leftBrace then
        blockBody inner
        return .block
      else loopBody inner : Parser Kind Kind).Gives
        (· ∈ [.block, .whileExpr, .forExpr, .error]) := by
  refine gives_bind fun _ => gives_bind fun _ => Gives.ite ?_ ?_
  · exact gives_bind fun _ => gives_pure (by decide)
  · exact gives_loopBody.mono fun _ => List.mem_cons_of_mem _

theorem plants_labeled : (labeled inner).Plants := by
  refine plants_nodeOf (gives_labeled.ne (by decide)) ?_
  refine sound_label.seq <| (sound_at _).bind fun _ => Sound.ite ?_ (sound_loopBody h)
  exact (sound_blockBody h).seq (sound_pure _)

theorem plants_curlySuffix : (curlySuffix inner).Plants := by
  intro s
  refine (h.type s).bind fun found t ht => ?_
  cases found with
  | none => exact ends_pure ht
  | some type =>
      rw [ends_at_bind]
      split
      · exact ends_wrap_of_plants ht (by decide) (plants_initList h).sound.discard
      · exact ends_pure ht

omit h in
theorem ends_atLabeled (s : Site Kind) :
    (atLabeled : Parser Kind Bool).Ends s fun _ t => t = s := by
  rw [atLabeled, ends_at_bind, ends_nthAt_bind]
  split
  · rw [ends_nth_bind]
    split <;> exact ends_pure rfl
  · exact ends_pure rfl

theorem plants_primaryExpr : (primaryExpr inner).Plants := by
  intro s
  refine (ends_atLabeled s).bind ?_
  rintro isLabeled _ rfl
  rename_i s
  have hloop := (plants_nodeOf (gives_loopBody.ne (by decide)) (sound_loopBody h)).bind_pure some s
  cases isLabeled with
  | true => exact (plants_labeled h).bind_pure some s
  | false =>
      simp only [Bool.false_eq_true, if_false, ends_peek_bind]
      split
      · exact plants_asmExpr.bind_pure some s
      · exact (plants_ifExpr h).bind_pure some s
      · exact (plants_breakExpr h).bind_pure some s
      · exact (plants_continueExpr h).bind_pure some s
      · exact (plants_returnExpr h).bind_pure some s
      · exact (plants_keywordExpr h (by decide)).bind_pure some s
      · exact (plants_keywordExpr h (by decide)).bind_pure some s
      · exact (plants_keywordExpr h (by decide)).bind_pure some s
      · exact hloop
      · exact hloop
      · exact hloop
      · exact (plants_node (by decide) (sound_blockBody h)).bind_pure some s
      · exact plants_curlySuffix h s

theorem plants_operandWith : (operandWith inner).Plants := by
  intro s
  rw [operandWith, ends_peek_bind]
  have hprefix : (do
      return some (← node .prefixExpr do
        advance
        discard inner.operand) : NodeParser).Ends s fun _ t => s.Plants t :=
    (plants_node (by decide) (sound_advance.seq h.operand.sound.discard)).bind_pure some s
  split
  all_goals first | exact hprefix | exact plants_primaryExpr h s

omit h in
/-- What an operator and its right operand add to the node around the left one. -/
theorem eats_operator
    {right : NodeParser}
    (hright : right.Plants) :
    (do
      let catches ← at_ .catchKw
      advance
      if catches then payload
      discard right : Parser Kind Unit).Eats :=
  (sound_at _).bind_eats fun _ => eats_advance.bind fun _ =>
    Sound.ite (sound_payload.seq hright.sound.discard) hright.sound.discard

/-- Operands and operators are one node, and every operator is consumed. -/
theorem plants_binaryExpr (least : Nat) : (binaryExpr inner least).Plants := by
  intro s
  rw [binaryExpr]
  refine (h.operand s).bind fun found t ht => ?_
  cases found with
  | none => exact ends_pure ht
  | some lhs =>
      refine Ends.bind (P := fun _ u => s.Plants u) ?_ fun _ _ hu => ends_pure hu
      refine Ends.iterate (I := fun _ u => s.Plants u) ?_ ht
      rintro ⟨lhs, compared⟩ u hu
      dsimp only
      rw [ends_peek_bind]
      split
      · exact ends_pure ⟨by simp, fun _ => hu⟩
      · rename_i precedence hprecedence
        split
        · rename_i hleast
          have hpeek : u.peek ≠ .eof := by
            intro heof
            simp [heof, precedence?] at hprecedence
          have hleft := Site.left_pos_of_peek rfl hpeek
          have hoperator := eats_operator (plants_binaryExpr (precedence.val + 1))
          -- A fault that was reported before changes neither the node nor what is left.
          have hwrap : ∀ v : Site Kind, s.Plants v → v.left = u.left → ∀ again : Kind → Bool,
              (do
                let kind ← wrap .binaryExpr do
                  let catches ← at_ .catchKw
                  advance
                  if catches then payload
                  discard (binaryExpr inner (precedence.val + 1))
                return (true, kind, again kind) :
                  Parser Kind (Bool × Kind × Bool)).Ends v fun r t =>
                (r.1 = true → t.left < u.left ∧ s.Plants t) ∧ (r.1 = false → s.Plants t) := by
            intro v hv hvu again
            refine (ends_wrap_wraps (P := (· < u.left)) hv.exists_node (by decide) ?_).bind
              fun _ w hw => ends_pure ⟨fun _ => ⟨hw.2, hv.wraps hw.1⟩, by simp⟩
            have hopened : 0 < v.opened.left := hvu ▸ hleft
            exact (hoperator.ends hopened).mono fun _ w hw => ⟨hw.1, hvu ▸ hw.2⟩
          split
          · exact ends_report_bind (hwrap u.faulted hu.faulted rfl _)
          · exact hwrap u hu rfl _
        · exact ends_pure ⟨by simp, fun _ => hu⟩
termination_by 8 - least
decreasing_by omega

end Parts

/-- All levels are sound. -/
theorem sound_level (depth : Nat) : (level depth).Sound := by
  induction depth with
  | zero =>
      have hfail : (do tooDeep; return none : NodeParser).Plants :=
        fun s => (plants_tooDeep s).bind fun _ _ ht => ends_pure ht
      exact ⟨hfail, hfail, hfail⟩
  | succ depth ih =>
      exact ⟨plants_binaryExpr ih 1, plants_operandWith ih, plants_typeWith ih⟩

end Zig
end ZigCst
