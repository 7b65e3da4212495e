import ZigCst.Proofs.Bodies
import ZigCst.Proofs.Translation

/-!
# Zon is a sublanguage of Zig

A value of Zon is read by the Zig grammar as the expression that it is translated to, as
long as something stands behind it that does not go on with an expression.  Each level of
values takes three levels of Zig, and a minus takes one more.

**Definitions.**
* `Zon.Bounded`: what may stand behind a value.
* `Zon.inConstant`: a text as the value of a constant.

**Results.**
* `Zon.Rule.Value.ends_expr`: a value is read as its translation.
* `Zon.exists_value_of_parse`: a file without errors is a value.
* `Zon.places_lex_inConstant`: the significant lexemes of a file that is one constant.
* `Zon.parse?_inConstant`: a Zon file is a constant of Zig, and its containers are lists of
  initializers in the same places.
-/

namespace ZigCst
namespace Zon

open ZigCst.Parser ZigCst.Zig

/-! ## Values are read as expressions -/

/-- Whether kinds of Zig start with one that ends an initializer. -/
def Bounded (rest : List Zig.Kind) : Prop :=
  ∃ kind more, rest = kind :: more ∧ kind ∈ [Zig.Kind.comma, .rightBrace, .semicolon]

theorem Bounded.goesOn_eq_false
    {rest : List Zig.Kind}
    {t : Site Zig.Kind}
    (h : Bounded rest)
    (ht : t.kinds = rest) :
    goesOnExpr t.peek = false := by
  obtain ⟨kind, more, rfl, hkind⟩ := h
  rw [Site.peek_eq ht]
  simp only [List.mem_cons, List.not_mem_nil, or_false] at hkind
  rcases hkind with rfl | rfl | rfl <;> rfl

section Values

variable {s : Site Zig.Kind} {rest : List Zig.Kind}

/-- A node that is given as an expression. -/
theorem ends_some_node_adds
    {kind : Zig.Kind}
    {body : Parser Zig.Kind Unit}
    {taken : List Zig.Kind}
    {new : List (Shape Zig.Kind Zig.Kind)}
    (hkind : kind ≠ .tombstone)
    (h : body.Ends s.opened fun _ t => s.opened.Adds taken new t) :
    (do return some (← node kind body) : NodeParser).Ends s fun found t =>
      found = some kind ∧ s.Adds taken [.node kind new] t := by
  refine (ends_node hkind (h.mono fun _ t ht => ⟨rfl, ht.closed⟩)).bind
    (P := fun found t => found = kind ∧ s.Adds taken [.node kind new] t) ?_
  rintro _ t ⟨rfl, ht⟩
  exact ends_pure ⟨rfl, ht⟩

/-- A primary expression in front of a boundary is an operand that no operator follows. -/
theorem ends_operand_of_primaryType
    {depth : Nat}
    {kind : Zig.Kind}
    {taken : List Zig.Kind}
    {tree : Shape Zig.Kind Zig.Kind}
    (hkinds : s.kinds = taken ++ rest)
    (hbounded : Bounded rest)
    (hfirst : s.peek ∈ primaryFirst)
    (hlabel : s.nth 1 ≠ .colon)
    (h : (primaryType (level depth)).Ends s fun found t =>
      found = some kind ∧ s.Adds taken [tree] t) :
    (level (depth + 2)).operand.Ends s fun found t =>
      found = some kind ∧ s.Adds taken [tree] t ∧ goesOnExpr t.peek = false :=
  ends_operand_of_primary hfirst hlabel (h.mono fun _ _ ht =>
    ⟨ht.1, ht.2, hbounded.goesOn_eq_false (ht.2.kinds_eq hkinds)⟩)

theorem ends_expr_of_primaryType
    {depth : Nat}
    (kind : Zig.Kind)
    {taken : List Zig.Kind}
    {tree : Shape Zig.Kind Zig.Kind}
    (hkinds : s.kinds = taken ++ rest)
    (hbounded : Bounded rest)
    (hfirst : s.peek ∈ primaryFirst)
    (hlabel : s.nth 1 ≠ .colon)
    (h : (primaryType (level depth)).Ends s fun found t =>
      found = some kind ∧ s.Adds taken [tree] t) :
    (level (depth + 3)).expr.Ends s fun _ t => s.Adds taken [tree] t :=
  (ends_expr_of_operand (ends_operand_of_primaryType hkinds hbounded hfirst hlabel h)).mono
    fun _ _ ht => ht.2

theorem mem_primaryFirst_of_single?
    {kind tree : Zig.Kind}
    (h : single? kind = some tree) :
    kind ∈ primaryFirst := by
  unfold single? at h
  split at h <;> simp_all [primaryFirst]

theorem Bounded.nth_one_ne_colon
    {kind : Zig.Kind}
    (h : Bounded rest)
    (hkinds : s.kinds = [kind] ++ rest) :
    s.nth 1 ≠ .colon := by
  obtain ⟨next, more, rfl, hnext⟩ := h
  rw [Site.nth_one_eq hkinds]
  rintro rfl
  simp at hnext

/-- One lexeme that is an expression by itself is an operand. -/
theorem ends_operand_single
    (depth : Nat)
    {kind tree : Zig.Kind}
    (hsingle : single? kind = some tree)
    (hkinds : s.kinds = [kind] ++ rest)
    (hbounded : Bounded rest) :
    (level (depth + 2)).operand.Ends s fun found t =>
      found = some tree ∧ s.Adds [kind] [.node tree [.leaf kind]] t ∧
        goesOnExpr t.peek = false := by
  refine ends_operand_of_primaryType hkinds hbounded ?_ (hbounded.nth_one_ne_colon hkinds)
    (ends_primaryType_single hsingle hkinds)
  rw [Site.peek_eq hkinds]
  exact mem_primaryFirst_of_single? hsingle

theorem ends_expr_single
    (depth : Nat)
    {kind tree : Zig.Kind}
    (hsingle : single? kind = some tree)
    (hkinds : s.kinds = [kind] ++ rest)
    (hbounded : Bounded rest) :
    (level (depth + 3)).expr.Ends s fun _ t => s.Adds [kind] [.node tree [.leaf kind]] t :=
  (ends_expr_of_operand (ends_operand_single depth hsingle hkinds hbounded)).mono
    fun _ _ ht => ht.2

/-- A minus in front of a number. -/
theorem ends_expr_negative
    (depth : Nat)
    {kind : Zig.Kind}
    (hsingle : single? kind = some .literal)
    (hkinds : s.kinds = [Zig.Kind.minus] ++ ([kind] ++ rest))
    (hbounded : Bounded rest) :
    (level (depth + 4)).expr.Ends s fun _ t =>
      s.Adds ([Zig.Kind.minus] ++ [kind])
        [Shape.node Zig.Kind.prefixExpr
          ([Shape.leaf Zig.Kind.minus] ++ [Shape.node Zig.Kind.literal [Shape.leaf kind]])] t := by
  have hopened : s.opened.kinds = [Zig.Kind.minus] ++ ([kind] ++ rest) := hkinds
  have hbody : (do advance; discard (level (depth + 2)).operand : Parser Zig.Kind Unit).Ends
      s.opened fun _ t => s.opened.Adds ([Zig.Kind.minus] ++ [kind])
        ([Shape.leaf Zig.Kind.minus] ++ [Shape.node Zig.Kind.literal [Shape.leaf kind]]) t := by
    refine (ends_advance_adds hopened).adds_seq fun t ht => ends_discard ?_
    exact (ends_operand_single depth hsingle (ht.kinds_eq hopened) hbounded).mono
      fun _ _ hu => hu.2.1
  have hoperand : (level (depth + 3)).operand.Ends s fun found t =>
      found = some .prefixExpr ∧ s.Adds ([Zig.Kind.minus] ++ [kind])
        [Shape.node Zig.Kind.prefixExpr
          ([Shape.leaf Zig.Kind.minus] ++ [Shape.node Zig.Kind.literal [Shape.leaf kind]])] t ∧
        goesOnExpr t.peek = false := by
    change (operandWith (level (depth + 2))).Ends s _
    rw [operandWith, ends_peek_bind, Site.peek_eq hkinds]
    refine (ends_some_node_adds (by decide) hbody).mono fun _ t ht => ⟨ht.1, ht.2, ?_⟩
    exact hbounded.goesOn_eq_false (ht.2.kinds_eq (by rw [hkinds, List.append_assoc]))
  exact (ends_expr_of_operand hoperand).mono fun _ _ ht => ht.2

/-- Marked lines are one string literal. -/
theorem ends_expr_lines
    (depth : Nat)
    {m : Nat}
    (hkinds : s.kinds = List.replicate (m + 1) Zig.Kind.stringLiteralMulti ++ rest)
    (hbounded : Bounded rest) :
    (level (depth + 3)).expr.Ends s fun _ t =>
      s.Adds (List.replicate (m + 1) .stringLiteralMulti)
        [.node .stringLiteral (List.replicate (m + 1) (.leaf .stringLiteralMulti))] t := by
  have hfirst : s.kinds = .stringLiteralMulti ::
      (List.replicate m Zig.Kind.stringLiteralMulti ++ rest) := by
    rw [hkinds, List.replicate_succ, List.cons_append]
  have hpeek : s.peek = .stringLiteralMulti := Site.peek_eq hfirst
  have hlines : (repeatWhile (eat .stringLiteralMulti) : Parser Zig.Kind Unit).Ends
      s.opened fun _ t =>
      s.opened.Adds (List.replicate (m + 1) .stringLiteralMulti)
        (List.replicate (m + 1) (.leaf .stringLiteralMulti)) t := by
    refine (ends_repeatWhile_eat (by decide) s.opened).mono fun _ t ht => ?_
    obtain ⟨n, hadds, hstop⟩ := ht
    have hopened : s.opened.kinds =
        List.replicate (m + 1) Zig.Kind.stringLiteralMulti ++ rest := hkinds
    obtain rfl : n = m + 1 := by
      refine replicate_append_inj ?_ ?_ (hadds.kinds.symm.trans hopened)
      · intro hhead
        obtain ⟨more, hmore⟩ := List.head?_eq_some_iff.mp hhead
        exact hstop (Site.peek_eq hmore)
      · obtain ⟨kind, more, rfl, hkind⟩ := hbounded
        rintro hhead
        simp_all
    exact hadds
  refine ends_expr_of_primaryType .stringLiteral hkinds hbounded ?_ ?_ ?_
  · rw [hpeek]
    decide
  · obtain ⟨kind, more, rfl, hkind⟩ := hbounded
    cases m with
    | zero =>
        rw [Site.nth_one_eq hfirst]
        rintro rfl
        simp at hkind
    | succ m =>
        rw [List.replicate_succ, List.cons_append] at hfirst
        rw [Site.nth_one_eq hfirst]
        decide
  · rw [primaryType, Zig.routine_eq, ends_peek_bind, ends_nth_bind, hpeek]
    exact ends_some_node_adds (by decide) hlines

/-- A dot and a name. -/
theorem ends_expr_enumLiteral
    (depth : Nat)
    (hkinds : s.kinds = [Zig.Kind.dot] ++ ([Zig.Kind.identifier] ++ rest))
    (hbounded : Bounded rest) :
    (level (depth + 3)).expr.Ends s fun _ t =>
      s.Adds ([Zig.Kind.dot] ++ [Zig.Kind.identifier])
        [Shape.node Zig.Kind.enumLiteral ([Shape.leaf Zig.Kind.dot] ++
          [Shape.node Zig.Kind.ident [Shape.leaf Zig.Kind.identifier]])] t := by
  have hopened : s.opened.kinds = [Zig.Kind.dot] ++ ([Zig.Kind.identifier] ++ rest) := hkinds
  have hpeek : s.peek = .dot := Site.peek_eq hkinds
  have hnext : s.nth 1 = .identifier := Site.nth_one_eq hkinds
  have hsplit := hkinds.trans (List.append_assoc ..).symm
  refine ends_expr_of_primaryType .enumLiteral hsplit hbounded ?_ ?_ ?_
  · rw [hpeek]
    decide
  · rw [hnext]
    decide
  · rw [primaryType, Zig.routine_eq, ends_peek_bind, ends_nth_bind, hpeek, hnext]
    refine ends_some_node_adds (by decide) ?_
    exact (ends_advance_adds hopened).adds_seq fun t ht => ends_name_adds _ (ht.kinds_eq hopened)

/-- A list of initializers. -/
theorem ends_expr_initList
    (depth : Nat)
    {kinds : List Zig.Kind}
    {trees : List (Shape Zig.Kind Zig.Kind)}
    (hkinds : s.kinds = [Zig.Kind.dot] ++
      (([Zig.Kind.leftBrace] ++ (kinds ++ [Zig.Kind.rightBrace])) ++ rest))
    (hbounded : Bounded rest)
    (hitems : ∀ t : Site Zig.Kind, t.kinds = kinds ++ ([Zig.Kind.rightBrace] ++ rest) →
      (repeatWhile (itemAndComma .rightBrace .initializer (initializer (level depth)))).Ends t
        fun _ u => t.Adds kinds trees u) :
    (level (depth + 3)).expr.Ends s fun _ t =>
      s.Adds ([Zig.Kind.dot] ++ ([Zig.Kind.leftBrace] ++ (kinds ++ [Zig.Kind.rightBrace])))
        [Shape.node Zig.Kind.initList ([Shape.leaf Zig.Kind.dot] ++
          ([Shape.leaf Zig.Kind.leftBrace] ++ (trees ++ [Shape.leaf Zig.Kind.rightBrace])))] t := by
  have hopened : s.opened.kinds = [Zig.Kind.dot] ++
      (([Zig.Kind.leftBrace] ++ (kinds ++ [Zig.Kind.rightBrace])) ++ rest) := hkinds
  have hpeek : s.peek = .dot := Site.peek_eq hkinds
  have hnext : s.nth 1 = .leftBrace := Site.nth_one_eq hkinds
  have hsplit := hkinds.trans (List.append_assoc ..).symm
  refine ends_expr_of_primaryType .initList hsplit hbounded ?_ ?_ ?_
  · rw [hpeek]
    decide
  · rw [hnext]
    decide
  · rw [primaryType, Zig.routine_eq, ends_peek_bind, ends_nth_bind, hpeek, hnext]
    refine ends_some_node_adds (by decide) ?_
    refine (ends_skip_adds hopened).adds_seq fun t ht => ?_
    have hbraces : t.kinds =
        [Zig.Kind.leftBrace] ++ (kinds ++ ([Zig.Kind.rightBrace] ++ rest)) := by
      rw [ht.kinds_eq hopened, List.append_assoc, List.append_assoc]
    exact ends_delimited_adds hbraces hitems

/-! ### Initializers one after another -/

section Items

variable {closing : Zig.Kind} {what : Item} {item : Parser Zig.Kind Unit}
  {taken : List Zig.Kind} {new : List (Shape Zig.Kind Zig.Kind)}
  (hfirst : ∀ kind ∈ taken.head?, kind ≠ closing ∧ kind ≠ .comma)
  (htaken : taken ≠ [])
  (hitem : item.Ends s fun _ t => s.Adds taken new t)
include hfirst htaken hitem

/-- An item starts a turn, which then looks for a comma. -/
theorem ends_itemAndComma_of_item
    {Q : Bool → Site Zig.Kind → Prop}
    (hkinds : s.kinds = taken ++ rest)
    (h : ∀ t, s.Adds taken new t → (do
      if ← eat .comma then return true
      if (← at_ closing) || (← atAny recovery) then return false
      expect .comma
      return true : Parser Zig.Kind Bool).Ends t Q) :
    (itemAndComma closing what item).Ends s Q := by
  obtain ⟨kind, more, rfl⟩ := List.exists_cons_of_ne_nil htaken
  obtain ⟨hclosing, hcomma⟩ := hfirst kind rfl
  have hend : s.kinds.isEmpty = false := by rw [hkinds]; rfl
  rw [itemAndComma, ends_at_bind, ends_atEnd_bind, Site.peek_eq hkinds, hend,
    beq_eq_false_iff_ne.mpr hclosing]
  simp only [Bool.or_self, Bool.false_eq_true, if_false, ends_at_bind, Site.peek_eq hkinds,
    beq_eq_false_iff_ne.mpr hcomma]
  have hmoves : (moves item).Ends s fun moved t => moved = true ∧ s.Adds (kind :: more) new t :=
    ends_moves (hitem.mono fun _ t ht => ⟨decide_eq_true (ht.left_lt (by simp)), ht⟩)
  refine hmoves.bind ?_
  rintro _ t ⟨rfl, ht⟩
  exact h t ht

/-- The last item stands in front of the closing bracket. -/
theorem ends_itemAndComma_last
    (hkinds : s.kinds = taken ++ ([closing] ++ rest))
    (hclosing : closing ≠ .comma) :
    (itemAndComma closing what item).Ends s fun again t => again = false ∧ s.Adds taken new t := by
  refine ends_itemAndComma_of_item hfirst htaken hitem hkinds fun t ht => ?_
  have hpeek : t.peek = closing := Site.peek_eq (ht.kinds_eq hkinds)
  refine (ends_eat_missing (by rw [hpeek]; exact hclosing)).bind ?_
  rintro _ _ ⟨rfl, rfl⟩
  simp only [Bool.false_eq_true, if_false, ends_at_bind, hpeek, beq_self_eq_true, Bool.true_or,
    if_true, ends_atAny_bind]
  exact ends_pure ⟨rfl, ht⟩

/-- Behind a comma another item may follow. -/
theorem ends_itemAndComma_comma
    (hkinds : s.kinds = taken ++ ([Zig.Kind.comma] ++ rest)) :
    (itemAndComma closing what item).Ends s fun again t =>
      again = true ∧ s.Adds (taken ++ [Zig.Kind.comma]) (new ++ [Shape.leaf Zig.Kind.comma]) t := by
  refine ends_itemAndComma_of_item hfirst htaken hitem hkinds fun t ht => ?_
  refine (ends_eat_adds (ht.kinds_eq hkinds)).bind ?_
  rintro _ u ⟨rfl, hu⟩
  exact ends_pure ⟨rfl, ht.trans hu⟩

end Items

/-- A loop that makes one more turn. -/
theorem ends_repeatWhile_adds
    {body : Parser Zig.Kind Bool}
    {taken taken' : List Zig.Kind}
    {new new' : List (Shape Zig.Kind Zig.Kind)}
    (htaken : taken ≠ [])
    (hturn : body.Ends s fun again t => again = true ∧ s.Adds taken new t)
    (hrest : ∀ t, s.Adds taken new t → (repeatWhile body).Ends t fun _ u => t.Adds taken' new' u) :
    (repeatWhile body).Ends s fun _ t => s.Adds (taken ++ taken') (new ++ new') t := by
  refine ends_iterate (hturn.bind ?_)
  rintro _ t ⟨rfl, ht⟩
  refine ends_pure ⟨fun _ => ⟨ht.left_lt htaken, ?_⟩, by simp⟩
  exact (hrest t ht).mono fun _ u hu => ht.trans hu

/-- A loop that makes its last turn. -/
theorem ends_repeatWhile_last
    {body : Parser Zig.Kind Bool}
    {taken : List Zig.Kind}
    {new : List (Shape Zig.Kind Zig.Kind)}
    (hturn : body.Ends s fun again t => again = false ∧ s.Adds taken new t) :
    (repeatWhile body).Ends s fun _ t => s.Adds taken new t := by
  refine ends_iterate (hturn.bind ?_)
  rintro _ t ⟨rfl, ht⟩
  exact ends_pure ⟨by simp, fun _ => ht⟩

/-! ### Derivations -/

/-- A node is translated to one tree. -/
theorem exists_translate
    (kind : Kind)
    (children : List (Shape Kind Kind)) :
    ∃ tree, translate (.node kind children) = [tree] := by
  rw [translate]
  fun_cases rebuild kind (translateAll children) <;> exact ⟨_, rfl⟩

theorem Rule.Value.exists_translate
    {n : Nat}
    {kinds : List Kind}
    {tree : Shape Kind Kind}
    (h : Rule.Value n kinds tree) :
    ∃ tree', translate tree = [tree'] := by
  cases h <;> exact Zon.exists_translate _ _

theorem translate_container
    (named : Bool)
    (children : List (Shape Kind Kind)) :
    translate (.node (if named then .struct else .array) children) =
      [.node .initList (translateAll children)] := by
  cases named <;> rfl

theorem translate_lines (m : Nat) :
    translate (.node .stringLiteral (List.replicate m (.leaf .lineString))) =
      [.node .stringLiteral (List.replicate m (.leaf .stringLiteralMulti))] := by
  have hall : ∀ m, translateAll (List.replicate m (.leaf .lineString)) =
      List.replicate m (.leaf .stringLiteralMulti) := by
    intro m
    induction m with
    | zero => rfl
    | succ m ih => rw [List.replicate_succ, translateAll, ih, List.replicate_succ]; rfl
  rw [translate, hall]
  rfl

/-- A value in front of a boundary does not look like the name of an initializer. -/
theorem Rule.Value.unnamed
    {n : Nat}
    {kinds : List Kind}
    {tree : Shape Kind Kind}
    (h : Rule.Value n kinds tree)
    (hkinds : s.kinds = kinds.map Kind.inZig ++ rest)
    (hbounded : Bounded rest) :
    (s.peek == .dot && s.nth 1 == .identifier && s.nth 2 == .eq) = false := by
  obtain ⟨kind, more, rfl, hkind⟩ := hbounded
  simp only [List.mem_cons, List.not_mem_nil, or_false] at hkind
  rw [Site.peek, Site.nth, Site.nth, Site.nth, hkinds]
  cases h with
  | enumLiteral => rcases hkind with rfl | rfl | rfl <;> rfl
  | lines n m => simp [List.replicate_succ, Kind.inZig]
  | number n hkind => rcases hkind with rfl | rfl <;> rfl
  | _ => rfl

/-- An entry starts with neither a comma nor a closing brace. -/
theorem Rule.Entry.first_inZig
    {n : Nat}
    {kinds : List Kind}
    {named : Bool}
    {tree : Shape Kind Kind}
    (h : Rule.Entry n kinds named tree) :
    kinds.map Kind.inZig ≠ [] ∧
      ∀ kind ∈ (kinds.map Kind.inZig).head?, kind ≠ .rightBrace ∧ kind ≠ .comma := by
  obtain ⟨first, rest, rfl, hcomma, hbrace⟩ := h.exists_first
  refine ⟨by simp, fun kind hkind => ?_⟩
  obtain rfl : first.inZig = kind := by simpa using hkind
  constructor
  · intro heq
    cases first <;> simp_all [Kind.inZig]
  · intro heq
    cases first <;> simp_all [Kind.inZig]

mutual

/-- **A value is read as its translation** in front of a boundary. -/
theorem Rule.Value.ends_expr
    {n depth : Nat}
    {kinds : List Kind}
    {tree : Shape Kind Kind}
    (h : Rule.Value n kinds tree)
    (hdepth : 3 * n + 1 ≤ depth)
    {s : Site Zig.Kind}
    {rest : List Zig.Kind}
    (hkinds : s.kinds = kinds.map Kind.inZig ++ rest)
    (hbounded : Bounded rest) :
    (level depth).expr.Ends s fun _ t => s.Adds (kinds.map Kind.inZig) (translate tree) t := by
  match h with
  | .empty n =>
      obtain ⟨depth, rfl⟩ : ∃ m, depth = m + 3 := ⟨depth - 3, by omega⟩
      refine @ends_expr_initList s rest depth [] [] hkinds hbounded fun t ht => ?_
      refine (ends_items_stop (Site.peek_eq ht)).mono fun _ u hu => ?_
      rw [hu]
      exact .refl t
  | @Rule.Value.container n kinds named trees h =>
      obtain ⟨depth, rfl⟩ : ∃ m, depth = m + 3 := ⟨depth - 3, by omega⟩
      have hlist := @ends_expr_initList s rest depth (kinds.map Kind.inZig) (translateAll trees)
        (by rw [hkinds]; simp [Kind.inZig]) hbounded fun t ht => h.ends_items (by omega) ht
      rw [translate_container, translateAll_append, translateAll_append]
      simpa [Kind.inZig, translateAll, translate] using hlist
  | .enumLiteral n =>
      obtain ⟨depth, rfl⟩ : ∃ m, depth = m + 3 := ⟨depth - 3, by omega⟩
      exact ends_expr_enumLiteral depth hkinds hbounded
  | .string n =>
      obtain ⟨depth, rfl⟩ : ∃ m, depth = m + 3 := ⟨depth - 3, by omega⟩
      exact ends_expr_single depth rfl hkinds hbounded
  | .lines n m =>
      obtain ⟨depth, rfl⟩ : ∃ m, depth = m + 3 := ⟨depth - 3, by omega⟩
      rw [List.map_replicate] at hkinds ⊢
      rw [translate_lines]
      exact ends_expr_lines depth hkinds hbounded
  | .char n =>
      obtain ⟨depth, rfl⟩ : ∃ m, depth = m + 3 := ⟨depth - 3, by omega⟩
      exact ends_expr_single depth rfl hkinds hbounded
  | .number n hkind =>
      obtain ⟨depth, rfl⟩ : ∃ m, depth = m + 3 := ⟨depth - 3, by omega⟩
      rcases hkind with rfl | rfl <;> exact ends_expr_single depth rfl hkinds hbounded
  | .negative n hkind =>
      obtain ⟨depth, rfl⟩ : ∃ m, depth = m + 4 := ⟨depth - 4, by omega⟩
      rcases hkind with rfl | rfl <;> exact ends_expr_negative depth rfl hkinds hbounded
  | .identifier n =>
      obtain ⟨depth, rfl⟩ : ∃ m, depth = m + 3 := ⟨depth - 3, by omega⟩
      exact ends_expr_single depth rfl hkinds hbounded

/-- An entry is read as an initializer. -/
theorem Rule.Entry.ends_initializer
    {n depth : Nat}
    {kinds : List Kind}
    {named : Bool}
    {tree : Shape Kind Kind}
    (h : Rule.Entry n kinds named tree)
    (hdepth : 3 * n + 1 ≤ depth)
    {s : Site Zig.Kind}
    {rest : List Zig.Kind}
    (hkinds : s.kinds = kinds.map Kind.inZig ++ rest)
    (hbounded : Bounded rest) :
    (initializer (level depth)).Ends s fun _ t =>
      s.Adds (kinds.map Kind.inZig) (translate tree) t := by
  rw [initializer, ends_at_bind, ends_nthAt_bind, ends_nthAt_bind]
  match h with
  | .positional h =>
      obtain ⟨value, hvalue⟩ := h.exists_translate
      simp only [h.unnamed hkinds hbounded]
      refine ends_discard ((h.ends_expr hdepth hkinds hbounded).mono fun _ t ht => ?_)
      rw [hvalue] at ht
      rw [translate, translateAll, hvalue]
      exact ht
  | @Rule.Entry.named n kinds tree h =>
      obtain ⟨value, hvalue⟩ := h.exists_translate
      have hopened : s.opened.kinds = [Zig.Kind.dot] ++ ([Zig.Kind.identifier] ++ ([Zig.Kind.eq] ++
        (kinds.map Kind.inZig ++ rest))) := hkinds
      have hname : (s.peek == .dot && s.nth 1 == .identifier && s.nth 2 == .eq) = true := by
        rw [Site.peek, Site.nth, Site.nth, Site.nth, hkinds]
        rfl
      have hbody : (do
            advance
            name .empty
            advance
            discard (level depth).expr : Parser Zig.Kind Unit).Ends s.opened fun _ t =>
          s.opened.Adds
            ([Zig.Kind.dot] ++ ([Zig.Kind.identifier] ++ ([Zig.Kind.eq] ++ kinds.map Kind.inZig)))
            ([Shape.leaf Zig.Kind.dot] ++
              ([Shape.node Zig.Kind.ident [Shape.leaf Zig.Kind.identifier]] ++
                ([Shape.leaf Zig.Kind.eq] ++ translate tree))) t := by
        refine (ends_advance_adds hopened).adds_seq fun t ht => ?_
        have hident := ht.kinds_eq hopened
        refine (ends_name_adds _ hident).adds_seq fun u hu => ?_
        have heq := hu.kinds_eq hident
        refine (ends_advance_adds heq).adds_seq fun v hv => ends_discard ?_
        exact h.ends_expr hdepth (hv.kinds_eq heq) hbounded
      simp only [hname]
      refine (ends_node_adds (by decide) hbody).mono fun _ t ht => ?_
      rw [hvalue] at ht
      rw [translate, translateAll, translateAll, translateAll, translateAll, translateAll, hvalue]
      exact ht

/-- Entries are read as initializers up to the closing brace. -/
theorem Rule.Entries.ends_items
    {n depth : Nat}
    {kinds : List Kind}
    {named : Bool}
    {trees : List (Shape Kind Kind)}
    (h : Rule.Entries n kinds named trees)
    (hdepth : 3 * n + 1 ≤ depth)
    {s : Site Zig.Kind}
    {rest : List Zig.Kind}
    (hkinds : s.kinds = kinds.map Kind.inZig ++ ([Zig.Kind.rightBrace] ++ rest)) :
    (repeatWhile (itemAndComma .rightBrace .initializer (initializer (level depth)))).Ends s
      fun _ t => s.Adds (kinds.map Kind.inZig) (translateAll trees) t := by
  have hbrace : Bounded ([Zig.Kind.rightBrace] ++ rest) := ⟨_, _, rfl, by simp⟩
  match h with
  | .one h =>
      obtain ⟨hsome, hfirst⟩ := h.first_inZig
      rw [translateAll, translateAll, List.append_nil]
      exact ends_repeatWhile_last
        (ends_itemAndComma_last hfirst hsome (h.ends_initializer hdepth hkinds hbrace) hkinds
          (by decide))
  | @Rule.Entries.last n kinds named tree h =>
      obtain ⟨hsome, hfirst⟩ := h.first_inZig
      have hcomma : s.kinds = kinds.map Kind.inZig ++
          ([Zig.Kind.comma] ++ ([Zig.Kind.rightBrace] ++ rest)) := by
        rw [hkinds]
        simp [Kind.inZig]
      have hitem := h.ends_initializer hdepth hcomma ⟨_, _, rfl, by simp⟩
      have hturn := @ends_itemAndComma_comma _ _ _ .initializer _ _ _ hfirst hsome hitem hcomma
      have hloop := ends_repeatWhile_adds (by simp) hturn fun t ht => by
        have hend : t.kinds = [Zig.Kind.rightBrace] ++ rest :=
          ht.kinds_eq (by rw [hcomma, List.append_assoc])
        refine (ends_items_stop (Site.peek_eq hend)).mono fun _ u hu => ?_
        rw [hu]
        exact Site.Adds.refl t
      simpa [translateAll, translate, Kind.inZig] using hloop
  | @Rule.Entries.cons n kinds more named others tree trees h hmore =>
      obtain ⟨hsome, hfirst⟩ := h.first_inZig
      have hcomma : s.kinds = kinds.map Kind.inZig ++ ([Zig.Kind.comma] ++
          (more.map Kind.inZig ++ ([Zig.Kind.rightBrace] ++ rest))) := by
        rw [hkinds]
        simp [Kind.inZig]
      have hitem := h.ends_initializer hdepth hcomma ⟨_, _, rfl, by simp⟩
      have hturn := @ends_itemAndComma_comma _ _ _ .initializer _ _ _ hfirst hsome hitem hcomma
      have hloop := ends_repeatWhile_adds (by simp) hturn fun t ht =>
        hmore.ends_items hdepth (ht.kinds_eq (by rw [hcomma, List.append_assoc]))
      rw [translateAll_append]
      simpa [translateAll, translate, Kind.inZig] using hloop

end

mutual

/-- The containers in a value have lexemes. -/
theorem Rule.Value.spans_pos
    {n : Nat}
    {kinds : List Kind}
    {tree : Shape Kind Kind}
    (h : Rule.Value n kinds tree)
    (rank : Nat) :
    ∀ x ∈ Shape.spans isContainer rank [tree], 0 < x.2 := by
  match h with
  | @Rule.Value.container n kinds named trees h =>
      have hkind : isContainer (if named then .struct else .array) = true := by
        cases named <;> rfl
      rw [Shape.spans_node, if_pos hkind]
      intro x hx
      simp only [Shape.spans_nil, List.append_nil, List.mem_append, Shape.spans_append,
        Shape.spans_leaf, List.not_mem_nil, false_or, List.mem_singleton] at hx
      rcases hx with rfl | hx
      · simp
      · exact h.spans_pos (rank + 2) x hx
  | .empty n => simp [Shape.spans_node, isContainer]
  | .enumLiteral n => simp [Shape.spans_node, isContainer]
  | .string n => simp [Shape.spans_node, isContainer]
  | .lines n m =>
      have hleaves : ∀ m rank, Shape.spans isContainer rank
          (List.replicate m (Shape.leaf Kind.lineString : Shape Kind Kind)) = [] := by
        intro m
        induction m with
        | zero => exact fun _ => rfl
        | succ m ih => exact fun rank => by rw [List.replicate_succ, Shape.spans_leaf, ih]
      simp [Shape.spans_node, isContainer, hleaves]
  | .char n => simp [Shape.spans_node, isContainer]
  | .number n hkind => simp [Shape.spans_node, isContainer]
  | .negative n hkind => simp [Shape.spans_node, isContainer]
  | .identifier n => simp [Shape.spans_node, isContainer]

theorem Rule.Entry.spans_pos
    {n : Nat}
    {kinds : List Kind}
    {named : Bool}
    {tree : Shape Kind Kind}
    (h : Rule.Entry n kinds named tree)
    (rank : Nat) :
    ∀ x ∈ Shape.spans isContainer rank [tree], 0 < x.2 := by
  match h with
  | .positional h =>
      rw [Shape.spans_node]
      simpa [isContainer] using h.spans_pos rank
  | .named h =>
      rw [Shape.spans_node]
      simpa [isContainer, Shape.spans_node] using h.spans_pos (rank + 3)

theorem Rule.Entries.spans_pos
    {n : Nat}
    {kinds : List Kind}
    {named : Bool}
    {trees : List (Shape Kind Kind)}
    (h : Rule.Entries n kinds named trees)
    (rank : Nat) :
    ∀ x ∈ Shape.spans isContainer rank trees, 0 < x.2 := by
  match h with
  | .one h => exact h.spans_pos rank
  | @Rule.Entries.last n kinds named tree h =>
      have hsplit : [tree, .leaf .comma] = [tree] ++ [Shape.leaf Kind.comma] := rfl
      rw [hsplit, Shape.spans_append]
      simpa using h.spans_pos rank
  | @Rule.Entries.cons n kinds more named others tree trees h hmore =>
      rw [Shape.spans_append]
      intro x hx
      rcases List.mem_append.mp hx with hx | hx
      · exact h.spans_pos rank x hx
      · exact hmore.spans_pos _ x hx

end

end Values

/-! ## A value as a constant -/

/-- A text as the value of a constant. -/
def inConstant (text : Text) : Text := "const x =\n".toList ++ text ++ "\n;\n".toList

/-- The lexemes in front of the value of a constant. -/
def constantFront : List (Lexeme Zig.Kind) :=
  [⟨.constKw, "const".toList⟩, ⟨.identifier, ['x']⟩, ⟨.eq, ['=']⟩]

/-- The significant lexemes of a text on lines of its own, between some front and a
semicolon. -/
theorem places_lex_between
    {front : Text}
    (hfront : ∀ l ∈ (tokensOf (Zig.lex front)).getLast?, l.kind ≠ .stringLiteralMulti)
    (text : Text) :
    places 0 (Zig.lex (front ++ '\n' :: (text ++ '\n' :: ";\n".toList))) =
      (places 0 (Zig.lex front)).dropLast ++
        ((places (front.size + 1) (Zig.lex text)).dropLast ++
          places (front.size + 1 + text.size + 1) (Zig.lex ";\n".toList)) := by
  have hunmarked : ¬ Scan.Marked ";\n".toList := by
    unfold Scan.Marked
    decide
  have hwhole := Zig.places_lex_lineFeed 0 front (text ++ '\n' :: ";\n".toList)
    fun l hl hmulti => absurd hmulti (hfront l hl)
  rw [Zig.places_lex_lineFeed _ text _ fun _ _ _ => hunmarked, Nat.zero_add] at hwhole
  exact hwhole

/-- The significant lexemes of a file that is one constant: those of the value stand between
the others, in their new places. -/
theorem places_lex_inConstant (text : Text) :
    ∃ front behind,
      front.map Located.toLexeme = constantFront ∧
      behind.map Located.toLexeme = [⟨.semicolon, [';']⟩, ⟨.eof, []⟩] ∧
      places 0 (Zig.lex (inConstant text)) =
        front ++ ((places 10 (Zig.lex text)).dropLast ++ behind) := by
  have htext : inConstant text =
      "const x =".toList ++ '\n' :: (text ++ '\n' :: ";\n".toList) := by
    have hhead : "const x =\n".toList = "const x =".toList ++ ['\n'] := by decide
    have htail : "\n;\n".toList = '\n' :: ";\n".toList := by decide
    change "const x =\n".toList ++ text ++ "\n;\n".toList = _
    rw [hhead, htail, List.append_assoc, List.append_assoc, List.singleton_append]
  have hfront : tokensOf (Zig.lex "const x =".toList) = constantFront := by decide +kernel
  have hwhole := places_lex_between (by rw [hfront]; simp [constantFront]) text
  have hsize : Text.size "const x =".toList + 1 = 10 := by decide
  rw [hsize] at hwhole
  rw [htext]
  refine ⟨_, _, ?_, ?_, hwhole⟩
  · rw [List.map_dropLast, map_toLexeme_places]
    exact hfront
  · rw [map_toLexeme_places]
    decide +kernel

/-- The tree of a constant with a value. -/
def constantOutline (value : List (Shape Zig.Kind Zig.Kind)) : Shape Zig.Kind Zig.Kind :=
  .node .varDecl ([.leaf .constKw] ++ ([.node .ident [.leaf .identifier]] ++
    ([.leaf .eq] ++ (value ++ [.leaf .semicolon]))))

section Runs

variable {s : Site Zig.Kind} {kinds : List Kind} {tree : Shape Kind Kind}
  (h : Rule.Value 64 kinds tree)
include h

/-- A constant is read up to its semicolon. -/
theorem ends_varDecl_value
    (hkinds : s.kinds = [Zig.Kind.constKw] ++ ([Zig.Kind.identifier] ++ ([Zig.Kind.eq] ++
      (kinds.map Kind.inZig ++ [Zig.Kind.semicolon])))) :
    (varDecl (level maxDepth)).Ends s fun _ t =>
      s.Adds s.kinds ([Shape.leaf Zig.Kind.constKw] ++
        ([Shape.node Zig.Kind.ident [Shape.leaf Zig.Kind.identifier]] ++
          ([Shape.leaf Zig.Kind.eq] ++
            (translate tree ++ [Shape.leaf Zig.Kind.semicolon])))) t := by
  rw [hkinds, varDecl]
  refine (ends_advance_adds hkinds).adds_seq fun t ht => ?_
  have hname := ht.kinds_eq hkinds
  refine (ends_name_adds _ hname).adds_seq fun u hu => ?_
  have heq := hu.kinds_eq hname
  have hpeek : u.peek = .eq := Site.peek_eq heq
  refine (ends_eat_missing (by rw [hpeek]; decide)).bind ?_
  rintro _ _ ⟨rfl, rfl⟩
  refine (ends_clauses_missing (by rw [hpeek]; decide)).bind ?_
  rintro _ u rfl
  refine (ends_eat_adds heq).bind ?_
  rintro _ v ⟨rfl, hv⟩
  have hvalue := hv.kinds_eq heq
  have hexpr : (level maxDepth).expr.Ends v fun _ t =>
      v.Adds (kinds.map Kind.inZig) (translate tree) t :=
    h.ends_expr (by decide) hvalue ⟨_, _, rfl, by simp⟩
  refine ((ends_discard hexpr).adds_seq fun w hw => ?_).mono fun _ x hx => hv.trans hx
  exact ends_expect_adds (hw.kinds_eq hvalue)

/-- A file that is one constant. -/
theorem ends_members_value
    (hkinds : s.kinds = [Zig.Kind.constKw] ++ ([Zig.Kind.identifier] ++ ([Zig.Kind.eq] ++
      (kinds.map Kind.inZig ++ [Zig.Kind.semicolon])))) :
    members.Ends s fun _ t => s.Adds s.kinds [constantOutline (translate tree)] t := by
  have hopened : s.opened.kinds = [Zig.Kind.constKw] ++ ([Zig.Kind.identifier] ++ ([Zig.Kind.eq] ++
      (kinds.map Kind.inZig ++ [Zig.Kind.semicolon]))) := hkinds
  have hpeek : s.peek = .constKw := Site.peek_eq hkinds
  have hfirst : s.opened.peek = .constKw := hpeek
  have hsome : s.kinds ≠ [] := by simp [hkinds]
  have hmember : (containerMember (level maxDepth)).Ends s fun _ t =>
      s.Adds s.kinds [constantOutline (translate tree)] t := by
    rw [containerMember, Zig.routine_eq, ends_peek_bind, hpeek]
    refine ends_discard (ends_nodeOf ?_)
    rw [declBody]
    refine (ends_skip_missing (by rw [hfirst]; decide)).bind ?_
    rintro _ _ rfl
    refine (ends_eat_missing (by rw [hfirst]; decide)).bind ?_
    rintro _ _ ⟨rfl, rfl⟩
    simp only [Bool.false_eq_true, if_false]
    refine (ends_linkage_missing (by rw [hfirst]; decide)).bind ?_
    rintro _ _ rfl
    have hfn : (s.opened.peek == .fnKw) = false := by rw [hfirst]; rfl
    simp only [ends_at_bind, hfn, Bool.false_eq_true, if_false]
    refine (ends_skip_missing (by rw [hfirst]; decide)).bind ?_
    rintro _ _ rfl
    simp only [ends_at_bind, hfirst, beq_self_eq_true, Bool.true_or, if_true]
    refine (ends_varDecl_value h hopened).bind fun _ t ht => ends_pure ⟨by decide, ?_⟩
    exact ht.closed
  have hturn : (memberInContainer (level maxDepth) false).Ends s fun again t =>
      again = true ∧ s.Adds s.kinds [constantOutline (translate tree)] t := by
    have hend : s.kinds.isEmpty = false := by simpa using hsome
    rw [memberInContainer, ends_atEnd_bind, ends_at_bind, hend]
    simp only [Bool.false_and, Bool.or_self, Bool.false_eq_true, if_false]
    have hmoves : (moves (containerMember (level maxDepth))).Ends s fun moved t =>
        moved = true ∧ s.Adds s.kinds [constantOutline (translate tree)] t :=
      ends_moves (hmember.mono fun _ t ht => ⟨decide_eq_true (ht.left_lt hsome), ht⟩)
    refine hmoves.bind ?_
    rintro _ t ⟨rfl, ht⟩
    exact ends_pure ⟨rfl, ht⟩
  have hloop := ends_repeatWhile_adds hsome hturn fun t ht => by
    have hend : t.kinds = [] := ht.kinds_eq (List.append_nil _).symm
    refine (ends_members_node t).mono fun _ u hu => ?_
    rw [hu.2.2.1 hend]
    exact Site.Adds.refl t
  rw [List.append_nil, List.append_nil] at hloop
  exact hloop

/-- A file that is one constant has a parse without errors. -/
theorem exists_parse_constant
    {text : Text}
    (hkinds : (tokensOf (Zig.lex text)).map Lexeme.kind =
      [Zig.Kind.constKw] ++ ([Zig.Kind.identifier] ++ ([Zig.Kind.eq] ++
        (kinds.map Kind.inZig ++ [Zig.Kind.semicolon])))) :
    ∃ q,
      Zig.parse? text = some q ∧
      q.diagnostics = [] ∧
      q.root.lexemes = Zig.lex text ∧
      q.root.outline =
        .node .sourceFile ([constantOutline (translate tree)] ++ [.leaf .eof]) := by
  obtain ⟨t, hcursor, hleads, ht⟩ := @ends_members_value
    ⟨.ofList (tokensOf (Zig.lex text)), [], [], 0⟩ _ _ h hkinds
  obtain ⟨cursor, behind, children, reports⟩ := t
  obtain rfl : cursor = _ := hcursor
  obtain rfl : behind = [] := ht.behind
  obtain rfl : children = [constantOutline (translate tree)] := ht.children
  obtain rfl : reports = 0 := ht.reports
  obtain ⟨q, hq, hlexemes, houtline, -, hlength⟩ := exists_parse_of_leads rfl rfl hleads
  exact ⟨q, hq, List.length_eq_zero_iff.mp hlength, hlexemes, houtline⟩

end Runs

/-! ## Files -/

/-- A file without errors is a value, and its tree is that of the value. -/
theorem exists_value_of_parse
    {text : Text}
    {p : Parse Kind}
    (hp : parse? text = some p)
    (hquiet : ∀ d ∈ p.diagnostics, d.severity ≠ .error) :
    ∃ tree,
      Rule.Value maxDepth (significantKinds (lex text)) tree ∧
      p.root.outline = .node .file [tree, .leaf .eof] ∧
      p.root.lexemes = lex text := by
  have hstart : (Site.ofList (significant (tokensWith read text))).kinds =
      significantKinds (lex text) := map_kind_significant read text
  have hends := (ends_document (.ofList (significant (tokensWith read text)))).and
    (ends_document_reads _)
  rw [hstart] at hends
  have hfile : Kind.file ≠ Vocabulary.tombstone := by decide
  obtain ⟨t, hreads, hgrow, herrors⟩ := Parser.Ends.exists_grow? hfile
    (hends.mono fun _ _ ht => ⟨ht.1.2, ht.1.1.behind, ht.2⟩)
  obtain ⟨q, hq, hdiagnostics, -, -⟩ := ofGrammar?_of_grow? hgrow
  obtain rfl := Option.some.inj (hp.symm.trans (parse?_of_ofGrammar? hq))
  rw [hdiagnostics, forall_severity_ne_error_iff, ← List.length_eq_zero_iff,
    herrors _ (length_tokensWith read text)] at hquiet
  obtain ⟨tree, htree⟩ := hreads hquiet
  obtain ⟨p', hp', -, hlexemes, houtline⟩ := exists_parse_of_value htree
  obtain rfl := Option.some.inj (hp.symm.trans hp')
  exact ⟨tree, htree, houtline, hlexemes⟩

theorem map_kind_significantLexemes (text : Text) :
    (significantLexemes (lex text)).map Lexeme.kind =
      significantKinds (lex text) ++ [Kind.eof] := by
  rw [lex, ← map_toLexeme_places 0, ← map_lexeme_tokensWith, List.map_map, List.map_map]
  exact map_kind_tokensWith read text

/-- The kinds of the value of a file in Zig. -/
theorem map_kind_placedInZig
    (start : Nat)
    (text : Text) :
    (((places start (lex text)).map placedInZig).dropLast.map Located.toLexeme).map Lexeme.kind =
      (significantKinds (lex text)).map Kind.inZig := by
  have hkinds : (((places start (lex text)).map placedInZig).map Located.toLexeme).map Lexeme.kind =
      ((significantLexemes (lex text)).map Lexeme.kind).map Kind.inZig := by
    rw [← map_toLexeme_places start, List.map_map, List.map_map, List.map_map, List.map_map]
    rfl
  rw [List.map_dropLast, List.map_dropLast, hkinds, map_kind_significantLexemes, List.map_append]
  exact List.dropLast_concat

/-- Both languages share the lexemes of a value whose words are no keywords. -/
theorem Rule.Value.shared
    {n : Nat}
    {text : Text}
    {tree : Shape Kind Kind}
    (h : Rule.Value n (significantKinds (lex text)) tree)
    (hwords : ∀ l ∈ lex text, l.kind = .identifier → ¬ ['@'] <+: l.text →
      Zig.Kind.ofKeyword? l.text = none) :
    Shared (significantLexemes (lex text)) where
  known := by
    intro l hl hbad
    have hmem := List.mem_map_of_mem (f := Lexeme.kind) hl
    rw [map_kind_significantLexemes, hbad, List.mem_append] at hmem
    rcases hmem with hmem | hmem
    · exact h.clean.known hmem
    · simp at hmem
  apart := by
    rw [map_kind_significantLexemes]
    exact h.clean.apart [.eof] (List.isChain_singleton _)
  words := fun l hl => hwords l (List.mem_of_mem_filter hl)

/-- The ranges of the significant lexemes of a file, without the end of file. -/
def significantRanges (text : Text) : List Range :=
  (places 0 (lex text)).dropLast.map fun l => l.range

/-- The containers of a value span lexemes of the file. -/
theorem bounds_of_mem_spans
    {n : Nat}
    {text : Text}
    {r : Root Kind}
    {tree : Shape Kind Kind}
    (h : Rule.Value n (significantKinds (lex text)) tree)
    (houtline : r.outline = .node .file [tree, .leaf .eof])
    (hlexemes : r.lexemes = lex text)
    {x : Nat × Nat}
    (hx : x ∈ Shape.spans isContainer 0 [tree]) :
    0 < x.2 ∧ x.1 + x.2 ≤ (significantRanges text).length := by
  refine ⟨h.spans_pos 0 x hx, ?_⟩
  have hleaves : tree.leaves.length + 1 = (places 0 (lex text)).length := by
    have hbare := congrArg List.length r.leaves_bare
    rw [← List.length_map Lexeme.kind, ← Shape.leaves_map, r.map_kind_bare, houtline, hlexemes,
      ← length_places 0] at hbare
    simpa using hbare
  have hbound := Shape.add_le_of_mem_spans hx
  rw [List.flatMap_singleton] at hbound
  rw [significantRanges, List.length_map, List.length_dropLast]
  omega

/-- The trimmed ranges of the containers of a file that is a value. -/
theorem map_trimmedRange_containers
    {n : Nat}
    {text : Text}
    {r : Root Kind}
    {tree : Shape Kind Kind}
    (h : Rule.Value n (significantKinds (lex text)) tree)
    (houtline : r.outline = .node .file [tree, .leaf .eof])
    (hlexemes : r.lexemes = lex text) :
    (r.node.descendants.filter fun n => isContainer n.kind).map Node.trimmedRange =
      (Shape.spans isContainer 0 [tree]).map (.ofSpan (significantRanges text)) := by
  have hsplit : [tree, .leaf .eof] = [tree] ++ [Shape.leaf Kind.eof] := rfl
  have hspans : Shape.spans isContainer 0 [r.outline] = Shape.spans isContainer 0 [tree] := by
    rw [houtline, Shape.spans_node, hsplit, Shape.spans_append]
    simp [isContainer]
  rw [Root.map_trimmedRange, hspans]
  · refine List.map_congr_left fun x hx => ?_
    have hle := (bounds_of_mem_spans h houtline hlexemes hx).2
    have hsome : places 0 (lex text) ≠ [] := by
      rw [← List.length_pos_iff, length_places, ← List.length_map Lexeme.kind,
        map_kind_significantLexemes, List.length_append]
      exact Nat.succ_pos _
    rw [hlexemes, ← List.dropLast_append_getLast hsome, List.map_append]
    exact Range.ofSpan_append _ hle
  · rw [hspans]
    exact h.spans_pos 0

/-- The trimmed ranges of the lists of initializers in a file that is one constant. -/
theorem map_trimmedRange_initLists
    {text : Text}
    {r : Root Zig.Kind}
    {tree : Shape Kind Kind}
    {front behind : List (Located Zig.Kind)}
    (hbounds : ∀ x ∈ Shape.spans isContainer 0 [tree],
      0 < x.2 ∧ x.1 + x.2 ≤ (significantRanges text).length)
    (houtline : r.outline =
      .node .sourceFile ([constantOutline (translate tree)] ++ [.leaf .eof]))
    (hfront : front.length = 3)
    (hplaces : places 0 r.lexemes =
      front ++ (((places 10 (lex text)).map placedInZig).dropLast ++ behind)) :
    (r.node.descendants.filter fun n => isInitList n.kind).map Node.trimmedRange =
      (Shape.spans isContainer 0 [tree]).map fun x =>
        Range.shift 10 (.ofSpan (significantRanges text) x) := by
  have hspans : Shape.spans isInitList 0 [r.outline] =
      (Shape.spans isContainer 0 [tree]).map fun x => (x.1 + 3, x.2) := by
    have hvalue := spans_translateAll 3 [tree]
    rw [translateAll, translateAll, List.append_nil] at hvalue
    rw [← Shape.spans_add, Nat.zero_add, ← hvalue, houtline, Shape.spans_node, Shape.spans_append]
    simp [constantOutline, Shape.spans_node, Shape.spans_append, isInitList]
  have hranges : (places 0 r.lexemes).map (fun l => l.range) =
      front.map (fun l => l.range) ++ ((significantRanges text).map (Range.shift 10) ++
        behind.map fun l => l.range) := by
    have hshift := places_shift 0 10 (lex text)
    rw [Nat.zero_add] at hshift
    rw [hplaces, hshift, List.map_append, List.map_append, significantRanges, ← List.map_dropLast,
      ← List.map_dropLast, List.map_map, List.map_map, List.map_map]
    refine congrArg (_ ++ ·) (congrArg (· ++ _) (List.map_congr_left fun l _ => ?_))
    exact Located.range_shift 10 l
  rw [Root.map_trimmedRange, hspans, List.map_map]
  · refine List.map_congr_left fun x hx => ?_
    obtain ⟨hpos, hle⟩ := hbounds x hx
    rw [Function.comp_apply, hranges, ← hfront,
      ← List.length_map fun l : Located Zig.Kind => l.range]
    exact Range.ofSpan_shift 10 _ _ hpos hle
  · rw [hspans]
    intro y hy
    obtain ⟨x, hx, rfl⟩ := List.mem_map.mp hy
    exact (hbounds x hx).1

/-- **Zon is a sublanguage of Zig.**  A Zon file without errors whose words are no keywords
of Zig and whose values nest at most 64 deep is the value of a constant of Zig: nothing is
reported, the constant is all there is, and the lists of initializers have the trimmed
ranges of the containers, in preorder and moved behind the front of the constant. -/
theorem parse?_inConstant
    {text : Text}
    {p : Parse Kind}
    (hp : parse? text = some p)
    (hquiet : ∀ d ∈ p.diagnostics, d.severity ≠ .error)
    (hwords : ∀ l ∈ lex text, l.kind = .identifier → ¬ ['@'] <+: l.text →
      Zig.Kind.ofKeyword? l.text = none)
    (hnesting : nesting p.root.outline ≤ 64) :
    ∃ q,
      Zig.parse? (inConstant text) = some q ∧
      q.diagnostics = [] ∧
      q.root.node.childNodes.map (fun n => n.kind) = [.varDecl] ∧
      (q.root.node.descendants.filter fun n => isInitList n.kind).map Node.trimmedRange =
        (p.root.node.descendants.filter fun n => isContainer n.kind).map
          fun n => n.trimmedRange.shift 10 := by
  obtain ⟨tree, htree, houtline, hlexemes⟩ := exists_value_of_parse hp hquiet
  have hdeep : nesting tree ≤ 64 := by
    rw [houtline] at hnesting
    simpa [nesting, nestingAll] using hnesting
  have hplaces := places_lex_inZig 10 text (htree.shared hwords)
  obtain ⟨front, behind, hfront, hbehind, hall⟩ := places_lex_inConstant text
  rw [hplaces] at hall
  have hkinds : (tokensOf (Zig.lex (inConstant text))).map Lexeme.kind =
      [Zig.Kind.constKw] ++ ([Zig.Kind.identifier] ++ ([Zig.Kind.eq] ++
        ((significantKinds (lex text)).map Kind.inZig ++ [Zig.Kind.semicolon]))) := by
    rw [tokensOf, ← map_toLexeme_places 0, hall, List.map_append, List.map_append, hfront, hbehind,
      ← List.append_assoc, List.dropLast_append_cons, List.map_append, List.map_append,
      map_kind_placedInZig]
    simp [constantFront]
  obtain ⟨q, hq, hnone, hqlexemes, hqoutline⟩ :=
    exists_parse_constant (htree.at_nesting hdeep) hkinds
  refine ⟨q, hq, hnone, ?_, ?_⟩
  · have hone := Node.map_outline_childNodes q.root.node
    have houtlines : Tree.outlines q.root.node.children =
        [constantOutline (translate tree), .leaf .eof] := (Shape.node.inj hqoutline).2
    rw [houtlines] at hone
    obtain ⟨n, hn, hnode⟩ := List.map_eq_singleton_iff.mp hone
    rw [hn, List.map_singleton, (Shape.node.inj hnode).1]
  · have hranges := map_trimmedRange_containers htree houtline hlexemes
    rw [← hqlexemes] at hall
    have hthree : front.length = 3 := by
      rw [← List.length_map Located.toLexeme, hfront]
      rfl
    rw [map_trimmedRange_initLists (fun x => bounds_of_mem_spans htree houtline hlexemes) hqoutline
      hthree hall]
    have hshift := congrArg (List.map (Range.shift 10)) hranges
    rw [List.map_map, List.map_map] at hshift
    exact hshift.symm

/-- A struct with an array in it. -/
theorem parse?_inConstant_nested :
    ∃ p q,
      parse? ".\x7b .@\"if\" = -1, .\x7b .b, c \x7d \x7d // end".toList = some p ∧
      (∀ d ∈ p.diagnostics, d.severity ≠ .error) ∧
      nesting p.root.outline ≤ 64 ∧
      Zig.parse? (inConstant ".\x7b .@\"if\" = -1, .\x7b .b, c \x7d \x7d // end".toList) = some q ∧
      q.diagnostics = [] ∧
      q.root.node.childNodes.map (fun n => n.kind) = [.varDecl] ∧
      (q.root.node.descendants.filter fun n => isInitList n.kind).map Node.trimmedRange =
        (p.root.node.descendants.filter fun n => isContainer n.kind).map
          fun n => n.trimmedRange.shift 10 := by
  have hgood : (parse? ".\x7b .@\"if\" = -1, .\x7b .b, c \x7d \x7d // end".toList).any (fun p =>
      decide (∀ d ∈ p.diagnostics, d.severity ≠ .error) && decide (nesting p.root.outline ≤ 64)) =
        true := by
    decide +kernel
  obtain ⟨p, hp, hgood⟩ := (Option.any_eq_true ..).mp hgood
  rw [Bool.and_eq_true, decide_eq_true_iff, decide_eq_true_iff] at hgood
  obtain ⟨hquiet, hnesting⟩ := hgood
  obtain ⟨q, hq, hresult⟩ := parse?_inConstant hp hquiet (by decide +kernel) hnesting
  exact ⟨p, q, hp, hquiet, hnesting, hq, hresult⟩

end Zon
end ZigCst
