import ZigCst.Proofs.Names
import ZigCst.Proofs.Written
import ZigCst.Proofs.ZonForms

/-!
# Slots of expressions

Wherever the grammar has a slot for an expression, a type or a value, the parser of the
slot adds one node and nothing beside it.  It adds an error if it fails, so that a
missing type never lets a value take its place.  What stands behind the colon or the
equals sign of a declaration is then read off its children in place.

**Definitions.**
* `Site.Fills`: one node of some kinds was added.
* `FilledBehind`: a slot is filled exactly if a token announces it, by the node right
  behind that token.
* `SlotsFilled`: the slots of declarations, initializers and prefix operations.

**Results.**
* `Parser.Ends.and_forms`: what a sound parser adds is made up as its patterns say.
* `ends_expr_fills`, `ends_assignExpr_fills`, `ends_type_fills`, `ends_value_fills`: each
  parser of a slot fills it.
* `slots_filled`: the slots of all parsers and of all files.
-/

namespace ZigCst

/-! ## What a run adds -/

section Adding

variable {K α : Type} [DecidableEq K] [Vocabulary K]

/-- What a parser that can be followed adds is made up as it is on drafts. -/
theorem Parser.Ends.and_forms
    {p : Parser K α}
    {s : Site K}
    {P : α → Site K → Prop}
    {R : K → List (Marked K) → Prop}
    {F : α → List (Pattern K)}
    (h : p.Ends s P)
    (hforms : p.Forms R s.cursor F) :
    p.Ends s fun a t => P a t ∧ ∃ ms,
      t.children = (ms.filterMap Marked.plain?).reverse ++ s.children ∧ Regular R (F a) ms := by
  obtain ⟨t, hcursor, hleads, ht⟩ := h
  refine ⟨t, hcursor, hleads, ht, ?_⟩
  let desk : Desk K := ⟨s.cursor, s.children.map (Shape.map Mark.lexeme)⟩
  have hfollows : (desk.draft s.behind [[]]).Follows
      ⟨s.ahead, .growing ⟨none, s.children⟩ []⟩ := by
    refine ⟨rfl, ?_⟩
    simp only [desk, Desk.draft, Draft.levels, Stage.levels, Bed.shapes, List.filterMap_reverse,
      List.map_cons, Marked.filterMap_plain?_map_lexeme]
    rfl
  obtain ⟨d, hd, hfollows⟩ := hfollows.exists_run (hleads.run none [])
  obtain ⟨u, -, rfl, ms, hu, hms⟩ := hforms _ _ _ d hd
  refine ⟨ms, ?_, hms⟩
  have hlevels := hfollows.levels
  simp only [Desk.draft, Draft.levels, Stage.levels, List.map_cons, List.cons.injEq,
    Bed.shapes, Option.toList_none, List.nil_append] at hlevels
  rw [← List.reverse_inj, ← hlevels.1, hu, List.reverse_append, List.filterMap_append,
    List.filterMap_reverse, Marked.filterMap_plain?_map_lexeme, List.reverse_append]
  simp

/-- Nothing but one node of some kinds was added to the innermost node. -/
structure Site.Fills (s : Site K) (kinds : List K) (t : Site K) : Prop where
  behind : t.behind = s.behind
  children : ∃ kind children, t.children = .node kind children :: s.children ∧ kind ∈ kinds

/-- A parser that plants a node plants one of the kinds that it leaves. -/
theorem Parser.Plants.fills
    {p : Parser K α}
    {R : K → List (Marked K) → Prop}
    {kinds : α → List K}
    (h : p.Plants)
    {s : Site K}
    (hforms : p.Forms R s.cursor fun a => [Pattern.nodes (kinds a)]) :
    p.Ends s fun a t => s.Fills (kinds a) t := by
  refine ((h s).and_forms hforms).mono ?_
  rintro a t ⟨hplants, ms, hchildren, hms⟩
  obtain ⟨kind, children, rfl, hkind, -⟩ := hms.exists_node
  refine ⟨hplants.behind, kind, children.filterMap Marked.plain?, ?_, hkind⟩
  simpa using hchildren

/-- Whatever a value is known to be, it is at the end of a run. -/
theorem Parser.Ends.and_gives
    {p : Parser K α}
    {s : Site K}
    {P : α → Site K → Prop}
    {Q : α → Prop}
    (h : p.Ends s P)
    (hgives : p.Gives Q) :
    p.Ends s fun a t => P a t ∧ Q a := by
  obtain ⟨t, hcursor, hleads, ht⟩ := h
  exact ⟨t, hcursor, hleads, ht, hgives s.cursor⟩

end Adding

/-! ## Slots of Zig files -/

namespace Zig

open Pattern

/-- Where the nesting ends, every parser fails. -/
theorem gives_none_of_eq_zero
    {p : Level → NodeParser}
    (hzero : (p (level 0)).Gives (· = none))
    (depth : Nat) :
    (p (level depth)).Gives fun found => depth = 0 → found = none := by
  intro c hdepth
  subst hdepth
  exact hzero c

/-- The parser of an expression fills its slot, with an error if it fails. -/
theorem ends_expr_fills (depth : Nat) (s : Site Kind) :
    (level depth).expr.Ends s fun found t =>
      s.Fills (slot exprKinds found) t ∧ (depth = 0 → found = none) :=
  ((sound_level depth).expr.fills ((regular_level depth).expr _)).and_gives
    (gives_none_of_eq_zero (fun _ => rfl) depth)

/-- The parser of an assignment fills its slot, with an error if it fails. -/
theorem ends_assignExpr_fills (depth : Nat) (s : Site Kind) :
    (assignExpr (level depth)).Ends s fun found t =>
      s.Fills (slot assignKinds found) t ∧ (depth = 0 → found = none) :=
  ((plants_assignExpr (sound_level depth)).fills (leaves_assignExpr (regular_level depth))).and_gives
    (gives_none_of_eq_zero (fun _ => rfl) depth)

/-- The parser of a type fills its slot, with an error if it fails. -/
theorem ends_type_fills (depth : Nat) (s : Site Kind) :
    (level depth).type.Ends s fun found t =>
      s.Fills (slot typeKinds found) t ∧ (depth = 0 → found = none) :=
  ((sound_level depth).type.fills ((regular_level depth).type _)).and_gives
    (gives_none_of_eq_zero (fun _ => rfl) depth)

section Places

theorem hasToken_iff
    {n : Node Kind}
    {kind : Kind}
    (hkind : Vocabulary.isTrivia kind = false) :
    n.hasToken kind = true ↔ ∃ e ∈ n.significant, e.sign = .token kind := by
  rw [n.hasToken_eq hkind, ← n.map_outline_significant, List.any_map, List.any_eq_true]
  refine exists_congr fun e => and_congr_right fun _ => ?_
  cases e <;> simp [Element.outline, Node.outline, Element.sign, Shape.leaf?]

/-- Whether a slot is filled exactly if a token announces it, by the node right behind
that token, which is the only one of its kind. -/
structure FilledBehind (n : Node Kind) (kind : Kind) (slot : Option (Node Kind)) : Prop where
  isSome_iff : slot.isSome = true ↔ n.hasToken kind = true
  significant_eq : ∀ t ∈ slot, ∃ before l behind,
    n.significant = before ++ .token l :: .node t :: behind ∧ l.kind = kind ∧
      ∀ e ∈ before ++ behind, e.sign ≠ .token kind

/-- What may be a token with a node behind it makes a slot. -/
theorem filledBehind_of_pair
    {n : Node Kind}
    {kind : Kind}
    {before pair behind : List (Element Kind)}
    (hn : n.significant = before ++ (pair ++ behind))
    (hkind : Vocabulary.isTrivia kind = false)
    (hpair : pair = [] ∨ ∃ l t, pair = [.token l, .node t] ∧ l.kind = kind)
    (hbefore : ∀ e ∈ before, e.sign ≠ .token kind)
    (hbehind : ∀ e ∈ behind, e.sign ≠ .token kind) :
    FilledBehind n kind (n.nodeAfter? kind) := by
  have hothers : ∀ e ∈ before ++ behind, e.sign ≠ .token kind :=
    List.forall_mem_append.mpr ⟨hbefore, hbehind⟩
  have hafter := nodeAfter?_of_pair hn hkind hpair hbefore hbehind
  rcases hpair with rfl | ⟨l, t, rfl, rfl⟩
  · refine ⟨?_, by simp [hafter]⟩
    rw [hasToken_iff hkind, hafter, hn]
    simpa using hothers
  · refine ⟨?_, ?_⟩
    · rw [hasToken_iff hkind, hafter, hn]
      exact ⟨fun _ => ⟨.token l, by simp, rfl⟩, fun _ => rfl⟩
    · rw [hafter]
      intro t' ht'
      obtain rfl : t = t' := Option.some.inj ht'
      exact ⟨before, l, behind, hn, rfl, hothers⟩

/-- The slots of declarations, initializers and prefix operations. -/
structure SlotsFilled (n : Node Kind) : Prop where
  variableType : n.kind = .varDecl → FilledBehind n .colon (VarDecl.type? n)
  initializer : n.kind = .varDecl → FilledBehind n .eq (VarDecl.initializer? n)
  fieldType : n.kind = .containerField → ∃ t, fieldType? n = some t ∧ t.kind ∈ typeKinds
  default : n.kind = .containerField → FilledBehind n .eq (ContainerField.default? n)
  value : n.kind = .fieldInit → ∃ v, FieldInit.value? n = some v ∧ v.kind ∈ exprKinds
  operand : n.kind = .prefixExpr → ∃ m, n.childNodes = [m] ∧ m.kind ∈ operandKinds

/-- A variable has its type behind its colon and its value behind its equals sign. -/
theorem filledBehind_of_varDecl
    {n : Node Kind}
    (h : (all (Form.of .varDecl)).Fits n.significant) :
    FilledBehind n .colon (VarDecl.type? n) ∧ FilledBehind n .eq (VarDecl.initializer? n) := by
  obtain ⟨front, es, hn, hfront, h⟩ := fits_all_cons_iff.mp h
  obtain ⟨body, es, rfl, hbody, h⟩ := fits_all_cons_iff.mp h
  obtain rfl := fits_all_nil_iff.mp h
  have hbody : (all ([tokens [.constKw, .varKw], Form.name] ++ variableEnd)).Fits body := hbody
  obtain ⟨head, rest, rfl, hhead, h⟩ := fits_all_append_iff.mp hbody
  obtain ⟨types, rest, rfl, htypes, hrest⟩ := fits_all_cons_iff.mp h
  obtain ⟨clauses, rest, rfl, hclauses, h⟩ := fits_all_cons_iff.mp hrest
  obtain ⟨values, rest, rfl, hvalues, hend⟩ := fits_all_cons_iff.mp h
  have htype : n.significant = (front ++ head) ++ (types ++ (clauses ++ (values ++ rest))) := by
    simpa using hn
  have hvalue : n.significant = (front ++ head ++ types ++ clauses) ++ (values ++ rest) := by
    simpa using hn
  constructor
  · refine filledBehind_of_pair htype rfl (exists_pair_of_fits htypes) ?_
      (hrest.sign_ne (by decide))
    exact List.forall_mem_append.mpr ⟨hfront.sign_ne (by decide), hhead.sign_ne (by decide)⟩
  · refine filledBehind_of_pair hvalue rfl (exists_pair_of_fits hvalues) ?_
      (hend.sign_ne (by decide))
    simp only [List.forall_mem_append]
    exact ⟨⟨⟨hfront.sign_ne (by decide), hhead.sign_ne (by decide)⟩, htypes.sign_ne (by decide)⟩,
      hclauses.sign_ne (by decide)⟩

/-- A field has its type behind its colon, or as its first node where it has none. -/
theorem fieldType?_eq
    {n t : Node Kind}
    {start name behind : List (Element Kind)}
    (hn : n.significant = start ++ (name ++ .node t :: behind))
    (hstart : (perhaps [Form.token .comptimeKw]).Fits start)
    (hname : Form.fieldName.Fits name)
    (hbehind : ∀ e ∈ behind, e.sign ≠ .token .colon) :
    fieldType? n = some t := by
  have hfirst : ∀ e ∈ start, e.sign ≠ .token .colon := hstart.sign_ne (by decide)
  rcases fits_perhaps_iff.mp hname with rfl | hname
  · have hcolon : n.hasToken .colon = false := by
      rw [Bool.eq_false_iff, Ne, hasToken_iff rfl, hn]
      simpa [Element.sign, or_imp, forall_and] using ⟨hfirst, hbehind⟩
    have hnodes : start.filterMap Element.node? = [] :=
      List.eq_nil_iff_forall_not_mem.mpr fun m hm =>
        Bool.false_ne_true (hstart.kind_of_mem (fun _ => false) (by decide) m hm)
    rw [fieldType?, hcolon, n.childNodes_eq, hn, List.filterMap_append, hnodes]
    rfl
  · obtain ⟨xs, ys, rfl, hxs, h⟩ := fits_all_cons_iff.mp hname
    obtain ⟨zs, ws, rfl, hzs, h⟩ := fits_all_cons_iff.mp h
    obtain rfl := fits_all_nil_iff.mp h
    obtain ⟨id, rfl, -⟩ := hxs.exists_node
    obtain ⟨l, rfl, hl⟩ := hzs.exists_token
    have hpair : n.significant =
        (start ++ [.node id]) ++ ([Element.token l, .node t] ++ behind) := by
      simpa using hn
    have hbefore : ∀ e ∈ start ++ [Element.node id], e.sign ≠ .token .colon :=
      List.forall_mem_append.mpr ⟨hfirst, by simp [Element.sign]⟩
    have hafter := nodeAfter?_of_pair hpair rfl (.inr ⟨l, t, rfl, List.mem_singleton.mp hl⟩)
      hbefore hbehind
    have hcolon : n.hasToken .colon = true :=
      (hasToken_iff rfl).mpr ⟨.token l, by simp [hn], by simpa [Element.sign] using hl⟩
    rw [fieldType?, if_pos hcolon, hafter]
    rfl

/-- A field has a type, and its default behind its equals sign. -/
theorem filledBehind_of_containerField
    {n : Node Kind}
    (h : (all (Form.of .containerField)).Fits n.significant) :
    (∃ t, fieldType? n = some t ∧ t.kind ∈ typeKinds) ∧
      FilledBehind n .eq (ContainerField.default? n) := by
  obtain ⟨start, es, hn, hstart, h⟩ := fits_all_cons_iff.mp h
  obtain ⟨name, es, rfl, hname, h⟩ := fits_all_cons_iff.mp h
  obtain ⟨type, es, rfl, htype, hrest⟩ := fits_all_cons_iff.mp h
  obtain ⟨align, es, rfl, halign, h⟩ := fits_all_cons_iff.mp hrest
  obtain ⟨values, es, rfl, hvalues, hend⟩ := fits_all_cons_iff.mp h
  obtain ⟨t, rfl, ht⟩ := htype.exists_node
  refine ⟨⟨t, fieldType?_eq hn hstart hname (hrest.sign_ne (by decide)), ht⟩, ?_⟩
  have hvalue : n.significant = (start ++ name ++ [.node t] ++ align) ++ (values ++ es) := by
    simpa using hn
  refine filledBehind_of_pair hvalue rfl (exists_pair_of_fits hvalues) ?_
    (hend.sign_ne (by decide))
  simp only [List.forall_mem_append]
  exact ⟨⟨⟨hstart.sign_ne (by decide), hname.sign_ne (by decide)⟩, by simp [Element.sign]⟩,
    halign.sign_ne (by decide)⟩

/-- A named initializer has its value behind its equals sign. -/
theorem exists_value_of_fieldInit
    {n : Node Kind}
    (h : (all (Form.of .fieldInit)).Fits n.significant) :
    ∃ v, FieldInit.value? n = some v ∧ v.kind ∈ exprKinds := by
  have hparts : (all ([Form.token .dot, nodes [.ident]] ++ [Form.token .eq, Form.expr])).Fits
      n.significant := h
  obtain ⟨before, es, hn, hbefore, h⟩ := fits_all_append_iff.mp hparts
  obtain ⟨xs, es, rfl, hxs, h⟩ := fits_all_cons_iff.mp h
  obtain ⟨ys, es, rfl, hys, h⟩ := fits_all_cons_iff.mp h
  obtain rfl := fits_all_nil_iff.mp h
  obtain ⟨l, rfl, hl⟩ := hxs.exists_token
  obtain ⟨v, rfl, hv⟩ := hys.exists_node
  have hvalue : n.significant = before ++ ([Element.token l, .node v] ++ []) := hn
  have hafter := nodeAfter?_of_pair hvalue rfl (.inr ⟨l, v, rfl, List.mem_singleton.mp hl⟩)
    (hbefore.sign_ne (by decide)) (by simp)
  exact ⟨v, hafter, hv⟩

/-- A prefix operation has its operand as its only node. -/
theorem exists_operand_of_prefixExpr
    {n : Node Kind}
    (h : (all (Form.of .prefixExpr)).Fits n.significant) :
    ∃ m, n.childNodes = [m] ∧ m.kind ∈ operandKinds := by
  obtain ⟨xs, es, hn, hxs, h⟩ := fits_all_cons_iff.mp h
  obtain ⟨ys, es, rfl, hys, h⟩ := fits_all_cons_iff.mp h
  obtain rfl := fits_all_nil_iff.mp h
  obtain ⟨l, rfl, -⟩ := hxs.exists_token
  obtain ⟨m, rfl, hm⟩ := hys.exists_node
  refine ⟨m, ?_, hm⟩
  rw [n.childNodes_eq, hn]
  rfl

/-- In every text, the slots of declarations, initializers and prefix operations are
filled. -/
theorem exists_slotsFilled (text : Text) :
    ∃ p, parse? text = some p ∧ ∀ n ∈ p.root.node.descendants, SlotsFilled n := by
  obtain ⟨p, m, hp, -, heverywhere, hplain, -⟩ := exists_marked_sourceFile text
  have hfits : ∀ n ∈ p.root.node.descendants, ∀ kind,
      n.kind = kind → kind ≠ .error → kind ≠ .asmExpr → (all (Form.of kind)).Fits n.significant :=
    fun n hn kind => fits_of_mem heverywhere hplain hn
  refine ⟨p, hp, fun n hn => ⟨?_, ?_, ?_, ?_, ?_, ?_⟩⟩ <;> intro hkind <;>
    have h := hfits n hn _ hkind (by decide) (by decide)
  · exact (filledBehind_of_varDecl h).1
  · exact (filledBehind_of_varDecl h).2
  · exact (filledBehind_of_containerField h).1
  · exact (filledBehind_of_containerField h).2
  · exact exists_value_of_fieldInit h
  · exact exists_operand_of_prefixExpr h

end Places
end Zig

/-! ## Slots of Zon files -/

namespace Zon

open Pattern

/-- Nodes that may stand for a value within a depth.  Nothing but an error does where
the nesting ends. -/
def kindsWithin : Nat → List Kind
  | 0 => [.error]
  | _ + 1 => valueKinds

/-- The parser of a value fills its slot, with an error where the nesting ends. -/
theorem ends_value_fills
    (depth : Nat)
    (recovery : KindSet Kind)
    (s : Site Kind) :
    (value depth recovery).Ends s fun _ t => s.Fills (kindsWithin depth) t := by
  have hforms : (value depth recovery).Forms Formed s.cursor fun _ =>
      [nodes (kindsWithin depth)] := by
    cases depth with
    | zero => exact Parser.forms_tooDeep fun _ hfault _ => formed_error hfault
    | succ depth => exact forms_value (depth + 1) recovery s.cursor
  exact ((valueSound_value depth).plants recovery).fills hforms

end Zon

/-- **Slots hold one node.**  From every state of a parser, within every depth, a run of
the parser of an expression, of an assignment or of a type adds one node to the innermost
node and nothing beside it; it is an error if the run fails, as every run does where the
nesting ends.  So does the parser of a value.  In every text, a variable has a type
exactly if it has a colon, and it is the node right behind it, and in the same way a
variable or a field has a value behind its equals sign; every field has a type, every
named initializer a value, and every prefix operation one node. -/
theorem slots_filled :
    (∀ depth s,
      ((Zig.level depth).expr.Ends s fun found t =>
        s.Fills (Zig.slot Zig.exprKinds found) t ∧ (depth = 0 → found = none)) ∧
      ((Zig.assignExpr (Zig.level depth)).Ends s fun found t =>
        s.Fills (Zig.slot Zig.assignKinds found) t ∧ (depth = 0 → found = none)) ∧
      ((Zig.level depth).type.Ends s fun found t =>
        s.Fills (Zig.slot Zig.typeKinds found) t ∧ (depth = 0 → found = none))) ∧
    (∀ depth recovery s, (Zon.value depth recovery).Ends s fun _ t =>
      s.Fills (Zon.kindsWithin depth) t) ∧
    ∀ text, ∃ p, Zig.parse? text = some p ∧
      ∀ n ∈ p.root.node.descendants, Zig.SlotsFilled n :=
  ⟨fun depth s => ⟨Zig.ends_expr_fills depth s, Zig.ends_assignExpr_fills depth s,
    Zig.ends_type_fills depth s⟩, Zon.ends_value_fills, Zig.exists_slotsFilled⟩

end ZigCst
