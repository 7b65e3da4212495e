import ZigCst.Proofs.SharedLexemes
import ZigCst.Proofs.Spans
import ZigCst.Proofs.ZonData

/-!
# Zon values as trees of Zig

The tree of a value of Zon becomes a tree of Zig over the same lexemes: containers are
lists of initializers, an entry without a name is its value, and a minus is an operator in
front of a number.  Lists of initializers span the same lexemes as the containers that
they stand for.

**Definitions.**
* `Zon.translate`: trees of Zon as trees of Zig.
* `Zon.nesting`: how deep the values in a tree nest.
* `Zon.Clean`: kinds of Zon of which no two neighbours are one operator in Zig.

**Results.**
* `Zon.leaves_translateAll`, `Zon.spans_translateAll`: a translation has the leaves of the tree
  and the spans of its containers.
* `Zon.Rule.Value.at_nesting`: a value is derivable at the depth at which it nests.
* `Zon.Rule.Value.clean`: the kinds of a value are clean.
-/

namespace ZigCst
namespace Zon

/-! ## Translation -/

/-- Whether a kind is that of a container. -/
def isContainer : Kind → Bool
  | .struct | .array => true
  | _ => false

/-- Whether a kind of Zig is that of a list of initializers. -/
def isInitList : Zig.Kind → Bool
  | .initList => true
  | _ => false

theorem isInitList_inZig (kind : Kind) : isInitList kind.inZig = isContainer kind := by
  cases kind <;> rfl

/-- A node of Zon over children that are translated. -/
def rebuild : Kind → List (Shape Zig.Kind Zig.Kind) → List (Shape Zig.Kind Zig.Kind)
  | .entry, [value] => [value]
  | .number, .leaf .minus :: number =>
      [.node .prefixExpr [.leaf .minus, .node .literal number]]
  | kind, children => [.node kind.inZig children]

mutual

/-- A tree of Zon as trees of Zig. -/
def translate : Shape Kind Kind → List (Shape Zig.Kind Zig.Kind)
  | .leaf kind => [.leaf kind.inZig]
  | .node kind children => rebuild kind (translateAll children)

/-- Neighbouring trees of Zon as trees of Zig. -/
def translateAll : List (Shape Kind Kind) → List (Shape Zig.Kind Zig.Kind)
  | [] => []
  | s :: ss => translate s ++ translateAll ss

end

theorem leaves_rebuild
    (kind : Kind)
    (children : List (Shape Zig.Kind Zig.Kind)) :
    (rebuild kind children).flatMap Shape.leaves = children.flatMap Shape.leaves := by
  fun_cases rebuild kind children <;> simp

theorem spans_rebuild
    (rank : Nat)
    (kind : Kind)
    (children : List (Shape Zig.Kind Zig.Kind)) :
    Shape.spans isInitList rank (rebuild kind children) =
      (if isContainer kind then [(rank, (children.flatMap Shape.leaves).length)] else []) ++
        Shape.spans isInitList rank children := by
  fun_cases rebuild kind children with
  | case1 value => rfl
  | case2 number => simp [Shape.spans_node, isInitList, isContainer]
  | case3 => simp [Shape.spans_node, isInitList_inZig]

/-- A translation is over the same lexemes. -/
theorem leaves_translateAll (ss : List (Shape Kind Kind)) :
    (translateAll ss).flatMap Shape.leaves = (ss.flatMap Shape.leaves).map Kind.inZig := by
  induction ss using Shape.neighbours_induction with
  | nil => rfl
  | leaf kind ss ih => simp [translateAll, translate, ih]
  | node kind children ss ih ih' =>
      simp [translateAll, translate, leaves_rebuild, ih, ih']

/-- **Lists of initializers span what containers span.** -/
theorem spans_translateAll
    (rank : Nat)
    (ss : List (Shape Kind Kind)) :
    Shape.spans isInitList rank (translateAll ss) = Shape.spans isContainer rank ss := by
  induction ss using Shape.neighbours_induction generalizing rank with
  | nil => rfl
  | leaf kind ss ih => simp [translateAll, translate, ih]
  | node kind children ss ih ih' =>
      rw [translateAll, translate, Shape.spans_append, spans_rebuild, ih, ih', Shape.spans_node,
        leaves_rebuild, leaves_translateAll, List.length_map, List.append_assoc]

theorem translateAll_append (ss ss' : List (Shape Kind Kind)) :
    translateAll (ss ++ ss') = translateAll ss ++ translateAll ss' := by
  induction ss with
  | nil => rfl
  | cons s ss ih => rw [List.cons_append, translateAll, translateAll, ih, List.append_assoc]

/-! ## Nesting -/

mutual

/-- How deep the values in a tree nest, a value without entries being one deep. -/
def nesting {α : Type} : Shape α Kind → Nat
  | .leaf _ => 0
  | .node kind children =>
      match kind with
      | .struct | .array => nestingAll children + 1
      | .file | .entry => nestingAll children
      | _ => 1

/-- How deep the values in neighbouring trees nest. -/
def nestingAll {α : Type} : List (Shape α Kind) → Nat
  | [] => 0
  | s :: ss => max (nesting s) (nestingAll ss)

end

theorem nestingAll_append
    {α : Type}
    (ss ss' : List (Shape α Kind)) :
    nestingAll (ss ++ ss') = max (nestingAll ss) (nestingAll ss') := by
  induction ss with
  | nil => simp [nestingAll]
  | cons s ss ih => rw [List.cons_append, nestingAll, nestingAll, ih, Nat.max_assoc]

theorem nesting_container
    {α : Type}
    (named : Bool)
    (children : List (Shape α Kind)) :
    nesting (.node (if named then .struct else .array) children) = nestingAll children + 1 := by
  cases named <;> rfl

/-- A container nests as deep as its entries, and once more. -/
theorem nestingAll_braced (trees : List (Shape Kind Kind)) :
    nestingAll ([Shape.leaf Kind.dot, Shape.leaf Kind.leftBrace] ++
      (trees ++ [Shape.leaf Kind.rightBrace])) = nestingAll trees := by
  simp [nestingAll_append, nestingAll, nesting]

theorem Rule.Value.nesting_pos
    {n : Nat}
    {kinds : List Kind}
    {tree : Shape Kind Kind}
    (h : Rule.Value n kinds tree) :
    0 < nesting tree := by
  cases h with
  | container h =>
      rw [nesting_container]
      exact Nat.succ_pos _
  | _ => exact Nat.one_pos

mutual

/-- A value is derivable at the depth at which it nests. -/
theorem Rule.Value.at_nesting
    {n m : Nat}
    {kinds : List Kind}
    {tree : Shape Kind Kind}
    (h : Rule.Value n kinds tree)
    (hm : nesting tree ≤ m) :
    Rule.Value m kinds tree := by
  cases m with
  | zero =>
      have hpos := h.nesting_pos
      omega
  | succ m =>
      match h with
      | .empty n => exact .empty m
      | .container h =>
          rw [nesting_container, nestingAll_braced, Nat.add_le_add_iff_right] at hm
          exact .container (h.at_nesting hm)
      | .enumLiteral n => exact .enumLiteral m
      | .string n => exact .string m
      | .lines n k => exact .lines m k
      | .char n => exact .char m
      | .number n hkind => exact .number m hkind
      | .negative n hkind => exact .negative m hkind
      | .identifier n => exact .identifier m

theorem Rule.Entry.at_nesting
    {n m : Nat}
    {kinds : List Kind}
    {named : Bool}
    {tree : Shape Kind Kind}
    (h : Rule.Entry n kinds named tree)
    (hm : nesting tree ≤ m) :
    Rule.Entry m kinds named tree := by
  match h with
  | .positional h => exact .positional (h.at_nesting (by simpa [nesting, nestingAll] using hm))
  | .named h =>
      simp only [nesting, nestingAll, Nat.max_le] at hm
      exact .named (h.at_nesting hm.2.2.2.1)

theorem Rule.Entries.at_nesting
    {n m : Nat}
    {kinds : List Kind}
    {named : Bool}
    {trees : List (Shape Kind Kind)}
    (h : Rule.Entries n kinds named trees)
    (hm : nestingAll trees ≤ m) :
    Rule.Entries m kinds named trees := by
  match h with
  | .one h => exact .one (h.at_nesting (by simpa [nestingAll] using hm))
  | .last h => exact .last (h.at_nesting (by simpa [nestingAll, nesting] using hm))
  | .cons h hmore =>
      simp only [nestingAll_append, nestingAll, Nat.max_le] at hm
      exact .cons (h.at_nesting hm.1.1) (hmore.at_nesting hm.2.2)

end

/-! ## What is known of derivable values -/

/-- Whether kinds start tokens, and keep apart from what follows them the marks that are
apart there. -/
structure Clean (kinds : List Kind) : Prop where
  known : .badCharacter ∉ kinds
  apart : ∀ more, Apart more → Apart (kinds ++ more)

theorem Clean.append
    {kinds more : List Kind}
    (h : Clean kinds)
    (h' : Clean more) :
    Clean (kinds ++ more) where
  known := by simp [h.known, h'.known]
  apart := by
    intro behind hbehind
    rw [List.append_assoc]
    exact h.apart _ (h'.apart behind hbehind)

/-- Operators of two marks start with a dot or end with an equals sign. -/
theorem dot_or_eq_of_clashes
    {a b : Kind}
    (h : clashes a b = true) :
    a = .dot ∨ b = .eq := by
  unfold clashes at h
  split at h <;> simp_all

/-- Only some marks make an operator with what follows them. -/
theorem clean_singleton
    (kind : Kind)
    (h : kind ∉ [Kind.badCharacter, .dot, .eq, .minus]) :
    Clean [kind] where
  known := by
    intro hbad
    obtain rfl := List.mem_singleton.mp hbad
    exact h List.mem_cons_self
  apart := by
    intro more hmore
    refine List.isChain_cons.mpr ⟨fun next _ => ?_, hmore⟩
    fun_cases clashes kind next <;> simp_all

/-- Marks that make an operator with what follows them do not if that is known. -/
theorem Clean.cons
    {kind : Kind}
    {kinds : List Kind}
    (h : Clean kinds)
    (hkind : kind ≠ .badCharacter)
    (hsome : kinds ≠ [])
    (hnext : ∀ next ∈ kinds.head?, clashes kind next = false) :
    Clean (kind :: kinds) where
  known := by simp [h.known, hkind.symm]
  apart := by
    intro more hmore
    rw [Apart, List.cons_append, List.isChain_cons, List.head?_append_of_ne_nil _ hsome]
    exact ⟨hnext, h.apart more hmore⟩

theorem clean_replicate
    {kind : Kind}
    (h : Clean [kind])
    (n : Nat) :
    Clean (List.replicate (n + 1) kind) := by
  induction n with
  | zero => exact h
  | succ n ih => exact h.append ih

theorem Rule.Value.head?_ne_eq
    {n : Nat}
    {kinds : List Kind}
    {tree : Shape Kind Kind}
    (h : Rule.Value n kinds tree) :
    kinds ≠ [] ∧ kinds.head? ≠ some .eq := by
  cases h with
  | lines n m => simp [List.replicate_succ]
  | number n hkind => rcases hkind with rfl | rfl <;> simp
  | _ => simp

mutual

/-- The kinds of a value are clean. -/
theorem Rule.Value.clean
    {n : Nat}
    {kinds : List Kind}
    {tree : Shape Kind Kind}
    (h : Rule.Value n kinds tree) :
    Clean kinds := by
  match h with
  | .empty n =>
      have hbraces := (clean_singleton .leftBrace (by decide)).append
        (clean_singleton .rightBrace (by decide))
      exact hbraces.cons (by decide) (by simp) (by simp [clashes])
  | .container h =>
      have hbraces := (clean_singleton .leftBrace (by decide)).append
        (h.clean.append (clean_singleton .rightBrace (by decide)))
      exact hbraces.cons (by decide) (by simp) (by simp [clashes])
  | .enumLiteral n =>
      have hname := clean_singleton .identifier (by decide)
      exact hname.cons (by decide) (by simp) (by simp [clashes])
  | .string n => exact clean_singleton _ (by decide)
  | .lines n m => exact clean_replicate (clean_singleton _ (by decide)) m
  | .char n => exact clean_singleton _ (by decide)
  | .number n hkind => rcases hkind with rfl | rfl <;> exact clean_singleton _ (by decide)
  | .negative n hkind =>
      rcases hkind with rfl | rfl <;>
        exact (clean_singleton _ (by decide)).cons (by decide) (by simp) (by simp [clashes])
  | .identifier n => exact clean_singleton _ (by decide)

theorem Rule.Entry.clean
    {n : Nat}
    {kinds : List Kind}
    {named : Bool}
    {tree : Shape Kind Kind}
    (h : Rule.Entry n kinds named tree) :
    Clean kinds := by
  match h with
  | .positional h => exact h.clean
  | .named h =>
      obtain ⟨hsome, hfirst⟩ := h.head?_ne_eq
      have hvalue : Clean (.eq :: _) := h.clean.cons (by decide) hsome (by
        intro next hnext
        rcases Bool.eq_false_or_eq_true (clashes .eq next) with hclash | hclash
        · obtain rfl := (dot_or_eq_of_clashes hclash).resolve_left (by decide)
          exact absurd hnext hfirst
        · exact hclash)
      have hname := (clean_singleton .identifier (by decide)).append hvalue
      exact hname.cons (by decide) (by simp) (by simp [clashes])

theorem Rule.Entries.clean
    {n : Nat}
    {kinds : List Kind}
    {named : Bool}
    {trees : List (Shape Kind Kind)}
    (h : Rule.Entries n kinds named trees) :
    Clean kinds := by
  match h with
  | .one h => exact h.clean
  | .last h => exact h.clean.append (clean_singleton _ (by decide))
  | .cons h hmore => exact h.clean.append ((clean_singleton _ (by decide)).append hmore.clean)

end

end Zon
end ZigCst
