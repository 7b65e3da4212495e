import ZigCst.Proofs.Shape
import ZigCst.Zon.Grammar

/-!
# The rules of Zon

The grammar as rules: which sequences of kinds are a value, and the tree of the value.
Rules know how deep the values of a value nest.  A parser tells the rules apart by the
first kinds of a value and by what may follow it.

**Definitions.**
* `Rule.Value n kinds tree`: `kinds` are a value whose values nest at most `n` deep, and
  `tree` is its tree.
* `Entries.Tallies`: what is known after further entries of a container.
* `MayFollow`: what may come behind a value.

**Results.**
* `Rule.Value.leaves_eq`: the leaves of the tree of a value are its tokens.
* `Rule.Value.append_ne`: a value does not look like the name of an entry.
-/

namespace ZigCst
namespace Zon

/-! ## Rules -/

namespace Rule

mutual

/-- A value whose values nest at most so deep, by its kinds, and its tree. -/
inductive Value : Nat → List Kind → Shape Kind Kind → Prop where
  | empty (n : Nat) :
      Value (n + 1) [.dot, .leftBrace, .rightBrace]
        (.node .struct [.leaf .dot, .leaf .leftBrace, .leaf .rightBrace])
  /-- A container with entries is an array if none of them is named. -/
  | container {n : Nat} {kinds : List Kind} {named : Bool} {trees : List (Shape Kind Kind)}
      (h : Entries n kinds named trees) :
      Value (n + 1) ([Kind.dot, Kind.leftBrace] ++ (kinds ++ [Kind.rightBrace]))
        (.node (if named then .struct else .array)
          ([Shape.leaf Kind.dot, Shape.leaf Kind.leftBrace] ++
            (trees ++ [Shape.leaf Kind.rightBrace])))
  | enumLiteral (n : Nat) :
      Value (n + 1) [.dot, .identifier]
        (.node .enumLiteral [.leaf .dot, .node .ident [.leaf .identifier]])
  | string (n : Nat) :
      Value (n + 1) [.stringLiteralSingle] (.node .stringLiteral [.leaf .stringLiteralSingle])
  | lines (n m : Nat) :
      Value (n + 1) (List.replicate (m + 1) .lineString)
        (.node .stringLiteral (List.replicate (m + 1) (.leaf .lineString)))
  | char (n : Nat) : Value (n + 1) [.charLiteral] (.node .char [.leaf .charLiteral])
  | number {kind : Kind} (n : Nat) (hkind : kind = .integer ∨ kind = .float) :
      Value (n + 1) [kind] (.node .number [.leaf kind])
  | negative {kind : Kind} (n : Nat) (hkind : kind = .integer ∨ kind = .float) :
      Value (n + 1) [.minus, kind] (.node .number [.leaf .minus, .leaf kind])
  | identifier (n : Nat) : Value (n + 1) [.identifier] (.node .ident [.leaf .identifier])

/-- An entry, and whether it is named. -/
inductive Entry : Nat → List Kind → Bool → Shape Kind Kind → Prop where
  | positional {n : Nat} {kinds : List Kind} {tree : Shape Kind Kind}
      (h : Value n kinds tree) :
      Entry n kinds false (.node .entry [tree])
  | named {n : Nat} {kinds : List Kind} {tree : Shape Kind Kind}
      (h : Value n kinds tree) :
      Entry n ([Kind.dot, Kind.identifier, Kind.eq] ++ kinds) true
        (.node .entry [.leaf .dot, .node .ident [.leaf .identifier], .leaf .eq, tree])

/-- One or more entries, and whether some entry is named.  A comma may follow the
last one. -/
inductive Entries : Nat → List Kind → Bool → List (Shape Kind Kind) → Prop where
  | one {n : Nat} {kinds : List Kind} {named : Bool} {tree : Shape Kind Kind}
      (h : Entry n kinds named tree) :
      Entries n kinds named [tree]
  | last {n : Nat} {kinds : List Kind} {named : Bool} {tree : Shape Kind Kind}
      (h : Entry n kinds named tree) :
      Entries n (kinds ++ [Kind.comma]) named [tree, .leaf .comma]
  | cons {n : Nat} {kinds more : List Kind} {named others : Bool} {tree : Shape Kind Kind}
      {trees : List (Shape Kind Kind)}
      (h : Entry n kinds named tree)
      (hmore : Entries n more others trees) :
      Entries n (kinds ++ ([Kind.comma] ++ more)) (named || others)
        ([tree] ++ ([Shape.leaf Kind.comma] ++ trees))

end
end Rule

/-! ## How values start and end -/

/-- A value starts neither with a comma nor with a closing brace. -/
theorem Rule.Value.exists_first
    {n : Nat}
    {kinds : List Kind}
    {tree : Shape Kind Kind}
    (h : Rule.Value n kinds tree) :
    ∃ first rest, kinds = first :: rest ∧ first ≠ .comma ∧ first ≠ .rightBrace := by
  cases h with
  | empty => exact ⟨_, _, rfl, by decide, by decide⟩
  | container => exact ⟨_, _, rfl, by decide, by decide⟩
  | enumLiteral => exact ⟨_, _, rfl, by decide, by decide⟩
  | string => exact ⟨_, _, rfl, by decide, by decide⟩
  | lines => exact ⟨_, _, List.replicate_succ, by decide, by decide⟩
  | char => exact ⟨_, _, rfl, by decide, by decide⟩
  | number n hkind =>
      rcases hkind with rfl | rfl
      · exact ⟨_, _, rfl, by decide, by decide⟩
      · exact ⟨_, _, rfl, by decide, by decide⟩
  | negative => exact ⟨_, _, rfl, by decide, by decide⟩
  | identifier => exact ⟨_, _, rfl, by decide, by decide⟩

theorem Rule.Entry.exists_first
    {n : Nat}
    {kinds : List Kind}
    {named : Bool}
    {tree : Shape Kind Kind}
    (h : Rule.Entry n kinds named tree) :
    ∃ first rest, kinds = first :: rest ∧ first ≠ .comma ∧ first ≠ .rightBrace := by
  cases h with
  | positional h => exact h.exists_first
  | named h => exact ⟨_, _, rfl, by decide, by decide⟩

/-- A value that no equals sign follows does not look like the name of an entry. -/
theorem Rule.Value.append_ne
    {n : Nat}
    {kinds more rest : List Kind}
    {tree : Shape Kind Kind}
    (h : Rule.Value n kinds tree)
    (hmore : more.head? ≠ some .eq) :
    kinds ++ more ≠ [Kind.dot, Kind.identifier, Kind.eq] ++ rest := by
  intro heq
  cases h with
  | empty => simp at heq
  | container => simp at heq
  | enumLiteral =>
      simp only [List.cons_append, List.nil_append, List.cons.injEq, true_and] at heq
      rw [heq] at hmore
      exact hmore rfl
  | string => simp at heq
  | lines => simp [List.replicate_succ] at heq
  | char => simp at heq
  | number n hkind => rcases hkind with rfl | rfl <;> simp at heq
  | negative => simp at heq
  | identifier => simp at heq

mutual

/-- The leaves of the tree of a value are its tokens. -/
theorem Rule.Value.leaves_eq
    {n : Nat}
    {kinds : List Kind}
    {tree : Shape Kind Kind}
    (h : Rule.Value n kinds tree) :
    tree.leaves = kinds := by
  match h with
  | .empty n => rfl
  | .container hentries => simp [hentries.leaves_eq]
  | .enumLiteral n => rfl
  | .string n => rfl
  | .lines n m => simp [List.flatMap_replicate]
  | .char n => rfl
  | .number n hkind => rfl
  | .negative n hkind => rfl
  | .identifier n => rfl

theorem Rule.Entry.leaves_eq
    {n : Nat}
    {kinds : List Kind}
    {named : Bool}
    {tree : Shape Kind Kind}
    (h : Rule.Entry n kinds named tree) :
    tree.leaves = kinds := by
  match h with
  | .positional hvalue => simp [hvalue.leaves_eq]
  | .named hvalue => simp [hvalue.leaves_eq]

theorem Rule.Entries.leaves_eq
    {n : Nat}
    {kinds : List Kind}
    {named : Bool}
    {trees : List (Shape Kind Kind)}
    (h : Rule.Entries n kinds named trees) :
    trees.flatMap Shape.leaves = kinds := by
  match h with
  | .one hentry => simp [hentry.leaves_eq]
  | .last hentry => simp [hentry.leaves_eq]
  | .cons hentry hmore => simp [hentry.leaves_eq, hmore.leaves_eq]

end

/-- Whether a value may end in front of kinds: at the end of the file or in a container. -/
def MayFollow (more : List Kind) : Prop :=
  more.head? = none ∨ more.head? = some .comma ∨ more.head? = some .rightBrace

theorem MayFollow.head?_ne
    {more : List Kind}
    {kind : Kind}
    (h : MayFollow more)
    (hcomma : kind ≠ .comma)
    (hbrace : kind ≠ .rightBrace) :
    more.head? ≠ some kind := by
  rcases h with h | h | h <;> rw [h]
  · exact nofun
  · exact fun heq => hcomma (Option.some.inj heq).symm
  · exact fun heq => hbrace (Option.some.inj heq).symm

/-! ## What is known of entries -/

section Tallies

/-- What is known after one or more further entries, given whether some of them are
named. -/
structure Entries.Tallies (before after : Entries) (someNamed : Bool) : Prop where
  named : after.named = (before.named || someNamed)
  positional : someNamed = false → after.positional = true

theorem Entries.tallies_add
    (entries : Entries)
    (named : Bool) :
    entries.Tallies (entries.add named) named := by
  refine ⟨rfl, ?_⟩
  rintro rfl
  simp [add]

theorem Entries.Tallies.of_add
    {before after : Entries}
    {named others : Bool}
    (h : (before.add named).Tallies after others) :
    before.Tallies after (named || others) := by
  constructor
  · rw [h.named, add, Bool.or_assoc]
  · intro hnone
    exact h.positional (Bool.or_eq_false_iff.mp hnone).2

/-- A container with entries is an array if none of them is named. -/
theorem Entries.Tallies.kind_eq
    {after : Entries}
    {named : Bool}
    (h : Entries.Tallies ⟨false, false⟩ after named) :
    after.kind = if named then .struct else .array := by
  have hnamed : after.named = named := h.named
  rw [kind, hnamed]
  cases named with
  | true => simp
  | false => simp [h.positional rfl]

end Tallies

end Zon
end ZigCst
