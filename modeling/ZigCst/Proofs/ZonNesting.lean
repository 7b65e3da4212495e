import ZigCst.Proofs.Trivia
import ZigCst.Proofs.ZonData

/-!
# Data that nests too deep

A file that is derivable is parsed however deep its values nest.  The values with too many
others around them are passed over, each with one error, and the rest of the tree is the
tree of the derivation.

**Definitions.**
* `Cuts`: what a diagnostic tells of a value that was passed over.
* `Datum.nested`: containers in containers.

**Results.**
* `exists_parse_truncated`: the tree and the errors of all derivable files.
-/

namespace ZigCst
namespace Zon

/-! ## Files -/

/-- Whether a diagnostic tells of a value that nests too deep, at its first token. -/
def Cuts (text : Text) (d : Diagnostic) (v : Nat × Shape Kind Kind) : Prop :=
  d.message = "nesting too deep".toList ∧
    ∃ l, (places 0 (lex text))[v.1]? = some l ∧ d.range = l.range

/-- **Data that nests too deep degrades locally.**  A file that is derivable, however deep
its values nest, has the tree of its derivation, with one error node for each value that has
`maxDepth` others around it, and this node has the tokens of that value.  The errors are
one for each of these values, in order, at its first token. -/
theorem exists_parse_truncated
    {n : Nat}
    {tree : Shape Kind Kind}
    (text : Text)
    (h : Rule.Value n (significantKinds (lex text)) tree) :
    ∃ p,
      parse? text = some p ∧
      p.root.Keeps .file text (lex text) ∧
      p.root.outline = .node .file [truncate maxDepth tree, .leaf .eof] ∧
      List.Forall₂ (Cuts text)
        (p.diagnostics.filter fun d => d.severity == .error) (valuesBelow 0 maxDepth tree) := by
  have hstart : (Cursor.ofList (significant (tokensWith read text))).kinds =
      significantKinds (lex text) := map_kind_significant read text
  have hfile : Kind.file ≠ Vocabulary.tombstone := by decide
  have hmarks := marks_value 0 maxDepth tree
  obtain ⟨p, hp, hkeeps, houtline, herrors⟩ := exists_written hfile (writes_document h hstart)
  refine ⟨{ p with diagnostics := p.diagnostics ++ duplicateWarnings p.root },
    parse?_of_ofGrammar? hp, hkeeps, ?_, ?_⟩
  · rw [houtline, hmarks.plain]
    rfl
  · rw [hmarks.faults, List.forall₂_map_right_iff] at herrors
    obtain ⟨hseverity, hplaces⟩ : (∀ d ∈ p.diagnostics, d.severity = .error) ∧
        List.Forall₂ (Cuts text) p.diagnostics (valuesBelow 0 maxDepth tree) := by
      rw [← List.forall₂_and_left]
      refine herrors.imp fun d v hd => ?_
      obtain ⟨t, ht, rfl⟩ := hd
      refine ⟨rfl, rfl, t.lexeme, ?_, rfl⟩
      rw [lex, ← map_lexeme_tokensWith, List.getElem?_map, ht]
      rfl
    have hall : p.diagnostics.filter (fun d => d.severity == .error) = p.diagnostics :=
      List.filter_eq_self.mpr fun d hd => by rw [hseverity d hd]; rfl
    have hnone : (duplicateWarnings p.root).filter (fun d => d.severity == .error) = [] := by
      refine List.filter_eq_nil_iff.mpr fun d hd => ?_
      rw [severity_of_mem_duplicateWarnings hd]
      decide
    rwa [List.filter_append, hall, hnone, List.append_nil]

/-! ### Nested data -/

/-- Containers in containers, so many around an empty one. -/
def Datum.nested : Nat → Datum
  | 0 => .container []
  | levels + 1 => .container [(none, nested levels)]

/-- Of the values of nested data, one has so many others around it. -/
theorem valuesBelow_nested (rank depth levels : Nat) :
    valuesBelow rank depth ((Datum.nested (depth + levels)).shape.map Lexeme.kind) =
      [(rank + 2 * depth, (Datum.nested levels).shape.map Lexeme.kind)] := by
  induction depth generalizing rank with
  | zero => rw [Nat.zero_add, valuesBelow, Nat.mul_zero, Nat.add_zero]
  | succ depth ih =>
      have hrank : rank + 1 + 1 + 2 * depth = rank + 2 * (depth + 1) := by omega
      rw [Nat.add_right_comm, ← hrank, ← ih (rank + 1 + 1)]
      simp [Datum.nested, Datum.shape, Datum.shapeAll, mark, keyShapes, valuesBelow, valuesAmong,
        valuesOfEntry]

/-- One value of nested data is cut off, with one error. -/
theorem exists_parse_truncated_nested :
    ∃ p,
      parse? (Datum.nested maxDepth).print = some p ∧
      p.root.Keeps .file (Datum.nested maxDepth).print (lex (Datum.nested maxDepth).print) ∧
      p.root.outline = .node .file
        [truncate maxDepth ((Datum.nested maxDepth).shape.map Lexeme.kind), .leaf .eof] ∧
      ∃ d,
        (p.diagnostics.filter fun d => d.severity == .error) = [d] ∧
        Cuts (Datum.nested maxDepth).print d
          (512, .node .struct [.leaf .dot, .leaf .leftBrace, .leaf .rightBrace]) := by
  obtain ⟨p, hp, hkeeps, houtline, herrors⟩ :=
    exists_parse_truncated _ ((Datum.nested maxDepth).value_print (Nat.le_refl _))
  have hvalues : valuesBelow 0 maxDepth ((Datum.nested maxDepth).shape.map Lexeme.kind) =
      [(512, .node .struct [.leaf .dot, .leaf .leftBrace, .leaf .rightBrace])] :=
    valuesBelow_nested 0 maxDepth 0
  rw [hvalues, List.forall₂_cons_right_iff] at herrors
  obtain ⟨d, rest, hd, hrest, herrors⟩ := herrors
  rw [List.forall₂_nil_right_iff.mp hrest] at herrors
  exact ⟨p, hp, hkeeps, houtline, d, herrors, hd⟩

end Zon
end ZigCst
