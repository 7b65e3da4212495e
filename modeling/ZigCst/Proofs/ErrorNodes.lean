import ZigCst.Proofs.Outline
import ZigCst.Proofs.ZigForms
import ZigCst.Proofs.ZonForms

/-!
# Errors in trees and among diagnostics

Every node that stands for something malformed holds a fault of its own, and every fault
is an error, so there are at least as many errors as such nodes.  A character that starts
no token stands in no pattern.  It can only be taken into a node that has none: one that
stands for something malformed or, in Zig, inline assembly.

**Definitions.**
* `Parse.errorNodes`, `Parse.errors`: how many nodes stand for something malformed, and
  how many diagnostics are errors.
* `Parse.Reports`: what is malformed in a tree is reported.

**Results.**
* `Parse.Reports.of_no_errors`: where nothing is reported, nothing is malformed.
* `exists_parse_reports`: both languages report what is malformed in every text.
-/

namespace ZigCst

variable {K : Type} [DecidableEq K] [Vocabulary K]

/-- How many nodes stand for something malformed. -/
def Parse.errorNodes (p : Parse K) : Nat :=
  p.root.node.descendants.countP fun n => n.kind == Vocabulary.error

omit [DecidableEq K] [Vocabulary K] in
/-- How many diagnostics are errors. -/
def Parse.errors (p : Parse K) : Nat := p.diagnostics.countP fun d => d.severity == .error

/-- Whether what is malformed in a tree is reported: its tokens are the stream, there are
at least as many errors as nodes that stand for something malformed, and a character that
starts no token is a child of such a node or of a node of some kinds. -/
structure Parse.Reports (p : Parse K) (stream : List (Lexeme K)) (kinds : List K) : Prop where
  tokens : p.root.node.tokens.map Leaf.toLexeme = stream
  errorNodes_le : p.errorNodes ≤ p.errors
  parent_of_badCharacter : ∀ l ∈ p.root.node.tokens, l.kind = Vocabulary.badCharacter →
    l.parent.kind = Vocabulary.error ∨ l.parent.kind ∈ kinds

/-- Where nothing is reported, nothing is malformed. -/
theorem Parse.Reports.of_no_errors
    {p : Parse K}
    {stream : List (Lexeme K)}
    {kinds : List K}
    (h : p.Reports stream kinds)
    (hnone : ∀ d ∈ p.diagnostics, d.severity ≠ .error) :
    (∀ n ∈ p.root.node.descendants, n.kind ≠ Vocabulary.error) ∧
      ∀ l ∈ p.root.node.tokens, l.kind = Vocabulary.badCharacter → l.parent.kind ∈ kinds := by
  have herrors : p.errors = 0 := List.countP_eq_zero.mpr fun d hd => by simpa using hnone d hd
  have hnodes : p.errorNodes = 0 := Nat.le_zero.mp (herrors ▸ h.errorNodes_le)
  have hkinds : ∀ n ∈ p.root.node.descendants, n.kind ≠ Vocabulary.error := fun n hn => by
    simpa using List.countP_eq_zero.mp hnodes n hn
  refine ⟨hkinds, fun l hl hbad => ?_⟩
  exact (h.parent_of_badCharacter l hl hbad).resolve_left (hkinds _ (Node.mem_of_mem_tokens hl).1)

/-- If every node that stands for something malformed has a fault of its own, there are
at least as many faults as such nodes. -/
theorem errorNodes_le_length_faults
    {R : K → List (Marked K) → Prop}
    {p : Parse K}
    {kind : K}
    {children : List (Marked K)}
    (hR : ∀ ms, R Vocabulary.error ms → ∃ m ∈ ms, m.isFault = true)
    (heverywhere : (Shape.node kind children : Marked K).Everywhere R)
    (hplain : Marked.plain? (.node kind children) = some p.root.outline) :
    p.errorNodes ≤ (Marked.faults (.node kind children)).length := by
  have hcount := Root.countP_descendants hplain fun s => s.kind? == some Vocabulary.error
  have hnodes : p.errorNodes = p.root.node.descendants.countP fun n =>
      n.outline.kind? == some Vocabulary.error := rfl
  rw [hnodes, hcount, (Marked.faults_node_perm kind children).length_eq]
  refine countP_le_length_flatMap fun m hm herror => ?_
  cases m with
  | leaf mark => cases mark <;> simp [Shape.kind?] at herror
  | node kind' ms =>
      obtain rfl : kind' = Vocabulary.error := by simpa [Shape.kind?] using herror
      obtain ⟨m, hm, hfault⟩ := hR ms (heverywhere.of_mem_nodes _ hm)
      obtain ⟨cause, rfl⟩ := Marked.exists_of_isFault hfault
      exact List.ne_nil_of_mem (Marked.mem_faultsAmong_iff.mpr hm)

/-- A character that starts no token stands in no pattern of Zig. -/
theorem Zig.badCharacter_not_mem_signs (kind : Zig.Kind) :
    Sign.token .badCharacter ∉ (Pattern.all (Zig.Form.of kind)).signs := by
  cases kind <;> decide

/-- A character that starts no token stands in no pattern of Zon. -/
theorem Zon.badCharacter_not_mem_signs (kind : Zon.Kind) :
    Sign.token .badCharacter ∉ (Pattern.all (Zon.contents kind)).signs := by
  cases kind <;> decide

theorem Zig.exists_parse?_reports (text : Text) :
    ∃ p, Zig.parse? text = some p ∧ p.Reports (Zig.lex text) [.asmExpr] := by
  obtain ⟨p, m, hp, hkeeps, heverywhere, hplain, hfaults, hseverity⟩ :=
    Zig.exists_marked_sourceFile text
  obtain ⟨children, rfl, -⟩ := Marked.eq_node_of_plain? hplain
  refine ⟨p, hp, hkeeps.map_toLexeme_tokens, ?_, fun l hl hbad => ?_⟩
  · have herrors : p.errors = p.diagnostics.length :=
      List.countP_eq_length.mpr fun d hd => by simp [hseverity d hd]
    have hlengths := congrArg List.length hfaults
    rw [List.length_map, List.length_map] at hlengths
    rw [herrors, hlengths]
    exact errorNodes_le_length_faults (fun ms hms => hms.fault rfl) heverywhere hplain
  · obtain ⟨ms, hnode, hmem⟩ := Root.exists_siblings_of_mem hplain hl (by rw [hbad]; rfl)
    have hrule := heverywhere.of_mem_nodes _ hnode
    by_contra hparent
    obtain ⟨herror, hasm⟩ := not_or.mp hparent
    have hsign := Pattern.sign_mem_signs (hrule.fits herror (by simpa using hasm)) _ hmem
    exact Zig.badCharacter_not_mem_signs _ (hbad ▸ hsign)

theorem Zon.exists_parse?_reports (text : Text) :
    ∃ p, Zon.parse? text = some p ∧ p.Reports (Zon.lex text) [] := by
  obtain ⟨p, children, hp, hkeeps, heverywhere, -, hplain, herrors⟩ := Zon.exists_marked_file text
  refine ⟨p, hp, hkeeps.map_toLexeme_tokens, ?_, fun l hl hbad => ?_⟩
  · rw [Parse.errors, herrors]
    exact errorNodes_le_length_faults (fun ms hms => hms.fault rfl) heverywhere hplain
  · obtain ⟨ms, hnode, hmem⟩ := Root.exists_siblings_of_mem hplain hl (by rw [hbad]; rfl)
    have hformed := heverywhere.of_mem_nodes _ hnode
    by_contra hparent
    have hsign := Pattern.sign_mem_signs (hformed.fits (not_or.mp hparent).1) _ hmem
    exact Zon.badCharacter_not_mem_signs _ (hbad ▸ hsign)

/-- **What is malformed is reported.**  For every text, both languages have at least as
many errors as nodes that stand for something malformed, and put every character that
starts no token into such a node; only in Zig it may be in inline assembly instead.  So
without an error there is no such node, and no such character but in inline assembly. -/
theorem exists_parse_reports (text : Text) :
    (∃ p, Zig.parse? text = some p ∧ p.Reports (Zig.lex text) [.asmExpr] ∧
      ((∀ d ∈ p.diagnostics, d.severity ≠ .error) →
        (∀ n ∈ p.root.node.descendants, n.kind ≠ .error) ∧
        ∀ l ∈ p.root.node.tokens, l.kind = .badCharacter → l.parent.kind = .asmExpr)) ∧
    (∃ p, Zon.parse? text = some p ∧ p.Reports (Zon.lex text) [] ∧
      ((∀ d ∈ p.diagnostics, d.severity ≠ .error) →
        (∀ n ∈ p.root.node.descendants, n.kind ≠ .error) ∧
        ∀ l ∈ Zon.lex text, l.kind ≠ .badCharacter)) := by
  constructor
  · obtain ⟨p, hp, hreports⟩ := Zig.exists_parse?_reports text
    refine ⟨p, hp, hreports, fun hnone => ?_⟩
    obtain ⟨hnodes, hbad⟩ := hreports.of_no_errors hnone
    exact ⟨hnodes, fun l hl hkind => List.mem_singleton.mp (hbad l hl hkind)⟩
  · obtain ⟨p, hp, hreports⟩ := Zon.exists_parse?_reports text
    refine ⟨p, hp, hreports, fun hnone => ?_⟩
    obtain ⟨hnodes, hbad⟩ := hreports.of_no_errors hnone
    refine ⟨hnodes, fun l hl hkind => ?_⟩
    rw [← hreports.tokens] at hl
    obtain ⟨leaf, hleaf, rfl⟩ := List.mem_map.mp hl
    exact List.not_mem_nil (hbad leaf hleaf hkind)

end ZigCst
