import ZigCst.Proofs.InPlace
import ZigCst.Proofs.ZigForms
import ZigCst.Zig.View

/-!
# Operands in place

An operator stands between its two operands, however malformed they are.  Only what it
captures may come between it and the operand on its right, and then the second child
node is that capture and not the operand.

**Definitions.**
* `OperandsInPlace`: the children of a node with an operator, and how its operands and
  its operator are found among them.

**Results.**
* `exists_operandsInPlace`: the children of an operation.
* `exists_parse_operands`: the operands and the operator of every operation in every text.
-/

namespace ZigCst
namespace Zig

open Pattern

/-- The children of a node with an operator are its left operand, the operator, what it
captures if it does, and its right operand.  The second child node is the capture where
there is one. -/
structure OperandsInPlace
    (n lhs : Node Kind)
    (op : Leaf Kind)
    (capture : Option (Node Kind))
    (rhs : Node Kind) : Prop where
  significant_eq :
    n.significant = .node lhs :: .token op :: (capture.toList.map .node ++ [.node rhs])
  op_mem : op.kind ∈ operatorKinds
  lhs_mem : lhs.kind ∈ exprKinds
  rhs_mem : rhs.kind ∈ exprKinds
  capture_kind : ∀ c ∈ capture, c.kind = .payload
  operator_eq : operatorToken? n = some op
  lhs_eq : BinaryExpr.lhs? n = some lhs
  last_eq : n.childNodes.getLast? = some rhs
  rhs_eq : BinaryExpr.rhs? n = some (capture.getD rhs)

/-- What is captured is one node. -/
theorem exists_capture_of_fits
    {es : List (Element Kind)}
    (h : Form.payload.Fits es) :
    ∃ capture : Option (Node Kind),
      es = capture.toList.map .node ∧ ∀ c ∈ capture, c.kind = .payload := by
  rcases fits_perhaps_iff.mp h with rfl | h
  · exact ⟨none, rfl, by simp⟩
  · obtain ⟨xs, ys, rfl, hxs, hys⟩ := fits_all_cons_iff.mp h
    obtain ⟨c, rfl, hc⟩ := hxs.exists_node
    obtain rfl := fits_all_nil_iff.mp hys
    refine ⟨some c, rfl, fun c' hc' => ?_⟩
    obtain rfl := Option.mem_some.mp hc'
    exact List.mem_singleton.mp hc

/-- The operands and the operator are found where they stand. -/
theorem operandsInPlace_of_significant
    {n lhs rhs : Node Kind}
    {op : Leaf Kind}
    {capture : Option (Node Kind)}
    (hsignificant :
      n.significant = .node lhs :: .token op :: (capture.toList.map .node ++ [.node rhs]))
    (hop : op.kind ∈ operatorKinds)
    (hlhs : lhs.kind ∈ exprKinds)
    (hrhs : rhs.kind ∈ exprKinds)
    (hcapture : ∀ c ∈ capture, c.kind = .payload) :
    OperandsInPlace n lhs op capture rhs := by
  have hnodes : n.childNodes = lhs :: (capture.toList ++ [rhs]) := by
    rw [n.childNodes_eq, hsignificant]
    cases capture <;> rfl
  refine
    { significant_eq := hsignificant
      op_mem := hop
      lhs_mem := hlhs
      rhs_mem := hrhs
      capture_kind := hcapture
      operator_eq := ?_
      lhs_eq := ?_
      last_eq := ?_
      rhs_eq := ?_ }
  · rw [operatorToken?, ← List.head?_filter, n.filter_childTokens, hsignificant]
    rfl
  · rw [BinaryExpr.lhs?, hnodes]
    rfl
  · rw [hnodes, ← List.cons_append, List.getLast?_concat]
  · rw [BinaryExpr.rhs?, hnodes]
    cases capture <;> rfl

/-- Every operation has its operands and its operator in place. -/
theorem exists_operandsInPlace
    {n : Node Kind}
    (h : (all (Form.of .binaryExpr)).Fits n.significant) :
    ∃ lhs op capture rhs, OperandsInPlace n lhs op capture rhs := by
  obtain ⟨left, es, hes, hleft, h⟩ := fits_all_cons_iff.mp h
  obtain ⟨faults, es, rfl, hfaults, h⟩ := fits_all_cons_iff.mp h
  obtain ⟨operator, es, rfl, hoperator, h⟩ := fits_all_cons_iff.mp h
  obtain ⟨captures, es, rfl, hcaptures, h⟩ := fits_all_cons_iff.mp h
  obtain ⟨right, es, rfl, hright, h⟩ := fits_all_cons_iff.mp h
  obtain rfl := fits_all_nil_iff.mp h
  obtain ⟨lhs, rfl, hlhs⟩ := hleft.exists_node
  obtain ⟨op, rfl, hop⟩ := hoperator.exists_token
  obtain ⟨capture, rfl, hcapture⟩ := exists_capture_of_fits hcaptures
  obtain ⟨rhs, rfl, hrhs⟩ := hright.exists_node
  have hnone : faults = [] := by
    rcases fits_perhaps_iff.mp hfaults with rfl | hfaults
    · rfl
    · obtain ⟨xs, ys, rfl, hxs, hys⟩ := fits_all_cons_iff.mp hfaults
      rw [fits_all_nil_iff.mp hys, hxs.eq_nil_of_faults (by simp), List.append_nil]
  subst hnone
  exact ⟨lhs, op, capture, rhs, operandsInPlace_of_significant hes hop hlhs hrhs hcapture⟩

/-- A node in place fits the pattern of its kind, if it has one. -/
theorem fits_of_mem
    {m : Marked Kind}
    {r : Root Kind}
    (heverywhere : m.Everywhere Rule)
    (hplain : m.plain? = some r.outline)
    {n : Node Kind}
    (hn : n ∈ r.node.descendants)
    {kind : Kind}
    (hkind : n.kind = kind)
    (herror : kind ≠ .error)
    (hasm : kind ≠ .asmExpr) :
    (all (Form.of kind)).Fits n.significant := by
  subst hkind
  obtain ⟨ms, hnode, hms⟩ := Root.exists_children_of_mem hplain hn
  exact fits_significant ((heverywhere.of_mem_nodes m hnode).fits herror hasm) hms

/-- **Operands are in place.**  In every text, every operation has two operands and an
operator between them; the operator is its first token, the left operand its first child
node and the right one its last.  The second child node is the right operand unless
something is captured, and then it is the capture. -/
theorem exists_parse_operands (text : Text) :
    ∃ p, parse? text = some p ∧
      ∀ n ∈ p.root.node.descendants, n.kind = .binaryExpr →
        ∃ lhs op capture rhs, OperandsInPlace n lhs op capture rhs := by
  obtain ⟨p, m, hp, -, heverywhere, hplain, -⟩ := exists_marked_sourceFile text
  refine ⟨p, hp, fun n hn hkind => exists_operandsInPlace ?_⟩
  exact fits_of_mem heverywhere hplain hn hkind (by decide) (by decide)

/-- After a capture, the second child node is the capture and not the right operand. -/
theorem exists_parse_operands_capture :
    ∃ p, parse? "const x = a catch |e| b;\n".toList = some p ∧
      ∃ n ∈ p.root.node.descendants, ∃ lhs op capture rhs,
        OperandsInPlace n lhs op (some capture) rhs ∧ BinaryExpr.rhs? n = some capture := by
  obtain ⟨p, hp, hoperands⟩ := exists_parse_operands "const x = a catch |e| b;\n".toList
  have hfound : (parse? "const x = a catch |e| b;\n".toList).any (fun p =>
      p.root.node.descendants.any fun n => n.kind == .binaryExpr &&
        (BinaryExpr.rhs? n).any fun c => c.kind == .payload) = true := by
    decide +kernel
  rw [hp, Option.any_some] at hfound
  simp only [List.any_eq_true, Bool.and_eq_true, beq_iff_eq, Option.any_eq_true] at hfound
  obtain ⟨n, hn, hkind, c, hc, hcapture⟩ := hfound
  obtain ⟨lhs, op, capture, rhs, hplaces⟩ := hoperands n hn hkind
  cases capture with
  | none =>
      -- Without a capture, the second child node would be an operand.
      obtain rfl : c = rhs := Option.some.inj (hc.symm.trans hplaces.rhs_eq)
      exact absurd (hcapture ▸ hplaces.rhs_mem) (by decide)
  | some capture => exact ⟨p, hp, n, hn, lhs, op, capture, rhs, hplaces, hplaces.rhs_eq⟩

end Zig
end ZigCst
