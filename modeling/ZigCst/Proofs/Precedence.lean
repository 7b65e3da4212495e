import ZigCst.Proofs.Outline
import ZigCst.Proofs.ZigForms
import ZigCst.Zig.View

/-!
# Operators in place

An operator binds more weakly than the operator of its right operand, and at most as
strongly as the one of its left operand.  Only an operator without a right operand ends
the expression on its right early, so that the next operator may bind more strongly.  A
comparison that follows another one on the same level is reported, and where no operator
lacks its right operand these are the comparisons of comparisons.

**Definitions.**
* `binding?`: how strongly the operator of a node binds.
* `lacksOperand`: an operator with an error where its right operand should stand.
* `comparesComparison`: a comparison whose left operand is another one.
* `Operates`: what is known of a node with an operator.

**Results.**
* `exists_operates`: it is known of every node with an operator.
* `chainedDiagnostics_eq`: the reported comparisons are those with another one down their
  left side.
* `exists_parse_climbs`: how operators bind in every text, and how many comparisons are
  reported.
-/

namespace ZigCst
namespace Zig

open Pattern

/-- How strongly the operator of a node binds. -/
def binding? (n : Node Kind) : Option (Fin 8) :=
  (operatorToken? n).bind fun l => precedence? l.kind

/-- Whether an error stands where the last operand of a node should. -/
def lacksOperand (n : Node Kind) : Bool := n.childNodes.getLast?.any fun m => m.kind == .error

/-- Whether a node compares two operands. -/
def isComparison (n : Node Kind) : Bool := n.kind == .binaryExpr && binding? n == some comparison

/-- Whether a node compares a comparison. -/
def comparesComparison (n : Node Kind) : Bool :=
  isComparison n && n.childNodes.head?.any isComparison

/-- How many diagnostics say that a comparison is chained. -/
def chainedDiagnostics (p : Parse Kind) : Nat :=
  p.diagnostics.countP fun d => d.message == "comparison operators cannot be chained".toList

/-! ## Nodes with an operator -/

/-- Whether a comparison has another one down its left side. -/
def chains : Shape Kind Kind → Bool
  | .node .binaryExpr (lhs :: rest) =>
      (firstToken? (lhs :: rest)).bind precedence? == some comparison && compares lhs
  | _ => false

theorem chains_of_ne
    {kind : Kind}
    (children : List (Shape Kind Kind))
    (hkind : kind ≠ .binaryExpr) :
    chains (.node kind children) = false := by
  unfold chains
  split <;> simp_all

theorem Operation.chains_eq
    {o : Operation}
    (hop : precedence? o.op = some o.precedence) :
    chains (plainNode .binaryExpr o.children) =
      (o.precedence == comparison && compares o.left) := by
  rw [plainNode, plain_children, chains]
  simp [firstToken?, hop, Operation.left]

/-- The operands of a node, how strongly its operator binds, and what that means for the
operators around it. -/
structure Operates (n lhs rhs : Node Kind) (precedence : Fin 8) : Prop where
  head : n.childNodes.head? = some lhs
  last : n.childNodes.getLast? = some rhs
  binding : binding? n = some precedence
  right_lt : precedence.val < strength rhs.outline
  left_le : fails lhs.outline = false → precedence.val ≤ strength lhs.outline
  strength_eq : strength n.outline = precedence.val
  fails_eq : fails n.outline = lacksOperand n
  compares_eq : compares n.outline = (precedence == comparison || compares lhs.outline)
  chains_eq : chains n.outline = (precedence == comparison && compares lhs.outline)

/-- What is known of an operation is known of the node in place. -/
theorem Operation.Climbs.exists_operates
    {n : Node Kind}
    {o : Operation}
    (ho : o.Climbs)
    (hkind : n.kind = .binaryExpr)
    (hplain : o.children.filterMap Marked.plain? = Tree.outlines n.children) :
    ∃ lhs rhs, Operates n lhs rhs o.precedence := by
  have houtline : plainNode .binaryExpr o.children = n.outline := by
    rw [plainNode, hplain, Node.outline, hkind]
  have hchildren := hplain
  rw [o.plain_children, ← n.map_outline_significant] at hchildren
  obtain ⟨_, es₁, hes, hleft, hes₁⟩ := List.map_eq_cons_iff.mp hchildren.symm
  obtain ⟨_, es₂, rfl, hop, hes₂⟩ := List.map_eq_cons_iff.mp hes₁
  obtain ⟨captures, es₃, rfl, -, hes₃⟩ := List.map_eq_append_iff.mp hes₂
  obtain ⟨_, rfl, hright⟩ := List.map_eq_singleton_iff.mp hes₃
  obtain ⟨lhs, rfl, hlhs, -⟩ := Element.exists_node_of_outline hleft
  obtain ⟨op, rfl, hopKind⟩ := Element.exists_token_of_outline hop
  obtain ⟨rhs, rfl, hrhs, -⟩ := Element.exists_node_of_outline hright
  have hnodes : n.childNodes = lhs :: (captures.filterMap Element.node? ++ [rhs]) := by
    rw [n.childNodes_eq, hes, List.filterMap_cons_some (f := Element.node?) rfl,
      List.filterMap_cons_none rfl, List.filterMap_append]
    rfl
  have hlast : n.childNodes.getLast? = some rhs := by
    rw [hnodes, ← List.cons_append, List.getLast?_concat]
  have hoperator : operatorToken? n = some op := by
    rw [operatorToken?, ← List.head?_filter, n.filter_childTokens, hes]
    rfl
  have hleftOutline : lhs.outline = o.left := hleft
  have hrightOutline : rhs.outline = o.right := hright
  refine ⟨lhs, rhs, by rw [hnodes]; rfl, hlast, ?_, ?_, ?_, ?_, ?_, ?_, ?_⟩
  · rw [binding?, hoperator, Option.bind_some, hopKind, ho.op_eq]
  · exact hrightOutline ▸ ho.right_lt
  · exact hleftOutline ▸ ho.left_le
  · rw [← houtline, Operation.strength_eq ho.op_eq]
  · rw [← houtline, Operation.fails_eq, lacksOperand, hlast, Option.any_some, hrhs]
  · rw [← houtline, Operation.compares_eq ho.op_eq, hleftOutline]
  · rw [← houtline, Operation.chains_eq ho.op_eq, hleftOutline]

/-! ## Chained comparisons among the faults -/

/-- The faults of an operation are those of its operator. -/
theorem Operation.Climbs.faultsAmong_children
    {o : Operation}
    (ho : o.Climbs) :
    Marked.faultsAmong o.children = if o.chained then [.chainedComparison] else [] := by
  have hcaptures : Marked.faultsAmong o.captures = [] := by
    refine List.filterMap_eq_nil_iff.mpr fun m hm => ?_
    obtain ⟨children, rfl⟩ := Marked.exists_of_sign_node (ho.captures_eq m hm)
    rfl
  rw [Marked.faultsAmong] at hcaptures ⊢
  rw [Operation.children, List.filterMap_cons_none rfl, List.filterMap_append,
    List.filterMap_cons_none rfl, List.filterMap_append, hcaptures]
  cases o.chained <;> rfl

/-- A node has a chained comparison among its faults exactly if its outline has one. -/
theorem countP_ownFaults
    {m x : Marked Kind}
    (heverywhere : m.Everywhere Rule)
    (hx : x ∈ m.nodes) :
    (Marked.ownFaults x).countP (fun cause => cause.sign == .chain) =
      if (Marked.plain? x).any chains then 1 else 0 := by
  cases x with
  | leaf mark => cases mark <;> rfl
  | node kind ms =>
      have hrule := heverywhere.of_mem_nodes m hx
      rw [Marked.ownFaults, Marked.plain?_node, Option.any_some]
      by_cases hkind : kind = .binaryExpr
      · subst hkind
        obtain ⟨o, rfl, ho⟩ := hrule.climbs rfl
        rw [ho.faultsAmong_children, Operation.chains_eq ho.op_eq, ← ho.chained_eq]
        cases o.chained <;> rfl
      · rw [chains_of_ne _ hkind, if_neg Bool.false_ne_true, List.countP_eq_zero]
        intro cause hcause hsign
        exact hrule.unchained hkind _ (Marked.mem_faultsAmong_iff.mp hcause) (eq_of_beq hsign)

/-- No other fault is worded like a chained comparison. -/
theorem message_beq_eq (cause : Fault Kind) :
    (cause.message == "comparison operators cannot be chained".toList) =
      (cause.sign == .chain) := by
  cases cause <;> rfl

/-- The reported comparisons are those with another one down their left side. -/
theorem chainedDiagnostics_eq
    {p : Parse Kind}
    {m : Marked Kind}
    (heverywhere : m.Everywhere Rule)
    (hplain : m.plain? = some p.root.outline)
    (hfaults : p.diagnostics.map Diagnostic.message = m.faults.map Fault.message) :
    chainedDiagnostics p = p.root.node.descendants.countP fun n => chains n.outline := by
  obtain ⟨children, rfl, -⟩ := Marked.eq_node_of_plain? hplain
  have hdiagnostics : chainedDiagnostics p =
      (Marked.faults (.node p.root.kind children)).countP fun cause => cause.sign == .chain := by
    have hcount := congrArg
      (List.countP (· == "comparison operators cannot be chained".toList)) hfaults
    rw [List.countP_map, List.countP_map] at hcount
    rw [chainedDiagnostics]
    simpa only [Function.comp_def, message_beq_eq] using hcount
  rw [hdiagnostics, (Marked.faults_node_perm ..).countP_eq, Root.countP_descendants hplain]
  exact countP_flatMap_eq fun x hx => countP_ownFaults heverywhere hx

/-! ## Files -/

section Trees

variable
  {r : Root Kind}
  {m : Marked Kind}
  (heverywhere : m.Everywhere Rule)
  (hplain : m.plain? = some r.outline)
include heverywhere hplain

theorem exists_operates
    {n : Node Kind}
    (hn : n ∈ r.node.descendants)
    (hkind : n.kind = .binaryExpr) :
    ∃ lhs rhs precedence, Operates n lhs rhs precedence := by
  obtain ⟨ms, hnode, hms⟩ := Root.exists_children_of_mem hplain hn
  obtain ⟨o, rfl, ho⟩ := (heverywhere.of_mem_nodes m hnode).climbs hkind
  obtain ⟨lhs, rhs, hoperates⟩ := ho.exists_operates hkind hms
  exact ⟨lhs, rhs, o.precedence, hoperates⟩

/-- A prefix is put in front of an operand. -/
theorem kind_ne_of_prefix
    {n c : Node Kind}
    (hn : n ∈ r.node.descendants)
    (hkind : n.kind = .prefixExpr)
    (hc : c ∈ n.childNodes) :
    c.kind ≠ .binaryExpr := by
  intro hbinary
  obtain ⟨ms, hnode, hms⟩ := Root.exists_children_of_mem hplain hn
  have hrule := heverywhere.of_mem_nodes m hnode
  rw [hkind] at hrule
  have hmem := Node.outline_mem_outlines hc
  rw [← hms] at hmem
  obtain ⟨c', hc', houtline⟩ := List.mem_filterMap.mp hmem
  obtain ⟨children, rfl, -⟩ := Marked.eq_node_of_plain? houtline
  have hsign := sign_mem_signs (hrule.fits (by decide) (by decide)) _ hc'
  rw [Marked.sign, hbinary] at hsign
  exact absurd hsign (by decide)

/-- A comparison that is an operand is one down the left side. -/
theorem chains_of_comparesComparison
    {n : Node Kind}
    (hn : n ∈ r.node.descendants)
    (h : comparesComparison n = true) :
    chains n.outline = true := by
  simp only [comparesComparison, isComparison, Bool.and_eq_true, beq_iff_eq,
    Option.any_eq_true] at h
  obtain ⟨⟨hkind, hbinding⟩, lhs, hhead, hlhsKind, hlhsBinding⟩ := h
  obtain ⟨lhs', rhs, precedence, hoperates⟩ := exists_operates heverywhere hplain hn hkind
  obtain rfl : lhs' = lhs := Option.some.inj (hoperates.head.symm.trans hhead)
  have hlhs := Node.mem_descendants_of_mem_childNodes hn (List.mem_of_head? hhead)
  obtain ⟨lhs'', rhs', inner, hinner⟩ := exists_operates heverywhere hplain hlhs hlhsKind
  have hcomparison : precedence = comparison :=
    Option.some.inj (hoperates.binding.symm.trans hbinding)
  have hinnerComparison : inner = comparison :=
    Option.some.inj (hinner.binding.symm.trans hlhsBinding)
  rw [hoperates.chains_eq, hinner.compares_eq, hcomparison, hinnerComparison]
  simp

variable
  (hwhole : ∀ n ∈ r.node.descendants, n.kind = .binaryExpr → ∀ c, n.childNodes.head? = some c →
    c.kind = .binaryExpr → lacksOperand c = false)
include hwhole

/-- The operator on the left of another one binds at least as strongly. -/
theorem left_le_of_whole
    {n lhs rhs : Node Kind}
    {precedence : Fin 8}
    (hn : n ∈ r.node.descendants)
    (hkind : n.kind = .binaryExpr)
    (h : Operates n lhs rhs precedence) :
    precedence.val ≤ strength lhs.outline := by
  by_cases hlhsKind : lhs.kind = .binaryExpr
  · have hlhs := Node.mem_descendants_of_mem_childNodes hn (List.mem_of_head? h.head)
    obtain ⟨_, _, _, hinner⟩ := exists_operates heverywhere hplain hlhs hlhsKind
    exact h.left_le (hinner.fails_eq.trans (hwhole n hn hkind lhs h.head hlhsKind))
  · rw [Node.outline, (strength_of_ne _ hlhsKind).1]
    exact precedence.isLt.le

/-- There is no comparison down the left side of an operator that binds more strongly. -/
theorem compares_eq_false
    {n : Node Kind}
    (hn : n ∈ r.node.descendants)
    (hstrong : comparison.val < strength n.outline) :
    compares n.outline = false := by
  by_cases hkind : n.kind = .binaryExpr
  · obtain ⟨lhs, rhs, precedence, hoperates⟩ := exists_operates heverywhere hplain hn hkind
    rw [hoperates.strength_eq] at hstrong
    have hne : (precedence == comparison) = false :=
      beq_eq_false_iff_ne.mpr fun heq => by simp [heq] at hstrong
    have hle := left_le_of_whole heverywhere hplain hwhole hn hkind hoperates
    have hlhs := List.mem_of_head? hoperates.head
    have hsmaller : sizeOf lhs.outline < sizeOf n.outline := by
      have hmem := List.sizeOf_lt_of_mem (Node.outline_mem_outlines hlhs)
      have hnode := Shape.node.sizeOf_spec n.kind (Tree.outlines n.children)
      rw [← Node.outline] at hnode
      omega
    rw [hoperates.compares_eq, hne, Bool.false_or]
    exact compares_eq_false (Node.mem_descendants_of_mem_childNodes hn hlhs) (hstrong.trans_le hle)
  · exact (strength_of_ne _ hkind).2
termination_by sizeOf n.outline

/-- The last comparison down the left side of a comparison is its left operand. -/
theorem comparesComparison_of_chains
    {n : Node Kind}
    (hn : n ∈ r.node.descendants)
    (h : chains n.outline = true) :
    comparesComparison n = true := by
  have hkind : n.kind = .binaryExpr := by
    by_contra hne
    rw [Node.outline, chains_of_ne _ hne] at h
    cases h
  obtain ⟨lhs, rhs, precedence, hoperates⟩ := exists_operates heverywhere hplain hn hkind
  rw [hoperates.chains_eq, Bool.and_eq_true, beq_iff_eq] at h
  obtain ⟨rfl, hcompares⟩ := h
  have hlhs := Node.mem_descendants_of_mem_childNodes hn (List.mem_of_head? hoperates.head)
  have hle := left_le_of_whole heverywhere hplain hwhole hn hkind hoperates
  have hnot : ¬ comparison.val < strength lhs.outline := fun hlt => by
    rw [compares_eq_false heverywhere hplain hwhole hlhs hlt] at hcompares
    cases hcompares
  have hlhsKind : lhs.kind = .binaryExpr := by
    by_contra hne
    rw [Node.outline, (strength_of_ne _ hne).1] at hnot
    exact hnot (by decide)
  obtain ⟨_, _, inner, hinner⟩ := exists_operates heverywhere hplain hlhs hlhsKind
  rw [hinner.strength_eq] at hle hnot
  have hinnerEq : inner = comparison := Fin.ext (by omega)
  simp [comparesComparison, isComparison, hkind, hoperates.binding, hoperates.head, hlhsKind,
    hinner.binding, hinnerEq]

end Trees

/-- Whether the operator of a node binds more weakly than the one of its last child, and
at most as strongly as the one of its first child unless that one lacks an operand. -/
def OperatorClimbs (n : Node Kind) : Prop :=
  ∃ precedence, binding? n = some precedence ∧
    (∀ c, n.childNodes.head? = some c → c.kind = .binaryExpr → lacksOperand c = false →
      ∃ inner, binding? c = some inner ∧ precedence ≤ inner) ∧
    ∀ c, n.childNodes.getLast? = some c → c.kind = .binaryExpr →
      ∃ inner, binding? c = some inner ∧ precedence < inner

/-- **Operators climb.**  In every text, every operator binds more weakly than the one on
its right and, unless that one lacks its right operand, at most as strongly as the one on
its left; no prefix stands in front of an operator; and at least as many comparisons are
reported as chained as there are comparisons of comparisons, and no more unless some
operator on the left of another one lacks its right operand. -/
theorem exists_parse_climbs (text : Text) :
    ∃ p, parse? text = some p ∧
      (∀ n ∈ p.root.node.descendants, n.kind = .binaryExpr → OperatorClimbs n) ∧
      (∀ n ∈ p.root.node.descendants, n.kind = .prefixExpr →
        ∀ c ∈ n.childNodes, c.kind ≠ .binaryExpr) ∧
      p.root.node.descendants.countP comparesComparison ≤ chainedDiagnostics p ∧
      ((∀ n ∈ p.root.node.descendants, n.kind = .binaryExpr → ∀ c, n.childNodes.head? = some c →
          c.kind = .binaryExpr → lacksOperand c = false) →
        chainedDiagnostics p = p.root.node.descendants.countP comparesComparison) := by
  obtain ⟨p, m, hp, -, heverywhere, hplain, hfaults, -⟩ := exists_marked_sourceFile text
  have hchained := chainedDiagnostics_eq heverywhere hplain hfaults
  refine ⟨p, hp, ?_, fun n hn hkind c => kind_ne_of_prefix heverywhere hplain hn hkind, ?_, ?_⟩
  · intro n hn hkind
    obtain ⟨lhs, rhs, precedence, hoperates⟩ := exists_operates heverywhere hplain hn hkind
    refine ⟨precedence, hoperates.binding, fun c hc hckind hlacks => ?_, fun c hc hckind => ?_⟩
    · obtain rfl : lhs = c := Option.some.inj (hoperates.head.symm.trans hc)
      have hlhs := Node.mem_descendants_of_mem_childNodes hn (List.mem_of_head? hc)
      obtain ⟨_, _, inner, hinner⟩ := exists_operates heverywhere hplain hlhs hckind
      have hle := hoperates.left_le (hinner.fails_eq.trans hlacks)
      exact ⟨inner, hinner.binding, Fin.le_def.mpr (hinner.strength_eq ▸ hle)⟩
    · obtain rfl : rhs = c := Option.some.inj (hoperates.last.symm.trans hc)
      have hrhs := Node.mem_descendants_of_mem_childNodes hn (List.mem_of_getLast? hc)
      obtain ⟨_, _, inner, hinner⟩ := exists_operates heverywhere hplain hrhs hckind
      exact ⟨inner, hinner.binding, Fin.lt_def.mpr (hinner.strength_eq ▸ hoperates.right_lt)⟩
  · rw [hchained]
    exact List.countP_mono_left fun n hn => chains_of_comparesComparison heverywhere hplain hn
  · intro hwhole
    rw [hchained]
    refine List.countP_congr fun n hn => ⟨?_, ?_⟩
    · exact comparesComparison_of_chains heverywhere hplain hwhole hn
    · exact chains_of_comparesComparison heverywhere hplain hn

/-- A comparison of a comparison is reported, one beside an `and` is not. -/
theorem exists_parse_climbs_chained :
    ∃ p, parse? "const x = a == b == c and d == e;".toList = some p ∧
      chainedDiagnostics p = 1 ∧
      p.root.node.descendants.countP comparesComparison = 1 := by
  obtain ⟨p, hp, -, -, -, hchained⟩ :=
    exists_parse_climbs "const x = a == b == c and d == e;".toList
  have hfound : (parse? "const x = a == b == c and d == e;".toList).any (fun p =>
      (p.root.node.descendants.all fun n => n.childNodes.head?.all fun c => !lacksOperand c) &&
        p.root.node.descendants.countP comparesComparison == 1) = true := by
    decide +kernel
  rw [hp, Option.any_some, Bool.and_eq_true, beq_iff_eq, List.all_eq_true] at hfound
  obtain ⟨hwhole, hcount⟩ := hfound
  refine ⟨p, hp, (hchained fun n hn _ c hc _ => ?_).trans hcount, hcount⟩
  simpa [hc] using hwhole n hn

/-- After an operator without a right operand, the next one may bind more strongly, and be
reported as chained to a comparison that is not its operand. -/
theorem exists_parse_not_climbs :
    ∃ p, parse? "const x = a == b and % == c;\n".toList = some p ∧
      (∃ n ∈ p.root.node.descendants, n.kind = .binaryExpr ∧
        ∃ c, n.childNodes.head? = some c ∧ c.kind = .binaryExpr ∧
          binding? n = some 3 ∧ binding? c = some 2) ∧
      chainedDiagnostics p = 1 ∧
      p.root.node.descendants.countP comparesComparison = 0 := by
  have hfound : (parse? "const x = a == b and % == c;\n".toList).any (fun p =>
      (p.root.node.descendants.any fun n => n.kind == .binaryExpr &&
        n.childNodes.head?.any fun c => c.kind == .binaryExpr &&
          (binding? n == some 3 && binding? c == some 2)) &&
      (chainedDiagnostics p == 1 && p.root.node.descendants.countP comparesComparison == 0)) =
        true := by
    decide +kernel
  simpa only [Option.any_eq_true, List.any_eq_true, Bool.and_eq_true, beq_iff_eq] using hfound

end Zig
end ZigCst
