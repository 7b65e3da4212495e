import ZigCst.Proofs.Trivia

/-!
# Spans of nodes

The span of a node is the number of significant tokens before it and the number of those
in it.  A node that has significant tokens is trimmed to the range of its span, so the
trimmed ranges of the nodes of a tree are known from its outline and from the ranges of
its significant tokens.

**Definitions.**
* `Shape.spans`: the spans of the nodes of some kinds, in preorder.
* `Range.ofSpan`: the range from the first to the last member of a span.

**Results.**
* `Root.map_trimmedRange`: the trimmed ranges of the nodes of some kinds are those of
  their spans.
* `Range.ofSpan_shift`: ranges that move to the right between others take the ranges of
  their spans with them.
-/

namespace ZigCst

/-! ## Spans of shapes -/

namespace Shape

variable {α β K : Type}

/-- What holds of no shapes, and goes on from the children of a node to the node, holds of
all neighbouring shapes. -/
theorem neighbours_induction
    {P : List (Shape α K) → Prop}
    (nil : P [])
    (leaf : ∀ a ss, P ss → P (.leaf a :: ss))
    (node : ∀ kind children ss, P children → P ss → P (.node kind children :: ss))
    (ss : List (Shape α K)) :
    P ss := by
  match ss with
  | [] => exact nil
  | .leaf a :: ss => exact leaf a ss (neighbours_induction nil leaf node ss)
  | .node kind children :: ss =>
      exact node kind children ss (neighbours_induction nil leaf node children)
        (neighbours_induction nil leaf node ss)

/-- Whether a shape is a node of a kind that satisfies `p`. -/
def isOf (p : K → Bool) : Shape α K → Bool
  | .leaf _ => false
  | .node kind _ => p kind

/-- The spans of the nodes of kinds that satisfy `p`, in preorder: how many leaves come
before a node, and how many are in it. -/
def spans (p : K → Bool) (rank : Nat) (ss : List (Shape α K)) : List (Nat × Nat) :=
  ((preorderAll rank ss).filter fun x => x.2.isOf p).map fun x => (x.1, x.2.leaves.length)

variable {p : K → Bool}

@[simp] theorem spans_nil (rank : Nat) : spans p rank ([] : List (Shape α K)) = [] := rfl

theorem spans_append
    (rank : Nat)
    (ss ss' : List (Shape α K)) :
    spans p rank (ss ++ ss') =
      spans p rank ss ++ spans p (rank + (ss.flatMap leaves).length) ss' := by
  rw [spans, preorderAll_append, List.filter_append, List.map_append]
  rfl

@[simp] theorem spans_leaf
    (rank : Nat)
    (a : α)
    (ss : List (Shape α K)) :
    spans p rank (.leaf a :: ss) = spans p (rank + 1) ss := by
  simp [spans, preorderAll, preorder]

theorem spans_node
    (rank : Nat)
    (kind : K)
    (children ss : List (Shape α K)) :
    spans p rank (.node kind children :: ss) =
      (if p kind then [(rank, (children.flatMap leaves).length)] else []) ++
        (spans p rank children ++ spans p (rank + (children.flatMap leaves).length) ss) := by
  have hnode : spans p rank [.node kind children] =
      (if p kind then [(rank, (children.flatMap leaves).length)] else []) ++
        spans p rank children := by
    have hself : (node kind children : Shape α K).isOf p = p kind := rfl
    rw [spans, preorderAll, preorderAll, List.append_nil, preorder, List.filter_cons, hself]
    split <;> simp [spans]
  have hcons := spans_append (p := p) rank [.node kind children] ss
  simpa [hnode] using hcons

/-- Spans may be asked of the outline. -/
theorem spans_map
    (f : α → β)
    (rank : Nat)
    (ss : List (Shape α K)) :
    spans p rank (ss.map (map f)) = spans p rank ss := by
  induction ss using neighbours_induction generalizing rank with
  | nil => rfl
  | leaf a ss ih => simp [ih]
  | node kind children ss ih ih' =>
      rw [List.map_cons, map_node, spans_node, spans_node, ih, ih', flatMap_leaves_map,
        List.length_map]

/-- Leaves in front come before every span. -/
theorem spans_add
    (rank n : Nat)
    (ss : List (Shape α K)) :
    spans p (rank + n) ss = (spans p rank ss).map fun x => (x.1 + n, x.2) := by
  induction ss using neighbours_induction generalizing rank with
  | nil => rfl
  | leaf a ss ih => rw [spans_leaf, spans_leaf, Nat.add_right_comm, ih]
  | node kind children ss ih ih' =>
      rw [spans_node, spans_node, Nat.add_right_comm, ih, ih']
      split <;> simp

/-- A span ends before the leaves do. -/
theorem add_le_of_mem_spans
    {rank : Nat}
    {ss : List (Shape α K)}
    {x : Nat × Nat}
    (h : x ∈ spans p rank ss) :
    x.1 + x.2 ≤ rank + (ss.flatMap leaves).length := by
  induction ss using neighbours_induction generalizing rank with
  | nil => simp at h
  | leaf a ss ih =>
      have hbound := ih (by simpa using h)
      simp only [List.flatMap_cons, leaves_leaf, List.length_append, List.length_singleton]
      omega
  | node kind children ss ih ih' =>
      rw [spans_node, List.mem_append, List.mem_append] at h
      simp only [List.flatMap_cons, leaves_node, List.length_append]
      rcases h with h | h | h
      · split at h
        · obtain rfl := List.mem_singleton.mp h
          dsimp only
          omega
        · simp at h
      · have hbound := ih h
        omega
      · have hbound := ih' h
        omega

end Shape

/-! ## Ranges of spans -/

namespace Range

/-- The range from the start of the first of some ranges to the end of the last. -/
def hull (rs : List Range) : Range :=
  ⟨(rs.head?.map Range.start).getD 0, (rs.getLast?.map Range.stop).getD 0⟩

/-- The range of a span among the ranges of all significant tokens. -/
def ofSpan (rs : List Range) (x : Nat × Nat) : Range := hull ((rs.drop x.1).take x.2)

theorem hull_shift
    (n : Nat)
    {rs : List Range}
    (h : rs ≠ []) :
    hull (rs.map (Range.shift n)) = (hull rs).shift n := by
  simp [hull, List.head?_eq_some_head h, List.getLast?_eq_some_getLast h, Range.shift]

/-- Ranges behind all members of a span do not matter. -/
theorem ofSpan_append
    {rs : List Range}
    (behind : List Range)
    {x : Nat × Nat}
    (hle : x.1 + x.2 ≤ rs.length) :
    ofSpan (rs ++ behind) x = ofSpan rs x := by
  rw [ofSpan, ofSpan, List.drop_append_of_le_length (by omega),
    List.take_append_of_le_length (by rw [List.length_drop]; omega)]

/-- Ranges that move to the right between others take the ranges of spans with them. -/
theorem ofSpan_shift
    (n : Nat)
    (front behind : List Range)
    {rs : List Range}
    {x : Nat × Nat}
    (hpos : 0 < x.2)
    (hle : x.1 + x.2 ≤ rs.length) :
    ofSpan (front ++ (rs.map (Range.shift n) ++ behind)) (x.1 + front.length, x.2) =
      (ofSpan rs x).shift n := by
  have hne : (rs.drop x.1).take x.2 ≠ [] := by
    rw [← List.length_pos_iff, List.length_take, List.length_drop]
    omega
  have hsplit : ((front ++ (rs.map (Range.shift n) ++ behind)).drop (x.1 + front.length)).take x.2 =
      ((rs.drop x.1).take x.2).map (Range.shift n) := by
    rw [Nat.add_comm, ← List.drop_drop, List.drop_left, List.drop_append_of_le_length,
      List.take_append_of_le_length, List.map_take, List.map_drop]
    · rw [List.length_drop, List.length_map]
      omega
    · rw [List.length_map]
      omega
  rw [ofSpan, hsplit, hull_shift n hne]
  rfl

end Range

/-! ## Trimmed ranges -/

section Trimming

variable {K : Type} [Vocabulary K]

/-- A node is trimmed to the range of its span. -/
theorem Node.Stands.trimmedRange_eq
    {stream : List (Lexeme K)}
    {rank : Nat}
    {n : Node K}
    (h : n.Stands stream rank)
    (hsome : significantLexemes (Tree.allLexemes n.children) ≠ []) :
    n.trimmedRange = .ofSpan ((places 0 stream).map fun l => l.range)
      (rank, (significantLexemes (Tree.allLexemes n.children)).length) := by
  obtain ⟨before, after, hstream, hplace, hrank⟩ := h
  have hspan : ((places 0 stream).drop rank).take
      (significantLexemes (Tree.allLexemes n.children)).length =
        places n.place.bytes (Tree.allLexemes n.children) := by
    rw [hstream, places_append, places_append, Nat.zero_add, ← hplace, ← hrank,
      ← length_places 0 before, List.drop_left, ← length_places n.place.bytes, List.take_left]
  have hne : places n.place.bytes (Tree.allLexemes n.children) ≠ [] := by
    rw [← List.length_pos_iff, length_places]
    exact List.length_pos_iff.mpr hsome
  rw [Range.ofSpan, ← List.map_drop, ← List.map_take, hspan, Range.hull]
  have hplaces : (locate n.place.bytes (Tree.allLexemes n.children)).filter
      (fun l => !Vocabulary.isTrivia l.kind) =
        places n.place.bytes (Tree.allLexemes n.children) := rfl
  simp only [Node.trimmedRange, hplaces, List.head?_map, List.getLast?_map,
    List.head?_eq_some_head hne, List.getLast?_eq_some_getLast hne, Option.map_some,
    Option.getD_some]

/-- Nodes that show shapes with leaves are trimmed to the ranges of their spans. -/
theorem Node.map_trimmedRange_of_shows
    {stream : List (Lexeme K)}
    {ns : List (Node K)}
    {xs : List (Nat × Shape (Lexeme K) K)}
    (h : List.Forall₂ (Node.Shows stream) ns xs)
    (hpos : ∀ x ∈ xs, 0 < x.2.leaves.length) :
    ns.map Node.trimmedRange = xs.map fun x =>
      .ofSpan ((places 0 stream).map fun l => l.range) (x.1, x.2.leaves.length) := by
  induction h with
  | nil => rfl
  | @cons n x ns xs hshows _ ih =>
      obtain ⟨hx, hxs⟩ := List.forall_mem_cons.mp hpos
      have hleaves : x.2.leaves = significantLexemes (Tree.allLexemes n.children) := by
        rw [← hshows.2, Node.bare, Shape.leaves_node, Tree.leaves_bares]
      rw [hleaves, List.length_pos_iff] at hx
      rw [List.map_cons, List.map_cons, ih hxs, hshows.1.trimmedRange_eq hx, hleaves]

/-- **Trimmed ranges are known from the outline** and from the ranges of the significant
tokens. -/
theorem Root.map_trimmedRange
    (r : Root K)
    (p : K → Bool)
    (hpos : ∀ x ∈ Shape.spans p 0 [r.outline], 0 < x.2) :
    (r.node.descendants.filter fun n => p n.kind).map Node.trimmedRange =
      (Shape.spans p 0 [r.outline]).map
        (.ofSpan ((places 0 r.lexemes).map fun l => l.range)) := by
  have hspans : Shape.spans p 0 [r.outline] =
      ((r.bare.preorder 0).filter fun x => x.2.isOf p).map fun x => (x.1, x.2.leaves.length) := by
    have hmap := Shape.spans_map (p := p) Lexeme.kind 0 [r.bare]
    rw [List.map_singleton, Root.map_kind_bare] at hmap
    rw [hmap, Shape.spans, Shape.preorderAll, Shape.preorderAll, List.append_nil]
  have hnodes : List.Forall₂ (Node.Shows r.lexemes) (r.node.descendants.filter fun n => p n.kind)
      ((r.bare.preorder 0).filter fun x => x.2.isOf p) := by
    refine List.rel_filter (fun n x hx => ?_) r.shows_descendants
    simp only [← hx.2, Node.bare, Shape.isOf]
  rw [hspans] at hpos ⊢
  rw [Node.map_trimmedRange_of_shows hnodes, List.map_map]
  · rfl
  · exact fun x hx => hpos _ (List.mem_map_of_mem hx)

end Trimming
end ZigCst
