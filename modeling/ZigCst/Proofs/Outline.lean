import ZigCst.Proofs.Joining
import ZigCst.Proofs.Marked

/-!
# Nodes of a tree and of its outline

What is known of the nodes of an outline, with or without faults, is known of the nodes
in place: both walks meet the same nodes in the same order.  A token in place is a child
of its parent, which the walk has entered, so what is known of the children of all nodes
is known of all tokens.

**Definitions.**
* `Shape.nodes`: all nodes in preorder.
* `Marked.ownFaults`: the faults that are children of a node.

**Results.**
* `Root.map_outline_descendants`: the outlines of all nodes in place.
* `Root.exists_children_of_mem`, `Root.exists_siblings_of_mem`: the children of a node in
  place, and the siblings of a token, as they are marked.
* `Marked.faults_node_perm`: every fault is a child of one node.
* `Node.mem_of_mem_tokens`: every token is a child of a node that the walk enters.
-/

namespace ZigCst

/-! ## Nodes of a shape -/

namespace Shape

variable {α β K : Type}

mutual

/-- All nodes in preorder. -/
def nodes : Shape α K → List (Shape α K)
  | .leaf _ => []
  | .node kind children => .node kind children :: nodesAll children

/-- All nodes of neighbouring shapes in preorder. -/
def nodesAll : List (Shape α K) → List (Shape α K)
  | [] => []
  | s :: ss => s.nodes ++ nodesAll ss

end

theorem nodesAll_eq (ss : List (Shape α K)) : nodesAll ss = ss.flatMap nodes := by
  induction ss with
  | nil => rfl
  | cons s ss ih => rw [nodesAll, ih, List.flatMap_cons]

@[simp]
theorem nodes_leaf (a : α) : (leaf a : Shape α K).nodes = [] := rfl

@[simp]
theorem nodes_node
    (kind : K)
    (children : List (Shape α K)) :
    (node kind children).nodes = node kind children :: children.flatMap nodes := by
  rw [nodes, nodesAll_eq]

mutual

/-- A property of all nodes is one of every node in preorder. -/
theorem Everywhere.of_mem_nodes
    {P : K → List (Shape α K) → Prop}
    (s : Shape α K)
    (h : s.Everywhere P)
    {kind : K}
    {children : List (Shape α K)}
    (hmem : .node kind children ∈ s.nodes) :
    P kind children := by
  cases s with
  | leaf a => simp at hmem
  | node kind' children' =>
      rw [everywhere_node_iff] at h
      rw [nodes] at hmem
      rcases List.mem_cons.mp hmem with heq | hmem
      · obtain ⟨rfl, rfl⟩ := Shape.node.inj heq
        exact h.1
      · exact Everywhere.of_mem_nodesAll children' h.2 hmem

theorem Everywhere.of_mem_nodesAll
    {P : K → List (Shape α K) → Prop}
    (ss : List (Shape α K))
    (h : ∀ s ∈ ss, s.Everywhere P)
    {kind : K}
    {children : List (Shape α K)}
    (hmem : .node kind children ∈ nodesAll ss) :
    P kind children := by
  cases ss with
  | nil => simp [nodesAll] at hmem
  | cons s ss =>
      obtain ⟨hs, hss⟩ := List.forall_mem_cons.mp h
      rcases List.mem_append.mp hmem with hmem | hmem
      · exact Everywhere.of_mem_nodes s hs hmem
      · exact Everywhere.of_mem_nodesAll ss hss hmem

end

/-- The kind of a node. -/
def kind? : Shape α K → Option K
  | .leaf _ => none
  | .node kind _ => some kind

end Shape

/-! ## Nodes in place -/

section Places

variable {K : Type} [Vocabulary K]

mutual

theorem Tree.map_outline_walk
    (t : Tree K)
    (parent : Node K)
    (index : Nat)
    (place : Extent) :
    ((t.walk parent index place).filterMap Visit.entered?).map Node.outline =
      t.outline.flatMap Shape.nodes := by
  cases t with
  | token kind text =>
      rw [walk, List.filterMap_cons_none rfl, outline]
      cases Vocabulary.isTrivia kind <;> rfl
  | node kind children =>
      have hchildren := Tree.map_outline_walkAll children
        (parent.child index place kind children) 0 place.enter
      rw [walk, filterMap_entered_enter_leave, List.map_cons, hchildren, outline,
        List.flatMap_singleton, Shape.nodes_node]
      rfl

theorem Tree.map_outline_walkAll
    (ts : List (Tree K))
    (parent : Node K)
    (index : Nat)
    (place : Extent) :
    ((walkAll parent index place ts).filterMap Visit.entered?).map Node.outline =
      (outlines ts).flatMap Shape.nodes := by
  cases ts with
  | nil => rfl
  | cons t ts =>
      rw [walkAll, outlines, List.filterMap_append, List.map_append, List.flatMap_append,
        Tree.map_outline_walk t, Tree.map_outline_walkAll ts]

end

/-- The outlines of all nodes in place are all nodes of the outline. -/
theorem Root.map_outline_descendants (r : Root K) :
    r.node.descendants.map Node.outline = r.outline.nodes := by
  rw [Node.descendants, Node.walk_eq, filterMap_entered_enter_leave, List.map_cons,
    Tree.map_outline_walkAll, Root.outline, Shape.nodes_node]
  rfl

omit [Vocabulary K] in
mutual

theorem Tree.mem_of_mem_walk
    (t : Tree K)
    {parent : Node K}
    {index : Nat}
    {place : Extent}
    (ht : ∀ e ∈ parent.elementsFrom index place [t], e ∈ parent.elements)
    {l : Leaf K}
    (hl : l ∈ (t.walk parent index place).filterMap Visit.token?) :
    (l.parent = parent ∨ l.parent ∈ (t.walk parent index place).filterMap Visit.entered?) ∧
      .token l ∈ l.parent.elements := by
  cases t with
  | token kind text =>
      rw [walk, List.filterMap_cons_some (f := Visit.token?) rfl, List.filterMap_nil,
        List.mem_singleton] at hl
      subst hl
      exact ⟨.inl rfl, ht _ List.mem_cons_self⟩
  | node kind children =>
      have hself : ∀ e ∈ (parent.child index place kind children).elementsFrom 0 place.enter
          children, e ∈ (parent.child index place kind children).elements := fun _ he => he
      rw [walk, filterMap_token_enter_leave] at hl
      obtain ⟨hparent, hmem⟩ := Tree.mem_of_mem_walkAll children hself hl
      rw [walk, filterMap_entered_enter_leave]
      exact ⟨.inr (List.mem_cons.mpr hparent), hmem⟩

theorem Tree.mem_of_mem_walkAll
    (ts : List (Tree K))
    {parent : Node K}
    {index : Nat}
    {place : Extent}
    (hts : ∀ e ∈ parent.elementsFrom index place ts, e ∈ parent.elements)
    {l : Leaf K}
    (hl : l ∈ (walkAll parent index place ts).filterMap Visit.token?) :
    (l.parent = parent ∨ l.parent ∈ (walkAll parent index place ts).filterMap Visit.entered?) ∧
      .token l ∈ l.parent.elements := by
  cases ts with
  | nil => simp [walkAll] at hl
  | cons t ts =>
      obtain ⟨ht, hts⟩ := List.forall_mem_cons.mp hts
      rw [walkAll, List.filterMap_append, List.mem_append] at hl
      rw [walkAll, List.filterMap_append, List.mem_append]
      rcases hl with hl | hl
      · obtain ⟨hparent, hmem⟩ :=
          Tree.mem_of_mem_walk t (List.forall_mem_singleton.mpr ht) hl
        exact ⟨hparent.imp id .inl, hmem⟩
      · obtain ⟨hparent, hmem⟩ := Tree.mem_of_mem_walkAll ts hts hl
        exact ⟨hparent.imp id .inr, hmem⟩

end

omit [Vocabulary K] in
/-- Every token is a child of a node that the walk enters. -/
theorem Node.mem_of_mem_tokens
    {n : Node K}
    {l : Leaf K}
    (hl : l ∈ n.tokens) :
    l.parent ∈ n.descendants ∧ .token l ∈ l.parent.elements := by
  have hself : ∀ e ∈ n.elementsFrom 0 n.place.enter n.children, e ∈ n.elements := fun _ he => he
  rw [tokens, walk_eq, filterMap_token_enter_leave] at hl
  obtain ⟨hparent, hmem⟩ := Tree.mem_of_mem_walkAll n.children hself hl
  rw [descendants, walk_eq, filterMap_entered_enter_leave]
  exact ⟨List.mem_cons.mpr hparent, hmem⟩

omit [Vocabulary K] in
/-- The moment of a walk that meets a child. -/
def Element.visit : Element K → Visit K
  | .node n => .enter n
  | .token l => .token l

omit [Vocabulary K] in
/-- The walk over children meets them. -/
theorem Tree.visit_mem_walkAll_of_mem_elementsFrom
    {ts : List (Tree K)}
    {n : Node K}
    {index : Nat}
    {place : Extent}
    {e : Element K}
    (he : e ∈ n.elementsFrom index place ts) :
    e.visit ∈ walkAll n index place ts := by
  induction ts generalizing index place with
  | nil => simp [Node.elementsFrom] at he
  | cons t ts ih =>
      rw [walkAll, List.mem_append]
      rcases List.mem_cons.mp he with rfl | he
      · cases t with
        | token kind text => exact .inl List.mem_cons_self
        | node kind children => exact .inl List.mem_cons_self
      · exact .inr (ih he)

omit [Vocabulary K] in
mutual

theorem Tree.visit_mem_walk
    (t : Tree K)
    {parent m : Node K}
    {index : Nat}
    {place : Extent}
    (hm : .enter m ∈ t.walk parent index place)
    {e : Element K}
    (he : e ∈ m.elements) :
    e.visit ∈ t.walk parent index place := by
  cases t with
  | token kind text => simp [walk] at hm
  | node kind children =>
      rw [walk, List.mem_cons, List.mem_append] at hm ⊢
      rcases hm with heq | hm | hm
      · cases heq
        exact .inr (.inl (visit_mem_walkAll_of_mem_elementsFrom he))
      · exact .inr (.inl (Tree.visit_mem_walkAll children hm he))
      · cases List.mem_singleton.mp hm

theorem Tree.visit_mem_walkAll
    (ts : List (Tree K))
    {parent m : Node K}
    {index : Nat}
    {place : Extent}
    (hm : .enter m ∈ walkAll parent index place ts)
    {e : Element K}
    (he : e ∈ m.elements) :
    e.visit ∈ walkAll parent index place ts := by
  cases ts with
  | nil => simp [walkAll] at hm
  | cons t ts =>
      rw [walkAll, List.mem_append] at hm ⊢
      rcases hm with hm | hm
      · exact .inl (Tree.visit_mem_walk t hm he)
      · exact .inr (Tree.visit_mem_walkAll ts hm he)

end

omit [Vocabulary K] in
/-- The walk meets the children of the nodes that it enters. -/
theorem Node.visit_mem_walk
    {n m : Node K}
    (hm : m ∈ n.descendants)
    {e : Element K}
    (he : e ∈ m.elements) :
    e.visit ∈ n.walk := by
  have henter : .enter m ∈ n.walk := by
    obtain ⟨v, hv, hentered⟩ := List.mem_filterMap.mp hm
    cases v with
    | enter m' => exact Option.some.inj hentered ▸ hv
    | token l => cases hentered
    | leave m' => cases hentered
  rw [walk_eq, List.mem_cons, List.mem_append] at henter ⊢
  rcases henter with heq | henter | hleave
  · cases heq
    exact .inr (.inl (Tree.visit_mem_walkAll_of_mem_elementsFrom he))
  · exact .inr (.inl (Tree.visit_mem_walkAll n.children henter he))
  · cases List.mem_singleton.mp hleave

omit [Vocabulary K] in
/-- The tokens among the children of a node below are tokens below. -/
theorem Node.mem_tokens_of_mem_elements
    {n m : Node K}
    (hm : m ∈ n.descendants)
    {l : Leaf K}
    (hl : .token l ∈ m.elements) :
    l ∈ n.tokens :=
  List.mem_filterMap.mpr ⟨_, visit_mem_walk hm hl, rfl⟩

omit [Vocabulary K] in
/-- The child nodes of a node below are nodes below. -/
theorem Node.mem_descendants_of_mem_childNodes
    {n m c : Node K}
    (hm : m ∈ n.descendants)
    (hc : c ∈ m.childNodes) :
    c ∈ n.descendants := by
  obtain ⟨e, he, hnode⟩ := List.mem_filterMap.mp hc
  cases e with
  | token l => cases hnode
  | node c' =>
      obtain rfl : c' = c := Option.some.inj hnode
      exact List.mem_filterMap.mpr ⟨_, visit_mem_walk hm he, rfl⟩

/-- A significant token among children is a leaf of the outline. -/
theorem Node.leaf_mem_outlines
    {n : Node K}
    {l : Leaf K}
    {index : Nat}
    {place : Extent}
    {ts : List (Tree K)}
    (hl : .token l ∈ n.elementsFrom index place ts)
    (hkind : Vocabulary.isTrivia l.kind = false) :
    .leaf l.kind ∈ Tree.outlines ts := by
  induction ts generalizing index place with
  | nil => simp [elementsFrom] at hl
  | cons t ts ih =>
      rw [Tree.outlines, List.mem_append]
      rcases List.mem_cons.mp hl with heq | hl
      · cases t with
        | token kind text =>
            cases heq
            left
            simp [Tree.outline, hkind]
        | node kind children => cases heq
      · exact .inr (ih hl)

/-! ### Children that are no trivia -/

section Significant

/-- The outline of a child that is no trivia. -/
def Element.outline : Element K → Shape K K
  | .node n => n.outline
  | .token l => .leaf l.kind

theorem Element.exists_node_of_outline
    {e : Element K}
    {kind : K}
    {children : List (Shape K K)}
    (h : e.outline = .node kind children) :
    ∃ n, e = .node n ∧ n.kind = kind ∧ Tree.outlines n.children = children := by
  cases e with
  | node n => exact ⟨n, rfl, (Shape.node.inj h).1, (Shape.node.inj h).2⟩
  | token l => cases h

theorem Element.exists_token_of_outline
    {e : Element K}
    {kind : K}
    (h : e.outline = .leaf kind) :
    ∃ l, e = .token l ∧ l.kind = kind := by
  cases e with
  | node n => cases h
  | token l => exact ⟨l, rfl, Shape.leaf.inj h⟩

def Element.isSignificant : Element K → Bool
  | .node _ => true
  | .token l => !l.isTrivia

omit [Vocabulary K] in
def Element.range : Element K → Range
  | .node n => n.range
  | .token l => l.range

/-- The children that are no trivia. -/
def Node.significant (n : Node K) : List (Element K) := n.elements.filter Element.isSignificant

theorem Node.map_outline_significant (n : Node K) :
    n.significant.map Element.outline = Tree.outlines n.children := by
  have hfrom : ∀ (index : Nat) (place : Extent) (ts : List (Tree K)),
      ((n.elementsFrom index place ts).filter Element.isSignificant).map Element.outline =
        Tree.outlines ts := by
    intro index place ts
    induction ts generalizing index place with
    | nil => rfl
    | cons t ts ih =>
        rw [Tree.outlines, ← ih (index + 1) (place.add t.extent)]
        cases t with
        | token kind text =>
            rw [elementsFrom, Tree.outline]
            cases htrivia : Vocabulary.isTrivia kind <;>
              simp [Element.isSignificant, Element.outline, Leaf.isTrivia, htrivia]
        | node kind children => rfl
  exact hfrom 0 n.place.enter n.children

theorem Node.childNodes_eq (n : Node K) : n.childNodes = n.significant.filterMap Element.node? := by
  rw [significant, childNodes, List.filterMap_filter]
  refine List.filterMap_congr fun e _ => ?_
  cases e with
  | node m => rfl
  | token l => simp [Element.node?]

/-- A child node is a node among the children of the outline. -/
theorem Node.outline_mem_outlines
    {n c : Node K}
    (hc : c ∈ n.childNodes) :
    c.outline ∈ Tree.outlines n.children := by
  have hmem : c.outline ∈ n.childNodes.map Node.outline := List.mem_map_of_mem hc
  rw [Node.map_outline_childNodes] at hmem
  exact (List.mem_filter.mp hmem).1

theorem Node.filter_childTokens (n : Node K) :
    n.childTokens.filter (fun l => !l.isTrivia) = n.significant.filterMap Element.token? := by
  rw [significant, childTokens, List.filter_filterMap, List.filterMap_filter]
  refine List.filterMap_congr fun e _ => ?_
  cases e with
  | node m => rfl
  | token l => simp [Element.token?, Element.isSignificant, Option.filter]

/-- A token of a kind is found among the children that are no trivia. -/
theorem Node.token?_eq
    [DecidableEq K]
    (n : Node K)
    {kind : K}
    (hkind : Vocabulary.isTrivia kind = false) :
    n.token? kind = (n.significant.filterMap Element.token?).find? fun l => l.kind == kind := by
  have hsignificant : ∀ l : Leaf K, (!l.isTrivia && l.kind == kind) = (l.kind == kind) := by
    intro l
    cases hl : l.kind == kind with
    | false => simp
    | true => simp [Leaf.isTrivia, eq_of_beq hl, hkind]
  simp only [← n.filter_childTokens, List.find?_filter, token?, Bool.decide_and,
    Bool.decide_eq_true, hsignificant]

/-- The node after a token is found among the children that are no trivia. -/
theorem Node.nodeAfter?_eq
    [DecidableEq K]
    (n : Node K)
    {kind : K}
    (hkind : Vocabulary.isTrivia kind = false) :
    n.nodeAfter? kind =
      (n.significant.dropWhile fun e => !isTokenOf kind e).findSome? Element.node? := by
  have hnode : ∀ es : List (Element K),
      es.findSome? Element.node? = (es.filter Element.isSignificant).findSome? Element.node? := by
    intro es
    rw [← List.head?_filterMap, ← List.head?_filterMap, List.filterMap_filter]
    congr 1
    refine List.filterMap_congr fun e _ => ?_
    cases e with
    | node m => rfl
    | token l => simp [Element.node?]
  have hdrop : ∀ es : List (Element K),
      (es.dropWhile fun e => !isTokenOf kind e).findSome? Element.node? =
        ((es.filter Element.isSignificant).dropWhile fun e => !isTokenOf kind e).findSome?
          Element.node? := by
    intro es
    induction es with
    | nil => rfl
    | cons e es ih =>
        by_cases hkept : (!isTokenOf kind e) = true
        · rw [List.dropWhile_cons, if_pos hkept, ih, List.filter_cons]
          split
          · rw [List.dropWhile_cons, if_pos hkept]
          · rfl
        · have hsignificant : e.isSignificant = true := by
            cases e with
            | node m => rfl
            | token l =>
                have hl : l.kind = kind := by simpa [isTokenOf] using hkept
                simp [Element.isSignificant, Leaf.isTrivia, hl, hkind]
          rw [List.dropWhile_cons, if_neg hkept, hnode, List.filter_cons_of_pos hsignificant,
            List.dropWhile_cons, if_neg hkept]
  exact hdrop n.elements

/-- A node whose outline is one token has that token among its children. -/
theorem Node.exists_significant_singleton
    {n : Node K}
    {kind : K}
    (h : Tree.outlines n.children = [.leaf kind]) :
    ∃ l, n.significant = [.token l] ∧ l.kind = kind := by
  have hsignificant := n.map_outline_significant
  rw [h] at hsignificant
  obtain ⟨e, he, houtline⟩ := List.map_eq_singleton_iff.mp hsignificant
  obtain ⟨l, rfl, hl⟩ := Element.exists_token_of_outline houtline
  exact ⟨l, he, hl⟩

/-- That token is the only one of its kind, whatever trivia stand beside it. -/
theorem Node.filter_childTokens_singleton
    {n : Node K}
    {l : Leaf K}
    (h : n.significant = [.token l])
    {p : Leaf K → Bool}
    (hl : p l = true)
    (hp : ∀ m, p m = true → m.isTrivia = false) :
    n.childTokens.filter p = [l] := by
  have hboth : ∀ m, (p m && !m.isTrivia) = p m := by
    intro m
    cases hm : p m with
    | false => rfl
    | true => simp [hp m hm]
  have hfilter := congrArg (List.filter p) n.filter_childTokens
  rw [List.filter_filter, h] at hfilter
  simp only [hboth] at hfilter
  rw [hfilter]
  exact List.filter_cons_of_pos hl

/-- The node after a token, where the outline has one. -/
theorem Node.exists_nodeAfter?_of_outlines
    [DecidableEq K]
    {n : Node K}
    {mark kind : K}
    {before children after : List (Shape K K)}
    (h : Tree.outlines n.children = before ++ .leaf mark :: .node kind children :: after)
    (hmark : Vocabulary.isTrivia mark = false)
    (hbefore : .leaf mark ∉ before) :
    ∃ m ∈ n.childNodes, n.nodeAfter? mark = some m ∧ m.outline = .node kind children := by
  have hsignificant := n.map_outline_significant
  rw [h] at hsignificant
  obtain ⟨es, fs, hsplit, hes, hfs⟩ := List.map_eq_append_iff.mp hsignificant
  obtain ⟨e, gs, rfl, he, hgs⟩ := List.map_eq_cons_iff.mp hfs
  obtain ⟨f, hs, rfl, hf, -⟩ := List.map_eq_cons_iff.mp hgs
  obtain ⟨l, rfl, rfl⟩ := Element.exists_token_of_outline he
  obtain ⟨m, rfl, hkind, hchildren⟩ := Element.exists_node_of_outline hf
  refine ⟨m, ?_, ?_, hf⟩
  · rw [n.childNodes_eq, hsplit]
    simp [Element.node?]
  · have hother : ∀ e ∈ es, (!isTokenOf l.kind e) = true := by
      intro e he
      cases e with
      | node m => rfl
      | token k =>
          have hmem : Shape.leaf k.kind ∈ before := hes ▸ List.mem_map_of_mem he
          have hne : k.kind ≠ l.kind := fun hk => hbefore (hk ▸ hmem)
          simpa [isTokenOf] using hne
    rw [n.nodeAfter?_eq hmark, hsplit, List.dropWhile_append_of_pos hother,
      List.dropWhile_cons_of_neg (by simp [isTokenOf])]
    rfl

/-- A node has a token of a kind exactly if its outline does. -/
theorem Node.hasToken_eq
    [DecidableEq K]
    (n : Node K)
    {kind : K}
    (hkind : Vocabulary.isTrivia kind = false) :
    n.hasToken kind = (Tree.outlines n.children).any fun s => s.leaf? == some kind := by
  rw [hasToken, n.token?_eq hkind, List.isSome_find?, ← n.map_outline_significant, List.any_map,
    List.any_filterMap]
  congr 1
  funext e
  cases e with
  | node m => rfl
  | token l => simp [Element.token?, Element.outline, Shape.leaf?]

omit [Vocabulary K] in
/-- Children start where those before them have ended. -/
theorem Node.pairwise_elements (n : Node K) :
    n.elements.Pairwise fun e f => e.range.stop ≤ f.range.start := by
  have hfrom : ∀ (index : Nat) (place : Extent) (ts : List (Tree K)),
      (∀ e ∈ n.elementsFrom index place ts, place.bytes ≤ e.range.start) ∧
        (n.elementsFrom index place ts).Pairwise fun e f => e.range.stop ≤ f.range.start := by
    intro index place ts
    induction ts generalizing index place with
    | nil => exact ⟨by simp [elementsFrom], .nil⟩
    | cons t ts ih =>
        obtain ⟨hstart, hpairwise⟩ := ih (index + 1) (place.add t.extent)
        have hplace : place.bytes ≤ (place.add t.extent).bytes := Nat.le_add_right _ _
        have hrest : ∀ e ∈ n.elementsFrom (index + 1) (place.add t.extent) ts,
            place.bytes ≤ e.range.start := fun e he => hplace.trans (hstart e he)
        cases t with
        | token kind text =>
            exact ⟨List.forall_mem_cons.mpr ⟨Nat.le_refl _, hrest⟩, .cons hstart hpairwise⟩
        | node kind children =>
            exact ⟨List.forall_mem_cons.mpr ⟨Nat.le_refl _, hrest⟩, .cons hstart hpairwise⟩
  exact (hfrom 0 n.place.enter n.children).2

end Significant

/-- The tokens of a tree are the stream that it keeps. -/
theorem Root.Keeps.map_toLexeme_tokens
    {r : Root K}
    {kind : K}
    {text : Text}
    {stream : List (Lexeme K)}
    (h : r.Keeps kind text stream) :
    r.node.tokens.map Leaf.toLexeme = stream := by
  have hlexemes := congrArg (List.map Located.toLexeme) h.tokens
  rwa [map_toLexeme_locate, List.map_map] at hlexemes

end Places

/-! ## Faults and nodes -/

/-- Lists that have a member each for what is counted are as long together. -/
theorem countP_le_length_flatMap
    {α β : Type}
    {q : α → Bool}
    {f : α → List β}
    {xs : List α}
    (h : ∀ x ∈ xs, q x = true → f x ≠ []) :
    xs.countP q ≤ (xs.flatMap f).length := by
  induction xs with
  | nil => exact Nat.le_refl _
  | cons x xs ih =>
      have hxs := ih fun y hy => h y (List.mem_cons_of_mem _ hy)
      rw [List.countP_cons, List.flatMap_cons, List.length_append]
      split
      · have hpos := List.length_pos_iff.mpr (h x List.mem_cons_self ‹_›)
        omega
      · omega

/-- Lists that count one each for what is counted count as many together. -/
theorem countP_flatMap_eq
    {α β : Type}
    {p : β → Bool}
    {q : α → Bool}
    {f : α → List β}
    {xs : List α}
    (h : ∀ x ∈ xs, (f x).countP p = if q x then 1 else 0) :
    (xs.flatMap f).countP p = xs.countP q := by
  induction xs with
  | nil => rfl
  | cons x xs ih =>
      rw [List.flatMap_cons, List.countP_append, List.countP_cons, h x List.mem_cons_self,
        ih fun y hy => h y (List.mem_cons_of_mem _ hy), Nat.add_comm]

section Marks

variable {K : Type}

namespace Marked

/-- The faults among neighbouring trees. -/
def faultsAmong (ms : List (Marked K)) : List (Fault K) :=
  ms.filterMap fun
    | .leaf (.fault cause) => some cause
    | _ => none

/-- The faults that are children of a node. -/
def ownFaults : Marked K → List (Fault K)
  | .leaf _ => []
  | .node _ children => faultsAmong children

theorem faultsAmong_cons
    (m : Marked K)
    (ms : List (Marked K)) :
    faultsAmong (m :: ms) = faultsAmong [m] ++ faultsAmong ms := by
  rw [faultsAmong, ← List.singleton_append, List.filterMap_append]
  rfl

theorem mem_faultsAmong_iff
    {ms : List (Marked K)}
    {cause : Fault K} :
    cause ∈ faultsAmong ms ↔ .leaf (.fault cause) ∈ ms := by
  rw [faultsAmong, List.mem_filterMap]
  constructor
  · rintro ⟨m, hm, hcause⟩
    split at hcause
    · exact Option.some.inj hcause ▸ hm
    · cases hcause
  · exact fun h => ⟨_, h, rfl⟩

mutual

theorem map_plain?_nodes (m : Marked K) :
    m.nodes.map plain? = (m.plain?.toList.flatMap Shape.nodes).map some := by
  cases m with
  | leaf mark => cases mark <;> rfl
  | node kind children =>
      rw [Shape.nodes, List.map_cons, map_plain?_nodesAll children, plain?_node,
        Option.toList_some, List.flatMap_singleton, Shape.nodes_node, List.map_cons]

theorem map_plain?_nodesAll (ms : List (Marked K)) :
    (Shape.nodesAll ms).map plain? = ((ms.filterMap plain?).flatMap Shape.nodes).map some := by
  cases ms with
  | nil => rfl
  | cons m ms =>
      rw [Shape.nodesAll, List.map_append, map_plain?_nodes m, map_plain?_nodesAll ms]
      cases hm : m.plain? <;> simp [hm]

end

mutual

/-- Every fault is the tree itself or a child of one node. -/
theorem faults_perm (m : Marked K) :
    m.faults.Perm (faultsAmong [m] ++ m.nodes.flatMap ownFaults) := by
  cases m with
  | leaf mark => cases mark <;> exact .refl _
  | node kind children =>
      rw [faults_node, Shape.nodes, List.flatMap_cons]
      exact faultsAll_perm children

theorem faultsAll_perm (ms : List (Marked K)) :
    (ms.flatMap faults).Perm (faultsAmong ms ++ (Shape.nodesAll ms).flatMap ownFaults) := by
  cases ms with
  | nil => exact .refl _
  | cons m ms =>
      rw [List.flatMap_cons, faultsAmong_cons m ms, Shape.nodesAll, List.flatMap_append,
        List.append_assoc]
      refine ((faults_perm m).append (faultsAll_perm ms)).trans ?_
      rw [List.append_assoc]
      exact (List.perm_append_comm_assoc ..).append_left _

end

/-- Where there are no faults, no node has one. -/
theorem isFault_eq_false
    {m : Marked K}
    (h : m.faults = [])
    {kind : K}
    {children : List (Marked K)}
    (hnode : .node kind children ∈ m.nodes) :
    ∀ c ∈ children, c.isFault = false := by
  have hnil : m.nodes.flatMap ownFaults = [] := by
    have hperm := m.faults_perm
    rw [h, List.nil_perm, List.append_eq_nil_iff] at hperm
    exact hperm.2
  have hown : faultsAmong children = [] := List.flatMap_eq_nil_iff.mp hnil _ hnode
  intro c hc
  cases c with
  | node _ _ => rfl
  | leaf mark =>
      cases mark with
      | lexeme _ => rfl
      | fault cause =>
          have hmem : cause ∈ faultsAmong children := mem_faultsAmong_iff.mpr hc
          rw [hown] at hmem
          cases hmem

/-- Every fault of a node is a child of one node. -/
theorem faults_node_perm
    (kind : K)
    (children : List (Marked K)) :
    (faults (.node kind children)).Perm
      ((Shape.node kind children : Marked K).nodes.flatMap ownFaults) :=
  faults_perm _

end Marked

variable [Vocabulary K] {r : Root K} {m : Marked K}

/-- Without their faults, the marked nodes are the nodes in place. -/
theorem Root.map_plain?_nodes (hplain : m.plain? = some r.outline) :
    m.nodes.map Marked.plain? = r.node.descendants.map fun n => some n.outline := by
  rw [Marked.map_plain?_nodes, hplain, Option.toList_some, List.flatMap_singleton,
    ← r.map_outline_descendants, List.map_map]
  rfl

/-- A node in place is a marked node without its faults. -/
theorem Root.exists_children_of_mem
    (hplain : m.plain? = some r.outline)
    {n : Node K}
    (hn : n ∈ r.node.descendants) :
    ∃ ms, .node n.kind ms ∈ m.nodes ∧ ms.filterMap Marked.plain? = Tree.outlines n.children := by
  have houtline : some n.outline ∈ m.nodes.map Marked.plain? := by
    rw [Root.map_plain?_nodes hplain]
    exact List.mem_map_of_mem hn
  obtain ⟨m', hm', heq⟩ := List.mem_map.mp houtline
  obtain ⟨ms, rfl, hms⟩ := Marked.eq_node_of_plain? heq
  exact ⟨ms, hm', hms⟩

/-- As many marked nodes as nodes in place have a property of outlines. -/
theorem Root.countP_descendants
    (hplain : m.plain? = some r.outline)
    (q : Shape K K → Bool) :
    r.node.descendants.countP (fun n => q n.outline) =
      m.nodes.countP fun x => (Marked.plain? x).any q := by
  have hcount := congrArg (List.countP fun o => o.any q) (Root.map_plain?_nodes hplain)
  rw [List.countP_map, List.countP_map] at hcount
  exact hcount.symm

/-- A significant token is a child of a marked node. -/
theorem Root.exists_siblings_of_mem
    (hplain : m.plain? = some r.outline)
    {l : Leaf K}
    (hl : l ∈ r.node.tokens)
    (hkind : Vocabulary.isTrivia l.kind = false) :
    ∃ ms, .node l.parent.kind ms ∈ m.nodes ∧ .leaf (.lexeme l.kind) ∈ ms := by
  obtain ⟨hparent, hmem⟩ := Node.mem_of_mem_tokens hl
  obtain ⟨ms, hms, heq⟩ := Root.exists_children_of_mem hplain hparent
  refine ⟨ms, hms, ?_⟩
  have hleaf : .leaf l.kind ∈ ms.filterMap Marked.plain? := heq ▸ Node.leaf_mem_outlines hmem hkind
  obtain ⟨m', hm', heq'⟩ := List.mem_filterMap.mp hleaf
  match m', heq' with
  | .leaf (.lexeme _), heq' => exact Shape.leaf.inj (Option.some.inj heq') ▸ hm'
  | .node _ _, heq' => simp at heq'

end Marks
end ZigCst
