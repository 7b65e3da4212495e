import Mathlib.Data.List.Forall2
import ZigCst.Proofs.Everywhere
import ZigCst.Tree.Select

/-!
# Trees without their trivia

The bare tree is what remains of a tree when blanks, comments and positions are
forgotten: node kinds, nesting and the texts of significant tokens.  It is known
from the outline and from the significant tokens in order.

A node of a tree is found again in the bare tree by its rank, the number of
significant tokens before it.  Nodes of two trees are alike if they have the same
bare tree and the same rank; what is asked of alike nodes has alike answers.

**Definitions.**
* `Tree.bares`, `Root.bare`, `Node.bare`: trees without trivia.
* `Node.Stands`: where a node stands in a stream, and its rank.
* `Node.Alike`: nodes of two trees with one bare tree and one rank.

**Results.**
* `Shape.eq_of_map_eq`: a shape is known from its outline and its leaves.
* `Root.bare_eq`: so is a bare tree.
* `Node.Alike.childNodes`, `Node.Alike.token?_eq`: children of alike nodes are alike.
* `Root.alike_descendants`: all nodes of trees with one bare tree are alike.
-/

namespace ZigCst

/-! ## Shapes by their leaves -/

namespace Shape

variable {α β K : Type}

/-- Shapes of one outline have equally many leaves. -/
theorem length_leaves_eq
    {f : α → β}
    {s s' : Shape α K}
    (h : s.map f = s'.map f) :
    s.leaves.length = s'.leaves.length := by
  have hleaves := congrArg (fun t => t.leaves.length) h
  simpa [leaves_map] using hleaves

mutual

/-- A shape is known from its outline and its leaves. -/
theorem eq_of_map_eq
    {f : α → β}
    (s s' : Shape α K)
    (hmap : s.map f = s'.map f)
    (hleaves : s.leaves = s'.leaves) :
    s = s' := by
  cases s with
  | leaf a =>
      cases s' with
      | leaf a' =>
          obtain rfl : a = a' := by simpa using hleaves
          rfl
      | node kind' children' => simp at hmap
  | node kind children =>
      cases s' with
      | leaf a' => simp at hmap
      | node kind' children' =>
          rw [map_node, map_node] at hmap
          obtain ⟨rfl, hchildren⟩ := Shape.node.inj hmap
          rw [leaves_node, leaves_node] at hleaves
          rw [all_eq_of_map_eq children children' hchildren hleaves]

theorem all_eq_of_map_eq
    {f : α → β}
    (ss ss' : List (Shape α K))
    (hmap : ss.map (map f) = ss'.map (map f))
    (hleaves : ss.flatMap leaves = ss'.flatMap leaves) :
    ss = ss' := by
  cases ss with
  | nil => exact (List.map_eq_nil_iff.mp hmap.symm).symm
  | cons s ss =>
      cases ss' with
      | nil => simp at hmap
      | cons s' ss' =>
          rw [List.map_cons, List.map_cons] at hmap
          obtain ⟨hhead, htail⟩ := List.cons.inj hmap
          rw [List.flatMap_cons, List.flatMap_cons] at hleaves
          obtain ⟨hfirst, hrest⟩ := List.append_inj hleaves (length_leaves_eq hhead)
          rw [eq_of_map_eq s s' hhead hfirst, all_eq_of_map_eq ss ss' htail hrest]

end

mutual

/-- A property that does not look at the leaves may be asked of the outline. -/
theorem everywhere_map
    (f : α → β)
    {P : K → List (Shape β K) → Prop}
    (s : Shape α K) :
    (s.map f).Everywhere P ↔ s.Everywhere fun kind children => P kind (children.map (map f)) := by
  cases s with
  | leaf a => exact Iff.rfl
  | node kind children =>
      rw [map_node, everywhere_node_iff, everywhere_node_iff]
      exact and_congr_right fun _ => forall_everywhere_map f children

theorem forall_everywhere_map
    (f : α → β)
    {P : K → List (Shape β K) → Prop}
    (ss : List (Shape α K)) :
    (∀ s ∈ ss.map (map f), s.Everywhere P) ↔
      ∀ s ∈ ss, s.Everywhere fun kind children => P kind (children.map (map f)) := by
  cases ss with
  | nil => simp
  | cons s ss =>
      rw [List.map_cons, List.forall_mem_cons, List.forall_mem_cons]
      rw [everywhere_map f s, forall_everywhere_map f ss]

end

/-- The leaf that a shape is. -/
def leaf? : Shape α K → Option α
  | .leaf a => some a
  | .node _ _ => none

/-- The nodes among neighbouring shapes, each with the number of leaves before it,
`rank` of them before the first. -/
def nodesFrom (rank : Nat) : List (Shape α K) → List (Nat × Shape α K)
  | [] => []
  | .leaf _ :: ss => nodesFrom (rank + 1) ss
  | .node kind children :: ss =>
      (rank, .node kind children) ::
        nodesFrom (rank + (children.flatMap leaves).length) ss

mutual

/-- All nodes in preorder, each with the number of leaves before it. -/
def preorder (rank : Nat) : Shape α K → List (Nat × Shape α K)
  | .leaf _ => []
  | .node kind children => (rank, .node kind children) :: preorderAll rank children

/-- All nodes of neighbouring shapes in preorder. -/
def preorderAll (rank : Nat) : List (Shape α K) → List (Nat × Shape α K)
  | [] => []
  | s :: ss => preorder rank s ++ preorderAll (rank + s.leaves.length) ss

end

theorem preorderAll_append
    (rank : Nat)
    (ss ss' : List (Shape α K)) :
    preorderAll rank (ss ++ ss') =
      preorderAll rank ss ++ preorderAll (rank + (ss.flatMap leaves).length) ss' := by
  induction ss generalizing rank with
  | nil => rfl
  | cons s ss ih =>
      rw [List.cons_append, preorderAll, preorderAll, ih, List.append_assoc]
      rw [List.flatMap_cons, List.length_append, Nat.add_assoc]

theorem everywhere_of_mem_nodesFrom
    {P : K → List (Shape α K) → Prop}
    {ss : List (Shape α K)}
    (h : ∀ s ∈ ss, s.Everywhere P)
    {rank : Nat}
    {x : Nat × Shape α K}
    (hx : x ∈ nodesFrom rank ss) :
    x.2.Everywhere P := by
  induction ss generalizing rank with
  | nil => simp [nodesFrom] at hx
  | cons s ss ih =>
      obtain ⟨hs, hss⟩ := List.forall_mem_cons.mp h
      cases s with
      | leaf a => exact ih hss hx
      | node kind children =>
          rcases List.mem_cons.mp hx with rfl | hx
          · exact hs
          · exact ih hss hx

mutual

theorem everywhere_of_mem_preorder
    {P : K → List (Shape α K) → Prop}
    (s : Shape α K)
    (h : s.Everywhere P)
    {rank : Nat}
    {x : Nat × Shape α K}
    (hx : x ∈ s.preorder rank) :
    x.2.Everywhere P := by
  cases s with
  | leaf a => simp [preorder] at hx
  | node kind children =>
      rcases List.mem_cons.mp hx with rfl | hx
      · exact h
      · exact everywhere_of_mem_preorderAll children (everywhere_node_iff.mp h).2 hx

theorem everywhere_of_mem_preorderAll
    {P : K → List (Shape α K) → Prop}
    (ss : List (Shape α K))
    (h : ∀ s ∈ ss, s.Everywhere P)
    {rank : Nat}
    {x : Nat × Shape α K}
    (hx : x ∈ preorderAll rank ss) :
    x.2.Everywhere P := by
  cases ss with
  | nil => simp [preorderAll] at hx
  | cons s ss =>
      obtain ⟨hs, hss⟩ := List.forall_mem_cons.mp h
      rcases List.mem_append.mp hx with hx | hx
      · exact everywhere_of_mem_preorder s hs hx
      · exact everywhere_of_mem_preorderAll ss hss hx

end
end Shape

/-! ## Bare trees -/

section Bare

variable {K : Type} [Vocabulary K]

/-- The significant lexemes of a stream, the end of file included. -/
def significantLexemes (stream : List (Lexeme K)) : List (Lexeme K) :=
  stream.filter fun l => !Vocabulary.isTrivia l.kind

theorem significantLexemes_append (ls ms : List (Lexeme K)) :
    significantLexemes (ls ++ ms) = significantLexemes ls ++ significantLexemes ms :=
  List.filter_append ..

mutual

/-- A tree without trivia; nothing is left of trivia. -/
def Tree.bare : Tree K → List (Shape (Lexeme K) K)
  | .token kind text => if Vocabulary.isTrivia kind then [] else [.leaf ⟨kind, text⟩]
  | .node kind children => [.node kind (Tree.bares children)]

/-- Neighbouring trees without trivia. -/
def Tree.bares : List (Tree K) → List (Shape (Lexeme K) K)
  | [] => []
  | t :: ts => t.bare ++ Tree.bares ts

end

/-- A whole tree without trivia. -/
def Root.bare (r : Root K) : Shape (Lexeme K) K := .node r.kind (Tree.bares r.children)

mutual

theorem Tree.map_kind_bare (t : Tree K) :
    t.bare.map (Shape.map Lexeme.kind) = t.outline := by
  cases t with
  | token kind text =>
      rw [bare, outline]
      split <;> rfl
  | node kind children =>
      rw [bare, outline, List.map_singleton, Shape.map_node, Tree.map_kind_bares children]

theorem Tree.map_kind_bares (ts : List (Tree K)) :
    (bares ts).map (Shape.map Lexeme.kind) = outlines ts := by
  cases ts with
  | nil => rfl
  | cons t ts =>
      rw [bares, outlines, List.map_append, Tree.map_kind_bare t, Tree.map_kind_bares ts]

end

mutual

theorem Tree.leaves_bare (t : Tree K) :
    t.bare.flatMap Shape.leaves = significantLexemes t.lexemes := by
  cases t with
  | token kind text =>
      rw [bare, lexemes_token, significantLexemes]
      cases h : Vocabulary.isTrivia kind <;> simp [h]
  | node kind children =>
      rw [bare, lexemes_node, List.flatMap_singleton, Shape.leaves_node]
      exact Tree.leaves_bares children

theorem Tree.leaves_bares (ts : List (Tree K)) :
    (bares ts).flatMap Shape.leaves = significantLexemes (allLexemes ts) := by
  cases ts with
  | nil => rfl
  | cons t ts =>
      rw [bares, allLexemes_cons, List.flatMap_append, significantLexemes_append]
      rw [Tree.leaves_bare t, Tree.leaves_bares ts]

end

theorem Root.map_kind_bare (r : Root K) : r.bare.map Lexeme.kind = r.outline := by
  rw [bare, Shape.map_node, Tree.map_kind_bares, outline]

theorem Root.leaves_bare (r : Root K) : r.bare.leaves = significantLexemes r.lexemes := by
  rw [bare, Shape.leaves_node, Tree.leaves_bares, lexemes]

/-- The tokens of a tree that keeps a stream are the stream. -/
theorem Root.Keeps.lexemes_eq
    {r : Root K}
    {kind : K}
    {text : Text}
    {stream : List (Lexeme K)}
    (h : r.Keeps kind text stream) :
    r.lexemes = stream := by
  have htokens := h.tokens
  rw [Root.located_tokens] at htokens
  have hlexemes := congrArg (List.map Located.toLexeme) htokens
  rwa [map_toLexeme_locate, map_toLexeme_locate] at hlexemes

/-- A bare tree is known from the outline and the significant tokens. -/
theorem Root.bare_eq
    {r r' : Root K}
    (houtline : r.outline = r'.outline)
    (hlexemes : significantLexemes r.lexemes = significantLexemes r'.lexemes) :
    r.bare = r'.bare := by
  refine Shape.eq_of_map_eq (f := Lexeme.kind) r.bare r'.bare ?_ ?_
  · rw [map_kind_bare, map_kind_bare, houtline]
  · rw [leaves_bare, leaves_bare, hlexemes]

end Bare

/-! ## Nodes in place -/

section Places

variable {K : Type} [Vocabulary K]

/-- A node without trivia. -/
def Node.bare (n : Node K) : Shape (Lexeme K) K := .node n.kind (Tree.bares n.children)

/-- Whether a node stands in a stream behind `rank` significant lexemes. -/
def Node.Stands (stream : List (Lexeme K)) (rank : Nat) (n : Node K) : Prop :=
  ∃ before after,
    stream = before ++ (Tree.allLexemes n.children ++ after) ∧
    n.place.bytes = (textOf before).size ∧
    (significantLexemes before).length = rank

/-- Whether a node stands in a stream where a shape has its rank, and is that shape
without trivia. -/
def Node.Shows (stream : List (Lexeme K)) (n : Node K) (x : Nat × Shape (Lexeme K) K) : Prop :=
  n.Stands stream x.1 ∧ n.bare = x.2

theorem length_significantLexemes_concat
    (before : List (Lexeme K))
    (t : Tree K) :
    (significantLexemes (before ++ t.lexemes)).length =
      (significantLexemes before).length + (t.bare.flatMap Shape.leaves).length := by
  rw [significantLexemes_append, List.length_append, Tree.leaves_bare]

omit [Vocabulary K] in
theorem size_textOf_concat
    (before : List (Lexeme K))
    (t : Tree K)
    {place : Extent}
    (hplace : place.bytes = (textOf before).size) :
    (place.add t.extent).bytes = (textOf (before ++ t.lexemes)).size := by
  rw [Extent.add, Tree.bytes_extent, hplace]
  simp [textOf]

/-- The child nodes show the nodes among the bare children. -/
theorem Node.shows_elementsFrom
    (n : Node K)
    {stream before after : List (Lexeme K)}
    {place : Extent}
    {ts : List (Tree K)}
    (index : Nat)
    (hstream : stream = before ++ (Tree.allLexemes ts ++ after))
    (hplace : place.bytes = (textOf before).size) :
    List.Forall₂ (Node.Shows stream)
      ((n.elementsFrom index place ts).filterMap Element.node?)
      (Shape.nodesFrom (significantLexemes before).length (Tree.bares ts)) := by
  induction ts generalizing before place index with
  | nil => exact .nil
  | cons t ts ih =>
      rw [Tree.allLexemes_cons, List.append_assoc, ← List.append_assoc] at hstream
      have hrest := ih (index + 1) hstream (size_textOf_concat before t hplace)
      rw [length_significantLexemes_concat] at hrest
      cases t with
      | token kind text =>
          rw [Node.elementsFrom, List.filterMap_cons_none rfl, Tree.bares, Tree.bare]
          rw [Tree.bare] at hrest
          cases htrivia : Vocabulary.isTrivia kind with
          | false =>
              simp only [htrivia] at hrest ⊢
              exact hrest
          | true =>
              simp only [htrivia] at hrest ⊢
              exact hrest
      | node kind children =>
          rw [Node.elementsFrom, List.filterMap_cons_some (f := Element.node?) rfl, Tree.bares,
            Tree.bare]
          refine .cons ⟨⟨before, Tree.allLexemes ts ++ after, ?_, hplace, rfl⟩, rfl⟩ ?_
          · rw [List.append_assoc] at hstream
            exact hstream
          · simpa [Tree.bare] using hrest

/-- The significant tokens among the children are the leaves among the bare
children. -/
theorem Node.map_toLexeme_elementsFrom
    (n : Node K)
    (index : Nat)
    (place : Extent)
    (ts : List (Tree K)) :
    significantLexemes
        (((n.elementsFrom index place ts).filterMap Element.token?).map Leaf.toLexeme) =
      (Tree.bares ts).filterMap Shape.leaf? := by
  induction ts generalizing index place with
  | nil => rfl
  | cons t ts ih =>
      cases t with
      | token kind text =>
          rw [Node.elementsFrom, List.filterMap_cons_some (f := Element.token?) rfl, Tree.bares,
            Tree.bare]
          rw [List.map_cons, List.filterMap_append]
          rw [← ih (index + 1) (place.add (.token kind text : Tree K).extent)]
          cases htrivia : Vocabulary.isTrivia kind <;>
            simp [significantLexemes, htrivia, Shape.leaf?]
      | node kind children =>
          rw [Node.elementsFrom, List.filterMap_cons_none rfl, Tree.bares, Tree.bare]
          rw [List.filterMap_append, ih]
          rfl

mutual

/-- The walk over a tree shows the nodes of the bare tree in preorder. -/
theorem Tree.shows_walk
    (t : Tree K)
    {stream before after : List (Lexeme K)}
    (parent : Node K)
    (index : Nat)
    (place : Extent)
    (hstream : stream = before ++ (t.lexemes ++ after))
    (hplace : place.bytes = (textOf before).size) :
    List.Forall₂ (Node.Shows stream)
      ((t.walk parent index place).filterMap Visit.entered?)
      (Shape.preorderAll (significantLexemes before).length t.bare) := by
  cases t with
  | token kind text =>
      rw [walk, List.filterMap_cons_none rfl, bare]
      cases Vocabulary.isTrivia kind <;> exact .nil
  | node kind children =>
      have hchildren := Tree.shows_walkAll children
        (parent.child index place kind children) 0 place.enter hstream hplace
      rw [walk, filterMap_entered_enter_leave, bare, Shape.preorderAll, Shape.preorderAll,
        List.append_nil, Shape.preorder]
      exact .cons ⟨⟨before, after, hstream, hplace, rfl⟩, rfl⟩ hchildren

theorem Tree.shows_walkAll
    (ts : List (Tree K))
    {stream before after : List (Lexeme K)}
    (parent : Node K)
    (index : Nat)
    (place : Extent)
    (hstream : stream = before ++ (allLexemes ts ++ after))
    (hplace : place.bytes = (textOf before).size) :
    List.Forall₂ (Node.Shows stream)
      ((walkAll parent index place ts).filterMap Visit.entered?)
      (Shape.preorderAll (significantLexemes before).length (bares ts)) := by
  cases ts with
  | nil => exact .nil
  | cons t ts =>
      rw [allLexemes_cons, List.append_assoc] at hstream
      have hfirst := Tree.shows_walk t parent index place hstream hplace
      rw [← List.append_assoc] at hstream
      have hothers := Tree.shows_walkAll ts parent (index + 1) (place.add t.extent) hstream
        (size_textOf_concat before t hplace)
      rw [length_significantLexemes_concat] at hothers
      rw [walkAll, List.filterMap_append, bares, Shape.preorderAll_append]
      exact List.rel_append hfirst hothers

end

/-- The first token of a significant kind is found among the significant tokens. -/
theorem Node.map_token?
    [DecidableEq K]
    (n : Node K)
    {kind : K}
    (hkind : Vocabulary.isTrivia kind = false) :
    (n.token? kind).map Leaf.toLexeme =
      (significantLexemes (n.childTokens.map Leaf.toLexeme)).find? fun l => l.kind == kind := by
  have hfound : n.token? kind = n.childTokens.find? fun l =>
      (!Vocabulary.isTrivia l.kind) = true ∧ (l.kind == kind) = true := by
    rw [Node.token?]
    congr 1
    funext l
    by_cases hl : l.kind = kind <;> simp [hl, hkind]
  rw [significantLexemes, List.find?_filter, List.find?_map, hfound]
  rfl

/-! ## Alike nodes -/

/-- Whether nodes of two trees have the same bare tree, which has a property
everywhere, and stand behind equally many significant lexemes. -/
structure Node.Alike
    (P : K → List (Shape (Lexeme K) K) → Prop)
    (stream stream' : List (Lexeme K))
    (n m : Node K) : Prop where
  bare : n.bare = m.bare
  everywhere : n.bare.Everywhere P
  rank : ∃ rank, n.Stands stream rank ∧ m.Stands stream' rank

variable {P : K → List (Shape (Lexeme K) K) → Prop} {stream stream' : List (Lexeme K)}

/-- Nodes that show the same shapes are alike. -/
theorem Node.alike_of_shows
    {ns ms : List (Node K)}
    {xs : List (Nat × Shape (Lexeme K) K)}
    (hns : List.Forall₂ (Node.Shows stream) ns xs)
    (hms : List.Forall₂ (Node.Shows stream') ms xs)
    (hxs : ∀ x ∈ xs, x.2.Everywhere P) :
    List.Forall₂ (Node.Alike P stream stream') ns ms := by
  induction hns generalizing ms with
  | nil =>
      obtain rfl := List.forall₂_nil_right_iff.mp hms
      exact .nil
  | @cons n x ns xs hn hns ih =>
      obtain ⟨m, ms', hm, hms', rfl⟩ := List.forall₂_cons_right_iff.mp hms
      obtain ⟨hx, hxs⟩ := List.forall_mem_cons.mp hxs
      refine .cons ⟨hn.2.trans hm.2.symm, ?_, x.1, hn.1, hm.1⟩ (ih hms' hxs)
      rw [hn.2]
      exact hx

/-- All nodes of a tree show the nodes of its bare tree, in preorder. -/
theorem Root.shows_descendants (r : Root K) :
    List.Forall₂ (Node.Shows r.lexemes) r.node.descendants (r.bare.preorder 0) := by
  have hstream : r.lexemes = [] ++ (Tree.allLexemes r.children ++ []) := by
    rw [List.append_nil]
    rfl
  have hchildren := Tree.shows_walkAll r.children r.node 0 r.node.place.enter hstream rfl
  rw [Node.descendants, Node.walk_eq, filterMap_entered_enter_leave]
  exact .cons ⟨⟨[], [], hstream, rfl, rfl⟩, rfl⟩ hchildren

/-- The nodes of trees with one bare tree are alike, in preorder. -/
theorem Root.alike_descendants
    {r r' : Root K}
    (hbare : r.bare = r'.bare)
    (heverywhere : r.bare.Everywhere P) :
    List.Forall₂ (Node.Alike P r.lexemes r'.lexemes) r.node.descendants r'.node.descendants := by
  refine Node.alike_of_shows r.shows_descendants (hbare ▸ r'.shows_descendants) fun x hx => ?_
  exact Shape.everywhere_of_mem_preorder r.bare heverywhere hx

/-- The first members of related lists are related. -/
theorem rel_head?
    {α β : Type}
    {R : α → β → Prop}
    {as : List α}
    {bs : List β}
    (h : List.Forall₂ R as bs) :
    Option.Rel R as.head? bs.head? := by
  cases h with
  | nil => exact .none
  | cons hab _ => exact .some hab

namespace Node.Alike

variable {n m : Node K} (h : n.Alike P stream stream' m)
include h

theorem kind_eq : n.kind = m.kind := (Shape.node.inj h.bare).1

theorem bares_eq : Tree.bares n.children = Tree.bares m.children := (Shape.node.inj h.bare).2

/-- The child nodes of alike nodes are alike. -/
theorem childNodes : List.Forall₂ (Node.Alike P stream stream') n.childNodes m.childNodes := by
  have hshows : ∀ {stream : List (Lexeme K)} {rank : Nat} {n : Node K}, n.Stands stream rank →
      List.Forall₂ (Node.Shows stream) n.childNodes
        (Shape.nodesFrom rank (Tree.bares n.children)) := by
    rintro stream rank n ⟨before, after, hstream, hplace, rfl⟩
    exact n.shows_elementsFrom 0 hstream hplace
  obtain ⟨rank, hn, hm⟩ := h.rank
  have hms := hshows hm
  rw [← h.bares_eq] at hms
  refine Node.alike_of_shows (hshows hn) hms fun x hx => ?_
  exact Shape.everywhere_of_mem_nodesFrom (Shape.everywhere_node_iff.mp h.everywhere).2 hx

/-- Alike nodes have the same significant tokens among their children. -/
theorem childTokens_eq :
    significantLexemes (n.childTokens.map Leaf.toLexeme) =
      significantLexemes (m.childTokens.map Leaf.toLexeme) := by
  rw [Node.childTokens, Node.childTokens, Node.elements, Node.elements]
  rw [Node.map_toLexeme_elementsFrom, Node.map_toLexeme_elementsFrom, h.bares_eq]

theorem token?_eq
    [DecidableEq K]
    {kind : K}
    (hkind : Vocabulary.isTrivia kind = false) :
    (n.token? kind).map Leaf.toLexeme = (m.token? kind).map Leaf.toLexeme := by
  rw [n.map_token? hkind, m.map_token? hkind, h.childTokens_eq]

theorem hasToken_eq
    [DecidableEq K]
    {kind : K}
    (hkind : Vocabulary.isTrivia kind = false) :
    n.hasToken kind = m.hasToken kind := by
  have htoken := congrArg Option.isSome (h.token?_eq hkind)
  simpa [Node.hasToken] using htoken

/-- The children of a kind of alike nodes are alike. -/
theorem childrenOf
    [DecidableEq K]
    (kind : K) :
    List.Forall₂ (Node.Alike P stream stream') (n.childrenOf kind) (m.childrenOf kind) := by
  refine List.rel_filter ?_ h.childNodes
  intro c d hcd
  simp only [hcd.kind_eq]

/-- So are the first of them. -/
theorem child?
    [DecidableEq K]
    (kind : K) :
    Option.Rel (fun c d => c.kind = kind ∧ c.Alike P stream stream' d)
      (n.child? kind) (m.child? kind) := by
  have hkind : ∀ c ∈ n.childrenOf kind, c.kind = kind := by
    intro c hc
    simpa using (List.mem_filter.mp hc).2
  rw [Node.child?, Node.child?, ← List.head?_filter, ← List.head?_filter]
  exact rel_head? ((List.forall₂_and_left _ _).mpr ⟨hkind, h.childrenOf kind⟩)

end Node.Alike

end Places
end ZigCst
