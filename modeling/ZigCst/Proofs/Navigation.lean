import ZigCst.Proofs.Handles
import ZigCst.Proofs.Refusal
import ZigCst.Tree.Printer

/-!
# Navigation in finished arrays

What a builder gives is a tree in flat arrays: parents, positions among children, stretches
of children and windows of tokens are written at different moments.  They all fit together,
and the walk that follows the children finds what was built.

**Definitions.**
* `VisitRef.sight?`: what a walk by numbers sees.
* `NodeRef.Linked`: what is stored about a node agrees with the walk from it on.

**Results.**
* `walk_finish_perform_calls`: the walk over the arrays of a plan sees the plan.
* `Arena.Holds.print?_eq`: what is printed from the arrays is the printed tree.
* `Builder.linked_of_mem_nodeRefs`: the links of every node of every finished tree.
-/

namespace ZigCst

section Navigation

variable {K : Type}

theorem mapM_map_eq_some
    {ι α β : Type}
    {f : ι → α}
    {g : α → Option β}
    {h : ι → β}
    {is : List ι}
    (hg : ∀ i ∈ is, g (f i) = some (h i)) :
    (is.map f).mapM g = some (is.map h) := by
  induction is with
  | nil => rfl
  | cons i is ih =>
      obtain ⟨hi, his⟩ := List.forall_mem_cons.mp hg
      rw [List.map_cons, List.mapM_cons, hi, ih his]
      rfl

/-! ## What a walk by numbers sees -/

/-- What is seen at a moment of a walk by numbers. -/
def VisitRef.sight? : VisitRef K → Option (Sight K)
  | .enter n => n.kind?.map fun kind => .enter kind n.id
  | .token t => do return .token (← t.kind?) t.id (← t.range?)
  | .leave n => n.kind?.map fun kind => .leave kind n.id

/-- The same sight with one token more before it. -/
def Sight.next : Sight K → Sight K
  | .token kind index range => .token kind (index + 1) range
  | s => s

theorem Piece.map_next_sights
    (index start : Nat)
    (ps : List (Piece K)) :
    (sights index start ps).map Sight.next = sights (index + 1) start ps := by
  induction ps generalizing index start with
  | nil => rfl
  | cons p ps ih =>
      rw [sights, sights, List.map_cons, ih]
      rfl

/-- A place with one token more before it, as there is in arrays. -/
def Extent.next (place : Extent) : Extent := ⟨place.nodes, place.tokens + 1, place.bytes⟩

theorem Extent.next_add (a b : Extent) : a.next.add b = (a.add b).next := by
  simp only [next, add, mk.injEq, and_true, true_and]
  omega

mutual

theorem Plan.map_next_sights
    (p : Plan K)
    (place : Extent) :
    (sights place p).map Sight.next = sights place.next p := by
  cases p with
  | leaf s => exact Piece.map_next_sights _ _ _
  | node kind children =>
      rw [sights, sights, List.map_cons, List.map_append, Plan.map_next_sightsAll children]
      rfl

theorem Plan.map_next_sightsAll
    (ps : List (Plan K))
    (place : Extent) :
    (sightsAll place ps).map Sight.next = sightsAll place.next ps := by
  cases ps with
  | nil => rfl
  | cons p ps =>
      rw [sightsAll, sightsAll, List.map_append, Plan.map_next_sights p,
        Plan.map_next_sightsAll ps, Extent.next_add]

end

namespace Arena

variable {a : Arena K} {r : Root K}

/-- What is seen by numbers is what is seen in the tree, one token further on. -/
theorem Holds.sight?_eq
    (h : a.Holds r)
    {v : Visit K}
    (hv : v ∈ r.node.walk) :
    (a.visitRef v).sight? = some v.sight.next := by
  cases v with
  | enter n =>
      have hn : n ∈ r.node.descendants := List.mem_filterMap.mpr ⟨.enter n, hv, rfl⟩
      exact congrArg (Option.map fun kind => Sight.enter kind n.place.nodes)
        (h.storesAt hn).kind?_eq
  | leave n =>
      have hn : n ∈ r.node.descendants := Node.mem_descendants_of_leave_mem_walk hv
      exact congrArg (Option.map fun kind => Sight.leave kind n.place.nodes)
        (h.storesAt hn).kind?_eq
  | token l =>
      have hl : l ∈ r.node.tokens := List.mem_filterMap.mpr ⟨.token l, hv, rfl⟩
      obtain ⟨hparent, hmem⟩ := Node.mem_of_mem_tokens hl
      have hstores := h.storesAt hparent
      have hkind : (a.tokenRef l).kind? = _ := hstores.kind?_token_eq hmem
      have hrange : (a.tokenRef l).range? = _ := hstores.range?_token_eq hmem
      rw [visitRef, VisitRef.sight?, hkind, hrange]
      rfl

end Arena

/-- **Building and walking are inverse.**  A plan that fits a text is taken by a builder call
by call, and the walk over the finished arrays sees exactly the plan: its nodes numbered in
preorder and its pieces, trivia included, in order, numbered behind the token that no text
belongs to. -/
theorem walk_finish_perform_calls
    [Vocabulary K]
    (text : Text)
    (kind : K)
    (children : List (Plan K))
    (hfit : Piece.Fit (Plan.pieces (.node kind children)) text) :
    ∃ b a visits,
      (Builder.ofText text).perform (Plan.calls (.node kind children)) = .ok b ∧
      b.finish = .ok a ∧
      a.node.preorder.Yields visits ∧
      visits.mapM VisitRef.sight? = some (Plan.sights ⟨0, 1, 0⟩ (.node kind children)) ∧
      (Plan.sights ⟨0, 1, 0⟩ (.node kind children)).filterMap Sight.entered? =
        List.range a.nodes.size ∧
      (Plan.sights ⟨0, 1, 0⟩ (.node kind children)).filter Sight.isToken =
        Piece.sights 1 0 (Plan.pieces (.node kind children)) ∧
      a.tokens.size = (Plan.pieces (.node kind children)).length + 1 ∧
      a.text = text := by
  obtain ⟨ls, hcut⟩ := Piece.fit_iff.mp hfit
  obtain ⟨ts, hlay, hroot, hlexemes⟩ := Plan.exists_root hcut
  have hscaffold : ((Scaffold.ofText text).perform (Plan.calls (.node kind children)) >>=
      Scaffold.finish) = .ok ⟨kind, ts⟩ := by
    rw [← toOption_eq_some_iff, Scaffold.perform_calls_finish, hroot]
  have hrelated := Builder.related_finish_perform text (Plan.calls (.node kind children))
  rw [hscaffold] at hrelated
  obtain ⟨a, ha, hholds⟩ := hrelated.exists_of_ok_right
  obtain ⟨b, hb, hfinish⟩ := Scaffold.bind_eq_ok_iff.mp ha
  have hwalk : (Root.mk kind ts).node.walk.map Visit.sight =
      Plan.sights .zero (.node kind children) := Plan.map_sight_root_walk hlay
  have hextents : (Root.mk kind ts).tree.extent = Plan.extent (.node kind children) := by
    rw [Root.tree, Tree.extent, Plan.extents_layAll? hlay, Plan.extent]
  refine ⟨b, a, (Root.mk kind ts).node.walk.map a.visitRef, hb, hfinish,
    (hholds.storesAt (Root.mk kind ts).node.mem_descendants_self).yields_preorder, ?_, ?_,
    Plan.filter_isToken_sights _ _, ?_, ?_⟩
  · have hsights : (Plan.sights .zero (.node kind children)).map Sight.next =
        Plan.sights ⟨0, 1, 0⟩ (.node kind children) := Plan.map_next_sights _ _
    rw [mapM_map_eq_some fun v hv => hholds.sight?_eq hv, ← hsights, ← hwalk, List.map_map]
    rfl
  · rw [Plan.filterMap_entered_sights, hholds.filled.nodes, hextents, List.range_eq_range']
  · rw [hholds.filled.tokens, hextents, (Plan.extent_eq _).1]
  · rw [hholds.text_eq, Root.text, Root.lexemes, hlexemes]
    have htext := (Piece.cut?_eq_some_iff.mp hcut).2
    rw [List.append_nil] at htext
    exact htext

/-- A plan with trivia on both sides of a token, a letter of two bytes and a node
without tokens. -/
def nestedPlan : Plan Zon.Kind :=
  .node .file
    [.node .entry
        [.leaf ⟨[⟨.whitespace, 1⟩], .identifier, 2, [⟨.lineComment, 3⟩]⟩,
          .node .error []],
      .leaf ⟨[⟨.whitespace, 1⟩], .eof, 0, []⟩]

theorem walk_finish_perform_calls_nested :
    Piece.Fit (Plan.pieces nestedPlan) [' ', 'ñ', '/', '/', 'x', '\n'] ∧
      ∃ b a visits,
        (Builder.ofText [' ', 'ñ', '/', '/', 'x', '\n']).perform (Plan.calls nestedPlan) = .ok b ∧
        b.finish = .ok a ∧
        a.node.preorder.Yields visits ∧
        visits.mapM VisitRef.sight? = some
          [.enter .file 0, .enter .entry 1, .token .whitespace 1 ⟨0, 1⟩,
            .token .identifier 2 ⟨1, 3⟩, .token .lineComment 3 ⟨3, 6⟩, .enter .error 2,
            .leave .error 2, .leave .entry 1, .token .whitespace 4 ⟨6, 7⟩,
            .token .eof 5 ⟨7, 7⟩, .leave .file 0] := by
  have hfit : Piece.Fit (Plan.pieces nestedPlan) [' ', 'ñ', '/', '/', 'x', '\n'] := by decide
  refine ⟨hfit, ?_⟩
  obtain ⟨b, a, visits, hperform, hfinish, hwalk, hsights, -⟩ :=
    walk_finish_perform_calls _ _ _ hfit
  exact ⟨b, a, visits, hperform, hfinish, hwalk, hsights⟩

/-! ## Printing -/

namespace Arena

variable [Vocabulary K] {a : Arena K} {r : Root K} {n : Node K}

theorem StoresAt.label?_eq (h : a.StoresAt n) :
    (ElementRef.node (a.ref n)).label? = some n.label := by
  have hkind : (ElementRef.node (a.ref n)).kind? = _ := h.kind?_eq
  have hrange : (ElementRef.node (a.ref n)).range? = _ := h.range?_eq
  rw [ElementRef.label?, hkind, hrange]
  rfl

theorem StoresAt.label?_token_eq
    {l : Leaf K}
    (h : a.StoresAt n)
    (hl : .token l ∈ n.elements) :
    (ElementRef.token (a.tokenRef l)).label? = some l.label := by
  have hkind : (ElementRef.token (a.tokenRef l)).kind? = _ := h.kind?_token_eq hl
  have hrange : (ElementRef.token (a.tokenRef l)).range? = _ := h.range?_token_eq hl
  rw [ElementRef.label?, hkind, hrange]
  rfl

theorem Holds.printVisits?_eq
    (h : a.Holds r)
    (hn : n ∈ r.node.descendants)
    {visits : List (Visit K)}
    (hvisits : ∀ v ∈ visits, v ∈ n.walk)
    (depth : Nat) :
    printVisits? depth (visits.map a.visitRef) = some (printWalk depth visits) := by
  induction visits generalizing depth with
  | nil => rfl
  | cons v visits ih =>
      obtain ⟨hv, hrest⟩ := List.forall_mem_cons.mp hvisits
      rw [List.map_cons]
      cases v with
      | enter m =>
          have hm : m ∈ n.descendants := List.mem_filterMap.mpr ⟨.enter m, hv, rfl⟩
          have hlabel := (h.storesAt (Node.mem_descendants_trans hn hm)).label?_eq
          rw [visitRef, printVisits?, hlabel, ih hrest]
          rfl
      | leave m => exact ih hrest _
      | token l =>
          have hl : l ∈ n.tokens := List.mem_filterMap.mpr ⟨.token l, hv, rfl⟩
          obtain ⟨hparent, hmem⟩ := Node.mem_of_mem_tokens hl
          have hstores := h.storesAt (Node.mem_descendants_trans hn hparent)
          rw [visitRef, printVisits?, hstores.label?_token_eq hmem, hstores.text?_token_eq hmem,
            ih hrest]
          rfl

/-- A node is printed from the arrays as it is printed in the tree. -/
theorem Holds.print?_eq
    (h : a.Holds r)
    (hn : n ∈ r.node.descendants) :
    (a.ref n).print? = some n.print := by
  rw [NodeRef.print?, h.walk?_eq hn, Option.bind_eq_bind, Option.bind_some,
    h.printVisits?_eq hn (fun v hv => hv) 0]
  rfl

end Arena

/-! ## Links -/

/-- What is stored about a node agrees with the walk from it on and with what is stored about
its children and its parent.  Every lookup on the way succeeds. -/
structure NodeRef.Linked (n : NodeRef K) (visits : List (VisitRef K)) (range : Range)
    (elements : List (ElementRef K)) (children path : List (NodeRef K)) : Prop where
  walk : n.preorder.Yields visits
  /-- The window of tokens holds those that the walk meets. -/
  tokens : n.tokens? = some (visits.filterMap VisitRef.token?)
  text : ∃ texts, (visits.filterMap VisitRef.token?).mapM TokenRef.text? = some texts ∧
    n.text? = some texts.flatten
  range_eq : n.range? = some range
  elements_eq : n.elements? = some elements
  /-- The children lie in the node, side by side. -/
  ranges : ∃ ranges, elements.mapM ElementRef.range? = some ranges ∧
    (∀ s ∈ ranges, range.covers s = true) ∧ ranges.IsChain fun s t => s.stop = t.start
  childNodes_eq : n.childNodes? = some children
  parent : ∀ c ∈ n.arena.nodeRefs, c ∈ children ↔ c.parent? = some (some n)
  next : ∀ c ∈ n.arena.nodeRefs, ∀ d,
    [c, d] <:+: children ↔ c.parent? = some (some n) ∧ c.nextSibling? = some (some d)
  prev : ∀ d ∈ n.arena.nodeRefs, ∀ c,
    [c, d] <:+: children ↔ d.parent? = some (some n) ∧ d.prevSibling? = some (some c)
  tokenParent : ∀ t ∈ n.arena.tokenRefs, ElementRef.token t ∈ elements ↔ t.parent? = some n
  /-- The way up takes one parent after another, through nodes of the tree, to the root. -/
  climbs : n.Climbs path
  inside : ∀ m ∈ path, m ∈ n.arena.nodeRefs
  last : path.getLast? = some n.arena.node

namespace Arena

variable {a : Arena K} {r : Root K} {n : Node K}

theorem Holds.ref_mem_nodeRefs
    (h : a.Holds r)
    (hn : n ∈ r.node.descendants) :
    a.ref n ∈ a.nodeRefs := by
  rw [h.nodeRefs_eq]
  exact List.mem_map_of_mem hn

theorem Holds.exists_of_mem_nodeRefs
    {x : NodeRef K}
    (h : a.Holds r)
    (hx : x ∈ a.nodeRefs) :
    ∃ n, n ∈ r.node.descendants ∧ a.ref n = x := by
  rw [h.nodeRefs_eq] at hx
  exact List.mem_map.mp hx

theorem Holds.exists_of_mem_tokenRefs
    {x : TokenRef K}
    (h : a.Holds r)
    (hx : x ∈ a.tokenRefs) :
    ∃ l, l ∈ r.node.tokens ∧ a.tokenRef l = x := by
  rw [h.tokenRefs_eq] at hx
  exact List.mem_map.mp hx

/-- Of two nodes of a tree, one is among the children of the other if their numbers are. -/
theorem ref_mem_childNodes_iff
    {c : Node K}
    (hn : n ∈ r.node.descendants)
    (hc : c ∈ r.node.descendants) :
    a.ref c ∈ n.childNodes.map a.ref ↔ c ∈ n.childNodes := by
  constructor
  · intro hmem
    obtain ⟨d, hd, heq⟩ := List.mem_map.mp hmem
    exact (ref_inj (Node.mem_descendants_of_mem_childNodes hn hd) hc).mp heq ▸ hd
  · exact List.mem_map_of_mem

theorem Holds.parent?_eq_some_iff
    {c : Node K}
    (h : a.Holds r)
    (hn : n ∈ r.node.descendants)
    (hc : c ∈ r.node.descendants) :
    (a.ref c).parent? = some (some (a.ref n)) ↔ c ∈ n.childNodes := by
  rw [(h.storesAt hc).parent?_eq, Option.some_inj, Root.mem_childNodes_iff hc]
  rcases Node.exists_parent hc with rfl | ⟨m, hm, hmem⟩
  · exact ⟨nofun, nofun⟩
  · rw [Node.parent?_of_mem_childNodes hmem, Option.map_some, Option.some_inj, Option.some_inj,
      ref_inj hm hn]

/-- The numbers of two neighbouring children are those of two nodes that follow each other. -/
theorem infix_map_ref_iff
    {x y : NodeRef K} :
    [x, y] <:+: n.childNodes.map a.ref ↔
      ∃ c d, n.Follows c d ∧ a.ref c = x ∧ a.ref d = y := by
  constructor
  · rintro ⟨before, after, hsplit⟩
    obtain ⟨front, back, hchildren, hfront, -⟩ := List.map_eq_append_iff.mp hsplit.symm
    obtain ⟨left, pair, rfl, -, hpair⟩ := List.map_eq_append_iff.mp hfront
    obtain ⟨c, rest, rfl, rfl, hrest⟩ := List.map_eq_cons_iff.mp hpair
    obtain ⟨d, rfl, rfl⟩ := List.map_eq_singleton_iff.mp hrest
    exact ⟨c, d, ⟨left, back, by rw [hchildren]; simp⟩, rfl, rfl⟩
  · rintro ⟨c, d, ⟨before, after, hchildren⟩, rfl, rfl⟩
    exact ⟨before.map a.ref, after.map a.ref, by rw [hchildren]; simp⟩

theorem Holds.infix_iff_nextSibling?
    {c : Node K}
    (h : a.Holds r)
    (hn : n ∈ r.node.descendants)
    (hc : c ∈ r.node.descendants)
    {x : NodeRef K} :
    [a.ref c, x] <:+: n.childNodes.map a.ref ↔
      (a.ref c).parent? = some (some (a.ref n)) ∧ (a.ref c).nextSibling? = some (some x) := by
  rw [infix_map_ref_iff, h.parent?_eq_some_iff hn hc, h.nextSibling?_eq hc]
  constructor
  · rintro ⟨c', d, hfollows, heq, rfl⟩
    have hc' := Node.mem_descendants_of_mem_childNodes hn hfollows.left_mem
    obtain rfl := (ref_inj hc' hc).mp heq
    rw [(Node.follows_iff_nextSibling? hfollows.left_mem).mp hfollows]
    exact ⟨hfollows.left_mem, rfl⟩
  · rintro ⟨hmem, hnext⟩
    obtain ⟨d, hd, rfl⟩ := Option.map_eq_some_iff.mp (Option.some.inj hnext)
    exact ⟨c, d, (Node.follows_iff_nextSibling? hmem).mpr hd, rfl, rfl⟩

theorem Holds.infix_iff_prevSibling?
    {d : Node K}
    (h : a.Holds r)
    (hn : n ∈ r.node.descendants)
    (hd : d ∈ r.node.descendants)
    {x : NodeRef K} :
    [x, a.ref d] <:+: n.childNodes.map a.ref ↔
      (a.ref d).parent? = some (some (a.ref n)) ∧ (a.ref d).prevSibling? = some (some x) := by
  rw [infix_map_ref_iff, h.parent?_eq_some_iff hn hd, h.prevSibling?_eq hd]
  constructor
  · rintro ⟨c, d', hfollows, rfl, heq⟩
    have hd' := Node.mem_descendants_of_mem_childNodes hn hfollows.right_mem
    obtain rfl := (ref_inj hd' hd).mp heq
    rw [(Node.follows_iff_prevSibling? hfollows.right_mem).mp hfollows]
    exact ⟨hfollows.right_mem, rfl⟩
  · rintro ⟨hmem, hprev⟩
    obtain ⟨c, hc, rfl⟩ := Option.map_eq_some_iff.mp (Option.some.inj hprev)
    exact ⟨c, d, (Node.follows_iff_prevSibling? hmem).mpr hc, rfl, rfl⟩

/-- A token is among the children of the node that its entry names, and of no other. -/
theorem Holds.token_mem_iff
    {l : Leaf K}
    (h : a.Holds r)
    (hn : n ∈ r.node.descendants)
    (hl : l ∈ r.node.tokens) :
    ElementRef.token (a.tokenRef l) ∈ n.elements.map a.elementRef ↔
      (a.tokenRef l).parent? = some (a.ref n) := by
  obtain ⟨hparent, hmem⟩ := Node.mem_of_mem_tokens hl
  rw [(h.storesAt hparent).parent?_token_eq hmem, Option.some_inj, ref_inj hparent hn]
  constructor
  · intro htoken
    obtain ⟨e, he, heq⟩ := List.mem_map.mp htoken
    cases e with
    | node c => cases heq
    | token k =>
        have hk : k ∈ r.node.tokens := Node.mem_tokens_of_mem_elements hn he
        obtain rfl := (tokenRef_inj hk hl).mp (ElementRef.token.inj heq)
        exact Node.parent_of_mem_childTokens (List.mem_filterMap.mpr ⟨.token k, he, rfl⟩)
  · rintro rfl
    exact List.mem_map_of_mem hmem

/-- The links of a node in place. -/
theorem Holds.linked
    (h : a.Holds r)
    (hn : n ∈ r.node.descendants) :
    (a.ref n).Linked (n.walk.map a.visitRef) n.range (n.elements.map a.elementRef)
      (n.childNodes.map a.ref) (n.ancestors.map a.ref) := by
  have hstores := h.storesAt hn
  have htokens : (n.walk.map a.visitRef).filterMap VisitRef.token? = n.tokens.map a.tokenRef := by
    rw [Node.tokens, List.filterMap_map, List.map_filterMap]
    exact List.filterMap_congr fun v _ => token?_visitRef v
  refine
    { walk := hstores.yields_preorder
      tokens := ?_
      text := ?_
      range_eq := hstores.range?_eq
      elements_eq := hstores.elements?_eq
      ranges := ⟨n.elements.map Element.range, ?_, ?_, ?_⟩
      childNodes_eq := hstores.childNodes?_eq
      parent := ?_
      next := ?_
      prev := ?_
      tokenParent := ?_
      climbs := h.climbs hn
      inside := ?_
      last := ?_ }
  · rw [htokens, hstores.tokens?_eq]
  · rw [htokens]
    refine ⟨n.tokens.map fun l => l.text, ?_, ?_⟩
    · refine mapM_map_eq_some fun l hl => ?_
      obtain ⟨hparent, hmem⟩ :=
        Node.mem_of_mem_tokens (Node.mem_tokens_of_mem_descendants hn hl)
      exact (h.storesAt hparent).text?_token_eq hmem
    · rw [hstores.text?_eq, Node.text, ← n.map_toLexeme_tokens, textOf, List.flatMap_map,
        List.flatMap_def]
  · exact mapM_map_eq_some fun e he => hstores.range?_element_eq he
  · exact List.forall_mem_map.mpr fun e he => Node.covers_range he
  · rw [List.isChain_map]
    exact n.isChain_elements
  · intro x hx
    obtain ⟨c, hc, rfl⟩ := h.exists_of_mem_nodeRefs hx
    rw [ref_mem_childNodes_iff hn hc, h.parent?_eq_some_iff hn hc]
  · intro x hx y
    obtain ⟨c, hc, rfl⟩ := h.exists_of_mem_nodeRefs hx
    exact h.infix_iff_nextSibling? hn hc
  · intro y hy x
    obtain ⟨d, hd, rfl⟩ := h.exists_of_mem_nodeRefs hy
    exact h.infix_iff_prevSibling? hn hd
  · intro t ht
    obtain ⟨l, hl, rfl⟩ := h.exists_of_mem_tokenRefs ht
    exact h.token_mem_iff hn hl
  · intro x hx
    obtain ⟨m, hm, rfl⟩ := List.mem_map.mp hx
    exact h.ref_mem_nodeRefs (Node.mem_descendants_of_mem_ancestors hn hm rfl).1
  · obtain ⟨path, hpath, -⟩ := Node.exists_ancestors_eq hn
    rw [hpath, List.map_append]
    exact List.getLast?_concat

end Arena

/-- **Links agree with the walk.**  For every node of every tree that a builder gives: the
tokens of its window are those that the walk meets and spell out its text, its children lie in
it side by side, its child nodes are the nodes with it as parent, siblings are neighbours
among them, its child tokens are the tokens with it as parent, and the way up goes from
parent to parent to the root. -/
theorem Builder.linked_of_mem_nodeRefs
    [Vocabulary K]
    {text : Text}
    {calls : List (Call K)}
    {a : Arena K}
    (hfinish : ((ofText text).perform calls >>= finish) = .ok a)
    {n : NodeRef K}
    (hn : n ∈ a.nodeRefs) :
    ∃ visits range elements children path, n.Linked visits range elements children path := by
  have hrelated := related_finish_perform text calls
  rw [hfinish] at hrelated
  obtain ⟨root, -, hholds⟩ := hrelated.exists_of_ok_left
  obtain ⟨m, hm, rfl⟩ := hholds.exists_of_mem_nodeRefs hn
  exact ⟨_, _, _, _, _, hholds.linked hm⟩

/-- Calls that build a node with an empty child, a token and a child with one token. -/
def mixedCalls : List (Call Zon.Kind) :=
  [.start .file, .token ⟨[], .whitespace, 1, []⟩, .start .struct, .start .entry, .finish,
    .token ⟨[], .comma, 1, []⟩, .start .entry, .token ⟨[], .integer, 1, []⟩, .finish, .finish,
    .finish]

/-- What they build: the children of an inner node stand before those of the nodes around
it, and the empty node has an empty window behind the first token. -/
def mixedArena : Arena Zon.Kind where
  text := [' ', ',', '1']
  tokens := #[⟨.tombstone, 0, 0⟩, ⟨.whitespace, 1, 0⟩, ⟨.comma, 2, 1⟩, ⟨.integer, 3, 3⟩]
  nodes := #[⟨.file, none, 0, 4, 2, 1, 4⟩, ⟨.struct, some 0, 1, 1, 3, 2, 4⟩,
    ⟨.entry, some 1, 0, 0, 0, 2, 2⟩, ⟨.entry, some 1, 2, 0, 1, 3, 4⟩]
  children := #[.token 3, .node 2, .token 2, .node 3, .token 1, .node 1]

/-- The links of the empty node. -/
theorem linked_empty_node :
    ((Builder.ofText [' ', ',', '1']).perform mixedCalls >>= Builder.finish) = .ok mixedArena ∧
      ⟨mixedArena, 2⟩ ∈ mixedArena.nodeRefs ∧
      ∃ visits range elements children path,
        (NodeRef.mk mixedArena 2).Linked visits range elements children path := by
  have hfinish : ((Builder.ofText [' ', ',', '1']).perform mixedCalls >>= Builder.finish) =
      .ok mixedArena := toOption_eq_some_iff.mp (by decide +kernel)
  have hmem : ⟨mixedArena, 2⟩ ∈ mixedArena.nodeRefs :=
    List.mem_map_of_mem (List.mem_range.mpr (by decide))
  exact ⟨hfinish, hmem, Builder.linked_of_mem_nodeRefs hfinish hmem⟩

end Navigation
end ZigCst
