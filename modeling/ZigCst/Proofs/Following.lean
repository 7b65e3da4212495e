import ZigCst.Proofs.Congruence
import ZigCst.Proofs.Outline

/-!
# Nodes and what stands behind them

What a parser makes of a lexeme often depends on the lexemes that come next, and those may
belong to nodes further out.  A property of a node may therefore speak of all leaves that
stand behind the node, to the end of the file.

No step of a run changes the order of the leaves, those already taken and those ahead.  So
a property of this sort, once a node has it, is kept by everything that happens later,
and only the parsers that make nodes of the kinds it is about have to be looked at.

**Definitions.**
* `Shape.Followed P rest s`: every node of `s` has the property `P` with regard to the
  leaves behind it, where `rest` stands behind `s`.
* `Parser.Conserves P p`: on drafts, `p` keeps the order of the leaves and the property `P`
  of all nodes.
* `Node.significantTokens`: the tokens below a node that are no trivia.

**Results.**
* `draws_nodeOf_conserved`, `congruence_conserves`: the combinators conserve.
* `exists_followed`: a grammar that conserves gives trees whose nodes have the property.
* `Root.exists_split_of_mem`: the tokens behind a node in place.
-/

namespace ZigCst

/-! ## Leaves behind nodes -/

namespace Shape

variable {α K : Type} {P : K → List (Shape α K) → List α → Prop}

mutual

/-- Whether all nodes have a property with regard to the leaves behind them. -/
def Followed (P : K → List (Shape α K) → List α → Prop) (rest : List α) : Shape α K → Prop
  | .leaf _ => True
  | .node kind children => P kind children rest ∧ FollowedAll P rest children

/-- Whether all nodes of neighbouring shapes have a property with regard to the leaves
behind them. -/
def FollowedAll (P : K → List (Shape α K) → List α → Prop) (rest : List α) :
    List (Shape α K) → Prop
  | [] => True
  | s :: ss => s.Followed P (ss.flatMap leaves ++ rest) ∧ FollowedAll P rest ss

end

theorem followed_node_iff
    {kind : K}
    {children : List (Shape α K)}
    {rest : List α} :
    (node kind children).Followed P rest ↔
      P kind children rest ∧ FollowedAll P rest children := Iff.rfl

theorem followedAll_append_iff
    {ss ts : List (Shape α K)}
    {rest : List α} :
    FollowedAll P rest (ss ++ ts) ↔
      FollowedAll P (ts.flatMap leaves ++ rest) ss ∧ FollowedAll P rest ts := by
  induction ss with
  | nil => exact (and_iff_right trivial).symm
  | cons s ss ih =>
      rw [List.cons_append, FollowedAll, FollowedAll, ih, List.flatMap_append, List.append_assoc,
        and_assoc]

theorem followedAll_singleton_iff
    {s : Shape α K}
    {rest : List α} :
    FollowedAll P rest [s] ↔ s.Followed P rest := and_iff_left trivial

end Shape

/-! ## Conserving parsers -/

section Desks

variable {K : Type}

/-- Without their faults, the children that the innermost node has got, in order. -/
def Desk.shapes (s : Desk K) : List (Shape K K) := s.children.reverse.filterMap Marked.plain?

@[simp]
theorem Desk.shapes_nil (c : Cursor K) : (Desk.mk c []).shapes = [] := rfl

@[simp]
theorem Desk.shapes_cons
    (c : Cursor K)
    (m : Marked K)
    (ms : List (Marked K)) :
    (Desk.mk c (m :: ms)).shapes = (Desk.mk c ms).shapes ++ m.plain?.toList := by
  rw [shapes, shapes, List.reverse_cons, List.filterMap_append, List.filterMap_cons]
  cases m.plain? <;> rfl

theorem Desk.shapes_append
    (c : Cursor K)
    (ms others : List (Marked K)) :
    (Desk.mk c (ms ++ others)).shapes = (Desk.mk c others).shapes ++ (Desk.mk c ms).shapes := by
  rw [shapes, shapes, shapes, List.reverse_append, List.filterMap_append]

variable [Vocabulary K]

/-- The lexemes to come and the end of file. -/
def Cursor.ahead (c : Cursor K) : List K := c.kinds ++ [Vocabulary.eof]

/-- All leaves from the first child of the innermost node on. -/
def Desk.leaves (s : Desk K) : List K := s.shapes.flatMap Shape.leaves ++ s.cursor.ahead

/-- What a run makes of a desk: the order of the leaves stays, and if all nodes have a
property with regard to the leaves behind them, then so do those that are added. -/
structure Desk.Conserved
    (P : K → List (Shape K K) → List K → Prop)
    (s t : Desk K) : Prop where
  leaves_eq : t.leaves = s.leaves
  followed :
    Shape.FollowedAll P s.cursor.ahead s.shapes → Shape.FollowedAll P t.cursor.ahead t.shapes

theorem Desk.Conserved.refl
    (P : K → List (Shape K K) → List K → Prop)
    (s : Desk K) :
    Desk.Conserved P s s := ⟨rfl, id⟩

theorem Desk.Conserved.trans
    {P : K → List (Shape K K) → List K → Prop}
    {s t u : Desk K}
    (hst : Desk.Conserved P s t)
    (htu : Desk.Conserved P t u) :
    Desk.Conserved P s u :=
  ⟨htu.leaves_eq.trans hst.leaves_eq, htu.followed ∘ hst.followed⟩

/-- Where the children of a new node have been conserved, so has everything with the new
node, which takes the place of those children it was made around. -/
theorem Desk.Conserved.node
    {P : K → List (Shape K K) → List K → Prop}
    {c : Cursor K}
    {ms others : List (Marked K)}
    {t : Desk K}
    {kind : K}
    (h : Desk.Conserved P ⟨c, ms⟩ t)
    (hP : P kind t.shapes t.cursor.ahead) :
    Desk.Conserved P ⟨c, ms ++ others⟩ ⟨t.cursor, .node kind t.children.reverse :: others⟩ := by
  have hplain : (Marked.plain? (.node kind t.children.reverse)).toList = [.node kind t.shapes] := by
    rw [Marked.plain?_node]
    rfl
  have hleaves : t.shapes.flatMap Shape.leaves ++ t.cursor.ahead =
      (Desk.mk c ms).shapes.flatMap Shape.leaves ++ c.ahead := h.leaves_eq
  constructor
  · rw [Desk.leaves, Desk.leaves, Desk.shapes_cons, Desk.shapes_append, hplain,
      List.flatMap_append, List.flatMap_append, List.flatMap_singleton, Shape.leaves_node,
      List.append_assoc, List.append_assoc, hleaves]
    rfl
  · rw [Desk.shapes_cons, Desk.shapes_append, hplain, Shape.followedAll_append_iff,
      Shape.followedAll_append_iff, Shape.followedAll_singleton_iff, List.flatMap_singleton,
      Shape.leaves_node, hleaves]
    exact fun hfollowed => ⟨hfollowed.1, hP, h.followed hfollowed.2⟩

end Desks

namespace Parser

variable {K α β : Type}

/-- Two things that hold where a trace ends hold together, as the draft decides where that
is. -/
theorem Draws.and
    {p : Parser K α}
    {s : Desk K}
    {Q R : α → Desk K → Prop}
    (hQ : p.Draws s Q)
    (hR : p.Draws s R) :
    p.Draws s fun a t => Q a t ∧ R a t := by
  intro behind below d hd
  obtain ⟨t, hcursor, hdraft, ht⟩ := hQ behind below d hd
  obtain ⟨u, hcursor', hdraft', hu⟩ := hR behind below d hd
  have hchildren : t.children = u.children := congrArg Draft.top (hdraft.trans hdraft'.symm)
  obtain rfl : t = u := by
    cases t
    cases u
    congr
    exact hcursor.trans hcursor'.symm
  exact ⟨t, hcursor, hdraft, ht, hu⟩

/-- A wrapped node stands in front of faults only; where no node does, nothing can be
drafted. -/
theorem draws_wrapOf_last
    {body : Parser K K}
    {s : Desk K}
    {Q : K → Desk K → Prop}
    (h : ∀ faults kind grandchildren others,
      s.children = (faults ++ [Shape.node kind grandchildren]) ++ others →
      (∀ m ∈ faults, Marked.isFault m = true) →
      body.Draws ⟨s.cursor, faults ++ [Shape.node kind grandchildren]⟩ fun kind t =>
        Q kind ⟨t.cursor, .node kind t.children.reverse :: others⟩) :
    (wrapOf body).Draws s Q := by
  have hsplit := List.takeWhile_append_dropWhile (p := Marked.isFault) (l := s.children)
  have hfaults : ∀ m ∈ s.children.takeWhile Marked.isFault, Marked.isFault m = true :=
    fun m hm => List.mem_takeWhile_imp hm
  cases hdrop : s.children.dropWhile Marked.isFault with
  | nil =>
      intro behind below d hd
      obtain ⟨e, he, -⟩ := Draft.run_append_eq_some.mp hd
      simp [Desk.draft, Draft.run_cons, Draft.step, hdrop] at he
  | cons m others =>
      rw [hdrop] at hsplit
      cases m with
      | leaf mark =>
          intro behind below d hd
          obtain ⟨e, he, -⟩ := Draft.run_append_eq_some.mp hd
          simp [Desk.draft, Draft.run_cons, Draft.step, hdrop] at he
      | node kind grandchildren =>
          refine draws_wrapOf hsplit.symm hfaults (h _ kind grandchildren others ?_ hfaults)
          rw [List.append_assoc]
          exact hsplit.symm

variable [Vocabulary K] {P : K → List (Shape K K) → List K → Prop}

/-- Whether a run, on drafts, keeps the order of the leaves and a property that all nodes
have with regard to the leaves behind them. -/
def Conserves (P : K → List (Shape K K) → List K → Prop) (p : Parser K α) : Prop :=
  ∀ s : Desk K, p.Draws s fun _ t => Desk.Conserved P s t

theorem conserves_of_look
    {p : Parser K α}
    (h : ∀ c, ∃ a, p c = ⟨a, c, []⟩) :
    p.Conserves P := by
  intro s behind below d hd
  obtain ⟨a, ha⟩ := h s.cursor
  rw [ha] at hd ⊢
  exact ⟨s, rfl, Option.some.inj hd, .refl P s⟩

theorem Conserves.bind
    {p : Parser K α}
    {f : α → Parser K β}
    (hp : p.Conserves P)
    (hf : ∀ a, (f a).Conserves P) :
    (p >>= f).Conserves P :=
  fun s => (hp s).bind fun a t hst => (hf a t).mono fun _ _ htu => hst.trans htu

theorem conserves_advance : (advance : Parser K Unit).Conserves P := by
  refine fun s => draws_advance (fun _ => .refl P s) fun kind hkinds => ?_
  have hahead : s.cursor.ahead = kind :: s.cursor.next.ahead := by
    rw [Cursor.ahead, hkinds]
    rfl
  constructor
  · rw [Desk.leaves, Desk.shapes_cons, List.flatMap_append, List.append_assoc, Desk.leaves, hahead]
    rfl
  · rw [Desk.shapes_cons, Marked.plain?_lexeme, Option.toList_some, Shape.followedAll_append_iff,
      hahead]
    exact fun hfollowed => ⟨hfollowed, trivial, trivial⟩

theorem conserves_report (fault : Fault K) : (report fault : Parser K Unit).Conserves P :=
  fun s => draws_report ⟨by simp [Desk.leaves], by simp⟩

/-- A node conserves, if its children do and it has the property itself. -/
theorem draws_nodeOf_conserved
    {body : Parser K K}
    {s : Desk K}
    (hbody : body.Conserves P)
    (hP : body.Draws ⟨s.cursor, []⟩ fun kind t => P kind t.shapes t.cursor.ahead) :
    (nodeOf body).Draws s fun _ t => Desk.Conserved P s t :=
  draws_nodeOf <| ((hbody ⟨s.cursor, []⟩).and hP).mono
    fun _ _ ⟨hconserved, ht⟩ => hconserved.node ht

/-- Everything conserves, but for nodes of the kinds that the property is about. -/
theorem congruence_conserves
    {free : K → Prop}
    (herror : free Vocabulary.error)
    (hfree : ∀ kind, free kind → ∀ children rest, P kind children rest) :
    Congruence free fun α (_ p : Parser K α) => p.Conserves P where
  error := herror
  pure := fun a => conserves_of_look fun _ => ⟨a, rfl⟩
  look := fun f => conserves_of_look fun c => ⟨f c, rfl⟩
  report := conserves_report
  advance := conserves_advance
  ensure := fun _ s => draws_ensure fun _ => .refl P s
  bind := Conserves.bind
  discard := fun hp => hp.bind fun _ => conserves_of_look fun _ => ⟨(), rfl⟩
  nodeOf := fun hgives hp s => draws_nodeOf_conserved hp <| (hp ⟨s.cursor, []⟩).outcome.mono
    fun kind _ ⟨hkind, _⟩ => hfree kind (hkind ▸ hgives s.cursor) _ _
  wrapOf := fun hgives hp ⟨c, children⟩ =>
    draws_wrapOf_last fun faults kind grandchildren others hchildren _ => by
      obtain rfl : children = (faults ++ [Shape.node kind grandchildren]) ++ others := hchildren
      refine (hp ⟨c, faults ++ [Shape.node kind grandchildren]⟩).outcome.mono ?_
      rintro kind' t ⟨hkind', -, hconserved⟩
      exact hconserved.node (hfree kind' (hkind' ▸ hgives c) _ _)
  moves := fun hp s => draws_moves (hp s)
  iterate := fun hp v s => by
    refine Draws.iterate (I := fun _ t => Desk.Conserved P s t) (fun v t hst => ?_) (.refl P s)
    exact (hp v t).mono fun _ _ htu => ⟨fun _ => hst.trans htu, fun _ => hst.trans htu⟩

end Parser

/-! ## Whole files -/

/-- A grammar that conserves gives every file a tree whose nodes have the property, up to
the end of file. -/
theorem exists_followed
    {K : Type}
    [DecidableEq K]
    [Vocabulary K]
    [LawfulVocabulary K]
    {P : K → List (Shape K K) → List K → Prop}
    {read : (c : Char) → (t : Text) → Reading K t}
    {body : Parser K Unit}
    {kind : K}
    (hkind : kind ≠ Vocabulary.tombstone)
    (hbody : ∀ s : Site K, body.Ends s fun _ t => s.Grows t ∧ t.kinds = [])
    (hconserves : body.Conserves P)
    (hP : ∀ children, P kind children [])
    (text : Text) :
    ∃ p shapes,
      Parse.ofGrammar? (lexWith read) (Parser.whole kind body) text = some p ∧
      p.root.outline = .node kind (shapes ++ [Shape.leaf Vocabulary.eof]) ∧
      p.root.outline.Followed P [] := by
  have hdraws : ∀ c, body.Draws ⟨c, []⟩ fun _ t =>
      Shape.FollowedAll P [Vocabulary.eof] (t.children.reverse.filterMap Marked.plain?) := by
    intro c
    obtain ⟨t, hcursor, -, -, hkinds⟩ := hbody ⟨c, [], [], 0⟩
    have hend : (body c).cursor.ahead = [Vocabulary.eof] := by
      rw [← hcursor, Cursor.ahead, show t.cursor.kinds = [] from hkinds]
      rfl
    refine (hconserves ⟨c, []⟩).outcome.mono ?_
    rintro a u ⟨-, hu, hconserved⟩
    have hfollowed := hconserved.followed trivial
    rwa [hu, hend] at hfollowed
  obtain ⟨p, ms, hp, -, hms, houtline, -, -⟩ :=
    exists_marked (Q := fun _ ms => Shape.FollowedAll P [Vocabulary.eof]
      (ms.filterMap Marked.plain?)) hkind hbody hdraws text
  refine ⟨p, ms.filterMap Marked.plain?, hp, houtline, ?_⟩
  rw [houtline, Shape.followed_node_iff, Shape.followedAll_append_iff]
  exact ⟨hP _, hms, trivial, trivial⟩

/-! ## Tokens in place -/

section Places

variable {K : Type}

/-- The tokens of a child. -/
def Element.tokens : Element K → List (Leaf K)
  | .node n => n.tokens
  | .token l => [l]

/-- The tokens of a node are those of its children. -/
theorem Node.tokens_eq (n : Node K) : n.tokens = n.elements.flatMap Element.tokens := by
  have hfrom : ∀ (index : Nat) (place : Extent) (ts : List (Tree K)),
      (Tree.walkAll n index place ts).filterMap Visit.token? =
        (n.elementsFrom index place ts).flatMap Element.tokens := by
    intro index place ts
    induction ts generalizing index place with
    | nil => rfl
    | cons t ts ih =>
        rw [Tree.walkAll, List.filterMap_append, ih]
        cases t with
        | token kind text => rfl
        | node kind children =>
            rw [elementsFrom, List.flatMap_cons, Element.tokens, tokens, walk_eq]
            rfl
  rw [tokens, walk_eq, filterMap_token_enter_leave]
  exact hfrom 0 n.place.enter n.children

variable [Vocabulary K]

/-- The tokens below a node that are no trivia. -/
def Node.significantTokens (n : Node K) : List (Leaf K) := n.tokens.filter fun l => !l.isTrivia

/-- The tokens of a child that are no trivia. -/
def Element.significantTokens (e : Element K) : List (Leaf K) :=
  e.tokens.filter fun l => !l.isTrivia

theorem Node.significantTokens_eq (n : Node K) :
    n.significantTokens = n.significant.flatMap Element.significantTokens := by
  have hall : ∀ es : List (Element K), (es.flatMap Element.tokens).filter (fun l => !l.isTrivia) =
      (es.filter Element.isSignificant).flatMap Element.significantTokens := by
    intro es
    induction es with
    | nil => rfl
    | cons e es ih =>
        rw [List.flatMap_cons, List.filter_append, ih, List.filter_cons]
        cases e with
        | node m => rfl
        | token l =>
            cases htrivia : l.isTrivia <;>
              simp [Element.tokens, Element.isSignificant, Element.significantTokens, htrivia]
  rw [significantTokens, tokens_eq, hall, significant]

/-- The kinds of tokens in place are the leaves of the outline. -/
theorem Tree.map_kind_walkAll
    (ts : List (Tree K))
    (parent : Node K)
    (index : Nat)
    (place : Extent) :
    (((walkAll parent index place ts).filterMap Visit.token?).filter fun l => !l.isTrivia).map
        (fun l => l.kind) = (outlines ts).flatMap Shape.leaves := by
  have hlexemes : ((walkAll parent index place ts).filterMap Visit.token?).map Leaf.toLexeme =
      allLexemes ts := by
    have hmap := congrArg (List.map Located.toLexeme)
      (Tree.located_walkAll ts parent index place)
    rwa [map_toLexeme_locate, List.map_map] at hmap
  rw [← map_kind_bares, Shape.flatMap_leaves_map, leaves_bares, ← hlexemes, significantLexemes,
    List.filter_map, List.map_map]
  rfl

theorem Node.map_kind_significantTokens (n : Node K) :
    n.significantTokens.map (fun l => l.kind) =
      (Tree.outlines n.children).flatMap Shape.leaves := by
  rw [significantTokens, tokens, walk_eq, filterMap_token_enter_leave, Tree.map_kind_walkAll]

mutual

/-- A node of a tree in place stands between the tokens before and behind it, and has
whatever property the nodes of the tree have with regard to those behind. -/
theorem Tree.exists_split_of_mem_walk
    {P : K → List (Shape K K) → List K → Prop}
    (t : Tree K)
    {parent n : Node K}
    {index : Nat}
    {place : Extent}
    {rest : List K}
    (h : Shape.FollowedAll P rest t.outline)
    (hn : n ∈ (t.walk parent index place).filterMap Visit.entered?) :
    ∃ before after,
      (t.walk parent index place).filterMap Visit.token? = before ++ (n.tokens ++ after) ∧
      P n.kind (outlines n.children)
        ((after.filter fun l => !l.isTrivia).map (fun l => l.kind) ++ rest) := by
  cases t with
  | token kind text => simp [walk, Visit.entered?] at hn
  | node kind children =>
      obtain ⟨⟨hself, hchildren⟩, -⟩ := h
      rw [walk, filterMap_entered_enter_leave, List.mem_cons] at hn
      rw [walk, filterMap_token_enter_leave]
      rcases hn with rfl | hn
      · refine ⟨[], [], ?_, hself⟩
        rw [Node.tokens, Node.walk_eq, filterMap_token_enter_leave, List.append_nil]
        rfl
      · exact Tree.exists_split_of_mem_walkAll children hchildren hn

theorem Tree.exists_split_of_mem_walkAll
    {P : K → List (Shape K K) → List K → Prop}
    (ts : List (Tree K))
    {parent n : Node K}
    {index : Nat}
    {place : Extent}
    {rest : List K}
    (h : Shape.FollowedAll P rest (outlines ts))
    (hn : n ∈ (walkAll parent index place ts).filterMap Visit.entered?) :
    ∃ before after,
      (walkAll parent index place ts).filterMap Visit.token? = before ++ (n.tokens ++ after) ∧
      P n.kind (outlines n.children)
        ((after.filter fun l => !l.isTrivia).map (fun l => l.kind) ++ rest) := by
  cases ts with
  | nil => simp [walkAll] at hn
  | cons t ts =>
      rw [outlines, Shape.followedAll_append_iff] at h
      rw [walkAll, List.filterMap_append, List.mem_append] at hn
      rw [walkAll, List.filterMap_append]
      rcases hn with hn | hn
      · obtain ⟨before, after, htokens, hP⟩ := Tree.exists_split_of_mem_walk t h.1 hn
        refine ⟨before, after ++ (walkAll parent (index + 1) (place.add t.extent) ts).filterMap
          Visit.token?, ?_, ?_⟩
        · rw [htokens, List.append_assoc, List.append_assoc]
        · rwa [List.filter_append, List.map_append, List.append_assoc, Tree.map_kind_walkAll]
      · obtain ⟨before, after, htokens, hP⟩ := Tree.exists_split_of_mem_walkAll ts h.2 hn
        exact ⟨_ ++ before, after, by rw [htokens, List.append_assoc], hP⟩

end

theorem Element.significantTokens_token
    {l : Leaf K}
    (h : Element.isSignificant (.token l) = true) :
    (Element.token l).significantTokens = [l] :=
  List.filter_cons_of_pos h

/-- A child that is a token is one of the tokens of its parent. -/
theorem Node.significantTokens_of_token
    {n : Node K}
    {l : Leaf K}
    {before behind : List (Element K)}
    (h : n.significant = before ++ .token l :: behind) :
    n.significantTokens = before.flatMap Element.significantTokens ++
      l :: behind.flatMap Element.significantTokens := by
  have hl : Element.isSignificant (.token l) = true := by
    have hmem : .token l ∈ n.significant := by simp [h]
    exact (List.mem_filter.mp hmem).2
  rw [n.significantTokens_eq, h, List.flatMap_append, List.flatMap_cons,
    Element.significantTokens_token hl, List.singleton_append]

/-- The last token of a file is the last leaf of its outline. -/
theorem Root.kind_of_mem_getLast?
    {r : Root K}
    {kind last : K}
    {shapes : List (Shape K K)}
    (h : r.outline = .node kind (shapes ++ [.leaf last]))
    {l : Leaf K}
    (hl : l ∈ r.node.significantTokens.getLast?) :
    l.kind = last := by
  have hkinds := r.node.map_kind_significantTokens
  rw [show Tree.outlines r.node.children = shapes ++ [.leaf last] from (Shape.node.inj h).2,
    List.flatMap_append] at hkinds
  have hlast := congrArg List.getLast? hkinds
  rw [List.getLast?_map, Option.mem_def.mp hl] at hlast
  simpa using hlast

/-- The kinds of the tokens of children are the leaves of their outlines. -/
theorem Element.map_kind_significantTokens
    {es : List (Element K)}
    (h : ∀ e ∈ es, e.isSignificant = true) :
    (es.flatMap Element.significantTokens).map (fun l => l.kind) =
      (es.map Element.outline).flatMap Shape.leaves := by
  induction es with
  | nil => rfl
  | cons e es ih =>
      obtain ⟨he, hes⟩ := List.forall_mem_cons.mp h
      rw [List.flatMap_cons, List.map_append, ih hes, List.map_cons, List.flatMap_cons]
      congr 1
      cases e with
      | node n =>
          rw [outline, Node.outline, Shape.leaves_node, ← n.map_kind_significantTokens]
          rfl
      | token l => rw [significantTokens_token he]; rfl

/-- A node in place stands between the tokens before and behind it, and has whatever
property all nodes have with regard to those behind. -/
theorem Root.exists_split_of_mem
    {P : K → List (Shape K K) → List K → Prop}
    {r : Root K}
    (h : r.outline.Followed P [])
    {n : Node K}
    (hn : n ∈ r.node.descendants) :
    ∃ before after,
      r.node.significantTokens = before ++ (n.significantTokens ++ after) ∧
      P n.kind (Tree.outlines n.children) (after.map fun l => l.kind) := by
  obtain ⟨hself, hchildren⟩ := h
  rw [Node.descendants, Node.walk_eq, filterMap_entered_enter_leave, List.mem_cons] at hn
  rcases hn with rfl | hn
  · exact ⟨[], [], by simp, hself⟩
  · obtain ⟨before, after, htokens, hP⟩ := Tree.exists_split_of_mem_walkAll r.children hchildren hn
    refine ⟨before.filter fun l => !l.isTrivia, after.filter fun l => !l.isTrivia, ?_, ?_⟩
    · rw [Node.significantTokens, Node.tokens, Node.walk_eq, filterMap_token_enter_leave]
      rw [show r.node.children = r.children from rfl, htokens, List.filter_append,
        List.filter_append]
      rfl
    · rwa [List.append_nil] at hP

end Places
end ZigCst
