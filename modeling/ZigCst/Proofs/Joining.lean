import ZigCst.Proofs.Lockstep
import ZigCst.Proofs.Trivia

/-!
# Parses side by side

What a run adds to the innermost node it adds to the children that are already there:
growth does not look below what it has added itself.
-/

namespace ZigCst

/-! ## Growth above other children -/

section Over

variable {α K : Type}

/-- The bed with children below those that it has. -/
def Bed.over (bottom : List (Shape α K)) (b : Bed α K) : Bed α K :=
  { b with children := b.children ++ bottom }

/-- The open nodes, the innermost first. -/
def Stage.beds : Stage α K → List (Bed α K)
  | .growing top below => top :: below
  | _ => []

/-- Whether a growing tree differs from another one in children at the bottom of the
outermost node of that one, and in nodes around it, only. -/
structure Growth.Over
    (bottom : List (Shape α K))
    (outer : List (Bed α K))
    (g g' : Growth α K) : Prop where
  ahead : g'.ahead = g.ahead
  beds : ∃ inner base,
    g.stage.beds = inner ++ [base] ∧ g'.stage.beds = inner ++ base.over bottom :: outer

variable [Vocabulary K] {bottom : List (Shape α K)} {outer : List (Bed α K)}

/-- A step that does not complete the outermost node is taken above other children. -/
theorem Growth.Over.exists_step
    {g g' h : Growth α K}
    {s : Step K}
    (hover : g.Over bottom outer g')
    (hstep : Steps g s h)
    (hgrowing : h.stage.beds ≠ []) :
    ∃ h', Steps g' s h' ∧ h.Over bottom outer h' := by
  obtain ⟨hahead, inner, base, hbeds, hbeds'⟩ := hover
  obtain ⟨ahead', stage'⟩ := g'
  cases stage' with
  | fresh => simp [Stage.beds] at hbeds'
  | grown shape => simp [Stage.beds] at hbeds'
  | growing top' below' =>
      cases hstep with
      | sow ahead => simp [Stage.beds] at hbeds
      | completeLast ahead top kind hkind => exact absurd rfl hgrowing
      | report g fault => exact ⟨_, .report _ fault, hahead, inner, base, hbeds, hbeds'⟩
      | start ahead top below =>
          obtain rfl : ahead' = ahead := hahead
          refine ⟨_, .start ahead' top' below', rfl, .empty :: inner, base, ?_, ?_⟩
          · exact congrArg (Bed.empty :: ·) hbeds
          · exact congrArg (Bed.empty :: ·) hbeds'
      | advance a ahead top below =>
          obtain rfl : ahead' = a :: ahead := hahead
          refine ⟨_, .advance a ahead top' below', rfl, ?_⟩
          cases inner with
          | nil =>
              obtain ⟨rfl, rfl⟩ := List.cons.inj hbeds
              obtain ⟨rfl, rfl⟩ := List.cons.inj hbeds'
              exact ⟨[], _, rfl, rfl⟩
          | cons bed inner =>
              obtain ⟨rfl, rfl⟩ := List.cons.inj hbeds
              obtain ⟨rfl, rfl⟩ := List.cons.inj hbeds'
              exact ⟨_ :: inner, base, rfl, rfl⟩
      | complete ahead top bed below kind hkind =>
          obtain rfl : ahead' = ahead := hahead
          cases inner with
          | nil => simp [Stage.beds] at hbeds
          | cons first inner =>
              obtain ⟨rfl, hbelow⟩ := List.cons.inj hbeds
              obtain ⟨rfl, rfl⟩ := List.cons.inj hbeds'
              cases inner with
              | nil =>
                  obtain ⟨rfl, rfl⟩ := List.cons.inj hbelow
                  exact ⟨_, .complete ahead' top' _ outer kind hkind, rfl, [], _, rfl, rfl⟩
              | cons second inner =>
                  obtain ⟨rfl, rfl⟩ := List.cons.inj hbelow
                  exact ⟨_, .complete ahead' top' bed _ kind hkind, rfl, _ :: inner, base, rfl, rfl⟩
      | precede ahead first kind children others below =>
          obtain rfl : ahead' = ahead := hahead
          cases inner with
          | nil =>
              obtain ⟨rfl, rfl⟩ := List.cons.inj hbeds
              obtain ⟨rfl, rfl⟩ := List.cons.inj hbeds'
              exact ⟨_, .precede ahead' first kind children (others ++ bottom) below', rfl, [_],
                ⟨first, others⟩, rfl, rfl⟩
          | cons bed inner =>
              obtain ⟨rfl, rfl⟩ := List.cons.inj hbeds
              obtain ⟨rfl, rfl⟩ := List.cons.inj hbeds'
              exact ⟨_, .precede ahead' first kind children others _, rfl, _ :: _ :: inner, base, rfl,
                rfl⟩

variable [DecidableEq K]

/-- Where nothing is open after a step, nothing is open after the steps behind it. -/
theorem Growth.beds_run
    {g g₁ h : Growth α K}
    {s : Step K}
    {trace : Trace K}
    (hstep : Steps g s g₁)
    (hrun : g₁.run trace = some h)
    (hg : g.stage.beds ≠ [])
    (hgrowing : h.stage.beds ≠ []) :
    g₁.stage.beds ≠ [] := by
  have hgrown : ∀ shape, g₁.stage ≠ .grown shape := by
    intro shape hshape
    have hlast : ∃ shape, h.stage = .grown shape := by
      refine run_induction (P := fun g => ∃ shape, g.stage = .grown shape) ?_ ⟨shape, hshape⟩ hrun
      rintro g₂ s g₃ ⟨shape, hshape⟩ hstep
      cases hstep with
      | report => exact ⟨shape, hshape⟩
      | _ => cases hshape
    obtain ⟨shape, hshape⟩ := hlast
    exact hgrowing (by rw [hshape]; rfl)
  cases hstep with
  | completeLast => exact absurd rfl (hgrown _)
  | report => exact hg
  | _ => exact List.cons_ne_nil _ _

/-- Growth that leaves the outermost node open is the same above other children. -/
theorem Growth.Over.exists_run
    {g g' h : Growth α K}
    {trace : Trace K}
    (hover : g.Over bottom outer g')
    (hrun : g.run trace = some h)
    (hgrowing : h.stage.beds ≠ []) :
    ∃ h', g'.run trace = some h' ∧ h.Over bottom outer h' := by
  induction trace generalizing g g' with
  | nil =>
      obtain rfl := Option.some.inj hrun
      exact ⟨g', rfl, hover⟩
  | cons s trace ih =>
      rw [run_cons] at hrun
      obtain ⟨g₁, hs, hrun⟩ := Option.bind_eq_some_iff.mp hrun
      have hstep := step_eq_some_iff.mp hs
      have hg : g.stage.beds ≠ [] := by
        obtain ⟨inner, base, hbeds, -⟩ := hover.beds
        simp [hbeds]
      obtain ⟨g₁', hs', hover₁⟩ := hover.exists_step hstep (beds_run hstep hrun hg hgrowing)
      obtain ⟨h', hrun', hover'⟩ := ih hover₁ hrun
      refine ⟨h', ?_, hover'⟩
      rw [run_cons, step_eq_some_iff.mpr hs']
      exact hrun'

/-- The site with children below those that it has. -/
def Site.over (bottom : List (Shape K K)) (s : Site K) : Site K :=
  { s with children := s.children ++ bottom }

/-- A run adds the same children above others. -/
theorem Site.Leads.over
    {s t : Site K}
    {trace : Trace K}
    (h : s.Leads trace t)
    (bottom : List (Shape K K)) :
    (s.over bottom).Leads trace (t.over bottom) := by
  refine ⟨fun first below => ?_, h.reports⟩
  have hover : Growth.Over bottom below ⟨s.ahead, .growing ⟨first, s.children⟩ []⟩
      ⟨s.ahead, .growing ⟨first, s.children ++ bottom⟩ below⟩ :=
    ⟨rfl, [], ⟨first, s.children⟩, rfl, rfl⟩
  obtain ⟨⟨ahead, stage⟩, hrun, hahead, inner, base, hbeds, hbeds'⟩ :=
    hover.exists_run (h.run first []) (List.cons_ne_nil _ _)
  obtain ⟨rfl, rfl⟩ : inner = [] ∧ base = ⟨first, t.children⟩ := by
    cases inner with
    | nil => exact ⟨rfl, (List.cons.inj hbeds).1.symm⟩
    | cons bed inner => simp [Stage.beds] at hbeds
  cases stage with
  | fresh => simp [Stage.beds] at hbeds'
  | grown shape => simp [Stage.beds] at hbeds'
  | growing top below' =>
      obtain ⟨rfl, rfl⟩ := List.cons.inj hbeds'
      obtain rfl : ahead = t.ahead := hahead
      exact hrun

/-- Growth looks at the leaves that it takes only. -/
theorem Growth.run_exchange
    {front behind : List α}
    {stage stage' : Stage α K}
    {trace : Trace K}
    (h : Growth.run ⟨front ++ behind, stage⟩ trace = some ⟨behind, stage'⟩)
    (behind' : List α) :
    Growth.run ⟨front ++ behind', stage⟩ trace = some ⟨behind', stage'⟩ := by
  induction trace generalizing front stage with
  | nil =>
      obtain ⟨hfront, rfl⟩ := Growth.mk.inj (Option.some.inj h)
      obtain rfl := List.append_left_eq_self.mp hfront
      rfl
  | cons s trace ih =>
      rw [run_cons] at h ⊢
      obtain ⟨g, hs, hrun⟩ := Option.bind_eq_some_iff.mp h
      suffices hstep : ∃ front' stage₁, g = ⟨front' ++ behind, stage₁⟩ ∧
          Steps ⟨front ++ behind', stage⟩ s ⟨front' ++ behind', stage₁⟩ by
        obtain ⟨front', stage₁, rfl, hstep⟩ := hstep
        rw [step_eq_some_iff.mpr hstep]
        exact ih hrun
      generalize hahead : front ++ behind = ahead at hs
      cases step_eq_some_iff.mp hs with
      | sow => exact ⟨front, _, by rw [hahead], .sow _⟩
      | start => exact ⟨front, _, by rw [hahead], .start _ _ _⟩
      | complete _ top bed below kind hkind =>
          exact ⟨front, _, by rw [hahead], .complete _ top bed below kind hkind⟩
      | completeLast _ top kind hkind =>
          exact ⟨front, _, by rw [hahead], .completeLast _ top kind hkind⟩
      | precede => exact ⟨front, _, by rw [hahead], .precede _ _ _ _ _ _⟩
      | report => exact ⟨front, _, by rw [hahead], .report _ _⟩
      | advance a ahead top below =>
          -- A leaf from behind would be missing in the end.
          have hlength := length_ahead_run hrun
          cases front with
          | nil =>
              obtain rfl : behind = a :: ahead := hahead
              simp only [List.length_cons] at hlength
              omega
          | cons b front =>
              obtain ⟨rfl, rfl⟩ := List.cons.inj hahead
              exact ⟨front, _, rfl, .advance b _ top below⟩

/-- A run leads to the same children wherever it takes the same lexemes. -/
theorem Site.Leads.exchange
    {c c' d d' : Cursor K}
    {behind : List K}
    {children children' : List (Shape K K)}
    {reports reports' : Nat}
    {trace : Trace K}
    {taken : List (Lexeme K)}
    (h : (Site.mk c behind children reports).Leads trace ⟨c', behind, children', reports'⟩)
    (hc : c.Takes taken c')
    (hd : d.Takes taken d')
    (behind' : List K) :
    (Site.mk d behind' children reports).Leads trace ⟨d', behind', children', reports'⟩ := by
  refine ⟨fun first below => ?_, h.reports⟩
  have hahead : ∀ {x x' : Cursor K}, x.Takes taken x' → ∀ behind : List K,
      x.kinds ++ behind = taken.map Lexeme.kind ++ (x'.kinds ++ behind) := by
    intro x x' hx behind
    rw [Cursor.kinds, hx.rest, List.map_append, List.append_assoc]
    rfl
  have hrun := h.run first below
  change Growth.run ⟨c.kinds ++ behind, _⟩ trace = some ⟨c'.kinds ++ behind, _⟩ at hrun
  change Growth.run ⟨d.kinds ++ behind', _⟩ trace = some ⟨d'.kinds ++ behind', _⟩
  rw [hahead hc] at hrun
  rw [hahead hd]
  exact Growth.run_exchange hrun _

/-- A run advances over the lexemes that it takes. -/
theorem Site.Leads.advances_eq
    {s t : Site K}
    {trace : Trace K}
    {taken : List (Lexeme K)}
    (h : s.Leads trace t)
    (hbehind : t.behind = s.behind)
    (htakes : s.cursor.Takes taken t.cursor) :
    Trace.advances trace = taken.length := by
  have hlength := Growth.length_ahead_run (h.run none [])
  simp only [Site.ahead, Site.kinds, Cursor.kinds, htakes.rest, hbehind, List.length_append,
    List.length_map] at hlength
  omega

omit [Vocabulary K] [DecidableEq K] in
theorem Parser.trace_discard_node
    (kind : K)
    (body : Parser K Unit)
    (c : Cursor K) :
    ((discard (node kind body) : Parser K Unit) c).trace =
      (Step.start :: (body c).trace) ++ [Step.complete kind] := by
  change Step.start :: ((body c).trace ++ [] ++ [Step.complete kind]) ++ [] = _
  simp

/-- What was completed last stands last. -/
theorem Site.Leads.exists_node_of_complete
    {s t : Site K}
    {trace : Trace K}
    {kind : K}
    (h : s.Leads (trace ++ [.complete kind]) t) :
    ∃ children others, t.children = .node kind children :: others := by
  have hrun := h.run none []
  rw [Growth.run_append] at hrun
  obtain ⟨g, -, hrun⟩ := Option.bind_eq_some_iff.mp hrun
  rw [Growth.run_cons] at hrun
  obtain ⟨g', hs, hrun⟩ := Option.bind_eq_some_iff.mp hrun
  have hg' := Option.some.inj hrun
  cases Growth.step_eq_some_iff.mp hs with
  | complete ahead top bed below kind hkind =>
      obtain ⟨hbed, -⟩ := Stage.growing.inj (Growth.mk.inj hg').2
      exact ⟨top.shapes, bed.children, (Bed.mk.inj hbed).2.symm⟩
  | completeLast ahead top kind hkind => simp at hg'
end Over

/-! ## Errors behind a part without any -/

section Errors

variable {K : Type} [DecidableEq K] [Vocabulary K]

/-- The diagnostic moved to the right. -/
def Diagnostic.shift (n : Nat) (d : Diagnostic) : Diagnostic :=
  { d with range := d.range.shift n }

/-- A trace without reports moves over the tokens that it takes. -/
theorem Trace.errors_append_of_quiet
    (tokens : List (Token K))
    (front rest : Trace K)
    (h : Trace.reports front = 0) :
    Trace.errors tokens (front ++ rest) =
      Trace.errors (tokens.drop (Trace.advances front)) rest := by
  fun_induction Trace.errors tokens front with
  | case1 tokens => rfl
  | case2 tokens front ih =>
      have hcons : Trace.advances (.advance :: front) = Trace.advances front + 1 := by
        rw [Nat.add_comm]
        exact Trace.advances_append [.advance] front
      rw [List.cons_append, Trace.errors, ih h, hcons, ← List.drop_one, List.drop_drop, Nat.add_comm]
  | case3 tokens fault front ih =>
      have hcons : Trace.reports (.report fault :: front) = 1 + Trace.reports front :=
        Trace.reports_append [.report fault] front
      omega
  | case4 tokens step front hadvance hreport ih =>
      rw [Trace.reports_cons_of_ne hreport] at h
      rw [List.cons_append, Trace.errors, ih h, Trace.advances_cons_of_ne hadvance]
      · exact hadvance
      · exact hreport

/-- Errors move with the tokens. -/
theorem Trace.errors_shift
    {tokens tokens' : List (Token K)}
    {n : Nat}
    (h : tokens'.map Token.range = tokens.map fun t => t.range.shift n)
    (trace : Trace K) :
    Trace.errors tokens' trace = (Trace.errors tokens trace).map (Diagnostic.shift n) := by
  induction trace generalizing tokens tokens' with
  | nil => rfl
  | cons step trace ih =>
      cases step with
      | advance =>
          rw [errors, errors]
          refine ih ?_
          rw [List.map_tail, h, List.map_tail]
      | report fault =>
          rw [errors, errors, List.map_append, ih h]
          refine congrArg (· ++ _) ?_
          cases tokens with
          | nil =>
              obtain rfl := List.map_eq_nil_iff.mp h
              rfl
          | cons t tokens =>
              cases tokens' with
              | nil => simp at h
              | cons t' tokens' =>
                  obtain ⟨hrange, -⟩ := List.cons.inj h
                  simp [hrange, Diagnostic.shift]
      | start => exact ih h
      | complete kind => exact ih h
      | precede => exact ih h
      | stuck => exact ih h

end Errors

/-! ## Trees in place without their trivia -/

namespace Shape

variable {α β γ K : Type}

mutual

theorem map_map
    (f : α → β)
    (g : β → γ)
    (s : Shape α K) :
    (s.map f).map g = s.map fun a => g (f a) := by
  cases s with
  | leaf a => rfl
  | node kind children =>
      rw [map_node, map_node, map_node, map_map_all f g children]

theorem map_map_all
    (f : α → β)
    (g : β → γ)
    (ss : List (Shape α K)) :
    (ss.map (map f)).map (map g) = ss.map (map fun a => g (f a)) := by
  cases ss with
  | nil => rfl
  | cons s ss =>
      rw [List.map_cons, List.map_cons, List.map_cons, map_map f g s, map_map_all f g ss]

end

/-- Whether a shape is a node. -/
def isNode : Shape α K → Bool
  | .leaf _ => false
  | .node _ _ => true

theorem filter_isNode_map
    (f : α → β)
    (ss : List (Shape α K)) :
    (ss.map (map f)).filter isNode = (ss.filter isNode).map (map f) := by
  have hnode : (isNode ∘ map f : Shape α K → Bool) = isNode := by
    funext s
    cases s <;> rfl
  rw [List.filter_map, hnode]

end Shape

section Placed

variable {K : Type} [Vocabulary K]

mutual

/-- A tree that starts at a position, without trivia, its tokens in place. -/
def Tree.placed (start : Nat) : Tree K → List (Shape (Located K) K)
  | .token kind text => if Vocabulary.isTrivia kind then [] else [.leaf ⟨⟨kind, text⟩, start⟩]
  | .node kind children => [.node kind (Tree.allPlaced start children)]

/-- Neighbouring trees without trivia, their tokens in place. -/
def Tree.allPlaced (start : Nat) : List (Tree K) → List (Shape (Located K) K)
  | [] => []
  | t :: ts => t.placed start ++ Tree.allPlaced (start + t.extent.bytes) ts

end

/-- A node without trivia, its tokens in place. -/
def Node.placed (n : Node K) : Shape (Located K) K :=
  .node n.kind (Tree.allPlaced n.place.bytes n.children)

/-- The lexeme moved to the right. -/
def Located.shift (n : Nat) (l : Located K) : Located K := { l with start := l.start + n }

mutual

theorem Tree.map_kind_placed
    (start : Nat)
    (t : Tree K) :
    (t.placed start).map (Shape.map fun l => l.kind) = t.outline := by
  cases t with
  | token kind text =>
      rw [placed, outline]
      split <;> rfl
  | node kind children =>
      rw [placed, outline, List.map_singleton, Shape.map_node, Tree.map_kind_allPlaced start children]

theorem Tree.map_kind_allPlaced
    (start : Nat)
    (ts : List (Tree K)) :
    (allPlaced start ts).map (Shape.map fun l => l.kind) = outlines ts := by
  cases ts with
  | nil => rfl
  | cons t ts =>
      rw [allPlaced, outlines, List.map_append, Tree.map_kind_placed start t,
        Tree.map_kind_allPlaced _ ts]

end

mutual

theorem Tree.leaves_placed
    (start : Nat)
    (t : Tree K) :
    (t.placed start).flatMap Shape.leaves = places start t.lexemes := by
  cases t with
  | token kind text =>
      rw [placed, lexemes_token, places]
      cases h : Vocabulary.isTrivia kind <;> simp [locate, Located.isTrivia, h]
  | node kind children =>
      rw [placed, lexemes_node, List.flatMap_singleton, Shape.leaves_node]
      exact Tree.leaves_allPlaced start children

theorem Tree.leaves_allPlaced
    (start : Nat)
    (ts : List (Tree K)) :
    (allPlaced start ts).flatMap Shape.leaves = places start (allLexemes ts) := by
  cases ts with
  | nil => rfl
  | cons t ts =>
      rw [allPlaced, allLexemes_cons, List.flatMap_append, places_append, Tree.leaves_placed start t,
        Tree.leaves_allPlaced _ ts, Tree.bytes_extent]

end

/-- The child nodes in place are the nodes among the children in place. -/
theorem Node.map_placed_elementsFrom
    (n : Node K)
    (index : Nat)
    (place : Extent)
    (ts : List (Tree K)) :
    ((n.elementsFrom index place ts).filterMap Element.node?).map Node.placed =
      (Tree.allPlaced place.bytes ts).filter Shape.isNode := by
  induction ts generalizing index place with
  | nil => rfl
  | cons t ts ih =>
      have hrest := ih (index + 1) (place.add t.extent)
      cases t with
      | token kind text =>
          rw [Node.elementsFrom, List.filterMap_cons_none rfl, Tree.allPlaced, Tree.placed,
            List.filter_append, hrest]
          cases Vocabulary.isTrivia kind <;> rfl
      | node kind children =>
          rw [Node.elementsFrom, List.filterMap_cons_some (f := Element.node?) rfl, Tree.allPlaced,
            Tree.placed, List.filter_append, List.map_cons, hrest]
          rfl

theorem Node.map_placed_childNodes (n : Node K) :
    n.childNodes.map Node.placed =
      (Tree.allPlaced n.place.bytes n.children).filter Shape.isNode :=
  n.map_placed_elementsFrom 0 n.place.enter n.children

/-- The kinds below a node. -/
def Node.outline (n : Node K) : Shape K K := .node n.kind (Tree.outlines n.children)

/-- The bare child nodes are the nodes among the bare children. -/
theorem Node.map_bare_childNodes (n : Node K) :
    n.childNodes.map Node.bare = (Tree.bares n.children).filter Shape.isNode := by
  have hfrom : ∀ (index : Nat) (place : Extent) (ts : List (Tree K)),
      ((n.elementsFrom index place ts).filterMap Element.node?).map Node.bare =
        (Tree.bares ts).filter Shape.isNode := by
    intro index place ts
    induction ts generalizing index place with
    | nil => rfl
    | cons t ts ih =>
        have hrest := ih (index + 1) (place.add t.extent)
        cases t with
        | token kind text =>
            rw [Node.elementsFrom, List.filterMap_cons_none rfl, Tree.bares, Tree.bare,
              List.filter_append, hrest]
            cases Vocabulary.isTrivia kind <;> rfl
        | node kind children =>
            rw [Node.elementsFrom, List.filterMap_cons_some (f := Element.node?) rfl, Tree.bares,
              Tree.bare, List.filter_append, List.map_cons, hrest]
            rfl
  exact hfrom 0 n.place.enter n.children

theorem Node.map_outline_childNodes (n : Node K) :
    n.childNodes.map Node.outline = (Tree.outlines n.children).filter Shape.isNode := by
  have hbare : (Node.outline : Node K → Shape K K) = Shape.map Lexeme.kind ∘ Node.bare := by
    funext n
    rw [Function.comp_apply, Node.bare, Shape.map_node, Tree.map_kind_bares]
    rfl
  rw [hbare, ← List.map_map, Node.map_bare_childNodes, ← Shape.filter_isNode_map,
    Tree.map_kind_bares]

omit [Vocabulary K] in
theorem locate_shift
    (start n : Nat)
    (ls : List (Lexeme K)) :
    locate (start + n) ls = (locate start ls).map (Located.shift n) := by
  induction ls generalizing start with
  | nil => rfl
  | cons l ls ih =>
      rw [locate, locate, List.map_cons, ← ih, Nat.add_right_comm]
      rfl

theorem places_shift
    (start n : Nat)
    (ls : List (Lexeme K)) :
    places (start + n) ls = (places start ls).map (Located.shift n) := by
  rw [places, places, locate_shift, List.filter_map]
  rfl

omit [Vocabulary K] in
theorem Located.range_shift
    (n : Nat)
    (l : Located K) :
    (l.shift n).range = l.range.shift n := by
  simp [Located.range, Located.shift, Range.ofText, Range.shift, Nat.add_right_comm]

/-- A node below the root stands among the children of the outline. -/
theorem Root.exists_childNode_of_mem
    {r : Root K}
    {kind top : K}
    {children shapes : List (Shape K K)}
    (h : r.outline = .node top shapes)
    (hmem : .node kind children ∈ shapes) :
    ∃ n ∈ r.node.childNodes, n.outline = .node kind children := by
  have hshapes : Tree.outlines r.node.children = shapes := (Shape.node.inj h).2
  have hnode : .node kind children ∈ (Tree.outlines r.node.children).filter Shape.isNode := by
    rw [hshapes]
    exact List.mem_filter.mpr ⟨hmem, rfl⟩
  rw [← Node.map_outline_childNodes] at hnode
  exact List.mem_map.mp hnode

/-- The child nodes of a tree whose tokens and children are those of two trees, one
behind the other, are those of both. -/
theorem Root.map_placed_childNodes_append
    {p q r : Root K}
    {kind last : K}
    {before behind : List (Shape K K)}
    {n : Nat}
    (hp : p.outline = .node kind (before ++ [Shape.leaf last]))
    (hq : q.outline = .node kind (behind ++ [Shape.leaf last]))
    (hr : r.outline = .node kind (before ++ (behind ++ [Shape.leaf last])))
    (hplaces : places 0 r.lexemes = (places 0 p.lexemes).dropLast ++ places n q.lexemes) :
    r.node.childNodes.map Node.placed =
      p.node.childNodes.map Node.placed ++
        (q.node.childNodes.map Node.placed).map (Shape.map (Located.shift n)) := by
  have houtlines : ∀ {r : Root K} {children : List (Shape K K)}, r.outline = .node kind children →
      (Tree.allPlaced 0 r.children).map (Shape.map fun l => l.kind) = children := by
    intro r children h
    rw [Tree.map_kind_allPlaced]
    exact (Shape.node.inj h).2
  have hleaves : ∀ r : Root K,
      (Tree.allPlaced 0 r.children).flatMap Shape.leaves = places 0 r.lexemes :=
    fun r => Tree.leaves_allPlaced 0 r.children
  -- The last child of the first tree is the end of file.
  obtain ⟨front, final, hfront, hbefore, hfinal⟩ := List.map_eq_append_iff.mp (houtlines hp)
  obtain ⟨s, rfl, hs⟩ := List.map_eq_singleton_iff.mp hfinal
  cases s with
  | node kind children => simp at hs
  | leaf l =>
      have hjoined : Tree.allPlaced 0 r.children =
          front ++ (Tree.allPlaced 0 q.children).map (Shape.map (Located.shift n)) := by
        refine Shape.all_eq_of_map_eq (f := fun l => l.kind) _ _ ?_ ?_
        · rw [houtlines hr, List.map_append, hbefore]
          refine congrArg (before ++ ·) ?_
          rw [← houtlines hq, Shape.map_map_all]
          rfl
        · rw [hleaves, hplaces, List.flatMap_append, Shape.flatMap_leaves_map, hleaves]
          rw [← hleaves p, hfront, List.flatMap_append, List.flatMap_singleton, Shape.leaves_leaf,
            List.dropLast_concat, ← places_shift, Nat.zero_add]
      rw [Node.map_placed_childNodes, Node.map_placed_childNodes, Node.map_placed_childNodes]
      change (Tree.allPlaced 0 r.children).filter Shape.isNode =
        (Tree.allPlaced 0 p.children).filter Shape.isNode ++
          ((Tree.allPlaced 0 q.children).filter Shape.isNode).map (Shape.map (Located.shift n))
      rw [hjoined, hfront, List.filter_append, List.filter_append, Shape.filter_isNode_map]
      simp [Shape.isNode]

variable [DecidableEq K] {read : (c : Char) → (t : Text) → Reading K t}

omit [DecidableEq K] in
theorem map_range_tokensWith (text : Text) :
    (tokensWith read text).map Token.range =
      (places 0 (lexWith read text)).map fun l => l.range := by
  rw [← map_lexeme_tokensWith, List.map_map]
  rfl

/-- Errors behind a text without errors are those of the other text in their new
places. -/
theorem Trace.errors_joined
    {a b whole : Text}
    {n : Nat}
    {front rest : Trace K}
    (hplaces : places 0 (lexWith read whole) =
      (places 0 (lexWith read a)).dropLast ++ places n (lexWith read b))
    (hquiet : Trace.reports front = 0)
    (hadvances : Trace.advances front = (significantLexemes (lexWith read a)).dropLast.length) :
    Trace.errors (tokensWith read whole) (front ++ rest) =
      (Trace.errors (tokensWith read b) rest).map (Diagnostic.shift n) := by
  rw [errors_append_of_quiet _ _ _ hquiet]
  refine errors_shift ?_ rest
  have hcount : ((places 0 (lexWith read a)).dropLast.map fun l => l.range).length =
      Trace.advances front := by
    rw [hadvances, List.length_map, List.length_dropLast, length_places, List.length_dropLast]
  have hshift := places_shift 0 n (lexWith read b)
  rw [Nat.zero_add] at hshift
  rw [List.map_drop, map_range_tokensWith, hplaces, List.map_append, ← hcount, List.drop_left,
    hshift, List.map_map]
  calc
    (places 0 (lexWith read b)).map ((fun l => l.range) ∘ Located.shift n)
      = (places 0 (lexWith read b)).map fun l => l.range.shift n := by
          exact List.map_congr_left fun l _ => l.range_shift n
    _ = ((places 0 (lexWith read b)).map fun l => l.range).map (Range.shift n) := by
          rw [List.map_map]
          rfl
    _ = (tokensWith read b).map fun t => t.range.shift n := by
          rw [← map_range_tokensWith, List.map_map]
          rfl

end Placed
end ZigCst
