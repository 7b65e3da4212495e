import ZigCst.Proofs.Scaffold
import ZigCst.Tree.Walk
import ZigCst.Zon.Kind

/-!
# Assembling a tree from a plan

A plan is an ordered tree of kinds whose leaves are significant tokens with the
trivia on both of their sides, known by kinds and lengths only.  Laying a text
over a plan cuts the text piece by piece and gives the tree that the plan stands
for.

**Building.**  A plan is given to a builder call by call: a node is started, its
children follow, the node is finished; a leaf is one call.  `perform_calls` says
that the calls of a plan add exactly the trees of the plan to the innermost open
node, and that they are refused exactly where the text cannot be cut.

**Walking.**  `map_sight_walkAll` says that the walk over these trees sees the
nodes and pieces of the plan in order: nodes numbered in preorder, every piece
with its number and with the range that the lengths before it determine.
-/

namespace ZigCst

/-- What a builder is told about a token. -/
def Token.stretch {K : Type} (t : Token K) : Stretch K :=
  ⟨t.leading, t.kind, t.range.length, t.trailing⟩

/-- A tree to be built, its tokens known by kinds and lengths. -/
abbrev Plan (K : Type) := Shape (Stretch K) K

/-- What a walk sees at a moment: a node by its number, a token by its number and
its range. -/
inductive Sight (K : Type) where
  | enter (kind : K) (id : Nat)
  | token (kind : K) (index : Nat) (range : Range)
  | leave (kind : K) (id : Nat)
deriving DecidableEq, Repr

/-- What is seen at a moment of the walk over a tree. -/
def Visit.sight {K : Type} : Visit K → Sight K
  | .enter n => .enter n.kind n.place.nodes
  | .token l => .token l.kind l.place.tokens l.range
  | .leave n => .leave n.kind n.place.nodes

namespace Sight

variable {K : Type}

/-- The number of the node that is entered. -/
def entered? : Sight K → Option Nat
  | .enter _ id => some id
  | _ => none

def isToken : Sight K → Bool
  | .token _ _ _ => true
  | _ => false

end Sight

/-- What is seen of neighbouring pieces, numbered from `index` on: each starts
where the lengths before it add up to. -/
def Piece.sights {K : Type} (index start : Nat) : List (Piece K) → List (Sight K)
  | [] => []
  | p :: ps =>
      .token p.kind index ⟨start, start + p.length⟩ ::
        sights (index + 1) (start + p.length) ps

namespace Plan

variable {K : Type}

/-- The pieces of all leaves in order. -/
def pieces (p : Plan K) : List (Piece K) := p.leaves.flatMap Stretch.pieces

mutual

/-- The trees of a plan over the beginning of a text, and the rest of it. -/
def lay? : Plan K → Text → Option (List (Tree K) × Text)
  | .leaf s, text =>
      (Piece.cut? s.pieces text).map fun (ls, rest) => (ls.map Lexeme.tree, rest)
  | .node kind children, text =>
      (layAll? children text).map fun (ts, rest) => ([.node kind ts], rest)

/-- The trees of neighbouring plans over the beginning of a text, and the rest. -/
def layAll? : List (Plan K) → Text → Option (List (Tree K) × Text)
  | [], text => some ([], text)
  | p :: ps, text =>
      (lay? p text).bind fun (ts, rest) =>
        (layAll? ps rest).map fun (us, rest) => (ts ++ us, rest)

end

/-- The tree of a plan over a whole text. -/
def root? (text : Text) : Plan K → Option (Root K)
  | .leaf _ => none
  | .node kind children =>
      match layAll? children text with
      | some (ts, []) => some ⟨kind, ts⟩
      | _ => none

mutual

/-- Nodes, tokens and bytes of a plan. -/
def extent : Plan K → Extent
  | .leaf s => ⟨0, s.pieces.length, Piece.total s.pieces⟩
  | .node _ children => (extents children).enter

/-- Nodes, tokens and bytes of neighbouring plans. -/
def extents : List (Plan K) → Extent
  | [] => .zero
  | p :: ps => (extent p).add (extents ps)

end

mutual

/-- What is seen of a plan at a place.  The place counts the nodes, the pieces and
the bytes before it. -/
def sights (place : Extent) : Plan K → List (Sight K)
  | .leaf s => Piece.sights place.tokens place.bytes s.pieces
  | .node kind children =>
      .enter kind place.nodes ::
        (sightsAll place.enter children ++ [Sight.leave kind place.nodes])

/-- What is seen of neighbouring plans. -/
def sightsAll (place : Extent) : List (Plan K) → List (Sight K)
  | [] => []
  | p :: ps => sights place p ++ sightsAll (place.add (extent p)) ps

end
end Plan

namespace Plan

variable {K : Type}

mutual

/-- The calls that build a plan. -/
def calls : Plan K → List (Call K)
  | .leaf s => [.token s]
  | .node kind children => .start kind :: (callsAll children ++ [Call.finish])

/-- The calls that build neighbouring plans. -/
def callsAll : List (Plan K) → List (Call K)
  | [] => []
  | p :: ps => calls p ++ callsAll ps

end
end Plan

/-! ## Building -/

section Building

variable {K : Type}

theorem toOption_bind
    {ε α β : Type}
    (x : Except ε α)
    (f : α → Except ε β) :
    (x >>= f).toOption = x.toOption.bind fun a => (f a).toOption := by
  cases x <;> rfl

theorem toOption_ok
    {ε α : Type}
    (a : α) :
    (Except.ok a : Except ε α).toOption = some a := rfl

theorem toOption_eq_some_iff
    {ε α : Type}
    {x : Except ε α}
    {a : α} :
    x.toOption = some a ↔ x = .ok a := by
  cases x <;> simp [Except.toOption]

/-- Pieces are added to the innermost open node as they are cut off the text. -/
theorem Scaffold.pushAll_toOption
    (size : Nat)
    (text : Text)
    (f : Frame K)
    (fs : List (Frame K))
    (root : Option (Root K))
    (ps : List (Piece K)) :
    ((Scaffold.mk size text (f :: fs) root).pushAll ps).toOption =
      (Piece.cut? ps text).map fun (ls, rest) =>
        ⟨size, rest, f.fill (ls.map Lexeme.tree) :: fs, root⟩ := by
  induction ps generalizing text f with
  | nil => rfl
  | cons p ps ih =>
      rw [pushAll_cons]
      rw [toOption_bind]
      rw [Piece.cut?]
      cases hcut : text.splitAt? p.length with
      | none =>
          rw [push]
          rw [hcut]
          rfl
      | some cut =>
          have hpush :
              (Scaffold.mk size text (f :: fs) root).push p.kind p.length =
                .ok ⟨size, cut.2, f.push (.token p.kind cut.1) :: fs, root⟩ := by
            rw [push]
            rw [hcut]
            rfl
          rw [hpush]
          rw [toOption_ok]
          dsimp only [Option.bind_some, Option.bind_eq_bind]
          rw [ih]
          cases Piece.cut? ps cut.2 with
          | none => rfl
          | some cuts => simp [Frame.fill, Frame.push, Lexeme.tree]

/-- A node that was filled with trees becomes the last child of the node around
it. -/
theorem Scaffold.perform_finish
    (size : Nat)
    (rest : Text)
    (kind : K)
    (ts : List (Tree K))
    (f : Frame K)
    (fs : List (Frame K))
    (root : Option (Root K)) :
    (Scaffold.mk size rest (Frame.fill ⟨kind, []⟩ ts :: f :: fs) root).perform [.finish] =
      .ok ⟨size, rest, f.fill [.node kind ts] :: fs, root⟩ := by
  have hclose : (Frame.fill ⟨kind, []⟩ ts).close.tree = .node kind ts := by
    simp [Frame.fill, Frame.close, Root.tree]
  have hfinish :
      (Scaffold.mk size rest (Frame.fill ⟨kind, []⟩ ts :: f :: fs) root).finishNode =
        .ok ⟨size, rest, f.push (Frame.fill ⟨kind, []⟩ ts).close.tree :: fs, root⟩ := rfl
  rw [perform_cons]
  rw [call]
  rw [hfinish]
  rw [hclose]
  rfl

mutual

/-- The calls of a plan add its trees to the innermost open node. -/
theorem Scaffold.perform_calls
    (size : Nat)
    (root : Option (Root K))
    (p : Plan K)
    (text : Text)
    (f : Frame K)
    (fs : List (Frame K)) :
    ((Scaffold.mk size text (f :: fs) root).perform (Plan.calls p)).toOption =
      (Plan.lay? p text).map fun (ts, rest) => ⟨size, rest, f.fill ts :: fs, root⟩ := by
  cases p with
  | leaf s =>
      rw [Plan.calls, perform_cons, call, toOption_bind]
      rw [pushAll_toOption, Plan.lay?]
      cases Piece.cut? s.pieces text <;> rfl
  | node kind children =>
      have hstart :
          (Scaffold.mk size text (f :: fs) root).call (.start kind) =
            .ok ⟨size, text, ⟨kind, []⟩ :: f :: fs, root⟩ := rfl
      rw [Plan.calls, perform_cons, toOption_bind, hstart, toOption_ok]
      dsimp only [Option.bind_some]
      rw [perform_append, toOption_bind, Scaffold.perform_callsAll, Plan.lay?]
      cases Plan.layAll? children text with
      | none => rfl
      | some laid =>
          dsimp only [Option.map_some, Option.bind_some]
          rw [perform_finish]
          rw [toOption_ok]

/-- The calls of neighbouring plans add their trees in order. -/
theorem Scaffold.perform_callsAll
    (size : Nat)
    (root : Option (Root K))
    (ps : List (Plan K))
    (text : Text)
    (f : Frame K)
    (fs : List (Frame K)) :
    ((Scaffold.mk size text (f :: fs) root).perform (Plan.callsAll ps)).toOption =
      (Plan.layAll? ps text).map fun (ts, rest) => ⟨size, rest, f.fill ts :: fs, root⟩ := by
  cases ps with
  | nil => rfl
  | cons p ps =>
      rw [Plan.callsAll, perform_append, toOption_bind, Scaffold.perform_calls, Plan.layAll?]
      cases Plan.lay? p text with
      | none => rfl
      | some laid =>
          dsimp only [Option.map_some, Option.bind_some]
          rw [Scaffold.perform_callsAll]
          cases Plan.layAll? ps laid.2 with
          | none => rfl
          | some laid' => simp [Frame.fill_append]

end

/-- A builder that is given a whole plan and then asked for the tree gives the
tree of the plan over its text. -/
theorem Scaffold.perform_calls_finish
    (text : Text)
    (kind : K)
    (children : List (Plan K)) :
    ((Scaffold.ofText text).perform (Plan.calls (.node kind children)) >>= finish).toOption =
      Plan.root? text (.node kind children) := by
  have hstart :
      (Scaffold.ofText text : Scaffold K).call (.start kind) =
        .ok ⟨text.size, text, [⟨kind, []⟩], none⟩ := rfl
  rw [Plan.calls, perform_cons, hstart, Plan.root?]
  rw [toOption_bind, toOption_bind, toOption_ok]
  dsimp only [Option.bind_some]
  rw [perform_append, toOption_bind, perform_callsAll]
  cases Plan.layAll? children text with
  | none => rfl
  | some laid =>
      obtain ⟨ts, rest⟩ := laid
      have hclose : (Frame.fill ⟨kind, []⟩ ts).close = ⟨kind, ts⟩ := by
        simp [Frame.fill, Frame.close]
      have hfinish :
          (Scaffold.mk text.size rest [Frame.fill ⟨kind, []⟩ ts] none).perform [.finish] =
            .ok ⟨text.size, rest, [], some (Frame.fill ⟨kind, []⟩ ts).close⟩ := rfl
      dsimp only [Option.map_some, Option.bind_some]
      rw [hfinish, toOption_ok, hclose]
      cases rest <;> rfl

end Building

/-! ## Tokens -/

section Tokens

variable {K : Type}

theorem Tree.allLexemes_append (ts us : List (Tree K)) :
    allLexemes (ts ++ us) = allLexemes ts ++ allLexemes us := by
  induction ts with
  | nil => rfl
  | cons t ts ih =>
      rw [List.cons_append]
      rw [allLexemes_cons, allLexemes_cons]
      rw [ih]
      rw [List.append_assoc]

@[simp]
theorem Tree.allLexemes_map_tree (ls : List (Lexeme K)) :
    allLexemes (ls.map Lexeme.tree) = ls := by
  induction ls with
  | nil => rfl
  | cons l ls ih =>
      rw [List.map_cons]
      rw [allLexemes_cons]
      rw [ih]
      rfl

theorem Plan.pieces_node
    (kind : K)
    (children : List (Plan K)) :
    pieces (.node kind children) = children.flatMap pieces := by
  rw [pieces]
  rw [Shape.leaves_node]
  rw [List.flatMap_assoc]
  rfl

mutual

/-- The tokens of the trees of a plan are its pieces, cut off the text. -/
theorem Plan.lexemes_lay?
    (p : Plan K)
    (text : Text) :
    ((lay? p text).map fun (ts, rest) => (Tree.allLexemes ts, rest)) =
      Piece.cut? (pieces p) text := by
  cases p with
  | leaf s =>
      have hpieces : pieces (.leaf s) = s.pieces := by
        simp [pieces]
      rw [lay?, hpieces]
      cases Piece.cut? s.pieces text with
      | none => rfl
      | some cuts => simp
  | node kind children =>
      rw [lay?, pieces_node]
      rw [← Plan.lexemes_layAll? children text]
      cases layAll? children text with
      | none => rfl
      | some laid => simp

theorem Plan.lexemes_layAll?
    (ps : List (Plan K))
    (text : Text) :
    ((layAll? ps text).map fun (ts, rest) => (Tree.allLexemes ts, rest)) =
      Piece.cut? (ps.flatMap pieces) text := by
  cases ps with
  | nil => rfl
  | cons p ps =>
      rw [layAll?, List.flatMap_cons, Piece.cut?_append]
      rw [← Plan.lexemes_lay? p text]
      cases lay? p text with
      | none => rfl
      | some laid =>
          dsimp only [Option.map_some, Option.bind_some]
          rw [← Plan.lexemes_layAll? ps laid.2]
          cases layAll? ps laid.2 with
          | none => rfl
          | some laid' => simp [Tree.allLexemes_append]

end

/-- A plan has a tree over a text if its pieces cut the text into lexemes, and
these are the tokens of the tree. -/
theorem Plan.exists_root
    {text : Text}
    {kind : K}
    {children : List (Plan K)}
    {ls : List (Lexeme K)}
    (h : Piece.cut? (pieces (.node kind children)) text = some (ls, [])) :
    ∃ ts,
      layAll? children text = some (ts, []) ∧
      root? text (.node kind children) = some ⟨kind, ts⟩ ∧
      Tree.allLexemes ts = ls := by
  rw [pieces_node] at h
  rw [← lexemes_layAll?] at h
  obtain ⟨⟨ts, rest⟩, hlay, hls⟩ := Option.map_eq_some_iff.mp h
  obtain ⟨rfl, rfl⟩ : Tree.allLexemes ts = ls ∧ rest = [] := by simpa using hls
  refine ⟨ts, hlay, ?_, rfl⟩
  rw [root?]
  rw [hlay]

end Tokens

/-! ## Walking -/

section Walking

variable {K : Type}

theorem Tree.extents_append (ts us : List (Tree K)) :
    extents (ts ++ us) = (extents ts).add (extents us) := by
  induction ts with
  | nil =>
      simp [extents, Extent.add, Extent.zero]
  | cons t ts ih =>
      rw [List.cons_append]
      rw [extents, extents]
      rw [ih]
      rw [Extent.add_assoc]

theorem Tree.walkAll_append
    (parent : Node K)
    (index : Nat)
    (place : Extent)
    (ts us : List (Tree K)) :
    walkAll parent index place (ts ++ us) =
      walkAll parent index place ts ++
        walkAll parent (index + ts.length) (place.add (extents ts)) us := by
  induction ts generalizing index place with
  | nil => rfl
  | cons t ts ih =>
      rw [List.cons_append]
      rw [walkAll, walkAll]
      rw [ih]
      rw [List.append_assoc]
      rw [extents]
      rw [Extent.add_assoc]
      rw [List.length_cons]
      rw [Nat.add_right_comm, Nat.add_assoc]

/-- Tokens in a row are seen as their pieces. -/
theorem map_sight_walkAll_map_tree
    (parent : Node K)
    (index : Nat)
    (place : Extent)
    (ls : List (Lexeme K)) :
    (Tree.walkAll parent index place (ls.map Lexeme.tree)).map Visit.sight =
      Piece.sights place.tokens place.bytes (ls.map Lexeme.piece) := by
  induction ls generalizing index place with
  | nil => rfl
  | cons l ls ih =>
      rw [List.map_cons, List.map_cons]
      rw [Tree.walkAll, Piece.sights]
      rw [List.map_append]
      rw [ih]
      rfl

theorem Tree.extents_map_tree (ls : List (Lexeme K)) :
    extents (ls.map Lexeme.tree) =
      ⟨0, ls.length, Piece.total (ls.map Lexeme.piece)⟩ := by
  induction ls with
  | nil => rfl
  | cons l ls ih =>
      rw [List.map_cons, List.map_cons]
      rw [extents]
      rw [ih]
      simp [Lexeme.tree, extent, Extent.add, Piece.total, Lexeme.piece, Nat.add_comm]

mutual

/-- The trees of a plan have its extent. -/
theorem Plan.extents_lay?
    {p : Plan K}
    {text rest : Text}
    {ts : List (Tree K)}
    (h : lay? p text = some (ts, rest)) :
    Tree.extents ts = extent p := by
  cases p with
  | leaf s =>
      rw [lay?] at h
      obtain ⟨⟨ls, rest'⟩, hcut, hts⟩ := Option.map_eq_some_iff.mp h
      obtain ⟨rfl, rfl⟩ : ls.map Lexeme.tree = ts ∧ rest' = rest := by simpa using hts
      obtain ⟨hls, -⟩ := Piece.cut?_eq_some_iff.mp hcut
      rw [Tree.extents_map_tree, extent, ← hls]
      rw [List.length_map]
  | node kind children =>
      rw [lay?] at h
      obtain ⟨⟨us, rest'⟩, hlay, hts⟩ := Option.map_eq_some_iff.mp h
      obtain ⟨rfl, rfl⟩ : [.node kind us] = ts ∧ rest' = rest := by simpa using hts
      rw [Tree.extents, Tree.extents, Tree.extent, extent]
      rw [Plan.extents_layAll? hlay]
      rw [Extent.add_zero]

theorem Plan.extents_layAll?
    {ps : List (Plan K)}
    {text rest : Text}
    {ts : List (Tree K)}
    (h : layAll? ps text = some (ts, rest)) :
    Tree.extents ts = extents ps := by
  cases ps with
  | nil =>
      rw [layAll?] at h
      obtain ⟨rfl, rfl⟩ : [] = ts ∧ text = rest := by simpa using h
      rfl
  | cons p ps =>
      rw [layAll?] at h
      obtain ⟨⟨us, rest'⟩, hlay, h⟩ := Option.bind_eq_some_iff.mp h
      obtain ⟨⟨vs, rest''⟩, hlay', hts⟩ := Option.map_eq_some_iff.mp h
      obtain ⟨rfl, rfl⟩ : us ++ vs = ts ∧ rest'' = rest := by simpa using hts
      rw [Tree.extents_append, extents]
      rw [Plan.extents_lay? hlay]
      rw [Plan.extents_layAll? hlay']

end

mutual

/-- The walk over the trees of a plan sees the plan. -/
theorem Plan.map_sight_walk
    {p : Plan K}
    {text rest : Text}
    {ts : List (Tree K)}
    (h : lay? p text = some (ts, rest))
    (parent : Node K)
    (index : Nat)
    (place : Extent) :
    (Tree.walkAll parent index place ts).map Visit.sight = sights place p := by
  cases p with
  | leaf s =>
      rw [lay?] at h
      obtain ⟨⟨ls, rest'⟩, hcut, hts⟩ := Option.map_eq_some_iff.mp h
      obtain ⟨rfl, rfl⟩ : ls.map Lexeme.tree = ts ∧ rest' = rest := by simpa using hts
      obtain ⟨hls, -⟩ := Piece.cut?_eq_some_iff.mp hcut
      rw [map_sight_walkAll_map_tree, sights, hls]
  | node kind children =>
      rw [lay?] at h
      obtain ⟨⟨us, rest'⟩, hlay, hts⟩ := Option.map_eq_some_iff.mp h
      obtain ⟨rfl, rfl⟩ : [.node kind us] = ts ∧ rest' = rest := by simpa using hts
      have hchildren :=
        Plan.map_sight_walkAll hlay (parent.child index place kind us) 0 place.enter
      rw [Tree.walkAll, Tree.walkAll, Tree.walk, sights]
      rw [← hchildren]
      simp [Visit.sight, Node.child]

theorem Plan.map_sight_walkAll
    {ps : List (Plan K)}
    {text rest : Text}
    {ts : List (Tree K)}
    (h : layAll? ps text = some (ts, rest))
    (parent : Node K)
    (index : Nat)
    (place : Extent) :
    (Tree.walkAll parent index place ts).map Visit.sight = sightsAll place ps := by
  cases ps with
  | nil =>
      rw [layAll?] at h
      obtain ⟨rfl, rfl⟩ : [] = ts ∧ text = rest := by simpa using h
      rfl
  | cons p ps =>
      rw [layAll?] at h
      obtain ⟨⟨us, rest'⟩, hlay, h⟩ := Option.bind_eq_some_iff.mp h
      obtain ⟨⟨vs, rest''⟩, hlay', hts⟩ := Option.map_eq_some_iff.mp h
      obtain ⟨rfl, rfl⟩ : us ++ vs = ts ∧ rest'' = rest := by simpa using hts
      rw [Tree.walkAll_append, List.map_append, sightsAll]
      rw [Plan.map_sight_walk hlay]
      rw [Plan.map_sight_walkAll hlay']
      rw [Plan.extents_lay? hlay]

end

/-- The walk over the root of a plan sees the whole plan. -/
theorem Plan.map_sight_root_walk
    {kind : K}
    {children : List (Plan K)}
    {text : Text}
    {ts : List (Tree K)}
    (h : layAll? children text = some (ts, [])) :
    (Root.mk kind ts).node.walk.map Visit.sight = sights .zero (.node kind children) := by
  have hchildren := map_sight_walkAll h (Root.mk kind ts).node 0 Extent.zero.enter
  rw [Node.walk_eq]
  rw [sights]
  rw [← hchildren]
  simp [Visit.sight, Root.node]

end Walking

/-! ## What a plan shows -/

section Sights

variable {K : Type}

theorem Piece.sights_append
    (index start : Nat)
    (ps qs : List (Piece K)) :
    sights index start (ps ++ qs) =
      sights index start ps ++ sights (index + ps.length) (start + total ps) qs := by
  induction ps generalizing index start with
  | nil => rfl
  | cons p ps ih =>
      rw [List.cons_append]
      rw [sights, sights]
      rw [ih]
      rw [total]
      rw [List.length_cons]
      rw [List.cons_append]
      rw [Nat.add_assoc, Nat.add_assoc, Nat.add_comm 1]

theorem Piece.total_append (ps qs : List (Piece K)) :
    total (ps ++ qs) = total ps + total qs := by
  induction ps with
  | nil => simp [total]
  | cons p ps ih =>
      rw [List.cons_append]
      rw [total, total]
      rw [ih]
      rw [Nat.add_assoc]

/-- Pieces are seen as tokens, and no node is entered between them. -/
theorem Piece.sights_eq_tokens
    (index start : Nat)
    (ps : List (Piece K)) :
    (sights index start ps).filter Sight.isToken = sights index start ps ∧
      (sights index start ps).filterMap Sight.entered? = [] := by
  induction ps generalizing index start with
  | nil => exact ⟨rfl, rfl⟩
  | cons p ps ih =>
      obtain ⟨htokens, hentered⟩ := ih (index + 1) (start + p.length)
      rw [sights]
      constructor
      · rw [List.filter_cons_of_pos rfl]
        rw [htokens]
      · rw [List.filterMap_cons_none rfl]
        exact hentered

mutual

/-- A plan has as many tokens and bytes as its pieces. -/
theorem Plan.extent_eq (p : Plan K) :
    (extent p).tokens = (pieces p).length ∧ (extent p).bytes = Piece.total (pieces p) := by
  cases p with
  | leaf s =>
      have hpieces : pieces (.leaf s) = s.pieces := by
        simp [pieces]
      rw [hpieces]
      exact ⟨rfl, rfl⟩
  | node kind children =>
      rw [pieces_node]
      exact Plan.extents_eq children

theorem Plan.extents_eq (ps : List (Plan K)) :
    (extents ps).tokens = (ps.flatMap pieces).length ∧
      (extents ps).bytes = Piece.total (ps.flatMap pieces) := by
  cases ps with
  | nil => exact ⟨rfl, rfl⟩
  | cons p ps =>
      obtain ⟨htokens, hbytes⟩ := Plan.extent_eq p
      obtain ⟨htokens', hbytes'⟩ := Plan.extents_eq ps
      rw [extents, List.flatMap_cons, List.length_append, Piece.total_append]
      rw [← htokens, ← htokens', ← hbytes, ← hbytes']
      exact ⟨rfl, rfl⟩

end

mutual

/-- The tokens seen of a plan are its pieces in order. -/
theorem Plan.filter_isToken_sights
    (p : Plan K)
    (place : Extent) :
    (sights place p).filter Sight.isToken =
      Piece.sights place.tokens place.bytes (pieces p) := by
  cases p with
  | leaf s =>
      have hpieces : pieces (.leaf s) = s.pieces := by
        simp [pieces]
      rw [sights, hpieces]
      exact (Piece.sights_eq_tokens _ _ _).1
  | node kind children =>
      rw [sights, pieces_node]
      rw [List.filter_cons_of_neg (by simp [Sight.isToken])]
      rw [List.filter_append]
      rw [Plan.filter_isToken_sightsAll children place.enter]
      simp [Sight.isToken, Extent.enter]

theorem Plan.filter_isToken_sightsAll
    (ps : List (Plan K))
    (place : Extent) :
    (sightsAll place ps).filter Sight.isToken =
      Piece.sights place.tokens place.bytes (ps.flatMap pieces) := by
  cases ps with
  | nil => rfl
  | cons p ps =>
      obtain ⟨htokens, hbytes⟩ := Plan.extent_eq p
      rw [sightsAll, List.filter_append, List.flatMap_cons, Piece.sights_append]
      rw [Plan.filter_isToken_sights p place]
      rw [Plan.filter_isToken_sightsAll ps _]
      rw [← htokens, ← hbytes]
      rfl

end

mutual

/-- The nodes of a plan are entered by their numbers. -/
theorem Plan.filterMap_entered_sights
    (p : Plan K)
    (place : Extent) :
    (sights place p).filterMap Sight.entered? =
      List.range' place.nodes (extent p).nodes := by
  cases p with
  | leaf s =>
      rw [sights, extent]
      exact (Piece.sights_eq_tokens _ _ _).2
  | node kind children =>
      rw [sights, extent]
      rw [List.filterMap_cons, List.filterMap_append]
      rw [Plan.filterMap_entered_sightsAll children place.enter]
      simp [Sight.entered?, Extent.enter, List.range'_succ]

theorem Plan.filterMap_entered_sightsAll
    (ps : List (Plan K))
    (place : Extent) :
    (sightsAll place ps).filterMap Sight.entered? =
      List.range' place.nodes (extents ps).nodes := by
  cases ps with
  | nil => rfl
  | cons p ps =>
      rw [sightsAll, List.filterMap_append, extents]
      rw [Plan.filterMap_entered_sights p place]
      rw [Plan.filterMap_entered_sightsAll ps _]
      exact List.range'_append_1

end

end Sights
end ZigCst
