import ZigCst.Proofs.Refinement
import ZigCst.Proofs.Stream
import ZigCst.Proofs.ZigGrammar
import ZigCst.Proofs.ZonGrammar

/-!
# Parsing is total and lossless

A grammar whose trace grows a node of all its tokens gives a tree, and nothing of
the text is lost in it: its tokens are the lexemes of the text in place, blanks
and comments included.  Without these, it is the node that the trace grows.

**Definitions.**
* `Root.outline`: a tree without trivia and without texts.
* `Root.Keeps`: a tree has a kind, keeps a text and its lexemes, and all its nodes
  have proper kinds.

**Results.**
* `Root.located_tokens`: the tokens of a tree stand where their sizes add up to.
* `ofGrammar?_of_grow?`: a grammar that grows a node has a lossless tree.
* `exists_parse`: both grammars do, for every text.
-/

namespace ZigCst

/-! ## Tokens in place -/

section Places

variable {K : Type}

theorem locate_append
    (start : Nat)
    (ls ms : List (Lexeme K)) :
    locate start (ls ++ ms) = locate start ls ++ locate (start + (textOf ls).size) ms := by
  induction ls generalizing start with
  | nil => rfl
  | cons l ls ih =>
      rw [List.cons_append, locate, locate, ih, List.cons_append]
      rw [textOf, textOf, List.flatMap_cons, Text.size_append, Nat.add_assoc]

/-- A node adds no token of its own to the walk over its children. -/
theorem filterMap_token_enter_leave
    (n : Node K)
    (visits : List (Visit K)) :
    (Visit.enter n :: (visits ++ [Visit.leave n])).filterMap Visit.token? =
      visits.filterMap Visit.token? := by
  rw [List.filterMap_cons_none rfl, List.filterMap_append, List.filterMap_cons_none rfl]
  rw [List.filterMap_nil, List.append_nil]

/-- A node is entered before what the walk over its children enters. -/
theorem filterMap_entered_enter_leave
    (n : Node K)
    (visits : List (Visit K)) :
    (Visit.enter n :: (visits ++ [Visit.leave n])).filterMap Visit.entered? =
      n :: visits.filterMap Visit.entered? := by
  rw [List.filterMap_cons_some (f := Visit.entered?) rfl, List.filterMap_append]
  rw [List.filterMap_cons_none rfl]
  rw [List.filterMap_nil, List.append_nil]

mutual

theorem Tree.bytes_extent (t : Tree K) : t.extent.bytes = (textOf t.lexemes).size := by
  cases t with
  | token kind text => simp [extent, textOf]
  | node kind children => exact Tree.bytes_extents children

theorem Tree.bytes_extents (ts : List (Tree K)) :
    (extents ts).bytes = (textOf (allLexemes ts)).size := by
  cases ts with
  | nil => rfl
  | cons t ts =>
      rw [extents, allLexemes_cons, textOf, List.flatMap_append, Text.size_append]
      rw [Extent.add, Tree.bytes_extent t, Tree.bytes_extents ts]
      rfl

end

mutual

/-- The walk over a tree meets its tokens one after another. -/
theorem Tree.located_walk
    (t : Tree K)
    (parent : Node K)
    (index : Nat)
    (place : Extent) :
    ((t.walk parent index place).filterMap Visit.token?).map Leaf.located =
      locate place.bytes t.lexemes := by
  cases t with
  | token kind text => rfl
  | node kind children =>
      have hchildren :=
        Tree.located_walkAll children (parent.child index place kind children) 0 place.enter
      rw [walk, lexemes_node, filterMap_token_enter_leave]
      exact hchildren

theorem Tree.located_walkAll
    (ts : List (Tree K))
    (parent : Node K)
    (index : Nat)
    (place : Extent) :
    ((walkAll parent index place ts).filterMap Visit.token?).map Leaf.located =
      locate place.bytes (allLexemes ts) := by
  cases ts with
  | nil => rfl
  | cons t ts =>
      rw [walkAll, allLexemes_cons, List.filterMap_append, List.map_append, locate_append]
      rw [Tree.located_walk t, Tree.located_walkAll ts, ← Tree.bytes_extent t]
      rfl

end

/-- The tokens of a node are its lexemes in place. -/
theorem Node.map_located_tokens (n : Node K) :
    n.tokens.map Leaf.located = locate n.place.bytes (Tree.allLexemes n.children) := by
  rw [tokens, walk_eq, filterMap_token_enter_leave]
  exact Tree.located_walkAll n.children n 0 n.place.enter

/-- The tokens of a tree stand where the sizes before them add up to. -/
theorem Root.located_tokens (r : Root K) :
    r.node.tokens.map Leaf.located = locate 0 r.lexemes :=
  r.node.map_located_tokens

end Places

/-! ## Outlines -/

section Outlines

variable {K : Type} [Vocabulary K]

mutual

/-- A tree without trivia and without texts; nothing is left of trivia. -/
def Tree.outline : Tree K → List (Shape K K)
  | .token kind _ => if Vocabulary.isTrivia kind then [] else [.leaf kind]
  | .node kind children => [.node kind (Tree.outlines children)]

/-- Neighbouring trees without trivia and without texts. -/
def Tree.outlines : List (Tree K) → List (Shape K K)
  | [] => []
  | t :: ts => t.outline ++ Tree.outlines ts

end

/-- A whole tree without trivia and without texts. -/
def Root.outline (r : Root K) : Shape K K := .node r.kind (Tree.outlines r.children)

theorem Tree.outlines_append (ts us : List (Tree K)) :
    outlines (ts ++ us) = outlines ts ++ outlines us := by
  induction ts with
  | nil => rfl
  | cons t ts ih =>
      rw [List.cons_append, outlines, outlines, ih, List.append_assoc]

theorem outlines_map_tree (ls : List (Lexeme K)) :
    Tree.outlines (ls.map Lexeme.tree) =
      (ls.filter fun l => !Vocabulary.isTrivia l.kind).map fun l => .leaf l.kind := by
  induction ls with
  | nil => rfl
  | cons l ls ih =>
      rw [List.map_cons, Tree.outlines, ih, Lexeme.tree, Tree.outline]
      cases h : Vocabulary.isTrivia l.kind <;> simp [h]

/-- Only its kind is left of a group. -/
theorem Stretch.Grouped.outlines_cut
    {s : Stretch K}
    {text rest : Text}
    {ls : List (Lexeme K)}
    (hs : s.Grouped)
    (hcut : Piece.cut? s.pieces text = some (ls, rest)) :
    Tree.outlines (ls.map Lexeme.tree) = [.leaf s.kind] := by
  have hpieces := (Piece.cut?_eq_some_iff.mp hcut).1
  have hkinds : ls.map Lexeme.kind = s.pieces.map Piece.kind := by
    rw [← hpieces, List.map_map]
    rfl
  have hleaves : Tree.outlines (ls.map Lexeme.tree) =
      ((ls.map Lexeme.kind).filter fun kind => !Vocabulary.isTrivia kind).map .leaf := by
    rw [outlines_map_tree, List.filter_map, List.map_map]
    rfl
  have hnone : ∀ ps : List (Piece K), (∀ p ∈ ps, Vocabulary.isTrivia p.kind = true) →
      (ps.map Piece.kind).filter (fun kind => !Vocabulary.isTrivia kind) = [] := by
    intro ps hps
    simpa [List.filter_eq_nil_iff] using hps
  rw [hleaves, hkinds, Stretch.pieces, List.map_append, List.map_cons, List.filter_append]
  rw [hnone _ hs.leading, List.filter_cons_of_pos (by simp [hs.kind]), hnone _ hs.trailing]
  rfl

mutual

/-- Without its trivia, a tree is the plan that it was laid from. -/
theorem Plan.outlines_lay?
    (p : Plan K)
    {text rest : Text}
    {ts : List (Tree K)}
    (hp : ∀ s ∈ p.leaves, s.Grouped)
    (h : lay? p text = some (ts, rest)) :
    Tree.outlines ts = [p.map Stretch.kind] := by
  cases p with
  | leaf s =>
      rw [lay?] at h
      obtain ⟨⟨ls, rest'⟩, hcut, hls⟩ := Option.map_eq_some_iff.mp h
      obtain ⟨rfl, rfl⟩ := Prod.mk.inj hls
      exact (hp s (by simp)).outlines_cut hcut
  | node kind children =>
      rw [lay?] at h
      obtain ⟨⟨us, rest'⟩, hlay, hus⟩ := Option.map_eq_some_iff.mp h
      obtain ⟨rfl, rfl⟩ := Prod.mk.inj hus
      have hchildren := Plan.outlines_layAll? children (by simpa using hp) hlay
      rw [Tree.outlines, Tree.outline, Tree.outlines, hchildren, Shape.map_node]
      rfl

theorem Plan.outlines_layAll?
    (ps : List (Plan K))
    {text rest : Text}
    {ts : List (Tree K)}
    (hps : ∀ s ∈ ps.flatMap Shape.leaves, s.Grouped)
    (h : layAll? ps text = some (ts, rest)) :
    Tree.outlines ts = ps.map (Shape.map Stretch.kind) := by
  cases ps with
  | nil =>
      obtain ⟨rfl, rfl⟩ := Prod.mk.inj (Option.some.inj h)
      rfl
  | cons p ps =>
      rw [layAll?] at h
      obtain ⟨⟨us, rest₁⟩, hlay, h⟩ := Option.bind_eq_some_iff.mp h
      obtain ⟨⟨vs, rest₂⟩, hlay', hvs⟩ := Option.map_eq_some_iff.mp h
      obtain ⟨rfl, rfl⟩ := Prod.mk.inj hvs
      have hhead := Plan.outlines_lay? p (fun s hs => hps s (by simp [hs])) hlay
      have htail := Plan.outlines_layAll? ps (fun s hs => hps s (by simp_all)) hlay'
      rw [Tree.outlines_append, hhead, htail]
      rfl

end

mutual

/-- The walk enters no node of a kind that the outline lacks. -/
theorem Tree.kind_ne_of_mem_walk
    (t : Tree K)
    {kind : K}
    (ht : ∀ s ∈ t.outline, s.Lacks kind)
    {parent n : Node K}
    {index : Nat}
    {place : Extent}
    (hn : n ∈ (t.walk parent index place).filterMap Visit.entered?) :
    n.kind ≠ kind := by
  cases t with
  | token kind' text => simp [walk, Visit.entered?] at hn
  | node kind' children =>
      rw [outline, List.forall_mem_singleton, Shape.lacks_node_iff] at ht
      rw [walk, filterMap_entered_enter_leave] at hn
      rcases List.mem_cons.mp hn with rfl | hn
      · exact ht.1
      · exact Tree.kind_ne_of_mem_walkAll children ht.2 hn

theorem Tree.kind_ne_of_mem_walkAll
    (ts : List (Tree K))
    {kind : K}
    (hts : ∀ s ∈ outlines ts, s.Lacks kind)
    {parent n : Node K}
    {index : Nat}
    {place : Extent}
    (hn : n ∈ (walkAll parent index place ts).filterMap Visit.entered?) :
    n.kind ≠ kind := by
  cases ts with
  | nil => simp [walkAll] at hn
  | cons t ts =>
      rw [outlines] at hts
      rw [walkAll, List.filterMap_append, List.mem_append] at hn
      rcases hn with hn | hn
      · exact Tree.kind_ne_of_mem_walk t (fun s hs => hts s (by simp [hs])) hn
      · exact Tree.kind_ne_of_mem_walkAll ts (fun s hs => hts s (by simp [hs])) hn

end

/-- No node of a tree is of a kind that the outline lacks. -/
theorem Root.kind_ne_of_lacks
    {r : Root K}
    {kind : K}
    (hr : r.outline.Lacks kind)
    {n : Node K}
    (hn : n ∈ r.node.descendants) :
    n.kind ≠ kind := by
  rw [outline, Shape.lacks_node_iff] at hr
  rw [Node.descendants, Node.walk_eq, filterMap_entered_enter_leave] at hn
  rcases List.mem_cons.mp hn with rfl | hn
  · exact hr.1
  · exact Tree.kind_ne_of_mem_walkAll r.children hr.2 hn

end Outlines

/-! ## Parses -/

section Parses

variable {K : Type} [DecidableEq K] [Vocabulary K]

/-- Whether a tree of a kind keeps a text and the stream of its lexemes: its tokens
are the stream in place, the empty end of file is the last of them, and all its
nodes have proper kinds. -/
structure Root.Keeps (r : Root K) (kind : K) (text : Text) (stream : List (Lexeme K)) :
    Prop where
  kind : r.kind = kind
  text : r.text = text
  tokens : r.node.tokens.map Leaf.located = locate 0 stream
  last : ∃ front, stream = front ++ [⟨Vocabulary.eof, []⟩]
  proper : ∀ n ∈ r.node.descendants, n.kind ≠ Vocabulary.tombstone

variable [LawfulVocabulary K]

/-- The kinds of the significant lexemes of a stream before its end. -/
def significantKinds (stream : List (Lexeme K)) : List K :=
  (stream.dropLast.filter fun l => !Vocabulary.isTrivia l.kind).map Lexeme.kind

/-- The tokens that a text is parsed from. -/
def tokensWith (read : (c : Char) → (t : Text) → Reading K t) (text : Text) : List (Token K) :=
  group (locate 0 (lexWith read text))

section Tokens

variable (read : (c : Char) → (t : Text) → Reading K t) (text : Text)

omit [DecidableEq K] in
/-- The tokens take up the whole stream. -/
theorem flatMap_pieces_tokensWith :
    (tokensWith read text).flatMap (fun t => t.stretch.pieces) =
      (lexWith read text).map Lexeme.piece := by
  obtain ⟨front, hfront⟩ := exists_lexWith_eq read text
  rw [tokensWith, flatMap_pieces_group, map_piece_locate]
  intro l hl
  rw [hfront, locate_append] at hl
  simp only [locate, List.getLast?_append, List.getLast?_singleton, Option.some_or,
    Option.mem_def, Option.some.injEq] at hl
  obtain rfl := hl
  exact LawfulVocabulary.isTrivia_eof

omit [DecidableEq K] in
/-- The kinds of the tokens are those of the significant lexemes and the end of
file. -/
theorem map_kind_tokensWith :
    (tokensWith read text).map Token.kind =
      significantKinds (lexWith read text) ++ [Vocabulary.eof] := by
  obtain ⟨front, hfront⟩ := exists_lexWith_eq read text
  have hlocated :
      (locate 0 (lexWith read text)).map Located.toLexeme = front ++ [⟨Vocabulary.eof, []⟩] := by
    rw [map_toLexeme_locate, hfront]
  calc
    (tokensWith read text).map Token.kind
      = ((tokensWith read text).map Token.lexeme).map fun l => l.kind := by
          rw [List.map_map]
          rfl
    _ = (((locate 0 (lexWith read text)).map Located.toLexeme).filter
          fun l => !Vocabulary.isTrivia l.kind).map Lexeme.kind := by
          rw [tokensWith, map_lexeme_group, List.filter_map, List.map_map]
          rfl
    _ = significantKinds (lexWith read text) ++ [Vocabulary.eof] := by
          rw [hlocated, significantKinds, hfront, List.dropLast_concat, List.filter_append]
          simp [LawfulVocabulary.isTrivia_eof]

omit [DecidableEq K] in
/-- The grammar sees the significant lexemes before the end. -/
theorem map_kind_significant :
    (significant (tokensWith read text)).map Lexeme.kind =
      significantKinds (lexWith read text) := by
  have hkinds : (significant (tokensWith read text)).map Lexeme.kind =
      ((tokensWith read text).map Token.kind).dropLast := by
    rw [significant, List.map_map, List.map_dropLast]
    rfl
  rw [hkinds, map_kind_tokensWith, List.dropLast_concat]

omit [DecidableEq K] in
theorem length_tokensWith :
    (tokensWith read text).length = (significant (tokensWith read text)).length + 1 := by
  have htokens := congrArg List.length (map_kind_tokensWith read text)
  have hsignificant := congrArg List.length (map_kind_significant read text)
  simp only [List.length_map, List.length_append, List.length_singleton] at htokens hsignificant
  rw [htokens, hsignificant]

end Tokens

/-- A grammar that grows a node of its tokens has a tree, which keeps the text and
whose outline is that node. -/
theorem ofGrammar?_of_grow?
    {read : (c : Char) → (t : Text) → Reading K t}
    {grammar : Parser K Unit}
    {text : Text}
    {kind : K}
    {children : List (Shape K K)}
    (h : Shape.grow?
        ((significant (tokensWith read text)).map Lexeme.kind ++ [Vocabulary.eof])
        (grammar (.ofList (significant (tokensWith read text)))).trace =
      some (.node kind children)) :
    ∃ p,
      Parse.ofGrammar? (lexWith read) grammar text = some p ∧
      p.diagnostics = Trace.errors (tokensWith read text)
        (grammar (.ofList (significant (tokensWith read text)))).trace ∧
      p.root.Keeps kind text (lexWith read text) ∧
      p.root.outline = .node kind children := by
  have hlacks := Shape.lacks_of_grow? h
  -- The trace grows a plan of the tokens, and the node is what its kinds show.
  have hstretch : (tokensWith read text).map Token.kind =
      ((tokensWith read text).map Token.stretch).map Stretch.kind := by
    rw [List.map_map]
    rfl
  rw [map_kind_significant, ← map_kind_tokensWith, hstretch, Shape.grow?_map] at h
  obtain ⟨plan, hplan, hmap⟩ := Option.map_eq_some_iff.mp h
  obtain ⟨kind', children', rfl⟩ := Shape.exists_node_of_grow? hplan
  rw [Shape.map_node] at hmap
  obtain ⟨rfl, hchildren⟩ := Shape.node.inj hmap
  have hleaves := Shape.leaves_of_grow? hplan
  have hgrouped : ∀ s ∈ children'.flatMap Shape.leaves, s.Grouped := by
    rw [← Shape.leaves_node kind', hleaves]
    intro s hs
    obtain ⟨t, ht, rfl⟩ := List.mem_map.mp hs
    exact grouped_of_mem_group ht
  have hpieces : Plan.pieces (.node kind' children') = (lexWith read text).map Lexeme.piece := by
    rw [Plan.pieces, hleaves, List.flatMap_map, flatMap_pieces_tokensWith]
  have htext : textOf (lexWith read text) ++ [] = text := by
    rw [textOf_lexWith, List.append_nil]
  obtain ⟨ts, hlay, hroot, hlexemes⟩ :=
    Plan.exists_root (Piece.cut?_eq_some_iff.mpr ⟨hpieces.symm, htext⟩)
  have hbuild := (build?_eq_root? text hplan).trans hroot
  have houtline : (Root.mk kind' ts).outline = .node kind' children := by
    rw [Root.outline, Plan.outlines_layAll? children' hgrouped hlay, hchildren]
  refine ⟨⟨⟨kind', ts⟩, _⟩, ?_, rfl, ⟨rfl, ?_, ?_, exists_lexWith_eq read text, ?_⟩, houtline⟩
  · rw [tokensWith] at hbuild
    rw [Parse.ofGrammar?, hbuild]
    rfl
  · rw [Root.text, Root.lexemes, hlexemes, textOf_lexWith]
  · rw [Root.located_tokens, Root.lexemes, hlexemes]
  · intro n hn
    refine Root.kind_ne_of_lacks (r := ⟨kind', ts⟩) ?_ hn
    rw [houtline]
    exact hlacks

/-- A file whose body takes all lexemes has a tree that keeps its text. -/
theorem exists_ofGrammar?
    {read : (c : Char) → (t : Text) → Reading K t}
    {body : Parser K Unit}
    {kind : K}
    (hkind : kind ≠ Vocabulary.tombstone)
    (hbody : ∀ s : Site K, body.Ends s fun _ t => s.Grows t ∧ t.kinds = [])
    (text : Text) :
    ∃ p,
      Parse.ofGrammar? (lexWith read) (Parser.whole kind body) text = some p ∧
      p.root.Keeps kind text (lexWith read text) := by
  obtain ⟨t, -, hgrow, -⟩ := Parser.Ends.exists_grow? (Q := fun _ => True) hkind
    ((hbody (.ofList (significant (tokensWith read text)))).mono
      fun _ _ ht => ⟨ht.2, ht.1.behind, trivial⟩)
  obtain ⟨p, hp, -, hkeeps, -⟩ := ofGrammar?_of_grow? hgrow
  exact ⟨p, hp, hkeeps⟩

/-- **Parsing is total and lossless.**  Every text has a parse in both languages:
no run of a grammar gets stuck, its trace is recorded, replayed and built without a
refusal, and the tree keeps the text and all of its lexemes. -/
theorem exists_parse (text : Text) :
    (∃ p, Zig.parse? text = some p ∧ p.root.Keeps .sourceFile text (Zig.lex text)) ∧
      (∃ p, Zon.parse? text = some p ∧ p.root.Keeps .file text (Zon.lex text)) := by
  constructor
  · exact exists_ofGrammar? (by decide) (Zig.ends_containerMembers (Zig.sound_level maxDepth)) text
  · obtain ⟨p, hp, hkeeps⟩ : ∃ p,
        Parse.ofGrammar? Zon.lex Zon.file text = some p ∧
        p.root.Keeps .file text (Zon.lex text) :=
      exists_ofGrammar? (by decide) Zon.ends_document text
    refine ⟨{ p with diagnostics := p.diagnostics ++ Zon.duplicateWarnings p.root }, ?_, hkeeps⟩
    rw [Zon.parse?, hp]
    rfl

end Parses
end ZigCst
