import ZigCst.Proofs.Bare

/-!
# Trivia never change a parse

A grammar sees the significant lexemes only, so texts with the same significant
lexemes have the same trace.  Their trees agree up to trivia, and an error concerns
the same significant token in both.  The warnings of Zon are read off the tree: they
agree because alike nodes are asked the same questions, and because a name is a
single token however malformed the file is.

**Definitions.**
* `places`: the significant lexemes of a stream in place.
* `Diagnostic.Matches`: diagnostics of two texts say the same about the same token.
* `Parse.Agrees`: parses of two texts differ in trivia and positions only.

**Results.**
* `ofGrammar?_agrees`: parses by one grammar agree if the significant lexemes do.
* `Zon.matches_duplicateWarnings`: so do the warnings about repeated names.
* `parse?_agrees`: in both languages, trivia never change the parse.
-/

namespace ZigCst

/-! ## Significant lexemes in place -/

section Places

variable {K : Type} [Vocabulary K]

/-- The significant lexemes of a stream that starts at a position, in place. -/
def places (start : Nat) (stream : List (Lexeme K)) : List (Located K) :=
  (locate start stream).filter fun l => !l.isTrivia

theorem places_append
    (start : Nat)
    (ls ms : List (Lexeme K)) :
    places start (ls ++ ms) = places start ls ++ places (start + (textOf ls).size) ms := by
  rw [places, locate_append, List.filter_append]
  rfl

theorem places_cons
    (start : Nat)
    (l : Lexeme K)
    (ls : List (Lexeme K)) :
    places start (l :: ls) = places start [l] ++ places (start + l.text.size) ls := by
  have happend := places_append start [l] ls
  rw [List.singleton_append] at happend
  simpa [textOf] using happend

theorem map_toLexeme_places
    (start : Nat)
    (stream : List (Lexeme K)) :
    (places start stream).map Located.toLexeme = significantLexemes stream := by
  have hfilter := List.filter_map (f := Located.toLexeme)
    (p := fun l : Lexeme K => !Vocabulary.isTrivia l.kind) (l := locate start stream)
  rw [map_toLexeme_locate] at hfilter
  exact hfilter.symm

theorem length_places
    (start : Nat)
    (stream : List (Lexeme K)) :
    (places start stream).length = (significantLexemes stream).length := by
  rw [← map_toLexeme_places start, List.length_map]

/-- A node of one significant lexeme is trimmed to the place of that lexeme. -/
theorem Node.Stands.exists_trimmedRange_eq
    {stream : List (Lexeme K)}
    {rank : Nat}
    {n : Node K}
    {l : Lexeme K}
    (h : n.Stands stream rank)
    (hone : significantLexemes (Tree.allLexemes n.children) = [l]) :
    ∃ x, (places 0 stream)[rank]? = some x ∧ n.trimmedRange = x.range := by
  obtain ⟨before, after, hstream, hplace, hrank⟩ := h
  obtain ⟨x, hx⟩ : ∃ x, places n.place.bytes (Tree.allLexemes n.children) = [x] := by
    rw [← List.length_eq_one_iff, length_places, hone]
    rfl
  refine ⟨x, ?_, ?_⟩
  · rw [hstream, places_append, places_append, Nat.zero_add, ← hplace, hx]
    rw [← hrank, ← length_places 0, List.getElem?_append_right (Nat.le_refl _), Nat.sub_self]
    rfl
  · have hsignificant : (locate n.place.bytes (Tree.allLexemes n.children)).filter
        (fun l => !Vocabulary.isTrivia l.kind) = [x] := hx
    rw [Node.trimmedRange, hsignificant]
    rfl

end Places

/-! ## Agreement -/

section Agreement

variable {K : Type} [DecidableEq K] [Vocabulary K]

/-- Whether diagnostics of two texts have the same severity and the same message, and
the same member of the significant lexemes of each text as their range. -/
structure Diagnostic.Matches (xs ys : List (Located K)) (d e : Diagnostic) : Prop where
  severity : d.severity = e.severity
  message : d.message = e.message
  token : ∃ (rank : Nat) (x y : Located K),
    xs[rank]? = some x ∧ ys[rank]? = some y ∧ d.range = x.range ∧ e.range = y.range

/-- Whether parses of two streams have the same bare tree, and diagnostics that match
one by one. -/
structure Parse.Agrees (stream stream' : List (Lexeme K)) (p q : Parse K) : Prop where
  bare : p.root.bare = q.root.bare
  diagnostics : List.Forall₂ (Diagnostic.Matches (places 0 stream) (places 0 stream'))
    p.diagnostics q.diagnostics

/-- Errors of one trace over equally many tokens match. -/
theorem Trace.matches_errors
    {tokens tokens' : List (Token K)}
    (hlength : tokens.length = tokens'.length)
    (trace : Trace K)
    (taken : Nat) :
    List.Forall₂ (Diagnostic.Matches (tokens.map Token.lexeme) (tokens'.map Token.lexeme))
      (errors (tokens.drop taken) trace) (errors (tokens'.drop taken) trace) := by
  induction trace generalizing taken with
  | nil => exact .nil
  | cons step trace ih =>
      cases step with
      | advance =>
          rw [errors, errors, List.tail_drop, List.tail_drop]
          exact ih (taken + 1)
      | report fault =>
          rw [errors, errors, List.head?_drop, List.head?_drop]
          refine List.rel_append ?_ (ih taken)
          by_cases htaken : taken < tokens.length
          · have htaken' : taken < tokens'.length := hlength ▸ htaken
            rw [List.getElem?_eq_getElem htaken, List.getElem?_eq_getElem htaken']
            refine .cons ⟨rfl, rfl, taken, tokens[taken].lexeme, tokens'[taken].lexeme, ?_⟩ .nil
            simp [htaken, htaken', Token.range]
          · rw [List.getElem?_eq_none (by omega), List.getElem?_eq_none (by omega)]
            exact .nil
      | start => exact ih taken
      | complete kind => exact ih taken
      | precede => exact ih taken
      | stuck => exact ih taken

section Tokens

variable (read : (c : Char) → (t : Text) → Reading K t) (text : Text)

omit [DecidableEq K] in
theorem map_lexeme_tokensWith :
    (tokensWith read text).map Token.lexeme = places 0 (lexWith read text) := by
  rw [tokensWith, map_lexeme_group, places]

omit [DecidableEq K] in
/-- A grammar sees the significant lexemes before the end of file. -/
theorem significant_tokensWith :
    significant (tokensWith read text) = (significantLexemes (lexWith read text)).dropLast := by
  have hlexemes : (tokensWith read text).map (fun t => t.lexeme.toLexeme) =
      significantLexemes (lexWith read text) := by
    rw [← map_toLexeme_places 0, ← map_lexeme_tokensWith, List.map_map]
    rfl
  rw [significant, List.map_dropLast, hlexemes]

end Tokens

/-- Parses by one grammar agree if the significant lexemes do. -/
theorem ofGrammar?_agrees
    [LawfulVocabulary K]
    {read : (c : Char) → (t : Text) → Reading K t}
    {grammar : Parser K Unit}
    {a b : Text}
    {kind : K}
    {children : List (Shape K K)}
    (hsame : significantLexemes (lexWith read a) = significantLexemes (lexWith read b))
    (hgrow : Shape.grow?
        ((significant (tokensWith read a)).map Lexeme.kind ++ [Vocabulary.eof])
        (grammar (.ofList (significant (tokensWith read a)))).trace =
      some (.node kind children)) :
    ∃ p q,
      Parse.ofGrammar? (lexWith read) grammar a = some p ∧
      Parse.ofGrammar? (lexWith read) grammar b = some q ∧
      p.Agrees (lexWith read a) (lexWith read b) q ∧
      p.root.outline = .node kind children ∧
      p.root.lexemes = lexWith read a ∧
      q.root.lexemes = lexWith read b := by
  have hseen : significant (tokensWith read a) = significant (tokensWith read b) := by
    rw [significant_tokensWith, significant_tokensWith, hsame]
  have hgrow' := hgrow
  rw [hseen] at hgrow'
  obtain ⟨p, hp, hpdiagnostics, hpkeeps, hpoutline⟩ := ofGrammar?_of_grow? hgrow
  obtain ⟨q, hq, hqdiagnostics, hqkeeps, hqoutline⟩ := ofGrammar?_of_grow? hgrow'
  have hplexemes := hpkeeps.lexemes_eq
  have hqlexemes := hqkeeps.lexemes_eq
  refine ⟨p, q, hp, hq, ⟨?_, ?_⟩, hpoutline, hplexemes, hqlexemes⟩
  · refine Root.bare_eq (hpoutline.trans hqoutline.symm) ?_
    rw [hplexemes, hqlexemes, hsame]
  · have hlength : (tokensWith read a).length = (tokensWith read b).length := by
      rw [length_tokensWith, length_tokensWith, hseen]
    rw [hpdiagnostics, hqdiagnostics, hseen, ← map_lexeme_tokensWith, ← map_lexeme_tokensWith]
    exact Trace.matches_errors hlength _ 0

end Agreement

/-! ## Warnings in Zon -/

namespace Zon

/-- Whether a node is one identifier if it is a name, asked of a bare tree. -/
def BareNamesWhole (kind : Kind) (children : List (Shape (Lexeme Kind) Kind)) : Prop :=
  NamesWhole kind (children.map (Shape.map Lexeme.kind))

variable {stream stream' : List (Lexeme Kind)} {n m : Node Kind}

section Names

variable (h : n.Alike BareNamesWhole stream stream' m)
include h

/-- Alike names have the same value. -/
theorem identifierValue_eq : Identifier.value n = Identifier.value m := by
  have htoken : (n.token? .identifier).map Leaf.toLexeme =
      (m.token? .identifier).map Leaf.toLexeme := h.token?_eq rfl
  have htext := congrArg (fun l => (l.map Lexeme.text).getD []) htoken
  simp only [Option.map_map] at htext
  change Identifier.text n = Identifier.text m at htext
  rw [Identifier.value, Identifier.value, htext]

/-- Alike names are trimmed to the same significant lexeme. -/
theorem exists_trimmedRange_eq
    (hname : n.kind = .ident) :
    ∃ (rank : Nat) (x y : Located Kind),
      (places 0 stream)[rank]? = some x ∧ (places 0 stream')[rank]? = some y ∧
      n.trimmedRange = x.range ∧ m.trimmedRange = y.range := by
  have hchildren : (Tree.bares n.children).map (Shape.map Lexeme.kind) = [.leaf .identifier] :=
    (Shape.everywhere_node_iff.mp h.everywhere).1 hname
  obtain ⟨s, hs, hleaf⟩ := List.map_eq_singleton_iff.mp hchildren
  cases s with
  | node kind children => simp at hleaf
  | leaf l =>
      have hn : significantLexemes (Tree.allLexemes n.children) = [l] := by
        rw [← Tree.leaves_bares, hs]
        rfl
      have hm : significantLexemes (Tree.allLexemes m.children) = [l] := by
        rw [← Tree.leaves_bares, ← h.bares_eq, hs]
        rfl
      obtain ⟨rank, hnstands, hmstands⟩ := h.rank
      obtain ⟨x, hx, hxrange⟩ := hnstands.exists_trimmedRange_eq hn
      obtain ⟨y, hy, hyrange⟩ := hmstands.exists_trimmedRange_eq hm
      exact ⟨rank, x, y, hx, hy, hxrange, hyrange⟩

/-- The names of alike entries are alike. -/
theorem alike_key? :
    Option.Rel (fun k l => k.kind = .ident ∧ k.Alike BareNamesWhole stream stream' l)
      (Entry.key? n) (Entry.key? m) := by
  have hequals : n.hasToken .eq = m.hasToken .eq := h.hasToken_eq rfl
  rw [Entry.key?, Entry.key?, hequals]
  split
  · exact h.child? .ident
  · exact .none

theorem keyName?_eq : Struct.keyName? n = Struct.keyName? m := by
  have hkeys := alike_key? h
  rw [Struct.keyName?, Struct.keyName?]
  generalize Entry.key? n = key, Entry.key? m = key' at hkeys ⊢
  cases hkeys with
  | none => rfl
  | some hkey => rw [Option.map_some, Option.map_some, identifierValue_eq hkey.2]

/-- The warnings about alike entries match. -/
theorem matches_duplicateWarning? :
    Option.Rel (Diagnostic.Matches (places 0 stream) (places 0 stream'))
      (duplicateWarning? n) (duplicateWarning? m) := by
  have hkeys := alike_key? h
  rw [duplicateWarning?, duplicateWarning?]
  generalize Entry.key? n = key, Entry.key? m = key' at hkeys ⊢
  cases hkeys with
  | none => exact .none
  | some hkey =>
      refine .some ⟨rfl, ?_, exists_trimmedRange_eq hkey.2 hkey.1⟩
      simp only [identifierValue_eq hkey.2]

end Names

/-- Alike entries repeat the names of the same entries before. -/
theorem alike_duplicatesFrom
    (seen : List Text)
    {es fs : List (Node Kind)}
    (h : List.Forall₂ (Node.Alike BareNamesWhole stream stream') es fs) :
    List.Forall₂ (Node.Alike BareNamesWhole stream stream')
      (Struct.duplicatesFrom seen es) (Struct.duplicatesFrom seen fs) := by
  induction h generalizing seen with
  | nil => exact .nil
  | @cons e f es fs hef hrest ih =>
      rw [Struct.duplicatesFrom, Struct.duplicatesFrom, keyName?_eq hef]
      cases Struct.keyName? f with
      | none => exact ih seen
      | some name =>
          dsimp only
          split
          · exact .cons hef (ih seen)
          · exact ih (name :: seen)

/-- The warnings about repeated names match. -/
theorem matches_duplicateWarnings
    {r r' : Root Kind}
    (hbare : r.bare = r'.bare)
    (hnames : r.outline.Everywhere NamesWhole) :
    List.Forall₂ (Diagnostic.Matches (places 0 r.lexemes) (places 0 r'.lexemes))
      (duplicateWarnings r) (duplicateWarnings r') := by
  rw [← Root.map_kind_bare, Shape.everywhere_map] at hnames
  have halike := Root.alike_descendants (P := BareNamesWhole) hbare hnames
  have hstructs := List.rel_filter
    (p := fun n : Node Kind => n.kind == .struct) (q := fun n : Node Kind => n.kind == .struct)
    (fun _ _ h => by simp only [Node.Alike.kind_eq h]) halike
  refine List.rel_flatMap hstructs fun n m hnm => ?_
  have hduplicates := alike_duplicatesFrom [] (hnm.childrenOf .entry)
  exact List.rel_filterMap (fun e f hef => matches_duplicateWarning? hef) hduplicates

end Zon

/-! ## Both languages -/

/-- **Trivia never change the parse.**  In both languages, texts with the same
significant lexemes have parses with the same bare tree, and with as many
diagnostics, in the same order: each has the severity, the message and the
significant token of the other. -/
theorem parse?_agrees (a b : Text) :
    (significantLexemes (Zig.lex a) = significantLexemes (Zig.lex b) →
      ∃ p q,
        Zig.parse? a = some p ∧ Zig.parse? b = some q ∧ p.Agrees (Zig.lex a) (Zig.lex b) q) ∧
    (significantLexemes (Zon.lex a) = significantLexemes (Zon.lex b) →
      ∃ p q,
        Zon.parse? a = some p ∧ Zon.parse? b = some q ∧ p.Agrees (Zon.lex a) (Zon.lex b) q) := by
  constructor
  · intro hsame
    have hkind : Zig.Kind.sourceFile ≠ Vocabulary.tombstone := by decide
    have hends := Zig.ends_containerMembers (Zig.sound_level maxDepth)
      (.ofList (significant (tokensWith Zig.read a)))
    obtain ⟨t, -, hgrow, -⟩ := Parser.Ends.exists_grow? (Q := fun _ => True) hkind
      (hends.mono fun _ _ ht => ⟨ht.2, ht.1.behind, trivial⟩)
    obtain ⟨p, q, hp, hq, hagrees, -, -, -⟩ := ofGrammar?_agrees hsame hgrow
    exact ⟨p, q, hp, hq, hagrees⟩
  · intro hsame
    have hkind : Zon.Kind.file ≠ Vocabulary.tombstone := by decide
    have hends := (Zon.ends_document (.ofList (significant (tokensWith Zon.read a)))).and
      (Zon.upholds_document _)
    obtain ⟨t, hnames, hgrow, -⟩ := Parser.Ends.exists_grow?
      (Q := fun t => t.Everywhere Zon.NamesWhole) hkind
      (hends.mono fun _ _ ht => ⟨ht.1.2, ht.1.1.behind, ht.2 (Site.everywhere_opened (.ofList _))⟩)
    obtain ⟨p, q, hp, hq, hagrees, houtline, hplexemes, hqlexemes⟩ := ofGrammar?_agrees hsame hgrow
    have heverywhere : p.root.outline.Everywhere Zon.NamesWhole := by
      rw [houtline, Shape.everywhere_node_iff]
      refine ⟨Zon.namesWhole_of_ne (by decide) _, fun c hc => ?_⟩
      rcases List.mem_append.mp hc with hc | hc
      · exact hnames c (List.mem_reverse.mp hc)
      · obtain rfl := List.mem_singleton.mp hc
        exact Shape.everywhere_leaf _
    have hwarnings := Zon.matches_duplicateWarnings hagrees.bare heverywhere
    rw [hplexemes, hqlexemes] at hwarnings
    exact ⟨_, _, Zon.parse?_of_ofGrammar? hp, Zon.parse?_of_ofGrammar? hq, hagrees.bare,
      List.rel_append hagrees.diagnostics hwarnings⟩

/-- The second name repeats the first in both Zon texts. -/
theorem parse?_agrees_commented :
    (∃ p q,
      Zig.parse? "fn f( // none\n) void".toList = some p ∧
      Zig.parse? "fn f()void".toList = some q ∧
      p.Agrees (Zig.lex "fn f( // none\n) void".toList) (Zig.lex "fn f()void".toList) q) ∧
    (∃ p q,
      Zon.parse? ".\x7b .a = 1, // one\n .a = 2 \x7d".toList = some p ∧
      Zon.parse? ".\x7b.a=1,.a=2\x7d".toList = some q ∧
      p.Agrees (Zon.lex ".\x7b .a = 1, // one\n .a = 2 \x7d".toList)
        (Zon.lex ".\x7b.a=1,.a=2\x7d".toList) q) :=
  ⟨(parse?_agrees _ _).1 (by decide +kernel), (parse?_agrees _ _).2 (by decide +kernel)⟩

end ZigCst
