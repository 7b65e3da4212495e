import ZigCst.Proofs.Tiling
import ZigCst.Proofs.Trivia

/-!
# Where diagnostics stand

A fault is reported at the token that the run has reached, and a run only goes
forward, so the errors of a trace stand in the order of the text.  This needs
nothing of the grammar: it holds of every trace over tokens in place.

The warnings of Zon are read off the tree.  They stand behind all errors, each at a
name, and a name is a single identifier however malformed the file is.

**Definitions.**
* `Diagnostic.Marks text stream P`: a diagnostic has the range of a token whose kind
  satisfies `P`.
* `Diagnostic.AllErrors`: errors in the order of the text, all at significant tokens.

**Results.**
* `Trace.pairwise_errors`: the errors of a trace are in order.
* `Zon.exists_identifier_of_mem_duplicateWarnings`: warnings stand at identifiers.
* `exists_parse_diagnostics`: the diagnostics of every parse in both languages.
-/

namespace ZigCst

/-! ## Errors of a trace -/

section Errors

variable {K : Type} [DecidableEq K] [Vocabulary K]

/-- An error has the range of one of the tokens. -/
theorem Trace.exists_range_of_mem_errors
    {tokens : List (Token K)}
    {trace : Trace K}
    {d : Diagnostic}
    (h : d ∈ Trace.errors tokens trace) :
    ∃ t ∈ tokens, d.range = t.range := by
  fun_induction Trace.errors tokens trace with
  | case1 => simp at h
  | case2 tokens trace ih =>
      obtain ⟨t, ht, hrange⟩ := ih h
      exact ⟨t, List.mem_of_mem_tail ht, hrange⟩
  | case3 tokens fault trace ih =>
      rcases List.mem_append.mp h with h | h
      · obtain ⟨t, ht, rfl⟩ := Option.map_eq_some_iff.mp (Option.mem_toList.mp h)
        exact ⟨t, List.mem_of_mem_head? ht, rfl⟩
      · exact ih h
  | case4 tokens step trace hadvance hreport ih => exact ih h

/-- A run goes forward: errors over tokens in order are in order. -/
theorem Trace.pairwise_errors
    {tokens : List (Token K)}
    (htokens : tokens.Pairwise fun t u => t.range.start ≤ u.range.start)
    (trace : Trace K) :
    (Trace.errors tokens trace).Pairwise fun d e => d.range.start ≤ e.range.start := by
  fun_induction Trace.errors tokens trace with
  | case1 => exact .nil
  | case2 tokens trace ih => exact ih htokens.tail
  | case3 tokens fault trace ih =>
      cases tokens with
      | nil => exact ih htokens
      | cons t tokens =>
          -- Later errors stand at the token reached here or behind it.
          refine .cons (fun e he => ?_) (ih htokens)
          obtain ⟨u, hu, hrange⟩ := Trace.exists_range_of_mem_errors he
          rw [hrange]
          rcases List.mem_cons.mp hu with rfl | hu
          · exact Nat.le_refl _
          · exact List.rel_of_pairwise_cons htokens hu
  | case4 tokens step trace hadvance hreport ih => exact ih htokens

omit [DecidableEq K] [Vocabulary K] in
/-- Lexemes in place stand in order. -/
theorem pairwise_locate
    (start : Nat)
    (ls : List (Lexeme K)) :
    (locate start ls).Pairwise fun l m => l.range.stop ≤ m.range.start := by
  induction ls generalizing start with
  | nil => exact .nil
  | cons l ls ih =>
      refine .cons (fun m hm => ?_) (ih _)
      obtain ⟨before, after, -, hstart⟩ := exists_split_of_mem_locate hm
      exact (Nat.le_add_right _ _).trans_eq hstart.symm

omit [DecidableEq K] in
/-- So do the tokens that a text is parsed from. -/
theorem pairwise_tokensWith
    (read : (c : Char) → (t : Text) → Reading K t)
    (text : Text) :
    (tokensWith read text).Pairwise fun t u => t.range.start ≤ u.range.start := by
  have hplaces : (places 0 (lexWith read text)).Pairwise fun l m => l.start ≤ m.start :=
    ((pairwise_locate 0 _).imp fun {l m} hlm => (Nat.le_add_right l.start _).trans hlm).filter _
  rw [← map_lexeme_tokensWith, List.pairwise_map] at hplaces
  exact hplaces

end Errors

/-! ## Diagnostics at tokens -/

section Marks

variable {K : Type} [Vocabulary K]

/-- Whether a diagnostic has the range of a token whose kind satisfies `P`, the empty
range at the end of the text if it is the end of file.  The range lies inside the
text, between two characters. -/
structure Diagnostic.Marks
    (text : Text)
    (stream : List (Lexeme K))
    (P : K → Prop)
    (d : Diagnostic) : Prop where
  token : ∃ l ∈ locate 0 stream, P l.kind ∧ d.range = l.range ∧
    (l.kind = Vocabulary.eof → d.range = .empty text.size)
  inside : d.range.start ≤ d.range.stop ∧ d.range.stop ≤ text.size
  boundary : (text.splitAt? d.range.start).isSome ∧ (text.splitAt? d.range.stop).isSome

/-- Whether diagnostics are errors in the order of the text, each at a significant
token. -/
structure Diagnostic.AllErrors
    (text : Text)
    (stream : List (Lexeme K))
    (ds : List Diagnostic) : Prop where
  severity : ∀ d ∈ ds, d.severity = .error
  sorted : ds.Pairwise fun d e => d.range.start ≤ e.range.start
  marks : ∀ d ∈ ds, d.Marks text stream fun kind => Vocabulary.isTrivia kind = false

theorem Text.le_size_of_splitAt?
    {text : Text}
    {n : Nat}
    (h : (text.splitAt? n).isSome) :
    n ≤ text.size := by
  obtain ⟨⟨s, r⟩, hsplit⟩ := Option.isSome_iff_exists.mp h
  obtain ⟨rfl, rfl⟩ := Text.splitAt?_eq_some hsplit
  rw [Text.size_append]
  exact Nat.le_add_right _ _

/-- A diagnostic with the range of a token that tiles a text marks that token. -/
theorem Tiles.marks
    {text : Text}
    {stream : List (Lexeme K)}
    {P : K → Prop}
    {d : Diagnostic}
    {l : Located K}
    (h : Tiles text (locate 0 stream))
    (hl : l ∈ locate 0 stream)
    (hkind : P l.kind)
    (hrange : d.range = l.range) :
    d.Marks text stream P := by
  obtain ⟨hstart, hstop⟩ := h.boundary l hl
  rw [← hrange] at hstart hstop
  refine ⟨⟨l, hl, hkind, hrange, fun heof => ?_⟩, ⟨?_, ?_⟩, hstart, hstop⟩
  · obtain ⟨front, hfront, hproper⟩ := h.last
    rw [hfront] at hl
    rcases List.mem_append.mp hl with hl | hl
    · exact absurd heof (hproper l hl).1
    · obtain rfl := List.mem_singleton.mp hl
      rw [hrange]
      rfl
  · rw [hrange]
    exact Nat.le_add_right _ _
  · exact Text.le_size_of_splitAt? hstop

variable [DecidableEq K]
  {read : (c : Char) → (t : Text) → Reading K t}
  {kinds : List K}

omit [DecidableEq K] in
theorem tiles_lexWith
    (hread : ∀ c t, (read c t).Keeps kinds c)
    (text : Text) :
    Tiles text (locate 0 (lexWith read text)) := by
  obtain ⟨front, hfront, hkeeps⟩ := exists_lexWith_keeps hread text
  have htiles := tiles_locate fun l hl => (hkeeps l hl).1
  rwa [← hfront, textOf_lexWith] at htiles

/-- The errors of every trace over the tokens of a text. -/
theorem allErrors_errors
    (hread : ∀ c t, (read c t).Keeps kinds c)
    (text : Text)
    (trace : Trace K) :
    Diagnostic.AllErrors text (lexWith read text)
      (Trace.errors (tokensWith read text) trace) where
  severity := fun _ hd => Trace.severity_of_mem_errors hd
  sorted := Trace.pairwise_errors (pairwise_tokensWith read text) trace
  marks := by
    intro d hd
    obtain ⟨t, ht, hrange⟩ := Trace.exists_range_of_mem_errors hd
    have hplace : t.lexeme ∈ places 0 (lexWith read text) := by
      rw [← map_lexeme_tokensWith]
      exact List.mem_map_of_mem ht
    obtain ⟨hmem, htrivia⟩ := List.mem_filter.mp hplace
    have hkind : Vocabulary.isTrivia t.lexeme.kind = false := by
      simpa [Located.isTrivia] using htrivia
    exact (tiles_lexWith hread text).marks hmem hkind hrange

end Marks

/-! ## Warnings in Zon -/

namespace Zon

/-- A name has the range of an identifier of the stream. -/
theorem exists_identifier_of_name
    {stream : List (Lexeme Kind)}
    {n : Node Kind}
    (h : n.Alike BareNamesWhole stream stream n)
    (hname : n.kind = .ident) :
    ∃ x ∈ locate 0 stream, x.kind = .identifier ∧ n.trimmedRange = x.range := by
  have hchildren : (Tree.bares n.children).map (Shape.map Lexeme.kind) = [.leaf .identifier] :=
    (Shape.everywhere_node_iff.mp h.everywhere).1 hname
  have hkinds : (significantLexemes (Tree.allLexemes n.children)).map Lexeme.kind =
      [.identifier] := by
    rw [← Tree.leaves_bares, ← Shape.flatMap_leaves_map, hchildren]
    rfl
  obtain ⟨l, hl, hkind⟩ := List.map_eq_singleton_iff.mp hkinds
  obtain ⟨rank, hstands, -⟩ := h.rank
  obtain ⟨x, hx, hrange⟩ := hstands.exists_trimmedRange_eq hl
  obtain ⟨before, after, hstream, -, hrank⟩ := hstands
  have hlexeme : (significantLexemes stream)[rank]? = some l := by
    rw [hstream, significantLexemes_append, significantLexemes_append, hl, ← hrank]
    simp
  have hsame : x.toLexeme = l := by
    rw [← map_toLexeme_places 0, List.getElem?_map, hx] at hlexeme
    exact Option.some.inj hlexeme
  refine ⟨x, (List.mem_filter.mp (List.mem_of_getElem? hx)).1, ?_, hrange⟩
  rw [hsame, hkind]

/-- Entries that repeat a name are entries. -/
theorem mem_of_mem_duplicatesFrom
    {seen : List Text}
    {es : List (Node Kind)}
    {e : Node Kind}
    (h : e ∈ Struct.duplicatesFrom seen es) :
    e ∈ es := by
  induction es generalizing seen with
  | nil => simp [Struct.duplicatesFrom] at h
  | cons f es ih =>
      rw [Struct.duplicatesFrom] at h
      split at h
      · exact List.mem_cons_of_mem _ (ih h)
      · split at h
        · rcases List.mem_cons.mp h with rfl | h
          · exact List.mem_cons_self
          · exact List.mem_cons_of_mem _ (ih h)
        · exact List.mem_cons_of_mem _ (ih h)

/-- A warning about a repeated name stands at an identifier. -/
theorem exists_identifier_of_mem_duplicateWarnings
    {r : Root Kind}
    {d : Diagnostic}
    (hnames : r.outline.Everywhere NamesWhole)
    (hd : d ∈ duplicateWarnings r) :
    ∃ x ∈ locate 0 r.lexemes, x.kind = .identifier ∧ d.range = x.range := by
  obtain ⟨n, hn, hd⟩ := List.mem_flatMap.mp hd
  obtain ⟨e, he, hd⟩ := List.mem_filterMap.mp hd
  obtain ⟨key, hkey, rfl⟩ := Option.map_eq_some_iff.mp hd
  -- Every node is like itself, and so are the entries of a struct and their names.
  rw [← Root.map_kind_bare, Shape.everywhere_map] at hnames
  have hnode := List.forall₂_same.mp (Root.alike_descendants (P := BareNamesWhole) rfl hnames) n
    (List.mem_filter.mp hn).1
  have hentry := List.forall₂_same.mp (hnode.childrenOf .entry) e (mem_of_mem_duplicatesFrom he)
  have hsame := alike_key? hentry
  rw [hkey] at hsame
  obtain ⟨hident, halike⟩ := Option.rel_some_some.mp hsame
  exact exists_identifier_of_name halike hident

/-- Every file has a tree in which names and strings are as they are parsed, however
malformed it is. -/
theorem exists_ofGrammar?_everywhere
    {P : Kind → List (Shape Kind Kind) → Prop}
    (hP : HoldsOfLeaves P)
    (text : Text) :
    ∃ p,
      Parse.ofGrammar? (lexWith read) file text = some p ∧
      p.diagnostics = Trace.errors (tokensWith read text)
        (file (.ofList (significant (tokensWith read text)))).trace ∧
      p.root.Keeps .file text (lex text) ∧
      p.root.outline.Everywhere P := by
  have hends := (ends_document (.ofList (significant (tokensWith read text)))).and
    (upholds_document_of hP _)
  have hkind : Kind.file ≠ Vocabulary.tombstone := by decide
  obtain ⟨t, hnames, hgrow, -⟩ := Parser.Ends.exists_grow?
    (Q := fun t => t.Everywhere P) hkind
    (hends.mono fun _ _ ht => ⟨ht.1.2, ht.1.1.behind, ht.2 (Site.everywhere_opened (.ofList _))⟩)
  obtain ⟨p, hp, hdiagnostics, hkeeps, houtline⟩ := ofGrammar?_of_grow? hgrow
  refine ⟨p, hp, hdiagnostics, hkeeps, ?_⟩
  rw [houtline, Shape.everywhere_node_iff]
  refine ⟨hP.other (by decide) _, fun c hc => ?_⟩
  rcases List.mem_append.mp hc with hc | hc
  · exact hnames c (List.mem_reverse.mp hc)
  · obtain rfl := List.mem_singleton.mp hc
    exact Shape.everywhere_leaf _

/-- Every file has a tree in which every name is one identifier, however malformed it
is. -/
theorem exists_ofGrammar?_names (text : Text) :
    ∃ p,
      Parse.ofGrammar? (lexWith read) file text = some p ∧
      p.diagnostics = Trace.errors (tokensWith read text)
        (file (.ofList (significant (tokensWith read text)))).trace ∧
      p.root.lexemes = lex text ∧
      p.root.outline.Everywhere NamesWhole := by
  obtain ⟨p, hp, hdiagnostics, hkeeps, hnames⟩ :=
    exists_ofGrammar?_everywhere holdsOfLeaves_namesWhole text
  exact ⟨p, hp, hdiagnostics, hkeeps.lexemes_eq, hnames⟩

end Zon

/-! ## Both languages -/

/-- **Diagnostics stand at tokens, errors first and in order.**  All diagnostics of a
Zig file are errors; those of a Zon file are errors, and warnings behind them.  The
errors are in the order of the text and each has the range of a significant token, the
warnings have the ranges of identifiers.  All ranges lie inside the text, between two
characters. -/
theorem exists_parse_diagnostics (text : Text) :
    (∃ p, Zig.parse? text = some p ∧
      Diagnostic.AllErrors text (Zig.lex text) p.diagnostics) ∧
    (∃ p errors warnings,
      Zon.parse? text = some p ∧
      p.diagnostics = errors ++ warnings ∧
      Diagnostic.AllErrors text (Zon.lex text) errors ∧
      ∀ d ∈ warnings,
        d.severity = .warning ∧ d.Marks text (Zon.lex text) (· = .identifier)) := by
  constructor
  · have hkind : Zig.Kind.sourceFile ≠ Vocabulary.tombstone := by decide
    have hends := Zig.ends_containerMembers (Zig.sound_level maxDepth)
      (.ofList (significant (tokensWith Zig.read text)))
    obtain ⟨t, -, hgrow, -⟩ := Parser.Ends.exists_grow? (Q := fun _ => True) hkind
      (hends.mono fun _ _ ht => ⟨ht.2, ht.1.behind, trivial⟩)
    obtain ⟨p, hp, hdiagnostics, -, -⟩ := ofGrammar?_of_grow? hgrow
    refine ⟨p, hp, ?_⟩
    rw [hdiagnostics]
    exact allErrors_errors Zig.keeps_read text _
  · obtain ⟨p, hp, hdiagnostics, hlexemes, hnames⟩ := Zon.exists_ofGrammar?_names text
    refine ⟨_, p.diagnostics, Zon.duplicateWarnings p.root, Zon.parse?_of_ofGrammar? hp, rfl,
      ?_, ?_⟩
    · rw [hdiagnostics]
      exact allErrors_errors Zon.keeps_read text _
    · intro d hd
      obtain ⟨x, hx, hkind, hrange⟩ :=
        Zon.exists_identifier_of_mem_duplicateWarnings hnames hd
      rw [hlexemes] at hx
      exact ⟨Zon.severity_of_mem_duplicateWarnings hd,
        (tiles_lexWith Zon.keeps_read text).marks hx hkind hrange⟩

end ZigCst
