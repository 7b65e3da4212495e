import ZigCst.Proofs.LineLocal
import ZigCst.Proofs.Links
import ZigCst.Proofs.Sublanguage

/-!
# Literals of several lines are read line by line

A literal of several lines is one token, however its lines are indented and ended.
Reading it takes the lines apart again: everything up to the first mark of a line is its
indent, and a carriage return before its line feed belongs to the end of the line.  So
each line gives back what was written behind its mark, in its place.

**Definitions.**
* `MarkedLine`: a line with its indent and its end.
* `MarkedLine.join`: lines as they are written.
* `MarkedLine.excerpts`: what they hold, in place.
* `ReadsAs`: a literal is read as the lines that it was written from.

**Results.**
* `MarkedLine.lexWith_join`: lines are one token behind the first indent.
* `MarkedLine.contents_flush`: the token has the contents of the lines.
* `exists_parse_join`: the lines are recovered from a Zon file and from a constant of
  Zig.
-/

namespace ZigCst

/-- A line of a literal: an indent, the mark, what the line holds, and whether it ends
with a carriage return in front of its line feed. -/
structure MarkedLine where
  indent : Text
  content : Text
  returns : Bool
  isIndent : ∀ c ∈ indent, Scan.isIndent c = true
  oneLine : '\n' ∉ content
  trimmed : content.getLast? ≠ some '\r'

namespace MarkedLine

/-- The line without its end. -/
def text (l : MarkedLine) : Text := l.indent ++ '\\' :: '\\' :: l.content

/-- What may stand in front of the line feed. -/
def returnText (l : MarkedLine) : Text := if l.returns then ['\r'] else []

/-- The end of the line. -/
def ending (l : MarkedLine) : Text := l.returnText ++ ['\n']

/-- Lines as they are written, the last one without its end. -/
def join : MarkedLine → List MarkedLine → Text
  | l, [] => l.text
  | l, m :: ls => l.text ++ (l.ending ++ join m ls)

/-- What lines hold that are written from a position on. -/
def excerpts (start : Nat) : MarkedLine → List MarkedLine → List Excerpt
  | l, [] => [⟨start + l.indent.size + 2, l.content⟩]
  | l, m :: ls =>
      ⟨start + l.indent.size + 2, l.content⟩ ::
        excerpts (start + l.text.size + l.ending.size) m ls

/-- The line without its indent. -/
def flush (l : MarkedLine) : MarkedLine :=
  { l with
    indent := []
    isIndent := fun _ hc => absurd hc List.not_mem_nil }

/-- What stands behind the first line. -/
def tail : MarkedLine → List MarkedLine → Text
  | _, [] => []
  | l, m :: ls => l.ending ++ m.join ls

theorem join_eq
    (l : MarkedLine)
    (ls : List MarkedLine) :
    l.join ls = l.indent ++ '\\' :: '\\' :: (l.content ++ l.tail ls) := by
  cases ls with
  | nil => simp [join, text, tail]
  | cons m ls => simp [join, text, tail]

theorem flush_join
    (l : MarkedLine)
    (ls : List MarkedLine) :
    l.flush.join ls = '\\' :: '\\' :: (l.content ++ l.tail ls) := by
  rw [join_eq]
  cases ls <;> rfl

theorem join_eq_flush
    (l : MarkedLine)
    (ls : List MarkedLine) :
    l.join ls = l.indent ++ l.flush.join ls := by
  rw [join_eq, flush_join]

theorem isBlank_of_isIndent
    {c : Char}
    (h : Scan.isIndent c = true) :
    Scan.isBlank c = true := by
  rw [Scan.isBlank, ← Scan.isIndent, h, Bool.true_or]

theorem lineFeed_not_mem_indent (l : MarkedLine) : '\n' ∉ l.indent :=
  fun h => absurd (l.isIndent '\n' h) (by decide)

theorem lineFeed_not_mem_returnText (l : MarkedLine) : '\n' ∉ l.returnText := by
  rw [returnText]
  split <;> decide

/-! ## Lexing -/

/-- A line is taken as a whole. -/
theorem taken_line
    {a : Text}
    (ha : '\n' ∉ a) :
    (Scan.line a).taken = a ∧ (Scan.line a).rest = [] := by
  have htaken : (Scan.line a).taken = a := by
    refine List.takeWhile_eq_self_iff.mpr fun c hc => ?_
    rw [bne_iff_ne]
    exact ne_of_mem_of_not_mem hc ha
  have hjoin := (Scan.line a).join
  rw [htaken] at hjoin
  exact ⟨htaken, List.append_right_eq_self.mp hjoin⟩

/-- An indent ends at the mark. -/
theorem takeWhile_indent
    (l : MarkedLine)
    {p : Char → Bool}
    (hp : ∀ c, Scan.isIndent c = true → p c = true)
    (hmark : p '\\' = false)
    (rest : Text) :
    (l.indent ++ '\\' :: rest).takeWhile p = l.indent ∧
      (l.indent ++ '\\' :: rest).dropWhile p = '\\' :: rest := by
  have hall : ∀ c ∈ l.indent, p c = true := fun c hc => hp c (l.isIndent c hc)
  have hstop : ¬ p '\\' = true := by simp [hmark]
  refine ⟨?_, ?_⟩
  · rw [List.takeWhile_append_of_pos hall, List.takeWhile_cons_of_neg hstop, List.append_nil]
  · rw [List.dropWhile_append_of_pos hall, List.dropWhile_cons_of_neg hstop]

/-- All lines are taken. -/
theorem taken_markedLines_tail
    (l : MarkedLine)
    (ls : List MarkedLine)
    {front : Text}
    (hfront : '\n' ∉ front) :
    (Scan.markedLines (front ++ l.tail ls)).taken = front ++ l.tail ls := by
  induction ls generalizing l front with
  | nil =>
      obtain ⟨htaken, hrest⟩ := taken_line hfront
      rw [tail, List.append_nil, Scan.markedLines_eq_line (by simp [hrest]), htaken]
  | cons m ls ih =>
      have hline : '\n' ∉ front ++ l.returnText := by
        rw [List.mem_append, not_or]
        exact ⟨hfront, l.lineFeed_not_mem_returnText⟩
      have htext : front ++ l.tail (m :: ls) = (front ++ l.returnText) ++ '\n' :: m.join ls := by
        simp [tail, ending]
      obtain ⟨hall, hnone⟩ := taken_line hline
      have htaken := Scan.halts_line (front ++ l.returnText) (m.join ls)
      have hrest := Scan.rest_append htaken
      rw [hall] at htaken
      rw [hnone, List.nil_append] at hrest
      obtain ⟨hindent, hmark⟩ := m.takeWhile_indent (p := Scan.isIndent) (fun _ h => h) (by decide)
        ('\\' :: (m.content ++ m.tail ls))
      have hcontent : '\n' ∉ '\\' :: '\\' :: m.content := by simp [m.oneLine]
      have hmore := ih m hcontent
      rw [List.cons_append, List.cons_append] at hmore
      have hmarked : Scan.Marked (m.join ls) := by
        rw [Scan.Marked, join_eq, hmark]
        simp
      rw [htext, (Scan.markedLines_of_marked hrest hmarked).1, htaken, join_eq, hindent, hmark, hmore]

section Lexing

variable {K : Type} [Vocabulary K]
  {read : (c : Char) → (t : Text) → Reading K t}
  {blank multi : K}

/-- The blanks in front of the first mark. -/
def blanks (blank : K) (l : MarkedLine) : List (Lexeme K) :=
  if l.indent = [] then [] else [⟨blank, l.indent⟩]

/-- From the first mark on, lines are one token. -/
theorem lexWith_flush_join
    (hmark : ∀ t, read '\\' ('\\' :: t) = ⟨multi, .cons '\\' (Scan.markedLines t)⟩)
    (l : MarkedLine)
    (ls : List MarkedLine) :
    lexWith read (l.flush.join ls) = [⟨multi, l.flush.join ls⟩, ⟨Vocabulary.eof, []⟩] := by
  have htaken := l.taken_markedLines_tail ls l.oneLine
  have hjoin := (Scan.markedLines (l.content ++ l.tail ls)).join
  rw [htaken, List.append_right_eq_self] at hjoin
  rw [flush_join, lexWith, hmark]
  dsimp only [Cut.cons]
  rw [htaken, hjoin, lexWith]

/-- Lines are one token, behind the indent of the first. -/
theorem lexWith_join
    (hblank : ∀ {c}, Scan.isBlank c = true → ∀ t, read c t = ⟨blank, Scan.blanks t⟩)
    (hmark : ∀ t, read '\\' ('\\' :: t) = ⟨multi, .cons '\\' (Scan.markedLines t)⟩)
    (l : MarkedLine)
    (ls : List MarkedLine) :
    lexWith read (l.join ls) =
      l.blanks blank ++ [⟨multi, l.flush.join ls⟩, ⟨Vocabulary.eof, []⟩] := by
  have hflush := lexWith_flush_join hmark l ls
  rw [blanks, join_eq_flush]
  cases hindent : l.indent with
  | nil => exact hflush
  | cons c indent =>
      have hc : Scan.isBlank c = true := isBlank_of_isIndent (l.isIndent c (by simp [hindent]))
      obtain ⟨htake, hdrop⟩ := l.takeWhile_indent (p := Scan.isBlank)
        (fun _ h => isBlank_of_isIndent h) (by decide) ('\\' :: (l.content ++ l.tail ls))
      rw [← flush_join, hindent, List.cons_append] at htake hdrop
      rw [List.takeWhile_cons_of_pos hc] at htake
      rw [List.dropWhile_cons_of_pos hc] at hdrop
      have htaken : (Scan.blanks (indent ++ l.flush.join ls)).taken = indent :=
        List.tail_eq_of_cons_eq htake
      have hrest : (Scan.blanks (indent ++ l.flush.join ls)).rest = l.flush.join ls := hdrop
      rw [if_neg (List.cons_ne_nil _ _), List.cons_append, lexWith, hblank hc]
      dsimp only
      rw [htaken, hrest, hflush]
      rfl

/-- The only significant lexemes are the lines and the end of file. -/
theorem places_lexWith_join
    [LawfulVocabulary K]
    (hblank : ∀ {c}, Scan.isBlank c = true → ∀ t, read c t = ⟨blank, Scan.blanks t⟩)
    (hmark : ∀ t, read '\\' ('\\' :: t) = ⟨multi, .cons '\\' (Scan.markedLines t)⟩)
    (htrivia : Vocabulary.isTrivia blank = true)
    (hmulti : Vocabulary.isTrivia multi = false)
    (start : Nat)
    (l : MarkedLine)
    (ls : List MarkedLine) :
    places start (lexWith read (l.join ls)) =
      [⟨⟨multi, l.flush.join ls⟩, start + l.indent.size⟩,
        ⟨⟨Vocabulary.eof, []⟩, start + l.indent.size + (l.flush.join ls).size⟩] := by
  have hlines : ∀ start, places start [⟨multi, l.flush.join ls⟩, ⟨Vocabulary.eof, []⟩] =
      [⟨⟨multi, l.flush.join ls⟩, start⟩,
        ⟨⟨Vocabulary.eof, []⟩, start + (l.flush.join ls).size⟩] := by
    intro start
    simp [places, locate, Located.isTrivia, hmulti, LawfulVocabulary.isTrivia_eof]
  rw [lexWith_join hblank hmark, places_append, hlines, blanks]
  split
  · rename_i hindent
    simp [places, locate, textOf, hindent]
  · simp [places, locate, textOf, Located.isTrivia, htrivia]

end Lexing

end MarkedLine

/-! ## Contents -/

namespace Text

theorem lines_cons
    {c : Char}
    (hc : c ≠ '\n')
    {t l : Text}
    {ls : List Text}
    (h : lines t = l :: ls) :
    lines (c :: t) = (c :: l) :: ls := by
  rw [lines, if_neg hc, h]

theorem lines_of_not_mem
    {a : Text}
    (ha : '\n' ∉ a) :
    lines a = [a] := by
  induction a with
  | nil => rfl
  | cons c a ih =>
      obtain ⟨hc, ha⟩ := List.ne_and_not_mem_of_not_mem_cons ha
      exact lines_cons hc.symm (ih ha)

/-- A line feed ends a line. -/
theorem lines_append
    {a : Text}
    (ha : '\n' ∉ a)
    (b : Text) :
    lines (a ++ '\n' :: b) = a :: lines b := by
  induction a with
  | nil => rfl
  | cons c a ih =>
      obtain ⟨hc, ha⟩ := List.ne_and_not_mem_of_not_mem_cons ha
      exact lines_cons hc.symm (ih ha)

end Text

namespace MarkedLine

theorem afterMark?_indent
    {indent : Text}
    (hindent : ∀ c ∈ indent, Scan.isIndent c = true)
    (t : Text) :
    Literal.afterMark? (indent ++ '\\' :: '\\' :: t) = some ⟨indent.size + 2, t⟩ := by
  induction indent with
  | nil => rfl
  | cons c indent ih =>
      obtain ⟨hc, hindent⟩ := List.forall_mem_cons.mp hindent
      rw [List.cons_append, Literal.afterMark?, ih hindent, Option.map_some, Text.size_cons,
        Nat.add_assoc]
      rintro rest rfl
      exact absurd hc (by decide)

/-- Carriage returns at the end are left out. -/
theorem dropEndWhile_content
    (l : MarkedLine)
    {ending : Text}
    (h : ∀ c ∈ ending, c = '\r') :
    Text.dropEndWhile (· == '\r') (l.content ++ ending) = l.content := by
  have hall : ∀ c ∈ ending.reverse, (c == '\r') = true := fun c hc => by
    simpa using h c (List.mem_reverse.mp hc)
  rw [Text.dropEndWhile, List.reverse_append, List.dropWhile_append_of_pos hall]
  have hlast := l.trimmed
  rw [← List.head?_reverse] at hlast
  cases hreverse : l.content.reverse with
  | nil => simpa using hreverse
  | cons c rest =>
      rw [hreverse] at hlast
      have hc : ¬ (c == '\r') = true := by simpa using hlast
      rw [List.dropWhile_cons, if_neg hc, ← hreverse, List.reverse_reverse]

/-- A line gives back what it holds. -/
theorem lineContent?_text
    (l : MarkedLine)
    (ending : Text)
    (h : ∀ c ∈ ending, c = '\r') :
    Literal.lineContent? (l.text ++ ending) = some ⟨l.indent.size + 2, l.content⟩ := by
  rw [Literal.lineContent?, text, List.append_assoc, List.cons_append, List.cons_append,
    afterMark?_indent l.isIndent, Option.map_some, dropEndWhile_content l h]

theorem eq_return_of_mem
    (l : MarkedLine)
    {c : Char}
    (hc : c ∈ l.returnText) :
    c = '\r' := by
  rw [returnText] at hc
  split at hc
  · exact List.mem_singleton.mp hc
  · exact absurd hc List.not_mem_nil

theorem lineFeed_not_mem_text (l : MarkedLine) : '\n' ∉ l.text := by
  simp [text, l.lineFeed_not_mem_indent, l.oneLine]

/-- The lines of a written literal give back what they hold. -/
theorem lineContents_lines_join
    (start : Nat)
    (l : MarkedLine)
    (ls : List MarkedLine) :
    Literal.lineContents start (Text.lines (l.join ls)) = l.excerpts start ls := by
  induction ls generalizing start l with
  | nil =>
      have hcontent := l.lineContent?_text [] (by simp)
      rw [List.append_nil] at hcontent
      rw [join, Text.lines_of_not_mem l.lineFeed_not_mem_text, Literal.lineContents, hcontent]
      simp [Literal.lineContents, excerpts, Nat.add_assoc]
  | cons m ls ih =>
      have hline : '\n' ∉ l.text ++ l.returnText := by
        simp [l.lineFeed_not_mem_text, l.lineFeed_not_mem_returnText]
      have htext : l.join (m :: ls) = (l.text ++ l.returnText) ++ '\n' :: m.join ls := by
        simp [join, ending]
      have hcontent := l.lineContent?_text l.returnText fun c hc => l.eq_return_of_mem hc
      have hsize : start + Text.size (l.text ++ l.returnText) + 1 =
          start + l.text.size + l.ending.size := by
        have hfeed : Text.size ['\n'] = 1 := by decide
        rw [ending, Text.size_append, Text.size_append, hfeed, Nat.add_assoc start, Nat.add_assoc,
          Nat.add_assoc]
      rw [htext, Text.lines_append hline, Literal.lineContents, hcontent, hsize, ih _ m]
      simp [excerpts, Nat.add_assoc]

/-- The token of lines has their contents, from its place on. -/
theorem contents_flush
    (start : Nat)
    (l : MarkedLine)
    (ls : List MarkedLine) :
    (Literal.contents (l.flush.join ls)).map
        (fun e => (⟨start + l.indent.size + e.offset, e.text⟩ : Excerpt)) =
      l.excerpts start ls := by
  have hshift : ∀ (n m : Nat) (k : MarkedLine) (ks : List MarkedLine),
      (k.excerpts m ks).map (fun e => (⟨n + e.offset, e.text⟩ : Excerpt)) =
        k.excerpts (n + m) ks := by
    intro n m k ks
    induction ks generalizing m k with
    | nil => simp [excerpts, Nat.add_assoc]
    | cons j ks ih => simp [excerpts, ih, Nat.add_assoc]
  rw [Literal.contents, lineContents_lines_join, hshift, Nat.add_zero]
  cases ls with
  | nil => rfl
  | cons m ls =>
      -- Without its indent the first line is shorter by that.
      have hsize : start + l.indent.size + l.flush.text.size + l.flush.ending.size =
          start + l.text.size + l.ending.size := by
        have htext : l.text.size = l.indent.size + l.flush.text.size := Text.size_append _ _
        have hending : l.flush.ending = l.ending := rfl
        rw [htext, hending, Nat.add_assoc start]
      rw [excerpts, excerpts, hsize]
      rfl

theorem map_text_excerpts
    (start : Nat)
    (l : MarkedLine)
    (ls : List MarkedLine) :
    (l.excerpts start ls).map Excerpt.text = (l :: ls).map content := by
  induction ls generalizing start l with
  | nil => rfl
  | cons m ls ih =>
      rw [excerpts, List.map_cons, ih]
      rfl

/-- In the text, every line holds what it holds. -/
theorem map_slice?_excerpts
    (front : Text)
    (l : MarkedLine)
    (ls : List MarkedLine)
    (behind : Text) :
    (l.excerpts front.size ls).map (fun e =>
        Text.slice? e.offset (e.offset + e.text.size) (front ++ (l.join ls ++ behind))) =
      (l :: ls).map fun k => some k.content := by
  have hfirst : ∀ (front : Text) (k : MarkedLine) (behind : Text),
      Text.slice? (front.size + k.indent.size + 2) (front.size + k.indent.size + 2 + k.content.size)
        (front ++ (k.text ++ behind)) = some k.content := by
    intro front k behind
    have hslice := Text.slice?_append (front ++ (k.indent ++ ['\\', '\\'])) k.content behind
    have hmark : Text.size ['\\', '\\'] = 2 := by decide
    rw [Text.size_append, Text.size_append, hmark, ← Nat.add_assoc] at hslice
    simpa [text] using hslice
  induction ls generalizing front l with
  | nil =>
      rw [excerpts, join, List.map_singleton, List.map_singleton]
      exact congrArg (fun e => [e]) (hfirst front l behind)
  | cons m ls ih =>
      have hsplit : front ++ (l.join (m :: ls) ++ behind) =
          (front ++ (l.text ++ l.ending)) ++ (m.join ls ++ behind) := by
        simp [join]
      have hsize : Text.size (front ++ (l.text ++ l.ending)) =
          front.size + l.text.size + l.ending.size := by
        rw [Text.size_append, Text.size_append, Nat.add_assoc]
      have hmore := ih (front ++ (l.text ++ l.ending)) m
      rw [← hsplit, hsize] at hmore
      have hl : front ++ (l.join (m :: ls) ++ behind) =
          front ++ (l.text ++ (l.ending ++ (m.join ls ++ behind))) := by
        simp [join]
      rw [excerpts, List.map_cons, List.map_cons, hmore, hl]
      exact congrArg (fun e => e :: _) (hfirst front l _)

end MarkedLine

/-! ## Reading the lines -/

/-- Whether a literal is read as the lines that it was written from, in a text where they
start at some position. -/
structure ReadsAs
    (text : Text)
    (start : Nat)
    (first : MarkedLine)
    (others : List MarkedLine)
    (isMultiline : Bool)
    (content : Text)
    (ranges : List Range) : Prop where
  multiline_eq : isMultiline = true
  content_eq : content = Text.unlines ((first :: others).map MarkedLine.content)
  /-- There is one range for each line, where the line holds what it holds. -/
  ranges_eq : ranges = (first.excerpts start others).map (Excerpt.range 0)
  slices : ranges.map (fun r => text.slice? r.start r.stop) =
    (first :: others).map fun l => some l.content

section Literals

variable {first : MarkedLine} {others : List MarkedLine}

/-- A token of marked lines is read as the lines. -/
theorem readsAs_of_located
    {K : Type}
    {multi : K}
    {l : Leaf K}
    {front : Text}
    (hl : l.located = ⟨⟨multi, first.flush.join others⟩, front.size + first.indent.size⟩)
    (behind : Text) :
    ReadsAs (front ++ (first.join others ++ behind)) front.size first others true
      (Literal.value true l.lineContents) (l.lineContents.map (Excerpt.range 0)) := by
  have htext : l.text = first.flush.join others :=
    congrArg (fun m : Located K => m.text) hl
  have hstart : l.range.start = front.size + first.indent.size :=
    congrArg (fun m : Located K => m.start) hl
  have hlines : l.lineContents = first.excerpts front.size others := by
    rw [Leaf.lineContents, htext, hstart, MarkedLine.contents_flush]
  rw [hlines]
  refine ⟨rfl, ?_, rfl, ?_⟩
  · rw [← MarkedLine.map_text_excerpts front.size]
    rfl
  · have hslices := MarkedLine.map_slice?_excerpts front first others behind
    rw [List.map_map, ← hslices]
    refine List.map_congr_left fun e _ => ?_
    simp [Excerpt.range, Range.ofText]

end Literals

namespace Zon

/-- The literal of a node whose outline is a token of marked lines. -/
theorem StringLiteral.exists_lines
    {n : Node Kind}
    (h : Tree.outlines n.children = [.leaf .lineString]) :
    ∃ l ∈ n.childTokens, l.kind = .lineString ∧ isMultiline n = true ∧
      excerpts n = l.lineContents := by
  obtain ⟨l, hl, hkind⟩ := Node.exists_significant_singleton h
  have hfilter : n.childTokens.filter (fun m => m.kind == .lineString) = [l] := by
    refine Node.filter_childTokens_singleton hl (by simp [hkind]) fun m hm => ?_
    rw [Leaf.isTrivia, eq_of_beq hm]
    rfl
  have hmultiline : isMultiline n = true := by
    rw [isMultiline, Node.hasToken, Node.token?, ← List.head?_filter, hfilter]
    rfl
  refine ⟨l, List.mem_of_mem_filter (hfilter ▸ List.mem_singleton_self l), hkind, hmultiline, ?_⟩
  rw [excerpts, if_pos hmultiline, hfilter, List.flatMap_singleton]

theorem lex_join
    (l : MarkedLine)
    (ls : List MarkedLine) :
    lex (l.join ls) =
      l.blanks .whitespace ++ [⟨.lineString, l.flush.join ls⟩, ⟨.eof, []⟩] :=
  MarkedLine.lexWith_join (fun hc => read_of_blank hc) (fun _ => rfl) l ls

theorem places_lex_join
    (start : Nat)
    (l : MarkedLine)
    (ls : List MarkedLine) :
    places start (lex (l.join ls)) =
      [⟨⟨.lineString, l.flush.join ls⟩, start + l.indent.size⟩,
        ⟨⟨.eof, []⟩, start + l.indent.size + (l.flush.join ls).size⟩] :=
  MarkedLine.places_lexWith_join (fun hc => read_of_blank hc) (fun _ => rfl) rfl rfl start l ls

/-- Lines are a value. -/
theorem value_lines (n : Nat) :
    Rule.Value (n + 1) [.lineString] (.node .stringLiteral [.leaf .lineString]) :=
  .lines n 0

/-- The lines are recovered from a file. -/
theorem exists_parse_lines
    (first : MarkedLine)
    (others : List MarkedLine) :
    ∃ p n,
      parse? (first.join others) = some p ∧
      (∀ d ∈ p.diagnostics, d.severity ≠ .error) ∧
      (p.root.node.descendants.filter fun m => m.kind == .stringLiteral) = [n] ∧
      ReadsAs (first.join others) 0 first others (StringLiteral.isMultiline n)
        (StringLiteral.content n) (StringLiteral.ranges n) := by
  have hplaces := places_lex_join 0 first others
  have hkinds : significantKinds (lex (first.join others)) = [.lineString] := by
    have hsome := map_kind_significantLexemes (first.join others)
    rw [← map_toLexeme_places 0, hplaces] at hsome
    exact (List.append_inj_left' hsome rfl).symm
  obtain ⟨p, hp, herrors, hlexemes, houtline⟩ :=
    exists_parse_of_value (hkinds ▸ value_lines 255)
  -- Below the root there is the literal, and nothing else.
  have hnodes := p.root.map_outline_descendants
  rw [houtline] at hnodes
  obtain ⟨root, rest, hdescendants, hroot, hrest⟩ := List.map_eq_cons_iff.mp hnodes
  obtain ⟨n, rfl, hn⟩ := List.map_eq_singleton_iff.mp hrest
  have hrootKind : root.kind = .file := (Shape.node.inj hroot).1
  obtain ⟨hkind, houtlines⟩ := Shape.node.inj hn
  refine ⟨p, n, hp, herrors, ?_, ?_⟩
  · rw [hdescendants, List.filter_cons_of_neg (by simp [hrootKind]),
      List.filter_cons_of_pos (by simpa using hkind), List.filter_nil]
  · obtain ⟨l, hl, hlkind, hmultiline, hexcerpts⟩ := StringLiteral.exists_lines houtlines
    have hlocated : l.located =
        ⟨⟨.lineString, first.flush.join others⟩, Text.size [] + first.indent.size⟩ := by
      rw [← hlexemes] at hplaces
      exact Root.located_eq_of_kind (by rw [hdescendants]; simp) hl hlkind rfl
        (hplaces.trans (List.nil_append _).symm) (by simp)
    have hreads := readsAs_of_located hlocated []
    rw [List.nil_append, List.append_nil] at hreads
    rw [StringLiteral.content, StringLiteral.ranges, hmultiline, hexcerpts]
    exact hreads

end Zon

namespace Zig

/-- The literal of a node whose outline is a token of marked lines. -/
theorem StringLiteral.exists_lines
    {n : Node Kind}
    (h : Tree.outlines n.children = [.leaf .stringLiteralMulti]) :
    ∃ l ∈ n.childTokens, l.kind = .stringLiteralMulti ∧ isMultiline n = true ∧
      excerpts n = l.lineContents := by
  obtain ⟨l, hl, hkind⟩ := Node.exists_significant_singleton h
  have hfilter : n.childTokens.filter (fun m => m.kind == .stringLiteralMulti) = [l] := by
    refine Node.filter_childTokens_singleton hl (by simp [hkind]) fun m hm => ?_
    rw [Leaf.isTrivia, eq_of_beq hm]
    rfl
  have htoken : token? n = some l := by
    rw [token?, ← List.head?_filter,
      Node.filter_childTokens_singleton hl (by simp [hkind]) fun m hm => ?_]
    · rfl
    · rw [Bool.or_eq_true, beq_iff_eq, beq_iff_eq] at hm
      rcases hm with hm | hm <;> rw [Leaf.isTrivia, hm] <;> rfl
  have hmultiline : isMultiline n = true := by
    rw [isMultiline, htoken]
    simp [hkind]
  refine ⟨l, List.mem_of_mem_filter (hfilter ▸ List.mem_singleton_self l), hkind, hmultiline, ?_⟩
  rw [excerpts, htoken]
  dsimp only
  rw [if_pos hmultiline, hfilter, List.flatMap_singleton]

theorem lex_join
    (l : MarkedLine)
    (ls : List MarkedLine) :
    lex (l.join ls) =
      l.blanks .whitespace ++ [⟨.stringLiteralMulti, l.flush.join ls⟩, ⟨.eof, []⟩] :=
  MarkedLine.lexWith_join (fun hc => read_of_blank hc) (fun _ => rfl) l ls

theorem places_lex_join
    (start : Nat)
    (l : MarkedLine)
    (ls : List MarkedLine) :
    places start (lex (l.join ls)) =
      [⟨⟨.stringLiteralMulti, l.flush.join ls⟩, start + l.indent.size⟩,
        ⟨⟨.eof, []⟩, start + l.indent.size + (l.flush.join ls).size⟩] :=
  MarkedLine.places_lexWith_join (fun hc => read_of_blank hc) (fun _ => rfl) rfl rfl start l ls

/-- A text as the initializer of a constant. -/
def asInitializer (text : Text) : Text := "const s =\n".toList ++ text ++ "\n;\n".toList

theorem asInitializer_eq (text : Text) :
    asInitializer text = "const s =".toList ++ '\n' :: (text ++ '\n' :: ";\n".toList) := by
  have hhead : "const s =\n".toList = "const s =".toList ++ ['\n'] := by decide
  have htail : "\n;\n".toList = '\n' :: ";\n".toList := by decide
  change "const s =\n".toList ++ text ++ "\n;\n".toList = _
  rw [hhead, htail, List.append_assoc, List.append_assoc, List.singleton_append]

/-- The lexemes in front of the initializer. -/
def initializerFront : List (Lexeme Kind) :=
  [⟨.constKw, "const".toList⟩, ⟨.identifier, ['s']⟩, ⟨.eq, ['=']⟩]

/-- The lexemes behind the initializer. -/
def initializerEnd : List (Lexeme Kind) := [⟨.semicolon, [';']⟩, ⟨.eof, []⟩]

/-- The lines are the only lexeme between those of the constant. -/
theorem exists_places_asInitializer
    (first : MarkedLine)
    (others : List MarkedLine) :
    ∃ front behind,
      front.map Located.toLexeme = initializerFront ∧
      behind.map Located.toLexeme = initializerEnd ∧
      places 0 (lex (asInitializer (first.join others))) =
        front ++ ([⟨⟨.stringLiteralMulti, first.flush.join others⟩, 10 + first.indent.size⟩] ++
          behind) := by
  have hfront : tokensOf (lex "const s =".toList) = initializerFront := by decide +kernel
  have hwhole := Zon.places_lex_between (by rw [hfront]; simp [initializerFront])
    (first.join others)
  have hsize : Text.size "const s =".toList + 1 = 10 := by decide
  rw [hsize, places_lex_join] at hwhole
  rw [asInitializer_eq]
  refine ⟨_, _, ?_, ?_, hwhole⟩
  · rw [List.map_dropLast, map_toLexeme_places]
    exact hfront
  · rw [map_toLexeme_places]
    decide +kernel

/-- The lines are recovered from the initializer of a constant. -/
theorem exists_parse_initializer
    (first : MarkedLine)
    (others : List MarkedLine) :
    ∃ q decl n,
      parse? (asInitializer (first.join others)) = some q ∧
      q.diagnostics = [] ∧
      SourceFile.members q.root.node = [decl] ∧
      decl.kind = .varDecl ∧
      VarDecl.initializer? decl = some n ∧
      n.kind = .stringLiteral ∧
      ReadsAs (asInitializer (first.join others)) 10 first others (StringLiteral.isMultiline n)
        (StringLiteral.content n) (StringLiteral.ranges n) := by
  obtain ⟨front, behind, hfront, hbehind, hplaces⟩ := exists_places_asInitializer first others
  have hkinds : (tokensOf (lex (asInitializer (first.join others)))).map Lexeme.kind =
      [Kind.constKw] ++ ([Kind.identifier] ++ ([Kind.eq] ++
        ([Zon.Kind.lineString].map Zon.Kind.inZig ++ [Kind.semicolon]))) := by
    rw [tokensOf, ← map_toLexeme_places 0, hplaces, List.map_append, List.map_append, hfront,
      hbehind]
    simp [initializerFront, initializerEnd, Zon.Kind.inZig]
  obtain ⟨q, hq, hnone, hlexemes, houtline⟩ :=
    Zon.exists_parse_constant (Zon.value_lines 63) hkinds
  -- The constant is the only member.
  have hmembers := Node.map_outline_childNodes q.root.node
  have houtlines : Tree.outlines q.root.node.children =
      [Zon.constantOutline [.node .stringLiteral [.leaf .stringLiteralMulti]], .leaf .eof] :=
    (Shape.node.inj houtline).2
  rw [houtlines] at hmembers
  obtain ⟨decl, hdecl, houtline⟩ := List.map_eq_singleton_iff.mp hmembers
  have hkind : decl.kind = .varDecl := (Shape.node.inj houtline).1
  have hdescends : decl ∈ q.root.node.descendants :=
    Node.mem_descendants_of_mem_childNodes (Node.mem_descendants_self _) (by rw [hdecl]; simp)
  have hparts : Tree.outlines decl.children =
      [.leaf .constKw, .node .ident [.leaf .identifier]] ++ .leaf .eq ::
        .node .stringLiteral [.leaf .stringLiteralMulti] :: [.leaf .semicolon] :=
    (Shape.node.inj houtline).2
  obtain ⟨n, hn, hafter, hinitializer⟩ :=
    Node.exists_nodeAfter?_of_outlines hparts rfl (by simp)
  obtain ⟨hliteral, hlines⟩ := Shape.node.inj hinitializer
  refine ⟨q, decl, n, hq, hnone, ?_, hkind, hafter, hliteral, ?_⟩
  · rw [SourceFile.members, hdecl, List.filter_cons_of_pos (by rw [hkind]; rfl), List.filter_nil]
  · obtain ⟨l, hl, hlkind, hmultiline, hexcerpts⟩ := StringLiteral.exists_lines hlines
    -- No other lexeme is a literal of several lines.
    have hother : ∀ m ∈ initializerFront ++ initializerEnd, m.kind ≠ .stringLiteralMulti := by
      decide
    rw [← hfront, ← hbehind, ← List.map_append, List.forall_mem_map] at hother
    have hten : Text.size "const s =\n".toList = 10 := by decide
    have hlocated : l.located = ⟨⟨.stringLiteralMulti, first.flush.join others⟩,
        Text.size "const s =\n".toList + first.indent.size⟩ := by
      rw [hten]
      rw [← hlexemes] at hplaces
      exact Root.located_eq_of_kind (Node.mem_descendants_of_mem_childNodes hdescends hn) hl hlkind
        rfl hplaces hother
    have hreads := readsAs_of_located hlocated "\n;\n".toList
    rw [hten, ← List.append_assoc] at hreads
    rw [StringLiteral.content, StringLiteral.ranges, hmultiline, hexcerpts]
    exact hreads

end Zig

/-- **Lines are recovered.**  Whatever lines are written one after another, however each
of them is indented and ended, both languages read at most one blank, one literal and the
end of file.  Alone in a Zon file and as the initializer of a constant of Zig, the literal
has several lines, holds what the lines hold, joined by line feeds, and has one range for
each line, which takes what that line holds. -/
theorem exists_parse_join
    (first : MarkedLine)
    (others : List MarkedLine) :
    Zig.lex (first.join others) =
        first.blanks .whitespace ++
          [⟨.stringLiteralMulti, first.flush.join others⟩, ⟨.eof, []⟩] ∧
      Zon.lex (first.join others) =
        first.blanks .whitespace ++ [⟨.lineString, first.flush.join others⟩, ⟨.eof, []⟩] ∧
      (∃ p n,
        Zon.parse? (first.join others) = some p ∧
        (∀ d ∈ p.diagnostics, d.severity ≠ .error) ∧
        (p.root.node.descendants.filter fun m => m.kind == .stringLiteral) = [n] ∧
        ReadsAs (first.join others) 0 first others (Zon.StringLiteral.isMultiline n)
          (Zon.StringLiteral.content n) (Zon.StringLiteral.ranges n)) ∧
      ∃ q decl n,
        Zig.parse? (Zig.asInitializer (first.join others)) = some q ∧
        q.diagnostics = [] ∧
        Zig.SourceFile.members q.root.node = [decl] ∧
        decl.kind = .varDecl ∧
        Zig.VarDecl.initializer? decl = some n ∧
        n.kind = .stringLiteral ∧
        ReadsAs (Zig.asInitializer (first.join others)) 10 first others
          (Zig.StringLiteral.isMultiline n) (Zig.StringLiteral.content n)
          (Zig.StringLiteral.ranges n) :=
  ⟨Zig.lex_join first others, Zon.lex_join first others, Zon.exists_parse_lines first others,
    Zig.exists_parse_initializer first others⟩

/-- A line behind an indent, with a mark in what it holds. -/
def indentedLine : MarkedLine where
  indent := [' ', '\t']
  content := ['a', '\\', '\\', '"']
  returns := true
  isIndent := by simp [Scan.isIndent]
  oneLine := by decide
  trimmed := by decide

/-- A line that holds nothing, behind a carriage return. -/
def emptyLine : MarkedLine where
  indent := ['\r']
  content := []
  returns := true
  isIndent := by simp [Scan.isIndent]
  oneLine := by decide
  trimmed := by decide

/-- A line at the margin that looks like a comment and ends with a blank. -/
def commentLine : MarkedLine where
  indent := []
  content := ['/', '/', ' ']
  returns := false
  isIndent := by simp
  oneLine := by decide
  trimmed := by decide

theorem exists_parse_join_indented :
    indentedLine.join [emptyLine, commentLine] =
        " \t\\\\a\\\\\"\r\n\r\\\\\r\n\\\\// ".toList ∧
      Zig.lex (indentedLine.join [emptyLine, commentLine]) =
        [⟨.whitespace, [' ', '\t']⟩,
          ⟨.stringLiteralMulti, "\\\\a\\\\\"\r\n\r\\\\\r\n\\\\// ".toList⟩, ⟨.eof, []⟩] ∧
      (∃ p n,
        Zon.parse? (indentedLine.join [emptyLine, commentLine]) = some p ∧
        (∀ d ∈ p.diagnostics, d.severity ≠ .error) ∧
        (p.root.node.descendants.filter fun m => m.kind == .stringLiteral) = [n] ∧
        Zon.StringLiteral.isMultiline n = true ∧
        Zon.StringLiteral.content n = "a\\\\\"\n\n// ".toList ∧
        Zon.StringLiteral.ranges n = [⟨4, 8⟩, ⟨13, 13⟩, ⟨17, 20⟩]) ∧
      ∃ q decl n,
        Zig.parse? (Zig.asInitializer (indentedLine.join [emptyLine, commentLine])) = some q ∧
        q.diagnostics = [] ∧
        Zig.SourceFile.members q.root.node = [decl] ∧
        Zig.VarDecl.initializer? decl = some n ∧
        Zig.StringLiteral.isMultiline n = true ∧
        Zig.StringLiteral.content n = "a\\\\\"\n\n// ".toList ∧
        Zig.StringLiteral.ranges n = [⟨14, 18⟩, ⟨23, 23⟩, ⟨27, 30⟩] := by
  obtain ⟨hlex, -, ⟨p, n, hzon, herrors, hliterals, hn⟩, q, decl, m, hzig, hq, hmembers, -,
    hinitializer, -, hm⟩ := exists_parse_join indentedLine [emptyLine, commentLine]
  exact ⟨by decide, hlex,
    ⟨p, n, hzon, herrors, hliterals, hn.multiline_eq, hn.content_eq, hn.ranges_eq⟩,
    q, decl, m, hzig, hq, hmembers, hinitializer, hm.multiline_eq, hm.content_eq, hm.ranges_eq⟩

end ZigCst
