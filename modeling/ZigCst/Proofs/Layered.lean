import ZigCst.Proofs.Escapes

/-!
# Literals split in place

The parts of a quoted text spell it out: plain runs without backslashes, no two of
them side by side, and escapes that start with one.  A highlighted file is the stream
of its lexemes in which every quoted literal gives way to its parts.  The reader of
that stream keeps parts back until they are asked for; what it still has to give is
known all the time, and every reading takes the first of it.

**Definitions.**
* `Zig.IsPart`: a plain run or an escape.
* `Zig.SplitsUp text r parts`: the parts tile the range.
* `Zig.splitLiteral`, `Zig.splitIn?`: what stands for a lexeme, and in place.
* `Zig.Highlighter.due`: what is still to be read.

**Results.**
* `Zig.exists_partsIn?_splitsUp`: every range between characters is split up.
* `Zig.Highlighter.run_eq_due`: all of it is read.
* `Zig.highlighted`: both streams side by side.
-/

namespace ZigCst

/-! ## Ranges between characters -/

/-- A range between two characters of a text takes a part of it. -/
theorem Text.exists_between
    {text : Text}
    {start stop : Nat}
    (hle : start ≤ stop)
    (hstart : (text.splitAt? start).isSome)
    (hstop : (text.splitAt? stop).isSome) :
    ∃ before part after,
      text = before ++ (part ++ after) ∧ before.size = start ∧ start + part.size = stop := by
  obtain ⟨⟨before, rest⟩, hstart⟩ := Option.isSome_iff_exists.mp hstart
  obtain ⟨⟨upTo, after⟩, hstop⟩ := Option.isSome_iff_exists.mp hstop
  obtain ⟨rfl, rfl⟩ := splitAt?_eq_some hstart
  obtain ⟨hsplit, rfl⟩ := splitAt?_eq_some hstop
  rcases List.append_eq_append_iff.mp hsplit with ⟨part, rfl, rfl⟩ | ⟨part, rfl, rfl⟩
  · exact ⟨before, part, after, rfl, rfl, (size_append _ _).symm⟩
  · -- The range is empty.
    have hnil : Text.size part = 0 := by
      rw [size_append] at hle
      omega
    obtain rfl := size_eq_zero_iff.mp hnil
    exact ⟨upTo, [], rest, by simp, by simp, by simp⟩

/-- The last lexeme in place ends where the text of all of them does. -/
theorem stop_of_mem_getLast?
    {K : Type}
    {start : Nat}
    {ls : List (Lexeme K)}
    {l : Located K}
    (hl : l ∈ (locate start ls).getLast?) :
    l.range.stop = start + (textOf ls).size := by
  rcases List.eq_nil_or_concat ls with rfl | ⟨front, last, rfl⟩
  · simp [locate] at hl
  · rw [List.concat_eq_append] at hl ⊢
    rw [locate_append, locate, locate, List.getLast?_concat] at hl
    obtain rfl := Option.some.inj hl
    simp [textOf, Located.range, Range.ofText, Nat.add_assoc]

namespace Zig

/-! ## Parts of a text -/

/-- Kinds of escapes, well-formed or not. -/
def escapeKinds : List Kind := [.validEscape, .invalidCharacterEscape, .invalidUnicodeEscape]

/-- The parts of a text: runs without backslashes, and escapes that start with one. -/
inductive IsPart : Lexeme Kind → Prop where
  | plain {t : Text} : t ≠ [] → '\\' ∉ t → IsPart ⟨.stringText, t⟩
  | escape {kind : Kind} {t : Text} : kind ∈ escapeKinds → IsPart ⟨kind, '\\' :: t⟩

theorem IsPart.text_ne_nil
    {l : Lexeme Kind}
    (h : IsPart l) :
    l.text ≠ [] := by
  cases h with
  | plain hne hplain => exact hne
  | escape hkind => exact List.cons_ne_nil _ _

theorem IsPart.kind_ne_eof
    {l : Lexeme Kind}
    (h : IsPart l) :
    l.kind ≠ .eof := by
  cases h with
  | plain hne hplain => exact Kind.noConfusion
  | escape hkind =>
      rintro rfl
      exact absurd hkind (by decide)

theorem readScalar_kind_mem (t : Text) : (readScalar t).kind ∈ escapeKinds := by
  unfold readScalar
  split
  · dsimp only
    split <;> decide
  · show Kind.invalidUnicodeEscape ∈ escapeKinds
    decide

theorem readEscape_kind_mem (t : Text) : (readEscape t).kind ∈ escapeKinds := by
  cases t with
  | nil => decide
  | cons c t =>
      by_cases hsimple : c ∈ simpleEscapes
      · rw [readEscape_simple hsimple]
        show Kind.validEscape ∈ escapeKinds
        decide
      by_cases hx : c = 'x'
      · subst hx
        rw [readEscape_x]
        dsimp only
        split <;> decide
      by_cases hu : c = 'u'
      · subst hu
        exact readScalar_kind_mem t
      · rw [readEscape_other hsimple hx hu]
        show Kind.invalidCharacterEscape ∈ escapeKinds
        decide

/-- What is read of a text is one of its parts. -/
theorem isPart_readPart
    (c : Char)
    (t : Text) :
    IsPart ⟨(readPart c t).kind, c :: (readPart c t).cut.taken⟩ := by
  by_cases hc : c = '\\'
  · subst hc
    exact .escape (readEscape_kind_mem t)
  · rw [readPart, if_neg hc]
    refine .plain (List.cons_ne_nil _ _) ?_
    exact List.not_mem_cons_of_ne_of_not_mem (Ne.symm hc) (Cut.avoids_span (by decide) t)

/-- Every text falls into parts. -/
theorem isPart_of_mem_escapes
    {t : Text}
    {l : Lexeme Kind}
    (hl : l ∈ escapes t) :
    IsPart l := by
  fun_induction escapes t with
  | case1 => simp at hl
  | case2 c t r ih =>
      rcases List.mem_cons.mp hl with rfl | hl
      · exact isPart_readPart c t
      · exact ih hl

/-- The parts of a text spell it out. -/
theorem textOf_escapes (t : Text) : textOf (escapes t) = t := by
  fun_induction escapes t with
  | case1 => rfl
  | case2 c t r ih =>
      rw [textOf] at ih ⊢
      rw [List.flatMap_cons, ih, List.cons_append, r.cut.join]

/-- Behind a plain run stands an escape, if anything. -/
theorem kind_ne_of_mem_head?
    {c : Char}
    (hc : c ≠ '\\')
    (t : Text)
    {l : Lexeme Kind}
    (hl : l ∈ (escapes (readPart c t).cut.rest).head?) :
    l.kind ≠ .stringText := by
  have hrest : (readPart c t).cut.rest = t.dropWhile (· != '\\') := by
    rw [readPart, if_neg hc]
    rfl
  have hhead := List.head?_dropWhile_not (· != '\\') t
  rw [hrest] at hl
  cases h : t.dropWhile (· != '\\') with
  | nil => simp [h, escapes] at hl
  | cons b rest =>
      rw [h] at hhead hl
      obtain rfl : b = '\\' := by simpa using hhead
      rw [escapes] at hl
      obtain rfl := Option.some.inj hl
      intro hkind
      have hmem := readEscape_kind_mem rest
      rw [show (readEscape rest).kind = .stringText from hkind] at hmem
      exact absurd hmem (by decide)

/-- No two plain runs stand side by side. -/
theorem isChain_escapes (t : Text) :
    (escapes t).IsChain fun l m => ¬ (l.kind = .stringText ∧ m.kind = .stringText) := by
  fun_induction escapes t with
  | case1 => exact .nil
  | case2 c t r ih =>
      refine ih.cons fun m hm hboth => ?_
      by_cases hc : c = '\\'
      · subst hc
        have hmem := readEscape_kind_mem t
        rw [show (readEscape t).kind = .stringText from hboth.1] at hmem
        exact absurd hmem (by decide)
      · exact kind_ne_of_mem_head? hc t hm hboth.2

/-- Whether parts tile a range of a text. -/
structure SplitsUp (text : Text) (r : Range) (parts : List (Located Kind)) : Prop where
  first : ∀ p ∈ parts.head?, p.range.start = r.start
  adjacent : parts.IsChain fun p q => p.range.stop = q.range.start
  last : ∀ p ∈ parts.getLast?, p.range.stop = r.stop
  nil_iff : parts = [] ↔ r.start = r.stop
  slice : ∀ p ∈ parts,
    p.range.start < p.range.stop ∧ text.slice? p.range.start p.range.stop = some p.text
  isPart : ∀ p ∈ parts, IsPart p.toLexeme
  /-- No two plain runs stand side by side. -/
  apart : parts.IsChain fun p q => ¬ (p.kind = .stringText ∧ q.kind = .stringText)

/-- The parts of a text that stands between two others split its range up. -/
theorem splitsUp_locate (before part after : Text) :
    SplitsUp (before ++ (part ++ after)) ⟨before.size, before.size + part.size⟩
      (locate before.size (escapes part)) where
  first := by
    cases escapes part with
    | nil => simp [locate]
    | cons l ls =>
        rintro p ⟨⟩
        rfl
  adjacent := isChain_locate _ _
  last := fun p hp => by rw [stop_of_mem_getLast? hp, textOf_escapes]
  nil_iff := by
    rw [← List.length_eq_zero_iff, ← List.length_map Located.toLexeme, map_toLexeme_locate,
      List.length_eq_zero_iff]
    constructor
    · intro hnil
      have htext := textOf_escapes part
      rw [hnil] at htext
      simp [← htext, textOf]
    · intro hsize
      have hzero : part.size = 0 := by
        dsimp only at hsize
        omega
      rw [Text.size_eq_zero_iff.mp hzero, escapes]
  slice := fun p hp => by
    obtain ⟨ls, ms, hsplit, hstart⟩ := exists_split_of_mem_locate hp
    have hpart := isPart_of_mem_escapes (show p.toLexeme ∈ escapes part by simp [hsplit])
    have hpos := Nat.pos_of_ne_zero (mt Text.size_eq_zero_iff.mp hpart.text_ne_nil)
    refine ⟨Nat.lt_add_of_pos_right hpos, ?_⟩
    have htext := textOf_escapes part
    rw [hsplit] at htext
    have hslice := Text.slice?_append (before ++ textOf ls) p.text (textOf ms ++ after)
    rw [Text.size_append, ← hstart] at hslice
    rw [← htext, Located.range, Range.ofText]
    simpa [textOf] using hslice
  isPart := fun p hp => by
    obtain ⟨ls, ms, hsplit, -⟩ := exists_split_of_mem_locate hp
    exact isPart_of_mem_escapes (show p.toLexeme ∈ escapes part by simp [hsplit])
  apart := by
    have hchain := isChain_escapes part
    rw [← map_toLexeme_locate before.size (escapes part), List.isChain_map] at hchain
    exact hchain

/-- Every range between two characters of a text is split up. -/
theorem exists_partsIn?_splitsUp
    {text : Text}
    {r : Range}
    (hle : r.start ≤ r.stop)
    (hstart : (text.splitAt? r.start).isSome)
    (hstop : (text.splitAt? r.stop).isSome) :
    ∃ parts, partsIn? text r = some parts ∧ SplitsUp text r parts := by
  obtain ⟨before, part, after, rfl, hbefore, hpart⟩ := Text.exists_between hle hstart hstop
  obtain rfl : r = ⟨before.size, before.size + part.size⟩ := by
    rw [hbefore, hpart]
  refine ⟨_, ?_, splitsUp_locate before part after⟩
  rw [partsIn?, Text.slice?_append]
  rfl

/-! ## Streams with their literals split -/

/-- What stands for a lexeme: the parts of a quoted literal, everything else itself. -/
def splitLiteral (l : Lexeme Kind) : List (Lexeme Kind) :=
  if l.kind = .stringLiteralSingle ∨ l.kind = .charLiteral then escapes l.text else [l]

/-- What stands for a lexeme in place. -/
def splitIn? (text : Text) (l : Located Kind) : Option (List (Located Kind)) :=
  if l.kind = .stringLiteralSingle ∨ l.kind = .charLiteral then partsIn? text l.range
  else some [l]

theorem textOf_splitLiteral (l : Lexeme Kind) : textOf (splitLiteral l) = l.text := by
  rw [splitLiteral]
  split
  · exact textOf_escapes l.text
  · exact List.append_nil _

theorem textOf_flatMap_splitLiteral (ls : List (Lexeme Kind)) :
    textOf (ls.flatMap splitLiteral) = textOf ls := by
  rw [textOf, List.flatMap_assoc]
  exact congrArg ls.flatMap (funext textOf_splitLiteral)

/-- A lexeme is split in place as it is by itself. -/
theorem splitIn?_eq
    {text : Text}
    {l : Lexeme Kind}
    {start : Nat}
    (hslice : text.slice? start (start + l.text.size) = some l.text) :
    splitIn? text ⟨l, start⟩ = some (locate start (splitLiteral l)) := by
  rw [splitIn?, splitLiteral]
  split
  · have hparts : text.slice? (Located.range ⟨l, start⟩).start (Located.range ⟨l, start⟩).stop =
        some l.text := hslice
    rw [partsIn?, hparts]
    rfl
  · rfl

/-- A stream whose lexemes are split is the lexemes of the stream split in place. -/
theorem exists_forall₂_splitIn?
    {text : Text}
    {start : Nat}
    {ls : List (Lexeme Kind)}
    (hslice : ∀ l ∈ locate start ls, text.slice? l.range.start l.range.stop = some l.text) :
    ∃ parts : List (List (Located Kind)),
      List.Forall₂ (fun l ps => splitIn? text l = some ps) (locate start ls) parts ∧
      locate start (ls.flatMap splitLiteral) = parts.flatten := by
  induction ls generalizing start with
  | nil => exact ⟨[], .nil, rfl⟩
  | cons l ls ih =>
      rw [locate] at hslice
      obtain ⟨hl, hls⟩ := List.forall_mem_cons.mp hslice
      obtain ⟨parts, hparts, hflatten⟩ := ih hls
      refine ⟨locate start (splitLiteral l) :: parts, .cons (splitIn?_eq hl) hparts, ?_⟩
      rw [List.flatMap_cons, locate_append, textOf_splitLiteral, hflatten, List.flatten_cons]

namespace Highlighter

/-- What is still to be read. -/
def due (h : Highlighter) : List (Lexeme Kind) := h.pending ++ h.ahead.flatMap splitLiteral

/-- Whether only the end of file is empty among the lexemes ahead. -/
def Full (h : Highlighter) : Prop := ∀ l ∈ h.ahead, l.text = [] → l.kind = .eof

/-- A lexeme that takes something is split if it is a quoted literal. -/
theorem splitLiteral_eq
    {l : Lexeme Kind}
    (hl : l.text = [] → l.kind = .eof) :
    splitLiteral l = if isSplit l then escapes l.text else [l] := by
  by_cases hnil : l.text = []
  · simp [splitLiteral, isSplit, hl hnil]
  · have hempty : l.text.isEmpty = false := List.isEmpty_eq_false_iff.mpr hnil
    simp [splitLiteral, isSplit, hempty]

/-- Nothing is due when nothing comes any more. -/
theorem due_of_next?_eq_none
    {h : Highlighter}
    (hfull : h.Full)
    (hnext : h.next? = none) :
    h.due = [] := by
  fun_cases next? h with
  | case1 p pending ahead => simp [next?] at hnext
  | case2 => rfl
  | case3 l ahead hsplit hparts =>
      -- A literal that is split takes something, and so has parts.
      have htext := textOf_escapes l.text
      rw [hparts] at htext
      simp [isSplit, ← htext, textOf] at hsplit
  | case4 l ahead hsplit p pending hparts => simp [next?, hsplit, hparts] at hnext
  | case5 l ahead hsplit => simp [next?, hsplit] at hnext

/-- What is read is the first of what is due. -/
theorem due_of_next?_eq_some
    {h h' : Highlighter}
    {l : Lexeme Kind}
    (hfull : h.Full)
    (hnext : h.next? = some (l, h')) :
    h'.Full ∧ h.due = l :: h'.due := by
  fun_cases next? h with
  | case1 p pending ahead =>
      cases hnext
      exact ⟨hfull, rfl⟩
  | case2 => simp [next?] at hnext
  | case3 l ahead hsplit hparts => simp [next?, hsplit, hparts] at hnext
  | case4 m ahead hsplit p pending hparts =>
      obtain ⟨hm, hahead⟩ := List.forall_mem_cons.mp hfull
      simp only [next?, hsplit, hparts, if_true] at hnext
      cases hnext
      refine ⟨hahead, ?_⟩
      simp [due, splitLiteral_eq hm, hsplit, hparts]
  | case5 m ahead hsplit =>
      obtain ⟨hm, hahead⟩ := List.forall_mem_cons.mp hfull
      simp only [next?, hsplit] at hnext
      cases hnext
      refine ⟨hahead, ?_⟩
      simp [due, splitLiteral_eq hm, hsplit]

/-- All that is due is read. -/
theorem run_eq_due
    {h : Highlighter}
    (hfull : h.Full) :
    h.run = h.due := by
  fun_induction run h with
  | case1 h hnext => exact (due_of_next?_eq_none hfull hnext).symm
  | case2 h l h' hnext ih =>
      obtain ⟨hfull', hdue⟩ := due_of_next?_eq_some hfull hnext
      rw [ih hfull', hdue]

end Highlighter

/-- Only the end of file is empty among the lexemes of a source file. -/
theorem kind_eq_eof_of_text_eq_nil
    {text : Text}
    {l : Lexeme Kind}
    (hl : l ∈ lex text)
    (hnil : l.text = []) :
    l.kind = .eof := by
  obtain ⟨front, hfront, hkeeps⟩ := exists_lexWith_keeps keeps_read text
  rw [lex, hfront] at hl
  rcases List.mem_append.mp hl with hl | hl
  · exact absurd hnil (hkeeps l hl).1.2
  · rw [List.mem_singleton.mp hl]
    rfl

/-- A highlighted file is its stream with the literals split. -/
theorem highlight_lex (text : Text) :
    highlight (lex text) = (lex text).flatMap splitLiteral :=
  Highlighter.run_eq_due fun _ hl hnil => kind_eq_eof_of_text_eq_nil hl hnil

/-- What stands for a lexeme that takes something takes something. -/
theorem ne_eof_of_mem_splitLiteral
    {l p : Lexeme Kind}
    (hl : l.kind ≠ .eof ∧ l.text ≠ [])
    (hp : p ∈ splitLiteral l) :
    p.kind ≠ .eof ∧ p.text ≠ [] := by
  rw [splitLiteral] at hp
  split at hp
  · have hpart := isPart_of_mem_escapes hp
    exact ⟨hpart.kind_ne_eof, hpart.text_ne_nil⟩
  · rw [List.mem_singleton.mp hp]
    exact hl

/-- The highlighted file tiles the text. -/
theorem tiles_highlight (text : Text) : Tiles text (locate 0 (highlight (lex text))) := by
  obtain ⟨front, hfront, hkeeps⟩ := exists_lexWith_keeps keeps_read text
  have hlex : lex text = front ++ [⟨.eof, []⟩] := hfront
  have hsplit : highlight (lex text) = front.flatMap splitLiteral ++ [⟨.eof, []⟩] := by
    rw [highlight_lex, hlex, List.flatMap_append]
    rfl
  have htext : textOf (highlight (lex text)) = text := by
    rw [highlight_lex, textOf_flatMap_splitLiteral]
    exact textOf_lexWith read text
  have htiles : Tiles (textOf (front.flatMap splitLiteral ++ [⟨Vocabulary.eof, []⟩]))
      (locate 0 (front.flatMap splitLiteral ++ [⟨Vocabulary.eof, []⟩])) := by
    refine tiles_locate fun p hp => ?_
    obtain ⟨l, hl, hp⟩ := List.mem_flatMap.mp hp
    exact ne_eof_of_mem_splitLiteral (hkeeps l hl).1 hp
  have heof : (Vocabulary.eof : Kind) = .eof := rfl
  rw [heof, ← hsplit, htext] at htiles
  exact htiles

/-- **Highlighting refines the stream.**  The highlighted file is the stream of the
file in which every quoted literal gives way, in place, to the parts of its range, and
it tiles the text.  Every range between two characters is tiled by its parts: runs
without backslashes, no two of them side by side, and escapes that start with one. -/
theorem highlighted (text : Text) :
    (∃ parts : List (List (Located Kind)),
      List.Forall₂ (fun l ps => splitIn? text l = some ps) (locate 0 (lex text)) parts ∧
      locate 0 (highlight (lex text)) = parts.flatten) ∧
    Tiles text (locate 0 (highlight (lex text))) ∧
    ∀ r : Range, r.start ≤ r.stop →
      (text.splitAt? r.start).isSome → (text.splitAt? r.stop).isSome →
      ∃ parts, partsIn? text r = some parts ∧ SplitsUp text r parts := by
  refine ⟨?_, tiles_highlight text, fun r => exists_partsIn?_splitsUp⟩
  rw [highlight_lex]
  refine exists_forall₂_splitIn? fun l hl => ?_
  have hslice := (slice?_of_mem_locate hl).2.2
  rwa [lex, textOf_lexWith] at hslice

/-- An open literal that ends in a dangling escape. -/
theorem highlighted_dangling :
    ∃ parts, partsIn? "x = \"\\q\\".toList ⟨4, 8⟩ = some parts ∧
      SplitsUp "x = \"\\q\\".toList ⟨4, 8⟩ parts :=
  (highlighted "x = \"\\q\\".toList).2.2 ⟨4, 8⟩ (by decide) (by decide) (by decide)

end Zig
end ZigCst
