import Mathlib.Data.List.TakeWhile
import ZigCst.Proofs.Joining
import ZigCst.Proofs.Seam
import ZigCst.Proofs.ZonPrint

/-!
# Lexing is local to lines

A line feed ends every token as the end of the text does, apart from blanks, which
run over it, and from literals of marked lines, which may go on in the next line.  So
where neither of these ends a text, a line feed and what follows can be read on their
own, whatever the text leaves open: a quoted literal, an escape, a numeral, a comment
or an operator.

**Definitions.**
* `HaltsAtLineFeeds kinds read`: a reading takes the same with a line feed and more
  behind, unless it is of one of the given kinds and reaches the end.
* `ReadsApart lex a b`: the stream of two texts in a row is made of both streams.

**Results.**
* `Zig.haltsAtLineFeeds_read`, `Zon.haltsAtLineFeeds_read`: all readings of both
  lexers halt at line feeds.
* `lexWith_append_lineFeed`: where readings halt at line feeds, streams are joined
  there.
* `readsApart_lineFeed`: both lexers are local to lines.
-/

namespace ZigCst

/-! ## Readings at a line feed -/

/-- Whether a reading takes the same with a line feed and more behind the text, unless
it is of one of the given kinds and reaches the end of the text. -/
def HaltsAtLineFeeds {K : Type}
    (kinds : List K)
    (read : (c : Char) → (t : Text) → Reading K t) : Prop :=
  ∀ c t more, ((read c t).cut.rest = [] → (read c t).kind ∉ kinds) →
    (read c (t ++ '\n' :: more)).kind = (read c t).kind ∧
      (read c (t ++ '\n' :: more)).cut.taken = (read c t).cut.taken

/-- Blanks that end before the text does are not continued. -/
theorem Scan.taken_blanks
    {t : Text}
    (h : (blanks t).rest ≠ [])
    (more : Text) :
    (blanks (t ++ more)).taken = (blanks t).taken := by
  change (t ++ more).takeWhile isBlank = t.takeWhile isBlank
  have hjoin := congrArg List.length (blanks t).join
  have hrest := List.length_pos_iff.mpr h
  rw [List.length_append] at hjoin
  rw [List.takeWhile_append, if_neg]
  intro hall
  change (t.takeWhile isBlank).length + _ = _ at hjoin
  omega

/-- Readings halt at line feeds if only blanks run over them, and marked lines before
a marked line. -/
theorem haltsAtLineFeeds_of_lineFeed
    {K : Type}
    {read : (c : Char) → (t : Text) → Reading K t}
    {blank marked : K}
    (hblank : ∀ c, Scan.isBlank c = true → ∀ t, read c t = ⟨blank, Scan.blanks t⟩)
    (hother : ∀ c, Scan.isBlank c = false → ∀ t more,
      ((read c t).kind = marked → (read c t).cut.rest = [] → ¬ Scan.Marked more) →
      (read c (t ++ '\n' :: more)).kind = (read c t).kind ∧
        (read c (t ++ '\n' :: more)).cut.taken = (read c t).cut.taken) :
    HaltsAtLineFeeds [blank, marked] read := by
  intro c t more h
  cases hc : Scan.isBlank c with
  | true =>
      rw [hblank c hc] at h ⊢
      rw [hblank c hc]
      exact ⟨rfl, Scan.taken_blanks (fun hrest => h hrest List.mem_cons_self) _⟩
  | false =>
      refine hother c hc t more fun hkind hrest => absurd ?_ (h hrest)
      rw [hkind]
      exact List.mem_cons_of_mem _ List.mem_cons_self

namespace Zig

theorem haltsAtLineFeeds_read : HaltsAtLineFeeds multilineKinds read :=
  haltsAtLineFeeds_of_lineFeed (fun _ hc => read_of_blank hc) (fun _ hc => read_lineFeed hc)

end Zig

namespace Zon

theorem readOther_lineFeed
    {c : Char}
    (hc : Scan.isBlank c = false)
    (t more : Text) :
    (read.readOther c (t ++ '\n' :: more)).kind = (read.readOther c t).kind ∧
      (read.readOther c (t ++ '\n' :: more)).cut.taken = (read.readOther c t).cut.taken := by
  rw [read.readOther, read.readOther]
  simp only [hc, Bool.false_eq_true, if_false]
  split
  · exact ⟨rfl, Scan.halts_quoted _ t more⟩
  split
  · exact ⟨rfl, Scan.halts_quoted _ t more⟩
  split
  · obtain ⟨hfloat, htaken⟩ := Scan.halts_numeral c t more
    exact ⟨by simp only [hfloat], htaken⟩
  split
  · exact ⟨rfl, Scan.halts_word t more⟩
  · exact ⟨rfl, rfl⟩

/-- Only a slash, a backslash or a quote in the second place changes what the first
character decides. -/
theorem read_cons_eq_readOther
    (c : Char)
    {d : Char}
    (hslash : d ≠ '/')
    (hbackslash : d ≠ '\\')
    (hquote : d ≠ '"')
    (t : Text) :
    read c (d :: t) = read.readOther c (d :: t) := by
  rw [read]
  · exact fun u hu => hslash (List.cons.inj hu).1
  · exact fun u hu => hbackslash (List.cons.inj hu).1
  · exact fun u hu => hquote (List.cons.inj hu).1

/-- A lexeme that does not start with a blank is the same with a line feed and more
behind, unless it reaches the line feed and marked lines go on there. -/
theorem read_lineFeed
    {c : Char}
    (hc : Scan.isBlank c = false)
    (t more : Text)
    (h : (read c t).kind = .lineString → (read c t).cut.rest = [] → ¬ Scan.Marked more) :
    (read c (t ++ '\n' :: more)).kind = (read c t).kind ∧
      (read c (t ++ '\n' :: more)).cut.taken = (read c t).cut.taken := by
  cases t with
  | nil => exact readOther_lineFeed hc [] more
  | cons d t =>
      have hother := readOther_lineFeed hc (d :: t) more
      by_cases hslash : d = '/'
      · subst hslash
        rw [List.cons_append, read, read]
        split
        · exact ⟨rfl, congrArg ('/' :: ·) (Scan.halts_line t more)⟩
        · exact hother
      by_cases hbackslash : d = '\\'
      · subst hbackslash
        rw [read] at h
        rw [List.cons_append, read, read]
        split
        · rename_i hmark
          rw [if_pos hmark] at h
          exact ⟨rfl, congrArg ('\\' :: ·) (Scan.taken_markedLines t more (h rfl))⟩
        · exact hother
      by_cases hquote : d = '"'
      · subst hquote
        rw [List.cons_append, read, read]
        split
        · exact ⟨rfl, congrArg ('"' :: ·) (Scan.halts_quoted '"' t more)⟩
        · exact hother
      · rw [List.cons_append, read_cons_eq_readOther c hslash hbackslash hquote,
          read_cons_eq_readOther c hslash hbackslash hquote]
        exact hother

theorem read_of_blank
    {c : Char}
    (hc : Scan.isBlank c = true)
    (t : Text) :
    read c t = ⟨.whitespace, Scan.blanks t⟩ := by
  rw [read_eq_readOther, read.readOther, if_pos hc]
  all_goals
    rintro rfl
    simp [Scan.isBlank] at hc

theorem haltsAtLineFeeds_read : HaltsAtLineFeeds multilineKinds read :=
  haltsAtLineFeeds_of_lineFeed (fun _ hc => read_of_blank hc) (fun _ hc => read_lineFeed hc)

end Zon

/-! ## Streams at a line feed -/

section Streams

variable {K : Type} [Vocabulary K]
  {read : (c : Char) → (t : Text) → Reading K t}
  {kinds : List K}

theorem lexWith_ne_nil (text : Text) : lexWith read text ≠ [] := by
  obtain ⟨front, hfront⟩ := exists_lexWith_eq read text
  rw [hfront]
  exact List.concat_ne_nil _ front

/-- The lexemes before the end of file, where the first one is known. -/
theorem dropLast_lexWith_cons
    (c : Char)
    (t : Text) :
    (lexWith read (c :: t)).dropLast =
      ⟨(read c t).kind, c :: (read c t).cut.taken⟩ ::
        (lexWith read (read c t).cut.rest).dropLast := by
  rw [lexWith, List.dropLast_cons_of_ne_nil (lexWith_ne_nil _)]

/-- The stream of two texts joined by a line feed is that of the first without its end
of file, and that of the second with the line feed. -/
theorem lexWith_append_lineFeed
    (hread : HaltsAtLineFeeds kinds read)
    (a b : Text)
    (hlast : ∀ l ∈ (lexWith read a).dropLast.getLast?, l.kind ∉ kinds) :
    lexWith read (a ++ '\n' :: b) = (lexWith read a).dropLast ++ lexWith read ('\n' :: b) := by
  match a with
  | [] =>
      rw [lexWith]
      rfl
  | c :: t =>
      rw [dropLast_lexWith_cons] at hlast ⊢
      -- The first lexeme may be the last one only if its kind allows it to be.
      obtain ⟨hkind, htaken⟩ := hread c t b (by
        intro hrest
        rw [hrest, lexWith] at hlast
        exact hlast _ rfl)
      have hbehind := lexWith_append_lineFeed hread (read c t).cut.rest b (by
        intro l hl
        refine hlast l ?_
        rw [List.getLast?_cons, Option.mem_def.mp hl]
        rfl)
      rw [List.cons_append, lexWith, hkind, htaken, Scan.rest_append htaken, hbehind,
        List.cons_append]
termination_by a.length
decreasing_by exact Nat.lt_succ_of_le (read c t).cut.length_rest_le

end Streams

/-- Whether the stream of two texts in a row is the stream of the first without its end
of file, followed by the stream of the second in its new place. -/
structure ReadsApart {K : Type} (lex : Text → List (Lexeme K)) (a b : Text) : Prop where
  /-- From the beginning on, the lexemes of a text are read in place. -/
  stream : ∀ t ∈ [a, b, a ++ b], restart? lex 0 t = some (locate 0 (lex t))
  joined : ∃ ls ms, restart? lex 0 a = some ls ∧ restart? lex 0 b = some ms ∧
    restart? lex 0 (a ++ b) = some (ls.dropLast ++ ms.map (Located.shift a.size))

/-- Streams that are joined are joined in place. -/
theorem readsApart_of_eq
    {K : Type}
    [Vocabulary K]
    {read : (c : Char) → (t : Text) → Reading K t}
    {a b : Text}
    (h : lexWith read (a ++ b) = (lexWith read a).dropLast ++ lexWith read b) :
    ReadsApart (lexWith read) a b := by
  refine ⟨fun t _ => restart?_zero _ t, _, _, restart?_zero _ a, restart?_zero _ b, ?_⟩
  obtain ⟨front, hfront⟩ := exists_lexWith_eq read a
  have hsize : (textOf front).size = a.size := by
    rw [← textOf_lexWith read a, hfront]
    simp [textOf]
  have hshift := locate_shift 0 a.size (lexWith read b)
  rw [restart?_zero, h, hfront, List.dropLast_concat, locate_append, locate_append, hsize,
    ← hshift]
  simp [locate]

/-- **Lexing is local to lines.**  A text whose last token is neither blank nor a
literal of marked lines is read the same with a line feed and any text behind it, and
these are read as if they stood alone. -/
theorem readsApart_lineFeed (a b : Text) :
    ((∀ l ∈ (Zig.lex a).dropLast.getLast?,
        l.kind ≠ .whitespace ∧ l.kind ≠ .stringLiteralMulti) →
      ReadsApart Zig.lex a ('\n' :: b)) ∧
    ((∀ l ∈ (Zon.lex a).dropLast.getLast?, l.kind ≠ .whitespace ∧ l.kind ≠ .lineString) →
      ReadsApart Zon.lex a ('\n' :: b)) := by
  constructor
  · intro hlast
    refine readsApart_of_eq (lexWith_append_lineFeed Zig.haltsAtLineFeeds_read a b ?_)
    intro l hl
    simpa [Zig.multilineKinds] using hlast l hl
  · intro hlast
    refine readsApart_of_eq (lexWith_append_lineFeed Zon.haltsAtLineFeeds_read a b ?_)
    intro l hl
    simpa [Zon.multilineKinds] using hlast l hl

/-- A quoted literal that is left open behind a backslash ends with its line, in both
languages. -/
theorem readsApart_lineFeed_open :
    (∀ l ∈ (Zig.lex ['=', '"', 'a', '\\']).dropLast.getLast?,
        l.kind ≠ .whitespace ∧ l.kind ≠ .stringLiteralMulti) ∧
      ReadsApart Zig.lex ['=', '"', 'a', '\\'] ['\n', '"', 'b'] ∧
      (∀ l ∈ (Zon.lex ['=', '"', 'a', '\\']).dropLast.getLast?,
        l.kind ≠ .whitespace ∧ l.kind ≠ .lineString) ∧
      ReadsApart Zon.lex ['=', '"', 'a', '\\'] ['\n', '"', 'b'] := by
  have hzig : ∀ l ∈ (Zig.lex ['=', '"', 'a', '\\']).dropLast.getLast?,
      l.kind ≠ .whitespace ∧ l.kind ≠ .stringLiteralMulti := by
    decide +kernel
  have hzon : ∀ l ∈ (Zon.lex ['=', '"', 'a', '\\']).dropLast.getLast?,
      l.kind ≠ .whitespace ∧ l.kind ≠ .lineString := by
    decide +kernel
  obtain ⟨hjoined, hjoined'⟩ := readsApart_lineFeed ['=', '"', 'a', '\\'] ['"', 'b']
  exact ⟨hzig, hjoined hzig, hzon, hjoined' hzon⟩

end ZigCst
