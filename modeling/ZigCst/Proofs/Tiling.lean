import Mathlib.Data.List.Chain
import Mathlib.Data.List.TakeWhile
import ZigCst.Proofs.Lossless
import ZigCst.Zig.Lexer
import ZigCst.Zon.Lexer

/-!
# Tokens tile the text

The tokens of a text stand one after another without gaps, each of them takes a
part of the text between two characters, and the empty end of file stands behind
all of them.  This much holds of every stream that is read lexeme by lexeme.

What is left depends on the readings: none of them is the end of file, only blanks
and literals of several lines hold a line feed, and a character that starts no
token is read alone.

**Definitions.**
* `Tiles text ls`: the tokens `ls` tile `text`.
* `Cut.Avoids`, `Cut.OneLine`: some character, or the line feed, is not taken.
* `Reading.Keeps kinds c r`: what a reading that starts with `c` has to keep.

**Results.**
* `tiles_locate`: a stream of non-empty lexemes and the end of file tiles the text
  that it spells out.
* `exists_lexWith_keeps`: what every reading keeps, every lexeme keeps.
* `exists_restart?_tiles`: both lexers tile every text.
-/

namespace ZigCst

/-! ## Streams in place -/

section Places

variable {K : Type}

/-- Whether tokens tile a text. -/
structure Tiles [Vocabulary K] (text : Text) (ls : List (Located K)) : Prop where
  first : ls.head?.map Located.start = some 0
  adjacent : ls.IsChain fun l m => l.range.stop = m.range.start
  /-- Every token stands between two characters. -/
  boundary : ∀ l ∈ ls,
    (text.splitAt? l.range.start).isSome ∧ (text.splitAt? l.range.stop).isSome
  slice : ∀ l ∈ ls, text.slice? l.range.start l.range.stop = some l.text
  /-- The end of file is empty, stands at the end and nowhere else, and all other
  tokens take something. -/
  last : ∃ front, ls = front ++ [⟨⟨Vocabulary.eof, []⟩, text.size⟩] ∧
    ∀ l ∈ front, l.kind ≠ Vocabulary.eof ∧ l.range.start < l.range.stop

theorem isChain_locate
    (start : Nat)
    (ls : List (Lexeme K)) :
    (locate start ls).IsChain fun l m => l.range.stop = m.range.start := by
  induction ls generalizing start with
  | nil => exact .nil
  | cons l ls ih =>
      cases ls with
      | nil => exact .singleton _
      | cons m ls => exact .cons_cons rfl (ih _)

/-- A lexeme in place stands behind the text before it. -/
theorem exists_split_of_mem_locate
    {start : Nat}
    {ls : List (Lexeme K)}
    {l : Located K}
    (h : l ∈ locate start ls) :
    ∃ before after,
      ls = before ++ l.toLexeme :: after ∧ l.start = start + (textOf before).size := by
  induction ls generalizing start with
  | nil => simp [locate] at h
  | cons m ls ih =>
      rw [locate] at h
      rcases List.mem_cons.mp h with rfl | h
      · exact ⟨[], ls, rfl, rfl⟩
      · obtain ⟨before, after, rfl, hstart⟩ := ih h
        refine ⟨m :: before, after, rfl, ?_⟩
        rw [hstart, textOf, textOf, List.flatMap_cons, Text.size_append, Nat.add_assoc]

/-- A lexeme in place is the part of the text between two of its characters. -/
theorem slice?_of_mem_locate
    {ls : List (Lexeme K)}
    {l : Located K}
    (h : l ∈ locate 0 ls) :
    (Text.splitAt? l.range.start (textOf ls)).isSome ∧
      (Text.splitAt? l.range.stop (textOf ls)).isSome ∧
      Text.slice? l.range.start l.range.stop (textOf ls) = some l.text := by
  obtain ⟨before, after, rfl, hstart⟩ := exists_split_of_mem_locate h
  rw [Nat.zero_add] at hstart
  have htext : textOf (before ++ l.toLexeme :: after) =
      textOf before ++ (l.text ++ textOf after) := by
    simp [textOf]
  have hstop : l.range.stop = (textOf before ++ l.text).size := by
    rw [Text.size_append, ← hstart]
    rfl
  have hbegin : l.range.start = (textOf before).size := hstart
  refine ⟨?_, ?_, ?_⟩
  · rw [htext, hbegin, Text.splitAt?_size_append]
    rfl
  · rw [htext, hstop, ← List.append_assoc, Text.splitAt?_size_append]
    rfl
  · rw [htext, hstop, hbegin, Text.size_append, Text.slice?_append]

/-- A stream of non-empty lexemes with the end of file behind them tiles the text
that it spells out. -/
theorem tiles_locate
    [Vocabulary K]
    {front : List (Lexeme K)}
    (hfront : ∀ l ∈ front, l.kind ≠ Vocabulary.eof ∧ l.text ≠ []) :
    Tiles (textOf (front ++ [⟨Vocabulary.eof, []⟩]))
      (locate 0 (front ++ [⟨Vocabulary.eof, []⟩])) where
  first := by cases front <;> rfl
  adjacent := isChain_locate 0 _
  boundary := fun l hl =>
    ⟨(slice?_of_mem_locate hl).1, (slice?_of_mem_locate hl).2.1⟩
  slice := fun l hl => (slice?_of_mem_locate hl).2.2
  last := by
    refine ⟨locate 0 front, ?_, fun l hl => ?_⟩
    · rw [locate_append]
      simp [locate, textOf]
    · obtain ⟨before, after, rfl, -⟩ := exists_split_of_mem_locate hl
      obtain ⟨hkind, htext⟩ := hfront l.toLexeme (by simp)
      refine ⟨hkind, ?_⟩
      have hsize : l.text.size ≠ 0 := mt Text.size_eq_zero_iff.mp htext
      exact Nat.lt_add_of_pos_right (Nat.pos_of_ne_zero hsize)

end Places

/-! ## Cuts that avoid a character -/

namespace Cut

variable {t : Text} {b : Char}

/-- Whether a character is not taken. -/
def Avoids (b : Char) (k : Cut t) : Prop := b ∉ k.taken

/-- Whether no line feed is taken. -/
abbrev OneLine (k : Cut t) : Prop := k.Avoids '\n'

theorem avoids_none (t : Text) : (Cut.none t).Avoids b := List.not_mem_nil

theorem Avoids.cons
    {k : Cut t}
    (h : k.Avoids b)
    {c : Char}
    (hc : c ≠ b) :
    (k.cons c).Avoids b :=
  List.not_mem_cons_of_ne_of_not_mem hc.symm h

theorem avoids_span
    {p : Char → Bool}
    (hp : p b = false)
    (t : Text) :
    (Cut.span p t).Avoids b := by
  intro h
  have htaken : p b = true := List.mem_takeWhile_imp h
  rw [hp] at htaken
  exact Bool.false_ne_true htaken

theorem Avoids.andThen
    {k : Cut t}
    (hk : k.Avoids b)
    {f : (r : Text) → Cut r}
    (hf : ∀ r, (f r).Avoids b) :
    (k.andThen f).Avoids b := by
  intro h
  rcases List.mem_append.mp h with h | h
  · exact hk h
  · exact hf _ h

theorem Avoids.ite
    {p : Prop}
    [Decidable p]
    {k l : Cut t}
    (hk : p → k.Avoids b)
    (hl : l.Avoids b) :
    (if p then k else l).Avoids b := by
  split
  · exact hk (by assumption)
  · exact hl

end Cut

namespace Scan

open Cut

theorem oneLine_line (t : Text) : (line t).OneLine := avoids_span (by decide) t

theorem oneLine_word (t : Text) : (word t).OneLine := avoids_span (by decide) t

/-- A quoted literal ends before the end of its line. -/
theorem oneLine_quoted
    (quote : Char)
    (t : Text) :
    (quoted quote t).OneLine := by
  fun_induction quoted quote t with
  | case1 => exact avoids_none []
  | case2 => exact (avoids_none []).cons (by decide)
  | case3 t => exact (avoids_none _).cons (by decide)
  | case4 c t hc ih => exact (ih.cons hc).cons (by decide)
  | case5 t => exact avoids_none _
  | case6 t hfeed => exact (avoids_none _).cons (by assumption)
  | case7 c t _ _ hc _ ih => exact ih.cons hc

theorem oneLine_digits
    (hex : Bool)
    (t : Text) :
    (digits hex t).OneLine := by
  refine avoids_span ?_ t
  cases hex <;> decide

theorem oneLine_fraction
    (hex : Bool)
    (t : Text) :
    (fraction hex t).OneLine := by
  unfold fraction
  split
  · exact .ite (fun _ => (oneLine_digits hex _).cons (by decide)) (avoids_none _)
  · exact avoids_none _

theorem oneLine_sign (t : Text) : (sign t).OneLine := by
  cases t with
  | nil => exact avoids_none _
  | cons c t =>
      refine .ite (fun hc => (avoids_none _).cons ?_) (avoids_none _)
      rcases hc with rfl | rfl <;> decide

theorem oneLine_exponent
    (hex : Bool)
    (t : Text) :
    (exponent hex t).OneLine := by
  cases t with
  | nil => exact avoids_none _
  | cons c t =>
      refine .ite (fun hc => Avoids.cons ?_ ?_) (avoids_none _)
      · exact (oneLine_sign t).andThen (oneLine_digits false)
      · rintro rfl
        cases hex <;> simp at hc

theorem oneLine_radix
    (first : Char)
    (t : Text) :
    (radix first t).OneLine := by
  cases t with
  | nil => exact avoids_none _
  | cons c t =>
      refine .ite (fun hc => (avoids_none _).cons ?_) (avoids_none _)
      rcases hc.2 with rfl | rfl | rfl <;> decide

theorem oneLine_numeral
    (first : Char)
    (t : Text) :
    (numeral first t).2.OneLine := by
  refine Avoids.andThen (Avoids.andThen (Avoids.andThen ?_ ?_) ?_) oneLine_word
  · exact (oneLine_radix first t).andThen (oneLine_digits _)
  · exact oneLine_fraction _
  · exact oneLine_exponent _

end Scan

/-! ## What readings keep -/

section Readings

variable {K : Type} [Vocabulary K]

/-- What a reading that starts with `c` keeps: it is not the end of file, a line
feed is taken only into one of the given kinds, and a bad character is alone. -/
structure Reading.Keeps (kinds : List K) (c : Char) {t : Text} (r : Reading K t) : Prop where
  kind_ne : r.kind ≠ Vocabulary.eof
  lineFeed : '\n' ∈ c :: r.cut.taken → r.kind ∈ kinds
  alone : r.kind = Vocabulary.badCharacter → r.cut.taken = []

/-- A token within a line. -/
theorem Reading.keeps_of_oneLine
    {kinds : List K}
    {kind : K}
    {c : Char}
    {t : Text}
    {cut : Cut t}
    (heof : kind ≠ Vocabulary.eof)
    (hbad : kind ≠ Vocabulary.badCharacter)
    (hc : c ≠ '\n')
    (hline : cut.OneLine) :
    (Reading.mk kind cut).Keeps kinds c where
  kind_ne := heof
  lineFeed := fun h => absurd h (List.not_mem_cons_of_ne_of_not_mem hc.symm hline)
  alone := fun h => absurd h hbad

/-- A character by itself. -/
theorem Reading.keeps_none
    {kinds : List K}
    {kind : K}
    {c : Char}
    {t : Text}
    (heof : kind ≠ Vocabulary.eof)
    (hc : c ≠ '\n') :
    (Reading.mk kind (.none t)).Keeps kinds c where
  kind_ne := heof
  lineFeed := fun h => absurd h (List.not_mem_cons_of_ne_of_not_mem hc.symm List.not_mem_nil)
  alone := fun _ => rfl

/-- A token that may hold line feeds. -/
theorem Reading.keeps_of_mem
    {kinds : List K}
    {kind : K}
    {c : Char}
    {t : Text}
    {cut : Cut t}
    (heof : kind ≠ Vocabulary.eof)
    (hbad : kind ≠ Vocabulary.badCharacter)
    (hmem : kind ∈ kinds) :
    (Reading.mk kind cut).Keeps kinds c where
  kind_ne := heof
  lineFeed := fun _ => hmem
  alone := fun h => absurd h hbad

theorem Reading.keeps_ite
    {kinds : List K}
    {kind other : K}
    {c : Char}
    {t : Text}
    {cut : Cut t}
    {holds : Bool}
    (hkind : (Reading.mk kind cut).Keeps kinds c)
    (hother : (Reading.mk other cut).Keeps kinds c) :
    (Reading.mk (if holds then kind else other) cut).Keeps kinds c := by
  cases holds
  · exact hother
  · exact hkind

/-- What every reading keeps, every lexeme before the end of file keeps. -/
theorem exists_lexWith_keeps
    {read : (c : Char) → (t : Text) → Reading K t}
    {kinds : List K}
    (hread : ∀ c t, (read c t).Keeps kinds c)
    (text : Text) :
    ∃ front,
      lexWith read text = front ++ [⟨Vocabulary.eof, []⟩] ∧
      ∀ l ∈ front,
        (l.kind ≠ Vocabulary.eof ∧ l.text ≠ []) ∧
        ('\n' ∈ l.text → l.kind ∈ kinds) ∧
        (l.kind = Vocabulary.badCharacter → l.text.length = 1) := by
  fun_induction lexWith read text with
  | case1 => exact ⟨[], rfl, by simp⟩
  | case2 c t r ih =>
      obtain ⟨front, hfront, hkeeps⟩ := ih
      have hr : r.Keeps kinds c := hread c t
      refine ⟨⟨r.kind, c :: r.cut.taken⟩ :: front, by rw [hfront]; rfl, ?_⟩
      refine List.forall_mem_cons.mpr ⟨⟨⟨hr.kind_ne, List.cons_ne_nil _ _⟩, hr.lineFeed, ?_⟩, hkeeps⟩
      intro hbad
      simp [hr.alone hbad]

end Readings

/-! ## Zig -/

namespace Zig

/-- Kinds of tokens that may hold a line feed. -/
def multilineKinds : List Kind := [.whitespace, .stringLiteralMulti]

/-- An operator is written on one line, and it is neither the end of file nor a bad
character. -/
theorem operator?_eq_some
    {c : Char}
    {chain : Chain Kind}
    (h : operator? c = some chain) :
    ∀ x ∈ chain.endings, x.2 ≠ .eof ∧ x.2 ≠ .badCharacter ∧ '\n' ∉ x.1 := by
  revert h
  fun_cases operator? c
  all_goals
    intro h
    cases h
    try decide

theorem keeps_readOperator
    {c : Char}
    (hc : c ≠ '\n')
    (t : Text) :
    (readOperator c t).Keeps multilineKinds c := by
  rw [readOperator]
  split
  · rename_i chain hoperator
    obtain ⟨heof, hbad, hline⟩ := operator?_eq_some hoperator _ (chain.mem_endings_read t)
    exact Reading.keeps_of_oneLine heof hbad hc hline
  · exact Reading.keeps_none (by decide) hc

theorem keeps_readAtSign (t : Text) : (readAtSign t).Keeps multilineKinds '@' := by
  have hat : '@' ≠ '\n' := by decide
  cases t with
  | nil => exact Reading.keeps_none (by decide) hat
  | cons c t =>
      rw [readAtSign]
      split
      · rename_i hc
        refine Reading.keeps_of_oneLine (by decide) (by decide) hat ?_
        exact (Scan.oneLine_quoted _ t).cons (by rw [hc]; decide)
      split
      · exact Reading.keeps_of_oneLine (by decide) (by decide) hat (Scan.oneLine_word _)
      · exact Reading.keeps_none (by decide) hat

/-- A word is a keyword or an identifier. -/
theorem ofKeyword?_getD_ne
    (word : Text)
    {kind : Kind}
    (hkeyword : kind.isKeyword = false)
    (hidentifier : kind ≠ .identifier) :
    (Kind.ofKeyword? word).getD .identifier ≠ kind := by
  cases h : Kind.ofKeyword? word with
  | none => exact hidentifier.symm
  | some k =>
      rintro rfl
      rw [Option.getD_some, Kind.isKeyword_of_ofKeyword? h] at hkeyword
      simp at hkeyword

theorem keeps_readOther
    (c : Char)
    (t : Text) :
    (read.readOther c t).Keeps multilineKinds c := by
  rw [read.readOther]
  split
  · exact Reading.keeps_of_mem (by decide) (by decide) (by decide)
  rename_i hblank
  have hc : c ≠ '\n' := by
    rintro rfl
    exact hblank (by decide)
  split
  · exact Reading.keeps_of_oneLine (by decide) (by decide) hc (Scan.oneLine_quoted _ t)
  split
  · exact Reading.keeps_of_oneLine (by decide) (by decide) hc (Scan.oneLine_quoted _ t)
  split
  · rename_i hat
    exact hat ▸ keeps_readAtSign t
  split
  · refine Reading.keeps_ite ?_ ?_
    · exact Reading.keeps_of_oneLine (by decide) (by decide) hc (Scan.oneLine_numeral c t)
    · exact Reading.keeps_of_oneLine (by decide) (by decide) hc (Scan.oneLine_numeral c t)
  split
  · refine Reading.keeps_of_oneLine ?_ ?_ hc (Scan.oneLine_word t)
    · exact ofKeyword?_getD_ne _ (by decide) (by decide)
    · exact ofKeyword?_getD_ne _ (by decide) (by decide)
  · exact keeps_readOperator hc t

theorem commentKind_ne
    (t : Text)
    {kind : Kind}
    (hkind : kind.isTrivia = false) :
    commentKind t ≠ kind := by
  rintro rfl
  revert hkind
  fun_cases commentKind t <;> simp [Kind.isTrivia]

theorem keeps_read
    (c : Char)
    (t : Text) :
    (read c t).Keeps multilineKinds c := by
  unfold read
  split
  · split
    · rename_i hc
      refine Reading.keeps_of_oneLine ?_ ?_ (by rw [hc]; decide) ?_
      · exact commentKind_ne _ (by decide)
      · exact commentKind_ne _ (by decide)
      · exact (Scan.oneLine_line _).cons (by decide)
    · exact keeps_readOther c _
  · split
    · exact Reading.keeps_of_mem (by decide) (by decide) (by decide)
    · exact keeps_readOther c _
  · exact keeps_readOther c _

end Zig

/-! ## Zon -/

namespace Zon

/-- Kinds of tokens that may hold a line feed. -/
def multilineKinds : List Kind := [.whitespace, .lineString]

theorem punctuation?_getD_ne_eof (c : Char) : (punctuation? c).getD .badCharacter ≠ .eof := by
  fun_cases punctuation? c <;> decide

theorem keeps_readOther
    (c : Char)
    (t : Text) :
    (read.readOther c t).Keeps multilineKinds c := by
  rw [read.readOther]
  split
  · exact Reading.keeps_of_mem (by decide) (by decide) (by decide)
  rename_i hblank
  have hc : c ≠ '\n' := by
    rintro rfl
    exact hblank (by decide)
  split
  · exact Reading.keeps_of_oneLine (by decide) (by decide) hc (Scan.oneLine_quoted _ t)
  split
  · exact Reading.keeps_of_oneLine (by decide) (by decide) hc (Scan.oneLine_quoted _ t)
  split
  · refine Reading.keeps_ite ?_ ?_
    · exact Reading.keeps_of_oneLine (by decide) (by decide) hc (Scan.oneLine_numeral c t)
    · exact Reading.keeps_of_oneLine (by decide) (by decide) hc (Scan.oneLine_numeral c t)
  split
  · exact Reading.keeps_of_oneLine (by decide) (by decide) hc (Scan.oneLine_word t)
  · exact Reading.keeps_none (punctuation?_getD_ne_eof c) hc

theorem keeps_read
    (c : Char)
    (t : Text) :
    (read c t).Keeps multilineKinds c := by
  unfold read
  split
  · split
    · rename_i hc
      refine Reading.keeps_of_oneLine (by decide) (by decide) (by rw [hc]; decide) ?_
      exact (Scan.oneLine_line _).cons (by decide)
    · exact keeps_readOther c _
  · split
    · exact Reading.keeps_of_mem (by decide) (by decide) (by decide)
    · exact keeps_readOther c _
  · split
    · rename_i hc
      refine Reading.keeps_of_oneLine (by decide) (by decide) (by rw [hc]; decide) ?_
      exact (Scan.oneLine_quoted _ _).cons (by decide)
    · exact keeps_readOther c _
  · exact keeps_readOther c _

end Zon

/-! ## Both lexers -/

section Lexers

variable {K : Type} [Vocabulary K]

omit [Vocabulary K] in
/-- From the start, the whole stream is read. -/
theorem restart?_zero
    (lex : Text → List (Lexeme K))
    (text : Text) :
    restart? lex 0 text = some (locate 0 (lex text)) := by
  simp [restart?]

/-- The stream of a reader tiles the text and keeps what the readings keep. -/
theorem exists_restart?_of_keeps
    {read : (c : Char) → (t : Text) → Reading K t}
    {kinds : List K}
    (hread : ∀ c t, (read c t).Keeps kinds c)
    (hbad : (Vocabulary.eof : K) ≠ Vocabulary.badCharacter)
    (text : Text) :
    ∃ ls,
      restart? (lexWith read) 0 text = some ls ∧
      Tiles text ls ∧
      ∀ l ∈ ls,
        ('\n' ∈ l.text → l.kind ∈ kinds) ∧
        (l.kind = Vocabulary.badCharacter → l.text.length = 1) := by
  obtain ⟨front, hfront, hkeeps⟩ := exists_lexWith_keeps hread text
  have htiles := tiles_locate fun l hl => (hkeeps l hl).1
  rw [← hfront, textOf_lexWith] at htiles
  refine ⟨_, restart?_zero _ text, htiles, fun l hl => ?_⟩
  obtain ⟨before, after, hsplit, -⟩ := exists_split_of_mem_locate hl
  have hmem : l.toLexeme ∈ front ++ [⟨Vocabulary.eof, []⟩] := by
    rw [← hfront, hsplit]
    simp
  rcases List.mem_append.mp hmem with hmem | hmem
  · exact (hkeeps _ hmem).2
  · obtain ⟨hkind, htext⟩ := Lexeme.mk.inj (List.mem_singleton.mp hmem)
    refine ⟨fun h => ?_, fun h => absurd (hkind.symm.trans h) hbad⟩
    rw [htext] at h
    exact absurd h List.not_mem_nil

end Lexers

/-- **Both lexers tile every text.**  Their tokens follow each other from the first
byte to the last, between characters and without gaps; only the end of file is
empty, and it is the last one.  Line feeds stand in blanks and in literals of several
lines only, and a character that starts no token is one by itself. -/
theorem exists_restart?_tiles (text : Text) :
    (∃ ls, restart? Zig.lex 0 text = some ls ∧ Tiles text ls ∧
      ∀ l ∈ ls,
        ('\n' ∈ l.text → l.kind = .whitespace ∨ l.kind = .stringLiteralMulti) ∧
        (l.kind = .badCharacter → l.text.length = 1)) ∧
      ∃ ls, restart? Zon.lex 0 text = some ls ∧ Tiles text ls ∧
        ∀ l ∈ ls,
          ('\n' ∈ l.text → l.kind = .whitespace ∨ l.kind = .lineString) ∧
          (l.kind = .badCharacter → l.text.length = 1) := by
  constructor
  · obtain ⟨ls, hls, htiles, hkeeps⟩ := exists_restart?_of_keeps Zig.keeps_read (by decide) text
    refine ⟨ls, hls, htiles, fun l hl => ⟨fun hfeed => ?_, (hkeeps l hl).2⟩⟩
    simpa [Zig.multilineKinds] using (hkeeps l hl).1 hfeed
  · obtain ⟨ls, hls, htiles, hkeeps⟩ := exists_restart?_of_keeps Zon.keeps_read (by decide) text
    refine ⟨ls, hls, htiles, fun l hl => ⟨fun hfeed => ?_, (hkeeps l hl).2⟩⟩
    simpa [Zon.multilineKinds] using (hkeeps l hl).1 hfeed

end ZigCst
