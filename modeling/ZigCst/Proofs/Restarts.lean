import ZigCst.Proofs.Joining
import ZigCst.Proofs.Tiling

/-!
# Lexing from any place

A lexer knows nothing of the text before the place where it starts, so from there it
reads what it would read if the rest of the text stood alone, only further to the
right.  Behind some lexemes of a text stands the stream of the text that is left;
started at a token boundary, a lexer therefore gives the tokens from there on.

**Definitions.**
* `Resumes lex text`: what a lexer gives from every place of a text.

**Results.**
* `lexWith_textOf_of_split`: what is left of a stream is the stream of what is left
  of the text.
* `exists_read_of_split`: every lexeme but the last is read at its place.
* `resumes_lexWith`: whatever its readings are, a lexer resumes.
* `resumes_lex`: both lexers do.
-/

namespace ZigCst

section Streams

variable {K : Type} [Vocabulary K]
  {read : (c : Char) → (t : Text) → Reading K t}
  {text : Text}

/-- A stream starts with the reading of the first character, or is the end of file. -/
theorem lexWith_eq_cons
    {l : Lexeme K}
    {ls : List (Lexeme K)}
    (h : lexWith read text = l :: ls) :
    (text = [] ∧ l = ⟨Vocabulary.eof, []⟩ ∧ ls = []) ∨
      ∃ c t, text = c :: t ∧ l = ⟨(read c t).kind, c :: (read c t).cut.taken⟩ ∧
        ls = lexWith read (read c t).cut.rest := by
  cases text with
  | nil =>
      rw [lexWith] at h
      obtain ⟨rfl, rfl⟩ := List.cons.inj h
      exact .inl ⟨rfl, rfl, rfl⟩
  | cons c t =>
      rw [lexWith] at h
      obtain ⟨rfl, rfl⟩ := List.cons.inj h
      exact .inr ⟨c, t, rfl, rfl, rfl⟩

/-- Where a stream is split, its text is. -/
theorem eq_append_of_split
    {front rest : List (Lexeme K)}
    (h : lexWith read text = front ++ rest) :
    text = textOf front ++ textOf rest := by
  rw [← textOf_lexWith read text, h]
  simp [textOf]

/-- What is left of a stream is the stream of what is left of the text, and all
lexemes before it take something. -/
theorem lexWith_textOf_of_split
    {front rest : List (Lexeme K)}
    (h : lexWith read text = front ++ rest)
    (hrest : rest ≠ []) :
    lexWith read (textOf rest) = rest ∧ ∀ l ∈ front, l.text ≠ [] := by
  induction front generalizing text with
  | nil =>
      rw [List.nil_append] at h
      refine ⟨?_, fun l hl => absurd hl List.not_mem_nil⟩
      rw [← h, textOf_lexWith]
  | cons l front ih =>
      rcases lexWith_eq_cons h with ⟨-, -, hnil⟩ | ⟨c, t, -, rfl, hls⟩
      · exact absurd (List.append_eq_nil_iff.mp hnil).2 hrest
      · obtain ⟨hstream, hfront⟩ := ih hls.symm
        exact ⟨hstream, List.forall_mem_cons.mpr ⟨List.cons_ne_nil _ _, hfront⟩⟩

/-- Every lexeme but the end of file is read at its place, from the text that is
left there. -/
theorem exists_read_of_split
    {front after : List (Lexeme K)}
    {l : Lexeme K}
    (h : lexWith read text = front ++ l :: after) :
    (l = ⟨Vocabulary.eof, []⟩ ∧ after = []) ∨
      ∃ c t, textOf (l :: after) = c :: t ∧
        l = ⟨(read c t).kind, c :: (read c t).cut.taken⟩ := by
  have hstream := (lexWith_textOf_of_split h (List.cons_ne_nil l after)).1
  rcases lexWith_eq_cons hstream with ⟨-, hl, hafter⟩ | ⟨c, t, htext, hl, -⟩
  · exact .inl ⟨hl, hafter⟩
  · exact .inr ⟨c, t, htext, hl⟩

end Streams

/-! ## Places -/

section Places

variable {K : Type}

theorem le_start_of_mem_locate
    {start : Nat}
    {ls : List (Lexeme K)}
    {l : Located K}
    (h : l ∈ locate start ls) :
    start ≤ l.start := by
  obtain ⟨before, after, -, hstart⟩ := exists_split_of_mem_locate h
  rw [hstart]
  exact Nat.le_add_right _ _

/-- Lexemes that take something start before the place where the last of them ends. -/
theorem start_lt_of_mem_locate
    {start : Nat}
    {ls : List (Lexeme K)}
    {l : Located K}
    (h : l ∈ locate start ls)
    (hsome : ∀ l ∈ ls, l.text ≠ []) :
    l.start < start + (textOf ls).size := by
  obtain ⟨before, after, rfl, hstart⟩ := exists_split_of_mem_locate h
  have hl : l.text.size ≠ 0 := mt Text.size_eq_zero_iff.mp (hsome l.toLexeme (by simp))
  have hsize : (textOf (before ++ l.toLexeme :: after)).size =
      (textOf before).size + (l.text.size + (textOf after).size) := by
    simp [textOf]
  omega

/-- A lexeme ends as far before the end as the lexemes behind it are long. -/
theorem stop_add_size_of_split
    {start : Nat}
    {ls : List (Lexeme K)}
    {before after : List (Located K)}
    {l : Located K}
    (h : locate start ls = before ++ l :: after) :
    l.range.stop + (textOf (after.map Located.toLexeme)).size = start + (textOf ls).size := by
  induction before generalizing start ls with
  | nil =>
      cases ls with
      | nil => exact absurd h (List.cons_ne_nil _ _).symm
      | cons m ls =>
          rw [locate, List.nil_append] at h
          obtain ⟨rfl, rfl⟩ := List.cons.inj h
          have hstop : Range.stop (Located.range ⟨m, start⟩) = start + m.text.size := rfl
          rw [map_toLexeme_locate, textOf_cons, Text.size_append, hstop, Nat.add_assoc]
  | cons k before ih =>
      cases ls with
      | nil => exact absurd h (List.cons_ne_nil _ _).symm
      | cons m ls =>
          rw [locate, List.cons_append] at h
          rw [ih (List.cons.inj h).2, textOf_cons, Text.size_append, Nat.add_assoc]

/-- The lexemes from a boundary on are those that start there or behind. -/
theorem filter_locate_append
    (start : Nat)
    {front : List (Lexeme K)}
    (hsome : ∀ l ∈ front, l.text ≠ [])
    (rest : List (Lexeme K)) :
    (locate start (front ++ rest)).filter
        (fun l => decide (start + (textOf front).size ≤ l.range.start)) =
      locate (start + (textOf front).size) rest := by
  rw [locate_append, List.filter_append]
  have hfront : (locate start front).filter
      (fun l => decide (start + (textOf front).size ≤ l.range.start)) = [] := by
    refine List.filter_eq_nil_iff.mpr fun l hl => ?_
    rw [decide_eq_true_eq]
    exact Nat.not_le.mpr (start_lt_of_mem_locate hl hsome)
  have hrest : (locate (start + (textOf front).size) rest).filter
      (fun l => decide (start + (textOf front).size ≤ l.range.start)) =
        locate (start + (textOf front).size) rest := by
    refine List.filter_eq_self.mpr fun l hl => ?_
    exact decide_eq_true (le_start_of_mem_locate hl)
  rw [hfront, hrest, List.nil_append]

variable (lex : Text → List (Lexeme K))

/-- Between two parts of a text, the second part is read. -/
theorem restart?_append (front back : Text) :
    restart? lex front.size (front ++ back) = some (locate front.size (lex back)) := by
  have hstart : min front.size (Text.size (front ++ back)) = front.size := by
    rw [Text.size_append]
    omega
  rw [restart?, hstart, Text.splitAt?_size_append]
  rfl

/-- A place past the end is the end. -/
theorem restart?_of_size_le
    {offset : Nat}
    {text : Text}
    (h : text.size ≤ offset) :
    restart? lex offset text = some (locate text.size (lex [])) := by
  have hend := restart?_append lex text []
  rw [List.append_nil] at hend
  rw [← hend, restart?, restart?, Nat.min_eq_right h, Nat.min_self]

end Places

/-! ## Restarts -/

/-- What a lexer gives from every place of a text. -/
structure Resumes {K : Type} [Vocabulary K]
    (lex : Text → List (Lexeme K)) (text : Text) : Prop where
  /-- From the beginning on, the lexemes of the text are read in place. -/
  stream : restart? lex 0 text = some (locate 0 (lex text))
  /-- A range ends as far before the end of the text as what is unread then is long. -/
  unread : ∀ offset ls, restart? lex offset text = some ls →
    ∀ before l after, ls = before ++ l :: after →
      l.range.stop + (textOf (after.map Located.toLexeme)).size = text.size
  /-- Between two characters, the rest of the text is read as if it stood alone. -/
  shift : ∀ front back, text = front ++ back →
    ∃ ls, restart? lex 0 back = some ls ∧
      restart? lex front.size text = some (ls.map (Located.shift front.size))
  /-- Wherever it starts, what it reads stands in the whole text at its range. -/
  slice : ∀ offset ls, restart? lex offset text = some ls →
    ∀ l ∈ ls, text.slice? l.range.start l.range.stop = some l.text
  /-- At the start or the end of a token, the tokens from there on are read again. -/
  boundary : ∀ ls, restart? lex 0 text = some ls →
    ∀ offset, (∃ l ∈ ls, offset = l.range.start ∨ offset = l.range.stop) →
      restart? lex offset text = some (ls.filter fun l => decide (offset ≤ l.range.start))
  /-- Past the end there is the end of file. -/
  beyond : ∀ offset, text.size ≤ offset →
    restart? lex offset text = some [⟨⟨Vocabulary.eof, []⟩, text.size⟩]

section Restarts

variable {K : Type} [Vocabulary K] (read : (c : Char) → (t : Text) → Reading K t)

/-- A boundary of a stream parts its lexemes in two, the second part not being empty. -/
theorem exists_split_of_boundary
    {text : Text}
    {l : Located K}
    {offset : Nat}
    (hl : l ∈ locate 0 (lexWith read text))
    (hoffset : offset = l.range.start ∨ offset = l.range.stop) :
    ∃ front rest, lexWith read text = front ++ rest ∧ rest ≠ [] ∧
      offset = (textOf front).size := by
  obtain ⟨before, after, hsplit, hstart⟩ := exists_split_of_mem_locate hl
  rw [Nat.zero_add] at hstart
  have hsame : l.range.start = (textOf before).size := hstart
  rcases hoffset with rfl | rfl
  · exact ⟨before, l.toLexeme :: after, hsplit, List.cons_ne_nil _ _, hsame⟩
  -- The end of a token is the start of the next one; the end of file is empty.
  cases after with
  | nil =>
      obtain ⟨ls, hls⟩ := exists_lexWith_eq read text
      obtain ⟨-, hlast⟩ := List.append_inj' (hsplit.symm.trans hls) rfl
      have htext : l.text = [] := congrArg Lexeme.text (List.cons.inj hlast).1
      refine ⟨before, [l.toLexeme], hsplit, List.cons_ne_nil _ _, ?_⟩
      rw [← hsame, Located.range, htext]
      rfl
  | cons m after =>
      refine ⟨before ++ [l.toLexeme], m :: after, by rw [hsplit]; simp, List.cons_ne_nil _ _, ?_⟩
      have hsize : (textOf (before ++ [l.toLexeme])).size = (textOf before).size + l.text.size := by
        simp [textOf]
      rw [hsize, ← hsame]
      rfl

/-- Whatever its readings are, a lexer resumes in every text. -/
theorem resumes_lexWith (text : Text) : Resumes (lexWith read) text where
  stream := restart?_zero _ text
  unread := by
    rintro offset ls hls before l after rfl
    obtain ⟨⟨front, back⟩, hcut, hsplit⟩ := Option.map_eq_some_iff.mp hls
    obtain ⟨rfl, hsize⟩ := Text.splitAt?_eq_some hcut
    rw [stop_add_size_of_split hsplit, textOf_lexWith, ← hsize, Text.size_append]
  shift := by
    rintro front back rfl
    refine ⟨_, restart?_zero _ back, ?_⟩
    have hshift := locate_shift 0 front.size (lexWith read back)
    rw [Nat.zero_add] at hshift
    rw [restart?_append, hshift]
  slice := by
    intro offset ls hls l hl
    obtain ⟨⟨front, back⟩, hcut, rfl⟩ := Option.map_eq_some_iff.mp hls
    obtain ⟨rfl, hsize⟩ := Text.splitAt?_eq_some hcut
    rw [← hsize] at hl
    obtain ⟨before, after, hstream, hstart⟩ := exists_split_of_mem_locate hl
    have hback : back = textOf before ++ (l.text ++ textOf after) := by
      rw [← textOf_lexWith read back, hstream]
      simp [textOf]
    have hbegin : l.range.start = Text.size (front ++ textOf before) := by
      rw [Text.size_append]
      exact hstart
    have hstop : l.range.stop = Text.size (front ++ textOf before) + l.text.size := by
      rw [← hbegin]
      rfl
    rw [hback, ← List.append_assoc, hbegin, hstop, Text.slice?_append]
  boundary := by
    intro ls hls offset hoffset
    rw [restart?_zero] at hls
    obtain rfl := Option.some.inj hls
    obtain ⟨l, hl, hl'⟩ := hoffset
    obtain ⟨front, rest, hsplit, hrest, rfl⟩ := exists_split_of_boundary read hl hl'
    obtain ⟨hstream, hfront⟩ := lexWith_textOf_of_split hsplit hrest
    have hfilter := filter_locate_append 0 hfront rest
    rw [Nat.zero_add] at hfilter
    rw [hsplit, hfilter]
    rw [eq_append_of_split hsplit, restart?_append, hstream]
  beyond := by
    intro offset hoffset
    rw [restart?_of_size_le _ hoffset, lexWith]
    rfl

end Restarts

/-- **Lexing can start anywhere.**  Between two characters, both lexers read the rest
of the text as a text of its own, moved to its place; at a boundary of tokens they
read the tokens from there on once more, and past the end the end of file. -/
theorem resumes_lex (text : Text) : Resumes Zig.lex text ∧ Resumes Zon.lex text :=
  ⟨resumes_lexWith Zig.read text, resumes_lexWith Zon.read text⟩

end ZigCst
