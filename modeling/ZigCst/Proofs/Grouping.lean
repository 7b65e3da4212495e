import ZigCst.Proofs.Tiling

/-!
# Trivia attached by line

A stream falls into tokens in one way: each significant lexeme takes the trivia in front
of it that no token before has taken, and the trivia behind it up to a line feed.  The
ranges of tokens with their trivia are rebuilt from the lengths of the pieces alone, and
they are those of the stretches of the stream that the tokens were made of.

**Definitions.**
* `Lexeme.Trails`: whether a lexeme is trivia without a line feed.
* `Token.around`: the token of a lexeme and the trivia on both sides.
* `FallsInto`: how a stream falls into tokens.
* `Attached`: tokens hold a whole stream and take its trivia by line.

**Results.**
* `fallsInto_group`: grouping lets a stream fall into its tokens.
* `Token.fullRange_around`: full ranges are those of the stretches.
* `FallsInto.exists_split`: every token stands in the stream, and what leads a token that
  is not the first was not taken by the one before.
* `FallsInto.isChain_fullRange`: full ranges follow each other without gaps.
* `attached_group`: in both languages, grouping attaches trivia by line.
-/

namespace ZigCst

section Falling

variable {K : Type}

/-- The token of a lexeme and of the trivia on both sides, which stand from a position
on. -/
def Token.around
    (start : Nat)
    (leading : List (Lexeme K))
    (l : Lexeme K)
    (trailing : List (Lexeme K)) :
    Token K :=
  ⟨leading.map Lexeme.piece, ⟨l, start + (textOf leading).size⟩, trailing.map Lexeme.piece⟩

/-- What stands in front of a token in place is what its leading pieces add up to, and
its full range is that of the stretch of the stream that it was made of. -/
theorem Token.fullRange_around
    (start : Nat)
    (leading : List (Lexeme K))
    (l : Lexeme K)
    (trailing : List (Lexeme K)) :
    Piece.total (around start leading l trailing).leading ≤
        (around start leading l trailing).range.start ∧
      (around start leading l trailing).fullRange =
        ⟨start, start + (textOf (leading ++ l :: trailing)).size⟩ := by
  have hleading : Piece.total (around start leading l trailing).leading = (textOf leading).size :=
    Piece.total_map_piece leading
  have htrailing : Piece.total (around start leading l trailing).trailing =
      (textOf trailing).size :=
    Piece.total_map_piece trailing
  have hrange : (around start leading l trailing).range =
      ⟨start + (textOf leading).size, start + (textOf leading).size + l.text.size⟩ := rfl
  have hsize : (textOf (leading ++ l :: trailing)).size =
      (textOf leading).size + (l.text.size + (textOf trailing).size) := by
    simp [textOf]
  rw [fullRange, hleading, htrailing, hrange, hsize]
  constructor
  · exact Nat.le_add_left _ _
  · rw [Nat.add_sub_cancel, Nat.add_assoc, Nat.add_assoc]

/-- Where a stream in place is split, the stream is. -/
theorem exists_split_of_locate_eq
    {start : Nat}
    {ls : List (Lexeme K)}
    {xs ys : List (Located K)}
    (h : xs ++ ys = locate start ls) :
    ∃ ms ns,
      ls = ms ++ ns ∧ xs = locate start ms ∧ ys = locate (start + (textOf ms).size) ns := by
  induction xs generalizing start ls with
  | nil => exact ⟨[], ls, rfl, rfl, h⟩
  | cons x xs ih =>
      cases ls with
      | nil => simp [locate] at h
      | cons l ls =>
          obtain ⟨rfl, hplaced⟩ := List.cons.inj h
          obtain ⟨ms, ns, rfl, rfl, rfl⟩ := ih hplaced
          refine ⟨l :: ms, ns, rfl, rfl, ?_⟩
          simp [textOf, Nat.add_assoc]

/-- Lexemes are the part of the text between two of its characters. -/
theorem slice?_textOf (before ls after : List (Lexeme K)) :
    Text.slice? (textOf before).size ((textOf before).size + (textOf ls).size)
        (textOf (before ++ (ls ++ after))) =
      some (textOf ls) := by
  have htext : textOf (before ++ (ls ++ after)) =
      textOf before ++ (textOf ls ++ textOf after) := by
    simp [textOf]
  rw [htext, Text.slice?_append]

variable [Vocabulary K]

/-- Trivia that stays on its line. -/
def Lexeme.Trails (l : Lexeme K) : Prop := Vocabulary.isTrivia l.kind = true ∧ '\n' ∉ l.text

theorem Located.trails_iff {l : Located K} : l.trails = true ↔ l.toLexeme.Trails := by
  simp [trails, isTrivia, Lexeme.Trails]

/-- How a stream that starts at a position falls into tokens.  Trivia with nothing
significant behind them make no token. -/
inductive FallsInto : Nat → List (Lexeme K) → List (Token K) → Prop
  | nil
      {start : Nat}
      {ls : List (Lexeme K)}
      (htrivia : ∀ l ∈ ls, Vocabulary.isTrivia l.kind = true) :
      FallsInto start ls []
  | cons
      {start : Nat}
      {leading trailing rest : List (Lexeme K)}
      {l : Lexeme K}
      {ts : List (Token K)}
      (hleading : ∀ m ∈ leading, Vocabulary.isTrivia m.kind = true)
      (hkind : Vocabulary.isTrivia l.kind = false)
      (htrailing : ∀ m ∈ trailing, m.Trails)
      (hstop : ∀ m ∈ rest.head?, ¬ m.Trails)
      (hrest : FallsInto (start + (textOf (leading ++ l :: trailing)).size) rest ts) :
      FallsInto start (leading ++ l :: (trailing ++ rest)) (.around start leading l trailing :: ts)

/-- Grouping lets a stream fall into its tokens. -/
theorem fallsInto_group
    (start : Nat)
    (ls : List (Lexeme K)) :
    FallsInto start ls (group (locate start ls)) := by
  suffices h : ∀ placed : List (Located K), ∀ start ls, placed = locate start ls →
      FallsInto start ls (group placed) from h _ start ls rfl
  intro placed
  refine group_induction (P := fun placed ts => ∀ start ls, placed = locate start ls →
    FallsInto start ls ts) ?_ ?_ placed
  · intro placed htrivia start ls hplaced
    refine .nil fun l hl => ?_
    rw [← map_toLexeme_locate start ls, ← hplaced] at hl
    obtain ⟨m, hm, rfl⟩ := List.mem_map.mp hl
    exact htrivia m hm
  · intro leading l trailing rest hleading hkind htrailing hstop ih start ls hplaced
    obtain ⟨ms, ns, rfl, rfl, hsplit⟩ := exists_split_of_locate_eq hplaced
    cases ns with
    | nil => simp [locate] at hsplit
    | cons m ns =>
        rw [locate] at hsplit
        obtain ⟨rfl, hbehind⟩ := List.cons.inj hsplit
        obtain ⟨os, qs, rfl, rfl, rfl⟩ := exists_split_of_locate_eq hbehind
        have hmem : ∀ {place : Nat} {ms : List (Lexeme K)} {m : Lexeme K}, m ∈ ms →
            ∃ x ∈ locate place ms, x.toLexeme = m := by
          intro place ms m hm
          rw [← map_toLexeme_locate place ms] at hm
          exact List.mem_map.mp hm
        have hplace : start + (textOf (ms ++ m :: os)).size =
            start + (textOf ms).size + m.text.size + (textOf os).size := by
          simp [textOf, Nat.add_assoc]
        rw [map_piece_locate, map_piece_locate]
        refine .cons (l := m) ?_ hkind ?_ ?_ (hplace ▸ ih _ qs rfl)
        · intro m hm
          obtain ⟨x, hx, rfl⟩ := hmem hm
          exact hleading x hx
        · intro m hm
          obtain ⟨x, hx, rfl⟩ := hmem hm
          exact Located.trails_iff.mp (htrailing x hx)
        · cases qs with
          | nil => simp
          | cons r qs =>
              intro q hq htrails
              obtain rfl := Option.some.inj hq
              have hnot := hstop _ rfl
              rw [Located.trails_iff.mpr htrails] at hnot
              simp at hnot

namespace FallsInto

variable {start : Nat} {ls : List (Lexeme K)} {ts : List (Token K)}

/-- The first token begins where the stream does. -/
theorem start_eq
    (h : FallsInto start ls ts)
    {t : Token K}
    (ht : t ∈ ts.head?) :
    t.fullRange.start = start := by
  cases h with
  | nil htrivia => simp at ht
  | cons hleading hkind htrailing hstop hrest =>
      obtain rfl := Option.some.inj ht
      rw [(Token.fullRange_around ..).2]

/-- Tokens with their trivia follow each other without gaps. -/
theorem isChain_fullRange (h : FallsInto start ls ts) :
    ts.IsChain fun t u => t.fullRange.stop = u.fullRange.start := by
  induction h with
  | nil htrivia => exact .nil
  | cons hleading hkind htrailing hstop hrest ih =>
      refine ih.cons fun u hu => ?_
      rw [(Token.fullRange_around ..).2, hrest.start_eq hu]

/-- Every token stands in the stream, with the trivia behind it on its line.  What leads a
token that is not the first was not taken by the token before. -/
theorem exists_split
    (h : FallsInto start ls ts)
    (front : List (Token K))
    {behind : List (Token K)}
    {t : Token K}
    (hts : ts = front ++ t :: behind) :
    ∃ before leading l trailing after,
      ls = before ++ (leading ++ l :: (trailing ++ after)) ∧
      t = .around (start + (textOf before).size) leading l trailing ∧
      (∀ m ∈ leading, Vocabulary.isTrivia m.kind = true) ∧
      (∀ m ∈ trailing, m.Trails) ∧
      (front = [] → before = []) ∧
      (front ≠ [] → ∀ m ∈ leading.head?, ¬ m.Trails) := by
  induction h generalizing front with
  | nil htrivia => simp at hts
  | @cons start leading trailing rest l ts hleading hkind htrailing hstop hrest ih =>
      cases front with
      | nil =>
          obtain ⟨rfl, rfl⟩ := List.cons.inj hts
          exact ⟨[], leading, l, trailing, rest, rfl, rfl, hleading, htrailing, fun _ => rfl,
            fun hfront => absurd rfl hfront⟩
      | cons u front =>
          obtain ⟨before, leading', l', trailing', after, hsplit, ht, hleading', htrailing',
            hfirst, hothers⟩ := ih front (List.cons.inj hts).2
          refine ⟨leading ++ l :: (trailing ++ before), leading', l', trailing', after, ?_, ?_,
            hleading', htrailing', fun hnil => absurd hnil (List.cons_ne_nil _ _), fun _ => ?_⟩
          · rw [hsplit]
            simp
          · rw [ht]
            simp [textOf, Nat.add_assoc]
          · -- The second token begins where the first was stopped.
            cases front with
            | nil =>
                rw [hsplit, hfirst rfl] at hstop
                intro m hm
                cases leading' with
                | nil => simp at hm
                | cons r leading' => exact hstop m hm
            | cons v front => exact hothers (List.cons_ne_nil _ _)

/-- The part of the text behind a token, up to the end of its full range, holds no line
feed. -/
theorem exists_slice?_trailing
    (h : FallsInto 0 ls ts)
    {t : Token K}
    (ht : t ∈ ts) :
    ∃ s, Text.slice? t.range.stop t.fullRange.stop (textOf ls) = some s ∧ '\n' ∉ s := by
  obtain ⟨front, behind, hsplit⟩ := List.append_of_mem ht
  obtain ⟨before, leading, l, trailing, after, rfl, rfl, -, htrailing, -⟩ := h.exists_split front hsplit
  refine ⟨textOf trailing, ?_, fun hfeed => ?_⟩
  · have hslice := slice?_textOf (before ++ (leading ++ [l])) trailing after
    have hbegin : (Token.around (0 + (textOf before).size) leading l trailing).range.stop =
        (textOf (before ++ (leading ++ [l]))).size := by
      simp [Token.around, Token.range, Located.range, Range.ofText, textOf, Nat.add_assoc]
    have hend : (Token.around (0 + (textOf before).size) leading l trailing).fullRange.stop =
        (textOf (before ++ (leading ++ [l]))).size + (textOf trailing).size := by
      rw [(Token.fullRange_around ..).2]
      simp [textOf, Nat.add_assoc]
    rw [hbegin, hend, ← hslice]
    simp
  · obtain ⟨m, hm, hmem⟩ := List.mem_flatMap.mp hfeed
    exact (htrailing m hm).2 hmem

/-- What leads a token that is not the first starts with trivia that hold a line feed. -/
theorem exists_slice?_leading
    (h : FallsInto 0 ls ts)
    {t : Token K}
    (ht : t ∈ ts.tail)
    {p : Piece K}
    (hp : p ∈ t.leading.head?) :
    ∃ m ∈ ls, m.kind = p.kind ∧ Vocabulary.isTrivia m.kind = true ∧ '\n' ∈ m.text ∧
      Text.slice? t.fullRange.start (t.fullRange.start + p.length) (textOf ls) = some m.text := by
  cases ts with
  | nil => simp at ht
  | cons u ts =>
      obtain ⟨front, behind, rfl⟩ := List.append_of_mem ht
      obtain ⟨before, leading, l, trailing, after, rfl, rfl, htrivia, -, -, hstop⟩ :=
        h.exists_split (u :: front) rfl
      cases leading with
      | nil => simp [Token.around] at hp
      | cons m leading =>
          obtain rfl : m.piece = p := Option.some.inj hp
          have hkind := htrivia m List.mem_cons_self
          have hfeed : '\n' ∈ m.text := by
            by_contra hnot
            exact hstop (List.cons_ne_nil _ _) m rfl ⟨hkind, hnot⟩
          refine ⟨m, by simp, rfl, hkind, hfeed, ?_⟩
          have hslice := slice?_textOf before [m] (leading ++ l :: (trailing ++ after))
          have hone : textOf [m] = m.text := by simp [textOf]
          rw [hone] at hslice
          rw [(Token.fullRange_around ..).2, Nat.zero_add]
          exact hslice

end FallsInto
end Falling

/-! ## Tokens of a text -/

section Texts

variable {K : Type} [Vocabulary K]

/-- Whether tokens hold a whole stream of a text and take its trivia by line. -/
structure Attached
    (blank : K)
    (text : Text)
    (ls : List (Located K))
    (ts : List (Token K)) : Prop where
  /-- Written out again, the tokens are the stream. -/
  pieces : ts.flatMap (fun t => t.leading ++ t.lexeme.piece :: t.trailing) =
    ls.map Located.piece
  lexemes : ts.map Token.lexeme = ls.filter fun l => !l.isTrivia
  trivia : ∀ t ∈ ts, ∀ p ∈ t.leading ++ t.trailing, Vocabulary.isTrivia p.kind = true
  /-- No full range starts before the text does. -/
  total_le : ∀ t ∈ ts, Piece.total t.leading ≤ t.range.start
  first : ts.head?.map (fun t => t.fullRange.start) = some 0
  adjacent : ts.IsChain fun t u => t.fullRange.stop = u.fullRange.start
  /-- What trails a token stays on its line. -/
  trailing : ∀ t ∈ ts, ∃ s,
    text.slice? t.range.stop t.fullRange.stop = some s ∧ '\n' ∉ s
  /-- What leads a token on a later line starts with the end of a line. -/
  leading : ∀ t ∈ ts.tail, ∀ p ∈ t.leading.head?,
    p.kind = blank ∧ ∃ s,
      text.slice? t.fullRange.start (t.fullRange.start + p.length) = some s ∧ '\n' ∈ s
  last : ∃ front leading, ts = front ++ [⟨leading, ⟨⟨Vocabulary.eof, []⟩, text.size⟩, []⟩]

/-- The last token is made of the last lexeme if that one is significant, and nothing
trails it. -/
theorem exists_last_group
    (ls : List (Lexeme K))
    (l : Lexeme K)
    (hl : Vocabulary.isTrivia l.kind = false) :
    ∃ front leading,
      group (locate 0 (ls ++ [l])) = front ++ [⟨leading, ⟨l, (textOf ls).size⟩, []⟩] := by
  have hplaced : locate 0 (ls ++ [l]) = locate 0 ls ++ [⟨l, (textOf ls).size⟩] := by
    rw [locate_append, Nat.zero_add]
    rfl
  have hlexemes := map_lexeme_group (locate 0 (ls ++ [l]))
  have hpieces := flatMap_pieces_group (locate 0 (ls ++ [l])) (by
    rw [hplaced, List.getLast?_concat]
    rintro _ ⟨⟩
    exact hl)
  rw [hplaced, List.filter_append, List.filter_cons_of_pos (by simpa [Located.isTrivia] using hl),
    List.filter_nil] at hlexemes
  obtain ⟨front, last, hgroup, -, hlast⟩ := List.map_eq_append_iff.mp hlexemes
  obtain ⟨t, rfl, ht⟩ := List.map_eq_singleton_iff.mp hlast
  obtain ⟨leading, lexeme, trailing⟩ := t
  obtain rfl : lexeme = ⟨l, (textOf ls).size⟩ := ht
  rw [← hplaced] at hgroup
  -- The last piece is that of the last lexeme, and no trivia.
  have hnone : trailing = [] := by
    refine List.eq_nil_iff_forall_not_mem.mpr fun p hp => ?_
    have hmem : ⟨leading, ⟨l, (textOf ls).size⟩, trailing⟩ ∈ group (locate 0 (ls ++ [l])) := by
      rw [hgroup]
      simp
    have hgrouped := grouped_of_mem_group hmem
    have hsome := List.getLast?_eq_some_getLast (List.ne_nil_of_mem hp)
    have htrivia := hgrouped.trailing _ (List.getLast_mem (List.ne_nil_of_mem hp))
    have hend := congrArg List.getLast? hpieces
    rw [hgroup, hplaced, List.flatMap_append, List.flatMap_singleton, Token.pieces_stretch,
      List.map_append, List.map_singleton, List.getLast?_concat] at hend
    simp only [List.getLast?_append, List.getLast?_cons, hsome, Option.some_or, Option.getD_some,
      Option.some.injEq] at hend
    rw [hend] at htrivia
    exact Bool.false_ne_true (hl.symm.trans htrivia)
  exact ⟨front, leading, by rw [hgroup, hnone]⟩

/-- Grouping the stream of a reader attaches trivia by line, if among trivia only blanks
hold line feeds. -/
theorem attached_lexWith
    [LawfulVocabulary K]
    {read : (c : Char) → (t : Text) → Reading K t}
    {blank : K}
    {text : Text}
    (hblank : ∀ l ∈ lexWith read text, Vocabulary.isTrivia l.kind = true → '\n' ∈ l.text →
      l.kind = blank) :
    Attached blank text (locate 0 (lexWith read text)) (group (locate 0 (lexWith read text))) := by
  have htext := textOf_lexWith read text
  obtain ⟨ls, hls⟩ := exists_lexWith_eq read text
  have hfalls := fallsInto_group 0 (lexWith read text)
  obtain ⟨front, leading, hlast⟩ :=
    exists_last_group ls ⟨Vocabulary.eof, []⟩ LawfulVocabulary.isTrivia_eof
  have hsize : (textOf ls).size = text.size := by
    rw [← htext, hls]
    simp [textOf]
  rw [← hls, hsize] at hlast
  refine
    { pieces := ?_
      lexemes := map_lexeme_group _
      trivia := ?_
      total_le := ?_
      first := ?_
      adjacent := hfalls.isChain_fullRange
      trailing := ?_
      leading := ?_
      last := ?_ }
  · have hpieces := flatMap_pieces_group (locate 0 (lexWith read text)) (by
      rw [hls, locate_append]
      simp [locate, Located.isTrivia, LawfulVocabulary.isTrivia_eof])
    simpa only [Token.pieces_stretch] using hpieces
  · intro t ht p hp
    have hgrouped := grouped_of_mem_group ht
    rcases List.mem_append.mp hp with hp | hp
    · exact hgrouped.leading p hp
    · exact hgrouped.trailing p hp
  · intro t ht
    obtain ⟨front, behind, hsplit⟩ := List.append_of_mem ht
    obtain ⟨before, leading, l, trailing, after, -, rfl, -⟩ := hfalls.exists_split front hsplit
    exact (Token.fullRange_around ..).1
  · cases hgroup : group (locate 0 (lexWith read text)) with
    | nil => simp [hgroup] at hlast
    | cons t ts =>
        rw [hgroup] at hfalls
        exact congrArg some (hfalls.start_eq rfl)
  · intro t ht
    have hslice := hfalls.exists_slice?_trailing ht
    rwa [htext] at hslice
  · intro t ht p hp
    obtain ⟨m, hm, hkind, htrivia, hfeed, hslice⟩ := hfalls.exists_slice?_leading ht hp
    rw [htext] at hslice
    exact ⟨hkind ▸ hblank m hm htrivia hfeed, m.text, hslice, hfeed⟩
  · exact ⟨front, leading, hlast⟩

/-- Among trivia only blanks hold line feeds, where that is so of all readings. -/
theorem kind_eq_of_lineFeed
    {read : (c : Char) → (t : Text) → Reading K t}
    {blank marked : K}
    (hread : ∀ c t, (read c t).Keeps [blank, marked] c)
    (hmarked : Vocabulary.isTrivia marked = false)
    {text : Text}
    {l : Lexeme K}
    (hl : l ∈ lexWith read text)
    (htrivia : Vocabulary.isTrivia l.kind = true)
    (hfeed : '\n' ∈ l.text) :
    l.kind = blank := by
  obtain ⟨front, hfront, hkeeps⟩ := exists_lexWith_keeps hread text
  rw [hfront] at hl
  rcases List.mem_append.mp hl with hl | hl
  · have hkind := (hkeeps l hl).2.1 hfeed
    simp only [List.mem_cons, List.not_mem_nil, or_false] at hkind
    rcases hkind with hkind | hkind
    · exact hkind
    · rw [hkind, hmarked] at htrivia
      simp at htrivia
  · obtain rfl := List.mem_singleton.mp hl
    simp at hfeed

end Texts

/-- **Trivia are attached by line.**  In both languages the tokens of every text, written
out with their trivia, are its stream again; with their trivia they stand one after
another from the start of the text to its end, where the end of file stands with nothing
behind it.  What trails a token holds no line feed, and what leads any token but the first
starts with blanks that hold one. -/
theorem attached_group (text : Text) :
    Attached .whitespace text (locate 0 (Zig.lex text)) (group (locate 0 (Zig.lex text))) ∧
      Attached .whitespace text (locate 0 (Zon.lex text)) (group (locate 0 (Zon.lex text))) :=
  ⟨attached_lexWith fun _ => kind_eq_of_lineFeed Zig.keeps_read rfl,
    attached_lexWith fun _ => kind_eq_of_lineFeed Zon.keeps_read rfl⟩

end ZigCst
