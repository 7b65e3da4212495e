import ZigCst.Proofs.Quoting
import ZigCst.Proofs.Tiling
import ZigCst.Proofs.Trivia

/-!
# Lexemes on both sides of a line feed

Where two texts are joined by a line feed, the lexemes of both are found again.
Every scanner halts at a line feed, apart from two: blanks run over it, and so does
a literal of marked lines if the next line is marked.  Blanks have no place among the
significant lexemes, so it does not matter how they are cut; marked lines must be
kept apart.

**Definitions.**
* `Scan.Halts`: a scanner takes nothing more when a line feed follows.
* `Scan.Marked`: the next line belongs to a literal of marked lines.

**Results.**
* `Zig.read_lineFeed`: a lexeme is the same with a line feed and any text behind.
* `Zig.places_lex_lineFeed`: the significant lexemes of two texts joined by a line
  feed are those of the first and those of the second, in their new places.
-/

namespace ZigCst

/-! ## Scanners at a line feed -/

namespace Scan

/-- Whether a scanner takes the same with a line feed and more behind a text. -/
def Halts (scan : (t : Text) → Cut t) : Prop :=
  ∀ t more, (scan (t ++ '\n' :: more)).taken = (scan t).taken

/-- What is left over keeps what stands behind. -/
theorem rest_append
    {t more : Text}
    {k : Cut t}
    {k' : Cut (t ++ more)}
    (h : k'.taken = k.taken) :
    k'.rest = k.rest ++ more := by
  have hjoin := k'.join
  rw [h] at hjoin
  have hsame : k.taken ++ k'.rest = k.taken ++ (k.rest ++ more) := by
    rw [hjoin, ← List.append_assoc, k.join]
  exact List.append_cancel_left hsame

theorem takeWhile_lineFeed
    {p : Char → Bool}
    (hp : p '\n' = false)
    (t more : Text) :
    (t ++ '\n' :: more).takeWhile p = t.takeWhile p := by
  induction t with
  | nil => rw [List.nil_append, List.takeWhile_cons, hp]; rfl
  | cons c t ih => rw [List.cons_append, List.takeWhile_cons, List.takeWhile_cons, ih]

theorem dropWhile_lineFeed
    {p : Char → Bool}
    (hp : p '\n' = false)
    (t more : Text) :
    (t ++ '\n' :: more).dropWhile p = t.dropWhile p ++ '\n' :: more := by
  have htaken : (Cut.span p (t ++ '\n' :: more)).taken = (Cut.span p t).taken :=
    takeWhile_lineFeed hp t more
  exact rest_append htaken

theorem halts_span
    {p : Char → Bool}
    (hp : p '\n' = false) :
    Halts (.span p) :=
  takeWhile_lineFeed hp

/-- A cut that is the same, and a scanner that halts behind it. -/
theorem Halts.andThen
    {scan : (t : Text) → Cut t}
    (hscan : Halts scan)
    {t more : Text}
    {k : Cut t}
    {k' : Cut (t ++ '\n' :: more)}
    (h : k'.taken = k.taken) :
    (k'.andThen scan).taken = (k.andThen scan).taken := by
  rw [Cut.andThen, Cut.andThen]
  dsimp only
  rw [rest_append h, h, hscan]

theorem taken_ite
    {p : Prop}
    [Decidable p]
    {t t' : Text}
    {k l : Cut t}
    {k' l' : Cut t'}
    (hk : k'.taken = k.taken)
    (hl : l'.taken = l.taken) :
    (if p then k' else l').taken = (if p then k else l).taken := by
  split
  · exact hk
  · exact hl

theorem halts_line : Halts line := halts_span (by decide)

theorem halts_word : Halts word := halts_span (by decide)

theorem halts_digits (hex : Bool) : Halts (digits hex) := halts_span (by cases hex <;> decide)

theorem halts_quoted (quote : Char) : Halts (quoted quote) := by
  intro t more
  fun_induction quoted quote t with
  | case1 => rfl
  | case2 => rfl
  | case3 t => rfl
  | case4 c t hc ih =>
      rw [List.cons_append, List.cons_append, quoted_marked hc]
      exact congrArg (fun taken => '\\' :: c :: taken) ih
  | case5 t => rfl
  | case6 t hquote hlast hslash =>
      rw [List.cons_append, quoted_cons (ne_backslash hquote hlast), if_neg hslash, if_pos rfl]
      rfl
  | case7 c t hlast hslash hc hquote ih =>
      rw [List.cons_append, quoted_cons (ne_backslash hlast hslash), if_neg hc, if_neg hquote]
      exact congrArg (c :: ·) ih

theorem fraction_cons
    {hex : Bool}
    {c : Char}
    (hc : c ≠ '.')
    (t : Text) :
    fraction hex (c :: t) = .none (c :: t) := by
  rw [fraction]
  intro d u h
  exact absurd (List.cons.inj h).1 hc

theorem halts_fraction (hex : Bool) : Halts (fraction hex) := by
  intro t more
  cases t with
  | nil => rfl
  | cons c t =>
      by_cases hc : c = '.'
      · subst hc
        cases t with
        | nil => cases hex <;> rfl
        | cons d t => exact taken_ite (congrArg ('.' :: ·) (halts_digits hex (d :: t) more)) rfl
      · rw [List.cons_append, fraction_cons hc, fraction_cons hc]
        rfl

theorem halts_sign : Halts sign := by
  intro t more
  cases t with
  | nil => rfl
  | cons c t => exact taken_ite rfl rfl

theorem halts_exponent (hex : Bool) : Halts (exponent hex) := by
  intro t more
  cases t with
  | nil => cases hex <;> rfl
  | cons c t =>
      exact taken_ite (congrArg (c :: ·) ((halts_digits false).andThen (halts_sign t more))) rfl

theorem halts_radix (first : Char) : Halts (radix first) := by
  intro t more
  cases t with
  | nil =>
      rw [List.nil_append, radix, if_neg]
      · rfl
      · exact fun h => by simp at h
  | cons c t => exact taken_ite rfl rfl

/-- Neither the extent of a numeral nor its class depends on the next line. -/
theorem halts_numeral
    (first : Char)
    (t more : Text) :
    (numeral first (t ++ '\n' :: more)).1 = (numeral first t).1 ∧
      (numeral first (t ++ '\n' :: more)).2.taken = (numeral first t).2.taken := by
  have hmark := halts_radix first t more
  rw [numeral, numeral]
  dsimp only
  rw [hmark]
  generalize ((radix first t).taken == ['x']) = hex
  have hwhole := (halts_digits hex).andThen hmark
  have hpoint := (halts_fraction hex).andThen hwhole
  have hpower := (halts_exponent hex).andThen hpoint
  refine ⟨?_, halts_word.andThen hpower⟩
  rw [rest_append hwhole, rest_append (halts_fraction hex _ more), halts_fraction, halts_exponent]

/-- Whether the next line belongs to a literal of marked lines. -/
def Marked (next : Text) : Prop := ['\\', '\\'] <+: next.dropWhile isIndent

theorem isPrefix_lineFeed_iff
    {ending : Text}
    (h : '\n' ∉ ending)
    (t more : Text) :
    ending <+: t ++ '\n' :: more ↔ ending <+: t := by
  constructor
  · intro hprefix
    rcases List.prefix_or_prefix_of_prefix hprefix (List.prefix_append t ('\n' :: more)) with
      hshort | hlong
    · exact hshort
    · obtain ⟨longer, rfl⟩ := hlong
      rw [List.prefix_append_right_inj] at hprefix
      cases longer with
      | nil => simp
      | cons c longer =>
          obtain ⟨rfl, -⟩ := List.cons_prefix_cons.mp hprefix
          simp at h
  · exact fun hprefix => hprefix.trans (List.prefix_append _ _)

/-- A literal of marked lines ends with its first line. -/
theorem markedLines_eq_line
    {t : Text}
    (h : ∀ next, (line t).rest = '\n' :: next → ¬ Marked next) :
    markedLines t = line t := by
  rw [markedLines]
  dsimp only
  split
  · rename_i next hnext
    exact if_neg (h next hnext)
  · rfl

/-- A literal of marked lines goes on in the next line. -/
theorem markedLines_of_marked
    {t next : Text}
    (hnext : (line t).rest = '\n' :: next)
    (hmarked : Marked next) :
    (markedLines t).taken =
        (line t).taken ++
          '\n' :: (next.takeWhile isIndent ++ (markedLines (next.dropWhile isIndent)).taken) ∧
      (markedLines t).rest = (markedLines (next.dropWhile isIndent)).rest := by
  have hprefix : ['\\', '\\'] <+: (Cut.span isIndent next).rest := hmarked
  rw [markedLines]
  dsimp only
  split
  · rename_i next' hnext'
    obtain rfl : next = next' := List.tail_eq_of_cons_eq (hnext.symm.trans hnext')
    rw [if_pos hprefix]
    exact ⟨rfl, rfl⟩
  · rename_i hother
    exact absurd hnext (hother next)

theorem marked_lineFeed_iff (next more : Text) :
    Marked (next ++ '\n' :: more) ↔ Marked next := by
  rw [Marked, Marked, dropWhile_lineFeed (by decide), isPrefix_lineFeed_iff (by decide)]

/-- What a line leaves over is empty or starts with a line feed. -/
theorem rest_line (t : Text) : (line t).rest = [] ∨ ∃ next, (line t).rest = '\n' :: next := by
  have hhead := List.head?_dropWhile_not (· != '\n') t
  cases hrest : (line t).rest with
  | nil => exact .inl rfl
  | cons c next =>
      change t.dropWhile (· != '\n') = c :: next at hrest
      rw [hrest] at hhead
      obtain rfl : c = '\n' := by simpa using hhead
      exact .inr ⟨next, rfl⟩

/-- Marked lines take the same with a line feed and more behind, unless they reach it
and the next line is marked too. -/
theorem taken_markedLines
    (t more : Text)
    (h : (markedLines t).rest = [] → ¬ Marked more) :
    (markedLines (t ++ '\n' :: more)).taken = (markedLines t).taken := by
  have hline := halts_line t more
  have hrest := rest_append hline
  rcases rest_line t with hend | ⟨next, hnext⟩
  · have hlast : markedLines t = line t := markedLines_eq_line (by simp [hend])
    rw [hend, List.nil_append] at hrest
    rw [hlast] at h ⊢
    rw [markedLines_eq_line, hline]
    intro next hnext
    obtain rfl : more = next := List.tail_eq_of_cons_eq (hrest.symm.trans hnext)
    exact h hend
  · rw [hnext, List.cons_append] at hrest
    by_cases hmarked : Marked next
    · obtain ⟨htaken, hleft⟩ := markedLines_of_marked hnext hmarked
      obtain ⟨htaken', -⟩ := markedLines_of_marked hrest ((marked_lineFeed_iff next more).mpr hmarked)
      have hmore := taken_markedLines (next.dropWhile isIndent) more (hleft ▸ h)
      rw [htaken, htaken', hline, takeWhile_lineFeed (by decide), dropWhile_lineFeed (by decide), hmore]
    · rw [markedLines_eq_line (t := t), markedLines_eq_line, hline]
      · intro next' hnext'
        obtain rfl := List.tail_eq_of_cons_eq (hrest.symm.trans hnext')
        rwa [marked_lineFeed_iff]
      · intro next' hnext'
        obtain rfl : next = next' := List.tail_eq_of_cons_eq (hnext.symm.trans hnext')
        exact hmarked
termination_by t.length
decreasing_by
  have hfirst := (line t).length_rest_le
  have hindent := (Cut.span isIndent next).length_rest_le
  rw [hnext, List.length_cons] at hfirst
  exact Nat.lt_of_le_of_lt hindent (by omega)

end Scan

/-! ## Readings at a line feed -/

/-- A chain that eats no line feed reads the same before one. -/
theorem Chain.read_lineFeed
    {K : Type}
    {chain : Chain K}
    (h : ∀ x ∈ chain.endings, '\n' ∉ x.1)
    (t more : Text) :
    (chain.read (t ++ '\n' :: more)).kind = (chain.read t).kind ∧
      (chain.read (t ++ '\n' :: more)).cut.taken = (chain.read t).cut.taken := by
  induction chain generalizing t with
  | stop kind => exact ⟨rfl, rfl⟩
  | eat c taken other ihTaken ihOther =>
      have hother := ihOther (fun x hx => h x (mem_endings_eat_iff.mpr (.inr hx)))
      have hmem : ∀ x ∈ taken.endings, (c :: x.1, x.2) ∈ (eat c taken other).endings :=
        fun x hx => mem_endings_eat_iff.mpr (.inl ⟨x.1, rfl, hx⟩)
      have htaken := ihTaken (fun x hx hline => h _ (hmem x hx) (List.mem_cons_of_mem _ hline))
      cases t with
      | nil =>
          have hc : '\n' ≠ c := by
            rintro rfl
            exact h _ (hmem _ (taken.mem_endings_read [])) List.mem_cons_self
          rw [List.nil_append, read, read, if_neg hc]
          exact hother []
      | cons d t =>
          rw [List.cons_append, read, read]
          split
          · obtain ⟨hkind, hcut⟩ := htaken t
            exact ⟨hkind, congrArg (d :: ·) hcut⟩
          · exact hother (d :: t)

namespace Zig

theorem commentKind_lineFeed (t more : Text) :
    commentKind (t ++ '\n' :: more) = commentKind t := by
  fun_cases commentKind t with
  | case1 => rfl
  | case2 => rfl
  | case3 t hslash =>
      cases t with
      | nil => rfl
      | cons d t =>
          rw [List.cons_append, List.cons_append, commentKind]
          intro u hu
          exact hslash t (by rw [(List.cons.inj hu).1])
  | case4 _ hbang _ hslash =>
      cases t with
      | nil => rfl
      | cons c t =>
          have hbang' : ∀ u, c :: (t ++ '\n' :: more) = '!' :: u → False :=
            fun u hu => hbang t (by rw [(List.cons.inj hu).1])
          have hslash' : ∀ u, c :: (t ++ '\n' :: more) = '/' :: u → False :=
            fun u hu => hslash t (by rw [(List.cons.inj hu).1])
          rw [List.cons_append, commentKind]
          · exact hbang'
          · exact fun u => hslash' ('/' :: u)
          · exact hslash'

theorem readAtSign_lineFeed (t more : Text) :
    (readAtSign (t ++ '\n' :: more)).kind = (readAtSign t).kind ∧
      (readAtSign (t ++ '\n' :: more)).cut.taken = (readAtSign t).cut.taken := by
  cases t with
  | nil => exact ⟨rfl, rfl⟩
  | cons c t =>
      rw [List.cons_append, readAtSign, readAtSign]
      split
      · exact ⟨rfl, congrArg (c :: ·) (Scan.halts_quoted '"' t more)⟩
      split
      · exact ⟨rfl, Scan.halts_word (c :: t) more⟩
      · exact ⟨rfl, rfl⟩

theorem readOperator_lineFeed
    (c : Char)
    (t more : Text) :
    (readOperator c (t ++ '\n' :: more)).kind = (readOperator c t).kind ∧
      (readOperator c (t ++ '\n' :: more)).cut.taken = (readOperator c t).cut.taken := by
  rw [readOperator, readOperator]
  split
  · rename_i chain hoperator
    exact Chain.read_lineFeed (fun x hx => (operator?_eq_some hoperator x hx).2.2) t more
  · exact ⟨rfl, rfl⟩

theorem readOther_lineFeed
    {c : Char}
    (hc : Scan.isBlank c = false)
    (t more : Text) :
    (read.readOther c (t ++ '\n' :: more)).kind = (read.readOther c t).kind ∧
      (read.readOther c (t ++ '\n' :: more)).cut.taken = (read.readOther c t).cut.taken := by
  rw [read.readOther, read.readOther]
  simp only [hc, Bool.false_eq_true, if_false]
  split
  · exact ⟨rfl, Scan.halts_quoted _ t more⟩
  split
  · exact ⟨rfl, Scan.halts_quoted _ t more⟩
  split
  · exact readAtSign_lineFeed t more
  split
  · obtain ⟨hfloat, htaken⟩ := Scan.halts_numeral c t more
    exact ⟨by simp only [hfloat], htaken⟩
  split
  · have hword := Scan.halts_word t more
    exact ⟨by simp only [hword], hword⟩
  · exact readOperator_lineFeed c t more

theorem read_eq_readOther
    (c : Char)
    {d : Char}
    (hslash : d ≠ '/')
    (hbackslash : d ≠ '\\')
    (t : Text) :
    read c (d :: t) = read.readOther c (d :: t) := by
  rw [read]
  · exact fun u hu => hslash (List.cons.inj hu).1
  · exact fun u hu => hbackslash (List.cons.inj hu).1

/-- A lexeme that does not start with a blank is the same with a line feed and more
behind, unless it reaches the line feed and marked lines go on there. -/
theorem read_lineFeed
    {c : Char}
    (hc : Scan.isBlank c = false)
    (t more : Text)
    (h : (read c t).kind = .stringLiteralMulti → (read c t).cut.rest = [] → ¬ Scan.Marked more) :
    (read c (t ++ '\n' :: more)).kind = (read c t).kind ∧
      (read c (t ++ '\n' :: more)).cut.taken = (read c t).cut.taken := by
  cases t with
  | nil => exact readOther_lineFeed hc [] more
  | cons d t =>
      by_cases hslash : d = '/'
      · subst hslash
        rw [List.cons_append, read, read]
        split
        · exact ⟨commentKind_lineFeed t more, congrArg ('/' :: ·) (Scan.halts_line t more)⟩
        · exact readOther_lineFeed hc ('/' :: t) more
      by_cases hbackslash : d = '\\'
      · subst hbackslash
        rw [read] at h
        rw [List.cons_append, read, read]
        split
        · rename_i hmark
          rw [if_pos hmark] at h
          exact ⟨rfl, congrArg ('\\' :: ·) (Scan.taken_markedLines t more (h rfl))⟩
        · exact readOther_lineFeed hc ('\\' :: t) more
      · rw [List.cons_append, read_eq_readOther c hslash hbackslash,
          read_eq_readOther c hslash hbackslash]
        exact readOther_lineFeed hc (d :: t) more

/-! ## Streams at a line feed -/

theorem read_of_blank
    {c : Char}
    (hc : Scan.isBlank c = true)
    (t : Text) :
    read c t = ⟨.whitespace, Scan.blanks t⟩ := by
  have hother : read.readOther c t = ⟨.whitespace, Scan.blanks t⟩ := by
    rw [read.readOther, if_pos hc]
  rw [← hother]
  unfold read
  split
  · rw [if_neg]
    rintro rfl
    simp [Scan.isBlank] at hc
  · rw [if_neg]
    rintro rfl
    simp [Scan.isBlank] at hc
  · rfl

theorem lex_nil : lex [] = [⟨.eof, []⟩] := by
  rw [lex, lexWith]
  rfl

theorem lex_cons
    (c : Char)
    (t : Text) :
    lex (c :: t) = ⟨(read c t).kind, c :: (read c t).cut.taken⟩ :: lex (read c t).cut.rest := by
  rw [lex, lexWith]

/-- Blanks have no place among the significant lexemes. -/
theorem places_lex_blanks
    (start : Nat)
    {c : Char}
    (hc : Scan.isBlank c = true)
    (t : Text) :
    places start (lex (c :: t)) =
      places (start + c.utf8Size + Text.size (t.takeWhile Scan.isBlank))
        (lex (t.dropWhile Scan.isBlank)) := by
  have hcut : (read c t).cut.taken = t.takeWhile Scan.isBlank ∧
      (read c t).cut.rest = t.dropWhile Scan.isBlank ∧ (read c t).kind = .whitespace := by
    rw [read_of_blank hc]
    exact ⟨rfl, rfl, rfl⟩
  rw [lex_cons, hcut.1, hcut.2.1, hcut.2.2, places, locate, List.filter_cons_of_neg,
    Text.size_cons, Nat.add_assoc]
  · rfl
  · exact Bool.false_ne_true

/-- A blank in front moves the significant lexemes to the right. -/
theorem places_lex_blank
    (start : Nat)
    {c : Char}
    (hc : Scan.isBlank c = true)
    (t : Text) :
    places start (lex (c :: t)) = places (start + c.utf8Size) (lex t) := by
  rw [places_lex_blanks start hc]
  cases t with
  | nil => rfl
  | cons d t =>
      cases hd : Scan.isBlank d with
      | false => rw [List.takeWhile_cons, List.dropWhile_cons, hd]; rfl
      | true =>
          rw [places_lex_blanks (start + c.utf8Size) hd, List.takeWhile_cons, List.dropWhile_cons, hd]
          rw [if_pos rfl, if_pos rfl, Text.size_cons, Nat.add_assoc _ d.utf8Size]

/-- The significant lexemes before the end of file. -/
def tokensOf (stream : List (Lexeme Kind)) : List (Lexeme Kind) :=
  (significantLexemes stream).dropLast

theorem places_lex_ne_nil
    (start : Nat)
    (text : Text) :
    places start (lex text) ≠ [] := by
  obtain ⟨front, hfront⟩ := exists_lexWith_eq read text
  rw [lex, hfront, places_append]
  exact List.append_ne_nil_of_right_ne_nil _ (List.cons_ne_nil _ _)

theorem significantLexemes_lex_ne_nil (text : Text) : significantLexemes (lex text) ≠ [] := by
  rw [← map_toLexeme_places 0]
  exact fun h => places_lex_ne_nil 0 text (List.map_eq_nil_iff.mp h)

theorem tokensOf_cons
    (l : Lexeme Kind)
    (text : Text) :
    tokensOf (l :: lex text) = significantLexemes [l] ++ tokensOf (lex text) := by
  rw [tokensOf, tokensOf, ← List.singleton_append, significantLexemes_append,
    List.dropLast_append_of_ne_nil (significantLexemes_lex_ne_nil text)]

/-- **Lexemes on both sides of a line feed.**  The significant lexemes of two texts
joined by a line feed are those of the first, without its end of file, and those of
the second, in their new places, unless marked lines at the end of the first go on in
the second. -/
theorem places_lex_lineFeed
    (start : Nat)
    (a b : Text)
    (h : ∀ l ∈ (tokensOf (lex a)).getLast?, l.kind = .stringLiteralMulti → ¬ Scan.Marked b) :
    places start (lex (a ++ '\n' :: b)) =
      (places start (lex a)).dropLast ++ places (start + a.size + 1) (lex b) := by
  match a with
  | [] =>
      rw [lex_nil]
      exact places_lex_blank start (by decide) b
  | c :: t =>
      cases hc : Scan.isBlank c with
      | true =>
          have hsame := places_lex_blank start hc t
          have htokens : tokensOf (lex (c :: t)) = tokensOf (lex t) := by
            rw [tokensOf, tokensOf, ← map_toLexeme_places start, hsame, map_toLexeme_places]
          rw [htokens] at h
          rw [List.cons_append, places_lex_blank start hc, hsame]
          rw [places_lex_lineFeed (start + c.utf8Size) t b h, Text.size_cons, Nat.add_assoc start]
      | false =>
          rw [lex_cons, tokensOf_cons, List.getLast?_append] at h
          obtain ⟨hkind, htaken⟩ := read_lineFeed hc t b (by
            intro hmulti hrest
            rw [hrest, lex_nil, hmulti] at h
            exact h _ rfl rfl)
          have hafter := places_lex_lineFeed (start + Text.size (c :: (read c t).cut.taken))
            (read c t).cut.rest b (fun l hl => h l (by rw [Option.mem_def.mp hl]; rfl))
          have hsize : (read c t).cut.taken.size + (read c t).cut.rest.size = Text.size t := by
            rw [← Text.size_append, (read c t).cut.join]
          rw [List.cons_append, lex_cons, hkind, htaken, Scan.rest_append htaken, places_cons, hafter]
          rw [lex_cons, places_cons start _ (lex (read c t).cut.rest)]
          rw [List.dropLast_append_of_ne_nil (places_lex_ne_nil _ _), List.append_assoc]
          simp only [Text.size_cons, Nat.add_assoc, hsize]
termination_by a.length
decreasing_by
  · exact Nat.lt_succ_of_le (read c t).cut.length_rest_le
  · exact Nat.lt_succ_self _

/-- The tokens of two texts joined by a line feed are those of both. -/
theorem tokensOf_lex_lineFeed
    (a b : Text)
    (h : ∀ l ∈ (tokensOf (lex a)).getLast?, l.kind = .stringLiteralMulti → ¬ Scan.Marked b) :
    tokensOf (lex (a ++ '\n' :: b)) = tokensOf (lex a) ++ tokensOf (lex b) := by
  rw [tokensOf, ← map_toLexeme_places 0, places_lex_lineFeed 0 a b h, List.map_append,
    List.map_dropLast, map_toLexeme_places, map_toLexeme_places,
    List.dropLast_append_of_ne_nil (significantLexemes_lex_ne_nil b)]
  rfl

end Zig
end ZigCst
