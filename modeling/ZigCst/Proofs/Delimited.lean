import ZigCst.Proofs.Quoting
import ZigCst.Proofs.Spelling

/-!
# Where quoted literals end

The scanner of a quoted literal pairs every backslash with the character behind it,
from left to right, and stops behind the first quote that is left alone, or at the end
of the line.  The tree only sees the token, and counts the backslashes before its last
character from right to left.  Both find the same end: what the scanner took is made of
characters that stand for themselves and of escaped ones, and up to a place between two
of these the number of backslashes at the end is even.

**Definitions.**
* `Scan.stopQuoted`: the scanner, and whether a closing quote stopped it.
* `Lexeme.quoted?`: the quote of a lexeme, and the lexeme from there on.
* `Delimited`: the scanner and the tree agree on a lexeme.

**Results.**
* `Scan.stopQuoted_fst`: the scanner takes what it takes.
* `Scan.Inside.escaped_or_ne`: a quote between quotes is escaped.
* `delimited_quoted`: they agree on everything that is scanned.
* `delimited_lex`: they agree in every text.
-/

namespace ZigCst

/-! ## How the scanner stops -/

namespace Scan

/-- The scanner of the body of a quoted literal, and whether a closing quote stopped it. -/
def stopQuoted (quote : Char) : (t : Text) → Cut t × Bool
  | [] => (.none [], false)
  | ['\\'] => (.cons '\\' (.none []), false)
  | '\\' :: c :: t =>
      if c = '\n' then (.cons '\\' (.none (c :: t)), false)
      else
        let (more, closed) := stopQuoted quote t
        (.cons '\\' (.cons c more), closed)
  | c :: t =>
      if c = '\n' then (.none (c :: t), false)
      else if c = quote then (.cons c (.none t), true)
      else
        let (more, closed) := stopQuoted quote t
        (.cons c more, closed)

theorem stopQuoted_fst
    (quote : Char)
    (t : Text) :
    (stopQuoted quote t).1 = quoted quote t := by
  fun_induction stopQuoted quote t with
  | case1 => rfl
  | case2 => rfl
  | case3 t => rfl
  | case4 c t hc more closed hmore ih =>
      rw [hmore] at ih
      rw [quoted_marked hc, ← ih]
  | case5 t => rfl
  | case6 t hquote hlast hslash =>
      rw [quoted_cons (ne_backslash hquote hlast), if_neg hslash, if_pos rfl]
  | case7 c t hlast hslash hc hquote more closed hmore ih =>
      rw [hmore] at ih
      rw [quoted_cons (ne_backslash hlast hslash), if_neg hc, if_neg hquote, ← ih]

/-- What is taken is the inside of a literal, and its closing quote if the scanner
stopped there; otherwise the line ends, and a backslash may be left over. -/
theorem exists_inside_stopQuoted
    (quote : Char)
    (t : Text) :
    ∃ body, Inside quote body ∧
      (((stopQuoted quote t).2 = true ∧ (stopQuoted quote t).1.taken = body ++ [quote]) ∨
        ((stopQuoted quote t).2 = false ∧
          (∀ c ∈ (stopQuoted quote t).1.rest.head?, c = '\n') ∧
          ((stopQuoted quote t).1.taken = body ∨
            (stopQuoted quote t).1.taken = body ++ ['\\']))) := by
  fun_induction stopQuoted quote t with
  | case1 => exact ⟨[], .nil, .inr ⟨rfl, by simp [Cut.none], .inl rfl⟩⟩
  | case2 => exact ⟨[], .nil, .inr ⟨rfl, by simp [Cut.cons, Cut.none], .inr rfl⟩⟩
  | case3 t => exact ⟨[], .nil, .inr ⟨rfl, by simp [Cut.cons, Cut.none], .inr rfl⟩⟩
  | case4 c t hc more closed hmore ih =>
      obtain ⟨body, hbody, hcases⟩ := ih
      rw [hmore] at hcases
      refine ⟨'\\' :: c :: body, .escaped hc hbody, ?_⟩
      simpa [Cut.cons] using hcases
  | case5 t => exact ⟨[], .nil, .inr ⟨rfl, by simp [Cut.none], .inl rfl⟩⟩
  | case6 t hquote hlast hslash => exact ⟨[], .nil, .inl ⟨rfl, rfl⟩⟩
  | case7 c t hlast hslash hc hquote more closed hmore ih =>
      obtain ⟨body, hbody, hcases⟩ := ih
      rw [hmore] at hcases
      refine ⟨c :: body, .plain (ne_backslash hlast hslash) hc hquote hbody, ?_⟩
      simpa [Cut.cons] using hcases

/-- Between two quotes, a character is escaped or no quote. -/
theorem Inside.escaped_or_ne
    {quote : Char}
    (hquote : IsQuote quote)
    {s t : Text}
    {c : Char}
    (h : Inside quote (s ++ c :: t)) :
    c ≠ quote ∨ ∃ front, s = front ++ ['\\'] ∧ Inside quote front := by
  generalize hbody : s ++ c :: t = body at h
  induction h generalizing s with
  | nil => simp at hbody
  | @plain d body hslash hfeed hplain h ih =>
      cases s with
      | nil =>
          obtain ⟨rfl, -⟩ := List.cons.inj hbody
          exact .inl hplain
      | cons e s =>
          obtain ⟨rfl, hrest⟩ := List.cons.inj hbody
          rcases ih hrest with hne | ⟨front, rfl, hfront⟩
          · exact .inl hne
          · exact .inr ⟨e :: front, rfl, .plain hslash hfeed hplain hfront⟩
  | @escaped d body hfeed h ih =>
      rcases s with _ | ⟨e, _ | ⟨f, s⟩⟩
      · obtain ⟨rfl, -⟩ := List.cons.inj hbody
        exact .inl hquote.ne.1.symm
      · obtain ⟨rfl, hrest⟩ := List.cons.inj hbody
        exact .inr ⟨[], rfl, .nil⟩
      · obtain ⟨rfl, htail⟩ := List.cons.inj hbody
        obtain ⟨rfl, hrest⟩ := List.cons.inj htail
        rcases ih hrest with hne | ⟨front, rfl, hfront⟩
        · exact .inl hne
        · exact .inr ⟨'\\' :: f :: front, rfl, .escaped hfeed hfront⟩

/-- A quote between quotes stands behind an odd number of backslashes. -/
theorem Inside.odd_endSlashes
    {quote : Char}
    (hquote : IsQuote quote)
    {s t : Text}
    (h : Inside quote (s ++ quote :: t)) :
    endSlashes s % 2 = 1 := by
  rcases h.escaped_or_ne hquote with hne | ⟨front, rfl, hfront⟩
  · exact absurd rfl hne
  · have heven := hfront.even_endSlashes
    rw [endSlashes_append, if_pos (by simp)]
    have hone : endSlashes ['\\'] = 1 := rfl
    omega

/-- That holds as well when a backslash is left over. -/
theorem odd_endSlashes_of_open
    {quote : Char}
    (hquote : IsQuote quote)
    {body taken s t : Text}
    (hbody : Inside quote body)
    (htaken : taken = body ∨ taken = body ++ ['\\'])
    (hsplit : taken = s ++ quote :: t) :
    endSlashes s % 2 = 1 := by
  rcases htaken with rfl | rfl
  · rw [hsplit] at hbody
    exact hbody.odd_endSlashes hquote
  · rcases List.eq_nil_or_concat t with rfl | ⟨u, c, rfl⟩
    · -- The last character is the backslash, not a quote.
      have hlast := congrArg List.getLast? hsplit
      simp only [List.getLast?_append, List.getLast?_singleton, Option.some_or,
        Option.some.injEq] at hlast
      exact absurd hlast.symm hquote.ne.1
    · rw [List.concat_eq_append, ← List.cons_append, ← List.append_assoc] at hsplit
      obtain ⟨rfl, -⟩ := List.append_inj' hsplit rfl
      exact hbody.odd_endSlashes hquote

end Scan

/-! ## Agreement -/

/-- Whether the scanner and the tree agree on a token that starts with a quote, with
some text behind it: the token was closed or not. -/
structure Delimited (quote : Char) (w behind : Text) (closed : Bool) : Prop where
  opening : w.head? = some quote
  /-- The scanner took the rest of the token. -/
  taken : (Scan.quoted quote (w.tail ++ behind)).taken = w.tail
  stopped : (Scan.stopQuoted quote (w.tail ++ behind)).2 = closed
  /-- Without a closing quote, the line or the text ends behind the token. -/
  lineEnd : closed = false → ∀ c ∈ behind.head?, c = '\n'
  terminated : Literal.isTerminated quote w = closed
  content : w = quote :: ((Literal.content quote w).text ++ if closed then [quote] else [])
  range : ∀ start, (Literal.content quote w).range start =
    ⟨start + 1, start + w.size - if closed then 1 else 0⟩
  /-- A quote in the content is escaped. -/
  escaped : ∀ s t, (Literal.content quote w).text = s ++ quote :: t →
    Scan.endSlashes s % 2 = 1

theorem IsQuote.utf8Size
    {quote : Char}
    (h : IsQuote quote) :
    quote.utf8Size = 1 := by
  rcases h with rfl | rfl <;> decide

theorem Literal.content_cons
    (quote : Char)
    (body : Text) :
    content quote (quote :: body) =
      ⟨quote.utf8Size, if isTerminated quote (quote :: body) then body.dropLast else body⟩ :=
  if_pos rfl

/-- They agree if the tree sees a closing quote exactly where one stopped the scanner, and
the quotes in front of that one are escaped. -/
theorem delimited_of_isTerminated
    {quote : Char}
    (hquote : IsQuote quote)
    {t content : Text}
    {closed : Bool}
    (hstop : (Scan.stopQuoted quote t).2 = closed)
    (hend : closed = false → ∀ c ∈ (Scan.quoted quote t).rest.head?, c = '\n')
    (htaken : (Scan.quoted quote t).taken = content ++ if closed then [quote] else [])
    (hterminated : Literal.isTerminated quote (quote :: (Scan.quoted quote t).taken) = closed)
    (hodd : ∀ s u, content = s ++ quote :: u → Scan.endSlashes s % 2 = 1) :
    Delimited quote (quote :: (Scan.quoted quote t).taken) (Scan.quoted quote t).rest
      closed := by
  have hjoin := (Scan.quoted quote t).join
  have hsize := hquote.utf8Size
  have hcontent :
      Literal.content quote (quote :: (Scan.quoted quote t).taken) = ⟨1, content⟩ := by
    rw [Literal.content_cons, hterminated, hsize, htaken]
    cases closed <;> simp
  refine
    { opening := rfl
      taken := ?_
      stopped := ?_
      lineEnd := hend
      terminated := hterminated
      content := ?_
      range := fun start => ?_
      escaped := fun s u hsplit => ?_ }
  · rw [List.tail_cons, hjoin]
  · rw [List.tail_cons, hjoin]
    exact hstop
  · rw [hcontent, htaken]
  · rw [hcontent, htaken]
    cases closed <;> simp [Excerpt.range, Range.ofText, hsize] <;> omega
  · rw [hcontent] at hsplit
    exact hodd s u hsplit

/-- The scanner and the tree agree on everything that is scanned. -/
theorem delimited_quoted
    {quote : Char}
    (hquote : IsQuote quote)
    (t : Text) :
    ∃ closed, Delimited quote (quote :: (Scan.quoted quote t).taken) (Scan.quoted quote t).rest
      closed := by
  obtain ⟨body, hbody, hcases⟩ := Scan.exists_inside_stopQuoted quote t
  rw [Scan.stopQuoted_fst] at hcases
  rcases hcases with ⟨hstop, htaken⟩ | ⟨hstop, hend, htaken⟩
  · have hterminated :
        Literal.isTerminated quote (quote :: (Scan.quoted quote t).taken) = true := by
      rw [htaken, Literal.isTerminated_concat, hbody.even_endSlashes]
      simp
    refine ⟨true, delimited_of_isTerminated hquote hstop (fun h => Bool.noConfusion h) htaken
      hterminated fun s u hsplit => ?_⟩
    rw [hsplit] at hbody
    exact hbody.odd_endSlashes hquote
  · have hodd : ∀ s u, (Scan.quoted quote t).taken = s ++ quote :: u →
        Scan.endSlashes s % 2 = 1 :=
      fun _ _ hsplit => Scan.odd_endSlashes_of_open hquote hbody htaken hsplit
    have hterminated :
        Literal.isTerminated quote (quote :: (Scan.quoted quote t).taken) = false := by
      rw [Bool.eq_false_iff]
      intro hterminated
      -- The last character were a quote that is not escaped.
      rcases List.eq_nil_or_concat (Scan.quoted quote t).taken with hnil | ⟨s, c, hconcat⟩
      · simp [hnil, Literal.isTerminated] at hterminated
      · rw [hconcat, List.concat_eq_append, Literal.isTerminated_concat, Bool.and_eq_true,
          beq_iff_eq, beq_iff_eq] at hterminated
        obtain ⟨rfl, heven⟩ := hterminated
        rw [List.concat_eq_append] at hconcat
        have := hodd s [] hconcat
        omega
    exact ⟨false, delimited_of_isTerminated hquote hstop (fun _ => hend) (by simp) hterminated
      hodd⟩

/-! ## Lexemes in quotes -/

section Lexemes

variable {K : Type} [DecidableEq K]

/-- The kinds of lexemes that are written in quotes, or may be. -/
structure QuotedKinds (K : Type) where
  string : K
  character : K
  name : K

/-- The quoted part of a name. -/
def quotedName? : Text → Option (Char × Text)
  | '@' :: '"' :: t => some ('"', '"' :: t)
  | _ => none

/-- The quote of a literal or a name, and the lexeme from there on. -/
def Lexeme.quoted? (kinds : QuotedKinds K) (l : Lexeme K) : Option (Char × Text) :=
  if l.kind = kinds.string then some ('"', l.text)
  else if l.kind = kinds.character then some ('\'', l.text)
  else if l.kind = kinds.name then quotedName? l.text
  else none

/-- Whether a reading that is written in quotes was scanned as that. -/
def Reading.Scans (kinds : QuotedKinds K) (c : Char) {t : Text} (r : Reading K t) : Prop :=
  ∀ quote w, Lexeme.quoted? kinds ⟨r.kind, c :: r.cut.taken⟩ = some (quote, w) →
    IsQuote quote ∧ ∃ s, w = quote :: (Scan.quoted quote s).taken ∧
      (Scan.quoted quote s).rest = r.cut.rest

variable {kinds : QuotedKinds K} {kind : K} {c : Char} {t : Text}

/-- A reading of another kind, or a name that does not start with an at sign. -/
theorem Reading.scans_of_ne
    {cut : Cut t}
    (hstring : kind ≠ kinds.string)
    (hcharacter : kind ≠ kinds.character)
    (hname : kind = kinds.name → c ≠ '@') :
    (Reading.mk kind cut).Scans kinds c := by
  intro quote w h
  rw [Lexeme.quoted?, if_neg hstring, if_neg hcharacter] at h
  split at h
  · rename_i hkind
    unfold quotedName? at h
    split at h
    · rename_i hat
      exact absurd (List.cons.inj hat).1 (hname hkind)
    · simp at h
  · simp at h

theorem Reading.scans_string (t : Text) :
    (Reading.mk kinds.string (Scan.quoted '"' t)).Scans kinds '"' := by
  intro quote w h
  rw [Lexeme.quoted?, if_pos rfl] at h
  obtain ⟨rfl, rfl⟩ := Prod.mk.inj (Option.some.inj h)
  exact ⟨.inl rfl, t, rfl, rfl⟩

theorem Reading.scans_character
    (hne : kinds.character ≠ kinds.string)
    (t : Text) :
    (Reading.mk kinds.character (Scan.quoted '\'' t)).Scans kinds '\'' := by
  intro quote w h
  rw [Lexeme.quoted?, if_neg hne, if_pos rfl] at h
  obtain ⟨rfl, rfl⟩ := Prod.mk.inj (Option.some.inj h)
  exact ⟨.inr rfl, t, rfl, rfl⟩

theorem Reading.scans_name
    (hstring : kinds.name ≠ kinds.string)
    (hcharacter : kinds.name ≠ kinds.character)
    (t : Text) :
    (Reading.mk kinds.name (.cons '"' (Scan.quoted '"' t))).Scans kinds '@' := by
  intro quote w h
  rw [Lexeme.quoted?, if_neg hstring, if_neg hcharacter, if_pos rfl] at h
  obtain ⟨rfl, rfl⟩ := Prod.mk.inj (Option.some.inj h)
  exact ⟨.inl rfl, t, rfl, rfl⟩

/-- The scanner and the tree agree on the lexemes of a stream whose readings in quotes
are scanned. -/
theorem exists_delimited_of_split
    [Vocabulary K]
    {read : (c : Char) → (t : Text) → Reading K t}
    (hread : ∀ c t, (read c t).Scans kinds c)
    (heof : Lexeme.quoted? kinds ⟨Vocabulary.eof, []⟩ = none)
    {text : Text}
    {front back : List (Lexeme K)}
    {l : Lexeme K}
    (hsplit : lexWith read text = front ++ l :: back)
    {quote : Char}
    {w : Text}
    (hl : l.quoted? kinds = some (quote, w)) :
    ∃ closed, Delimited quote w (textOf back) closed := by
  rcases exists_read_of_split hsplit with ⟨rfl, -⟩ | ⟨c, t, htext, rfl⟩
  · rw [heof] at hl
    exact absurd hl.symm (Option.some_ne_none _)
  · obtain ⟨hquote, s, rfl, hrest⟩ := hread c t quote w hl
    have hback : textOf back = (read c t).cut.rest := by
      rw [textOf, List.flatMap_cons, List.cons_append] at htext
      have hjoin := (List.cons.inj htext).2.trans (read c t).cut.join.symm
      exact List.append_cancel_left hjoin
    rw [hback, ← hrest]
    exact delimited_quoted hquote s

end Lexemes

/-! ## Both lexers -/

namespace Zig

/-- The kinds that are written in quotes. -/
def quotedKinds : QuotedKinds Kind := ⟨.stringLiteralSingle, .charLiteral, .identifier⟩

theorem scans_readAtSign (t : Text) : (readAtSign t).Scans quotedKinds '@' := by
  cases t with
  | nil => exact Reading.scans_of_ne (by decide) (by decide) (fun h => by cases h)
  | cons c t =>
      rw [readAtSign]
      split
      · rename_i hc
        subst hc
        exact Reading.scans_name (by decide) (by decide) t
      split
      · exact Reading.scans_of_ne (by decide) (by decide) (fun h => by cases h)
      · exact Reading.scans_of_ne (by decide) (by decide) (fun h => by cases h)

/-- No operator is written in quotes. -/
theorem scans_readOperator
    {c : Char}
    (hat : c ≠ '@')
    (t : Text) :
    (readOperator c t).Scans quotedKinds c := by
  rw [readOperator]
  split
  · rename_i chain hoperator
    have hspelled := (operators_of_operator? hoperator).spelled _ (chain.mem_endings_read t)
    refine Reading.scans_of_ne ?_ ?_ fun _ => hat
    · intro hkind
      rw [hkind] at hspelled
      exact absurd hspelled.symm (Option.some_ne_none _)
    · intro hkind
      rw [hkind] at hspelled
      exact absurd hspelled.symm (Option.some_ne_none _)
  · exact Reading.scans_of_ne (by decide) (by decide) fun _ => hat

theorem scans_readOther
    (c : Char)
    (t : Text) :
    (read.readOther c t).Scans quotedKinds c := by
  rw [read.readOther]
  split
  · exact Reading.scans_of_ne (by decide) (by decide) (fun h => by cases h)
  split
  · rename_i hc
    subst hc
    exact Reading.scans_string t
  split
  · rename_i hc
    subst hc
    exact Reading.scans_character (by decide) t
  split
  · rename_i hc
    subst hc
    exact scans_readAtSign t
  rename_i hat
  split
  · dsimp only
    split
    · exact Reading.scans_of_ne (by decide) (by decide) fun _ => hat
    · exact Reading.scans_of_ne (by decide) (by decide) fun _ => hat
  split
  · refine Reading.scans_of_ne ?_ ?_ fun _ => hat
    · exact ofKeyword?_getD_ne _ (by decide) (by decide)
    · exact ofKeyword?_getD_ne _ (by decide) (by decide)
  · exact scans_readOperator hat t

theorem scans_read
    (c : Char)
    (t : Text) :
    (read c t).Scans quotedKinds c := by
  unfold read
  split
  · split
    · rename_i hc
      refine Reading.scans_of_ne ?_ ?_ fun _ => by rw [hc]; decide
      · exact commentKind_ne _ (by decide)
      · exact commentKind_ne _ (by decide)
    · exact scans_readOther c _
  · split
    · exact Reading.scans_of_ne (by decide) (by decide) (fun h => by cases h)
    · exact scans_readOther c _
  · exact scans_readOther c _

end Zig

namespace Zon

/-- The kinds that are written in quotes. -/
def quotedKinds : QuotedKinds Kind := ⟨.stringLiteralSingle, .charLiteral, .identifier⟩

theorem scans_readOther
    (c : Char)
    (t : Text) :
    (read.readOther c t).Scans quotedKinds c := by
  rw [read.readOther]
  split
  · exact Reading.scans_of_ne (by decide) (by decide) (fun h => by cases h)
  split
  · rename_i hc
    subst hc
    exact Reading.scans_string t
  split
  · rename_i hc
    subst hc
    exact Reading.scans_character (by decide) t
  split
  · dsimp only
    split
    · exact Reading.scans_of_ne (by decide) (by decide) (fun h => by cases h)
    · exact Reading.scans_of_ne (by decide) (by decide) (fun h => by cases h)
  split
  · rename_i hword
    refine Reading.scans_of_ne (by decide) (by decide) fun _ => ?_
    rintro rfl
    exact absurd hword (by decide)
  · fun_cases punctuation? c
    all_goals exact Reading.scans_of_ne (by decide) (by decide) (fun h => by cases h)

theorem scans_read
    (c : Char)
    (t : Text) :
    (read c t).Scans quotedKinds c := by
  unfold read
  split
  · split
    · exact Reading.scans_of_ne (by decide) (by decide) (fun h => by cases h)
    · exact scans_readOther c _
  · split
    · exact Reading.scans_of_ne (by decide) (by decide) (fun h => by cases h)
    · exact scans_readOther c _
  · split
    · rename_i hc
      subst hc
      exact Reading.scans_name (by decide) (by decide) _
    · exact scans_readOther c _
  · exact scans_readOther c _

end Zon

/-- **Scanner and tree find the same end.**  In every text, a literal or a name in quotes
is terminated exactly if a closing quote stopped the scanner.  Its content is all of it
but the opening quote and, in that case, the closing one; a quote in the content is
escaped. -/
theorem delimited_lex (text : Text) :
    (∀ front l back quote w,
      Zig.lex text = front ++ l :: back → l.quoted? Zig.quotedKinds = some (quote, w) →
      ∃ closed, Delimited quote w (textOf back) closed) ∧
    ∀ front l back quote w,
      Zon.lex text = front ++ l :: back → l.quoted? Zon.quotedKinds = some (quote, w) →
      ∃ closed, Delimited quote w (textOf back) closed :=
  ⟨fun _ _ _ _ _ hsplit hl => exists_delimited_of_split Zig.scans_read rfl hsplit hl,
    fun _ _ _ _ _ hsplit hl => exists_delimited_of_split Zon.scans_read rfl hsplit hl⟩

/-- A literal that ends behind a pair of backslashes, and a name that an escaped quote
does not end. -/
theorem delimited_lex_backslashes :
    (∃ closed, Delimited '\'' "'\\\\'".toList [] closed) ∧
      ∃ closed, Delimited '"' "\"a\\\"".toList ['\n'] closed :=
  ⟨(delimited_lex "'\\\\'".toList).1 [] ⟨.charLiteral, "'\\\\'".toList⟩ [⟨.eof, []⟩] _ _
      (by decide +kernel) (by decide +kernel),
    (delimited_lex "@\"a\\\"\n".toList).2 [] ⟨.identifier, "@\"a\\\"".toList⟩
      [⟨.whitespace, ['\n']⟩, ⟨.eof, []⟩] _ _ (by decide +kernel) (by decide +kernel)⟩

end ZigCst
