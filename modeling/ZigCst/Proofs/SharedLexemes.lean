import ZigCst.Proofs.Seam
import ZigCst.Proofs.ZonPrint

/-!
# Lexemes that both languages share

A text that is cut into lexemes of Zon is cut in the same places by the lexer of Zig.
The two lexers differ in three ways: Zig has operators of more than one character, it has
keywords, and it tells classes of comments apart.  Comments are trivia whatever their
class, so the significant lexemes agree where no two punctuation marks make an operator
and no word is a keyword.

**Definitions.**
* `Zon.Kind.inZig`: the kind in Zig of a kind of Zon.
* `Zon.clashes`: two neighbouring marks that are one operator in Zig.
* `Zon.Shared`: significant lexemes that both languages share.

**Results.**
* `Zon.same_read`: both lexers read the same lexeme.
* `Zon.places_lex_inZig`: the significant lexemes of a text are the same in both
  languages, in the same places.
-/

namespace ZigCst
namespace Zon

/-! ## Kinds -/

/-- The kind in Zig of a kind of Zon. -/
def Kind.inZig : Kind → Zig.Kind
  | .dot => .dot
  | .leftBrace => .leftBrace
  | .rightBrace => .rightBrace
  | .comma => .comma
  | .eq => .eq
  | .minus => .minus
  | .identifier => .identifier
  | .integer => .integer
  | .float => .float
  | .charLiteral => .charLiteral
  | .stringLiteralSingle => .stringLiteralSingle
  | .lineString => .stringLiteralMulti
  | .lineComment => .lineComment
  | .whitespace => .whitespace
  | .badCharacter => .badCharacter
  | .eof => .eof
  | .file => .sourceFile
  | .struct | .array => .initList
  | .entry => .fieldInit
  | .ident => .ident
  | .enumLiteral => .enumLiteral
  | .stringLiteral => .stringLiteral
  | .char | .number => .literal
  | .error => .error
  | .tombstone => .tombstone

theorem Kind.isTrivia_inZig (kind : Kind) :
    Vocabulary.isTrivia kind.inZig = Vocabulary.isTrivia kind := by
  cases kind <;> rfl

/-- The lexeme with its kind in Zig. -/
def inZig (l : Lexeme Kind) : Lexeme Zig.Kind := ⟨l.kind.inZig, l.text⟩

/-- The lexeme in place with its kind in Zig. -/
def placedInZig (l : Located Kind) : Located Zig.Kind := ⟨inZig l.toLexeme, l.start⟩

/-! ## One lexeme -/

/-- Whether two readings take the same, as the same kind or as comments. -/
structure Same {t : Text} (r : Reading Kind t) (r' : Reading Zig.Kind t) : Prop where
  cut : r'.cut = r.cut
  kind : r'.kind = r.kind.inZig ∨ r.kind = .lineComment ∧ r'.kind.isTrivia = true

theorem Same.isTrivia_eq
    {t : Text}
    {r : Reading Kind t}
    {r' : Reading Zig.Kind t}
    (h : Same r r') :
    Vocabulary.isTrivia r'.kind = Vocabulary.isTrivia r.kind := by
  rcases h.kind with hkind | ⟨hcomment, htrivia⟩
  · rw [hkind, Kind.isTrivia_inZig]
  · rw [hcomment]
    exact htrivia

theorem isTrivia_commentKind (t : Text) : (Zig.commentKind t).isTrivia = true := by
  fun_cases Zig.commentKind t <;> rfl

/-- Whether a mark stands alone: no longer operator of Zig starts with it. -/
def Alone (c : Char) (t : Text) : Prop :=
  ∀ kind chain, punctuation? c = some kind → Zig.operator? c = some chain →
    ∀ x ∈ chain.endings, x.1 <+: t → x.1 = []

theorem operator?_of_punctuation?
    {c : Char}
    {kind : Kind}
    (h : punctuation? c = some kind) :
    ∃ chain, Zig.operator? c = some chain ∧ chain.single = kind.inZig := by
  revert h
  fun_cases punctuation? c
  all_goals
    intro h
    cases h
    try exact ⟨_, rfl, rfl⟩

theorem same_readOperator
    {c : Char}
    {t : Text}
    (hknown : (punctuation? c).getD .badCharacter ≠ .badCharacter)
    (halone : Alone c t) :
    Same ⟨(punctuation? c).getD .badCharacter, .none t⟩ (Zig.readOperator c t) := by
  cases hkind : punctuation? c with
  | none =>
      rw [hkind] at hknown
      exact absurd rfl hknown
  | some kind =>
      obtain ⟨chain, hoperator, hsingle⟩ := operator?_of_punctuation? hkind
      rw [Zig.readOperator, hoperator]
      dsimp only
      rw [Chain.read_eq_single (halone _ _ hkind hoperator), hsingle]
      exact ⟨rfl, .inl rfl⟩

/-- A lexeme that its first character decides. -/
theorem same_readOther
    {c : Char}
    {t : Text}
    (hknown : (read.readOther c t).kind ≠ .badCharacter)
    (hword : (read.readOther c t).kind = .identifier →
      Zig.Kind.ofKeyword? (c :: (read.readOther c t).cut.taken) = none)
    (halone : Alone c t) :
    Same (read.readOther c t) (Zig.read.readOther c t) := by
  have hat : c ≠ '@' := by
    rintro rfl
    exact hknown rfl
  rw [read.readOther] at hknown hword ⊢
  rw [Zig.read.readOther]
  by_cases hblank : Scan.isBlank c = true
  · simp only [hblank, if_true]
    exact ⟨rfl, .inl rfl⟩
  by_cases hstring : c = '"'
  · subst hstring
    exact ⟨rfl, .inl rfl⟩
  by_cases hchar : c = '\''
  · subst hchar
    exact ⟨rfl, .inl rfl⟩
  by_cases hdecimal : Scan.isDecimal c = true
  · simp only [hblank, hstring, hchar, hat, hdecimal, if_true, Bool.false_eq_true, if_false]
    refine ⟨rfl, .inl ?_⟩
    split <;> rfl
  by_cases hstarts : Scan.startsWord c = true
  · simp only [hblank, hstring, hchar, hat, hdecimal, hstarts, if_true, Bool.false_eq_true,
      if_false] at hword ⊢
    rw [hword trivial]
    exact ⟨rfl, .inl rfl⟩
  · simp only [hblank, hstring, hchar, hat, hdecimal, hstarts, Bool.false_eq_true,
      if_false] at hknown ⊢
    exact same_readOperator hknown halone

/-- **Both lexers read the same lexeme**, where Zig has no longer operator and no
keyword. -/
theorem same_read
    {c : Char}
    {t : Text}
    (hknown : (read c t).kind ≠ .badCharacter)
    (hword : (read c t).kind = .identifier → c ≠ '@' →
      Zig.Kind.ofKeyword? (c :: (read c t).cut.taken) = none)
    (halone : Alone c t) :
    Same (read c t) (Zig.read c t) := by
  -- Where the first character decides, so it does in Zig.
  have hother : read c t = read.readOther c t → Zig.read c t = Zig.read.readOther c t →
      Same (read c t) (Zig.read c t) := by
    intro hread hread'
    rw [hread] at hknown hword ⊢
    rw [hread']
    refine same_readOther hknown (fun hidentifier => hword hidentifier ?_) halone
    rintro rfl
    exact hknown rfl
  cases t with
  | nil => exact hother rfl rfl
  | cons d t =>
      by_cases hslash : d = '/'
      · subst hslash
        by_cases hc : c = '/'
        · subst hc
          exact ⟨rfl, .inr ⟨rfl, isTrivia_commentKind t⟩⟩
        · exact hother (if_neg hc) (if_neg hc)
      by_cases hbackslash : d = '\\'
      · subst hbackslash
        by_cases hc : c = '\\'
        · subst hc
          exact ⟨rfl, .inl rfl⟩
        · exact hother (if_neg hc) (if_neg hc)
      have hread' := Zig.read_eq_readOther c hslash hbackslash t
      by_cases hquote : d = '"'
      · subst hquote
        by_cases hc : c = '@'
        · subst hc
          exact ⟨rfl, .inl rfl⟩
        · exact hother (if_neg hc) hread'
      · refine hother ?_ hread'
        rw [read]
        · exact fun u hu => hslash (List.cons.inj hu).1
        · exact fun u hu => hbackslash (List.cons.inj hu).1
        · exact fun u hu => hquote (List.cons.inj hu).1

/-! ## Streams -/

/-- Whether two neighbouring marks are one operator in Zig. -/
def clashes : Kind → Kind → Bool
  | .dot, .dot | .eq, .eq | .minus, .eq => true
  | _, _ => false

/-- Whether no two neighbouring marks are one operator in Zig. -/
def Apart (kinds : List Kind) : Prop := kinds.IsChain fun a b => clashes a b = false

/-- Whether both languages share significant lexemes: all of them start a token, no two
neighbours are one operator and no word is a keyword in Zig. -/
structure Shared (ls : List (Lexeme Kind)) : Prop where
  known : ∀ l ∈ ls, l.kind ≠ .badCharacter
  apart : Apart (ls.map Lexeme.kind)
  words : ∀ l ∈ ls, l.kind = .identifier → ¬ ['@'] <+: l.text → Zig.Kind.ofKeyword? l.text = none

theorem Shared.tail
    {l : Lexeme Kind}
    {ls : List (Lexeme Kind)}
    (h : Shared (l :: ls)) :
    Shared ls where
  known := (List.forall_mem_cons.mp h.known).2
  apart := List.IsChain.tail h.apart
  words := (List.forall_mem_cons.mp h.words).2

/-- A character that continues an operator of Zig is one lexeme. -/
theorem lex_continuing
    {d : Char}
    (h : d ∈ ['.', '*', '=', '>', '%', '|'])
    (t : Text) :
    lex (d :: t) = ⟨(punctuation? d).getD .badCharacter, [d]⟩ :: lex t := by
  simp only [List.mem_cons, List.not_mem_nil, or_false] at h
  rcases h with rfl | rfl | rfl | rfl | rfl | rfl <;>
    rw [lex_cons, read_eq_readOther (by decide) (by decide) (by decide)] <;> rfl

/-- Marks are significant, and so are characters that start no token. -/
theorem isTrivia_punctuation (c : Char) :
    Vocabulary.isTrivia ((punctuation? c).getD .badCharacter) = false := by
  fun_cases punctuation? c <;> rfl

/-- What makes a mark a longer operator is no lexeme of Zon, or clashes with it. -/
theorem clashes_of_mem_tried
    {c : Char}
    {kind : Kind}
    {chain : Chain Zig.Kind}
    (hkind : punctuation? c = some kind)
    (hoperator : Zig.operator? c = some chain) :
    ∀ d ∈ chain.tried, d ∈ ['.', '*', '=', '>', '%', '|'] ∧
      ((punctuation? d).getD .badCharacter = .badCharacter ∨
        clashes kind ((punctuation? d).getD .badCharacter) = true) := by
  revert hkind
  fun_cases punctuation? c
  all_goals
    intro hkind
    cases hkind
    try
      obtain rfl := Option.some.inj hoperator
      simp [Zig.dot, Zig.arithmetic, Chain.either, Chain.tried, punctuation?, clashes]

/-- Marks of shared lexemes stand alone. -/
theorem Shared.alone
    {c : Char}
    {t : Text}
    (h : Shared (significantLexemes (lex (c :: t)))) :
    Alone c t := by
  intro kind chain hkind hoperator x hx hprefix
  obtain ⟨ending, k⟩ := x
  refine Classical.byContradiction fun hsome => ?_
  obtain ⟨d, ending, rfl⟩ := List.exists_cons_of_ne_nil hsome
  obtain ⟨hd, hnext⟩ :=
    clashes_of_mem_tried hkind hoperator d (Chain.mem_tried_of_mem_endings hx)
  obtain ⟨u, rfl⟩ : ∃ u, t = d :: u := by
    obtain ⟨behind, rfl⟩ := hprefix
    exact ⟨_, rfl⟩
  have hpair : significantLexemes (lex (c :: d :: u)) =
      ⟨kind, [c]⟩ :: ⟨(punctuation? d).getD .badCharacter, [d]⟩ :: significantLexemes (lex u) := by
    have hfirst := isTrivia_punctuation c
    rw [hkind] at hfirst
    rw [lex_punctuation hkind, lex_continuing hd, significantLexemes,
      List.filter_cons_of_pos (by simpa using hfirst),
      List.filter_cons_of_pos (by simpa using isTrivia_punctuation d)]
    rfl
  rw [hpair] at h
  rcases hnext with hbad | hclash
  · exact h.known _ (List.mem_cons_of_mem _ List.mem_cons_self) hbad
  · have hapart := h.apart
    rw [List.map_cons, List.map_cons, Apart, List.isChain_cons_cons] at hapart
    rw [hapart.1] at hclash
    exact Bool.false_ne_true hclash

/-- The first of shared lexemes is the same in Zig. -/
theorem Shared.same
    {c : Char}
    {t : Text}
    (h : Shared (significantLexemes (lex (c :: t)))) :
    Same (read c t) (Zig.read c t) := by
  have hmem : Vocabulary.isTrivia (read c t).kind = false →
      ⟨(read c t).kind, c :: (read c t).cut.taken⟩ ∈ significantLexemes (lex (c :: t)) := by
    intro htrivia
    rw [lex_cons]
    exact List.mem_filter.mpr ⟨List.mem_cons_self, by simp [htrivia]⟩
  refine same_read (fun hbad => ?_) (fun hidentifier hc => ?_) h.alone
  · exact h.known _ (hmem (by rw [hbad]; rfl)) hbad
  · refine h.words _ (hmem (by rw [hidentifier]; rfl)) hidentifier ?_
    simpa using hc.symm

/-- **Both languages share the lexemes of a text.**  The significant lexemes of Zig are
those of Zon, in the same places. -/
theorem places_lex_inZig
    (start : Nat)
    (text : Text)
    (h : Shared (significantLexemes (lex text))) :
    places start (Zig.lex text) = (places start (lex text)).map placedInZig := by
  match text with
  | [] =>
      rw [Zig.lex_nil, lex, lexWith]
      rfl
  | c :: t =>
      have hsame := h.same
      have hrest : Shared (significantLexemes (lex (read c t).cut.rest)) := by
        rw [lex_cons, significantLexemes, List.filter_cons] at h
        split at h
        · exact h.tail
        · exact h
      have hafter := places_lex_inZig (start + Text.size (c :: (read c t).cut.taken))
        (read c t).cut.rest hrest
      have hfirst : places start [⟨(Zig.read c t).kind, c :: (read c t).cut.taken⟩] =
          (places start [⟨(read c t).kind, c :: (read c t).cut.taken⟩]).map placedInZig := by
        have htrivia := hsame.isTrivia_eq
        cases hsignificant : Vocabulary.isTrivia (read c t).kind with
        | true => simp_all [places, locate, Located.isTrivia]
        | false =>
            rcases hsame.kind with hkind | ⟨hcomment, -⟩
            · simp_all [places, locate, Located.isTrivia, placedInZig, inZig]
            · rw [hcomment] at hsignificant
              exact absurd hsignificant (by decide)
      rw [lex_cons, Zig.lex_cons, hsame.cut, places_cons,
        places_cons start _ (lex (read c t).cut.rest), List.map_append, hfirst, hafter]
termination_by text.length
decreasing_by exact Nat.lt_succ_of_le (read c t).cut.length_rest_le

end Zon
end ZigCst
