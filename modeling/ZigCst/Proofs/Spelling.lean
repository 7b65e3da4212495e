import ZigCst.Proofs.Restarts

/-!
# How operators and keywords are spelled

Every operator and every keyword of Zig has one spelling.  A token with a spelling is
written as it says, and no longer spelling stands at its place; a token that is
written like an operator or a keyword is that operator or keyword.

An operator is the longest because the chain of attempts of its first character tries no
character twice.  A keyword is the longest because a word takes all characters that may
continue it; it is found in the table of keywords because their spellings ascend.

**Definitions.**
* `Spelled onward l`: what spellings say of the lexeme at the front of a text.

**Results.**
* `Kind.ofKeyword?_eq_some_iff`: the table gives exactly the keywords.
* `exists_of_spelling?`: a spelling is a word, or can be eaten by the chain of its first
  character.
* `spelled_read`: every lexeme is spelled as its kind says.
* `exists_restart?_spelled`: so are all tokens of a text.
-/

namespace ZigCst
namespace Zig

/-! ## Keywords -/

namespace Kind

theorem mem_all (k : Kind) : k ∈ all := by
  have hplace : all[k.ctorIdx]? = some k := by
    cases k <;> rfl
  exact List.mem_of_getElem? hplace

theorem ascending_keywords : Text.Ascending keywords := by
  decide +kernel

/-- The table of keywords is parallel to their declarations. -/
theorem keywords_getElem?
    {k : Kind}
    (h : k.isKeyword = true) :
    keywords[k.ctorIdx - addrspaceKw.ctorIdx]?.map Prod.snd = some k := by
  have hall : ∀ k ∈ all, k.isKeyword = true →
      keywords[k.ctorIdx - addrspaceKw.ctorIdx]?.map Prod.snd = some k := by
    decide +kernel
  exact hall k (mem_all k) h

theorem mem_keywords_iff
    {word : Text}
    {k : Kind} :
    (word, k) ∈ keywords ↔ k.isKeyword = true ∧ k.spelling? = some word := by
  constructor
  · exact keyword_of_mem_keywords
  · rintro ⟨hkeyword, hword⟩
    unfold spelling? at hword
    rw [if_pos hkeyword] at hword
    obtain ⟨⟨word', k'⟩, hentry, rfl⟩ := Option.map_eq_some_iff.mp hword
    have hkind := keywords_getElem? hkeyword
    rw [hentry] at hkind
    obtain rfl := Option.some.inj hkind
    exact List.mem_of_getElem? hentry

/-- The table of keywords gives exactly the keywords by their spellings. -/
theorem ofKeyword?_eq_some_iff
    (word : Text)
    (k : Kind) :
    ofKeyword? word = some k ↔ k.isKeyword = true ∧ k.spelling? = some word :=
  (Text.lookup?_eq_some_iff ascending_keywords).trans mem_keywords_iff

end Kind

/-! ## Chains of operators -/

/-- What holds of the operators that start with a character. -/
structure Operators (c : Char) (chain : Chain Kind) : Prop where
  starts : Scan.startsWord c = false
  /-- No character is tried again. -/
  distinct : chain.Distinct
  /-- They are spelled with what the chain eats. -/
  spelled : ∀ x ∈ chain.endings, x.2.spelling? = some (c :: x.1)

theorem operators_of_operator?
    {c : Char}
    {chain : Chain Kind}
    (h : operator? c = some chain) :
    Operators c chain := by
  revert h
  fun_cases operator? c
  all_goals
    intro h
    cases h
  all_goals exact ⟨by decide, by decide, by decide⟩

/-- A character that may start a word starts no operator. -/
theorem operator?_of_startsWord
    {c : Char}
    (hc : Scan.startsWord c = true) :
    operator? c = none := by
  cases hchain : operator? c with
  | none => rfl
  | some chain =>
      rw [(operators_of_operator? hchain).starts] at hc
      exact absurd hc Bool.false_ne_true

/-! ## Spellings -/

/-- A spelling is that of a keyword, which is a word, or that of an operator, which the
chain of its first character can eat. -/
theorem exists_of_spelling?
    {k : Kind}
    {s : Text}
    (h : k.spelling? = some s) :
    ∃ c ending, s = c :: ending ∧
      ((k.isKeyword = true ∧ Scan.startsWord c = true ∧
          ∀ d ∈ ending, Scan.continuesWord d = true) ∨
        ∃ chain, operator? c = some chain ∧ (ending, k) ∈ chain.endings) := by
  have hall : ∀ k ∈ Kind.all, (match k.spelling? with
      | some (c :: ending) =>
          (k.isKeyword && Scan.startsWord c && ending.all Scan.continuesWord) ||
            (operator? c).any fun chain => chain.endings.contains (ending, k)
      | some [] => false
      | none => true) = true := by
    decide +kernel
  have hk := hall k (Kind.mem_all k)
  rw [h] at hk
  cases s with
  | nil => exact absurd hk Bool.false_ne_true
  | cons c ending =>
      refine ⟨c, ending, rfl, ?_⟩
      rcases Bool.or_eq_true_iff.mp hk with hword | hrow
      · rw [Bool.and_eq_true, Bool.and_eq_true, List.all_eq_true] at hword
        exact .inl ⟨hword.1.1, hword.1.2, hword.2⟩
      · obtain ⟨chain, hoperator, hmem⟩ := (Option.any_eq_true _ _).mp hrow
        exact .inr ⟨chain, hoperator, List.contains_iff_mem.mp hmem⟩

/-- A spelling that starts like a word is that of a keyword, which is a word. -/
theorem keyword_of_spelling?
    {c : Char}
    {k : Kind}
    {ending : Text}
    (hc : Scan.startsWord c = true)
    (h : k.spelling? = some (c :: ending)) :
    k.isKeyword = true ∧ ∀ d ∈ ending, Scan.continuesWord d = true := by
  obtain ⟨d, ending', heq, hcases⟩ := exists_of_spelling? h
  obtain ⟨rfl, rfl⟩ := List.cons.inj heq
  rcases hcases with ⟨hkeyword, -, hcontinues⟩ | ⟨chain, hoperator, -⟩
  · exact ⟨hkeyword, hcontinues⟩
  · rw [operator?_of_startsWord hc] at hoperator
    exact absurd hoperator.symm (Option.some_ne_none _)

/-- A spelling that starts like an operator is one that its chain can eat. -/
theorem mem_endings_of_spelling?
    {c : Char}
    {chain : Chain Kind}
    {k : Kind}
    {ending : Text}
    (hchain : operator? c = some chain)
    (h : k.spelling? = some (c :: ending)) :
    (ending, k) ∈ chain.endings := by
  obtain ⟨d, ending', heq, hcases⟩ := exists_of_spelling? h
  obtain ⟨rfl, rfl⟩ := List.cons.inj heq
  rcases hcases with ⟨-, hstarts, -⟩ | ⟨chain', hchain', hmem⟩
  · rw [operator?_of_startsWord hstarts] at hchain
    exact absurd hchain.symm (Option.some_ne_none _)
  · obtain rfl := Option.some.inj (hchain.symm.trans hchain')
    exact hmem

/-- Whether no spelling starts with a character. -/
def Unspelled (c : Char) : Prop := ∀ k ending, Kind.spelling? k ≠ some (c :: ending)

theorem unspelled_of_operator?
    {c : Char}
    (hoperator : operator? c = none)
    (hword : Scan.startsWord c = false) :
    Unspelled c := by
  intro k ending h
  obtain ⟨c', ending', heq, hcases⟩ := exists_of_spelling? h
  obtain ⟨rfl, rfl⟩ := List.cons.inj heq
  rcases hcases with ⟨-, hstarts, -⟩ | ⟨chain, hchain, -⟩
  · rw [hword] at hstarts
    exact Bool.false_ne_true hstarts
  · rw [hoperator] at hchain
    exact Option.some_ne_none _ hchain.symm

/-- The characters that blanks, numerals, literals and names in quotes start with. -/
def isPlain (c : Char) : Bool :=
  Scan.isBlank c || Scan.isDecimal c || c == '"' || c == '\'' || c == '@' || c == '\\'

theorem unspelled_of_plain
    {c : Char}
    (hc : isPlain c = true) :
    Unspelled c := by
  have hall : ∀ k ∈ Kind.all, (k.spelling?.bind List.head?).all (fun c => !isPlain c) = true := by
    decide +kernel
  intro k ending h
  have hk := hall k (Kind.mem_all k)
  rw [h] at hk
  simp only [Option.bind_some, List.head?_cons, Option.all_some, hc] at hk
  exact Bool.false_ne_true hk

/-! ## Spelled lexemes -/

/-- What spellings say of the lexeme at the front of a text. -/
structure Spelled (onward : Text) (l : Lexeme Kind) : Prop where
  /-- A kind with a spelling is written so. -/
  text_eq : ∀ t, l.kind.spelling? = some t → l.text = t
  /-- No spelling that is longer stands at the front of the text. -/
  longest : ∀ k t, Kind.spelling? k = some t → l.text.length < t.length → ¬ t <+: onward
  /-- What is written like an operator or a keyword is that operator or keyword. -/
  kind_eq : ∀ k, Kind.spelling? k = some l.text → l.kind = k

/-- Where no spelling starts with the first character, none is read. -/
theorem spelled_of_unspelled
    {c : Char}
    (hc : Unspelled c)
    {kind : Kind}
    (hkind : kind.spelling? = none)
    (t taken : Text) :
    Spelled (c :: t) ⟨kind, c :: taken⟩ where
  text_eq := fun s hs => absurd (hkind.symm.trans hs) (Option.some_ne_none s).symm
  longest := by
    intro k s hs _ hprefix
    obtain ⟨d, ending, rfl, -⟩ := exists_of_spelling? hs
    obtain ⟨rfl, -⟩ := List.cons_prefix_cons.mp hprefix
    exact hc k ending hs
  kind_eq := fun k hk => absurd hk (hc k taken)

/-- A word takes every character that may continue it, so no keyword is longer. -/
theorem spelled_word
    {c : Char}
    (hc : Scan.startsWord c = true)
    (t : Text) :
    Spelled (c :: t)
      ⟨(Kind.ofKeyword? (c :: (Scan.word t).taken)).getD .identifier, c :: (Scan.word t).taken⟩ where
  text_eq := by
    intro s hs
    dsimp only at hs
    cases hkeyword : Kind.ofKeyword? (c :: (Scan.word t).taken) with
    | none =>
        rw [hkeyword] at hs
        exact absurd hs (Option.some_ne_none s).symm
    | some k =>
        rw [hkeyword, Option.getD_some] at hs
        have hword := ((Kind.ofKeyword?_eq_some_iff _ k).mp hkeyword).2
        exact Option.some.inj (hword.symm.trans hs)
  longest := by
    intro k s hs hlonger hprefix
    obtain ⟨d, ending, rfl, -⟩ := exists_of_spelling? hs
    obtain ⟨rfl, more, rfl⟩ := List.cons_prefix_cons.mp hprefix
    have htaken : (Scan.word (ending ++ more)).taken =
        ending ++ more.takeWhile Scan.continuesWord :=
      List.takeWhile_append_of_pos (keyword_of_spelling? hc hs).2
    dsimp only at hlonger
    rw [htaken, List.length_cons, List.length_cons, List.length_append] at hlonger
    omega
  kind_eq := by
    intro k hk
    dsimp only
    rw [(Kind.ofKeyword?_eq_some_iff _ k).mpr ⟨(keyword_of_spelling? hc hk).1, hk⟩]
    rfl

/-- The longest operator is read, or a character that starts no spelling. -/
theorem spelled_readOperator
    {c : Char}
    (hc : Scan.startsWord c = false)
    (t : Text) :
    Spelled (c :: t) ⟨(readOperator c t).kind, c :: (readOperator c t).cut.taken⟩ := by
  cases hoperator : operator? c with
  | none =>
      have hread : readOperator c t = ⟨.badCharacter, .none t⟩ := by
        rw [readOperator, hoperator]
      rw [hread]
      exact spelled_of_unspelled (unspelled_of_operator? hoperator hc) rfl t []
  | some chain =>
      have hread : readOperator c t = chain.read t := by
        rw [readOperator, hoperator]
      obtain ⟨-, hdistinct, hspelled⟩ := operators_of_operator? hoperator
      have hmem := chain.mem_endings_read t
      have hspelling : (chain.read t).kind.spelling? = some (c :: (chain.read t).cut.taken) :=
        hspelled _ hmem
      rw [hread]
      refine ⟨?_, ?_, ?_⟩
      · intro s hs
        exact Option.some.inj (hspelling.symm.trans hs)
      · intro k s hs hlonger hprefix
        obtain ⟨d, ending, rfl, -⟩ := exists_of_spelling? hs
        obtain ⟨rfl, hending⟩ := List.cons_prefix_cons.mp hprefix
        have hle := Chain.length_le_read hdistinct (mem_endings_of_spelling? hoperator hs) hending
        exact Nat.not_le_of_lt hlonger (Nat.succ_le_succ hle)
      · intro k hk
        exact Chain.kind_eq hdistinct hmem (mem_endings_of_spelling? hoperator hk)

theorem spelled_readAtSign (t : Text) :
    Spelled ('@' :: t) ⟨(readAtSign t).kind, '@' :: (readAtSign t).cut.taken⟩ := by
  have hat : Unspelled '@' := unspelled_of_plain (by decide)
  cases t with
  | nil => exact spelled_of_unspelled hat rfl [] []
  | cons c t =>
      rw [readAtSign]
      split
      · exact spelled_of_unspelled hat rfl _ _
      split
      · exact spelled_of_unspelled hat rfl _ _
      · exact spelled_of_unspelled hat rfl _ _

/-- Two slashes start a comment, whose spelling is free. -/
theorem spelled_comment (t : Text) :
    Spelled ('/' :: '/' :: t) ⟨commentKind t, '/' :: '/' :: (Scan.line t).taken⟩ where
  text_eq := by
    intro s hs
    have hkind : (commentKind t).spelling? = none := by
      fun_cases commentKind t <;> rfl
    exact absurd (hkind.symm.trans hs) (Option.some_ne_none s).symm
  longest := by
    intro k s hs hlonger hprefix
    obtain ⟨d, ending, rfl, -⟩ := exists_of_spelling? hs
    obtain ⟨rfl, -⟩ := List.cons_prefix_cons.mp hprefix
    have hmem : (ending, k) ∈ (Chain.either [('=', Kind.slashEq)] .slash).endings :=
      mem_endings_of_spelling? rfl hs
    have hshort : ∀ x ∈ (Chain.either [('=', Kind.slashEq)] .slash).endings, x.1.length ≤ 1 := by
      decide
    have hle : ending.length ≤ 1 := hshort _ hmem
    simp only [List.length_cons] at hlonger
    omega
  kind_eq := by
    intro k hk
    have hmem : ('/' :: (Scan.line t).taken, k) ∈
        (Chain.either [('=', Kind.slashEq)] .slash).endings :=
      mem_endings_of_spelling? rfl hk
    exact absurd (Chain.mem_tried_of_mem_endings hmem) (by decide)

theorem spelled_readOther
    (c : Char)
    (t : Text) :
    Spelled (c :: t) ⟨(read.readOther c t).kind, c :: (read.readOther c t).cut.taken⟩ := by
  rw [read.readOther]
  split
  · rename_i hblank
    exact spelled_of_unspelled (unspelled_of_plain (by simp [isPlain, hblank])) rfl t _
  split
  · rename_i hquote
    exact spelled_of_unspelled (unspelled_of_plain (by simp [isPlain, hquote])) rfl t _
  split
  · rename_i hquote
    exact spelled_of_unspelled (unspelled_of_plain (by simp [isPlain, hquote])) rfl t _
  split
  · rename_i hat
    subst hat
    exact spelled_readAtSign t
  split
  · rename_i hdecimal
    refine spelled_of_unspelled (unspelled_of_plain (by simp [isPlain, hdecimal])) ?_ t _
    dsimp only
    split <;> rfl
  split
  · rename_i hword
    exact spelled_word hword t
  · rename_i hword
    exact spelled_readOperator (Bool.not_eq_true _ ▸ hword) t

/-- Every lexeme is spelled as its kind says, and no longer spelling fits. -/
theorem spelled_read
    (c : Char)
    (t : Text) :
    Spelled (c :: t) ⟨(read c t).kind, c :: (read c t).cut.taken⟩ := by
  unfold read
  split
  · rename_i t
    split
    · rename_i hslash
      subst hslash
      exact spelled_comment t
    · exact spelled_readOther c _
  · split
    · rename_i hbackslash
      subst hbackslash
      exact spelled_of_unspelled (unspelled_of_plain (by decide)) rfl _ _
    · exact spelled_readOther c _
  · exact spelled_readOther c _

/-- The end of file stands where no spelling does. -/
theorem spelled_eof : Spelled [] ⟨.eof, []⟩ where
  text_eq := fun s hs => absurd hs (Option.some_ne_none s).symm
  longest := by
    intro k s _ hlonger hprefix
    rw [List.prefix_nil.mp hprefix] at hlonger
    exact Nat.lt_irrefl _ hlonger
  kind_eq := by
    intro k hk
    obtain ⟨d, ending, heq, -⟩ := exists_of_spelling? hk
    exact absurd heq.symm (List.cons_ne_nil _ _)

/-- Every token of a text is spelled as its kind says, at its place. -/
theorem exists_spelled_of_mem
    {text : Text}
    {l : Located Kind}
    (h : l ∈ locate 0 (lex text)) :
    ∃ before onward,
      text.splitAt? l.range.start = some (before, onward) ∧ Spelled onward l.toLexeme := by
  obtain ⟨front, after, hsplit, hstart⟩ := exists_split_of_mem_locate h
  rw [Nat.zero_add] at hstart
  have htext : text = textOf front ++ textOf (l.toLexeme :: after) := eq_append_of_split hsplit
  have hcut : text.splitAt? l.range.start = some (textOf front, textOf (l.toLexeme :: after)) := by
    have hplace : l.range.start = (textOf front).size := hstart
    rw [hplace, htext, Text.splitAt?_size_append]
  refine ⟨_, _, hcut, ?_⟩
  rcases exists_read_of_split hsplit with ⟨heof, rfl⟩ | ⟨c, t, honward, hl⟩
  · rw [heof]
    exact spelled_eof
  · rw [honward, hl]
    exact spelled_read c t

/-- **Operators and keywords are lexed by longest match and spelled as declared.**  A
token whose kind has a spelling is written so, and no longer spelling stands at its
place; what is written like an operator or a keyword is one.  The table of keywords
gives exactly the keywords. -/
theorem exists_restart?_spelled (text : Text) :
    (∃ ls, restart? lex 0 text = some ls ∧
      ∀ l ∈ ls, ∃ before onward,
        text.splitAt? l.range.start = some (before, onward) ∧
        text.slice? l.range.start l.range.stop = some l.text ∧
        Spelled onward l.toLexeme) ∧
      ∀ word k, Kind.ofKeyword? word = some k ↔
        k.isKeyword = true ∧ k.spelling? = some word := by
  refine ⟨⟨_, restart?_zero lex text, fun l hl => ?_⟩, Kind.ofKeyword?_eq_some_iff⟩
  obtain ⟨before, onward, hcut, hspelled⟩ := exists_spelled_of_mem hl
  have hslice := (slice?_of_mem_locate hl).2.2
  rw [lex, textOf_lexWith] at hslice
  exact ⟨before, onward, hcut, hslice, hspelled⟩

end Zig
end ZigCst
