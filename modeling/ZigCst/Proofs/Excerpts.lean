import ZigCst.Proofs.Names
import ZigCst.Proofs.Search

/-!
# Leaves and what is read off them

A name, a string or a literal is one node above its tokens, whatever stands around it.
What it denotes is read off excerpts of these tokens: an excerpt is a part of its token,
so it lies between two characters of the text, even where a literal is cut off by the
end of its line.

**Definitions.**
* `Excerpt.OccursIn`: an excerpt stands in a text where it says.
* `Excerpt.LiesIn`: inside a token of a text, between two characters.
* `Node.IsToken`: a node is one token.
* `NameRead`, `StringRead`, `LiteralRead`, `CharacterRead`: how leaves are read.

**Results.**
* `Literal.occursIn_content`, `Literal.occursIn_of_mem_contents`: contents are excerpts.
* `Root.Keeps.liesIn`: an excerpt of a token lies in it.
* `leaves_read`: all leaves of all files.
-/

namespace ZigCst

/-! ## Excerpts -/

/-- Whether an excerpt stands in a text where it says. -/
def Excerpt.OccursIn (e : Excerpt) (t : Text) : Prop :=
  ∃ front back, t = front ++ (e.text ++ back) ∧ front.size = e.offset

theorem Excerpt.occursIn_self (t : Text) : Excerpt.OccursIn ⟨0, t⟩ t :=
  ⟨[], [], by simp, rfl⟩

/-- In a longer text, an excerpt stands further back. -/
theorem Excerpt.OccursIn.shift
    {e : Excerpt}
    {t : Text}
    (h : e.OccursIn t)
    (front behind : Text) :
    Excerpt.OccursIn ⟨front.size + e.offset, e.text⟩ (front ++ (t ++ behind)) := by
  obtain ⟨before, back, rfl, hbefore⟩ := h
  refine ⟨front ++ before, back ++ behind, by simp, ?_⟩
  rw [Text.size_append, hbefore]

theorem Excerpt.OccursIn.offset_add_le
    {e : Excerpt}
    {t : Text}
    (h : e.OccursIn t) :
    e.offset + e.text.size ≤ t.size := by
  obtain ⟨front, back, rfl, hfront⟩ := h
  simp only [Text.size_append]
  omega

theorem Excerpt.OccursIn.slice?_eq
    {e : Excerpt}
    {t : Text}
    (h : e.OccursIn t) :
    t.slice? (e.range 0).start (e.range 0).stop = some e.text := by
  obtain ⟨front, back, rfl, hfront⟩ := h
  simp only [Excerpt.range, Range.ofText, ← hfront, Nat.zero_add]
  exact Text.slice?_append front e.text back

namespace Literal

/-- The content of a quoted literal is a part of it, whether it is terminated or not. -/
theorem occursIn_content
    (quote : Char)
    (t : Text) :
    (content quote t).OccursIn t := by
  cases t with
  | nil => exact Excerpt.occursIn_self []
  | cons first body =>
      rw [content]
      split
      · rename_i hfirst
        subst hfirst
        split
        · obtain ⟨back, hback⟩ := List.dropLast_prefix body
          exact ⟨[first], back, by simp [hback], rfl⟩
        · exact ⟨[first], [], by simp, rfl⟩
      · exact Excerpt.occursIn_self _

/-- A name is read off a part of its token. -/
theorem exists_occursIn_nameOf (t : Text) :
    ∃ e : Excerpt, e.OccursIn t ∧ (nameOf t = e.text ∨ nameOf t = unescape e.text) := by
  unfold nameOf
  split
  · rename_i t
    have hshift := (occursIn_content '"' ('"' :: t)).shift ['@'] []
    rw [List.append_nil] at hshift
    exact ⟨_, hshift, .inr rfl⟩
  · rename_i t _
    exact ⟨⟨Text.size ['@'], t⟩, ⟨['@'], [], by simp, rfl⟩, .inl rfl⟩
  · exact ⟨⟨0, _⟩, Excerpt.occursIn_self _, .inl rfl⟩

theorem occursIn_of_afterMark?
    {t : Text}
    {e : Excerpt}
    (h : afterMark? t = some e) :
    e.OccursIn t := by
  fun_induction afterMark? t generalizing e with
  | case1 t =>
      obtain rfl := Option.some.inj h
      exact ⟨['\\', '\\'], [], by simp, rfl⟩
  | case2 => cases h
  | case3 c t hmark ih =>
      obtain ⟨e', he', rfl⟩ := Option.map_eq_some_iff.mp h
      obtain ⟨front, back, rfl, hfront⟩ := ih he'
      exact ⟨c :: front, back, rfl, by rw [Text.size_cons, hfront]⟩

theorem occursIn_of_lineContent?
    {l : Text}
    {e : Excerpt}
    (h : lineContent? l = some e) :
    e.OccursIn l := by
  obtain ⟨e', he', rfl⟩ := Option.map_eq_some_iff.mp h
  obtain ⟨front, back, rfl, hfront⟩ := occursIn_of_afterMark? he'
  have hprefix : Text.dropEndWhile (· == '\r') e'.text <+: e'.text := by
    rw [Text.dropEndWhile, ← List.reverse_suffix, List.reverse_reverse]
    exact List.dropWhile_suffix _
  obtain ⟨rest, hrest⟩ := hprefix
  refine ⟨front, rest ++ back, ?_, hfront⟩
  rw [← List.append_assoc (Text.dropEndWhile _ _), hrest]

/-- The content of every line is a part of the lines. -/
theorem occursIn_of_mem_lineContents
    {front : Text}
    {ls : List Text}
    {e : Excerpt}
    (h : e ∈ lineContents front.size ls) :
    e.OccursIn (front ++ Text.unlines ls) := by
  induction ls generalizing front with
  | nil => simp [lineContents] at h
  | cons l ls ih =>
      obtain ⟨behind, hbehind⟩ : ∃ behind, Text.unlines (l :: ls) = l ++ behind := by
        cases ls with
        | nil => exact ⟨[], by simp [Text.unlines]⟩
        | cons m ls => exact ⟨_, rfl⟩
      have hmore : e ∈ lineContents (front.size + l.size + 1) ls →
          e.OccursIn (front ++ Text.unlines (l :: ls)) := by
        intro hmem
        cases ls with
        | nil => simp [lineContents] at hmem
        | cons m ls =>
            have hsize : Text.size (front ++ (l ++ ['\n'])) = front.size + l.size + 1 := by
              rw [Text.size_append, Text.size_append, Nat.add_assoc]
              rfl
            rw [← hsize] at hmem
            simpa [Text.unlines] using ih hmem
      rw [lineContents] at h
      split at h
      · rename_i e' he'
        rcases List.mem_cons.mp h with rfl | h
        · rw [hbehind]
          exact (occursIn_of_lineContent? he').shift front behind
        · exact hmore h
      · exact hmore h

theorem lines_ne_nil (t : Text) : t.lines ≠ [] := by
  fun_cases Text.lines t <;> simp

/-- Joined again, the lines of a text are the text. -/
theorem unlines_lines (t : Text) : Text.unlines t.lines = t := by
  induction t with
  | nil => rfl
  | cons c t ih =>
      obtain ⟨l, ls, hlines⟩ := List.exists_cons_of_ne_nil (lines_ne_nil t)
      rw [hlines] at ih
      rw [Text.lines, hlines]
      split
      · rename_i hc
        rw [Text.unlines, ih, hc]
        · rfl
        · simp
      · cases ls with
        | nil => exact congrArg (c :: ·) ih
        | cons m ls => exact congrArg (c :: ·) ih

/-- The content of every marked line is a part of the literal. -/
theorem occursIn_of_mem_contents
    {t : Text}
    {e : Excerpt}
    (h : e ∈ contents t) :
    e.OccursIn t := by
  have hlines : e.OccursIn ([] ++ Text.unlines t.lines) := occursIn_of_mem_lineContents h
  rwa [List.nil_append, unlines_lines] at hlines

end Literal

/-! ## Excerpts of tokens -/

section Tokens

variable {K : Type}

/-- Whether an excerpt of a text lies inside a token, between two characters. -/
structure Excerpt.LiesIn (e : Excerpt) (text : Text) (l : Leaf K) : Prop where
  covers : l.range.covers (e.range 0) = true
  slice?_eq : text.slice? (e.range 0).start (e.range 0).stop = some e.text

variable [Vocabulary K]

/-- An excerpt of a token lies in it, wherever the token stands. -/
theorem Root.Keeps.liesIn
    {r : Root K}
    {kind : K}
    {text : Text}
    {stream : List (Lexeme K)}
    (h : r.Keeps kind text stream)
    {l : Leaf K}
    (hl : l ∈ r.node.tokens)
    {e : Excerpt}
    (he : e.OccursIn l.text) :
    Excerpt.LiesIn ⟨l.range.start + e.offset, e.text⟩ text l := by
  have hmem : l.located ∈ locate 0 stream := h.tokens ▸ List.mem_map_of_mem hl
  obtain ⟨before, after, hstream, hstart⟩ := exists_split_of_mem_locate hmem
  have hbegin : l.range.start = (textOf before).size := by
    rw [← Nat.zero_add (textOf before).size]
    exact hstart
  have htext : text = textOf before ++ (l.text ++ textOf after) := by
    have hkept : textOf stream = text := by
      rw [← h.text, Root.text, h.lexemes_eq]
    rw [← hkept, hstream]
    simp [textOf, Leaf.located]
  constructor
  · have hle := he.offset_add_le
    have hstop : l.range.stop = l.range.start + l.text.size := rfl
    rw [Range.covers_iff]
    simp only [Excerpt.range, Range.ofText]
    omega
  · rw [hbegin, htext]
    exact (he.shift (textOf before) (textOf after)).slice?_eq

/-- A token that is not the end of file takes something. -/
theorem Root.Keeps.text_ne_nil
    {read : (c : Char) → (t : Text) → Reading K t}
    {kinds : List K}
    (hread : ∀ c t, (read c t).Keeps kinds c)
    {r : Root K}
    {kind : K}
    {text : Text}
    (h : r.Keeps kind text (lexWith read text))
    {n : Node K}
    (hn : n ∈ r.node.descendants)
    {l : Leaf K}
    (hl : l ∈ n.childTokens)
    (hkind : l.kind ≠ Vocabulary.eof) :
    l.text ≠ [] := by
  have hl := Node.mem_tokens_of_mem_elements hn (Node.token_mem_elements hl)
  obtain ⟨front, hfront, hkeeps⟩ := exists_lexWith_keeps hread text
  have hmem : l.toLexeme ∈ lexWith read text := h.map_toLexeme_tokens ▸ List.mem_map_of_mem hl
  rw [hfront, List.mem_append, List.mem_singleton] at hmem
  rcases hmem with hmem | heof
  · exact (hkeeps _ hmem).1.2
  · exact absurd (congrArg Lexeme.kind heof) hkind

end Tokens

/-! ## Leaves -/

section Leaves

variable {K : Type} [Vocabulary K]

/-- Whether one token of a kind, which takes something, is all that a node consists of. -/
structure Node.IsToken [DecidableEq K] (n : Node K) (kind : K) (l : Leaf K) : Prop where
  significant_eq : n.significant = [.token l]
  childNodes_eq : n.childNodes = []
  kind_eq : l.kind = kind
  token?_eq : n.token? kind = some l
  text_ne_nil : l.text ≠ []

/-- How a name is read: it is one token, and what it denotes is read off a part of it. -/
structure NameRead
    [DecidableEq K]
    (text : Text)
    (n : Node K)
    (kind : K)
    (token? : Option (Leaf K))
    (spelling value : Text)
    (l : Leaf K) : Prop where
  isToken : n.IsToken kind l
  token?_eq : token? = some l
  spelling_eq : spelling = l.text
  value_eq : ∃ e : Excerpt, e.LiesIn text l ∧ (value = e.text ∨ value = Literal.unescape e.text)

/-- How a string is read: it is one token of a line, or one or more tokens of marked
lines, and all that makes up its value lies in these tokens. -/
structure StringRead
    (text : Text)
    (n : Node K)
    (single multi : K)
    (excerpts : List Excerpt) : Prop where
  childNodes_eq : n.childNodes = []
  significant : (∃ l, n.significant = [.token l] ∧ l.kind = single) ∨
    (n.significant ≠ [] ∧ ∀ e ∈ n.significant, e.sign = .token multi)
  liesIn : ∀ e ∈ excerpts, ∃ l ∈ n.childTokens, l.kind ∈ [single, multi] ∧ e.LiesIn text l

/-- How a character is read: off a part of its token. -/
def CharacterRead (text : Text) (l : Leaf K) (value : Option Char) : Prop :=
  ∃ e : Excerpt, e.LiesIn text l ∧ value = Literal.onlyChar? (Literal.unescape e.text)

variable {n : Node K} {l : Leaf K} {kind : K}

theorem Node.mem_childTokens_of_mem_significant (h : .token l ∈ n.significant) :
    l ∈ n.childTokens :=
  List.mem_filterMap.mpr ⟨.token l, (List.mem_filter.mp h).1, rfl⟩

/-- A node whose only child is a token consists of that token. -/
theorem Root.Keeps.isToken
    [DecidableEq K]
    {read : (c : Char) → (t : Text) → Reading K t}
    {kinds : List K}
    (hread : ∀ c t, (read c t).Keeps kinds c)
    {r : Root K}
    {text : Text}
    (h : r.Keeps kind text (lexWith read text))
    (hn : n ∈ r.node.descendants)
    (hsignificant : n.significant = [.token l])
    (htrivia : Vocabulary.isTrivia l.kind = false)
    (heof : l.kind ≠ Vocabulary.eof) :
    n.IsToken l.kind l where
  significant_eq := hsignificant
  childNodes_eq := by
    rw [n.childNodes_eq, hsignificant]
    rfl
  kind_eq := rfl
  token?_eq := by
    rw [n.token?_eq htrivia, hsignificant]
    simp [Element.token?]
  text_ne_nil :=
    h.text_ne_nil hread hn (Node.mem_childTokens_of_mem_significant (by simp [hsignificant])) heof

/-- Where all children are tokens, there is no child node. -/
theorem Node.childNodes_eq_nil
    (h : ∀ e ∈ n.significant, ∃ kind, e.sign = .token kind) :
    n.childNodes = [] := by
  rw [n.childNodes_eq]
  refine List.filterMap_eq_nil_iff.mpr fun e he => ?_
  obtain ⟨kind, hkind⟩ := h e he
  cases e with
  | node m => cases hkind
  | token l => rfl

/-- A node that a string consists of has no child node. -/
theorem Node.childNodes_eq_nil_of_string
    {single multi : K}
    (h : (∃ l, n.significant = [.token l] ∧ l.kind = single) ∨
      (n.significant ≠ [] ∧ ∀ e ∈ n.significant, e.sign = .token multi)) :
    n.childNodes = [] := by
  refine Node.childNodes_eq_nil fun e he => ?_
  rcases h with ⟨l, hn, -⟩ | ⟨-, hn⟩
  · rw [hn, List.mem_singleton] at he
    exact ⟨l.kind, he ▸ rfl⟩
  · exact ⟨multi, hn e he⟩

section Kept

variable {r : Root K} {text : Text} {stream : List (Lexeme K)}
  (h : r.Keeps kind text stream) (hn : n ∈ r.node.descendants) (hl : l ∈ n.childTokens)
include h hn hl

theorem Root.Keeps.liesIn_child
    {e : Excerpt}
    (he : e.OccursIn l.text) :
    Excerpt.LiesIn ⟨l.range.start + e.offset, e.text⟩ text l :=
  h.liesIn (Node.mem_tokens_of_mem_elements hn (Node.token_mem_elements hl)) he

theorem liesIn_quotedContent : l.quotedContent.LiesIn text l :=
  h.liesIn_child hn hl (Literal.occursIn_content '"' l.text)

theorem liesIn_of_mem_lineContents
    {e : Excerpt}
    (he : e ∈ l.lineContents) :
    e.LiesIn text l := by
  obtain ⟨e', he', rfl⟩ := List.mem_map.mp he
  exact h.liesIn_child hn hl (Literal.occursIn_of_mem_contents he')

theorem characterRead_charOf? : CharacterRead text l (Literal.charOf? l.text) :=
  ⟨_, h.liesIn_child hn hl (Literal.occursIn_content '\'' l.text), rfl⟩

omit hl in
theorem nameRead_of_isToken
    [DecidableEq K]
    {name : K}
    (htoken : n.IsToken name l) :
    NameRead text n name (n.token? name) l.text (Literal.nameOf l.text) l := by
  obtain ⟨e, he, hvalue⟩ := Literal.exists_occursIn_nameOf l.text
  have hl : l ∈ n.childTokens := List.mem_of_find?_eq_some htoken.token?_eq
  exact ⟨htoken, htoken.token?_eq, rfl, _, h.liesIn_child hn hl he, hvalue⟩

end Kept
end Leaves

/-! ## Leaves of Zig files -/

namespace Zig

open Pattern

/-- How the leaves of a file are read. -/
structure LeavesRead (text : Text) (n : Node Kind) : Prop where
  name : n.kind = .ident → ∃ l, NameRead text n .identifier (Identifier.token? n)
    (Identifier.text n) (Identifier.value n) l
  string : n.kind = .stringLiteral →
    StringRead text n .stringLiteralSingle .stringLiteralMulti (StringLiteral.excerpts n)
  literal : n.kind = .literal → (LiteralNode.token? n).isSome = true
  character : ∀ l, LiteralNode.token? n = some (.char, l) →
    CharacterRead text l (LiteralNode.char? n)

/-- A string is one token, or tokens of marked lines. -/
theorem significant_of_stringLiteral
    {n : Node Kind}
    (h : (all (Form.of .stringLiteral)).Fits n.significant) :
    (∃ l, n.significant = [.token l] ∧ l.kind = .stringLiteralSingle) ∨
      (n.significant ≠ [] ∧ ∀ e ∈ n.significant, e.sign = .token .stringLiteralMulti) := by
  obtain ⟨es, rest, hes, hany, hrest⟩ := fits_all_cons_iff.mp h
  obtain rfl := fits_all_nil_iff.mp hrest
  rw [List.append_nil] at hes
  rw [hes]
  obtain ⟨P, hP, h⟩ := fits_any_iff.mp hany
  rcases List.mem_pair.mp hP with rfl | rfl
  · obtain ⟨l, rfl, hl⟩ := h.exists_token
    exact .inl ⟨l, rfl, List.mem_singleton.mp hl⟩
  · right
    have hsigns := h.sign_mem
    obtain ⟨xs, ys, rfl, hxs, -⟩ := fits_all_cons_iff.mp h
    obtain ⟨l, rfl, -⟩ := hxs.exists_token
    refine ⟨by simp, fun e he => ?_⟩
    have hsign := hsigns e he
    revert hsign
    generalize e.sign = sign
    revert sign
    decide

/-- The tokens that the excerpts of a string are taken from. -/
theorem StringLiteral.exists_of_mem_excerpts
    {n : Node Kind}
    {e : Excerpt}
    (he : e ∈ excerpts n) :
    ∃ l ∈ n.childTokens, (l.kind = .stringLiteralSingle ∧ e = l.quotedContent) ∨
      (l.kind = .stringLiteralMulti ∧ e ∈ l.lineContents) := by
  rw [excerpts] at he
  split at he
  · cases he
  rename_i l htoken
  have hl : l ∈ n.childTokens := List.mem_of_find?_eq_some htoken
  have hkind := List.find?_some htoken
  cases hmulti : isMultiline n with
  | true =>
      rw [if_pos hmulti] at he
      obtain ⟨l', hl', he⟩ := List.mem_flatMap.mp he
      obtain ⟨hmem, hkind'⟩ := List.mem_filter.mp hl'
      exact ⟨l', hmem, .inr ⟨eq_of_beq hkind', he⟩⟩
  | false =>
      rw [if_neg (by simp [hmulti]), List.mem_singleton] at he
      rw [isMultiline, htoken, Option.any_some] at hmulti
      rw [hmulti, Bool.or_false] at hkind
      exact ⟨l, hl, .inl ⟨eq_of_beq hkind, he⟩⟩

/-- A literal has the token that decides its form. -/
theorem isSome_token?_of_literal
    {n : Node Kind}
    (h : (all (Form.of .literal)).Fits n.significant) :
    (LiteralNode.token? n).isSome = true := by
  obtain ⟨es, rest, hes, htokens, hrest⟩ := fits_all_cons_iff.mp h
  obtain ⟨l, rfl, hl⟩ := htokens.exists_token
  have hmem : l ∈ n.childTokens := Node.mem_childTokens_of_mem_significant (by simp [hes])
  have hform : (LiteralForm.ofKind? l.kind).isSome = true := by
    revert hl
    generalize l.kind = kind
    revert kind
    decide
  rw [LiteralNode.token?, List.findSome?_isSome_iff]
  exact ⟨l, hmem, by simpa using hform⟩

/-- The token of a literal is one of the tokens of its node. -/
theorem LiteralNode.mem_childTokens
    {n : Node Kind}
    {form : LiteralForm}
    {l : Leaf Kind}
    (h : LiteralNode.token? n = some (form, l)) :
    l ∈ n.childTokens := by
  obtain ⟨l', hl', hform⟩ := List.exists_of_findSome?_eq_some h
  obtain ⟨form', -, heq⟩ := Option.map_eq_some_iff.mp hform
  exact (Prod.mk.inj heq).2 ▸ hl'

/-- In every text, all leaves are read off their tokens. -/
theorem exists_leavesRead (text : Text) :
    ∃ p, parse? text = some p ∧ ∀ n ∈ p.root.node.descendants, LeavesRead text n := by
  obtain ⟨p, m, hp, hkeeps, heverywhere, hplain, -⟩ := exists_marked_sourceFile text
  refine ⟨p, hp, fun n hn => ⟨fun hkind => ?_, fun hkind => ?_, fun hkind => ?_, fun l hl => ?_⟩⟩
  · obtain ⟨l, hsignificant, hl⟩ := exists_token_of_ident
      (fits_of_mem heverywhere hplain hn hkind (by decide) (by decide))
    have htoken : n.IsToken .identifier l :=
      hl ▸ hkeeps.isToken keeps_read hn hsignificant (by rw [hl]; rfl) (by simp [hl])
    have htext : Identifier.text n = l.text := by
      rw [Identifier.text, Identifier.token?, htoken.token?_eq]
      rfl
    refine ⟨l, ?_⟩
    rw [Identifier.value, htext]
    exact nameRead_of_isToken hkeeps hn htoken
  · have hsignificant := significant_of_stringLiteral
      (fits_of_mem heverywhere hplain hn hkind (by decide) (by decide))
    refine ⟨Node.childNodes_eq_nil_of_string hsignificant, hsignificant, fun e he => ?_⟩
    obtain ⟨l, hl, ⟨hsingle, rfl⟩ | ⟨hmulti, he⟩⟩ := StringLiteral.exists_of_mem_excerpts he
    · exact ⟨l, hl, by simp [hsingle], liesIn_quotedContent hkeeps hn hl⟩
    · exact ⟨l, hl, by simp [hmulti], liesIn_of_mem_lineContents hkeeps hn hl he⟩
  · exact isSome_token?_of_literal
      (fits_of_mem heverywhere hplain hn hkind (by decide) (by decide))
  · rw [LiteralNode.char?, hl]
    exact characterRead_charOf? hkeeps hn (LiteralNode.mem_childTokens hl)

end Zig

/-! ## Leaves of Zon files -/

namespace Zon

/-- How the leaves of a file are read. -/
structure LeavesRead (text : Text) (n : Node Kind) : Prop where
  name : n.kind = .ident → ∃ l, NameRead text n .identifier (Identifier.token? n)
    (Identifier.text n) (Identifier.value n) l
  string : n.kind = .stringLiteral →
    StringRead text n .stringLiteralSingle .lineString (StringLiteral.excerpts n)
  character : ∀ l, n.token? .charLiteral = some l → CharacterRead text l (Character.value? n)

/-- Whether a node is one identifier if it is a name, and one token or tokens of marked
lines if it is a string. -/
structure LeavesWhole (kind : Kind) (children : List (Shape Kind Kind)) : Prop where
  name : kind = .ident → children = [.leaf .identifier]
  string : kind = .stringLiteral → children = [.leaf .stringLiteralSingle] ∨
    ∃ m, children = List.replicate (m + 1) (.leaf .lineString)

theorem holdsOfLeaves_leavesWhole : HoldsOfLeaves LeavesWhole where
  name := ⟨fun _ => rfl, nofun⟩
  string := ⟨nofun, fun _ => .inl rfl⟩
  lines := fun m => ⟨nofun, fun _ => .inr ⟨m, rfl⟩⟩
  other := fun hkind _ => ⟨fun h => absurd hkind (by simp [h]), fun h => absurd hkind (by simp [h])⟩

/-- A string is one token, or tokens of marked lines. -/
theorem significant_of_stringLiteral
    {n : Node Kind}
    (h : Tree.outlines n.children = [.leaf .stringLiteralSingle] ∨
      ∃ m, Tree.outlines n.children = List.replicate (m + 1) (.leaf .lineString)) :
    (∃ l, n.significant = [.token l] ∧ l.kind = .stringLiteralSingle) ∨
      (n.significant ≠ [] ∧ ∀ e ∈ n.significant, e.sign = .token .lineString) := by
  rcases h with h | ⟨m, h⟩
  · exact .inl (Node.exists_significant_singleton h)
  · right
    have hsignificant := n.map_outline_significant
    rw [h] at hsignificant
    refine ⟨fun hnil => by simp [hnil] at hsignificant, fun e he => ?_⟩
    have houtline : e.outline ∈ List.replicate (m + 1) (Shape.leaf Kind.lineString) :=
      hsignificant ▸ List.mem_map_of_mem he
    obtain ⟨l, rfl, hl⟩ := Element.exists_token_of_outline (List.mem_replicate.mp houtline).2
    exact congrArg Sign.token hl

/-- The tokens that the excerpts of a string are taken from. -/
theorem StringLiteral.exists_of_mem_excerpts
    {n : Node Kind}
    {e : Excerpt}
    (he : e ∈ excerpts n) :
    ∃ l ∈ n.childTokens, (l.kind = .stringLiteralSingle ∧ e = l.quotedContent) ∨
      (l.kind = .lineString ∧ e ∈ l.lineContents) := by
  rw [excerpts] at he
  split at he
  · obtain ⟨l, hl, he⟩ := List.mem_flatMap.mp he
    obtain ⟨hmem, hkind⟩ := List.mem_filter.mp hl
    exact ⟨l, hmem, .inr ⟨eq_of_beq hkind, he⟩⟩
  · obtain ⟨l, htoken, rfl⟩ := Option.map_eq_some_iff.mp (Option.mem_toList.mp he)
    have hkind := List.find?_some (p := fun l : Leaf Kind => l.kind == .stringLiteralSingle) htoken
    exact ⟨l, List.mem_of_find?_eq_some htoken, .inl ⟨eq_of_beq hkind, rfl⟩⟩

/-- In every text, all leaves are read off their tokens. -/
theorem exists_leavesRead (text : Text) :
    ∃ p, parse? text = some p ∧ ∀ n ∈ p.root.node.descendants, LeavesRead text n := by
  obtain ⟨p, hp, -, hkeeps, heverywhere⟩ :=
    exists_ofGrammar?_everywhere holdsOfLeaves_leavesWhole text
  refine ⟨_, parse?_of_ofGrammar? hp, fun n hn => ?_⟩
  have hwhole : LeavesWhole n.kind (Tree.outlines n.children) := by
    refine heverywhere.of_mem_nodes _ ?_
    rw [← p.root.map_outline_descendants]
    exact List.mem_map_of_mem hn
  refine ⟨fun hkind => ?_, fun hkind => ?_, fun l hl => ?_⟩
  · obtain ⟨l, hsignificant, hl⟩ := Node.exists_significant_singleton (hwhole.name hkind)
    have htoken : n.IsToken .identifier l :=
      hl ▸ hkeeps.isToken keeps_read hn hsignificant (by rw [hl]; rfl) (by simp [hl])
    have htext : Identifier.text n = l.text := by
      rw [Identifier.text, Identifier.token?, htoken.token?_eq]
      rfl
    refine ⟨l, ?_⟩
    rw [Identifier.value, htext]
    exact nameRead_of_isToken hkeeps hn htoken
  · have hsignificant := significant_of_stringLiteral (hwhole.string hkind)
    refine ⟨Node.childNodes_eq_nil_of_string hsignificant, hsignificant, fun e he => ?_⟩
    obtain ⟨l, hl, ⟨hsingle, rfl⟩ | ⟨hmulti, he⟩⟩ := StringLiteral.exists_of_mem_excerpts he
    · exact ⟨l, hl, by simp [hsingle], liesIn_quotedContent hkeeps hn hl⟩
    · exact ⟨l, hl, by simp [hmulti], liesIn_of_mem_lineContents hkeeps hn hl he⟩
  · rw [Character.value?, hl]
    exact characterRead_charOf? hkeeps hn (List.mem_of_find?_eq_some hl)

end Zon

/-- **Leaves are read off their tokens.**  In every text of both languages, a name is one
identifier that is not empty; a string is one token of a line, or one or more tokens of
marked lines; neither has a child node; and a literal of Zig has a form.  All that
strings, names and characters denote is read off parts of these tokens that lie between
two characters of the text. -/
theorem leaves_read (text : Text) :
    (∃ p, Zig.parse? text = some p ∧
      ∀ n ∈ p.root.node.descendants, Zig.LeavesRead text n) ∧
    (∃ p, Zon.parse? text = some p ∧
      ∀ n ∈ p.root.node.descendants, Zon.LeavesRead text n) :=
  ⟨Zig.exists_leavesRead text, Zon.exists_leavesRead text⟩

end ZigCst
