import ZigCst.Proofs.Excerpts
import ZigCst.Proofs.Layered
import ZigCst.Proofs.Quoting

/-!
# Characters of character literals

The value of a character literal is the only character of its decoded content.  Decoding
goes over bytes, but a part of the content that is no byte from `0x80` on stands for whole
characters, so what is in front of it and behind it is decoded for itself.  One character
is then one part that denotes it, or bytes that are put together one by one.

**Definitions.**
* `Utf8.Fresh`: bytes that do not go on with a sequence begun before them.
* `Zig.Denotes`: a part denotes one character.
* `Zig.IsHighByte`: an escape of a byte that is no character by itself.
* `Zig.MakesUp`: the parts of a content make up one character.

**Results.**
* `Utf8.decodeLossy_append`: fresh bytes are decoded for themselves.
* `Zig.charOf?_eq_some_iff`: a content has a value exactly if its parts make it up.
* `characters_decoded`: all character literals of all files.
-/

namespace ZigCst

/-! ## Bytes decoded apart -/

namespace Utf8

/-- Whether bytes do not go on with a sequence that was begun before them. -/
def Fresh (bs : List UInt8) : Prop := ∀ b ∈ bs.head?, b < 0x80 ∨ 0xBF < b

theorem Fresh.not_continues
    {b : UInt8}
    {bs : List UInt8}
    (h : Fresh (b :: bs))
    {low high : UInt8}
    (hlow : 0x80 ≤ low)
    (hhigh : high ≤ 0xBF) :
    (low ≤ b && b ≤ high) = false := by
  have hb : b < 0x80 ∨ 0xBF < b := h b rfl
  simp only [UInt8.lt_iff_toNat_lt, UInt8.le_iff_toNat_le] at hb hlow hhigh
  rw [Bool.eq_false_iff]
  simp only [ne_eq, Bool.and_eq_true, decide_eq_true_eq, UInt8.le_iff_toNat_le]
  omega

/-- Fresh bytes end a sequence as the end does. -/
theorem continuation_append
    {bs : List UInt8}
    (h : Fresh bs)
    (n value : Nat)
    (as : List UInt8) :
    continuation n value (as ++ bs) =
      ((continuation n value as).1, (continuation n value as).2 ++ bs) := by
  induction n generalizing value as with
  | zero => rfl
  | succ n ih =>
      cases as with
      | nil =>
          cases bs with
          | nil => rfl
          | cons b bs =>
              simp only [List.nil_append, continuation]
              rw [h.not_continues (by decide) (by decide)]
              rfl
      | cons a as =>
          simp only [List.cons_append, continuation]
          split
          · exact ih _ as
          · rfl

/-- What a first byte announces continues with bytes that are not fresh. -/
theorem bounds_of_lead?
    {b : UInt8}
    {l : Lead}
    (h : lead? b = some l) :
    0x80 ≤ l.low ∧ l.high ≤ 0xBF := by
  unfold lead? at h
  split at h
  · cases h
  split at h
  · obtain rfl := Option.some.inj h
    dsimp only
    decide
  split at h
  · obtain rfl := Option.some.inj h
    dsimp only
    constructor <;> split <;> decide
  split at h
  · obtain rfl := Option.some.inj h
    dsimp only
    constructor <;> split <;> decide
  · cases h

theorem Lead.sequel_append
    {l : Lead}
    (hl : 0x80 ≤ l.low ∧ l.high ≤ 0xBF)
    {bs : List UInt8}
    (h : Fresh bs)
    (as : List UInt8) :
    l.sequel (as ++ bs) = ((l.sequel as).1, (l.sequel as).2 ++ bs) := by
  cases as with
  | nil =>
      cases bs with
      | nil => rfl
      | cons b bs =>
          simp only [List.nil_append, sequel]
          rw [h.not_continues hl.1 hl.2]
          rfl
  | cons a as =>
      simp only [List.cons_append, sequel]
      split
      · exact continuation_append h _ _ as
      · rfl

/-- Fresh bytes are decoded for themselves. -/
theorem decodeLossy_append
    (as : List UInt8)
    {bs : List UInt8}
    (h : Fresh bs) :
    decodeLossy (as ++ bs) = decodeLossy as ++ decodeLossy bs := by
  fun_induction decodeLossy as with
  | case1 => rfl
  | case2 a as ha ih => rw [List.cons_append, decodeLossy_ascii ha, ih]; rfl
  | case3 a as ha hlead ih =>
      rw [List.cons_append, decodeLossy, if_neg ha]
      simp only [hlead, ih, List.cons_append]
  | case4 a as ha l hlead s ih =>
      rw [List.cons_append, decodeLossy, if_neg ha]
      simp only [hlead, l.sequel_append (bounds_of_lead? hlead) h, List.cons_append]
      rw [← ih]

/-- Bytes are decoded to something. -/
theorem decodeLossy_ne_nil
    {bs : List UInt8}
    (h : bs ≠ []) :
    decodeLossy bs ≠ [] := by
  fun_cases decodeLossy bs with
  | case1 => exact absurd rfl h
  | case2 => simp
  | case3 => simp
  | case4 => simp

/-- A character begins with a fresh byte. -/
theorem fresh_utf8EncodeChar
    (c : Char)
    (bs : List UInt8) :
    Fresh (String.utf8EncodeChar c ++ bs) := by
  have hfirst : ∀ n, n < 256 → n < 0x80 ∨ 0xBF < n → ∀ others,
      Fresh (UInt8.ofNat n :: others) := by
    intro n hn hfresh others b hb
    obtain rfl := Option.some.inj hb
    rw [UInt8.lt_iff_toNat_lt, UInt8.lt_iff_toNat_lt, UInt8.toNat_ofNat_of_lt' hn]
    exact hfresh
  have hvalid : c.val.toNat < 0x110000 := by
    have hscalar : c.toNat < 0xD800 ∨ 0xDFFF < c.toNat ∧ c.toNat < 0x110000 := c.valid
    have hval : c.val.toNat = c.toNat := rfl
    omega
  simp only [String.utf8EncodeChar]
  split
  · exact hfirst _ (by omega) (by omega) _
  split
  · exact hfirst _ (by omega) (by omega) _
  split
  · exact hfirst _ (by omega) (by omega) _
  · exact hfirst _ (by omega) (by omega) _

theorem fresh_encode
    {t : Text}
    (ht : t ≠ [])
    (bs : List UInt8) :
    Fresh (encode t ++ bs) := by
  cases t with
  | nil => exact absurd rfl ht
  | cons c t =>
      rw [encode, List.flatMap_cons, List.append_assoc]
      exact fresh_utf8EncodeChar c _

theorem decodeLossy_encode_append
    (t : Text)
    (bs : List UInt8) :
    decodeLossy (encode t ++ bs) = t ++ decodeLossy bs := by
  induction t with
  | nil => rfl
  | cons c t ih =>
      rw [encode] at ih ⊢
      rw [List.flatMap_cons, List.append_assoc, decodeLossy_utf8EncodeChar, ih]
      rfl

theorem encode_ne_nil
    {t : Text}
    (ht : t ≠ []) :
    encode t ≠ [] := by
  intro hnil
  have hdecoded := decodeLossy_encode t
  rw [hnil, decodeLossy] at hdecoded
  exact ht hdecoded.symm

/-- A character below `0x80` is one byte. -/
theorem utf8EncodeChar_ofNat
    {n : Nat}
    (hn : n < 0x80) :
    String.utf8EncodeChar (Char.ofNat n) = [UInt8.ofNat n] := by
  have hvalid : n.isValidChar := .inl (by omega)
  have hval : (Char.ofNat n).val.toNat = n := by
    rw [Char.ofNat, dif_pos hvalid]
    rfl
  simp only [String.utf8EncodeChar, hval]
  rw [if_pos (by omega)]

end Utf8

namespace Zig

/-! ## Parts of a content -/

/-- The character that a well-formed escape names, read off its text: the two digits
behind `\x` name a code point as those behind `\u` do. -/
def escapeChar? : Text → Option Char
  | ['\\', 'n'] => some '\n'
  | ['\\', 'r'] => some '\r'
  | ['\\', 't'] => some '\t'
  | ['\\', '\\'] => some '\\'
  | ['\\', '\''] => some '\''
  | ['\\', '"'] => some '"'
  | '\\' :: 'x' :: digits => some (Char.ofNat (Hex.value digits))
  | '\\' :: 'u' :: '\x7b' :: digits => some (Char.ofNat (Hex.value digits.dropLast))
  | _ => none

/-- Whether a part of a quoted text denotes one character: the only one of a plain run, or
the one that a well-formed escape names. -/
def Denotes (l : Lexeme Kind) (c : Char) : Prop :=
  l = ⟨.stringText, [c]⟩ ∨ l.kind = .validEscape ∧ escapeChar? l.text = some c

/-- Whether a part of a quoted text is the escape of a byte from `0x80` on, which is no
character by itself. -/
def IsHighByte (l : Lexeme Kind) : Prop :=
  l.kind = .validEscape ∧ ∃ digits, l.text = '\\' :: 'x' :: digits ∧ 0x80 ≤ Hex.value digits

/-- A backslash with nothing behind it. -/
def lastBackslash : Lexeme Kind := ⟨.invalidCharacterEscape, ['\\']⟩

/-- Whether the parts of a content make up one character: a part that denotes it, a
backslash with nothing behind it, or bytes one by one. -/
inductive MakesUp : List (Lexeme Kind) → Char → Prop
  | part {l : Lexeme Kind} {c : Char} : ¬IsHighByte l → Denotes l c → MakesUp [l] c
  | backslash : MakesUp [lastBackslash] '\\'
  | bytes {ls : List (Lexeme Kind)} {c : Char} :
      (∀ l ∈ ls, IsHighByte l) → Utf8.decodeLossy (ls.flatMap denotation) = [c] → MakesUp ls c

/-- The parts of a text by their form. -/
inductive PartForm : Lexeme Kind → Prop
  | plain {t : Text} : t ≠ [] → PartForm ⟨.stringText, t⟩
  | simple {c : Char} : c ∈ simpleEscapes → PartForm ⟨.validEscape, ['\\', c]⟩
  | byte {digits : Text} : PartForm ⟨.validEscape, '\\' :: 'x' :: digits⟩
  | scalar {digits : Text} {c : Char} :
      NamesScalar digits c →
        PartForm ⟨.validEscape, '\\' :: 'u' :: '\x7b' :: (digits ++ ['\x7d'])⟩
  | malformed {kind : Kind} {t : Text} :
      kind ≠ .stringText → kind ≠ .validEscape → (t = [] → kind = .invalidCharacterEscape) →
        PartForm ⟨kind, '\\' :: t⟩

theorem PartForm.misused (t : Text) : PartForm ⟨.invalidCharacterEscape, '\\' :: t⟩ :=
  .malformed (by decide) (by decide) fun _ => rfl

theorem partForm_readEscape (t : Text) :
    PartForm ⟨(readEscape t).kind, '\\' :: (readEscape t).cut.taken⟩ := by
  cases t with
  | nil => exact .misused []
  | cons c t =>
      by_cases hsimple : c ∈ simpleEscapes
      · rw [readEscape_simple hsimple]
        exact .simple hsimple
      by_cases hx : c = 'x'
      · subst hx
        rw [readEscape_x]
        by_cases htwo : (Cut.spanUpTo Hex.isDigit 2 t).taken.length = 2
        · rw [if_pos htwo]
          exact .byte
        · rw [if_neg htwo]
          exact .misused _
      by_cases hu : c = 'u'
      · subst hu
        rw [readEscape_u]
        change PartForm ⟨(readScalar t).kind, '\\' :: 'u' :: (readScalar t).cut.taken⟩
        by_cases hvalid : (readScalar t).kind = .validEscape
        · obtain ⟨digits, rest, s, rfl, hnames⟩ := readScalar_kind_eq_iff.mp hvalid
          rw [hvalid, (cut_readScalar hnames.hex rest).1]
          exact .scalar hnames
        · refine .malformed (fun heq => ?_) hvalid (by simp)
          exact absurd (heq ▸ readScalar_kind_mem t) (by decide)
      · rw [readEscape_other hsimple hx hu]
        exact .misused _

theorem partForm_of_mem_escapes
    {t : Text}
    {l : Lexeme Kind}
    (h : l ∈ escapes t) :
    PartForm l := by
  fun_induction escapes t with
  | case1 => cases h
  | case2 c t r ih =>
      rcases List.mem_cons.mp h with rfl | h
      · by_cases hc : c = '\\'
        · subst hc
          exact partForm_readEscape t
        · have hr : r = ⟨.stringText, .span (· != '\\') t⟩ := if_neg hc
          rw [hr]
          exact .plain (List.cons_ne_nil _ _)
      · exact ih h

/-- What a part spells that is no byte from `0x80` on. -/
def spelling (l : Lexeme Kind) : Text :=
  if l.kind = .validEscape then (escapeChar? l.text).toList else l.text

theorem spelling_x (digits : Text) :
    spelling ⟨.validEscape, '\\' :: 'x' :: digits⟩ = [Char.ofNat (Hex.value digits)] :=
  rfl

theorem spelling_scalar
    {digits : Text}
    {c : Char}
    (h : NamesScalar digits c) :
    spelling ⟨.validEscape, '\\' :: 'u' :: '\x7b' :: (digits ++ ['\x7d'])⟩ = [c] := by
  have hchar : escapeChar? ('\\' :: 'u' :: '\x7b' :: (digits ++ ['\x7d'])) = some c := by
    rw [h.eq_ofNat]
    simp [escapeChar?]
  rw [spelling, if_pos rfl, hchar]
  rfl

/-- What a part spells is what it denotes, unless it is a byte from `0x80` on. -/
theorem denotation_eq_encode
    {l : Lexeme Kind}
    (h : PartForm l)
    (hlow : ¬IsHighByte l) :
    denotation l = Utf8.encode (spelling l) := by
  cases h with
  | plain ht => rfl
  | simple hc =>
      simp only [simpleEscapes, List.mem_cons, List.not_mem_nil, or_false] at hc
      rcases hc with rfl | rfl | rfl | rfl | rfl | rfl <;> decide
  | @byte digits =>
      have hvalue : Hex.value digits < 0x80 := by
        by_contra hle
        exact hlow ⟨rfl, digits, rfl, Nat.le_of_not_lt hle⟩
      rw [denotation_validEscape, spelling_x, Utf8.encode, List.flatMap_singleton,
        Utf8.utf8EncodeChar_ofNat hvalue]
      rfl
  | scalar hnames =>
      rw [denotation_validEscape, spelling_scalar hnames, Utf8.encode, List.flatMap_singleton,
        hnames.eq_ofNat]
      simp [escapeBytes]
  | malformed hplain hvalid =>
      rw [denotation_of_ne hvalid, spelling, if_neg hvalid]

theorem spelling_ne_nil
    {l : Lexeme Kind}
    (h : PartForm l) :
    spelling l ≠ [] := by
  cases h with
  | plain ht => exact ht
  | simple hc =>
      simp only [simpleEscapes, List.mem_cons, List.not_mem_nil, or_false] at hc
      rcases hc with rfl | rfl | rfl | rfl | rfl | rfl <;> decide
  | byte => exact List.cons_ne_nil _ _
  | scalar hnames =>
      rw [spelling_scalar hnames]
      exact List.cons_ne_nil _ _
  | malformed hplain hvalid =>
      rw [spelling, if_neg hvalid]
      exact List.cons_ne_nil _ _

/-- A part spells one character if it denotes it, or if nothing stands behind its
backslash. -/
theorem spelling_eq_singleton_iff
    {l : Lexeme Kind}
    (h : PartForm l)
    {c : Char} :
    spelling l = [c] ↔ Denotes l c ∨ l = lastBackslash ∧ c = '\\' := by
  by_cases hvalid : l.kind = .validEscape
  · have hplain : l ≠ ⟨.stringText, [c]⟩ := fun heq => by simp [heq] at hvalid
    have hlast : l ≠ lastBackslash := fun heq => by simp [heq, lastBackslash] at hvalid
    rw [spelling, if_pos hvalid, Option.toList_eq_singleton_iff]
    simp [Denotes, hvalid, hplain, hlast]
  · rw [spelling, if_neg hvalid]
    cases h with
    | plain ht => simp [Denotes, lastBackslash]
    | @malformed kind t hplain _ hlast =>
        simp only [Denotes, lastBackslash, Lexeme.mk.injEq, hplain, hvalid, false_and, false_or,
          List.cons.injEq, true_and]
        constructor
        · rintro ⟨rfl, rfl⟩
          exact ⟨⟨hlast rfl, rfl⟩, rfl⟩
        · rintro ⟨⟨-, rfl⟩, rfl⟩
          exact ⟨rfl, rfl⟩
    | simple => exact absurd rfl hvalid
    | byte => exact absurd rfl hvalid
    | scalar => exact absurd rfl hvalid

/-- Every part denotes something. -/
theorem denotation_ne_nil
    {l : Lexeme Kind}
    (h : PartForm l) :
    denotation l ≠ [] := by
  by_cases hhigh : IsHighByte l
  · obtain ⟨hkind, digits, htext, -⟩ := hhigh
    rw [ denotation, if_pos hkind, htext]
    exact List.cons_ne_nil _ _
  · rw [denotation_eq_encode h hhigh]
    exact Utf8.encode_ne_nil (spelling_ne_nil h)

theorem eq_nil_of_decodeLossy_denotation
    {ls : List (Lexeme Kind)}
    (h : ∀ l ∈ ls, PartForm l)
    (hnil : Utf8.decodeLossy (ls.flatMap denotation) = []) :
    ls = [] := by
  have hbytes : ls.flatMap denotation = [] := by
    by_contra hne
    exact Utf8.decodeLossy_ne_nil hne hnil
  refine List.eq_nil_iff_forall_not_mem.mpr fun l hl => ?_
  exact denotation_ne_nil (h l hl) (List.flatMap_eq_nil_iff.mp hbytes l hl)

/-- What stands around a part that spells characters is decoded for itself. -/
theorem decodeLossy_around
    {l : Lexeme Kind}
    (h : PartForm l)
    (hlow : ¬IsHighByte l)
    (before after : List (Lexeme Kind)) :
    Utf8.decodeLossy ((before ++ l :: after).flatMap denotation) =
      Utf8.decodeLossy (before.flatMap denotation) ++
        (spelling l ++ Utf8.decodeLossy (after.flatMap denotation)) := by
  rw [List.flatMap_append, List.flatMap_cons, denotation_eq_encode h hlow,
    Utf8.decodeLossy_append _ (Utf8.fresh_encode (spelling_ne_nil h) _),
    Utf8.decodeLossy_encode_append]

/-- Parts are decoded to one character exactly if they make it up. -/
theorem decodeLossy_eq_singleton_iff
    {ls : List (Lexeme Kind)}
    (h : ∀ l ∈ ls, PartForm l)
    {c : Char} :
    Utf8.decodeLossy (ls.flatMap denotation) = [c] ↔ MakesUp ls c := by
  constructor
  · intro hdecoded
    by_cases hhigh : ∀ l ∈ ls, IsHighByte l
    · exact .bytes hhigh hdecoded
    simp only [not_forall] at hhigh
    obtain ⟨l, hl, hlow⟩ := hhigh
    obtain ⟨before, after, rfl⟩ := List.append_of_mem hl
    have hform := h l hl
    rw [decodeLossy_around hform hlow] at hdecoded
    -- What the part spells takes the place of the only character.
    obtain ⟨d, t, hspelling⟩ := List.exists_cons_of_ne_nil (spelling_ne_nil hform)
    rw [hspelling, List.cons_append, List.append_eq_singleton_iff] at hdecoded
    obtain ⟨hbefore, hsame⟩ : Utf8.decodeLossy (before.flatMap denotation) = [] ∧
        d :: (t ++ Utf8.decodeLossy (after.flatMap denotation)) = [c] := by
      simpa using hdecoded
    obtain ⟨rfl, hrest⟩ := List.cons.inj hsame
    obtain ⟨rfl, hafter⟩ := List.append_eq_nil_iff.mp hrest
    obtain rfl := eq_nil_of_decodeLossy_denotation
      (fun l hl => h l (List.mem_append_left _ hl)) hbefore
    obtain rfl := eq_nil_of_decodeLossy_denotation
      (fun m hm => h m (List.mem_append_right _ (List.mem_cons_of_mem l hm))) hafter
    rcases (spelling_eq_singleton_iff hform).mp hspelling with hdenotes | ⟨rfl, rfl⟩
    · exact .part hlow hdenotes
    · exact .backslash
  · intro hmakes
    have hsingle : ∀ l, ls = [l] → ¬IsHighByte l → spelling l = [c] →
        Utf8.decodeLossy (ls.flatMap denotation) = [c] := by
      rintro l rfl hlow hspelling
      have haround := decodeLossy_around (h l (by simp)) hlow [] []
      simpa [hspelling, Utf8.decodeLossy] using haround
    cases hmakes with
    | @part l _ hlow hdenotes =>
        exact hsingle l rfl hlow ((spelling_eq_singleton_iff (h l (by simp))).mpr (.inl hdenotes))
    | backslash =>
        exact hsingle lastBackslash rfl (fun hhigh => by cases hhigh.1) rfl
    | bytes _ hdecoded => exact hdecoded

/-- **A content has a value exactly if its parts make it up.** -/
theorem onlyChar?_unescape_eq_some_iff
    {t : Text}
    {c : Char} :
    Literal.onlyChar? (Literal.unescape t) = some c ↔ MakesUp (escapes t) c := by
  rw [← decodeLossy_eq_singleton_iff fun l hl => partForm_of_mem_escapes hl,
    ← bytes_eq_flatMap_escapes, Literal.unescape]
  rcases Utf8.decodeLossy (Literal.bytes t) with _ | ⟨d, _ | ⟨e, rest⟩⟩ <;>
    simp [Literal.onlyChar?]

end Zig

/-! ## Character literals -/

/-- A node with one token besides its trivia has no other. -/
theorem Node.eq_of_mem_childTokens
    {K : Type}
    [Vocabulary K]
    {n : Node K}
    {only l : Leaf K}
    (hn : n.significant = [.token only])
    (hl : l ∈ n.childTokens)
    (htrivia : Vocabulary.isTrivia l.kind = false) :
    l = only := by
  have hmem : l ∈ n.childTokens.filter fun l => !l.isTrivia :=
    List.mem_filter.mpr ⟨hl, by simp [Leaf.isTrivia, htrivia]⟩
  rw [n.filter_childTokens, hn] at hmem
  simpa [Element.token?] using hmem

/-- How the value of a character literal depends on the parts that its content falls
into: it is the character that they make up, if they do. -/
def CharacterDecoded {K : Type} (text : Text) (l : Leaf K) (value : Option Char) : Prop :=
  ∃ parts, Zig.partsIn? text ((Literal.content '\'' l.text).range l.range.start) = some parts ∧
    ∀ c, value = some c ↔ Zig.MakesUp (parts.map Located.toLexeme) c

/-- The value of a token is read off the parts of its content in the text. -/
theorem Root.Keeps.characterDecoded
    {K : Type}
    [Vocabulary K]
    {r : Root K}
    {kind : K}
    {text : Text}
    {stream : List (Lexeme K)}
    (h : r.Keeps kind text stream)
    {n : Node K}
    (hn : n ∈ r.node.descendants)
    {l : Leaf K}
    (hl : l ∈ n.childTokens) :
    CharacterDecoded text l (Literal.charOf? l.text) := by
  have hlies := h.liesIn_child hn hl (Literal.occursIn_content '\'' l.text)
  have hslice := hlies.slice?_eq
  simp only [Excerpt.range, Nat.zero_add] at hslice
  refine ⟨_, by rw [Zig.partsIn?, Excerpt.range, hslice]; rfl, fun c => ?_⟩
  rw [map_toLexeme_locate]
  exact Zig.onlyChar?_unescape_eq_some_iff

namespace Zig

open Pattern

theorem isTrivia_of_ofKind?
    {kind : Kind}
    {form : LiteralForm}
    (h : LiteralForm.ofKind? kind = some form) :
    Vocabulary.isTrivia kind = false := by
  unfold LiteralForm.ofKind? at h
  split at h
  case h_5 => cases h
  all_goals rfl

/-- A literal that has a character token has the form of one. -/
theorem LiteralNode.token?_eq_char
    {n : Node Kind}
    (h : (all (Form.of .literal)).Fits n.significant)
    {l : Leaf Kind}
    (hl : l ∈ n.childTokens)
    (hkind : l.kind = .charLiteral) :
    LiteralNode.token? n = some (.char, l) := by
  obtain ⟨⟨form, l'⟩, htoken⟩ := Option.isSome_iff_exists.mp (isSome_token?_of_literal h)
  obtain ⟨l'', hl'', hsome⟩ := List.exists_of_findSome?_eq_some htoken
  obtain ⟨form', hform, heq⟩ := Option.map_eq_some_iff.mp hsome
  obtain ⟨rfl, rfl⟩ := Prod.mk.inj heq
  -- A literal has one token besides its trivia.
  obtain ⟨es, rest, hes, htokens, hrest⟩ := fits_all_cons_iff.mp h
  obtain ⟨only, rfl, -⟩ := htokens.exists_token
  obtain rfl := fits_all_nil_iff.mp hrest
  obtain rfl := Node.eq_of_mem_childTokens hes hl (by rw [hkind]; rfl)
  obtain rfl := Node.eq_of_mem_childTokens hes hl'' (isTrivia_of_ofKind? hform)
  rw [hkind] at hform
  obtain rfl := Option.some.inj hform
  exact htoken

/-- In every text, the character literals are decoded part by part. -/
theorem exists_characters_decoded (text : Text) :
    ∃ p, parse? text = some p ∧
      ∀ n ∈ p.root.node.descendants, n.kind = .literal →
        ∀ l ∈ n.childTokens, l.kind = .charLiteral →
          CharacterDecoded text l (LiteralNode.char? n) := by
  obtain ⟨p, m, hp, hkeeps, heverywhere, hplain, -⟩ := exists_marked_sourceFile text
  refine ⟨p, hp, fun n hn hkind l hl hchar => ?_⟩
  have hfits := fits_of_mem heverywhere hplain hn hkind (by decide) (by decide)
  rw [LiteralNode.char?, LiteralNode.token?_eq_char hfits hl hchar]
  exact hkeeps.characterDecoded hn hl

end Zig

namespace Zon

open Pattern

/-- The token of a character is the only one of its node. -/
theorem token?_eq_of_char
    {n : Node Kind}
    (h : (all (contents .char)).Fits n.significant)
    {l : Leaf Kind}
    (hl : l ∈ n.childTokens)
    (hkind : l.kind = .charLiteral) :
    n.token? .charLiteral = some l := by
  obtain ⟨es, rest, hes, htokens, hrest⟩ := fits_all_cons_iff.mp h
  obtain ⟨only, rfl, honly⟩ := htokens.exists_token
  obtain rfl := fits_all_nil_iff.mp hrest
  obtain rfl := Node.eq_of_mem_childTokens hes hl (by rw [hkind]; rfl)
  rw [n.token?_eq rfl, hes]
  simp [Element.token?, hkind]

/-- In every text, the characters are decoded part by part. -/
theorem exists_characters_decoded (text : Text) :
    ∃ p, parse? text = some p ∧
      ∀ n ∈ p.root.node.descendants, n.kind = .char →
        ∀ l ∈ n.childTokens, l.kind = .charLiteral →
          CharacterDecoded text l (Character.value? n) := by
  obtain ⟨p, children, hp, hkeeps, heverywhere, -, hplain, -⟩ := exists_marked_file text
  refine ⟨p, hp, fun n hn hkind l hl hchar => ?_⟩
  have hfits : (all (contents .char)).Fits n.significant := by
    obtain ⟨ms, hnode, hms⟩ := Root.exists_children_of_mem hplain hn
    rw [hkind] at hnode
    exact fits_significant ((heverywhere.of_mem_nodes _ hnode).fits (by decide)) hms
  rw [Character.value?, token?_eq_of_char hfits hl hchar]
  exact hkeeps.characterDecoded hn hl

end Zon

/-- **Character literals are decoded part by part.**  In every text of both languages, the
value of a character literal is the character that the parts of its content make up: a
plain run of one character, a well-formed escape, or a backslash with nothing behind it.
Escapes of bytes from `0x80` on stand for these bytes and are read together as UTF-8, with
repair; side by side with anything else they make up no character. -/
theorem characters_decoded (text : Text) :
    (∃ p, Zig.parse? text = some p ∧
      ∀ n ∈ p.root.node.descendants, n.kind = .literal →
        ∀ l ∈ n.childTokens, l.kind = .charLiteral →
          CharacterDecoded text l (Zig.LiteralNode.char? n)) ∧
    (∃ p, Zon.parse? text = some p ∧
      ∀ n ∈ p.root.node.descendants, n.kind = .char →
        ∀ l ∈ n.childTokens, l.kind = .charLiteral →
          CharacterDecoded text l (Zon.Character.value? n)) :=
  ⟨Zig.exists_characters_decoded text, Zon.exists_characters_decoded text⟩

/-- The escape of a byte that is no character is one part, which names a code point; the
value is the replacement character all the same. -/
theorem characters_decoded_high_byte :
    ∃ p, Zon.parse? "'\\xff'".toList = some p ∧
      ∃ n ∈ p.root.node.descendants, n.kind = .char ∧
        ∃ l ∈ n.childTokens, l.kind = .charLiteral ∧
          ∃ parts, Zig.partsIn? "'\\xff'".toList
              ((Literal.content '\'' l.text).range l.range.start) = some parts ∧
            ¬∀ c, Zon.Character.value? n = some c ↔
              ∃ part, parts.map Located.toLexeme = [part] ∧ Zig.Denotes part c := by
  have hfound : (Zon.parse? "'\\xff'".toList).any (fun p =>
      p.root.node.descendants.any fun n => n.kind == .char &&
        n.childTokens.any (fun l => l.kind == .charLiteral &&
          (Zig.partsIn? "'\\xff'".toList
            ((Literal.content '\'' l.text).range l.range.start)).any (fun parts =>
              parts.map Located.toLexeme == [⟨.validEscape, "\\xff".toList⟩]) &&
          Zon.Character.value? n == some '\ufffd')) = true := by
    decide +kernel
  simp only [Option.any_eq_true, List.any_eq_true, Bool.and_eq_true, beq_iff_eq] at hfound
  obtain ⟨p, hp, n, hn, hchar, l, hl, ⟨hkind, parts, hparts, hpart⟩, hvalue⟩ := hfound
  refine ⟨p, hp, n, hn, hchar, l, hl, hkind, parts, hparts, fun hlaw => ?_⟩
  obtain ⟨part, hsingle, hdenotes⟩ := (hlaw '\ufffd').mp hvalue
  obtain rfl : (⟨.validEscape, "\\xff".toList⟩ : Lexeme Zig.Kind) = part :=
    List.singleton_inj.mp (hpart.symm.trans hsingle)
  rcases hdenotes with hplain | ⟨-, hescape⟩
  · cases hplain
  · exact absurd hescape (by decide)

end ZigCst
