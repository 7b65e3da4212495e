import ZigCst.Literal.Quoted
import ZigCst.Proofs.Escapes

/-!
# Quoting

Any text can be written in quotes: backslashes, quotes and line feeds are escaped,
everything else stands for itself.  The scanner takes exactly what was written, the
closing quote is seen to be one, and decoding gives the text back.

**Definitions.**
* `Literal.escape`: a text as it is written in quotes.
* `Literal.enclose`: the text in quotes.
* `Scan.Inside`: what may stand between two quotes.

**Results.**
* `Utf8.decodeLossy_encode`: reading a text as it was encoded repairs nothing.
* `Scan.quoted_inside`: the scanner stops behind the closing quote.
* `Scan.Inside.even_endSlashes`: no backslash is left over before that quote.
* `Literal.content_enclose`: what was written stands between the quotes.
* `Literal.unescape_escape`: it denotes the text.
-/

namespace ZigCst

/-! ## Encoded text -/

namespace Utf8

theorem decodeLossy_ascii
    {b : UInt8}
    (hb : b < 0x80)
    (bs : List UInt8) :
    decodeLossy (b :: bs) = Char.ofNat b.toNat :: decodeLossy bs := by
  rw [decodeLossy, if_pos hb]

theorem decodeLossy_sequence
    {b : UInt8}
    {bs rest : List UInt8}
    {l : Lead}
    {value : Nat}
    (hb : ¬b < 0x80)
    (hlead : lead? b = some l)
    (hsequel : l.sequel bs = (some value, rest)) :
    decodeLossy (b :: bs) = Char.ofNat value :: decodeLossy rest := by
  rw [decodeLossy, if_neg hb]
  simp only [hlead, hsequel]

/-- A byte that continues a sequence adds its six bits. -/
theorem continuation_cons
    (n value : Nat)
    {b : UInt8}
    {bits : Nat}
    (hb : b.toNat = bits + 0x80)
    (hbits : bits < 64)
    (bs : List UInt8) :
    continuation (n + 1) value (b :: bs) = continuation n (value * 64 + bits) bs := by
  have hcontinues : (0x80 ≤ b && b ≤ 0xBF) = true := by
    simp [UInt8.le_iff_toNat_le, hb]
    omega
  rw [continuation, if_pos hcontinues, hb, Nat.add_sub_cancel]

/-- So does the second byte of a sequence, within the bounds that the first sets. -/
theorem Lead.sequel_cons
    (l : Lead)
    {b : UInt8}
    {bits : Nat}
    (hb : b.toNat = bits + 0x80)
    (hlow : l.low.toNat ≤ bits + 0x80)
    (hhigh : bits + 0x80 ≤ l.high.toNat)
    (bs : List UInt8) :
    l.sequel (b :: bs) = continuation l.more (l.value * 64 + bits) bs := by
  have hcontinues : (l.low ≤ b && b ≤ l.high) = true := by
    simp [UInt8.le_iff_toNat_le, hb, hlow, hhigh]
  rw [sequel, if_pos hcontinues, hb, Nat.add_sub_cancel]

/-- A sequence of two bytes. -/
theorem decodeLossy_two
    {b₁ b₂ : UInt8}
    {m n : Nat}
    (h₁ : b₁.toNat = m + 0xC0)
    (h₂ : b₂.toNat = n + 0x80)
    (hm : 2 ≤ m ∧ m < 32)
    (hn : n < 64)
    (bs : List UInt8) :
    decodeLossy (b₁ :: b₂ :: bs) = Char.ofNat (m * 64 + n) :: decodeLossy bs := by
  have hlead : lead? b₁ = some ⟨m, 0x80, 0xBF, 0⟩ := by
    simp only [lead?, UInt8.lt_iff_toNat_lt, UInt8.reduceToNat, h₁, Nat.add_sub_cancel]
    rw [if_neg (by omega), if_pos (by omega)]
  refine decodeLossy_sequence ?_ hlead ?_
  · simp [UInt8.lt_iff_toNat_lt, h₁]
  · rw [Lead.sequel_cons _ h₂ (by simp) (by simp; omega), continuation]

/-- A sequence of three bytes: not an overlong one, and no surrogate. -/
theorem decodeLossy_three
    {b₁ b₂ b₃ : UInt8}
    {l m n : Nat}
    (h₁ : b₁.toNat = l + 0xE0)
    (h₂ : b₂.toNat = m + 0x80)
    (h₃ : b₃.toNat = n + 0x80)
    (hl : l < 16)
    (hm : m < 64)
    (hn : n < 64)
    (hoverlong : l = 0 → 32 ≤ m)
    (hsurrogate : l = 13 → m < 32)
    (bs : List UInt8) :
    decodeLossy (b₁ :: b₂ :: b₃ :: bs) = Char.ofNat ((l * 64 + m) * 64 + n) :: decodeLossy bs := by
  have hlead : lead? b₁ =
      some ⟨l, if l = 0 then 0xA0 else 0x80, if l = 13 then 0x9F else 0xBF, 1⟩ := by
    simp only [lead?, UInt8.lt_iff_toNat_lt, ← UInt8.toNat_inj, UInt8.reduceToNat, h₁,
      Nat.add_sub_cancel]
    rw [if_neg (by omega), if_neg (by omega), if_pos (by omega)]
    simp
  refine decodeLossy_sequence ?_ hlead ?_
  · simp [UInt8.lt_iff_toNat_lt, h₁]
  · rw [Lead.sequel_cons _ h₂, continuation_cons 0 _ h₃ hn, continuation]
    · dsimp only
      split <;> simp only [UInt8.reduceToNat] <;> omega
    · dsimp only
      split <;> simp only [UInt8.reduceToNat] <;> omega

/-- A sequence of four bytes: not an overlong one, and not above the last code
point. -/
theorem decodeLossy_four
    {b₁ b₂ b₃ b₄ : UInt8}
    {k l m n : Nat}
    (h₁ : b₁.toNat = k + 0xF0)
    (h₂ : b₂.toNat = l + 0x80)
    (h₃ : b₃.toNat = m + 0x80)
    (h₄ : b₄.toNat = n + 0x80)
    (hk : k < 5)
    (hl : l < 64)
    (hm : m < 64)
    (hn : n < 64)
    (hoverlong : k = 0 → 16 ≤ l)
    (hlast : k = 4 → l < 16)
    (bs : List UInt8) :
    decodeLossy (b₁ :: b₂ :: b₃ :: b₄ :: bs) =
      Char.ofNat (((k * 64 + l) * 64 + m) * 64 + n) :: decodeLossy bs := by
  have hlead : lead? b₁ =
      some ⟨k, if k = 0 then 0x90 else 0x80, if k = 4 then 0x8F else 0xBF, 2⟩ := by
    simp only [lead?, UInt8.lt_iff_toNat_lt, ← UInt8.toNat_inj, UInt8.reduceToNat, h₁,
      Nat.add_sub_cancel]
    rw [if_neg (by omega), if_neg (by omega), if_neg (by omega), if_pos (by omega)]
    simp
  refine decodeLossy_sequence ?_ hlead ?_
  · simp [UInt8.lt_iff_toNat_lt, h₁]
  · rw [Lead.sequel_cons _ h₂, continuation_cons 1 _ h₃ hm, continuation_cons 0 _ h₄ hn,
      continuation]
    · dsimp only
      split <;> simp only [UInt8.reduceToNat] <;> omega
    · dsimp only
      split <;> simp only [UInt8.reduceToNat] <;> omega

/-- An encoded character is read as that character. -/
theorem decodeLossy_utf8EncodeChar
    (c : Char)
    (bs : List UInt8) :
    decodeLossy (String.utf8EncodeChar c ++ bs) = c :: decodeLossy bs := by
  have hvalid : c.toNat < 0xD800 ∨ 0xDFFF < c.toNat ∧ c.toNat < 0x110000 := c.valid
  have hbyte : ∀ n, n < 256 → (UInt8.ofNat n).toNat = n := fun n hn =>
    UInt8.toNat_ofNat_of_lt' hn
  have hc : ∀ n, n = c.toNat → Char.ofNat n = c := fun n hn => by
    rw [hn, Char.ofNat_toNat]
  have hval : c.val.toNat = c.toNat := rfl
  simp only [String.utf8EncodeChar, hval]
  split
  · rw [List.singleton_append, decodeLossy_ascii, hbyte _ (by omega), Char.ofNat_toNat]
    rw [UInt8.lt_iff_toNat_lt, hbyte _ (by omega)]
    change c.toNat < 128
    omega
  split
  · rw [List.cons_append, List.singleton_append]
    rw [decodeLossy_two (hbyte _ (by omega)) (hbyte _ (by omega)) (by omega) (by omega)]
    rw [hc _ (by omega)]
  split
  · rw [List.cons_append, List.cons_append, List.singleton_append]
    rw [decodeLossy_three (hbyte _ (by omega)) (hbyte _ (by omega)) (hbyte _ (by omega))
      (by omega) (by omega) (by omega) (by omega) (by omega)]
    rw [hc _ (by omega)]
  · rw [List.cons_append, List.cons_append, List.cons_append, List.singleton_append]
    rw [decodeLossy_four (hbyte _ (by omega)) (hbyte _ (by omega)) (hbyte _ (by omega))
      (hbyte _ (by omega)) (by omega) (by omega) (by omega) (by omega) (by omega) (by omega)]
    rw [hc _ (by omega)]

/-- Reading a text as it was encoded repairs nothing. -/
theorem decodeLossy_encode (t : Text) : decodeLossy (encode t) = t := by
  induction t with
  | nil => rw [encode, List.flatMap_nil, decodeLossy]
  | cons c t ih =>
      rw [encode] at ih ⊢
      rw [List.flatMap_cons, decodeLossy_utf8EncodeChar, ih]

end Utf8

/-! ## Escaped text -/

namespace Literal

/-- A character as it is written in quotes. -/
def escapeChar (quote c : Char) : Text :=
  if c = '\n' then ['\\', 'n']
  else if c = '\\' ∨ c = '"' ∨ c = quote then ['\\', c]
  else [c]

/-- A text as it is written in quotes. -/
def escape (quote : Char) (t : Text) : Text := t.flatMap (escapeChar quote)

/-- A text in quotes. -/
def enclose (quote : Char) (t : Text) : Text := quote :: (escape quote t ++ [quote])

/-- A text as a quoted name. -/
def encloseName (t : Text) : Text := '@' :: enclose '"' t

theorem escape_cons
    (quote c : Char)
    (t : Text) :
    escape quote (c :: t) = escapeChar quote c ++ escape quote t :=
  List.flatMap_cons ..

/-- The ways to write a character. -/
theorem escapeChar_cases
    {motive : Char → Text → Prop}
    (quote : Char)
    (feed : motive '\n' ['\\', 'n'])
    (marked : ∀ c, c = '\\' ∨ c = '"' ∨ c = quote → c ≠ '\n' → motive c ['\\', c])
    (plain : ∀ c, c ≠ '\n' → c ≠ '\\' → c ≠ quote → motive c [c])
    (c : Char) :
    motive c (escapeChar quote c) := by
  rw [escapeChar]
  split
  · rename_i hfeed
    rw [hfeed]
    exact feed
  split
  · rename_i hfeed hmarked
    exact marked c hmarked hfeed
  · rename_i hfeed hmarked
    simp only [not_or] at hmarked
    exact plain c hfeed hmarked.1 hmarked.2.2

end Literal

/-- Whether a character may stand at both ends of a literal. -/
def IsQuote (quote : Char) : Prop := quote = '"' ∨ quote = '\''

theorem IsQuote.ne
    {quote : Char}
    (h : IsQuote quote) :
    quote ≠ '\\' ∧ quote ≠ '\n' := by
  rcases h with rfl | rfl <;> decide

namespace Scan

section Scanning

variable {quote : Char}

/-- The escapes of a quoted literal are told apart by their first character. -/
theorem ne_backslash
    {c : Char}
    {t : Text}
    (hlast : c = '\\' → t = [] → False)
    (hslash : ∀ d u, c = '\\' → t = d :: u → False) :
    c ≠ '\\' := by
  intro hc
  cases t with
  | nil => exact hlast hc rfl
  | cons d u => exact hslash d u hc rfl

theorem quoted_marked
    {c : Char}
    (hc : c ≠ '\n')
    (t : Text) :
    quoted quote ('\\' :: c :: t) = .cons '\\' (.cons c (quoted quote t)) := by
  rw [quoted, if_neg hc]

theorem quoted_cons
    {c : Char}
    (hc : c ≠ '\\')
    (t : Text) :
    quoted quote (c :: t) =
      if c = '\n' then .none (c :: t)
      else if c = quote then .cons c (.none t)
      else .cons c (quoted quote t) := by
  rw [quoted]
  · exact fun h => absurd h hc
  · exact fun _ _ h => absurd h hc

/-- What may stand between two quotes: characters that stand for themselves, and
escaped ones behind their backslashes. -/
inductive Inside (quote : Char) : Text → Prop where
  | nil : Inside quote []
  | plain {c : Char} {t : Text} :
      c ≠ '\\' → c ≠ '\n' → c ≠ quote → Inside quote t → Inside quote (c :: t)
  | escaped {c : Char} {t : Text} :
      c ≠ '\n' → Inside quote t → Inside quote ('\\' :: c :: t)

theorem inside_escape
    (quote : Char)
    (t : Text) :
    Inside quote (Literal.escape quote t) := by
  induction t with
  | nil => exact .nil
  | cons c t ih =>
      rw [Literal.escape_cons]
      cases c using Literal.escapeChar_cases quote with
      | feed => exact .escaped (by decide) ih
      | marked c _ hfeed => exact .escaped hfeed ih
      | plain c hfeed hslash hplain => exact .plain hslash hfeed hplain ih

/-- The scanner stops behind the closing quote. -/
theorem quoted_inside
    (hquote : IsQuote quote)
    {body : Text}
    (h : Inside quote body)
    (rest : Text) :
    (quoted quote (body ++ quote :: rest)).taken = body ++ [quote] ∧
      (quoted quote (body ++ quote :: rest)).rest = rest := by
  induction h with
  | nil =>
      rw [List.nil_append, quoted_cons hquote.ne.1, if_neg hquote.ne.2, if_pos rfl]
      exact ⟨rfl, rfl⟩
  | @plain c body hslash hfeed hplain h ih =>
      rw [List.cons_append, quoted_cons hslash, if_neg hfeed, if_neg hplain]
      exact ⟨congrArg (fun s => c :: s) ih.1, ih.2⟩
  | @escaped c body hfeed h ih =>
      rw [List.cons_append, List.cons_append, quoted_marked hfeed]
      exact ⟨congrArg (fun s => '\\' :: c :: s) ih.1, ih.2⟩

theorem quoted_escape
    (hquote : IsQuote quote)
    (t rest : Text) :
    (quoted quote (Literal.escape quote t ++ quote :: rest)).taken =
        Literal.escape quote t ++ [quote] ∧
      (quoted quote (Literal.escape quote t ++ quote :: rest)).rest = rest :=
  quoted_inside hquote (inside_escape quote t) rest

end Scanning

/-! ## Backslashes at the end -/

/-- Number of backslashes at the end of a text. -/
def endSlashes (t : Text) : Nat := (t.reverse.takeWhile (· == '\\')).length

/-- Behind another text, a text made of backslashes alone continues its backslashes. -/
theorem endSlashes_append (s t : Text) :
    endSlashes (s ++ t) =
      endSlashes t + if t.all (· == '\\') then endSlashes s else 0 := by
  rw [endSlashes, endSlashes, endSlashes, List.reverse_append]
  split
  · rename_i hall
    have hslashes : ∀ c ∈ t.reverse, (c == '\\') = true :=
      fun c hc => List.all_eq_true.mp hall c (List.mem_reverse.mp hc)
    rw [List.takeWhile_append_of_pos hslashes, List.takeWhile_eq_self_iff.mpr hslashes,
      List.length_append]
  · rename_i hsome
    have hshort : (t.reverse.takeWhile (· == '\\')).length ≠ t.reverse.length := by
      intro hlength
      have hself := (List.takeWhile_prefix _).eq_of_length hlength
      rw [List.takeWhile_eq_self_iff] at hself
      exact hsome (List.all_eq_true.mpr fun c hc => hself c (List.mem_reverse.mpr hc))
    rw [List.takeWhile_append, if_neg hshort, Nat.add_zero]

/-- Between two quotes, the backslashes at the end come in pairs. -/
theorem Inside.even_endSlashes
    {quote : Char}
    {body : Text}
    (h : Inside quote body) :
    endSlashes body % 2 = 0 := by
  -- What stands in front of the rest ends with no backslash, or with two.
  have hfront : ∀ {s t : Text}, endSlashes s % 2 = 0 → endSlashes t % 2 = 0 →
      endSlashes (s ++ t) % 2 = 0 := by
    intro s t hs ht
    rw [endSlashes_append]
    split <;> omega
  induction h with
  | nil => rfl
  | @plain c body hslash _ _ _ ih =>
      have hc : endSlashes [c] % 2 = 0 := by simp [endSlashes, hslash]
      exact hfront hc ih
  | @escaped c body _ _ ih =>
      have hc : endSlashes ['\\', c] % 2 = 0 := by
        by_cases hslash : c = '\\'
        · rw [hslash]
          rfl
        · simp [endSlashes, hslash]
      exact hfront hc ih

end Scan

/-! ## Reading back -/

namespace Literal

theorem isTerminated_concat
    (quote : Char)
    (body : Text)
    (c : Char) :
    isTerminated quote (quote :: (body ++ [c])) =
      (c == quote && Scan.endSlashes body % 2 == 0) := by
  simp [isTerminated, Scan.endSlashes]

theorem isTerminated_enclose
    (quote : Char)
    (t : Text) :
    isTerminated quote (enclose quote t) = true := by
  rw [enclose, isTerminated_concat, (Scan.inside_escape quote t).even_endSlashes]
  simp

/-- What was written stands between the quotes. -/
theorem content_enclose
    (quote : Char)
    (t : Text) :
    (content quote (enclose quote t)).text = escape quote t := by
  have hterminated := isTerminated_enclose quote t
  rw [enclose] at hterminated ⊢
  rw [content, if_pos rfl, if_pos hterminated, List.dropLast_concat]

theorem bytes_simple
    {c : Char}
    {b : UInt8}
    (h : simpleEscape? c = some b)
    (t : Text) :
    bytes ('\\' :: c :: t) = b :: bytes t := by
  rw [bytes, h]

section Quotes

variable {quote : Char} (hquote : IsQuote quote)
include hquote

theorem bytes_escape (t : Text) : bytes (escape quote t) = Utf8.encode t := by
  induction t with
  | nil => rw [escape, List.flatMap_nil, bytes, Utf8.encode, List.flatMap_nil]
  | cons c t ih =>
      rw [escape_cons, Utf8.encode, List.flatMap_cons, ← Utf8.encode, ← ih]
      cases c using escapeChar_cases quote with
      | feed => exact bytes_simple (by decide) _
      | marked c hmarked _ =>
          rcases hmarked with rfl | rfl | rfl
          · exact bytes_simple (by decide) _
          · exact bytes_simple (by decide) _
          · rcases hquote with rfl | rfl
            · exact bytes_simple (by decide) _
            · exact bytes_simple (by decide) _
      | plain c _ hslash _ => exact bytes_cons hslash _

/-- Escaped text denotes the text. -/
theorem unescape_escape (t : Text) : unescape (escape quote t) = t := by
  rw [unescape, bytes_escape hquote, Utf8.decodeLossy_encode]

end Quotes

theorem nameOf_encloseName (t : Text) : nameOf (encloseName t) = t := by
  rw [encloseName, enclose, nameOf, ← enclose, content_enclose, unescape_escape (.inl rfl)]

theorem charOf?_enclose (c : Char) : charOf? (enclose '\'' [c]) = some c := by
  rw [charOf?, content_enclose, unescape_escape (.inr rfl), onlyChar?]

end Literal
end ZigCst
