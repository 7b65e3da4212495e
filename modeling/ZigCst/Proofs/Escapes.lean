import ZigCst.Literal.Decode
import ZigCst.Proofs.Tiling
import ZigCst.Zig.Escape

/-!
# Escapes denote what is decoded

A quoted text is read in two ways: split into plain runs and escapes, and decoded
to bytes.  A malformed escape is one part of the split, whereas the decoder keeps
its first characters and goes on behind them.  Both agree all the same: what the
decoder reads once more of a malformed escape holds no backslash, and stands for
itself.

**Definitions.**
* `Zig.denotation`: the bytes that a plain run or an escape denotes.
* `Zig.NamesScalar`: how a scalar value is named after `\u`.

**Results.**
* `Literal.bytes_append`: a beginning without backslashes stands for itself.
* `Zig.scalarEscape?_eq_some_iff`, `Zig.readScalar_kind_eq_iff`: the decoder and
  the split agree on which names are well-formed.
* `Zig.bytes_eq_flatMap_escapes`: the bytes of a text are those of its parts.
-/

namespace ZigCst

/-! ## Plain text -/

namespace Literal

/-- A character that is no backslash stands for itself. -/
theorem bytes_cons
    {c : Char}
    (hc : c ≠ '\\')
    (t : Text) :
    bytes (c :: t) = String.utf8EncodeChar c ++ bytes t := by
  rw [bytes]
  · exact fun h => absurd h hc
  · exact fun _ _ h => absurd h hc

/-- A beginning without backslashes stands for itself. -/
theorem bytes_append
    {s : Text}
    (hs : '\\' ∉ s)
    (t : Text) :
    bytes (s ++ t) = Utf8.encode s ++ bytes t := by
  induction s with
  | nil => rfl
  | cons c s ih =>
      obtain ⟨hc, hs⟩ := List.ne_and_not_mem_of_not_mem_cons hs
      rw [List.cons_append, bytes_cons (Ne.symm hc), ih hs, Utf8.encode, Utf8.encode]
      rw [List.flatMap_cons, List.append_assoc]

end Literal

/-! ## Parts of a text -/

namespace Zig

/-- The bytes of a well-formed escape, read off its text. -/
def escapeBytes : Text → List UInt8
  | ['\\', 'n'] => [0x0A]
  | ['\\', 'r'] => [0x0D]
  | ['\\', 't'] => [0x09]
  | ['\\', '\\'] => [0x5C]
  | ['\\', '\''] => [0x27]
  | ['\\', '"'] => [0x22]
  | '\\' :: 'x' :: digits => [UInt8.ofNat (Hex.value digits)]
  | '\\' :: 'u' :: '\x7b' :: digits =>
      String.utf8EncodeChar (Char.ofNat (Hex.value digits.dropLast))
  | _ => []

/-- The bytes that a part of a quoted text denotes: a well-formed escape those that
it names, everything else its own. -/
def denotation (l : Lexeme Kind) : List UInt8 :=
  if l.kind = .validEscape then escapeBytes l.text else Utf8.encode l.text

theorem denotation_validEscape (t : Text) :
    denotation ⟨.validEscape, t⟩ = escapeBytes t :=
  rfl

theorem denotation_of_ne
    {kind : Kind}
    (hkind : kind ≠ .validEscape)
    (t : Text) :
    denotation ⟨kind, t⟩ = Utf8.encode t :=
  if_neg hkind

/-! ## Names of scalar values -/

/-- Whether digits in braces name a scalar value, one to six of them. -/
structure NamesScalar (digits : Text) (c : Char) : Prop where
  hex : ∀ d ∈ digits, Hex.isDigit d = true
  pos : 0 < digits.length
  le : digits.length ≤ 6
  scalar : Hex.scalar? (Hex.value digits) = some c

theorem NamesScalar.eq_ofNat
    {digits : Text}
    {c : Char}
    (h : NamesScalar digits c) :
    c = Char.ofNat (Hex.value digits) := by
  have hscalar := h.scalar
  rw [Hex.scalar?] at hscalar
  split at hscalar
  · exact (Option.some.inj hscalar).symm
  · simp at hscalar

/-- Digits end before the brace behind them. -/
theorem takeWhile_append_brace
    {p : Char → Bool}
    {digits : Text}
    (hdigits : ∀ d ∈ digits, p d = true)
    (hbrace : p '\x7d' = false)
    (rest : Text) :
    (digits ++ '\x7d' :: rest).takeWhile p = digits := by
  rw [List.takeWhile_append_of_pos hdigits, List.takeWhile_cons_of_neg (by simp [hbrace])]
  exact List.append_nil _

theorem dropWhile_append_brace
    {p : Char → Bool}
    {digits : Text}
    (hdigits : ∀ d ∈ digits, p d = true)
    (hbrace : p '\x7d' = false)
    (rest : Text) :
    (digits ++ '\x7d' :: rest).dropWhile p = '\x7d' :: rest := by
  rw [List.dropWhile_append_of_pos hdigits, List.dropWhile_cons_of_neg (by simp [hbrace])]

/-- The decoder reads a scalar value exactly if one is named in braces. -/
theorem scalarEscape?_eq_some_iff
    {t : Text}
    {c : Char}
    {n : Nat} :
    Literal.scalarEscape? t = some (c, n) ↔
      ∃ digits rest, t = '\x7b' :: (digits ++ '\x7d' :: rest) ∧
        NamesScalar digits c ∧ n = digits.length + 2 := by
  constructor
  · intro h
    unfold Literal.scalarEscape? at h
    split at h
    case h_2 => simp at h
    rename_i t
    dsimp only at h
    split at h
    case isFalse => simp at h
    rename_i hdigits
    simp only [Bool.and_eq_true, decide_eq_true_eq, List.all_eq_true] at hdigits
    obtain ⟨⟨⟨hlt, hpos⟩, hle⟩, hhex⟩ := hdigits
    obtain ⟨c', hscalar, hpair⟩ := Option.map_eq_some_iff.mp h
    obtain ⟨rfl, rfl⟩ := Prod.mk.inj hpair
    -- Something stands behind the digits, and the first of it is the closing brace.
    have hsplit := List.takeWhile_append_dropWhile (p := (· != '\x7d')) (l := t)
    have hhead := List.head?_dropWhile_not (· != '\x7d') t
    cases hrest : t.dropWhile (· != '\x7d') with
    | nil =>
        rw [hrest, List.append_nil] at hsplit
        rw [hsplit] at hlt
        exact absurd hlt (Nat.lt_irrefl _)
    | cons b rest =>
        rw [hrest] at hsplit hhead
        obtain rfl : b = '\x7d' := by simpa using hhead
        exact ⟨_, rest, by rw [hsplit], ⟨hhex, hpos, hle, hscalar⟩, rfl⟩
  · rintro ⟨digits, rest, rfl, hnames, rfl⟩
    have hne : ∀ d ∈ digits, (d != '\x7d') = true := by
      intro d hd
      have hhex := hnames.hex d hd
      simp only [bne_iff_ne]
      rintro rfl
      exact absurd hhex (by decide)
    have htake := takeWhile_append_brace hne (by decide) rest
    have hall : digits.all Hex.isDigit = true := List.all_eq_true.mpr hnames.hex
    rw [Literal.scalarEscape?]
    simp [htake, hnames.pos, hnames.le, hall, hnames.scalar]

/-- A closing brace is taken if there is one. -/
theorem exists_rest_of_taken_ne_nil
    {t : Text}
    (h : (Cut.spanUpTo (· == '\x7d') 1 t).taken ≠ []) :
    ∃ rest, t = '\x7d' :: rest := by
  cases t with
  | nil => exact absurd rfl h
  | cons b rest =>
      rw [Cut.spanUpTo] at h
      split at h
      · rename_i hb
        obtain rfl : b = '\x7d' := by simpa using hb
        exact ⟨rest, rfl⟩
      · exact absurd rfl h

theorem spanUpTo_brace
    {t rest : Text}
    (h : t = '\x7d' :: rest) :
    (Cut.spanUpTo (· == '\x7d') 1 t).taken = ['\x7d'] ∧
      (Cut.spanUpTo (· == '\x7d') 1 t).rest = rest := by
  subst h
  exact ⟨rfl, rfl⟩

/-- Digits in braces are taken with the braces. -/
theorem cut_readScalar
    {digits : Text}
    (hdigits : ∀ d ∈ digits, Hex.isDigit d = true)
    (rest : Text) :
    (readScalar ('\x7b' :: (digits ++ '\x7d' :: rest))).cut.taken =
        '\x7b' :: (digits ++ ['\x7d']) ∧
      (readScalar ('\x7b' :: (digits ++ '\x7d' :: rest))).cut.rest = rest := by
  have htake := takeWhile_append_brace hdigits (by decide) rest
  have hbrace := spanUpTo_brace (dropWhile_append_brace hdigits (by decide) rest)
  rw [readScalar]
  simp [Cut.cons, Cut.andThen, Cut.span, htake, hbrace]

/-- A scalar value is read as an escape exactly if one is named in braces. -/
theorem readScalar_kind_eq_iff {t : Text} :
    (readScalar t).kind = .validEscape ↔
      ∃ digits rest c, t = '\x7b' :: (digits ++ '\x7d' :: rest) ∧ NamesScalar digits c := by
  constructor
  · intro h
    unfold readScalar at h
    split at h
    case h_2 => simp at h
    rename_i t
    dsimp only at h
    split at h
    case isFalse => simp at h
    rename_i hvalid
    simp only [Bool.and_eq_true, Bool.not_eq_true', List.isEmpty_eq_false_iff,
      decide_eq_true_eq] at hvalid
    obtain ⟨⟨⟨hclosed, hpos⟩, hle⟩, hscalar⟩ := hvalid
    obtain ⟨rest, hrest⟩ := exists_rest_of_taken_ne_nil hclosed
    obtain ⟨c, hc⟩ := Option.isSome_iff_exists.mp hscalar
    have hjoin := (Cut.span Hex.isDigit t).join
    rw [hrest] at hjoin
    refine ⟨_, rest, c, by rw [hjoin], ⟨?_, hpos, hle, hc⟩⟩
    exact fun d hd => List.mem_takeWhile_imp hd
  · rintro ⟨digits, rest, c, rfl, hnames⟩
    have htake := takeWhile_append_brace hnames.hex (by decide) rest
    have hbrace := spanUpTo_brace (dropWhile_append_brace hnames.hex (by decide) rest)
    rw [readScalar]
    simp [Cut.span, htake, hbrace, hnames.pos, hnames.le, hnames.scalar]

theorem readScalar_kind_ne_iff {t : Text} :
    (readScalar t).kind ≠ .validEscape ↔ Literal.scalarEscape? t = none := by
  rw [not_iff_comm, ← ne_eq, Option.ne_none_iff_exists', readScalar_kind_eq_iff]
  constructor
  · rintro ⟨⟨c, n⟩, h⟩
    obtain ⟨digits, rest, ht, hnames, -⟩ := scalarEscape?_eq_some_iff.mp h
    exact ⟨digits, rest, c, ht, hnames⟩
  · rintro ⟨digits, rest, c, ht, hnames⟩
    exact ⟨_, scalarEscape?_eq_some_iff.mpr ⟨digits, rest, ht, hnames, rfl⟩⟩

/-! ## No backslash inside a malformed escape -/

theorem avoids_spanUpTo
    {p : Char → Bool}
    {b : Char}
    (hp : p b = false)
    (n : Nat)
    (t : Text) :
    (Cut.spanUpTo p n t).Avoids b := by
  induction n generalizing t with
  | zero => exact Cut.avoids_none t
  | succ n ih =>
      cases t with
      | nil => exact Cut.avoids_none []
      | cons c t =>
          refine .ite (fun hc => (ih t).cons ?_) (Cut.avoids_none _)
          rintro rfl
          simp [hp] at hc

theorem avoids_readScalar (t : Text) : (readScalar t).cut.Avoids '\\' := by
  unfold readScalar
  split
  · exact ((Cut.avoids_span (by decide) _).andThen (avoids_spanUpTo (by decide) 1)).cons (by decide)
  · exact Cut.avoids_none _

/-! ## One escape -/

/-- The characters that make an escape with the backslash alone. -/
def simpleEscapes : List Char := ['n', 'r', 't', '\\', '\'', '"']

theorem simpleEscape?_eq_none
    {c : Char}
    (h : c ∉ simpleEscapes) :
    Literal.simpleEscape? c = none := by
  unfold Literal.simpleEscape?
  split <;> first | rfl | exact absurd h (by decide)

theorem readEscape_simple
    {c : Char}
    (h : c ∈ simpleEscapes)
    (t : Text) :
    readEscape (c :: t) = ⟨.validEscape, .cons c (.none t)⟩ :=
  if_pos (List.contains_iff_mem.mpr h)

theorem readEscape_x (t : Text) :
    readEscape ('x' :: t) =
      ⟨if (Cut.spanUpTo Hex.isDigit 2 t).taken.length = 2 then .validEscape
        else .invalidCharacterEscape, .cons 'x' (Cut.spanUpTo Hex.isDigit 2 t)⟩ :=
  rfl

theorem readEscape_u (t : Text) :
    readEscape ('u' :: t) = ⟨(readScalar t).kind, .cons 'u' (readScalar t).cut⟩ :=
  rfl

theorem readEscape_other
    {c : Char}
    (h : c ∉ simpleEscapes)
    (hx : c ≠ 'x')
    (hu : c ≠ 'u')
    (t : Text) :
    readEscape (c :: t) = ⟨.invalidCharacterEscape, .cons c (.none t)⟩ := by
  have hcontains : ¬ ['n', 'r', 't', '\\', '\'', '"'].contains c = true :=
    mt List.contains_iff_mem.mp h
  rw [readEscape, if_neg hcontains, if_neg hx, if_neg hu]

/-- Two digits name a byte, fewer do not. -/
theorem byteEscape?_eq (t : Text) :
    Literal.byteEscape? t =
      if (Cut.spanUpTo Hex.isDigit 2 t).taken.length = 2 then
        some (UInt8.ofNat (Hex.value (Cut.spanUpTo Hex.isDigit 2 t).taken))
      else none := by
  rcases t with _ | ⟨a, _ | ⟨b, t⟩⟩
  · rfl
  · cases ha : Hex.isDigit a <;> simp [Literal.byteEscape?, Cut.spanUpTo, Cut.cons, Cut.none, ha]
  · cases ha : Hex.isDigit a <;> cases hb : Hex.isDigit b <;>
      simp [Literal.byteEscape?, Cut.spanUpTo, Cut.cons, Cut.none, ha, hb]

theorem rest_eq_drop
    {t : Text}
    (k : Cut t) :
    k.rest = t.drop k.taken.length := by
  have hdrop : (k.taken ++ k.rest).drop k.taken.length = k.rest := List.drop_left
  rw [k.join] at hdrop
  exact hdrop.symm

/-- A well-formed escape denotes its bytes. -/
theorem bytes_of_valid
    {t : Text}
    (h : (readEscape t).kind = .validEscape) :
    Literal.bytes ('\\' :: t) =
      escapeBytes ('\\' :: (readEscape t).cut.taken) ++ Literal.bytes (readEscape t).cut.rest := by
  cases t with
  | nil => simp [readEscape] at h
  | cons c t =>
      by_cases hsimple : c ∈ simpleEscapes
      · rw [readEscape_simple hsimple, Literal.bytes]
        simp only [simpleEscapes, List.mem_cons, List.not_mem_nil, or_false] at hsimple
        rcases hsimple with rfl | rfl | rfl | rfl | rfl | rfl <;> rfl
      by_cases hx : c = 'x'
      · subst hx
        rw [readEscape_x] at h ⊢
        have htwo : (Cut.spanUpTo Hex.isDigit 2 t).taken.length = 2 := by
          by_contra hne
          rw [if_neg hne] at h
          simp at h
        rw [Literal.bytes, simpleEscape?_eq_none hsimple]
        simp only [if_true, byteEscape?_eq, if_pos htwo, Cut.cons]
        rw [rest_eq_drop, htwo]
        rfl
      by_cases hu : c = 'u'
      · subst hu
        rw [readEscape_u] at h ⊢
        obtain ⟨digits, rest, s, rfl, hnames⟩ := readScalar_kind_eq_iff.mp h
        have hscalar := scalarEscape?_eq_some_iff.mpr ⟨digits, rest, rfl, hnames, rfl⟩
        obtain ⟨htaken, hrest⟩ := cut_readScalar hnames.hex rest
        rw [Literal.bytes, simpleEscape?_eq_none hsimple]
        have hdrop : ('\x7b' :: (digits ++ '\x7d' :: rest)).drop (digits.length + 2) = rest := by
          simp
        have hbytes : escapeBytes ('\\' :: 'u' :: '\x7b' :: (digits ++ ['\x7d'])) =
            String.utf8EncodeChar s := by
          rw [hnames.eq_ofNat]
          simp [escapeBytes]
        simp only [if_neg hx, if_true, hscalar, Cut.cons, htaken, hrest, hdrop, hbytes]
      · rw [readEscape_other hsimple hx hu] at h
        simp at h

/-- Only the backslash of a malformed escape is passed over at once. -/
theorem bytes_of_malformed
    {t : Text}
    (h : (readEscape t).kind ≠ .validEscape) :
    Literal.bytes ('\\' :: t) = 0x5C :: Literal.bytes t := by
  cases t with
  | nil => simp [Literal.bytes]
  | cons c t =>
      by_cases hsimple : c ∈ simpleEscapes
      · exact absurd (congrArg Reading.kind (readEscape_simple hsimple t)) h
      rw [Literal.bytes, simpleEscape?_eq_none hsimple]
      by_cases hx : c = 'x'
      · subst hx
        rw [readEscape_x] at h
        have hfew : (Cut.spanUpTo Hex.isDigit 2 t).taken.length ≠ 2 := by
          intro htwo
          exact h (if_pos htwo)
        simp only [if_true, byteEscape?_eq, if_neg hfew]
        rw [Literal.bytes_cons (by decide)]
        rfl
      by_cases hu : c = 'u'
      · subst hu
        rw [readEscape_u, readScalar_kind_ne_iff] at h
        simp only [h]
        rw [Literal.bytes_cons (by decide)]
        rfl
      · simp only [if_neg hx, if_neg hu]

/-- A malformed escape holds no second backslash. -/
theorem avoids_of_malformed
    {t : Text}
    (h : (readEscape t).kind ≠ .validEscape) :
    (readEscape t).cut.Avoids '\\' := by
  cases t with
  | nil => exact Cut.avoids_none []
  | cons c t =>
      by_cases hsimple : c ∈ simpleEscapes
      · exact absurd (congrArg Reading.kind (readEscape_simple hsimple t)) h
      have hc : c ≠ '\\' := by
        rintro rfl
        exact hsimple (by decide)
      by_cases hx : c = 'x'
      · subst hx
        exact (avoids_spanUpTo (by decide) 2 t).cons hc
      by_cases hu : c = 'u'
      · subst hu
        exact (avoids_readScalar t).cons hc
      · rw [readEscape_other hsimple hx hu]
        exact (Cut.avoids_none t).cons hc

/-! ## All parts -/

/-- The part that is read first denotes what is decoded first. -/
theorem bytes_eq_denotation
    (c : Char)
    (t : Text) :
    Literal.bytes (c :: t) =
      denotation ⟨(readPart c t).kind, c :: (readPart c t).cut.taken⟩ ++
        Literal.bytes (readPart c t).cut.rest := by
  by_cases hc : c = '\\'
  · subst hc
    have hpart : readPart '\\' t = readEscape t := if_pos rfl
    rw [hpart]
    by_cases hvalid : (readEscape t).kind = .validEscape
    · rw [hvalid, denotation_validEscape]
      exact bytes_of_valid hvalid
    · rw [denotation_of_ne hvalid, bytes_of_malformed hvalid]
      have hsplit := Literal.bytes_append (avoids_of_malformed hvalid) (readEscape t).cut.rest
      rw [(readEscape t).cut.join] at hsplit
      rw [hsplit]
      rfl
  · have hpart : readPart c t = ⟨.stringText, .span (· != '\\') t⟩ := if_neg hc
    have hplain : '\\' ∉ c :: t.takeWhile (· != '\\') := by
      refine List.not_mem_cons_of_ne_of_not_mem (Ne.symm hc) fun h => ?_
      exact absurd (List.mem_takeWhile_imp h) (by decide)
    have hsplit := Literal.bytes_append hplain (t.dropWhile (· != '\\'))
    rw [List.cons_append, List.takeWhile_append_dropWhile] at hsplit
    have hkind : Kind.stringText ≠ .validEscape := by decide
    rw [hpart, denotation_of_ne hkind]
    exact hsplit

/-- The bytes of a text are those of its parts, one after another. -/
theorem bytes_eq_flatMap_escapes (t : Text) :
    Literal.bytes t = (escapes t).flatMap denotation := by
  fun_induction escapes t with
  | case1 => simp [Literal.bytes]
  | case2 c t r ih =>
      rw [List.flatMap_cons, ← ih]
      exact bytes_eq_denotation c t

/-- **Splitting and decoding agree.**  Decoding the escapes of a text gives the text
that its parts denote: the bytes named by the well-formed escapes and the bytes of
everything else, read as UTF-8 with repair. -/
theorem unescape_eq_decodeLossy (s : Text) :
    ∃ literal, s.slice? 0 s.size = some literal ∧
      Literal.unescape s = Utf8.decodeLossy ((escapes literal).flatMap denotation) := by
  refine ⟨s, ?_, ?_⟩
  · have hsplit := Text.splitAt?_size_append s []
    rw [List.append_nil] at hsplit
    simp [Text.slice?, hsplit]
  · rw [Literal.unescape, bytes_eq_flatMap_escapes]

end Zig
end ZigCst
