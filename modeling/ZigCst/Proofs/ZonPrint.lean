import ZigCst.Proofs.Quoting
import ZigCst.Proofs.ZonLanguage

/-!
# Printed Zon data

Data are written as a file without any blanks: strings and names in quotes, numbers
in decimal digits, the entries of a container separated by commas.  The lexemes of
that file are those of a tree, and the tree is derivable at the depth of the data.

**Definitions.**
* `Zon.Datum`: strings, characters, integers, enum literals, names and containers.
* `Zon.Datum.print`: a datum as the text of a file.
* `Zon.Datum.shape`: the tree of a datum.

**Results.**
* `Zon.Datum.lex_print`: a printed datum is cut into the lexemes of its tree.
* `Zon.Datum.value_shape`: the tree is the tree of a value that nests as deep as the
  datum.
-/

namespace ZigCst
namespace Zon

/-! ## Data -/

/-- Data that a Zon file can hold.  An entry of a container may have a key. -/
inductive Datum where
  | string (content : Text)
  | character (value : Char)
  | integer (isNegative : Bool) (magnitude : Nat)
  | enumLiteral (name : Text)
  | identifier (name : Text)
  | container (entries : List (Option Text × Datum))

namespace Datum

mutual

/-- How deep data nest, a datum without entries being one deep. -/
def depth : Datum → Nat
  | .container entries => depthAll entries + 1
  | _ => 1

/-- How deep the deepest entry nests. -/
def depthAll : List (Option Text × Datum) → Nat
  | [] => 0
  | (_, d) :: entries => max d.depth (depthAll entries)

end

/-- The key of an entry, between a dot and an equals sign. -/
def printKey : Option Text → Text
  | none => []
  | some key => '.' :: (Literal.encloseName key ++ ['='])

mutual

/-- A datum as the text of a file. -/
def print : Datum → Text
  | .string content => Literal.enclose '"' content
  | .character value => Literal.enclose '\'' [value]
  | .integer isNegative magnitude =>
      (if isNegative then ['-'] else []) ++ Nat.toDigits 10 magnitude
  | .enumLiteral name => '.' :: Literal.encloseName name
  | .identifier name => Literal.encloseName name
  | .container entries => '.' :: '\x7b' :: ([','].intercalate (printAll entries) ++ ['\x7d'])

/-- The texts of entries. -/
def printAll : List (Option Text × Datum) → List Text
  | [] => []
  | (key, d) :: entries => (printKey key ++ d.print) :: printAll entries

end
end Datum

/-! ## Trees -/

/-- A lexeme of punctuation as a leaf. -/
def mark (kind : Kind) (c : Char) : Shape (Lexeme Kind) Kind := .leaf ⟨kind, [c]⟩

/-- The node of a quoted name. -/
def nameShape (name : Text) : Shape (Lexeme Kind) Kind :=
  .node .ident [.leaf ⟨.identifier, Literal.encloseName name⟩]

/-- What stands before the value of an entry. -/
def keyShapes : Option Text → List (Shape (Lexeme Kind) Kind)
  | none => []
  | some key => [mark .dot '.', nameShape key, mark .eq '=']

/-- The kind of a container with such entries. -/
def containerKind (entries : List (Option Text × Datum)) : Kind :=
  if entries.isEmpty || entries.any fun e => e.1.isSome then .struct else .array

theorem containerKind_cons
    (e : Option Text × Datum)
    (entries : List (Option Text × Datum)) :
    containerKind (e :: entries) =
      if (e :: entries).any fun e => e.1.isSome then .struct else .array :=
  rfl

namespace Datum

mutual

/-- The tree of a datum. -/
def shape : Datum → Shape (Lexeme Kind) Kind
  | .string content =>
      .node .stringLiteral [.leaf ⟨.stringLiteralSingle, Literal.enclose '"' content⟩]
  | .character value => .node .char [.leaf ⟨.charLiteral, Literal.enclose '\'' [value]⟩]
  | .integer isNegative magnitude =>
      .node .number ((if isNegative then [mark .minus '-'] else []) ++
        [.leaf ⟨.integer, Nat.toDigits 10 magnitude⟩])
  | .enumLiteral name => .node .enumLiteral [mark .dot '.', nameShape name]
  | .identifier name => nameShape name
  | .container entries =>
      .node (containerKind entries) ([mark .dot '.', mark .leftBrace '\x7b'] ++
        (((shapeAll entries).intersperse (mark .comma ',')) ++ [mark .rightBrace '\x7d']))

/-- The trees of entries. -/
def shapeAll : List (Option Text × Datum) → List (Shape (Lexeme Kind) Kind)
  | [] => []
  | (key, d) :: entries => .node .entry (keyShapes key ++ [d.shape]) :: shapeAll entries

end
end Datum

/-! ## Lexemes -/

section Lexing

theorem read_eq_readOther
    {c : Char}
    (hcomment : c ≠ '/')
    (hline : c ≠ '\\')
    (hname : c ≠ '@')
    (t : Text) :
    read c t = read.readOther c t := by
  unfold read
  split
  · rw [if_neg hcomment]
  · rw [if_neg hline]
  · rw [if_neg hname]
  · rfl

theorem lex_cons
    (c : Char)
    (t : Text) :
    lex (c :: t) = ⟨(read c t).kind, c :: (read c t).cut.taken⟩ :: lex (read c t).cut.rest := by
  rw [lex, lexWith]

theorem lex_punctuation
    {c : Char}
    {kind : Kind}
    (h : punctuation? c = some kind)
    (t : Text) :
    lex (c :: t) = ⟨kind, [c]⟩ :: lex t := by
  unfold punctuation? at h
  split at h
  case h_7 => simp at h
  all_goals
    obtain rfl := Option.some.inj h
    rw [lex_cons, read_eq_readOther (by decide) (by decide) (by decide)]
    rfl

/-- A literal in quotes is one lexeme. -/
theorem lex_quoted
    {quote : Char}
    {kind : Kind}
    (hquote : IsQuote quote)
    (hread : ∀ t, read quote t = ⟨kind, Scan.quoted quote t⟩)
    (s rest : Text) :
    lex (Literal.enclose quote s ++ rest) = ⟨kind, Literal.enclose quote s⟩ :: lex rest := by
  obtain ⟨htaken, hrest⟩ := Scan.quoted_escape hquote s rest
  rw [Literal.enclose, List.cons_append, List.append_assoc, List.singleton_append, lex_cons, hread]
  rw [htaken, hrest]

/-- So is a quoted name. -/
theorem lex_name (s rest : Text) :
    lex (Literal.encloseName s ++ rest) = ⟨.identifier, Literal.encloseName s⟩ :: lex rest := by
  obtain ⟨htaken, hrest⟩ := Scan.quoted_escape (.inl rfl) s rest
  have hread : ∀ t, read '@' ('"' :: t) = ⟨.identifier, .cons '"' (Scan.quoted '"' t)⟩ := by
    intro t
    rw [read, if_pos rfl]
  rw [Literal.encloseName, Literal.enclose, List.cons_append, List.cons_append,
    List.append_assoc, List.singleton_append, lex_cons, hread]
  simp only [Cut.cons, htaken, hrest]

/-- Whether a text is over or goes on with a comma or a closing brace. -/
def Stops (t : Text) : Prop := ∀ c ∈ t.head?, c = ',' ∨ c = '\x7d'

theorem Stops.cons
    {c : Char}
    (hc : c = ',' ∨ c = '\x7d')
    (t : Text) :
    Stops (c :: t) := by
  intro d hd
  obtain rfl := Option.some.inj hd
  exact hc

/-- A scanner that takes nothing may be left out. -/
theorem andThen_nothing
    {t s r : Text}
    {k : Cut t}
    {f : (r : Text) → Cut r}
    (hk : k.taken = s ∧ k.rest = r)
    (hf : (f r).taken = [] ∧ (f r).rest = r) :
    (k.andThen f).taken = s ∧ (k.andThen f).rest = r := by
  obtain ⟨rfl, rfl⟩ := hk
  refine ⟨?_, hf.2⟩
  change k.taken ++ (f k.rest).taken = k.taken
  rw [hf.1, List.append_nil]

section Numerals

variable {rest : Text} (hrest : Stops rest)
include hrest

theorem span_stops
    {p : Char → Bool}
    (hcomma : p ',' = false)
    (hbrace : p '\x7d' = false) :
    (Cut.span p rest).taken = [] ∧ (Cut.span p rest).rest = rest := by
  cases rest with
  | nil => exact ⟨rfl, rfl⟩
  | cons c t =>
      have hc : p c = false := by
        rcases hrest c rfl with rfl | rfl
        · exact hcomma
        · exact hbrace
      exact ⟨List.takeWhile_cons_of_neg (by simp [hc]), List.dropWhile_cons_of_neg (by simp [hc])⟩

theorem fraction_stops :
    (Scan.fraction false rest).taken = [] ∧ (Scan.fraction false rest).rest = rest := by
  unfold Scan.fraction
  split
  · rcases hrest '.' rfl with h | h <;> simp at h
  · exact ⟨rfl, rfl⟩

theorem exponent_stops :
    (Scan.exponent false rest).taken = [] ∧ (Scan.exponent false rest).rest = rest := by
  unfold Scan.exponent
  split
  · rename_i c t
    rcases hrest c rfl with rfl | rfl
    · exact ⟨rfl, rfl⟩
    · exact ⟨rfl, rfl⟩
  · exact ⟨rfl, rfl⟩

omit hrest in
theorem radix_eq_none
    (first : Char)
    {t : Text}
    (h : ∀ c ∈ t.head?, c ≠ 'x' ∧ c ≠ 'o' ∧ c ≠ 'b') :
    Scan.radix first t = .none t := by
  cases t with
  | nil => rfl
  | cons c t =>
      obtain ⟨hx, ho, hb⟩ := h c rfl
      rw [Scan.radix, if_neg (by simp [hx, ho, hb])]

/-- Decimal digits before the end of a value are a numeral, and no float. -/
theorem numeral_digits
    (first : Char)
    {ds : Text}
    (hds : ∀ d ∈ ds, Scan.isDecimal d = true) :
    (Scan.numeral first (ds ++ rest)).1 = false ∧
      (Scan.numeral first (ds ++ rest)).2.taken = ds ∧
      (Scan.numeral first (ds ++ rest)).2.rest = rest := by
  have hradix : Scan.radix first (ds ++ rest) = .none (ds ++ rest) := by
    refine radix_eq_none first fun c hc => ?_
    cases ds with
    | nil => rcases hrest c hc with rfl | rfl <;> decide
    | cons d ds =>
        obtain rfl := Option.some.inj hc
        have hd := hds d List.mem_cons_self
        refine ⟨?_, ?_, ?_⟩ <;> rintro rfl <;> simp [Scan.isDecimal] at hd
  have hdigits : (Scan.digits false (ds ++ rest)).taken = ds ∧
      (Scan.digits false (ds ++ rest)).rest = rest := by
    have hdigit : ∀ d ∈ ds, Scan.isDigitOrMark false d = true := fun d hd => by
      simp [Scan.isDigitOrMark, hds d hd]
    have hstops := span_stops hrest (p := Scan.isDigitOrMark false) (by decide) (by decide)
    refine ⟨(List.takeWhile_append_of_pos hdigit).trans ?_,
      (List.dropWhile_append_of_pos hdigit).trans hstops.2⟩
    exact (congrArg (ds ++ ·) hstops.1).trans (List.append_nil ds)
  have hwhole : ((Cut.none (ds ++ rest)).andThen (Scan.digits false)).taken = ds ∧
      ((Cut.none (ds ++ rest)).andThen (Scan.digits false)).rest = rest := hdigits
  have hpoint := andThen_nothing hwhole (fraction_stops hrest)
  have hpower := andThen_nothing hpoint (exponent_stops hrest)
  have hend := andThen_nothing hpower
    (span_stops hrest (p := Scan.continuesWord) (by decide) (by decide))
  have hhex : ((Cut.none (ds ++ rest)).taken == ['x']) = false := rfl
  rw [Scan.numeral]
  dsimp only
  rw [hradix, hhex]
  refine ⟨?_, hend⟩
  rw [hwhole.2, (fraction_stops hrest).1, (fraction_stops hrest).2, (exponent_stops hrest).1]
  rfl

end Numerals

theorem isDecimal_of_mem_toDigits
    {n : Nat}
    {c : Char}
    (h : c ∈ Nat.toDigits 10 n) :
    Scan.isDecimal c = true := by
  have hdigit := Nat.isDigit_of_mem_toDigits (by decide) (by decide) h
  simpa [Scan.isDecimal, Char.isDigit, Char.le_def] using hdigit

theorem lex_integer
    (n : Nat)
    {rest : Text}
    (hrest : Stops rest) :
    lex (Nat.toDigits 10 n ++ rest) = ⟨.integer, Nat.toDigits 10 n⟩ :: lex rest := by
  cases hdigits : Nat.toDigits 10 n with
  | nil => exact absurd hdigits Nat.toDigits_ne_nil
  | cons c ds =>
      have hall : ∀ d ∈ c :: ds, Scan.isDecimal d = true := by
        rw [← hdigits]
        exact fun d hd => isDecimal_of_mem_toDigits hd
      obtain ⟨hc, hds⟩ := List.forall_mem_cons.mp hall
      obtain ⟨hfloat, htaken, hleft⟩ := numeral_digits hrest c hds
      have hne : ∀ d : Char, Scan.isDecimal d = false → c ≠ d := by
        rintro d hd rfl
        simp [hc] at hd
      have hread : read c (ds ++ rest) = ⟨.integer, (Scan.numeral c (ds ++ rest)).2⟩ := by
        rw [read_eq_readOther (hne _ (by decide)) (hne _ (by decide)) (hne _ (by decide))]
        have hblank : Scan.isBlank c = false := by
          simp only [Scan.isBlank, Bool.or_eq_false_iff, beq_eq_false_iff_ne]
          exact ⟨⟨⟨hne _ (by decide), hne _ (by decide)⟩, hne _ (by decide)⟩, hne _ (by decide)⟩
        rw [read.readOther, hblank, if_neg Bool.false_ne_true, if_neg (hne _ (by decide)),
          if_neg (hne _ (by decide)), if_pos hc]
        dsimp only
        rw [hfloat, if_neg Bool.false_ne_true]
      rw [List.cons_append, lex_cons, hread, htaken, hleft]

end Lexing

namespace Datum

/-- A key is cut into the leaves before a value. -/
theorem lex_printKey
    (key : Option Text)
    (rest : Text) :
    lex (printKey key ++ rest) = (keyShapes key).flatMap Shape.leaves ++ lex rest := by
  cases key with
  | none => rfl
  | some key =>
      rw [printKey, List.cons_append, List.append_assoc, List.singleton_append]
      rw [lex_punctuation (c := '.') rfl, lex_name, lex_punctuation (c := '=') rfl]
      rfl

mutual

/-- A printed datum is cut into the lexemes of its tree. -/
theorem lex_print
    (d : Datum)
    {rest : Text}
    (hrest : Stops rest) :
    lex (d.print ++ rest) = d.shape.leaves ++ lex rest := by
  cases d with
  | string content =>
      rw [print, lex_quoted (.inl rfl) (read_eq_readOther (by decide) (by decide) (by decide))]
      rfl
  | character value =>
      rw [print, lex_quoted (.inr rfl) (read_eq_readOther (by decide) (by decide) (by decide))]
      rfl
  | integer isNegative magnitude =>
      rw [print, List.append_assoc]
      cases isNegative with
      | false => exact lex_integer magnitude hrest
      | true => exact (lex_punctuation rfl _).trans (congrArg _ (lex_integer magnitude hrest))
  | enumLiteral name => exact (lex_punctuation rfl _).trans (congrArg _ (lex_name name rest))
  | identifier name => exact lex_name name rest
  | container entries =>
      have hentries := lex_printAll entries (Stops.cons (.inr rfl) rest)
      rw [print, List.cons_append, List.cons_append, List.append_assoc, List.singleton_append]
      rw [lex_punctuation (c := '.') rfl, lex_punctuation (c := '\x7b') rfl, hentries,
        lex_punctuation (c := '\x7d') rfl]
      simp [shape, mark]

theorem lex_printAll
    (entries : List (Option Text × Datum))
    {rest : Text}
    (hrest : Stops rest) :
    lex ([','].intercalate (printAll entries) ++ rest) =
      ((shapeAll entries).intersperse (mark .comma ',')).flatMap Shape.leaves ++ lex rest := by
  cases entries with
  | nil => rfl
  | cons e entries =>
      obtain ⟨key, d⟩ := e
      have hentry : ∀ {rest : Text}, Stops rest →
          lex (printKey key ++ d.print ++ rest) =
            (Shape.node Kind.entry (keyShapes key ++ [d.shape])).leaves ++ lex rest := by
        intro rest hrest
        rw [List.append_assoc, lex_printKey, lex_print d hrest]
        simp
      have hothers := lex_printAll entries hrest
      -- A comma stands before the other entries, if there are any.
      cases entries with
      | nil =>
          simp only [printAll, shapeAll, List.intercalate_singleton, List.intersperse_singleton,
            List.flatMap_singleton]
          exact hentry hrest
      | cons e' entries =>
          obtain ⟨key', d'⟩ := e'
          simp only [printAll, shapeAll] at hothers ⊢
          rw [List.intercalate_cons_cons, List.intersperse_cons_cons, List.flatMap_cons,
            List.flatMap_cons]
          rw [List.append_assoc _ [','], List.append_assoc _ _ rest, List.singleton_append,
            List.cons_append]
          rw [hentry (.cons (.inl rfl) _), lex_punctuation (c := ',') rfl, hothers]
          simp [mark]

end

/-! ## Derivations -/

theorem depth_pos (d : Datum) : 0 < d.depth := by
  cases d with
  | container entries => exact Nat.succ_pos _
  | _ => exact Nat.one_pos

/-- A value with a key or without one is an entry. -/
theorem entry_shape
    (key : Option Text)
    {d : Datum}
    {n : Nat}
    (h : Rule.Value n (d.shape.leaves.map Lexeme.kind) (d.shape.map Lexeme.kind)) :
    Rule.Entry n
      ((Shape.node Kind.entry (keyShapes key ++ [d.shape])).leaves.map Lexeme.kind) key.isSome
      ((Shape.node Kind.entry (keyShapes key ++ [d.shape])).map Lexeme.kind) := by
  cases key with
  | none => simpa [keyShapes] using Rule.Entry.positional h
  | some key => simpa [keyShapes, nameShape, mark] using Rule.Entry.named h

mutual

/-- The tree of a datum is the tree of a value that nests as deep. -/
theorem value_shape
    (d : Datum)
    {n : Nat}
    (h : d.depth ≤ n) :
    Rule.Value n (d.shape.leaves.map Lexeme.kind) (d.shape.map Lexeme.kind) := by
  obtain ⟨m, rfl⟩ : ∃ m, n = m + 1 := Nat.exists_eq_succ_of_ne_zero (by
    have hpos := d.depth_pos
    omega)
  cases d with
  | string content => exact .string m
  | character value => exact .char m
  | integer isNegative magnitude =>
      cases isNegative with
      | false => exact .number m (.inl rfl)
      | true => exact .negative m (.inl rfl)
  | enumLiteral name => exact .enumLiteral m
  | identifier name => exact .identifier m
  | container entries =>
      rw [depth, Nat.add_le_add_iff_right] at h
      have hentries := entries_shape entries h
      cases entries with
      | nil => exact .empty m
      | cons e entries =>
          have hcontainer := Rule.Value.container (hentries (List.cons_ne_nil _ _))
          simpa [shape, mark, containerKind_cons] using hcontainer

theorem entries_shape
    (entries : List (Option Text × Datum))
    {n : Nat}
    (h : depthAll entries ≤ n)
    (hentries : entries ≠ []) :
    Rule.Entries n
      ((((shapeAll entries).intersperse (mark .comma ',')).flatMap Shape.leaves).map Lexeme.kind)
      (entries.any fun e => e.1.isSome)
      (((shapeAll entries).intersperse (mark .comma ',')).map (Shape.map Lexeme.kind)) := by
  cases entries with
  | nil => exact absurd rfl hentries
  | cons e entries =>
      obtain ⟨key, d⟩ := e
      rw [depthAll, Nat.max_le] at h
      have hentry := entry_shape key (value_shape d h.1)
      have hothers := entries_shape entries h.2
      cases entries with
      | nil => simpa [shapeAll] using Rule.Entries.one hentry
      | cons e' entries =>
          have hall := Rule.Entries.cons hentry (hothers (List.cons_ne_nil _ _))
          obtain ⟨key', d'⟩ := e'
          simpa [shapeAll, mark] using hall

end

/-! ## No trivia -/

/-- What holds of the members and of what separates them holds of all. -/
theorem forall_mem_intersperse
    {α : Type}
    {P : α → Prop}
    {a : α}
    {as : List α}
    (ha : P a)
    (has : ∀ b ∈ as, P b) :
    ∀ b ∈ as.intersperse a, P b := by
  fun_induction List.intersperse a as with
  | case1 => exact has
  | case2 b => exact has
  | case3 b c as ih =>
      obtain ⟨hb, hothers⟩ := List.forall_mem_cons.mp has
      exact List.forall_mem_cons.mpr ⟨hb, List.forall_mem_cons.mpr ⟨ha, ih hothers⟩⟩

/-- Whether a shape has no trivia. -/
def Significant (s : Shape (Lexeme Kind) Kind) : Prop :=
  ∀ l ∈ s.leaves, Vocabulary.isTrivia l.kind = false

theorem significant_leaf
    {kind : Kind}
    (hkind : Vocabulary.isTrivia kind = false)
    (text : Text) :
    Significant (.leaf ⟨kind, text⟩) := by
  intro l hl
  obtain rfl := List.mem_singleton.mp hl
  exact hkind

theorem significant_node_iff
    {kind : Kind}
    {children : List (Shape (Lexeme Kind) Kind)} :
    Significant (.node kind children) ↔ ∀ s ∈ children, Significant s := by
  simp only [Significant, Shape.leaves_node, List.mem_flatMap]
  exact ⟨fun h s hs l hl => h l ⟨s, hs, hl⟩, fun h l ⟨s, hs, hl⟩ => h s hs l hl⟩

theorem significant_nameShape (name : Text) : Significant (nameShape name) :=
  significant_node_iff.mpr (List.forall_mem_singleton.mpr (significant_leaf rfl _))

theorem significant_keyShapes (key : Option Text) : ∀ s ∈ keyShapes key, Significant s := by
  cases key with
  | none => exact fun s hs => absurd hs List.not_mem_nil
  | some key =>
      simp only [keyShapes, mark, List.forall_mem_cons]
      exact ⟨significant_leaf rfl _, significant_nameShape key, significant_leaf rfl _, by simp⟩

mutual

/-- The tree of a datum has no trivia. -/
theorem significant_shape (d : Datum) : Significant d.shape := by
  cases d with
  | string content =>
      exact significant_node_iff.mpr (List.forall_mem_singleton.mpr (significant_leaf rfl _))
  | character value =>
      exact significant_node_iff.mpr (List.forall_mem_singleton.mpr (significant_leaf rfl _))
  | integer isNegative magnitude =>
      rw [shape, significant_node_iff, List.forall_mem_append, List.forall_mem_singleton]
      refine ⟨?_, significant_leaf rfl _⟩
      cases isNegative with
      | false => exact fun s hs => absurd hs List.not_mem_nil
      | true => exact List.forall_mem_singleton.mpr (significant_leaf rfl _)
  | enumLiteral name =>
      rw [shape, significant_node_iff, List.forall_mem_cons, List.forall_mem_singleton]
      exact ⟨significant_leaf rfl _, significant_nameShape name⟩
  | identifier name => exact significant_nameShape name
  | container entries =>
      rw [shape, significant_node_iff, List.forall_mem_append, List.forall_mem_append,
        List.forall_mem_cons, List.forall_mem_singleton, List.forall_mem_singleton]
      exact ⟨⟨significant_leaf rfl _, significant_leaf rfl _⟩,
        forall_mem_intersperse (significant_leaf rfl _) (significant_shapeAll entries),
        significant_leaf rfl _⟩

theorem significant_shapeAll (entries : List (Option Text × Datum)) :
    ∀ s ∈ shapeAll entries, Significant s := by
  cases entries with
  | nil => exact fun s hs => absurd hs List.not_mem_nil
  | cons e entries =>
      obtain ⟨key, d⟩ := e
      rw [shapeAll, List.forall_mem_cons, significant_node_iff, List.forall_mem_append,
        List.forall_mem_singleton]
      exact ⟨⟨significant_keyShapes key, significant_shape d⟩, significant_shapeAll entries⟩

end

end Datum
end Zon
end ZigCst
