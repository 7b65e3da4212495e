import Mathlib.Data.List.TakeWhile
import ZigCst.Parse
import ZigCst.Proofs.Assembly
import ZigCst.Scan

/-!
# Streams of lexemes and their groups

A lexer cuts a text into lexemes that spell it out and puts the empty end of file
behind them.  Grouping the stream attaches every blank and every comment to a
significant lexeme beside it; as the end of file is significant, nothing is left
over.

**Results.**
* `textOf_lexWith`, `exists_lexWith_eq`: a stream spells out its text and ends
  with the end of file.
* `flatMap_pieces_group`: written out again, the groups are the stream.
* `map_lexeme_group`: the significant lexemes of the groups are those of the
  stream.
* `Stretch.Grouped`: in a group, trivia stand around what is not.
-/

namespace ZigCst

section Lexing

variable {K : Type} [Vocabulary K]

/-- The lexemes of a text spell it out. -/
theorem textOf_lexWith
    (read : (c : Char) → (t : Text) → Reading K t)
    (text : Text) :
    textOf (lexWith read text) = text := by
  fun_induction lexWith read text with
  | case1 => rfl
  | case2 c t r ih =>
      rw [textOf] at ih ⊢
      rw [List.flatMap_cons, ih]
      rw [List.cons_append, r.cut.join]

/-- The last lexeme is the empty end of file. -/
theorem exists_lexWith_eq
    (read : (c : Char) → (t : Text) → Reading K t)
    (text : Text) :
    ∃ ls, lexWith read text = ls ++ [⟨Vocabulary.eof, []⟩] := by
  fun_induction lexWith read text with
  | case1 => exact ⟨[], rfl⟩
  | case2 c t r ih =>
      obtain ⟨ls, hls⟩ := ih
      rw [hls]
      exact ⟨⟨r.kind, c :: r.cut.taken⟩ :: ls, rfl⟩

end Lexing

section Locating

variable {K : Type}

theorem map_toLexeme_locate
    (start : Nat)
    (ls : List (Lexeme K)) :
    (locate start ls).map Located.toLexeme = ls := by
  induction ls generalizing start with
  | nil => rfl
  | cons l ls ih =>
      rw [locate, List.map_cons, ih]

theorem map_piece_locate
    (start : Nat)
    (ls : List (Lexeme K)) :
    (locate start ls).map Located.piece = ls.map Lexeme.piece := by
  have hpiece : (Located.piece : Located K → Piece K) = Lexeme.piece ∘ Located.toLexeme := rfl
  rw [hpiece, ← List.map_map, map_toLexeme_locate]

theorem Token.pieces_stretch (t : Token K) :
    t.stretch.pieces = t.leading ++ t.lexeme.piece :: t.trailing := by
  have hlength : t.range.length = t.lexeme.text.size := by
    simp [Token.range, Located.range, Range.ofText, Range.length]
  rw [Stretch.pieces, Token.stretch, hlength]
  rfl

end Locating

section Grouping

variable {K : Type} [Vocabulary K]

theorem Located.isTrivia_of_trails
    {l : Located K}
    (h : l.trails = true) :
    l.isTrivia = true := by
  rw [trails, Bool.and_eq_true] at h
  exact h.1

/-- Groups follow the stream: trivia in front, a significant lexeme, all trivia behind
it on its line. -/
theorem group_induction
    {P : List (Located K) → List (Token K) → Prop}
    (nil : ∀ ls : List (Located K), (∀ l ∈ ls, l.isTrivia = true) → P ls [])
    (cons : ∀ (leading : List (Located K)) (l : Located K) (trailing rest : List (Located K)),
      (∀ m ∈ leading, m.isTrivia = true) →
      l.isTrivia = false →
      (∀ m ∈ trailing, m.trails = true) →
      (∀ m ∈ rest.head?, m.trails = false) →
      P rest (group rest) →
      P (leading ++ l :: (trailing ++ rest))
        (⟨leading.map Located.piece, l, trailing.map Located.piece⟩ :: group rest))
    (ls : List (Located K)) :
    P ls (group ls) := by
  fun_induction group ls with
  | case1 ls hnil => exact nil ls (List.dropWhile_eq_nil_iff.mp hnil)
  | case2 ls l after hcons ih =>
      have hsplit : ls.takeWhile Located.isTrivia ++
          l :: (after.takeWhile Located.trails ++ after.dropWhile Located.trails) = ls := by
        rw [List.takeWhile_append_dropWhile, ← hcons, List.takeWhile_append_dropWhile]
      have hl : l.isTrivia = false := by
        have hhead := List.head?_dropWhile_not Located.isTrivia ls
        rw [hcons] at hhead
        simpa using hhead
      have hleading : ∀ m ∈ ls.takeWhile Located.isTrivia, m.isTrivia = true :=
        fun m hm => List.mem_takeWhile_imp hm
      have htrailing : ∀ m ∈ after.takeWhile Located.trails, m.trails = true :=
        fun m hm => List.mem_takeWhile_imp hm
      have hrest : ∀ m ∈ (after.dropWhile Located.trails).head?, m.trails = false := by
        intro m hm
        have hhead := List.head?_dropWhile_not Located.trails after
        rw [Option.mem_def.mp hm] at hhead
        simpa using hhead
      have hcase := cons _ l _ _ hleading hl htrailing hrest ih
      rw [hsplit] at hcase
      exact hcase

/-- Written out again, the groups of a stream that ends with a significant lexeme
are the stream. -/
theorem flatMap_pieces_group
    (ls : List (Located K))
    (hlast : ∀ l ∈ ls.getLast?, l.isTrivia = false) :
    (group ls).flatMap (fun t => t.stretch.pieces) = ls.map Located.piece := by
  revert hlast
  refine group_induction (P := fun ls ts => (∀ l ∈ ls.getLast?, l.isTrivia = false) →
    ts.flatMap (fun t => t.stretch.pieces) = ls.map Located.piece) ?_ ?_ ls
  · intro ls htrivia hlast
    cases hls : ls.getLast? with
    | none =>
        obtain rfl := List.getLast?_eq_none_iff.mp hls
        rfl
    | some l =>
        have hl := htrivia l (List.mem_of_getLast? hls)
        rw [hlast l hls] at hl
        simp at hl
  · intro leading l trailing rest _ _ _ _ ih hlast
    have hrest : ∀ m ∈ rest.getLast?, m.isTrivia = false := by
      intro m hm
      apply hlast m
      simp [List.getLast?_append, List.getLast?_cons, Option.mem_def.mp hm]
    rw [List.flatMap_cons, ih hrest, Token.pieces_stretch]
    simp [Located.piece]

/-- The lexemes that groups are made around are the significant ones. -/
theorem map_lexeme_group (ls : List (Located K)) :
    (group ls).map Token.lexeme = ls.filter fun l => !l.isTrivia := by
  refine group_induction
    (P := fun ls ts => ts.map Token.lexeme = ls.filter fun l => !l.isTrivia) ?_ ?_ ls
  · intro ls htrivia
    symm
    simpa [List.filter_eq_nil_iff] using htrivia
  · intro leading l trailing rest hleading hl htrailing _ ih
    have hnone : ∀ ms : List (Located K), (∀ m ∈ ms, m.isTrivia = true) →
        ms.filter (fun l => !l.isTrivia) = [] := by
      intro ms hms
      simpa [List.filter_eq_nil_iff] using hms
    rw [List.map_cons, ih, List.filter_append, hnone leading hleading, List.nil_append]
    rw [List.filter_cons_of_pos (by simp [hl])]
    rw [List.filter_append,
      hnone trailing fun m hm => Located.isTrivia_of_trails (htrailing m hm), List.nil_append]

/-- Whether trivia stand around a significant lexeme. -/
structure Stretch.Grouped (s : Stretch K) : Prop where
  leading : ∀ p ∈ s.leading, Vocabulary.isTrivia p.kind = true
  kind : Vocabulary.isTrivia s.kind = false
  trailing : ∀ p ∈ s.trailing, Vocabulary.isTrivia p.kind = true

/-- Every group has trivia around its significant lexeme. -/
theorem grouped_of_mem_group
    {ls : List (Located K)}
    {t : Token K}
    (ht : t ∈ group ls) :
    t.stretch.Grouped := by
  revert t
  refine group_induction (P := fun _ ts => ∀ {t}, t ∈ ts → t.stretch.Grouped) ?_ ?_ ls
  · intro ls _ t ht
    simp at ht
  · intro leading l trailing rest hleading hl htrailing _ ih t ht
    rcases List.mem_cons.mp ht with rfl | ht
    · refine ⟨?_, hl, ?_⟩
      · intro p hp
        obtain ⟨m, hm, rfl⟩ := List.mem_map.mp hp
        exact hleading m hm
      · intro p hp
        obtain ⟨m, hm, rfl⟩ := List.mem_map.mp hp
        exact Located.isTrivia_of_trails (htrailing m hm)
    · exact ih ht

end Grouping
end ZigCst
