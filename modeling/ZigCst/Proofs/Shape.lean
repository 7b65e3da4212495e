import ZigCst.Tree.Builder

/-!
# Shapes

A shape is an ordered tree whose nodes have kinds and whose leaves are of any
type: kinds, lengths, tokens with their trivia.  Trees over a text, traces of a
parser and derivations of a grammar are compared through their shapes.

Pieces are tokens known by kinds and lengths only.  They fit a text when their
lengths end at characters all the way and add up to its size, which is the case
exactly if the text can be cut by them.

**Definitions.**
* `Shape.map`, `Shape.leaves`, `Shape.Lacks`: the leaves exchanged, the leaves in
  order, no node of some kind.
* `Piece.cut?`: a text cut by the lengths of pieces.
* `Piece.Fit`: lengths that end at characters and add up.

**Results.**
* `Piece.cut?_eq_some_iff`: what a text is cut into.
* `Piece.fit_iff`: pieces fit a text exactly if they cut the whole of it.
-/

namespace ZigCst

/-- An ordered tree whose nodes have kinds. -/
inductive Shape (α K : Type) where
  | leaf (a : α)
  | node (kind : K) (children : List (Shape α K))
deriving Repr

namespace Shape

variable {α β K : Type}

mutual

/-- Exchanges the leaves. -/
def map (f : α → β) : Shape α K → Shape β K
  | .leaf a => .leaf (f a)
  | .node kind children => .node kind (mapAll f children)

/-- Exchanges the leaves of neighbouring shapes. -/
def mapAll (f : α → β) : List (Shape α K) → List (Shape β K)
  | [] => []
  | s :: ss => s.map f :: mapAll f ss

end

mutual

/-- The leaves in order. -/
def leaves : Shape α K → List α
  | .leaf a => [a]
  | .node _ children => leavesAll children

/-- The leaves of neighbouring shapes in order. -/
def leavesAll : List (Shape α K) → List α
  | [] => []
  | s :: ss => s.leaves ++ leavesAll ss

end

mutual

/-- Whether no node is of a kind. -/
def Lacks (kind : K) : Shape α K → Prop
  | .leaf _ => True
  | .node k children => k ≠ kind ∧ AllLack kind children

/-- Whether no node of neighbouring shapes is of a kind. -/
def AllLack (kind : K) : List (Shape α K) → Prop
  | [] => True
  | s :: ss => s.Lacks kind ∧ AllLack kind ss

end

theorem mapAll_eq
    (f : α → β)
    (ss : List (Shape α K)) :
    mapAll f ss = ss.map (map f) := by
  induction ss with
  | nil => rfl
  | cons s ss ih =>
      rw [mapAll]
      rw [ih]
      rfl

@[simp]
theorem map_leaf
    (f : α → β)
    (a : α) :
    (leaf a : Shape α K).map f = .leaf (f a) := rfl

@[simp]
theorem map_node
    (f : α → β)
    (kind : K)
    (children : List (Shape α K)) :
    (node kind children).map f = .node kind (children.map (map f)) := by
  rw [map]
  rw [mapAll_eq]

mutual

theorem map_id (s : Shape α K) : s.map id = s := by
  cases s with
  | leaf a => rfl
  | node kind children => rw [map_node, map_id_all children]

theorem map_id_all (ss : List (Shape α K)) : ss.map (map id) = ss := by
  cases ss with
  | nil => rfl
  | cons s ss => rw [List.map_cons, map_id s, map_id_all ss]

end

theorem leavesAll_eq (ss : List (Shape α K)) :
    leavesAll ss = ss.flatMap leaves := by
  induction ss with
  | nil => rfl
  | cons s ss ih =>
      rw [leavesAll]
      rw [ih]
      rfl

@[simp]
theorem leaves_leaf (a : α) : (leaf a : Shape α K).leaves = [a] := rfl

@[simp]
theorem leaves_node
    (kind : K)
    (children : List (Shape α K)) :
    (node kind children).leaves = children.flatMap leaves := by
  rw [leaves]
  rw [leavesAll_eq]

mutual

theorem leaves_map
    (f : α → β)
    (s : Shape α K) :
    (s.map f).leaves = s.leaves.map f := by
  cases s with
  | leaf a => rfl
  | node kind children =>
      rw [map_node, leaves_node, leaves_node]
      exact flatMap_leaves_map f children

theorem flatMap_leaves_map
    (f : α → β)
    (ss : List (Shape α K)) :
    (ss.map (map f)).flatMap leaves = (ss.flatMap leaves).map f := by
  cases ss with
  | nil => rfl
  | cons s ss =>
      rw [List.map_cons, List.flatMap_cons, List.flatMap_cons, List.map_append]
      rw [leaves_map f s, flatMap_leaves_map f ss]

end

theorem allLack_iff
    {kind : K}
    {ss : List (Shape α K)} :
    AllLack kind ss ↔ ∀ s ∈ ss, s.Lacks kind := by
  induction ss with
  | nil => simp [AllLack]
  | cons s ss ih =>
      rw [AllLack]
      rw [ih]
      simp

theorem lacks_node_iff
    {kind k : K}
    {children : List (Shape α K)} :
    (node k children).Lacks kind ↔ k ≠ kind ∧ ∀ s ∈ children, s.Lacks kind := by
  rw [Lacks]
  rw [allLack_iff]

end Shape

/-- The kind and the length of a lexeme. -/
def Lexeme.piece {K : Type} (l : Lexeme K) : Piece K := ⟨l.kind, l.text.size⟩

/-- The lexeme as a token of a tree. -/
def Lexeme.tree {K : Type} (l : Lexeme K) : Tree K := .token l.kind l.text

namespace Piece

variable {K : Type}

/-- Cuts a text by the lengths of pieces, and gives the rest. -/
def cut? : List (Piece K) → Text → Option (List (Lexeme K) × Text)
  | [], text => some ([], text)
  | p :: ps, text => do
      let (s, rest) ← text.splitAt? p.length
      let (ls, rest) ← cut? ps rest
      return (⟨p.kind, s⟩ :: ls, rest)

/-- Whether the lengths of pieces end at characters of a text and add up to its
size. -/
def Fit (pieces : List (Piece K)) (text : Text) : Prop :=
  (∀ ps, ps <+: pieces → (text.splitAt? (total ps)).isSome) ∧ total pieces = text.size

/-- A text is cut by pieces into lexemes exactly if they have the kinds and the
lengths of the pieces and spell out the text up to the rest. -/
theorem cut?_eq_some_iff
    {ps : List (Piece K)}
    {text rest : Text}
    {ls : List (Lexeme K)} :
    cut? ps text = some (ls, rest) ↔ ls.map Lexeme.piece = ps ∧ textOf ls ++ rest = text := by
  induction ps generalizing text ls with
  | nil =>
      rw [cut?]
      constructor
      · intro h
        obtain ⟨rfl, rfl⟩ : [] = ls ∧ text = rest := by simpa using h
        exact ⟨rfl, rfl⟩
      · rintro ⟨hls, htext⟩
        obtain rfl := List.map_eq_nil_iff.mp hls
        rw [← htext]
        rfl
  | cons p ps ih =>
      rw [cut?]
      constructor
      · intro h
        obtain ⟨⟨s, after⟩, hs, h⟩ := Option.bind_eq_some_iff.mp h
        obtain ⟨⟨ms, after'⟩, hms, h⟩ := Option.bind_eq_some_iff.mp h
        obtain ⟨rfl, rfl⟩ : ⟨p.kind, s⟩ :: ms = ls ∧ after' = rest := by simpa using h
        obtain ⟨rfl, hsize⟩ := Text.splitAt?_eq_some hs
        obtain ⟨rfl, rfl⟩ := ih.mp hms
        constructor
        · rw [List.map_cons]
          rw [Lexeme.piece]
          rw [hsize]
        · rw [textOf]
          rw [List.flatMap_cons]
          rw [List.append_assoc]
          rfl
      · rintro ⟨hls, rfl⟩
        obtain ⟨l, ms, rfl, rfl, rfl⟩ := List.map_eq_cons_iff.mp hls
        have hcut : Text.splitAt? l.text.size (textOf (l :: ms) ++ rest) =
            some (l.text, textOf ms ++ rest) := by
          rw [textOf]
          rw [List.flatMap_cons]
          rw [List.append_assoc]
          exact Text.splitAt?_size_append _ _
        rw [Lexeme.piece]
        rw [hcut]
        rw [Option.bind_eq_bind]
        rw [Option.bind_some]
        dsimp only
        rw [ih.mpr ⟨rfl, rfl⟩]
        rfl

theorem cut?_append
    (ps qs : List (Piece K))
    (text : Text) :
    cut? (ps ++ qs) text =
      (cut? ps text).bind fun (ls, rest) =>
        (cut? qs rest).map fun (ms, rest) => (ls ++ ms, rest) := by
  induction ps generalizing text with
  | nil =>
      cases h : cut? qs text <;> simp [cut?, h]
  | cons p ps ih =>
      rw [List.cons_append]
      rw [cut?]
      rw [cut?]
      cases text.splitAt? p.length with
      | none => rfl
      | some cut =>
          dsimp only [Option.bind_eq_bind, Option.bind_some]
          rw [ih]
          cases cut? ps cut.2 with
          | none => rfl
          | some cuts =>
              cases h : cut? qs cuts.2 <;> simp [h]

/-- Past a first cut, a text is cut where its rest is. -/
theorem splitAt?_rest_isSome
    {m n : Nat}
    {s rest : Text}
    (hs : s.size = m)
    (h : (Text.splitAt? (m + n) (s ++ rest)).isSome) :
    (Text.splitAt? n rest).isSome := by
  obtain ⟨⟨u, v⟩, huv⟩ := Option.isSome_iff_exists.mp h
  obtain ⟨happend, hsize⟩ := Text.splitAt?_eq_some huv
  rcases List.append_eq_append_iff.mp happend with ⟨w, rfl, rfl⟩ | ⟨w, rfl, rfl⟩
  · have hw : Text.size w = n := by
      rw [Text.size_append] at hsize
      omega
    rw [← hw]
    rw [Text.splitAt?_size_append]
    rfl
  · have hw : n = 0 := by
      rw [Text.size_append] at hs
      omega
    rw [hw]
    rw [Text.splitAt?_zero]
    rfl

/-- Fitting pieces cut the whole text. -/
theorem Fit.exists_cut
    {ps : List (Piece K)}
    {text : Text}
    (h : Fit ps text) :
    ∃ ls, cut? ps text = some (ls, []) := by
  induction ps generalizing text with
  | nil =>
      have hsize : text.size = 0 := h.2.symm
      obtain rfl := Text.size_eq_zero_iff.mp hsize
      exact ⟨[], rfl⟩
  | cons p ps ih =>
      have hfirst : (text.splitAt? p.length).isSome := by
        have hp := h.1 [p] (by simp)
        simpa [total] using hp
      obtain ⟨⟨s, rest⟩, hs⟩ := Option.isSome_iff_exists.mp hfirst
      obtain ⟨rfl, hsize⟩ := Text.splitAt?_eq_some hs
      have hrest : Fit ps rest := by
        constructor
        · intro qs hqs
          apply splitAt?_rest_isSome hsize
          exact h.1 (p :: qs) (List.prefix_cons_inj p |>.mpr hqs)
        · have htotal := h.2
          rw [total] at htotal
          rw [Text.size_append] at htotal
          omega
      obtain ⟨ls, hls⟩ := ih hrest
      refine ⟨⟨p.kind, s⟩ :: ls, ?_⟩
      rw [cut?]
      rw [hs]
      dsimp only [Option.bind_eq_bind, Option.bind_some]
      rw [hls]
      rfl

theorem total_map_piece (ls : List (Lexeme K)) :
    total (ls.map Lexeme.piece) = (textOf ls).size := by
  induction ls with
  | nil => rfl
  | cons l ls ih =>
      rw [List.map_cons]
      rw [total]
      rw [ih]
      rw [textOf, textOf]
      rw [List.flatMap_cons]
      rw [Text.size_append]
      rfl

/-- Pieces fit a text exactly if they cut the whole of it. -/
theorem fit_iff
    {ps : List (Piece K)}
    {text : Text} :
    Fit ps text ↔ ∃ ls, cut? ps text = some (ls, []) := by
  constructor
  · exact Fit.exists_cut
  · rintro ⟨ls, hls⟩
    obtain ⟨rfl, htext⟩ := cut?_eq_some_iff.mp hls
    rw [List.append_nil] at htext
    subst htext
    refine ⟨?_, total_map_piece ls⟩
    intro qs hqs
    obtain ⟨rest, hrest⟩ := hqs
    obtain ⟨ms, ns, rfl, rfl, -⟩ := List.map_eq_append_iff.mp hrest.symm
    rw [total_map_piece]
    rw [textOf, textOf]
    rw [List.flatMap_append]
    rw [Text.splitAt?_size_append]
    rfl

instance (ps : List (Piece K)) (text : Text) : Decidable (Fit ps text) :=
  match h : cut? ps text with
  | some (ls, []) => .isTrue (fit_iff.mpr ⟨ls, h⟩)
  | some (_, _ :: _) => .isFalse fun hfit => by
      obtain ⟨ms, hms⟩ := fit_iff.mp hfit
      simp [h] at hms
  | none => .isFalse fun hfit => by
      obtain ⟨ms, hms⟩ := fit_iff.mp hfit
      simp [h] at hms

end Piece
end ZigCst
