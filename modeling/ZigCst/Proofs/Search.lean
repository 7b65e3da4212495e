import ZigCst.Proofs.Links
import ZigCst.Tree.Search

/-!
# Searching by position

The tokens of a node stand in order, so a position cuts them in two: those that end at it
or before, and those that end behind it.  The search looks at both sides of the cut.  The
token behind the cut is the only one that holds the byte at the position, and a range that
begins there is covered by that token or by nodes above it alone.

**Definitions.**
* `Node.Cut`: the tokens of a node, cut at a position.
* `Node.Locates`: what a search by position says about the tokens of a node.
* `Element.ancestors`: the nodes on the way up from an element.
* `Node.LeastCover`: the smallest element of a node that covers a range.

**Results.**
* `Node.exists_cut`, `Node.Cut.takeWhile_eq`: there is one cut, and the search finds it.
* `Node.tokenAt_eq`: the search by the two sides of the cut.
* `Node.locates_tokenAt`: the search agrees with a look at all tokens.
* `Node.covering?_least`: the smallest cover of a range that is not empty.
-/

namespace ZigCst

section Search

variable {K : Type}

/-! ## Tokens in order -/

section Order

variable {n : Node K} {l t : Leaf K} {before after : List (Leaf K)}

theorem Leaf.start_le_stop (l : Leaf K) : l.range.start ≤ l.range.stop := Nat.le_add_right _ _

/-- A token stands behind the text of those before it, and the text of those behind it
fills the rest of the node. -/
theorem Node.range_eq_of_split (h : n.tokens = before ++ l :: after) :
    l.range.start = n.range.start + (textOf (before.map Leaf.toLexeme)).size ∧
      n.range.stop = l.range.stop + (textOf (after.map Leaf.toLexeme)).size := by
  have hlocated := n.map_located_tokens
  have hlexemes := n.map_toLexeme_tokens
  rw [h, List.map_append, List.map_cons] at hlexemes
  rw [h, List.map_append, List.map_cons, ← hlexemes, locate_append, locate] at hlocated
  have hlength : (before.map Leaf.located).length =
      (locate n.place.bytes (before.map Leaf.toLexeme)).length := by
    rw [List.length_map, ← List.length_map Located.toLexeme, map_toLexeme_locate, List.length_map]
  have hself : l.located =
      ⟨l.toLexeme, n.place.bytes + (textOf (before.map Leaf.toLexeme)).size⟩ :=
    (List.cons.inj (List.append_inj_right hlocated hlength)).1
  have hstart : l.range.start = n.range.start + (textOf (before.map Leaf.toLexeme)).size :=
    congrArg Located.start hself
  refine ⟨hstart, ?_⟩
  have hbytes : n.extent.bytes = (textOf (before.map Leaf.toLexeme)).size +
      (l.text.size + (textOf (after.map Leaf.toLexeme)).size) := by
    rw [← Text.size_append, ← Text.size_append]
    have htext := congrArg textOf hlexemes
    rw [textOf_append, textOf_cons] at htext
    exact (Tree.bytes_extents n.children).trans (congrArg Text.size htext.symm)
  have hstop : l.range.stop = l.range.start + l.text.size := rfl
  have hnode : n.range.stop = n.range.start + n.extent.bytes := rfl
  omega

/-- A token ends where the next one starts. -/
theorem Node.stop_eq_start_of_split (h : n.tokens = before ++ l :: t :: after) :
    l.range.stop = t.range.start := by
  have hl := (range_eq_of_split h).1
  rw [← List.singleton_append, ← List.append_assoc] at h
  have ht := (range_eq_of_split h).1
  have hsize : (textOf ((before ++ [l]).map Leaf.toLexeme)).size =
      (textOf (before.map Leaf.toLexeme)).size + l.text.size := by
    rw [List.map_append, textOf_append, Text.size_append, List.map_singleton, textOf_cons]
    simp [textOf]
  have hstop : l.range.stop = l.range.start + l.text.size := rfl
  omega

theorem Node.pairwise_tokens (n : Node K) :
    n.tokens.Pairwise fun l m => l.range.stop ≤ m.range.start := by
  have hpairwise := pairwise_locate n.place.bytes (Tree.allLexemes n.children)
  rw [← map_located_tokens, List.pairwise_map] at hpairwise
  exact hpairwise

/-- The tokens of a node lie in its range. -/
theorem Node.le_of_mem_tokens (h : l ∈ n.tokens) :
    n.range.start ≤ l.range.start ∧ l.range.stop ≤ n.range.stop := by
  obtain ⟨before, after, hsplit⟩ := List.append_of_mem h
  obtain ⟨hstart, hstop⟩ := range_eq_of_split hsplit
  omega

/-- At most one token of a node holds the byte at a position. -/
theorem Node.eq_of_mem_tokens
    {o : Nat}
    (hl : l ∈ n.tokens)
    (ht : t ∈ n.tokens)
    (hlo : l.range.start ≤ o ∧ o < l.range.stop)
    (hto : t.range.start ≤ o ∧ o < t.range.stop) :
    l = t := by
  obtain ⟨before, after, hsplit⟩ := List.append_of_mem hl
  have hpairwise := n.pairwise_tokens
  rw [hsplit, List.pairwise_append, List.pairwise_cons] at hpairwise
  obtain ⟨-, ⟨hafter, -⟩, hbefore⟩ := hpairwise
  rw [hsplit, List.mem_append, List.mem_cons] at ht
  rcases ht with ht | rfl | ht
  · have hle := hbefore t ht l List.mem_cons_self
    omega
  · rfl
  · have hle := hafter t ht
    omega

end Order

/-! ## Cuts -/

section Cuts

variable {n : Node K} {o : Nat} {lead rest : List (Leaf K)}

/-- The tokens of a node, cut at a position. -/
structure Node.Cut (n : Node K) (o : Nat) (lead rest : List (Leaf K)) : Prop where
  tokens : n.tokens = lead ++ rest
  before : ∀ l ∈ lead, l.range.stop ≤ o
  behind : ∀ l ∈ rest, o < l.range.stop

/-- A position cuts the tokens of every node. -/
theorem Node.exists_cut
    (n : Node K)
    (o : Nat) :
    ∃ lead rest, n.Cut o lead rest := by
  have hall : ∀ ls : List (Leaf K), ls.Pairwise (fun l m => l.range.stop ≤ m.range.start) →
      ∃ lead rest, ls = lead ++ rest ∧ (∀ l ∈ lead, l.range.stop ≤ o) ∧
        ∀ l ∈ rest, o < l.range.stop := by
    intro ls hls
    induction hls with
    | nil => exact ⟨[], [], rfl, by simp, by simp⟩
    | @cons l ls hl hls ih =>
        obtain ⟨lead, rest, rfl, hlead, hrest⟩ := ih
        rcases Nat.lt_or_ge o l.range.stop with hbehind | hbefore
        · refine ⟨[], l :: (lead ++ rest), rfl, by simp, ?_⟩
          refine List.forall_mem_cons.mpr ⟨hbehind, fun m hm => ?_⟩
          have hle := hl m hm
          have hm := m.start_le_stop
          omega
        · exact ⟨l :: lead, rest, rfl, List.forall_mem_cons.mpr ⟨hbefore, hlead⟩, hrest⟩
  obtain ⟨lead, rest, htokens, hlead, hrest⟩ := hall n.tokens n.pairwise_tokens
  exact ⟨lead, rest, htokens, hlead, hrest⟩

/-- The search stops at the cut. -/
theorem Node.Cut.takeWhile_eq (h : n.Cut o lead rest) :
    n.tokens.takeWhile (fun l => decide (l.range.stop ≤ o)) = lead ∧
      n.tokens.dropWhile (fun l => decide (l.range.stop ≤ o)) = rest := by
  have hlead : ∀ l ∈ lead, decide (l.range.stop ≤ o) = true := fun l hl =>
    decide_eq_true (h.before l hl)
  rw [h.tokens, List.takeWhile_append_of_pos hlead, List.dropWhile_append_of_pos hlead]
  cases rest with
  | nil => simp
  | cons r rest =>
      have hr : ¬ r.range.stop ≤ o := Nat.not_le_of_gt (h.behind r List.mem_cons_self)
      simp [hr]

/-- A token that starts at a position and goes on behind it is the first one behind the
cut. -/
theorem Node.cut_of_start
    {t : Leaf K}
    (h : n.tokens = lead ++ t :: rest)
    (hstart : t.range.start = o)
    (hstop : o < t.range.stop) :
    n.Cut o lead (t :: rest) := by
  have hpairwise := n.pairwise_tokens
  rw [h, List.pairwise_append, List.pairwise_cons] at hpairwise
  obtain ⟨-, ⟨hbehind, -⟩, hbefore⟩ := hpairwise
  refine ⟨h, fun l hl => ?_, List.forall_mem_cons.mpr ⟨hstop, fun l hl => ?_⟩⟩
  · exact hstart ▸ hbefore l hl t List.mem_cons_self
  · have hle := hbehind l hl
    have hl := l.start_le_stop
    omega

/-- What a search takes from the two sides of a cut. -/
def AtOffset.ofCut (o : Nat) (lead rest : List (Leaf K)) : AtOffset K :=
  match lead.getLast?, rest with
  | Option.none, [] => .none
  | some l, [] => .single l
  | Option.none, r :: _ => .single r
  | some l, r :: _ => if r.range.start = o then .between l r else .single r

@[simp]
theorem AtOffset.ofCut_concat_nil
    (o : Nat)
    (lead : List (Leaf K))
    (l : Leaf K) :
    ofCut o (lead ++ [l]) [] = .single l := by
  simp [ofCut]

@[simp]
theorem AtOffset.ofCut_concat_cons
    (o : Nat)
    (lead rest : List (Leaf K))
    (l r : Leaf K) :
    ofCut o (lead ++ [l]) (r :: rest) =
      if r.range.start = o then .between l r else .single r := by
  simp [ofCut]

theorem AtOffset.right?_ofCut_cons
    (o : Nat)
    (lead rest : List (Leaf K))
    (r : Leaf K) :
    (ofCut o lead (r :: rest)).right? = some r := by
  rcases List.eq_nil_or_concat lead with rfl | ⟨lead, l, rfl⟩
  · rfl
  · rw [List.concat_eq_append, ofCut_concat_cons]
    split <;> rfl

theorem Node.tokenAt_of_outside
    (h : o < n.range.start ∨ n.range.stop < o) :
    n.tokenAt o = .none := by
  have hreaches : n.range.reaches o = false := by
    rw [Range.reaches, Bool.and_eq_false_iff, decide_eq_false_iff_not, decide_eq_false_iff_not]
    omega
  rw [tokenAt, hreaches]
  rfl

theorem Node.tokenAt_eq
    (h : n.Cut o lead rest)
    (hstart : n.range.start ≤ o)
    (hstop : o ≤ n.range.stop) :
    n.tokenAt o = .ofCut o lead rest := by
  have hreaches : n.range.reaches o = true := by
    rw [Range.reaches, Bool.and_eq_true, decide_eq_true_eq, decide_eq_true_eq]
    exact ⟨hstart, hstop⟩
  obtain ⟨htake, hdrop⟩ := h.takeWhile_eq
  rw [tokenAt, if_pos hreaches]
  dsimp only
  rw [htake, hdrop]
  rfl

/-- The first token behind the cut starts at the position or before. -/
theorem Node.Cut.start_le
    {r : Leaf K}
    (h : n.Cut o lead (r :: rest))
    (hstart : n.range.start ≤ o) :
    r.range.start ≤ o := by
  rcases List.eq_nil_or_concat lead with rfl | ⟨lead, l, rfl⟩
  · have hfirst : r.range.start = n.range.start + 0 := (range_eq_of_split h.tokens).1
    omega
  · have hl := h.before l (by simp)
    have hsplit := h.tokens
    rw [List.concat_eq_append, List.append_assoc, List.singleton_append] at hsplit
    rw [← stop_eq_start_of_split hsplit]
    exact hl

/-- With nothing behind the cut, the position is the end of the last token or behind it. -/
theorem Node.Cut.stop_le
    {l : Leaf K}
    (h : n.Cut o (lead ++ [l]) []) :
    n.range.stop = l.range.stop ∧ n.range.stop ≤ o := by
  have hl := h.before l (by simp)
  have hsplit := h.tokens
  rw [List.append_nil] at hsplit
  have hlast : n.range.stop = l.range.stop + 0 := (range_eq_of_split hsplit).2
  omega

end Cuts

/-! ## The search at a position -/

section Locating

variable {n : Node K} {o : Nat} {a : AtOffset K}

/-- What a search by position says about the tokens of a node. -/
structure Node.Locates (n : Node K) (o : Nat) (a : AtOffset K) : Prop where
  none_iff : a = .none ↔ o < n.range.start ∨ n.range.stop < o ∨ n.tokens = []
  touches : ∀ t ∈ a.toList, t ∈ n.tokens ∧ t.range.start ≤ o ∧ o ≤ t.range.stop
  /-- Before the end of the node, the right token is the only one around the byte. -/
  right : n.range.start ≤ o → o < n.range.stop → ∃ t, a.right? = some t ∧
    ∀ u, u ∈ n.tokens ∧ u.range.start ≤ o ∧ o < u.range.stop ↔ u = t
  /-- Two tokens are found where the right one starts right behind another. -/
  between_iff : ∀ l t, a = .between l t ↔ t.range.start = o ∧ o < t.range.stop ∧
    ∃ before after, n.tokens = before ++ l :: t :: after
  last : o = n.range.stop → ∀ l ∈ n.tokens.getLast?, a = .single l

theorem Node.tokenAt_of_between
    {l t : Leaf K}
    {before after : List (Leaf K)}
    (h : n.tokens = before ++ l :: t :: after)
    (hstart : t.range.start = o)
    (hstop : o < t.range.stop) :
    n.tokenAt o = .between l t := by
  have hmem : t ∈ n.tokens := by simp [h]
  obtain ⟨hfirst, hlast⟩ := le_of_mem_tokens hmem
  rw [← List.singleton_append, ← List.append_assoc] at h
  rw [tokenAt_eq (cut_of_start h hstart hstop) (by omega) (by omega),
    AtOffset.ofCut_concat_cons, if_pos hstart]

/-- The token to the right of a position before the end of a node. -/
theorem Node.exists_right?_tokenAt
    (hstart : n.range.start ≤ o)
    (hstop : o < n.range.stop) :
    ∃ t, (n.tokenAt o).right? = some t ∧
      ∀ u, u ∈ n.tokens ∧ u.range.start ≤ o ∧ o < u.range.stop ↔ u = t := by
  obtain ⟨lead, rest, hcut⟩ := n.exists_cut o
  rw [tokenAt_eq hcut hstart (Nat.le_of_lt hstop)]
  cases rest with
  | nil =>
      -- something stands before the end of the node, so that something ends behind the cut
      rcases List.eq_nil_or_concat lead with rfl | ⟨lead, l, rfl⟩
      · have hnone : Tree.allLexemes n.children = [] := by
          rw [← n.map_toLexeme_tokens, hcut.tokens]
          rfl
        have hbytes : n.range.stop = n.range.start + (textOf (Tree.allLexemes n.children)).size :=
          congrArg (n.range.start + ·) (Tree.bytes_extents n.children)
        rw [hnone] at hbytes
        simp only [textOf, List.flatMap_nil, Text.size_nil] at hbytes
        omega
      · rw [List.concat_eq_append] at hcut
        have hle := hcut.stop_le.2
        omega
  | cons r rest =>
      have hmem : r ∈ n.tokens := by simp [hcut.tokens]
      have hr : r.range.start ≤ o ∧ o < r.range.stop :=
        ⟨hcut.start_le hstart, hcut.behind r List.mem_cons_self⟩
      refine ⟨r, AtOffset.right?_ofCut_cons .., fun u => ?_⟩
      constructor
      · rintro ⟨hu, huo⟩
        exact eq_of_mem_tokens hu hmem huo hr
      · rintro rfl
        exact ⟨hmem, hr⟩

/-- What a search by position can find. -/
inductive Node.Found (n : Node K) (o : Nat) : AtOffset K → Prop where
  | outside (h : o < n.range.start ∨ n.range.stop < o) : Found n o .none
  | empty (h : n.tokens = []) : Found n o .none
  | last {lead : List (Leaf K)} {l : Leaf K} (h : n.tokens = lead ++ [l])
      (hstop : l.range.stop = o) : Found n o (.single l)
  | inside {t : Leaf K} (h : t ∈ n.tokens) (hstart : t.range.start ≤ o)
      (hstop : o < t.range.stop) : Found n o (.single t)
  | between {before after : List (Leaf K)} {l t : Leaf K}
      (h : n.tokens = before ++ l :: t :: after) (hstart : t.range.start = o)
      (hstop : o < t.range.stop) : Found n o (.between l t)

theorem Node.found_tokenAt
    (n : Node K)
    (o : Nat) :
    n.Found o (n.tokenAt o) := by
  by_cases hout : o < n.range.start ∨ n.range.stop < o
  · rw [tokenAt_of_outside hout]
    exact .outside hout
  obtain ⟨hstart, hstop⟩ : n.range.start ≤ o ∧ o ≤ n.range.stop := by omega
  obtain ⟨lead, rest, hcut⟩ := n.exists_cut o
  rw [tokenAt_eq hcut hstart hstop]
  cases rest with
  | nil =>
      rcases List.eq_nil_or_concat lead with rfl | ⟨lead, l, rfl⟩
      · exact .empty hcut.tokens
      · rw [List.concat_eq_append] at hcut ⊢
        rw [AtOffset.ofCut_concat_nil]
        obtain ⟨hlast, hle⟩ := hcut.stop_le
        exact .last (hcut.tokens.trans (List.append_nil _)) (by omega)
  | cons r rest =>
      have hmem : r ∈ n.tokens := by simp [hcut.tokens]
      have hinside : n.Found o (.single r) :=
        .inside hmem (hcut.start_le hstart) (hcut.behind r List.mem_cons_self)
      rcases List.eq_nil_or_concat lead with rfl | ⟨lead, l, rfl⟩
      · exact hinside
      · rw [List.concat_eq_append] at hcut ⊢
        rw [AtOffset.ofCut_concat_cons]
        split
        · rename_i heq
          have hsplit := hcut.tokens
          rw [List.append_assoc, List.singleton_append] at hsplit
          exact .between hsplit heq (hcut.behind r List.mem_cons_self)
        · exact hinside

/-- All tokens found stand around the position. -/
theorem Node.Found.touches
    (h : n.Found o a) :
    ∀ t ∈ a.toList, t ∈ n.tokens ∧ t.range.start ≤ o ∧ o ≤ t.range.stop := by
  cases h with
  | outside h => simp [AtOffset.toList]
  | empty h => simp [AtOffset.toList]
  | @last lead l h hstop =>
      rw [AtOffset.toList, List.forall_mem_singleton]
      have hl := l.start_le_stop
      exact ⟨by simp [h], by omega, by omega⟩
  | @inside t h hstart hstop =>
      rw [AtOffset.toList, List.forall_mem_singleton]
      exact ⟨h, hstart, Nat.le_of_lt hstop⟩
  | @between before after l t h hstart hstop =>
      rw [AtOffset.toList, List.forall_mem_cons, List.forall_mem_singleton]
      have hl := l.start_le_stop
      have hadjacent := stop_eq_start_of_split h
      exact ⟨⟨by simp [h], by omega, by omega⟩, by simp [h], by omega, by omega⟩

/-- A token around a position is one of a node that the position does not miss. -/
theorem Node.not_outside
    {t : Leaf K}
    (ht : t ∈ n.tokens)
    (hstart : t.range.start ≤ o)
    (hstop : o ≤ t.range.stop) :
    ¬ (o < n.range.start ∨ n.range.stop < o ∨ n.tokens = []) := by
  obtain ⟨hfirst, hlast⟩ := le_of_mem_tokens ht
  rintro (h | h | h)
  · omega
  · omega
  · rw [h] at ht
    exact List.not_mem_nil ht

theorem Node.Found.none_iff
    (h : n.Found o a) :
    a = .none ↔ o < n.range.start ∨ n.range.stop < o ∨ n.tokens = [] := by
  have htouches := h.touches
  constructor
  · rintro rfl
    cases h with
    | outside h => exact h.imp id .inl
    | empty h => exact .inr (.inr h)
  · intro hout
    cases a with
    | none => rfl
    | single t =>
        obtain ⟨ht, hstart, hstop⟩ := htouches t List.mem_cons_self
        exact absurd hout (not_outside ht hstart hstop)
    | between l t =>
        obtain ⟨hl, hstart, hstop⟩ := htouches l List.mem_cons_self
        exact absurd hout (not_outside hl hstart hstop)

/-- The end of a node belongs to its last token. -/
theorem Node.Found.eq_last
    {l : Leaf K}
    (h : n.Found n.range.stop a)
    (hl : l ∈ n.tokens.getLast?) :
    a = .single l := by
  have hmem : l ∈ n.tokens := List.mem_of_getLast? hl
  have hnotBehind : ∀ t ∈ n.tokens, ¬ n.range.stop < t.range.stop := fun t ht =>
    Nat.not_lt_of_le (le_of_mem_tokens ht).2
  cases h with
  | outside h =>
      obtain ⟨hfirst, hlast⟩ := le_of_mem_tokens hmem
      have hself := l.start_le_stop
      omega
  | empty h =>
      rw [h] at hmem
      exact absurd hmem List.not_mem_nil
  | last h hstop =>
      rw [h, List.getLast?_concat] at hl
      rw [Option.some.inj hl]
  | inside h hstart hstop => exact absurd hstop (hnotBehind _ h)
  | @between before after l' t h hstart hstop => exact absurd hstop (hnotBehind t (by simp [h]))

/-- **The search by position agrees with a look at all tokens**, for every node and every
position.  It finds nothing outside the node and in a node without tokens; what it finds
are tokens of the node around the position; before the end of the node, the right one is
the only token that holds the byte there, and the left one is the token before it, if the
right one begins at the position; at the end it finds the last token. -/
theorem Node.locates_tokenAt
    (n : Node K)
    (o : Nat) :
    n.Locates o (n.tokenAt o) where
  none_iff := (n.found_tokenAt o).none_iff
  touches := (n.found_tokenAt o).touches
  right := exists_right?_tokenAt
  between_iff := fun l t => by
    constructor
    · intro heq
      have hfound := n.found_tokenAt o
      rw [heq] at hfound
      cases hfound with
      | between h hstart hstop => exact ⟨hstart, hstop, _, _, h⟩
    · rintro ⟨hstart, hstop, before, after, h⟩
      exact tokenAt_of_between h hstart hstop
  last := by
    rintro rfl l hl
    exact (n.found_tokenAt _).eq_last hl

end Locating

/-! ## The smallest cover -/

section Covering

/-- The nodes on the way up from an element, the element itself included. -/
def Element.ancestors : Element K → List (Node K)
  | .node n => n.ancestors
  | .token l => l.parent.ancestors

variable {n m : Node K} {r : Range}

/-- The smallest element of a node that covers a range. -/
structure Node.LeastCover (n : Node K) (r : Range) (e : Element K) : Prop where
  node : ∀ m, e = .node m → m ∈ n.descendants
  token : ∀ l, e = .token l → l ∈ n.tokens
  covers : e.range.covers r = true
  least : ∀ m ∈ n.descendants, m.range.covers r = true → m ∈ e.ancestors
  token_of_covers : ∀ l ∈ n.tokens, l.range.covers r = true → e = .token l

theorem Range.covers_iff {r s : Range} :
    r.covers s = true ↔ r.start ≤ s.start ∧ s.stop ≤ r.stop := by
  rw [covers, Bool.and_eq_true, decide_eq_true_eq, decide_eq_true_eq]

/-- Every node that covers a range has the token that holds the first byte of it. -/
theorem Node.mem_tokens_of_covers
    {l : Leaf K}
    (hr : r.start < r.stop)
    (hl : l ∈ n.tokens)
    (hstart : l.range.start ≤ r.start)
    (hstop : r.start < l.range.stop)
    (hm : m ∈ n.descendants)
    (hcovers : m.range.covers r = true) :
    l ∈ m.tokens := by
  obtain ⟨hmstart, hmstop⟩ := Range.covers_iff.mp hcovers
  obtain ⟨t, -, ht⟩ := exists_right?_tokenAt hmstart (hr.trans_le hmstop)
  obtain ⟨htm, hto⟩ := (ht t).mpr rfl
  rw [eq_of_mem_tokens hl (mem_tokens_of_mem_descendants hm htm) ⟨hstart, hstop⟩ hto]
  exact htm

/-- The first node on the way up from a token that covers a range is the smallest one. -/
theorem Node.mem_ancestors_of_find?
    {l : Leaf K}
    {a : Node K}
    (hl : l ∈ m.tokens)
    (hcovers : m.range.covers r = true)
    (ha : (l.parent.ancestors.find? fun a => a.range.covers r) = some a) :
    m ∈ a.ancestors := by
  obtain ⟨-, before, after, hsplit, hbefore⟩ := List.find?_eq_some_iff_append.mp ha
  have hm : m ∈ l.parent.ancestors := mem_ancestors_of_mem_descendants (mem_of_mem_tokens hl).1
  rw [ancestors_eq_of_append hsplit]
  rw [hsplit, List.mem_append] at hm
  rcases hm with hm | hm
  · have hnot := hbefore m hm
    rw [hcovers] at hnot
    cases hnot
  · exact hm

/-- The way up finds a cover before it leaves a node that is one. -/
theorem Node.exists_find?_ancestors
    (hm : m ∈ n.descendants)
    (hcovers : n.range.covers r = true) :
    ∃ a ∈ n.descendants, (m.ancestors.find? fun a => a.range.covers r) = some a := by
  obtain ⟨path, hpath, hbelow⟩ := exists_ancestors_eq hm
  rw [hpath, List.find?_append]
  cases hfind : path.find? fun a => a.range.covers r with
  | some a => exact ⟨a, hbelow a (List.mem_of_find?_eq_some hfind), rfl⟩
  | none =>
      refine ⟨n, n.mem_descendants_self, ?_⟩
      exact List.find?_cons_of_pos (p := fun a : Node K => a.range.covers r) hcovers

theorem Node.exists_covering?
    (hr : r.start < r.stop)
    (hcovers : n.range.covers r = true) :
    ∃ e, n.covering? r = some e ∧ n.LeastCover r e := by
  obtain ⟨hstart, hstop⟩ := Range.covers_iff.mp hcovers
  obtain ⟨l, hright, hunique⟩ := exists_right?_tokenAt hstart (hr.trans_le hstop)
  obtain ⟨hl, hlstart, hlstop⟩ := (hunique l).mpr rfl
  have hmem : ∀ m ∈ n.descendants, m.range.covers r = true → l ∈ m.tokens := fun m hm =>
    mem_tokens_of_covers hr hl hlstart hlstop hm
  have honly : ∀ t ∈ n.tokens, t.range.covers r = true → t = l := by
    intro t ht htcovers
    obtain ⟨htstart, htstop⟩ := Range.covers_iff.mp htcovers
    exact (hunique t).mp ⟨ht, htstart, hr.trans_le htstop⟩
  rw [covering?, if_pos hcovers, hright]
  dsimp only
  cases hlcovers : l.range.covers r with
  | true =>
      refine ⟨.token l, rfl, ?_⟩
      exact {
        node := fun m heq => by cases heq
        token := fun t heq => Element.token.inj heq ▸ hl
        covers := hlcovers
        least := fun m hm hmcovers =>
          mem_ancestors_of_mem_descendants (mem_of_mem_tokens (hmem m hm hmcovers)).1
        token_of_covers := fun t ht htcovers => by rw [honly t ht htcovers] }
  | false =>
      obtain ⟨a, ha, hfind⟩ := exists_find?_ancestors (mem_of_mem_tokens hl).1 hcovers
      refine ⟨.node a, by rw [hfind]; rfl, ?_⟩
      exact {
        node := fun m heq => Element.node.inj heq ▸ ha
        token := fun t heq => by cases heq
        covers := (List.find?_eq_some_iff_append.mp hfind).1
        least := fun m hm hmcovers => mem_ancestors_of_find? (hmem m hm hmcovers) hmcovers hfind
        token_of_covers := fun t ht htcovers => by
          rw [honly t ht htcovers, hlcovers] at htcovers
          cases htcovers }

/-- **The smallest cover.**  A node has a covering element for a range that is not empty
exactly if the range lies in it; the element lies in the node too, every node of it that
covers the range is the element or stands above it, and it is a token if there is one that
covers the range. -/
theorem Node.covering?_least
    (n : Node K)
    {r : Range}
    (hr : r.start < r.stop) :
    (n.covering? r = none ↔ n.range.covers r = false) ∧
      ∀ e, n.covering? r = some e → n.LeastCover r e := by
  cases hcovers : n.range.covers r with
  | true =>
      obtain ⟨e, he, hleast⟩ := exists_covering? hr hcovers
      rw [he]
      refine ⟨by simp, fun e' heq => ?_⟩
      exact Option.some.inj heq ▸ hleast
  | false =>
      have hnone : n.covering? r = none := by
        rw [covering?, hcovers]
        rfl
      rw [hnone]
      exact ⟨by simp, by simp⟩

/-- A tree whose nodes stand between tokens, one of them empty. -/
def mixedRoot : Root Zon.Kind :=
  ⟨.file, [.token .whitespace [' '], .node .struct [.node .entry [], .token .comma [','],
    .node .entry [.token .integer ['1']]]]⟩

/-- Two neighbouring children have no smaller cover than their parent. -/
theorem covering?_least_of_children :
    (1 : Nat) < 3 ∧ ∃ m, mixedRoot.node.covering? ⟨1, 3⟩ = some (.node m) ∧ m.kind = .struct ∧
      mixedRoot.node.LeastCover ⟨1, 3⟩ (.node m) := by
  have hlt : (1 : Nat) < 3 := by omega
  have hfound : mixedRoot.node.covering? ⟨1, 3⟩ = some (.node
      ⟨⟨⟨1, 1, 1⟩, .struct, [.node .entry [], .token .comma [','],
        .node .entry [.token .integer ['1']]], 1⟩, [mixedRoot.node.toSpot]⟩) := rfl
  exact ⟨hlt, _, hfound, rfl, (mixedRoot.node.covering?_least hlt).2 _ hfound⟩

end Covering
end Search
end ZigCst
