import ZigCst.Proofs.Outline
import ZigCst.Proofs.ZigForms

/-!
# Brackets of a file without a fault

A list of children opens and closes brackets one after another.  What it does to the
brackets that are open can be read off a pattern: alternatives have to agree, and what
may be repeated has to leave them as they are.  Where there is no fault, every pattern of
a node closes what it opens.  The brackets of a node below stand between two brackets of
the node around it, so the brackets of the whole file are nested, and those that belong
together are children of one node.

Inline assembly has no pattern, and its own tokens are left out.

**Definitions.**
* `Nested`: brackets that are closed in reverse order, each next to its sibling.
* `Effect`, `effect`: what a pattern does to open brackets.
* `Closes`: brackets that close those which are open.

**Results.**
* `covers_of_matches`: what is read off a pattern holds of all that matches it.
* `effect_of`: the patterns of all kinds close what they open.
* `exists_parse_nested`: the brackets of a file without a diagnostic are nested.
-/

namespace ZigCst
namespace Zig

open Pattern

/-! ## Brackets -/

/-- The bracket that closes another one. -/
def closing? : Kind → Option Kind
  | .leftParen => some .rightParen
  | .leftBracket => some .rightBracket
  | .leftBrace => some .rightBrace
  | _ => none

def bracketKinds : List Kind :=
  [.leftParen, .rightParen, .leftBracket, .rightBracket, .leftBrace, .rightBrace]

/-- Whether a token is a bracket, but not one of inline assembly. -/
def isBracket (l : Leaf Kind) : Bool :=
  bracketKinds.contains l.kind && l.parent.kind != .asmExpr

/-- Whether a bracket closes another one, and both are children of one node. -/
def Mates (first last : Leaf Kind) : Prop :=
  closing? first.kind = some last.kind ∧
    ∃ n : Node Kind, first ∈ n.childTokens ∧ last ∈ n.childTokens

/-- Whether every bracket has its mate, with nested brackets between them. -/
inductive Nested : List (Leaf Kind) → Prop
  | nil : Nested []
  | pair {first last : Leaf Kind} {inner rest : List (Leaf Kind)} :
      Mates first last → Nested inner → Nested rest → Nested (first :: (inner ++ last :: rest))

theorem Nested.append
    {xs ys : List (Leaf Kind)}
    (hxs : Nested xs)
    (hys : Nested ys) :
    Nested (xs ++ ys) := by
  induction hxs with
  | nil => exact hys
  | pair hmates hinner _ _ ih =>
      rw [List.cons_append, List.append_assoc, List.cons_append]
      exact .pair hmates hinner ih

/-- Whether brackets close those which are open, the last first, with nested brackets
before, between and behind them. -/
def Closes : List (Leaf Kind) → List (Leaf Kind) → Prop
  | [], xs => Nested xs
  | first :: stack, xs =>
      ∃ inner last rest, xs = inner ++ last :: rest ∧ Mates first last ∧ Nested inner ∧
        Closes stack rest

theorem Closes.append
    {stack xs ys : List (Leaf Kind)}
    (hys : Nested ys)
    (h : Closes stack xs) :
    Closes stack (ys ++ xs) := by
  cases stack with
  | nil => exact hys.append h
  | cons first stack =>
      obtain ⟨inner, last, rest, rfl, hmates, hinner, hrest⟩ := h
      exact ⟨ys ++ inner, last, rest, by simp, hmates, hys.append hinner, hrest⟩

/-- One bracket less is open in front of the one that is opened last. -/
theorem Closes.opened
    {first : Leaf Kind}
    {stack xs : List (Leaf Kind)}
    (h : Closes (first :: stack) xs) :
    Closes stack (first :: xs) := by
  obtain ⟨inner, last, rest, rfl, hmates, hinner, hrest⟩ := h
  have hpair : Nested (first :: (inner ++ [last])) := .pair hmates hinner .nil
  simpa using hrest.append hpair

/-! ## What a pattern does to open brackets -/

/-- The brackets that are open behind a token, the last first.  A bracket may only close
the last one. -/
def bracket (stack : List Kind) (kind : Kind) : Option (List Kind) :=
  if bracketKinds.contains kind then
    if (closing? kind).isSome then some (kind :: stack)
    else
      match stack with
      | [] => none
      | opening :: stack => if closing? opening = some kind then some stack else none
  else some stack

/-- The brackets that are open behind a child. -/
def openAfter (stack : List Kind) : Shape Kind Kind → Option (List Kind)
  | .leaf kind => bracket stack kind
  | .node _ _ => some stack

/-- A token opens a bracket, closes the last one, or is none. -/
theorem bracket_cases
    {stack stack' : List Kind}
    {kind : Kind}
    (h : bracket stack kind = some stack') :
    (bracketKinds.contains kind = false ∧ stack' = stack) ∨
      (bracketKinds.contains kind = true ∧ stack' = kind :: stack) ∨
      (bracketKinds.contains kind = true ∧
        ∃ opening, stack = opening :: stack' ∧ closing? opening = some kind) := by
  unfold bracket at h
  split at h
  · rename_i hkind
    split at h
    · exact .inr (.inl ⟨hkind, (Option.some.inj h).symm⟩)
    · split at h
      · cases h
      · split at h
        · rename_i hclosing
          exact .inr (.inr ⟨hkind, _, by rw [Option.some.inj h], hclosing⟩)
        · cases h
  · rename_i hkind
    exact .inl ⟨by simpa using hkind, (Option.some.inj h).symm⟩

/-- What children do to the brackets that are open. -/
inductive Effect where
  /-- There are no such children. -/
  | never
  | leaves (stack : List Kind)
  | unknown
deriving DecidableEq

namespace Effect

/-- What one of two does. -/
def or : Effect → Effect → Effect
  | .never, e => e
  | e, .never => e
  | .leaves stack, .leaves stack' => if stack = stack' then .leaves stack else .unknown
  | _, _ => .unknown

/-- What comes behind. -/
def andThen (e : Effect) (f : List Kind → Effect) : Effect :=
  match e with
  | .never => .never
  | .leaves stack => f stack
  | .unknown => .unknown

/-- What is done any number of times. -/
def many (stack : List Kind) : Effect → Effect
  | .never => .leaves stack
  | .leaves stack' => if stack' = stack then .leaves stack else .unknown
  | .unknown => .unknown

/-- Whether children do this to the brackets that are open. -/
def Covers (e : Effect) (stack : List Kind) (ss : List (Shape Kind Kind)) : Prop :=
  match e with
  | .never => False
  | .leaves stack' => ss.foldlM openAfter stack = some stack'
  | .unknown => True

end Effect

/-- What the children that match a pattern do to the brackets that are open, if there is
no fault among them. -/
def effect : Pattern Kind → List Kind → Effect
  | .zero, _ => .never
  | .epsilon, stack => .leaves stack
  | .char (.token kind), stack => (bracket stack kind).elim .unknown .leaves
  | .char (.node _), stack => .leaves stack
  | .char .fault, _ => .never
  | .char .chain, _ => .never
  | .plus P Q, stack => (effect P stack).or (effect Q stack)
  | .comp P Q, stack => (effect P stack).andThen (effect Q)
  | .star P, stack => (effect P stack).many stack

namespace Effect

variable {e e' : Effect} {stack : List Kind} {ss : List (Shape Kind Kind)}

theorem Covers.or_left (h : e.Covers stack ss) : (e.or e').Covers stack ss := by
  cases e with
  | never => exact h.elim
  | leaves stack' =>
      cases e' with
      | never => exact h
      | leaves _ =>
          simp only [Effect.or]
          split
          · exact h
          · trivial
      | unknown => trivial
  | unknown => cases e' <;> trivial

theorem Covers.or_right (h : e'.Covers stack ss) : (e.or e').Covers stack ss := by
  cases e' with
  | never => exact h.elim
  | leaves stack' =>
      cases e with
      | never => exact h
      | leaves stack'' =>
          simp only [Effect.or]
          split
          · rename_i heq
            exact heq ▸ h
          · trivial
      | unknown => trivial
  | unknown => cases e <;> trivial

theorem Covers.andThen
    {f : List Kind → Effect}
    {ts : List (Shape Kind Kind)}
    (h : e.Covers stack ss)
    (hf : ∀ stack, (f stack).Covers stack ts) :
    (e.andThen f).Covers stack (ss ++ ts) := by
  cases e with
  | never => exact h.elim
  | leaves stack' =>
      have hbehind : (ss ++ ts).foldlM openAfter stack = ts.foldlM openAfter stack' := by
        rw [List.foldlM_append, show ss.foldlM openAfter stack = some stack' from h]
        rfl
      have hrest := hf stack'
      simp only [Effect.andThen]
      generalize f stack' = e' at hrest ⊢
      cases e' with
      | never => exact hrest.elim
      | leaves _ => exact hbehind.trans hrest
      | unknown => trivial
  | unknown => trivial

/-- What leaves the open brackets as they are may be done any number of times. -/
theorem covers_many
    {parts : List (List (Shape Kind Kind))}
    (h : ∀ part ∈ parts, e.Covers stack part) :
    (e.many stack).Covers stack parts.flatten := by
  cases e with
  | never =>
      cases parts with
      | nil => rfl
      | cons part _ => exact (h part List.mem_cons_self).elim
  | leaves stack' =>
      simp only [Effect.many]
      split
      · rename_i heq
        subst heq
        have hparts : ∀ part ∈ parts, part.foldlM openAfter stack' = some stack' := h
        clear h
        induction parts with
        | nil => rfl
        | cons part parts ih =>
            obtain ⟨hpart, hrest⟩ := List.forall_mem_cons.mp hparts
            have hfold : (part ++ parts.flatten).foldlM openAfter stack' = some stack' := by
              rw [List.foldlM_append, hpart]
              exact ih hrest
            exact hfold
      · trivial
  | unknown => trivial

end Effect

theorem covers_token
    (stack : List Kind)
    (kind : Kind) :
    (effect (.char (.token kind)) stack).Covers stack [.leaf kind] := by
  simp only [effect]
  cases hstack : bracket stack kind with
  | none => trivial
  | some stack' =>
      have hfold : [Shape.leaf kind].foldlM openAfter stack = some stack' := by
        simp [openAfter, hstack]
      exact hfold

/-- What is read off a pattern holds of all children without a fault that match it. -/
theorem covers_of_matches
    {P : Pattern Kind}
    {ms : List (Marked Kind)}
    (h : P.Matches ms)
    (hclean : ∀ m ∈ ms, m.isFault = false)
    (stack : List Kind) :
    (effect P stack).Covers stack (ms.filterMap Marked.plain?) := by
  induction P generalizing ms stack with
  | zero => exact h.elim
  | epsilon =>
      rw [matches_one_iff.mp h]
      rfl
  | char sign =>
      obtain ⟨m, rfl, rfl⟩ := List.map_eq_singleton_iff.mp h
      match m, hclean with
      | .leaf (.lexeme kind), _ => exact covers_token stack kind
      | .leaf (.fault _), hclean => simp [Marked.isFault] at hclean
      | .node _ _, _ => rfl
  | plus P Q ihP ihQ =>
      rcases matches_add_iff.mp h with h | h
      · exact (ihP h hclean stack).or_left
      · exact (ihQ h hclean stack).or_right
  | comp P Q ihP ihQ =>
      obtain ⟨xs, ys, rfl, hxs, hys⟩ := matches_mul_iff.mp h
      obtain ⟨hcleanX, hcleanY⟩ := List.forall_mem_append.mp hclean
      rw [List.filterMap_append]
      exact (ihP hxs hcleanX stack).andThen fun stack => ihQ hys hcleanY stack
  | star P ih =>
      obtain ⟨parts, rfl, hparts⟩ := matches_star_iff.mp h
      rw [List.filterMap_flatten]
      refine Effect.covers_many fun part hpart => ?_
      obtain ⟨part, hmem, rfl⟩ := List.mem_map.mp hpart
      exact ih (hparts part hmem) (fun m hm => hclean m (List.mem_flatten_of_mem hmem hm)) stack

/-- The patterns of all kinds close what they open. -/
theorem effect_of (kind : Kind) :
    effect (all (Form.of kind)) [] = .never ∨ effect (all (Form.of kind)) [] = .leaves [] := by
  cases kind <;> decide

/-! ## Brackets in place -/

/-- Whether the children of a node close the brackets that they open, or are tokens of
inline assembly. -/
structure Balanced (n : Node Kind) : Prop where
  closed : n.kind ≠ .asmExpr → (Tree.outlines n.children).foldlM openAfter [] = some []
  leaves : n.kind = .asmExpr → ∀ s ∈ Tree.outlines n.children, ∃ kind, s = .leaf kind

/-- The brackets that a walk visits. -/
def brackets (visits : List (Visit Kind)) : List (Leaf Kind) :=
  (visits.filterMap Visit.token?).filter isBracket

theorem brackets_append (visits visits' : List (Visit Kind)) :
    brackets (visits ++ visits') = brackets visits ++ brackets visits' := by
  rw [brackets, List.filterMap_append, List.filter_append]
  rfl

theorem brackets_enter_leave
    (n : Node Kind)
    (visits : List (Visit Kind)) :
    brackets (.enter n :: (visits ++ [.leave n])) = brackets visits := by
  rw [brackets, filterMap_token_enter_leave]
  rfl

/-- The tokens of inline assembly are left out. -/
theorem brackets_walkAll_of_asm
    {n : Node Kind}
    (hn : n.kind = .asmExpr)
    (index : Nat)
    (place : Extent)
    {ts : List (Tree Kind)}
    (hts : ∀ s ∈ Tree.outlines ts, ∃ kind, s = .leaf kind) :
    brackets (Tree.walkAll n index place ts) = [] := by
  induction ts generalizing index place with
  | nil => rfl
  | cons t ts ih =>
      rw [Tree.outlines] at hts
      rw [Tree.walkAll, brackets_append, ih _ _ fun s hs => hts s (List.mem_append_right _ hs)]
      cases t with
      | token kind text => simp [Tree.walk, brackets, Visit.token?, isBracket, hn]
      | node kind children =>
          obtain ⟨kind', hleaf⟩ := hts _ (List.mem_append_left _ (List.mem_singleton.mpr rfl))
          cases hleaf

theorem isTrivia_of_contains
    {kind : Kind}
    (h : bracketKinds.contains kind = true) :
    Vocabulary.isTrivia kind = false := by
  cases kind <;> first | rfl | cases h

/-- Trivia are passed over. -/
theorem foldlM_outline_token
    (kind : Kind)
    (text : Text)
    (ss : List (Shape Kind Kind))
    (stack : List Kind) :
    ((Tree.token kind text).outline ++ ss).foldlM openAfter stack =
      (bracket stack kind).bind fun stack => ss.foldlM openAfter stack := by
  rw [Tree.outline]
  cases htrivia : Vocabulary.isTrivia kind with
  | true =>
      have hkind : ¬ bracketKinds.contains kind = true := fun hkind => by
        simp [isTrivia_of_contains hkind] at htrivia
      have hnone : bracket stack kind = some stack := by
        unfold bracket
        rw [if_neg hkind]
      rw [hnone]
      rfl
  | false => rfl

/-- A token among children, in front of what closes the brackets that are then open. -/
theorem closes_token
    {n : Node Kind}
    {l : Leaf Kind}
    (hn : n.kind ≠ .asmExpr)
    (hparent : l.parent = n)
    (hl : l ∈ n.childTokens)
    {stack xs : List (Leaf Kind)}
    (hstack : ∀ l ∈ stack, l ∈ n.childTokens)
    {kinds : List Kind}
    (hbracket : bracket (stack.map fun l => l.kind) l.kind = some kinds)
    (hrest : ∀ stack : List (Leaf Kind), (∀ l ∈ stack, l ∈ n.childTokens) →
      stack.map (fun l => l.kind) = kinds → Closes stack xs) :
    Closes stack ([l].filter isBracket ++ xs) := by
  have hfilter : ∀ found, bracketKinds.contains l.kind = found →
      [l].filter isBracket = if found then [l] else [] := by
    rintro found rfl
    rw [List.filter_cons, isBracket, hparent, bne_iff_ne.mpr hn, Bool.and_true]
    rfl
  rcases bracket_cases hbracket with
    ⟨hnone, rfl⟩ | ⟨hopens, rfl⟩ | ⟨hcloses, opening, hkinds, hclosing⟩
  · rw [hfilter _ hnone]
    exact hrest stack hstack rfl
  · rw [hfilter _ hopens]
    exact (hrest (l :: stack) (List.forall_mem_cons.mpr ⟨hl, hstack⟩) rfl).opened
  · rw [hfilter _ hcloses]
    obtain ⟨first, stack, rfl, rfl, rfl⟩ := List.map_eq_cons_iff.mp hkinds
    obtain ⟨hfirst, hstack⟩ := List.forall_mem_cons.mp hstack
    exact ⟨[], l, xs, rfl, ⟨hclosing, n, hfirst, hl⟩, .nil, hrest stack hstack rfl⟩

mutual

/-- The brackets of a node and below are nested. -/
theorem nested_walk
    (t : Tree Kind)
    {parent : Node Kind}
    {index : Nat}
    {place : Extent}
    (h : ∀ n ∈ (t.walk parent index place).filterMap Visit.entered?, Balanced n)
    {kind : Kind}
    {children : List (Tree Kind)}
    (ht : t = .node kind children) :
    Nested (brackets (t.walk parent index place)) := by
  cases t with
  | token kind text => cases ht
  | node kind children =>
      clear ht
      rw [Tree.walk, filterMap_entered_enter_leave] at h
      rw [Tree.walk, brackets_enter_leave]
      obtain ⟨hself, hbelow⟩ := List.forall_mem_cons.mp h
      generalize hn : parent.child index place kind children = n at hself hbelow ⊢
      have hchildren : n.children = children := by rw [← hn]; rfl
      have hsub : ∀ e ∈ n.elementsFrom 0 place.enter children, e ∈ n.elements := by
        rw [← hn]
        exact fun _ he => he
      by_cases hkind : n.kind = .asmExpr
      · rw [brackets_walkAll_of_asm hkind _ _ (hchildren ▸ hself.leaves hkind)]
        exact .nil
      · have hclosed : (Tree.outlines children).foldlM openAfter [] = some [] :=
          hchildren ▸ hself.closed hkind
        exact closes_walkAll children hkind hsub (fun _ hl => absurd hl List.not_mem_nil) hclosed
          hbelow

/-- The brackets of children and below close those which are open. -/
theorem closes_walkAll
    (ts : List (Tree Kind))
    {n : Node Kind}
    {index : Nat}
    {place : Extent}
    (hn : n.kind ≠ .asmExpr)
    (hsub : ∀ e ∈ n.elementsFrom index place ts, e ∈ n.elements)
    {stack : List (Leaf Kind)}
    (hstack : ∀ l ∈ stack, l ∈ n.childTokens)
    (hfold : (Tree.outlines ts).foldlM openAfter (stack.map fun l => l.kind) = some [])
    (h : ∀ m ∈ (Tree.walkAll n index place ts).filterMap Visit.entered?, Balanced m) :
    Closes stack (brackets (Tree.walkAll n index place ts)) := by
  cases ts with
  | nil =>
      cases stack with
      | nil => exact .nil
      | cons first stack => cases hfold
  | cons t ts =>
      obtain ⟨hfirst, hrest⟩ := List.forall_mem_cons.mp hsub
      rw [Tree.walkAll, List.filterMap_append] at h
      obtain ⟨hwalk, hbelow⟩ := List.forall_mem_append.mp h
      rw [Tree.walkAll, brackets_append]
      rw [Tree.outlines] at hfold
      cases t with
      | node kind children =>
          rw [Tree.outline, List.singleton_append, List.foldlM_cons] at hfold
          exact (closes_walkAll ts hn hrest hstack hfold hbelow).append (nested_walk _ hwalk rfl)
      | token kind text =>
          rw [foldlM_outline_token] at hfold
          obtain ⟨kinds, hbracket, hfold⟩ := Option.bind_eq_some_iff.mp hfold
          have hl : (⟨⟨kind, text⟩, place, n⟩ : Leaf Kind) ∈ n.childTokens :=
            List.mem_filterMap.mpr ⟨_, hfirst, rfl⟩
          refine closes_token hn rfl hl hstack hbracket fun stack hstack hkinds => ?_
          exact closes_walkAll ts hn hrest hstack (hkinds ▸ hfold) hbelow

end

/-- The brackets of a tree are nested if all its nodes are balanced. -/
theorem nested_tokens
    {r : Root Kind}
    (hkind : r.kind ≠ .asmExpr)
    (h : ∀ n ∈ r.node.descendants, Balanced n) :
    Nested (r.node.tokens.filter isBracket) := by
  rw [Node.descendants, Node.walk_eq, filterMap_entered_enter_leave] at h
  rw [Node.tokens, Node.walk_eq, filterMap_token_enter_leave]
  obtain ⟨hself, hbelow⟩ := List.forall_mem_cons.mp h
  have hclosed : (Tree.outlines r.children).foldlM openAfter [] = some [] := hself.closed hkind
  have hsub : ∀ e ∈ r.node.elementsFrom 0 r.node.place.enter r.children, e ∈ r.node.elements :=
    fun _ he => he
  exact closes_walkAll r.children hkind hsub (fun _ hl => absurd hl List.not_mem_nil) hclosed hbelow

/-- A node that obeys the rule and has no fault is balanced. -/
theorem balanced_of_rule
    {n : Node Kind}
    {ms : List (Marked Kind)}
    (hrule : Rule n.kind ms)
    (hclean : ∀ m ∈ ms, m.isFault = false)
    (hplain : ms.filterMap Marked.plain? = Tree.outlines n.children) :
    Balanced n where
  closed := by
    intro hasm
    have herror : n.kind ≠ .error := fun heq => by
      obtain ⟨m, hm, hfault⟩ := hrule.fault heq
      simp [hclean m hm] at hfault
    have hcovers := covers_of_matches (hrule.fits herror hasm) hclean []
    rw [hplain] at hcovers
    rcases effect_of n.kind with heffect | heffect
    · rw [heffect] at hcovers
      exact hcovers.elim
    · rw [heffect] at hcovers
      exact hcovers
  leaves := by
    intro hasm s hs
    rw [← hplain] at hs
    obtain ⟨m, hm, hs⟩ := List.mem_filterMap.mp hs
    obtain ⟨mark, rfl⟩ := hrule.leaves hasm m hm
    cases mark with
    | lexeme kind => exact ⟨kind, (Option.some.inj hs).symm⟩
    | fault cause => cases hs

/-- **Brackets are balanced.**  A text without a diagnostic has nested brackets, those of
inline assembly apart, and those that belong together are children of one node. -/
theorem exists_parse_nested (text : Text) :
    ∃ p, parse? text = some p ∧ p.root.node.tokens.map Leaf.toLexeme = lex text ∧
      (p.diagnostics = [] → Nested (p.root.node.tokens.filter isBracket)) := by
  obtain ⟨p, m, hp, hkeeps, heverywhere, hplain, hfaults, -⟩ := exists_marked_sourceFile text
  refine ⟨p, hp, hkeeps.map_toLexeme_tokens, fun hnone => ?_⟩
  have hnofaults : m.faults = [] := by
    rw [hnone, List.map_nil, eq_comm, List.map_eq_nil_iff] at hfaults
    exact hfaults
  refine nested_tokens (by rw [hkeeps.kind]; decide) fun n hn => ?_
  obtain ⟨ms, hnode, hms⟩ := Root.exists_children_of_mem hplain hn
  exact balanced_of_rule (heverywhere.of_mem_nodes m hnode)
    (Marked.isFault_eq_false hnofaults hnode) hms

/-- The seven pairs of brackets of a text without a diagnostic. -/
theorem exists_parse_nested_pairs :
    ∃ p, parse? "fn f(a: [2]T) T \x7b g(asm (\"\"), .\x7b a[0], (1) \x7d); \x7d".toList = some p ∧
      p.diagnostics = [] ∧
      (p.root.node.tokens.filter isBracket).length = 14 ∧
      Nested (p.root.node.tokens.filter isBracket) := by
  obtain ⟨p, hp, -, hnested⟩ := exists_parse_nested
    "fn f(a: [2]T) T \x7b g(asm (\"\"), .\x7b a[0], (1) \x7d); \x7d".toList
  have hgood : (parse? "fn f(a: [2]T) T \x7b g(asm (\"\"), .\x7b a[0], (1) \x7d); \x7d".toList).any
      (fun p => p.diagnostics == [] && (p.root.node.tokens.filter isBracket).length == 14) =
        true := by
    decide +kernel
  rw [hp, Option.any_some, Bool.and_eq_true, beq_iff_eq, beq_iff_eq] at hgood
  exact ⟨p, hp, hgood.1, hgood.2, hnested hgood.1⟩

end Zig
end ZigCst
