import Mathlib.Computability.RegularExpressions
import ZigCst.Proofs.Everywhere
import ZigCst.Proofs.Marked

/-!
# Patterns of children

What a node may consist of is said by a pattern: a regular expression over what can
be seen of its children without looking into them, which is a token of some kind, a
node of some kind, or a fault.  A comparison that is chained to another one is a fault
that is told from all others.  A run of a parser forms a list of patterns if what it
adds to the innermost node falls into as many parts, each of which matches its
pattern; one pattern after another follows one parser after another.

**Definitions.**
* `Pattern.Matches`: children seen from outside match a pattern.
* `Regular R Ps ms`: children match patterns, and every node below has the property
  `R` of its kind and its children.
* `Parser.Forms R p c F`: at the cursor `c`, the children that `p` adds are regular for
  the patterns that `F` has for the value given.
* `Parser.Reworks R p c m F`: at the cursor `c`, the node `m` that stands last is made
  into another node.
* `Parser.Strews`: adds tokens and faults only.

**Results.**
* `Forms.seq`, `forms_node`, `forms_repeatWhile` and their like: the rules follow
  the combinators.
* `Pattern.sign_mem_signs`: nothing is matched that does not stand in the pattern.
-/

namespace ZigCst

/-- What is seen of a child without looking into it. -/
inductive Sign (K : Type) where
  | token (kind : K)
  | node (kind : K)
  | fault
  /-- The fault of a comparison that is chained to another one. -/
  | chain
deriving DecidableEq, Repr

/-- A regular expression over what is seen of children. -/
abbrev Pattern (K : Type) := RegularExpression (Sign K)

section Patterns

variable {K : Type}

def Fault.sign : Fault K → Sign K
  | .chainedComparison => .chain
  | _ => .fault

theorem Fault.sign_eq (cause : Fault K) : cause.sign = .fault ∨ cause.sign = .chain := by
  unfold sign
  split <;> simp

def Marked.sign : Marked K → Sign K
  | .leaf (.lexeme kind) => .token kind
  | .leaf (.fault cause) => cause.sign
  | .node kind _ => .node kind

theorem Marked.exists_of_sign_node
    {m : Marked K}
    {kind : K}
    (h : m.sign = .node kind) :
    ∃ children, m = .node kind children := by
  match m, h with
  | .node _ children, h => exact ⟨children, by rw [Sign.node.inj h]⟩
  | .leaf (.fault cause), h => rcases cause.sign_eq with hsign | hsign <;> simp [sign, hsign] at h

theorem Marked.eq_of_sign_token
    {m : Marked K}
    {kind : K}
    (h : m.sign = .token kind) :
    m = .leaf (.lexeme kind) := by
  match m, h with
  | .leaf (.lexeme _), h => rw [Sign.token.inj h]
  | .leaf (.fault cause), h => rcases cause.sign_eq with hsign | hsign <;> simp [sign, hsign] at h

/-- A token, or a fault other than that of a chained comparison. -/
def Marked.Loose (m : Marked K) : Prop := (∃ mark, m = .leaf mark) ∧ m.sign ≠ .chain

theorem Marked.loose_lexeme (kind : K) : Marked.Loose (.leaf (.lexeme kind)) :=
  ⟨⟨_, rfl⟩, by simp [sign]⟩

theorem Marked.loose_fault
    {cause : Fault K}
    (h : cause.sign = .fault) :
    Marked.Loose (.leaf (.fault cause)) :=
  ⟨⟨_, rfl⟩, by simp [sign, h]⟩

theorem Marked.Loose.everywhere
    {R : K → List (Marked K) → Prop}
    {m : Marked K}
    (h : m.Loose) :
    m.Everywhere R := by
  obtain ⟨⟨mark, rfl⟩, -⟩ := h
  exact Shape.everywhere_leaf _

namespace Pattern

open RegularExpression

/-- One of some signs. -/
def oneOf : List (Sign K) → Pattern K
  | [] => 0
  | s :: ss => char s + oneOf ss

/-- One token of some kinds. -/
def tokens (kinds : List K) : Pattern K := oneOf (kinds.map .token)

/-- One node of some kinds. -/
def nodes (kinds : List K) : Pattern K := oneOf (kinds.map .node)

def fault : Pattern K := oneOf [.fault]

def chain : Pattern K := oneOf [.chain]

/-- A token that may be missing, which is a fault. -/
def expected (kind : K) : Pattern K := oneOf [.token kind, .fault]

/-- Patterns one after another. -/
def all : List (Pattern K) → Pattern K
  | [] => 1
  | P :: Ps => P * all Ps

/-- One of some patterns. -/
def any : List (Pattern K) → Pattern K
  | [] => 0
  | P :: Ps => P + any Ps

/-- Patterns one after another, or nothing. -/
def perhaps (Ps : List (Pattern K)) : Pattern K := 1 + all Ps

/-- Patterns one after another, any number of times. -/
def many (Ps : List (Pattern K)) : Pattern K := star (all Ps)

/-- Whether children match a pattern. -/
def Matches (P : Pattern K) (ms : List (Marked K)) : Prop := ms.map Marked.sign ∈ P.matches'

section Matching

variable {P Q : Pattern K} {Ps Qs : List (Pattern K)} {ms ns : List (Marked K)}

theorem matches_oneOf_iff {ss : List (Sign K)} :
    (oneOf ss).Matches ms ↔ ∃ m, ms = [m] ∧ m.sign ∈ ss := by
  induction ss with
  | nil => exact ⟨fun h => h.elim, fun ⟨_, _, h⟩ => absurd h List.not_mem_nil⟩
  | cons s ss ih =>
      have hhead : ms.map Marked.sign = [s] ↔ ∃ m, ms = [m] ∧ m.sign = s := by
        simp [List.map_eq_singleton_iff]
      constructor
      · rintro (h | h)
        · obtain ⟨m, hm, hs⟩ := hhead.mp h
          exact ⟨m, hm, hs ▸ List.mem_cons_self⟩
        · obtain ⟨m, hm, hs⟩ := ih.mp h
          exact ⟨m, hm, List.mem_cons_of_mem s hs⟩
      · rintro ⟨m, hm, hs⟩
        rcases List.mem_cons.mp hs with hs | hs
        · exact .inl (hhead.mpr ⟨m, hm, hs⟩)
        · exact .inr (ih.mpr ⟨m, hm, hs⟩)

theorem matches_nodes_iff {kinds : List K} :
    (nodes kinds).Matches ms ↔ ∃ kind children, ms = [.node kind children] ∧ kind ∈ kinds := by
  rw [nodes, matches_oneOf_iff]
  constructor
  · rintro ⟨m, rfl, hm⟩
    obtain ⟨kind, hkind, hsign⟩ := List.mem_map.mp hm
    obtain ⟨children, rfl⟩ := Marked.exists_of_sign_node hsign.symm
    exact ⟨kind, children, rfl, hkind⟩
  · rintro ⟨kind, children, rfl, hkind⟩
    exact ⟨_, rfl, List.mem_map_of_mem hkind⟩

theorem matches_tokens_iff {kinds : List K} :
    (tokens kinds).Matches ms ↔ ∃ kind, ms = [.leaf (.lexeme kind)] ∧ kind ∈ kinds := by
  rw [tokens, matches_oneOf_iff]
  constructor
  · rintro ⟨m, rfl, hm⟩
    obtain ⟨kind, hkind, hsign⟩ := List.mem_map.mp hm
    rw [Marked.eq_of_sign_token hsign.symm]
    exact ⟨kind, rfl, hkind⟩
  · rintro ⟨kind, rfl, hkind⟩
    exact ⟨_, rfl, List.mem_map_of_mem hkind⟩

theorem matches_mul_iff :
    (P * Q).Matches ms ↔ ∃ xs ys, ms = xs ++ ys ∧ P.Matches xs ∧ Q.Matches ys := by
  rw [Matches, matches'_mul, Language.mem_mul]
  constructor
  · rintro ⟨xs, hxs, ys, hys, hms⟩
    obtain ⟨xs, ys, rfl, rfl, rfl⟩ := List.map_eq_append_iff.mp hms.symm
    exact ⟨xs, ys, rfl, hxs, hys⟩
  · rintro ⟨xs, ys, rfl, hxs, hys⟩
    exact ⟨_, hxs, _, hys, List.map_append.symm⟩

theorem matches_add_iff : (P + Q).Matches ms ↔ P.Matches ms ∨ Q.Matches ms := Iff.rfl

theorem matches_one_iff : (1 : Pattern K).Matches ms ↔ ms = [] := by
  rw [Matches, matches'_epsilon, Language.mem_one, List.map_eq_nil_iff]

theorem matches_all_nil_iff : (all []).Matches ms ↔ ms = [] := matches_one_iff

theorem matches_all_cons_iff :
    (all (P :: Ps)).Matches ms ↔ ∃ xs ys, ms = xs ++ ys ∧ P.Matches xs ∧ (all Ps).Matches ys :=
  matches_mul_iff

theorem matches_all_singleton_iff : (all [P]).Matches ms ↔ P.Matches ms := by
  rw [matches_all_cons_iff]
  constructor
  · rintro ⟨xs, ys, rfl, hxs, hys⟩
    rwa [matches_all_nil_iff.mp hys, List.append_nil]
  · intro h
    exact ⟨ms, [], (List.append_nil ms).symm, h, matches_all_nil_iff.mpr rfl⟩

theorem matches_all_append_iff :
    (all (Ps ++ Qs)).Matches ms ↔
      ∃ xs ys, ms = xs ++ ys ∧ (all Ps).Matches xs ∧ (all Qs).Matches ys := by
  induction Ps generalizing ms with
  | nil =>
      constructor
      · intro h
        exact ⟨[], ms, rfl, matches_all_nil_iff.mpr rfl, h⟩
      · rintro ⟨xs, ys, rfl, hxs, hys⟩
        rwa [matches_all_nil_iff.mp hxs]
  | cons P Ps ih =>
      rw [List.cons_append, matches_all_cons_iff]
      constructor
      · rintro ⟨xs, ys, rfl, hxs, hys⟩
        obtain ⟨ys, zs, rfl, hys, hzs⟩ := ih.mp hys
        exact ⟨xs ++ ys, zs, (List.append_assoc ..).symm,
          matches_all_cons_iff.mpr ⟨xs, ys, rfl, hxs, hys⟩, hzs⟩
      · rintro ⟨xs, ys, rfl, hxs, hys⟩
        obtain ⟨xs, zs, rfl, hxs, hzs⟩ := matches_all_cons_iff.mp hxs
        exact ⟨xs, zs ++ ys, List.append_assoc .., hxs, ih.mpr ⟨zs, ys, rfl, hzs, hys⟩⟩

theorem matches_any_iff : (any Ps).Matches ms ↔ ∃ P ∈ Ps, P.Matches ms := by
  induction Ps with
  | nil => exact ⟨fun h => h.elim, fun ⟨_, h, _⟩ => absurd h List.not_mem_nil⟩
  | cons P Ps ih =>
      rw [any, matches_add_iff, ih]
      simp

theorem matches_perhaps_iff : (perhaps Ps).Matches ms ↔ ms = [] ∨ (all Ps).Matches ms := by
  rw [perhaps, matches_add_iff, matches_one_iff]

theorem matches_star_iff :
    Matches (star P) ms ↔ ∃ parts : List (List (Marked K)),
      ms = parts.flatten ∧ ∀ part ∈ parts, P.Matches part := by
  rw [Matches, matches'_star, Language.mem_kstar]
  constructor
  · rintro ⟨words, hms, hwords⟩
    induction words generalizing ms with
    | nil => exact ⟨[], List.map_eq_nil_iff.mp hms, by simp⟩
    | cons word words ih =>
        obtain ⟨xs, ys, rfl, rfl, hys⟩ := List.map_eq_append_iff.mp hms
        obtain ⟨hxs, hwords⟩ := List.forall_mem_cons.mp hwords
        obtain ⟨parts, rfl, hparts⟩ := ih hys hwords
        exact ⟨xs :: parts, rfl, List.forall_mem_cons.mpr ⟨hxs, hparts⟩⟩
  · rintro ⟨parts, rfl, hparts⟩
    refine ⟨parts.map (List.map Marked.sign), List.map_flatten, fun word hword => ?_⟩
    obtain ⟨part, hpart, rfl⟩ := List.mem_map.mp hword
    exact hparts part hpart

end Matching

/-- The signs that stand in a pattern. -/
def signs : Pattern K → List (Sign K)
  | .zero => []
  | .epsilon => []
  | .char s => [s]
  | .plus P Q => signs P ++ signs Q
  | .comp P Q => signs P ++ signs Q
  | .star P => signs P

/-- Nothing is matched that does not stand in the pattern. -/
theorem sign_mem_signs
    {P : Pattern K}
    {ms : List (Marked K)}
    (h : P.Matches ms) :
    ∀ m ∈ ms, m.sign ∈ P.signs := by
  induction P generalizing ms with
  | zero => exact h.elim
  | epsilon =>
      rw [matches_one_iff.mp h]
      simp
  | char s =>
      intro m hm
      have hsigns : ms.map Marked.sign = [s] := h
      have hmem : m.sign ∈ ms.map Marked.sign := List.mem_map_of_mem hm
      rwa [hsigns] at hmem
  | plus P Q ihP ihQ =>
      intro m hm
      rcases matches_add_iff.mp h with h | h
      · exact List.mem_append_left _ (ihP h m hm)
      · exact List.mem_append_right _ (ihQ h m hm)
  | comp P Q ihP ihQ =>
      obtain ⟨xs, ys, rfl, hxs, hys⟩ := matches_mul_iff.mp h
      intro m hm
      rcases List.mem_append.mp hm with hm | hm
      · exact List.mem_append_left _ (ihP hxs m hm)
      · exact List.mem_append_right _ (ihQ hys m hm)
  | star P ih =>
      obtain ⟨parts, rfl, hparts⟩ := matches_star_iff.mp h
      intro m hm
      obtain ⟨part, hpart, hm⟩ := List.mem_flatten.mp hm
      exact ih (hparts part hpart) m hm

end Pattern
end Patterns

/-! ## Regular children -/

section Regular

variable {K : Type} {R : K → List (Marked K) → Prop}

/-- Whether children match patterns, and every node below has a property. -/
structure Regular (R : K → List (Marked K) → Prop) (Ps : List (Pattern K)) (ms : List (Marked K)) :
    Prop where
  fits : (Pattern.all Ps).Matches ms
  everywhere : ∀ m ∈ ms, m.Everywhere R

namespace Regular

variable {P : Pattern K} {Ps Qs : List (Pattern K)} {ms ns : List (Marked K)}

theorem nil : Regular R [] [] := ⟨Pattern.matches_all_nil_iff.mpr rfl, by simp⟩

theorem append
    (hms : Regular R Ps ms)
    (hns : Regular R Qs ns) :
    Regular R (Ps ++ Qs) (ms ++ ns) where
  fits := Pattern.matches_all_append_iff.mpr ⟨ms, ns, rfl, hms.fits, hns.fits⟩
  everywhere := List.forall_mem_append.mpr ⟨hms.everywhere, hns.everywhere⟩

/-- Children match more patterns than one. -/
theorem mono
    (h : Regular R Ps ms)
    (himp : (Pattern.all Ps).Matches ms → (Pattern.all Qs).Matches ms) :
    Regular R Qs ms :=
  ⟨himp h.fits, h.everywhere⟩

/-- A change of the first pattern. -/
theorem mono_head
    {Q : Pattern K}
    (h : Regular R (P :: Ps) ms)
    (himp : ∀ ms, P.Matches ms → Q.Matches ms) :
    Regular R (Q :: Ps) ms := by
  refine h.mono fun hms => ?_
  obtain ⟨xs, ys, rfl, hxs, hys⟩ := Pattern.matches_all_cons_iff.mp hms
  exact Pattern.matches_all_cons_iff.mpr ⟨xs, ys, rfl, himp xs hxs, hys⟩

/-- Patterns one after another are one pattern. -/
theorem group (h : Regular R Ps ms) : Regular R [Pattern.all Ps] ms :=
  h.mono Pattern.matches_all_singleton_iff.mpr

/-- The first patterns are one pattern. -/
theorem gather (h : Regular R (Ps ++ Qs) ms) : Regular R (Pattern.all Ps :: Qs) ms :=
  h.mono fun hfits =>
    Pattern.matches_all_cons_iff.mpr (Pattern.matches_all_append_iff.mp hfits)

/-- One of several patterns comes first. -/
theorem choose
    (h : Regular R (P :: Ps) ms)
    (hP : P ∈ Qs) :
    Regular R (Pattern.any Qs :: Ps) ms :=
  h.mono_head fun _ hms => Pattern.matches_any_iff.mpr ⟨P, hP, hms⟩

/-- What may be missing is there. -/
theorem there (h : Regular R (Qs ++ Ps) ms) : Regular R (Pattern.perhaps Qs :: Ps) ms :=
  h.gather.mono_head fun _ hms => Pattern.matches_perhaps_iff.mpr (.inr hms)

/-- What may be missing is missing. -/
theorem missing (h : Regular R Ps ms) : Regular R (Pattern.perhaps Qs :: Ps) ms :=
  h.mono fun hfits => Pattern.matches_all_cons_iff.mpr
    ⟨[], ms, rfl, Pattern.matches_perhaps_iff.mpr (.inl rfl), hfits⟩

theorem oneOf
    {ss : List (Sign K)}
    {m : Marked K}
    (hsign : m.sign ∈ ss)
    (hm : m.Everywhere R) :
    Regular R [Pattern.oneOf ss] [m] where
  fits := Pattern.matches_all_singleton_iff.mpr (Pattern.matches_oneOf_iff.mpr ⟨m, rfl, hsign⟩)
  everywhere := by simpa using hm

theorem lexeme
    {kinds : List K}
    {kind : K}
    (hkind : kind ∈ kinds) :
    Regular R [Pattern.tokens kinds] [.leaf (.lexeme kind)] :=
  .oneOf (List.mem_map_of_mem hkind) (Shape.everywhere_leaf _)

theorem nodes
    {kinds : List K}
    {kind : K}
    {children : List (Marked K)}
    (hkind : kind ∈ kinds)
    (hnode : R kind children)
    (hchildren : ∀ m ∈ children, m.Everywhere R) :
    Regular R [Pattern.nodes kinds] [.node kind children] :=
  oneOf (List.mem_map_of_mem hkind) (Shape.everywhere_node_iff.mpr ⟨hnode, hchildren⟩)

/-- One node of some kinds. -/
theorem exists_node
    {kinds : List K}
    (h : Regular R [Pattern.nodes kinds] ms) :
    ∃ kind children, ms = [.node kind children] ∧ kind ∈ kinds ∧
      (Shape.node kind children : Marked K).Everywhere R := by
  obtain ⟨kind, children, rfl, hkind⟩ :=
    Pattern.matches_nodes_iff.mp (Pattern.matches_all_singleton_iff.mp h.fits)
  exact ⟨kind, children, rfl, hkind, h.everywhere _ (by simp)⟩

theorem many_nil : Regular R [Pattern.many Ps] [] where
  fits := Pattern.matches_all_singleton_iff.mpr (Pattern.matches_star_iff.mpr ⟨[], rfl, by simp⟩)
  everywhere := by simp

/-- One round more. -/
theorem many_append
    (Qs : List (Pattern K))
    (hms : Regular R (Qs ++ [Pattern.many Ps]) ms)
    (hns : Regular R Ps ns) :
    Regular R (Qs ++ [Pattern.many Ps]) (ms ++ ns) where
  fits := by
    obtain ⟨xs, ys, rfl, hxs, hys⟩ := Pattern.matches_all_append_iff.mp hms.fits
    obtain ⟨parts, rfl, hparts⟩ :=
      Pattern.matches_star_iff.mp (Pattern.matches_all_singleton_iff.mp hys)
    refine Pattern.matches_all_append_iff.mpr ⟨xs, parts.flatten ++ ns, by simp, hxs, ?_⟩
    refine Pattern.matches_all_singleton_iff.mpr (Pattern.matches_star_iff.mpr
      ⟨parts ++ [ns], by simp, ?_⟩)
    exact List.forall_mem_append.mpr ⟨hparts, by simpa using hns.fits⟩
  everywhere := List.forall_mem_append.mpr ⟨hms.everywhere, hns.everywhere⟩

/-- Nothing matches the pattern that matches nothing. -/
theorem not_zero : ¬Regular R (Ps ++ [0]) ms := by
  intro h
  obtain ⟨xs, ys, rfl, -, hys⟩ := Pattern.matches_all_append_iff.mp h.fits
  exact Pattern.matches_all_singleton_iff.mp hys

end Regular
end Regular

/-! ## Forming children -/

namespace Parser

variable {K α β σ : Type} {R : K → List (Marked K) → Prop}

/-- At a cursor, the children that a run adds are regular for patterns that may depend
on the value that it gives. -/
def Forms (R : K → List (Marked K) → Prop) (p : Parser K α) (c : Cursor K)
    (F : α → List (Pattern K)) : Prop :=
  ∀ children, p.Draws ⟨c, children⟩ fun a t =>
    ∃ ms, t.children = ms.reverse ++ children ∧ Regular R (F a) ms

section Rules

variable {p : Parser K α} {f : α → Parser K β} {c : Cursor K}

/-- What a run forms depends on what it does at the cursor only. -/
theorem forms_congr
    {p q : Parser K α}
    {F : α → List (Pattern K)}
    (h : p c = q c) :
    p.Forms R c F ↔ q.Forms R c F := by
  simp only [Forms, Draws, h]

theorem Forms.mono
    {F G : α → List (Pattern K)}
    (h : p.Forms R c F)
    (himp : ∀ a ms, Regular R (F a) ms → Regular R (G a) ms) :
    p.Forms R c G :=
  fun children => (h children).mono fun a _ ⟨ms, hms, hregular⟩ => ⟨ms, hms, himp a ms hregular⟩

theorem forms_pure
    {F : α → List (Pattern K)}
    (a : α)
    (h : F a = []) :
    (pure a : Parser K α).Forms R c F :=
  fun _ => draws_pure ⟨[], rfl, h ▸ .nil⟩

/-- One run after another.  What the first one forms may decide what the second one
does. -/
theorem Forms.bind
    {F : α → List (Pattern K)}
    {G : β → List (Pattern K)}
    (hp : p.Forms R c F)
    (hf : ∀ a c, (f a).Forms R c fun b => G b)
    {H : β → List (Pattern K)}
    (himp : ∀ a b ms, Regular R (F a ++ G b) ms → Regular R (H b) ms) :
    (p >>= f).Forms R c H := by
  intro children
  refine (hp children).bind fun a t ⟨ms, hms, hregular⟩ => ?_
  refine (hf a t.cursor t.children).mono fun b u ⟨ns, hns, hregular'⟩ => ?_
  exact ⟨ms ++ ns, by simp [hns, hms], himp a b _ (hregular.append hregular')⟩

/-- One pattern after another. -/
theorem Forms.seq
    {P : Pattern K}
    {G : β → List (Pattern K)}
    (hp : p.Forms R c fun _ => [P])
    (hf : ∀ a c, (f a).Forms R c G) :
    (p >>= f).Forms R c fun b => P :: G b :=
  hp.bind hf fun _ _ _ h => h

/-- One pattern after another, the second at a cursor that is known. -/
theorem Forms.seq_at
    {P : Pattern K}
    {G : β → List (Pattern K)}
    {c' : Cursor K}
    (hp : p.Forms R c fun _ => [P])
    (hcursor : (p c).cursor = c')
    (hf : ∀ a, (f a).Forms R c' G) :
    (p >>= f).Forms R c fun b => P :: G b := by
  intro children
  refine (hp children).outcome.bind fun a t ⟨_, ht, ms, hms, hregular⟩ => ?_
  have hc' : t.cursor = c' := ht.trans hcursor
  have hgoes := hf a t.children
  rw [← hc'] at hgoes
  refine hgoes.mono fun b u ⟨ns, hns, hregular'⟩ => ?_
  exact ⟨ms ++ ns, by simp [hns, hms], hregular.append hregular'⟩

theorem Forms.discard
    {Ps : List (Pattern K)}
    (h : p.Forms R c fun _ => Ps) :
    (Functor.discard p : Parser K Unit).Forms R c fun _ => Ps :=
  fun children => draws_discard (h children)

/-- Patterns one after another are one pattern. -/
theorem Forms.group
    {Ps : List (Pattern K)}
    (h : p.Forms R c fun _ => Ps) :
    p.Forms R c fun _ => [Pattern.all Ps] :=
  h.mono fun _ _ hms => hms.group

/-- The first patterns are one pattern. -/
theorem Forms.gather
    {Ps : List (Pattern K)}
    {F : α → List (Pattern K)}
    (h : p.Forms R c fun a => Ps ++ F a) :
    p.Forms R c fun a => Pattern.all Ps :: F a :=
  h.mono fun _ _ hms => hms.gather

/-- A change of the first pattern. -/
theorem Forms.mono_head
    {P Q : Pattern K}
    {F : α → List (Pattern K)}
    (h : p.Forms R c fun a => P :: F a)
    (himp : ∀ ms, P.Matches ms → Q.Matches ms) :
    p.Forms R c fun a => Q :: F a :=
  h.mono fun _ _ hms => hms.mono_head himp

/-- One of several patterns comes first. -/
theorem Forms.choose
    {P : Pattern K}
    {Ps : List (Pattern K)}
    {F : α → List (Pattern K)}
    (h : p.Forms R c fun a => P :: F a)
    (hP : P ∈ Ps) :
    p.Forms R c fun a => Pattern.any Ps :: F a :=
  h.mono fun _ _ hms => hms.choose hP

/-- What may be missing is there. -/
theorem Forms.there
    {Ps : List (Pattern K)}
    {F : α → List (Pattern K)}
    (h : p.Forms R c fun a => Ps ++ F a) :
    p.Forms R c fun a => Pattern.perhaps Ps :: F a :=
  h.mono fun _ _ hms => hms.there

/-- What may be missing is missing. -/
theorem Forms.missing
    {Ps : List (Pattern K)}
    {F : α → List (Pattern K)}
    (h : p.Forms R c F) :
    p.Forms R c fun a => Pattern.perhaps Ps :: F a :=
  h.mono fun _ _ hms => hms.missing

/-- What may be missing is there, and nothing behind it. -/
theorem Forms.there_last
    {Ps : List (Pattern K)}
    (h : p.Forms R c fun _ => Ps) :
    p.Forms R c fun _ => [Pattern.perhaps Ps] :=
  .there (by simpa using h)

/-- What may be missing at the end is missing. -/
theorem Forms.missing_last
    {Ps Qs : List (Pattern K)}
    (h : p.Forms R c fun _ => Ps) :
    p.Forms R c fun _ => Ps ++ [Pattern.perhaps Qs] := by
  refine h.mono fun _ ms hms => ?_
  have hnone : Regular R [Pattern.perhaps Qs] [] := Regular.nil.missing
  rw [← List.append_nil ms]
  exact hms.append hnone

theorem Forms.nodes_subset
    {kinds kinds' : List K}
    {F : α → List (Pattern K)}
    (h : p.Forms R c fun a => Pattern.nodes kinds :: F a)
    (hsub : ∀ kind ∈ kinds, kind ∈ kinds') :
    p.Forms R c fun a => Pattern.nodes kinds' :: F a := by
  refine h.mono_head fun ms hms => ?_
  obtain ⟨kind, children, rfl, hkind⟩ := Pattern.matches_nodes_iff.mp hms
  exact Pattern.matches_nodes_iff.mpr ⟨kind, children, rfl, hsub kind hkind⟩

theorem Forms.ite
    {holds : Bool}
    {p q : Parser K α}
    {F : α → List (Pattern K)}
    (hp : holds = true → p.Forms R c F)
    (hq : holds = false → q.Forms R c F) :
    (if holds then p else q).Forms R c F := by
  cases holds with
  | true => exact hp rfl
  | false => exact hq rfl

/-- One of two parsers, and the run goes on. -/
theorem Forms.ite_seq
    {holds : Bool}
    {p q : Parser K α}
    {rest : Parser K β}
    {P Q : Pattern K}
    {F : β → List (Pattern K)}
    (hp : holds = true → p.Forms R c fun _ => [P])
    (hq : holds = false → q.Forms R c fun _ => [Q])
    (hrest : ∀ c, rest.Forms R c F) :
    (if holds then p >>= fun _ => rest else q >>= fun _ => rest).Forms R c
      fun b => Pattern.any [P, Q] :: F b :=
  Forms.ite (fun h => ((hp h).seq fun _ => hrest).choose (by simp))
    fun h => ((hq h).seq fun _ => hrest).choose (by simp)

/-- A run that goes on knows that the condition holds. -/
theorem forms_ensure_bind
    {holds : Bool}
    {f : Unit → Parser K β}
    {F : β → List (Pattern K)}
    (h : holds = true → (f ()).Forms R c F) :
    (ensure holds >>= f).Forms R c F := by
  intro children
  refine (draws_ensure (Q := fun _ t => t = ⟨c, children⟩ ∧ holds = true) fun hholds =>
    ⟨rfl, hholds⟩).bind ?_
  rintro _ _ ⟨rfl, hholds⟩
  exact h hholds children

theorem forms_report
    {fault : Fault K}
    (hfault : fault.sign = .fault) :
    (report fault : Parser K Unit).Forms R c fun _ => [Pattern.fault] := by
  intro children
  refine draws_report ⟨[.leaf (.fault fault)], rfl, ?_⟩
  exact .oneOf (List.mem_singleton.mpr hfault) (Shape.everywhere_leaf _)

theorem forms_moves
    {p : Parser K Unit}
    {Ps : List (Pattern K)}
    (h : p.Forms R c fun _ => Ps) :
    (moves p).Forms R c fun _ => Ps :=
  fun children => draws_moves (h children)

/-- A node whose children have what is asked of its kind. -/
theorem forms_node
    {kind : K}
    {body : Parser K Unit}
    {Ps : List (Pattern K)}
    (hbody : body.Forms R c fun _ => Ps)
    (hnode : ∀ ms, Regular R Ps ms → R kind ms) :
    (node kind body).Forms R c fun _ => [Pattern.nodes [kind]] := by
  intro children
  refine draws_nodeOf ((hbody []).bind fun _ t ⟨ms, hms, hregular⟩ => draws_pure ?_)
  refine ⟨[.node kind ms], by simp [hms], ?_⟩
  exact .nodes (List.mem_singleton.mpr rfl) (hnode ms hregular) hregular.everywhere

/-- Every turn of a loop is one more round. -/
theorem forms_iterate
    {body : σ → Parser K (Bool × σ)}
    {Ps : List (Pattern K)}
    (hbody : ∀ v c, (body v).Forms R c fun _ => Ps)
    (v : σ) :
    (iterate body v).Forms R c fun _ => [Pattern.many Ps] := by
  intro children
  refine Draws.iterate (I := fun _ t => ∃ ms, t.children = ms.reverse ++ children ∧
    Regular R [Pattern.many Ps] ms) ?_ ⟨[], rfl, .many_nil⟩
  rintro v t ⟨ms, hms, hregular⟩
  refine (hbody v t.cursor t.children).mono fun _ u ⟨ns, hns, hregular'⟩ => ?_
  have hround : ∃ ms, u.children = ms.reverse ++ children ∧ Regular R [Pattern.many Ps] ms :=
    ⟨ms ++ ns, by simp [hns, hms], .many_append [] hregular hregular'⟩
  exact ⟨fun _ => hround, fun _ => hround⟩

theorem forms_repeatWhile
    {body : Parser K Bool}
    {Ps : List (Pattern K)}
    (hbody : ∀ c, body.Forms R c fun _ => Ps) :
    (repeatWhile body).Forms R c fun _ => [Pattern.many Ps] := by
  refine forms_iterate (fun _ c => ?_) ()
  refine (hbody c).bind (G := fun _ => []) (fun _ _ => forms_pure _ rfl) fun _ _ _ h => ?_
  rwa [List.append_nil] at h

/-- More may be known of the first turn. -/
theorem forms_repeatWhile_first
    {body : Parser K Bool}
    {P : Pattern K}
    {Ps : List (Pattern K)}
    (hfirst : body.Forms R c fun _ => [P])
    (hbody : ∀ c, body.Forms R c fun _ => Ps) :
    (repeatWhile body).Forms R c fun _ => [P, Pattern.many Ps] := by
  intro children
  refine Draws.iterate (I := fun _ t => t = ⟨c, children⟩ ∨
    ∃ ms, t.children = ms.reverse ++ children ∧ Regular R [P, Pattern.many Ps] ms) ?_ (.inl rfl)
  rintro _ t (rfl | ⟨ms, hms, hregular⟩)
  · refine (hfirst children).bind fun again t ⟨ms, hms, hregular⟩ => draws_pure ?_
    have hround : ∃ ms, t.children = ms.reverse ++ children ∧ Regular R [P, Pattern.many Ps] ms :=
      ⟨ms ++ [], by simpa using hms, hregular.append .many_nil⟩
    exact ⟨fun _ => .inr hround, fun _ => hround⟩
  · refine (hbody t.cursor t.children).bind fun again u ⟨ns, hns, hregular'⟩ => draws_pure ?_
    have hround : ∃ ms, u.children = ms.reverse ++ children ∧ Regular R [P, Pattern.many Ps] ms :=
      ⟨ms ++ ns, by simp [hns, hms], .many_append [P] hregular hregular'⟩
    exact ⟨fun _ => .inr hround, fun _ => hround⟩

/-- What is known for the value that is given. -/
theorem Forms.of_gives
    {F : α → List (Pattern K)}
    {a : α}
    (hp : p.Forms R c fun _ => F a)
    (hvalue : p.Gives (· = a)) :
    p.Forms R c F := by
  intro children
  refine (hp children).outcome.mono ?_
  rintro b t ⟨hb, -, ms, hms, hregular⟩
  have hab : b = a := hb.trans (hvalue c)
  exact ⟨ms, hms, hab ▸ hregular⟩

end Rules

/-! ### Looking ahead and taking tokens -/

section Tokens

variable {f : Bool → Parser K β} {c : Cursor K} {F : β → List (Pattern K)}

/-- A parser that only looks ahead is passed over. -/
theorem forms_bind_of_eq
    {p : Parser K α}
    {f : α → Parser K β}
    {a : α}
    (hp : p c = ⟨a, c, []⟩) :
    (p >>= f).Forms R c F ↔ (f a).Forms R c F :=
  forms_congr (bind_of_eq hp)

theorem forms_atEnd_bind : (atEnd >>= f).Forms R c F ↔ (f c.kinds.isEmpty).Forms R c F :=
  forms_bind_of_eq (by simp [atEnd, Cursor.kinds])

theorem forms_prev_bind
    {g : Option K → Parser K β} :
    (prev? >>= g).Forms R c F ↔ (g c.prev).Forms R c F :=
  forms_bind_of_eq rfl

/-- A parser that looks at a text forms what it forms for any text. -/
theorem forms_text_bind
    {g : Text → Parser K β}
    (h : ∀ text, (g text).Forms R c F) :
    (text >>= g).Forms R c F :=
  (forms_bind_of_eq rfl).mpr (h _)

variable [Vocabulary K]

theorem nth_cursor (n : Nat) : (nth n : Parser K K) c = ⟨c.nth n, c, []⟩ := by
  simp [nth, Cursor.nth, Cursor.kinds]

theorem forms_nth_bind
    {n : Nat}
    {g : K → Parser K β} :
    (nth n >>= g).Forms R c F ↔ (g (c.nth n)).Forms R c F :=
  forms_bind_of_eq (nth_cursor n)

theorem forms_peek_bind
    {g : K → Parser K β} :
    (peek >>= g).Forms R c F ↔ (g c.peek).Forms R c F :=
  forms_nth_bind

/-- A token that was seen is taken. -/
theorem forms_advance_mem
    {kinds : List K}
    (hpeek : c.peek ∈ kinds)
    (heof : Vocabulary.eof ∉ kinds) :
    (advance : Parser K Unit).Forms R c fun _ => [Pattern.tokens kinds] := by
  intro children
  refine draws_advance_peek rfl (fun h => heof (h ▸ hpeek)) ⟨[.leaf (.lexeme c.peek)], rfl, ?_⟩
  exact .oneOf (List.mem_map_of_mem hpeek) (Shape.everywhere_leaf _)

theorem forms_advance
    {kind : K}
    (hpeek : c.peek = kind)
    (hkind : kind ≠ Vocabulary.eof) :
    (advance : Parser K Unit).Forms R c fun _ => [Pattern.tokens [kind]] :=
  forms_advance_mem (by simp [hpeek]) (by simpa using hkind.symm)

omit [Vocabulary K] in
theorem cursor_advance : ((advance : Parser K Unit) c).cursor = c.next := by
  obtain ⟨prev, _ | ⟨l, rest⟩, left, hleft⟩ := c <;> rfl

/-- A token that was seen is taken, and the run goes on behind it. -/
theorem forms_advance_bind
    {f : Unit → Parser K β}
    {kind : K}
    (hpeek : c.peek = kind)
    (hkind : kind ≠ Vocabulary.eof)
    (hf : (f ()).Forms R c.next F) :
    (advance >>= f).Forms R c fun b => Pattern.tokens [kind] :: F b :=
  (forms_advance hpeek hkind).seq_at cursor_advance fun _ => hf

variable [DecidableEq K]

theorem nthAt_cursor
    (n : Nat)
    (kind : K) :
    (nthAt n kind : Parser K Bool) c = ⟨c.nth n == kind, c, []⟩ := by
  simp [nthAt, Bind.bind, pure, nth_cursor]

theorem forms_nthAt_bind
    {n : Nat}
    {kind : K} :
    (nthAt n kind >>= f).Forms R c F ↔ (f (c.nth n == kind)).Forms R c F :=
  forms_bind_of_eq (nthAt_cursor n kind)

theorem forms_at_bind
    {kind : K} :
    (at_ kind >>= f).Forms R c F ↔ (f (c.peek == kind)).Forms R c F :=
  forms_nthAt_bind

omit [DecidableEq K] in
theorem forms_atAny_bind
    {set : KindSet K} :
    (atAny set >>= f).Forms R c F ↔ (f (set.contains c.peek)).Forms R c F :=
  forms_bind_of_eq (by simp [atAny, peek, Bind.bind, pure, nth_cursor, Cursor.peek])

/-- A token that is there is taken. -/
theorem eat_bind_of_peek
    {kind : K}
    (hpeek : c.peek = kind) :
    (eat kind >>= f) c = (advance >>= fun _ => f true) c := by
  simp [eat, at_, Bind.bind, pure, nthAt_cursor, ← Cursor.peek.eq_1, hpeek]

/-- A token that is not there is not waited for. -/
theorem eat_bind_of_ne
    {kind : K}
    (hpeek : c.peek ≠ kind) :
    (eat kind >>= f) c = f false c := by
  simp [eat, at_, Bind.bind, pure, nthAt_cursor, ← Cursor.peek.eq_1, hpeek]

/-- A token is taken exactly if it is there. -/
theorem forms_eat_bind
    {kind : K}
    (hyes : c.peek = kind → (advance >>= fun _ => f true).Forms R c F)
    (hno : c.peek ≠ kind → (f false).Forms R c F) :
    (eat kind >>= f).Forms R c F := by
  by_cases hpeek : c.peek = kind
  · exact (forms_congr (eat_bind_of_peek hpeek)).mpr (hyes hpeek)
  · exact (forms_congr (eat_bind_of_ne hpeek)).mpr (hno hpeek)

/-- A token that may be missing. -/
theorem forms_eat
    {kind : K}
    (hkind : kind ≠ Vocabulary.eof) :
    (eat kind : Parser K Bool).Forms R c fun _ => [Pattern.perhaps [Pattern.tokens [kind]]] := by
  have hbind : (eat kind >>= pure : Parser K Bool).Forms R c
      fun _ => [Pattern.perhaps [Pattern.tokens [kind]]] :=
    forms_eat_bind
      (fun hpeek => .there ((forms_advance hpeek hkind).seq fun _ _ => forms_pure _ rfl))
      fun _ => .missing (forms_pure _ rfl)
  exact (forms_congr (by simp [Bind.bind, pure])).mp hbind

/-- A token that was seen is taken. -/
theorem forms_eat_at
    {kind : K}
    (hpeek : c.peek = kind)
    (hkind : kind ≠ Vocabulary.eof) :
    (eat kind : Parser K Bool).Forms R c fun _ => [Pattern.tokens [kind]] := by
  have hbind : (eat kind >>= pure : Parser K Bool).Forms R c fun _ => [Pattern.tokens [kind]] :=
    forms_eat_bind (fun _ => (forms_advance hpeek hkind).seq fun _ _ => forms_pure _ rfl)
      fun hne => absurd hpeek hne
  exact (forms_congr (by simp [Bind.bind, pure])).mp hbind

theorem forms_skip
    {kind : K}
    (hkind : kind ≠ Vocabulary.eof) :
    (skip kind : Parser K Unit).Forms R c fun _ => [Pattern.perhaps [Pattern.tokens [kind]]] :=
  (forms_eat hkind).discard

omit [Vocabulary K] [DecidableEq K] in
/-- A token that may be missing is there. -/
theorem Forms.expected
    {p : Parser K β}
    {kind : K}
    (h : p.Forms R c fun b => Pattern.tokens [kind] :: F b) :
    p.Forms R c fun b => Pattern.expected kind :: F b := by
  refine h.mono_head fun ms hms => ?_
  obtain ⟨kind', rfl, hmem⟩ := Pattern.matches_tokens_iff.mp hms
  refine Pattern.matches_oneOf_iff.mpr ⟨_, rfl, ?_⟩
  rw [List.mem_singleton.mp hmem]
  exact List.mem_cons_self

omit [Vocabulary K] [DecidableEq K] in
/-- A token that may be missing is missing. -/
theorem Forms.faulty
    {p : Parser K β}
    {kind : K}
    (h : p.Forms R c fun b => Pattern.fault :: F b) :
    p.Forms R c fun b => Pattern.expected kind :: F b := by
  refine h.mono_head fun ms hms => ?_
  obtain ⟨m, rfl, hm⟩ := Pattern.matches_oneOf_iff.mp hms
  exact Pattern.matches_oneOf_iff.mpr ⟨m, rfl, List.mem_cons_of_mem _ hm⟩

/-- A token or the fault that it is missing. -/
theorem forms_expect
    {kind : K}
    (hkind : kind ≠ Vocabulary.eof) :
    (expect kind : Parser K Unit).Forms R c fun _ => [Pattern.expected kind] := by
  refine forms_eat_bind (fun hpeek => ?_) fun _ => ?_
  · exact Forms.expected ((forms_advance hpeek hkind).seq fun _ _ => forms_pure _ rfl)
  · exact forms_peek_bind.mpr (.faulty (forms_report rfl))

/-- Something stands behind a token that may be missing, and the run goes on. -/
theorem forms_ifEat
    {p : Parser K α}
    {rest : Parser K β}
    {kind : K}
    {Ps : List (Pattern K)}
    (hkind : kind ≠ Vocabulary.eof)
    (hp : ∀ c, p.Forms R c fun _ => [Pattern.all Ps])
    (hrest : ∀ c, rest.Forms R c F) :
    (eat kind >>= fun found => if found then p >>= fun _ => rest else rest).Forms R c
      fun b => Pattern.perhaps (Pattern.tokens [kind] :: Ps) :: F b := by
  refine forms_eat_bind (fun hpeek => ?_) fun _ => .missing (hrest c)
  refine Forms.there (forms_advance_bind hpeek hkind ?_)
  rw [if_pos rfl]
  refine (hp _).bind (fun _ => hrest) fun _ b ms hms => hms.mono fun hfits => ?_
  obtain ⟨xs, ys, rfl, hxs, hys⟩ := Pattern.matches_all_cons_iff.mp hfits
  exact Pattern.matches_all_append_iff.mpr ⟨xs, ys, rfl, hxs, hys⟩

/-- Something stands where a token is seen, and the run goes on. -/
theorem forms_ifAt
    {p : Parser K α}
    {rest : Parser K β}
    {kind : K}
    {P : Pattern K}
    (hp : c.peek = kind → p.Forms R c fun _ => [P])
    (hrest : ∀ c, rest.Forms R c F) :
    (at_ kind >>= fun found => if found then p >>= fun _ => rest else rest).Forms R c
      fun b => Pattern.perhaps [P] :: F b := by
  refine forms_at_bind.mpr (Forms.ite (fun hfound => ?_) fun _ => .missing (hrest c))
  exact .there ((hp (by simpa using hfound)).seq fun _ => hrest)

end Tokens

/-! ### Leaves, and nodes for what is malformed -/

section Leaves

/-- Adds tokens and faults only, and no chained comparisons. -/
def Strews (p : Parser K α) : Prop :=
  ∀ s : Desk K, p.Draws s fun _ t =>
    ∃ ms, t.children = ms ++ s.children ∧ ∀ m ∈ ms, m.Loose

variable {p : Parser K α} {f : α → Parser K β}

theorem strews_pure (a : α) : (pure a : Parser K α).Strews :=
  fun _ => draws_pure ⟨[], rfl, by simp⟩

theorem Strews.bind
    (hp : p.Strews)
    (hf : ∀ a, (f a).Strews) :
    (p >>= f).Strews := by
  intro s
  refine (hp s).bind fun a t ⟨ms, hms, hleaves⟩ => ?_
  refine (hf a t).mono fun _ u ⟨ns, hns, hleaves'⟩ => ?_
  exact ⟨ns ++ ms, by simp [hns, hms], List.forall_mem_append.mpr ⟨hleaves', hleaves⟩⟩

theorem Strews.discard (h : p.Strews) : (Functor.discard p : Parser K Unit).Strews :=
  h.bind fun _ => strews_pure _

theorem Strews.ite
    {holds : Bool}
    {q : Parser K α}
    (hp : p.Strews)
    (hq : q.Strews) :
    (if holds then p else q).Strews := by
  cases holds with
  | true => exact hp
  | false => exact hq

theorem strews_advance : (advance : Parser K Unit).Strews := by
  intro s
  refine draws_advance (fun _ => ⟨[], rfl, by simp⟩) fun kind _ => ?_
  exact ⟨[.leaf (.lexeme kind)], rfl, by simp [Marked.loose_lexeme]⟩

theorem strews_report
    {fault : Fault K}
    (hfault : fault.sign = .fault) :
    (report fault : Parser K Unit).Strews :=
  fun _ => draws_report ⟨[.leaf (.fault fault)], rfl, by simp [Marked.loose_fault hfault]⟩

theorem strews_ensure (holds : Bool) : (ensure holds : Parser K Unit).Strews :=
  fun _ => draws_ensure fun _ => ⟨[], rfl, by simp⟩

/-- A parser that only looks ahead adds nothing. -/
theorem strews_of_eq (h : ∀ c, ∃ a, p c = ⟨a, c, []⟩) : p.Strews := by
  intro s behind below d hd
  obtain ⟨a, ha⟩ := h s.cursor
  rw [ha] at hd ⊢
  exact ⟨s, rfl, Option.some.inj hd, [], rfl, by simp⟩

theorem strews_atEnd : (atEnd : Parser K Bool).Strews := strews_of_eq fun _ => ⟨_, rfl⟩

theorem strews_peek [Vocabulary K] : (peek : Parser K K).Strews := strews_of_eq fun _ => ⟨_, rfl⟩

theorem strews_iterate
    {body : σ → Parser K (Bool × σ)}
    (hbody : ∀ v, (body v).Strews)
    (v : σ) :
    (iterate body v).Strews := by
  intro s
  refine Draws.iterate (I := fun _ t => ∃ ms, t.children = ms ++ s.children ∧
    ∀ m ∈ ms, m.Loose) ?_ ⟨[], rfl, by simp⟩
  rintro v t ⟨ms, hms, hleaves⟩
  refine (hbody v t).mono fun _ u ⟨ns, hns, hleaves'⟩ => ?_
  have hround : ∃ ms, u.children = ms ++ s.children ∧ ∀ m ∈ ms, m.Loose :=
    ⟨ns ++ ms, by simp [hns, hms], List.forall_mem_append.mpr ⟨hleaves', hleaves⟩⟩
  exact ⟨fun _ => hround, fun _ => hround⟩

theorem strews_passOver [Vocabulary K] : (passOver : Parser K Unit).Strews := by
  refine (strews_iterate (fun depth => ?_) 0).discard
  refine strews_atEnd.bind fun _ => Strews.ite (strews_pure _) ?_
  refine strews_peek.bind fun kind => ?_
  have htaken : ∀ r : Bool × Nat, (do advance; return r : Parser K (Bool × Nat)).Strews :=
    fun r => strews_advance.bind fun _ => strews_pure r
  split
  · exact htaken _
  · exact strews_pure _
  · exact strews_pure _
  · exact htaken _
  · exact htaken _

end Leaves

section Recovery

variable {c : Cursor K}

/-- A fault and what leaves stand behind it. -/
theorem draws_report_strews
    {body : Parser K Unit}
    {fault : Fault K}
    (hfault : fault.sign = .fault)
    (hbody : body.Strews) :
    (report fault >>= fun _ => body).Draws ⟨c, []⟩ fun _ t =>
      (∃ m ∈ t.children, m.isFault = true) ∧ ∀ m ∈ t.children, m.Loose := by
  refine (draws_report (Q := fun _ t => t.children = [.leaf (.fault fault)]) rfl).bind
    fun _ t ht => ?_
  refine (hbody t).mono fun _ u ⟨ms, hms, hleaves⟩ => ?_
  rw [hms, ht]
  exact ⟨⟨.leaf (.fault fault), by simp, rfl⟩,
    List.forall_mem_append.mpr ⟨hleaves, by simp [Marked.loose_fault hfault]⟩⟩

variable
  [Vocabulary K]
  (hR : ∀ ms : List (Marked K), (∃ m ∈ ms, m.isFault = true) → (∀ m ∈ ms, m.Loose) →
    R Vocabulary.error ms)
include hR

/-- A node for what is malformed. -/
theorem forms_error
    {body : Parser K Unit}
    (hbody : body.Draws ⟨c, []⟩ fun _ t =>
      (∃ m ∈ t.children, m.isFault = true) ∧ ∀ m ∈ t.children, m.Loose) :
    (node Vocabulary.error body).Forms R c fun _ => [Pattern.nodes [Vocabulary.error]] := by
  intro children
  refine draws_nodeOf (hbody.bind fun _ t ⟨⟨m, hm, hfault⟩, hloose⟩ => draws_pure ?_)
  have hchildren : ∀ m ∈ t.children.reverse, m.Loose := fun m hm =>
    hloose m (List.mem_reverse.mp hm)
  refine ⟨[.node Vocabulary.error t.children.reverse], rfl, ?_⟩
  refine .nodes (List.mem_singleton.mpr rfl)
    (hR _ ⟨m, List.mem_reverse.mpr hm, hfault⟩ hchildren) ?_
  exact fun m hm => (hchildren m hm).everywhere

theorem forms_tooDeep :
    (tooDeep : Parser K Unit).Forms R c fun _ => [Pattern.nodes [Vocabulary.error]] :=
  (forms_error hR (draws_report_strews rfl strews_passOver)).discard

variable [DecidableEq K]

theorem forms_bump
    {fault : Fault K}
    (hfault : fault.sign = .fault) :
    (bump fault : Parser K Unit).Forms R c fun _ => [Pattern.nodes [Vocabulary.error]] := by
  refine (forms_error hR ((draws_bind_of_eq (nthAt_cursor 0 _)).mpr ?_)).discard
  split
  · exact (draws_bind_of_eq rfl).mpr (draws_report_strews rfl strews_advance)
  · exact draws_report_strews hfault strews_advance

theorem forms_recover
    {fault : Fault K}
    (hfault : fault.sign = .fault)
    (recovery : KindSet K) :
    (recover fault recovery : Parser K Unit).Forms R c fun _ =>
      [Pattern.nodes [Vocabulary.error]] := by
  refine forms_atAny_bind.mpr (forms_atEnd_bind.mpr (Forms.ite (fun _ => ?_) fun _ => ?_))
  · refine (forms_error hR (draws_report ⟨⟨_, List.mem_singleton.mpr rfl, rfl⟩, ?_⟩)).discard
    exact List.forall_mem_singleton.mpr (Marked.loose_fault hfault)
  · exact forms_bump hR hfault

end Recovery

/-! ### Nodes around nodes -/

section Wrapping

/-- At a cursor, the node that stands last is made into another node, of kinds that may
depend on the value given. -/
def Reworks (R : K → List (Marked K) → Prop) (p : Parser K α) (c : Cursor K) (m : Marked K)
    (F : α → List K) : Prop :=
  ∀ others, p.Draws ⟨c, m :: others⟩ fun a t =>
    ∃ kind children, t.children = .node kind children :: others ∧ kind ∈ F a ∧
      (Shape.node kind children : Marked K).Everywhere R

variable {p : Parser K α} {f : α → Parser K β} {c : Cursor K} {m : Marked K}

theorem reworks_congr
    {p q : Parser K α}
    {F : α → List K}
    (h : p c = q c) :
    p.Reworks R c m F ↔ q.Reworks R c m F := by
  simp only [Reworks, Draws, h]

theorem reworks_bind_of_eq
    {F : β → List K}
    {a : α}
    (hp : p c = ⟨a, c, []⟩) :
    (p >>= f).Reworks R c m F ↔ (f a).Reworks R c m F :=
  reworks_congr (bind_of_eq hp)

/-- The node stays as it is. -/
theorem reworks_pure
    {F : α → List K}
    {kind : K}
    {children : List (Marked K)}
    (a : α)
    (hkind : kind ∈ F a)
    (hnode : (Shape.node kind children : Marked K).Everywhere R) :
    (pure a : Parser K α).Reworks R c (.node kind children) F :=
  fun _ => draws_pure ⟨kind, children, rfl, hkind, hnode⟩

theorem Reworks.bind
    {F : α → List K}
    {G : β → List K}
    (hp : p.Reworks R c m F)
    (hf : ∀ a c kind children, kind ∈ F a →
      (Shape.node kind children : Marked K).Everywhere R →
      (f a).Reworks R c (.node kind children) G) :
    (p >>= f).Reworks R c m G := by
  intro others
  refine (hp others).bind fun a t ⟨kind, children, hchildren, hkind, hnode⟩ => ?_
  have hgoes := hf a t.cursor kind children hkind hnode others
  rwa [← hchildren] at hgoes

theorem reworks_iterate
    {body : σ → Parser K (Bool × σ)}
    {F : σ → List K}
    (hbody : ∀ v c kind children, kind ∈ F v →
      (Shape.node kind children : Marked K).Everywhere R →
      (body v).Reworks R c (.node kind children) fun r => F r.2)
    {v : σ}
    {kind : K}
    {children : List (Marked K)}
    (hkind : kind ∈ F v)
    (hnode : (Shape.node kind children : Marked K).Everywhere R) :
    (iterate body v).Reworks R c (.node kind children) F := by
  intro others
  refine Draws.iterate (I := fun v t => ∃ kind children,
    t.children = .node kind children :: others ∧ kind ∈ F v ∧
      (Shape.node kind children : Marked K).Everywhere R) ?_
    ⟨kind, children, rfl, hkind, hnode⟩
  rintro v ⟨c, _⟩ ⟨kind, children, rfl, hkind, hnode⟩
  exact (hbody v c kind children hkind hnode others).mono fun r t ht => ⟨fun _ => ht, fun _ => ht⟩

/-- A run that formed one node goes on with it. -/
theorem Forms.rework
    {F : α → List K}
    {G : β → List K}
    (hp : p.Forms R c fun a => [Pattern.nodes (F a)])
    (hf : ∀ a c kind children, kind ∈ F a →
      (Shape.node kind children : Marked K).Everywhere R →
      (f a).Reworks R c (.node kind children) G) :
    (p >>= f).Forms R c fun b => [Pattern.nodes (G b)] := by
  intro others
  refine (hp others).bind fun a t ⟨ms, hms, hregular⟩ => ?_
  obtain ⟨kind, children, rfl, hkind, hnode⟩ := hregular.exists_node
  have hchildren : t.children = .node kind children :: others := hms
  have hgoes := hf a t.cursor kind children hkind hnode others
  rw [← hchildren] at hgoes
  refine hgoes.mono fun b u ⟨kind', children', hchildren', hkind', hnode'⟩ => ?_
  refine ⟨[.node kind' children'], hchildren', ?_⟩
  exact .oneOf (List.mem_map_of_mem hkind') hnode'

end Wrapping

/-! ### Nodes whose kind turns out at the end -/

section Completing

/-- At a cursor, with children so far that are regular for patterns, the run ends with
children that have what is asked of the kind given. -/
def Completes (R : K → List (Marked K) → Prop) (p : Parser K K) (c : Cursor K)
    (Ps : List (Pattern K)) (kinds : List K) : Prop :=
  ∀ ms, Regular R Ps ms → p.Draws ⟨c, ms.reverse⟩ fun kind t =>
    ∃ ns, t.children = ns.reverse ∧ kind ∈ kinds ∧ R kind ns ∧ ∀ m ∈ ns, m.Everywhere R

variable {p : Parser K α} {f : α → Parser K K} {c : Cursor K} {Ps Qs : List (Pattern K)}
  {kinds : List K}

theorem completes_bind_of_eq
    {a : α}
    (hp : p c = ⟨a, c, []⟩)
    (h : (f a).Completes R c Ps kinds) :
    (p >>= f).Completes R c Ps kinds :=
  fun ms hms => (draws_bind_of_eq hp).mpr (h ms hms)

/-- What a run completes depends on what it does at the cursor only. -/
theorem completes_congr
    {p q : Parser K K}
    (h : p c = q c) :
    p.Completes R c Ps kinds ↔ q.Completes R c Ps kinds := by
  simp only [Completes, Draws, h]

/-- A token is taken exactly if it is there. -/
theorem completes_eat_bind
    [DecidableEq K]
    [Vocabulary K]
    {f : Bool → Parser K K}
    {kind : K}
    (hyes : c.peek = kind → (advance >>= fun _ => f true).Completes R c Ps kinds)
    (hno : c.peek ≠ kind → (f false).Completes R c Ps kinds) :
    (eat kind >>= f).Completes R c Ps kinds := by
  by_cases hpeek : c.peek = kind
  · exact (completes_congr (eat_bind_of_peek hpeek)).mpr (hyes hpeek)
  · exact (completes_congr (eat_bind_of_ne hpeek)).mpr (hno hpeek)

theorem completes_pure
    {kind : K}
    (hkind : kind ∈ kinds)
    (hR : ∀ ms, Regular R Ps ms → R kind ms) :
    (pure kind : Parser K K).Completes R c Ps kinds :=
  fun ms hms => draws_pure ⟨ms, rfl, hkind, hR ms hms, hms.everywhere⟩

/-- More patterns, which may depend on the value. -/
theorem Forms.completes_bind
    {F : α → List (Pattern K)}
    (hp : p.Forms R c F)
    (hf : ∀ a c, (f a).Completes R c (Ps ++ F a) kinds) :
    (p >>= f).Completes R c Ps kinds := by
  intro ms hms
  refine (hp _).bind fun a t ⟨ns, hns, hregular⟩ => ?_
  have hchildren : t.children = (ms ++ ns).reverse := by simp [hns]
  have hgoes := hf a t.cursor (ms ++ ns) (hms.append hregular)
  rwa [← hchildren] at hgoes

/-- One pattern more. -/
theorem Forms.completes
    {P : Pattern K}
    (hp : p.Forms R c fun _ => [P])
    (hf : ∀ a c, (f a).Completes R c (Ps ++ [P]) kinds) :
    (p >>= f).Completes R c Ps kinds :=
  hp.completes_bind hf

/-- The children are complete, and the kind is known. -/
theorem Forms.completes_pure
    {kind : K}
    (hp : p.Forms R c fun _ => Qs)
    (hR : ∀ ms, Regular R (Ps ++ Qs) ms → R kind ms) :
    (p >>= fun _ => pure kind).Completes R c Ps [kind] := by
  intro ms hms
  refine (hp _).bind fun a t ⟨ns, hns, hregular⟩ => draws_pure ?_
  have hall := hms.append hregular
  exact ⟨ms ++ ns, by simp [hns], List.mem_singleton.mpr rfl, hR _ hall, hall.everywhere⟩

/-- No children can come before what matches nothing. -/
theorem completes_zero {p : Parser K K} : p.Completes R c (Ps ++ [0]) kinds :=
  fun _ hms => absurd hms Regular.not_zero

theorem Completes.ite
    {holds : Bool}
    {p q : Parser K K}
    (hp : holds = true → p.Completes R c Ps kinds)
    (hq : holds = false → q.Completes R c Ps kinds) :
    (if holds then p else q).Completes R c Ps kinds := by
  cases holds with
  | true => exact hp rfl
  | false => exact hq rfl

/-- The children so far may be known better than is needed. -/
theorem Completes.weaken
    {p : Parser K K}
    (h : p.Completes R c Qs kinds)
    (himp : ∀ ms, Regular R Ps ms → Regular R Qs ms) :
    p.Completes R c Ps kinds :=
  fun ms hms => h ms (himp ms hms)

/-- More kinds than are needed. -/
theorem Completes.subset
    {p : Parser K K}
    {kinds' : List K}
    (h : p.Completes R c Ps kinds)
    (hsub : ∀ kind ∈ kinds, kind ∈ kinds') :
    p.Completes R c Ps kinds' :=
  fun ms hms => (h ms hms).mono fun kind _ ⟨ns, hns, hkind, hR⟩ => ⟨ns, hns, hsub kind hkind, hR⟩

theorem Completes.nodeOf
    {body : Parser K K}
    (h : body.Completes R c [] kinds) :
    (Parser.nodeOf body).Forms R c fun _ => [Pattern.nodes kinds] := by
  intro children
  refine draws_nodeOf ((h [] .nil).mono fun kind t ⟨ns, hns, hkind, hR, hall⟩ => ?_)
  refine ⟨[.node kind ns], by simp [hns], ?_⟩
  exact .nodes hkind hR hall

/-- The node that stands last becomes the first child. -/
theorem Completes.wrapOf
    {body : Parser K K}
    {kinds' : List K}
    {kind : K}
    {children : List (Marked K)}
    (h : body.Completes R c [Pattern.nodes kinds'] kinds)
    (hkind : kind ∈ kinds')
    (hnode : (Shape.node kind children : Marked K).Everywhere R) :
    (Parser.wrapOf body).Reworks R c (.node kind children) fun _ => kinds := by
  intro others
  refine draws_wrapOf (List.nil_append _).symm (by simp) ?_
  have hfirst : Regular R [Pattern.nodes kinds'] [.node kind children] :=
    .oneOf (List.mem_map_of_mem hkind) hnode
  refine (h _ hfirst).mono fun kind' t ⟨ns, hns, hkind', hR, hall⟩ => ?_
  refine ⟨kind', ns, by simp [hns], hkind', ?_⟩
  exact Shape.everywhere_node_iff.mpr ⟨hR, hall⟩

end Completing
end Parser
end ZigCst
