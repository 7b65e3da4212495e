import ZigCst.Proofs.Outline
import ZigCst.Proofs.Pattern

/-!
# Patterns of children in place

A pattern says what the children of a node are, faults included.  Faults have no place
in a tree, so a child in place that is no trivia answers to a token or to a node of the
pattern, and a fault answers to nothing.

**Definitions.**
* `Element.sign`: what is seen of a child without looking into it.
* `Pattern.Fits`: children in place match a pattern, faults left out.

**Results.**
* `fits_all_cons_iff`, `fits_any_iff` and their like: what fits a pattern is made up of
  what fits its parts.
* `fits_significant`: the children of a node fit the pattern of its kind.
-/

namespace ZigCst

/-- What is seen of a child in place. -/
def Element.sign {K : Type} : Element K → Sign K
  | .node n => .node n.kind
  | .token l => .token l.kind

/-- The kind of a node that is seen. -/
def Sign.node? {K : Type} : Sign K → Option K
  | .node kind => some kind
  | _ => none

namespace Pattern

variable {K : Type} [Vocabulary K] {P : Pattern K} {Ps : List (Pattern K)} {es : List (Element K)}

/-- Whether children in place match a pattern, faults left out. -/
def Fits (P : Pattern K) (es : List (Element K)) : Prop :=
  ∃ ms, P.Matches ms ∧ ms.filterMap Marked.plain? = es.map Element.outline

theorem fits_all_nil_iff : (all []).Fits es ↔ es = [] := by
  constructor
  · rintro ⟨ms, hms, hplain⟩
    rw [matches_all_nil_iff.mp hms] at hplain
    exact List.map_eq_nil_iff.mp hplain.symm
  · rintro rfl
    exact ⟨[], matches_all_nil_iff.mpr rfl, rfl⟩

theorem fits_all_cons_iff :
    (all (P :: Ps)).Fits es ↔ ∃ xs ys, es = xs ++ ys ∧ P.Fits xs ∧ (all Ps).Fits ys := by
  constructor
  · rintro ⟨ms, hms, hplain⟩
    obtain ⟨ms₁, ms₂, rfl, hms₁, hms₂⟩ := matches_all_cons_iff.mp hms
    rw [List.filterMap_append] at hplain
    obtain ⟨xs, ys, rfl, hxs, hys⟩ := List.map_eq_append_iff.mp hplain.symm
    exact ⟨xs, ys, rfl, ⟨ms₁, hms₁, hxs.symm⟩, ⟨ms₂, hms₂, hys.symm⟩⟩
  · rintro ⟨xs, ys, rfl, ⟨ms₁, hms₁, hxs⟩, ⟨ms₂, hms₂, hys⟩⟩
    refine ⟨ms₁ ++ ms₂, matches_all_cons_iff.mpr ⟨ms₁, ms₂, rfl, hms₁, hms₂⟩, ?_⟩
    rw [List.filterMap_append, hxs, hys, List.map_append]

theorem fits_all_append_iff {Qs : List (Pattern K)} :
    (all (Ps ++ Qs)).Fits es ↔ ∃ xs ys, es = xs ++ ys ∧ (all Ps).Fits xs ∧ (all Qs).Fits ys := by
  constructor
  · rintro ⟨ms, hms, hplain⟩
    obtain ⟨ms₁, ms₂, rfl, hms₁, hms₂⟩ := matches_all_append_iff.mp hms
    rw [List.filterMap_append] at hplain
    obtain ⟨xs, ys, rfl, hxs, hys⟩ := List.map_eq_append_iff.mp hplain.symm
    exact ⟨xs, ys, rfl, ⟨ms₁, hms₁, hxs.symm⟩, ⟨ms₂, hms₂, hys.symm⟩⟩
  · rintro ⟨xs, ys, rfl, ⟨ms₁, hms₁, hxs⟩, ⟨ms₂, hms₂, hys⟩⟩
    refine ⟨ms₁ ++ ms₂, matches_all_append_iff.mpr ⟨ms₁, ms₂, rfl, hms₁, hms₂⟩, ?_⟩
    rw [List.filterMap_append, hxs, hys, List.map_append]

theorem fits_any_iff : (any Ps).Fits es ↔ ∃ P ∈ Ps, P.Fits es := by
  constructor
  · rintro ⟨ms, hms, hplain⟩
    obtain ⟨P, hP, hms⟩ := matches_any_iff.mp hms
    exact ⟨P, hP, ms, hms, hplain⟩
  · rintro ⟨P, hP, ms, hms, hplain⟩
    exact ⟨ms, matches_any_iff.mpr ⟨P, hP, hms⟩, hplain⟩

theorem fits_perhaps_iff : (perhaps Ps).Fits es ↔ es = [] ∨ (all Ps).Fits es := by
  constructor
  · rintro ⟨ms, hms, hplain⟩
    rcases matches_perhaps_iff.mp hms with rfl | hms
    · exact .inl (List.map_eq_nil_iff.mp hplain.symm)
    · exact .inr ⟨ms, hms, hplain⟩
  · rintro (rfl | ⟨ms, hms, hplain⟩)
    · exact ⟨[], matches_perhaps_iff.mpr (.inl rfl), rfl⟩
    · exact ⟨ms, matches_perhaps_iff.mpr (.inr hms), hplain⟩

theorem Fits.exists_node
    {kinds : List K}
    (h : (nodes kinds).Fits es) :
    ∃ n, es = [.node n] ∧ n.kind ∈ kinds := by
  obtain ⟨ms, hms, hplain⟩ := h
  obtain ⟨kind, children, rfl, hkind⟩ := matches_nodes_iff.mp hms
  obtain ⟨e, rfl, he⟩ := List.map_eq_singleton_iff.mp hplain.symm
  obtain ⟨n, rfl, rfl, -⟩ := Element.exists_node_of_outline he
  exact ⟨n, rfl, hkind⟩

theorem Fits.exists_token
    {kinds : List K}
    (h : (tokens kinds).Fits es) :
    ∃ l, es = [.token l] ∧ l.kind ∈ kinds := by
  obtain ⟨ms, hms, hplain⟩ := h
  obtain ⟨kind, rfl, hkind⟩ := matches_tokens_iff.mp hms
  obtain ⟨e, rfl, he⟩ := List.map_eq_singleton_iff.mp hplain.symm
  obtain ⟨l, rfl, rfl⟩ := Element.exists_token_of_outline he
  exact ⟨l, rfl, hkind⟩

/-- Nothing fits that does not stand in the pattern. -/
theorem Fits.sign_mem (h : P.Fits es) : ∀ e ∈ es, e.sign ∈ P.signs := by
  obtain ⟨ms, hms, hplain⟩ := h
  intro e he
  have houtline : e.outline ∈ ms.filterMap Marked.plain? := hplain ▸ List.mem_map_of_mem he
  obtain ⟨m, hm, heq⟩ := List.mem_filterMap.mp houtline
  have hsign : m.sign = e.sign := by
    cases e with
    | node n =>
        obtain ⟨children, rfl, -⟩ := Marked.eq_node_of_plain? heq
        rfl
    | token l =>
        match m, heq with
        | .leaf (.lexeme kind), heq =>
            exact congrArg Sign.token (Shape.leaf.inj (Option.some.inj heq))
        | .node kind children, heq => simp [Element.outline] at heq
  exact hsign ▸ sign_mem_signs hms m hm

theorem Fits.sign_ne
    {s : Sign K}
    (h : P.Fits es)
    (hP : s ∉ P.signs) :
    ∀ e ∈ es, e.sign ≠ s :=
  fun e he heq => hP (heq ▸ h.sign_mem e he)

/-- The nodes among what fits a pattern are of kinds that stand in the pattern. -/
theorem Fits.kind_of_mem
    (q : K → Bool)
    (h : P.Fits es)
    (hP : ∀ kind ∈ P.signs.filterMap Sign.node?, q kind = true) :
    ∀ m ∈ es.filterMap Element.node?, q m.kind = true := by
  intro m hm
  obtain ⟨e, he, heq⟩ := List.mem_filterMap.mp hm
  cases e with
  | node m' =>
      obtain rfl : m' = m := Option.some.inj heq
      exact hP m'.kind (List.mem_filterMap.mpr ⟨_, h.sign_mem _ he, rfl⟩)
  | token l => cases heq

/-- No child answers to a fault. -/
theorem Fits.eq_nil_of_faults
    {ss : List (Sign K)}
    (h : (oneOf ss).Fits es)
    (hss : ∀ s ∈ ss, s = .fault ∨ s = .chain) :
    es = [] := by
  obtain ⟨ms, hms, hplain⟩ := h
  obtain ⟨m, rfl, hm⟩ := matches_oneOf_iff.mp hms
  have hfault : m.isFault = true := by
    cases m with
    | leaf mark =>
        cases mark with
        | lexeme kind => rcases hss _ hm with h | h <;> cases h
        | fault cause => rfl
    | node kind children => rcases hss _ hm with h | h <;> cases h
  rw [List.filterMap_cons_none (Marked.plain?_of_isFault hfault)] at hplain
  exact List.map_eq_nil_iff.mp hplain.symm

/-- The children of a node fit the pattern that they match with their faults. -/
theorem fits_significant
    {n : Node K}
    {ms : List (Marked K)}
    (hms : P.Matches ms)
    (hplain : ms.filterMap Marked.plain? = Tree.outlines n.children) :
    P.Fits n.significant :=
  ⟨ms, hms, hplain.trans n.map_outline_significant.symm⟩

end Pattern
end ZigCst
