import ZigCst.Proofs.Parsing

/-!
# Sound parsers

A parser is sound if its run never gets stuck and only adds children to the
innermost node, from every site.  Loops are sound when no turn asks for another
one without having consumed something, so that soundness carries termination; a
node may only be wrapped if there is one, so parsers of one node are told apart.

**Definitions.**
* `Parser.Sound`: adds children.
* `Parser.Plants`: adds exactly one node.
* `Parser.Eats`: consumes something unless nothing is left.
* `Parser.Turns`: consumes something whenever it asks for another turn.

**Results.**  The predicates are closed under the combinators, and the primitive
parsers satisfy them, error recovery included.
-/

namespace ZigCst

section Relations

variable {K : Type}

/-- Children were added, and the run went on. -/
structure Site.Grows (s t : Site K) : Prop where
  behind : t.behind = s.behind
  children : s.children <:+ t.children
  left : t.left ≤ s.left
  reports : s.reports ≤ t.reports

theorem Site.Grows.refl (s : Site K) : s.Grows s :=
  ⟨rfl, List.suffix_rfl, Nat.le_refl _, Nat.le_refl _⟩

theorem Site.Grows.trans
    {s t u : Site K}
    (h : s.Grows t)
    (h' : t.Grows u) :
    s.Grows u where
  behind := h'.behind.trans h.behind
  children := h.children.trans h'.children
  left := Nat.le_trans h'.left h.left
  reports := Nat.le_trans h.reports h'.reports

/-- One node was added, and the run went on. -/
structure Site.Plants (s t : Site K) : Prop where
  behind : t.behind = s.behind
  children : ∃ kind children, t.children = .node kind children :: s.children
  left : t.left ≤ s.left
  reports : s.reports ≤ t.reports

theorem Site.Plants.grows
    {s t : Site K}
    (h : s.Plants t) :
    s.Grows t := by
  obtain ⟨kind, children, hchildren⟩ := h.children
  exact ⟨h.behind, hchildren ▸ List.suffix_cons _ _, h.left, h.reports⟩

/-- The node that was added last was wrapped, and the run went on. -/
structure Site.Wraps (s t : Site K) : Prop where
  behind : t.behind = s.behind
  children : ∀ kind children others, s.children = .node kind children :: others →
    ∃ kind' children', t.children = .node kind' children' :: others
  left : t.left ≤ s.left
  reports : s.reports ≤ t.reports

theorem Site.Wraps.refl (s : Site K) : s.Wraps s :=
  ⟨rfl, fun kind children _ h => ⟨kind, children, h⟩, Nat.le_refl _, Nat.le_refl _⟩

theorem Site.Plants.wraps
    {s t u : Site K}
    (h : s.Plants t)
    (h' : t.Wraps u) :
    s.Plants u := by
  obtain ⟨kind, children, hchildren⟩ := h.children
  exact ⟨h'.behind.trans h.behind, h'.children kind children _ hchildren,
    Nat.le_trans h'.left h.left, Nat.le_trans h.reports h'.reports⟩

/-- Where a node was planted, a node stands last. -/
theorem Site.Plants.exists_node
    {s t : Site K}
    (h : s.Plants t) :
    ∃ kind children others, t.children = .node kind children :: others := by
  obtain ⟨kind, children, hchildren⟩ := h.children
  exact ⟨kind, children, _, hchildren⟩

theorem Site.grows_faulted (s : Site K) : s.Grows s.faulted :=
  ⟨rfl, List.suffix_rfl, Nat.le_refl _, Nat.le_succ _⟩

theorem Site.Plants.faulted
    {s t : Site K}
    (h : s.Plants t) :
    s.Plants t.faulted :=
  ⟨h.behind, h.children, h.left, Nat.le_succ_of_le h.reports⟩

theorem Site.grows_advanced (s : Site K) : s.Grows s.advanced := by
  obtain ⟨⟨prev, rest, left, hleft⟩, behind, children, reports⟩ := s
  cases rest with
  | nil => exact .refl _
  | cons l rest => exact ⟨rfl, List.suffix_cons _ _, Nat.sub_le _ _, Nat.le_refl _⟩

theorem Site.left_advanced
    {s : Site K}
    (h : 0 < s.left) :
    s.advanced.left < s.left := by
  obtain ⟨⟨prev, rest, left, hleft⟩, behind, children, reports⟩ := s
  cases rest with
  | nil => simp [Site.left, hleft] at h
  | cons l rest => exact Nat.sub_lt h Nat.one_pos

/-- A completed node was planted. -/
theorem Site.plants_closed
    {s t : Site K}
    {kind : K}
    (h : s.opened.Grows t) :
    s.Plants (s.closed t kind) :=
  ⟨h.behind, ⟨kind, _, rfl⟩, h.left, h.reports⟩

/-- A node completed around the last one wraps it. -/
theorem Site.wraps_wrapped
    {s t : Site K}
    {kind inner : K}
    {children others : List (Shape K K)}
    (hchildren : s.children = .node inner children :: others)
    (h : s.opened.Grows t) :
    s.Wraps (t.wrapped (.node inner children) others kind) := by
  refine ⟨h.behind, ?_, h.left, h.reports⟩
  intro kind' children' others' hs
  rw [hchildren] at hs
  obtain ⟨-, rfl⟩ := List.cons.inj hs
  exact ⟨kind, _, rfl⟩

end Relations

/-! ## Predicates on parsers -/

namespace Parser

variable {K α β σ : Type} [DecidableEq K] [Vocabulary K]

/-- Adds children from every site. -/
def Sound (p : Parser K α) : Prop := ∀ s : Site K, p.Ends s fun _ t => s.Grows t

/-- Adds one node from every site. -/
def Plants (p : Parser K α) : Prop := ∀ s : Site K, p.Ends s fun _ t => s.Plants t

/-- Adds children and consumes something if something is left. -/
def Eats (p : Parser K α) : Prop :=
  ∀ s : Site K, p.Ends s fun _ t => s.Grows t ∧ (0 < s.left → t.left < s.left)

/-- Adds children and consumes something if it asks for another turn. -/
def Turns (again : α → Bool) (p : Parser K α) : Prop :=
  ∀ s : Site K, p.Ends s fun a t => s.Grows t ∧ (again a = true → t.left < s.left)

omit [DecidableEq K] [Vocabulary K] in
/-- Gives a value that satisfies `P`. -/
def Gives (P : α → Prop) (p : Parser K α) : Prop := ∀ c : Cursor K, P (p c).value

section Closure

variable {p : Parser K α} {f : α → Parser K β}

theorem Plants.sound (h : p.Plants) : p.Sound :=
  fun s => (h s).mono fun _ _ ht => ht.grows

theorem Sound.bind
    (hp : p.Sound)
    (hf : ∀ a, (f a).Sound) :
    (p >>= f).Sound := by
  intro s
  refine (hp s).bind fun a t ht => ?_
  exact (hf a t).mono fun _ u hu => ht.trans hu

/-- One sound parser after another. -/
theorem Sound.seq
    {q : Parser K β}
    (hp : p.Sound)
    (hq : q.Sound) :
    (p >>= fun _ => q).Sound :=
  hp.bind fun _ => hq

theorem Sound.discard (h : p.Sound) : (discard p : Parser K Unit).Sound :=
  fun s => ends_discard (h s)

theorem Plants.discard (h : p.Plants) : (Functor.discard p : Parser K Unit).Plants :=
  fun s => ends_discard (h s)

theorem Eats.sound (h : p.Eats) : p.Sound := fun s => (h s).mono fun _ _ ht => ht.1

/-- From a site with something left, something is consumed. -/
theorem Eats.ends
    (h : p.Eats)
    {s : Site K}
    (hs : 0 < s.left) :
    p.Ends s fun _ t => s.Grows t ∧ t.left < s.left :=
  (h s).mono fun _ _ ht => ⟨ht.1, ht.2 hs⟩

/-- Something is consumed before another turn is asked for. -/
theorem Eats.ends_true
    (h : p.Eats)
    {s : Site K}
    (hs : 0 < s.left) :
    (do let _ ← p; return true : Parser K Bool).Ends s fun again t =>
      again = true ∧ s.Grows t ∧ t.left < s.left :=
  (h.ends hs).bind fun _ _ ht => ends_pure ⟨rfl, ht⟩

theorem Ends.turn
    {p : Parser K Bool}
    {s : Site K}
    (h : p.Ends s fun again t => again = true ∧ s.Grows t ∧ t.left < s.left) :
    p.Ends s fun again t => s.Grows t ∧ (id again = true → t.left < s.left) :=
  h.mono fun _ _ ht => ⟨ht.2.1, fun _ => ht.2.2⟩

theorem Eats.discard (h : p.Eats) : (Functor.discard p : Parser K Unit).Eats :=
  fun s => ends_discard (h s)

theorem Eats.bind
    (hp : p.Eats)
    (hf : ∀ a, (f a).Sound) :
    (p >>= f).Eats := by
  intro s
  refine (hp s).bind fun a t ht => ?_
  exact (hf a t).mono fun _ u hu =>
    ⟨ht.1.trans hu, fun hs => Nat.lt_of_le_of_lt hu.left (ht.2 hs)⟩

/-- What is left over by one parser is consumed by the other. -/
theorem Sound.bind_eats
    (hp : p.Sound)
    (hf : ∀ a, (f a).Eats) :
    (p >>= f).Eats := by
  intro s
  refine (hp s).bind fun a t ht => ?_
  refine (hf a t).mono fun _ u hu => ⟨ht.trans hu.1, fun hs => ?_⟩
  have hst := ht.left
  have htu := hu.1.left
  rcases Nat.eq_zero_or_pos t.left with hzero | hpos
  · omega
  · have hless := hu.2 hpos
    omega

theorem Sound.bind_turns
    {again : β → Bool}
    (hp : p.Sound)
    (hf : ∀ a, (f a).Turns again) :
    (p >>= f).Turns again := by
  intro s
  refine (hp s).bind fun a t ht => ?_
  exact (hf a t).mono fun _ u hu =>
    ⟨ht.trans hu.1, fun hagain => Nat.lt_of_lt_of_le (hu.2 hagain) ht.left⟩

end Closure

section Values

omit [DecidableEq K] [Vocabulary K]

variable {p : Parser K α} {f : α → Parser K β} {P : α → Prop} {Q : β → Prop}

theorem Gives.bind
    (hp : p.Gives P)
    (hf : ∀ a, P a → (f a).Gives Q) :
    (p >>= f).Gives Q :=
  fun c => hf _ (hp c) _

/-- The value is that of the parser that comes last. -/
theorem gives_bind (hf : ∀ a, (f a).Gives Q) : (p >>= f).Gives Q := fun _ => hf _ _

theorem gives_pure
    {a : α}
    (h : P a) :
    (pure a : Parser K α).Gives P :=
  fun _ => h

theorem Gives.mono
    {P' : α → Prop}
    (h : p.Gives P)
    (himp : ∀ a, P a → P' a) :
    p.Gives P' :=
  fun c => himp _ (h c)

/-- A value is none that is not listed. -/
theorem Gives.ne
    {values : List α}
    {a : α}
    (h : p.Gives (· ∈ values))
    (ha : a ∉ values) :
    p.Gives (· ≠ a) :=
  h.mono fun _ hmem => ne_of_mem_of_not_mem hmem ha

theorem Gives.ite
    {holds : Bool}
    {q : Parser K α}
    (hp : p.Gives P)
    (hq : q.Gives P) :
    (if holds then p else q).Gives P := by
  cases holds
  · exact hq
  · exact hp

end Values

section Primitives

theorem sound_pure (a : α) : (pure a : Parser K α).Sound := fun s => ends_pure (.refl s)

theorem sound_nth (n : Nat) : (nth n : Parser K K).Sound := fun s => ⟨s, rfl, .nil s, .refl s⟩

theorem sound_peek : (peek : Parser K K).Sound := sound_nth 0

theorem sound_atEnd : (atEnd : Parser K Bool).Sound := fun s => ⟨s, rfl, .nil s, .refl s⟩

theorem sound_prev : (prev? : Parser K (Option K)).Sound := fun s => ⟨s, rfl, .nil s, .refl s⟩

theorem sound_text : (text : Parser K Text).Sound := fun s => ⟨s, rfl, .nil s, .refl s⟩

theorem sound_nthAt
    (n : Nat)
    (kind : K) :
    (nthAt n kind : Parser K Bool).Sound :=
  (sound_nth n).bind fun _ => sound_pure _

theorem sound_at (kind : K) : (at_ kind : Parser K Bool).Sound := sound_nthAt 0 kind

theorem sound_atAny (set : KindSet K) : (atAny set : Parser K Bool).Sound :=
  sound_peek.bind fun _ => sound_pure _

theorem sound_report (fault : Fault K) : (report fault : Parser K Unit).Sound :=
  fun s => ends_report s.grows_faulted

theorem sound_advance : (advance : Parser K Unit).Sound := fun s => ends_advance s.grows_advanced

theorem eats_advance : (advance : Parser K Unit).Eats :=
  fun s => ends_advance ⟨s.grows_advanced, Site.left_advanced⟩

theorem Sound.ite
    {holds : Bool}
    {p q : Parser K α}
    (hp : p.Sound)
    (hq : q.Sound) :
    (if holds then p else q).Sound := by
  cases holds
  · exact hq
  · exact hp

theorem ends_eat
    {kind : K}
    {s : Site K}
    {Q : Bool → Site K → Prop}
    (htaken : s.peek = kind → Q true s.advanced)
    (hleft : s.peek ≠ kind → Q false s) :
    (eat kind : Parser K Bool).Ends s Q := by
  rw [eat, ends_at_bind]
  split
  · rename_i h
    exact ends_advance_bind (ends_pure (htaken (by simpa using h)))
  · rename_i h
    exact ends_pure (hleft (by simpa using h))

theorem ends_expect
    {kind : K}
    {s : Site K}
    {Q : Unit → Site K → Prop}
    (htaken : s.peek = kind → Q () s.advanced)
    (hleft : s.peek ≠ kind → Q () s.faulted) :
    (expect kind : Parser K Unit).Ends s Q := by
  rw [expect]
  refine Ends.bind (P := fun found t =>
    (found = true ∧ Q () t) ∨ (found = false ∧ t = s ∧ s.peek ≠ kind))
    (ends_eat (fun h => .inl ⟨rfl, htaken h⟩) fun h => .inr ⟨rfl, rfl, h⟩) ?_
  rintro found t (⟨rfl, ht⟩ | ⟨rfl, rfl, ht⟩)
  · exact ends_pure ht
  · simp only [Bool.false_eq_true, if_false, ends_peek_bind]
    exact ends_report (hleft ht)

theorem sound_eat (kind : K) : (eat kind : Parser K Bool).Sound :=
  fun s => ends_eat (fun _ => s.grows_advanced) fun _ => .refl s

theorem sound_skip (kind : K) : (skip kind : Parser K Unit).Sound := (sound_eat kind).discard

theorem sound_expect (kind : K) : (expect kind : Parser K Unit).Sound :=
  fun s => ends_expect (fun _ => s.grows_advanced) fun _ => s.grows_faulted

/-- A lexeme is only found by being consumed. -/
theorem turns_eat
    {kind : K}
    (hkind : kind ≠ Vocabulary.eof) :
    (eat kind : Parser K Bool).Turns id := by
  intro s
  refine ends_eat (fun h => ⟨s.grows_advanced, fun _ => ?_⟩) fun _ => ⟨.refl s, by simp⟩
  exact Site.left_advanced (Site.left_pos_of_peek h hkind)

end Primitives

section Nodes

variable {kind : K} {body : Parser K Unit}

theorem ends_node
    {s : Site K}
    {Q : K → Site K → Prop}
    (hkind : kind ≠ Vocabulary.tombstone)
    (h : body.Ends s.opened fun _ t => Q kind (s.closed t kind)) :
    (node kind body).Ends s Q := by
  refine ends_nodeOf (h.bind fun _ t ht => ?_)
  exact ends_pure ⟨hkind, ht⟩

theorem plants_nodeOf
    {body : Parser K K}
    (hkind : body.Gives (· ≠ Vocabulary.tombstone))
    (hbody : body.Sound) :
    (nodeOf body).Plants := by
  intro s
  obtain ⟨t, hcursor, hleads, ht⟩ := hbody s.opened
  exact ends_nodeOf ⟨t, hcursor, hleads, hkind _, Site.plants_closed ht⟩

theorem plants_node
    (hkind : kind ≠ Vocabulary.tombstone)
    (hbody : body.Sound) :
    (node kind body).Plants :=
  fun s => ends_node hkind ((hbody s.opened).mono fun _ _ ht => Site.plants_closed ht)

theorem sound_node
    (hkind : kind ≠ Vocabulary.tombstone)
    (hbody : body.Sound) :
    (node kind body).Sound :=
  (plants_node hkind hbody).sound

theorem eats_node
    (hkind : kind ≠ Vocabulary.tombstone)
    (hbody : body.Eats) :
    (node kind body).Eats := by
  intro s
  refine ends_node hkind ((hbody s.opened).mono fun _ t ht => ?_)
  exact ⟨(Site.plants_closed ht.1).grows, ht.2⟩

theorem eats_nodeOf
    {body : Parser K K}
    (hkind : body.Gives (· ≠ Vocabulary.tombstone))
    (hbody : body.Eats) :
    (nodeOf body).Eats := by
  intro s
  obtain ⟨t, hcursor, hleads, ht⟩ := hbody s.opened
  exact ends_nodeOf ⟨t, hcursor, hleads, hkind _, (Site.plants_closed ht.1).grows, ht.2⟩

/-- A node that stands last is wrapped, and what the body says of the number of
lexemes left still holds. -/
theorem ends_wrapOf_wraps
    {body : Parser K K}
    {s : Site K}
    {P : Nat → Prop}
    (hnode : ∃ inner children others, s.children = .node inner children :: others)
    (h : body.Ends s.opened fun kind t =>
      kind ≠ Vocabulary.tombstone ∧ s.opened.Grows t ∧ P t.left) :
    (wrapOf body).Ends s fun _ t => s.Wraps t ∧ P t.left := by
  obtain ⟨inner, children, others, hchildren⟩ := hnode
  refine ends_wrapOf hchildren (h.mono fun kind t ht => ?_)
  exact ⟨ht.1, Site.wraps_wrapped hchildren ht.2.1, ht.2.2⟩

theorem ends_wrap_wraps
    {s : Site K}
    {P : Nat → Prop}
    (hnode : ∃ inner children others, s.children = .node inner children :: others)
    (hkind : kind ≠ Vocabulary.tombstone)
    (h : body.Ends s.opened fun _ t => s.opened.Grows t ∧ P t.left) :
    (wrap kind body).Ends s fun _ t => s.Wraps t ∧ P t.left := by
  refine ends_wrapOf_wraps hnode (h.bind fun _ t ht => ?_)
  exact ends_pure ⟨hkind, ht⟩

/-- A planted node is still one node after it was wrapped. -/
theorem ends_wrap_of_plants
    {s t : Site K}
    (ht : s.Plants t)
    (hkind : kind ≠ Vocabulary.tombstone)
    (hbody : body.Sound) :
    (do return some (← wrap kind body) : Parser K (Option K)).Ends t fun _ u => s.Plants u := by
  have hwrap := ends_wrap_wraps (P := fun _ => True) ht.exists_node hkind
    ((hbody t.opened).mono fun _ _ hu => ⟨hu, trivial⟩)
  exact hwrap.bind fun _ u hu => ends_pure (ht.wraps hu.1)

/-- A node with the value that it is given. -/
theorem Plants.bind_pure
    {p : Parser K α}
    (h : p.Plants)
    (g : α → β) :
    (do return g (← p) : Parser K β).Plants :=
  fun s => (h s).bind fun _ _ ht => ends_pure ht

end Nodes

section Loops

/-- A loop keeps what its turns keep, and its turns go on consuming. -/
theorem ends_iterate_of_turns
    {body : σ → Parser K (Bool × σ)}
    (hbody : ∀ v, (body v).Turns Prod.fst)
    {P : Site K → Prop}
    (hkeep : ∀ s t, P s → s.Grows t → P t)
    {v : σ}
    {s : Site K}
    (hs : P s) :
    (iterate body v).Ends s fun _ t => P t := by
  refine Ends.iterate (I := fun _ t => P t) ?_ hs
  intro v t ht
  refine (hbody v t).mono fun r u hu => ⟨fun hr => ⟨hu.2 hr, hkeep t u ht hu.1⟩, fun _ => ?_⟩
  exact hkeep t u ht hu.1

theorem sound_iterate
    {body : σ → Parser K (Bool × σ)}
    (hbody : ∀ v, (body v).Turns Prod.fst)
    (v : σ) :
    (iterate body v).Sound :=
  fun s => ends_iterate_of_turns hbody (P := s.Grows) (fun _ _ h h' => h.trans h') (.refl s)

/-- A loop whose first turn consumes something does so too. -/
theorem ends_iterate_of_first
    {body : σ → Parser K (Bool × σ)}
    {v : σ}
    {s : Site K}
    (hbody : ∀ v, (body v).Turns Prod.fst)
    (hfirst : (body v).Ends s fun _ t => s.Grows t ∧ t.left < s.left) :
    (iterate body v).Ends s fun _ t => s.Grows t ∧ t.left < s.left := by
  refine Ends.iterate
    (I := fun w t => (w = v ∧ t = s) ∨ (s.Grows t ∧ t.left < s.left)) ?_ (.inl ⟨rfl, rfl⟩)
  rintro w t (⟨rfl, rfl⟩ | ht)
  · exact hfirst.mono fun _ u hu => ⟨fun _ => ⟨hu.2, .inr hu⟩, fun _ => hu⟩
  · refine (hbody w t).mono fun _ u hu => ?_
    have hgrown : s.Grows u ∧ u.left < s.left :=
      ⟨ht.1.trans hu.1, Nat.lt_of_le_of_lt hu.1.left ht.2⟩
    exact ⟨fun hr => ⟨hu.2 hr, .inr hgrown⟩, fun _ => hgrown⟩

theorem turns_pair
    {body : Parser K Bool}
    (hbody : body.Turns id) :
    (do return (← body, ()) : Parser K (Bool × Unit)).Turns Prod.fst :=
  fun s => (hbody s).bind fun _ _ ht => ends_pure ht

theorem sound_repeatWhile
    {body : Parser K Bool}
    (hbody : body.Turns id) :
    (repeatWhile body).Sound :=
  sound_iterate (fun _ => turns_pair hbody) ()

theorem ends_repeatWhile_of_first
    {body : Parser K Bool}
    {s : Site K}
    (hbody : body.Turns id)
    (hfirst : body.Ends s fun _ t => s.Grows t ∧ t.left < s.left) :
    (repeatWhile body).Ends s fun _ t => s.Grows t ∧ t.left < s.left :=
  ends_iterate_of_first (fun _ => turns_pair hbody) (hfirst.bind fun _ _ ht => ends_pure ht)

end Loops

section Recovery

variable [LawfulVocabulary K]

theorem eats_bump (fault : Fault K) : (bump fault : Parser K Unit).Eats := by
  intro s
  refine ends_discard (eats_node LawfulVocabulary.error_ne_tombstone ?_ s)
  refine Sound.bind_eats (sound_at _) fun bad => ?_
  cases bad
  · exact Sound.bind_eats (sound_report _) fun _ => eats_advance
  · exact Sound.bind_eats sound_text fun _ =>
      Sound.bind_eats (sound_report _) fun _ => eats_advance

theorem plants_bump (fault : Fault K) : (bump fault : Parser K Unit).Plants := by
  refine (plants_node LawfulVocabulary.error_ne_tombstone ?_).discard
  refine (sound_at _).bind fun _ => Sound.ite ?_ ?_
  · exact sound_text.bind fun _ => (sound_report _).seq sound_advance
  · exact (sound_report _).seq sound_advance

theorem plants_recover
    (fault : Fault K)
    (recovery : KindSet K) :
    (recover fault recovery : Parser K Unit).Plants := by
  intro s
  rw [recover, ends_atAny_bind, ends_atEnd_bind]
  split
  · refine ends_discard (plants_node LawfulVocabulary.error_ne_tombstone (sound_report _) s)
  · exact plants_bump fault s

theorem sound_recover
    (fault : Fault K)
    (recovery : KindSet K) :
    (recover fault recovery : Parser K Unit).Sound :=
  (plants_recover fault recovery).sound

omit [LawfulVocabulary K] in
/-- A token that is not left alone is consumed. -/
theorem ends_passToken
    {s : Site K}
    (depth : Nat)
    (hleft : 0 < s.left) :
    (passToken depth : Parser K (Bool × Nat)).Ends s fun r t =>
      s.Grows t ∧
        (r.1 = true ∨ Vocabulary.delimiter? s.peek ∉ [some .closing, some .separator] →
          t.left < s.left) := by
  have hadvance : ∀ (r : Bool × Nat) (P : Bool × Nat → Prop),
      (do advance; return r : Parser K (Bool × Nat)).Ends s fun r t =>
        s.Grows t ∧ (P r → t.left < s.left) :=
    fun r P => (eats_advance.ends hleft).bind fun _ t ht => ends_pure ⟨ht.1, fun _ => ht.2⟩
  have hend : s.kinds.isEmpty = false := by
    simpa using Site.left_pos_iff.mp hleft
  rw [passToken, ends_atEnd_bind, hend, if_neg Bool.false_ne_true, ends_peek_bind]
  split
  · exact hadvance _ _
  · rename_i hpeek
    exact ends_pure ⟨.refl s, by simp [hpeek]⟩
  · rename_i hpeek
    exact ends_pure ⟨.refl s, by simp [hpeek]⟩
  · exact hadvance _ _
  · exact hadvance _ _

omit [LawfulVocabulary K] in
theorem turns_passToken (depth : Nat) :
    (passToken depth : Parser K (Bool × Nat)).Turns Prod.fst := by
  intro s
  by_cases hleft : 0 < s.left
  · exact (ends_passToken depth hleft).mono fun _ _ ht => ⟨ht.1, fun hr => ht.2 (.inl hr)⟩
  · have hend : s.kinds.isEmpty = true := by
      simpa [Site.left_pos_iff] using hleft
    rw [passToken, ends_atEnd_bind, hend, if_pos rfl]
    exact ends_pure ⟨.refl s, by simp⟩

omit [LawfulVocabulary K] in
theorem sound_passOver : (passOver : Parser K Unit).Sound :=
  (sound_iterate turns_passToken 0).discard

omit [LawfulVocabulary K] in
/-- Something is passed over unless it belongs to the construct around. -/
theorem ends_passOver_eats
    {s : Site K}
    (hleft : 0 < s.left)
    (hpeek : Vocabulary.delimiter? s.peek ∉ [some .closing, some .separator]) :
    (passOver : Parser K Unit).Ends s fun _ t => s.Grows t ∧ t.left < s.left := by
  refine ends_discard (ends_iterate_of_first turns_passToken ?_)
  exact (ends_passToken 0 hleft).mono fun _ _ ht => ⟨ht.1, ht.2 (.inr hpeek)⟩

theorem plants_tooDeep : (tooDeep : Parser K Unit).Plants :=
  (plants_node LawfulVocabulary.error_ne_tombstone ((sound_report _).seq sound_passOver)).discard

end Recovery
end Parser
end ZigCst
