import ZigCst.Proofs.ZonLanguage

/-!
# What holds of every node

A property of a node by its kind and its children holds everywhere in a shape if
every node of the shape has it.  A parser upholds the property if, from a site
whose children have it everywhere, its run ends at such a site.  The children of a
node are seen when it is completed, so only the parsers that complete a node whose
kind is concerned have to say anything.

**Definitions.**
* `Shape.Everywhere P`: every node has the property `P`.
* `Parser.Upholds P`: a run adds nothing that lacks `P` somewhere.
* `Zon.HoldsOfLeaves`: what a property has to hold of so that every Zon file has it.
* `Zon.NamesWhole`: a name is one identifier.

**Results.**
* `upholds_nodeOf`, `upholds_iterate` and their like: the rules follow the
  combinators.
* `Zon.upholds_document_of`: what is true of names and strings as they are parsed is
  true of all of them, however malformed the file is.
* `Zon.upholds_document`: in a Zon file, every name is one identifier.
-/

namespace ZigCst

/-! ## Shapes -/

namespace Shape

variable {α β K : Type}

mutual

/-- Whether every node has a property of its kind and its children. -/
def Everywhere (P : K → List (Shape α K) → Prop) : Shape α K → Prop
  | .leaf _ => True
  | .node kind children => P kind children ∧ AllEverywhere P children

/-- Whether every node of neighbouring shapes has a property. -/
def AllEverywhere (P : K → List (Shape α K) → Prop) : List (Shape α K) → Prop
  | [] => True
  | s :: ss => s.Everywhere P ∧ AllEverywhere P ss

end

variable {P : K → List (Shape α K) → Prop}

theorem allEverywhere_iff {ss : List (Shape α K)} :
    AllEverywhere P ss ↔ ∀ s ∈ ss, s.Everywhere P := by
  induction ss with
  | nil => simp [AllEverywhere]
  | cons s ss ih =>
      rw [AllEverywhere, ih]
      simp

theorem everywhere_leaf (a : α) : (leaf a : Shape α K).Everywhere P := trivial

theorem everywhere_node_iff
    {kind : K}
    {children : List (Shape α K)} :
    (node kind children).Everywhere P ↔ P kind children ∧ ∀ s ∈ children, s.Everywhere P := by
  rw [Everywhere, allEverywhere_iff]

end Shape

/-! ## Parsers -/

section Sites

variable {K : Type} {P : K → List (Shape K K) → Prop}

/-- Whether all children have a property everywhere. -/
def Site.Everywhere (P : K → List (Shape K K) → Prop) (s : Site K) : Prop :=
  ∀ c ∈ s.children, c.Everywhere P

theorem Site.everywhere_opened (s : Site K) : s.opened.Everywhere P := by
  intro c hc
  exact absurd hc List.not_mem_nil

theorem Site.Everywhere.advanced
    {s : Site K}
    (h : s.Everywhere P) :
    s.advanced.Everywhere P := by
  obtain ⟨⟨prev, rest, left, hleft⟩, behind, children, reports⟩ := s
  cases rest with
  | nil => exact h
  | cons l rest => exact List.forall_mem_cons.mpr ⟨Shape.everywhere_leaf _, h⟩

/-- What was added has the property, and so had what was there before. -/
theorem Site.Adds.everywhere
    {s t : Site K}
    {taken : List K}
    {new : List (Shape K K)}
    (h : s.Adds taken new t)
    (hnew : ∀ c ∈ new, c.Everywhere P)
    (hs : s.Everywhere P) :
    t.Everywhere P := by
  intro c hc
  rw [h.children] at hc
  rcases List.mem_append.mp hc with hc | hc
  · exact hnew c (List.mem_reverse.mp hc)
  · exact hs c hc

theorem Site.Everywhere.closed
    {s t : Site K}
    {kind : K}
    (hs : s.Everywhere P)
    (ht : t.Everywhere P)
    (hkind : P kind t.children.reverse) :
    (s.closed t kind).Everywhere P := by
  refine List.forall_mem_cons.mpr ⟨Shape.everywhere_node_iff.mpr ⟨hkind, fun c hc => ?_⟩, hs⟩
  exact ht c (List.mem_reverse.mp hc)

end Sites

namespace Parser

variable {K α β σ : Type} [DecidableEq K] [Vocabulary K] {P : K → List (Shape K K) → Prop}

/-- From a site, the run keeps a property of all nodes. -/
def UpholdsAt (P : K → List (Shape K K) → Prop) (p : Parser K α) (s : Site K) : Prop :=
  p.Ends s fun _ t => s.Everywhere P → t.Everywhere P

/-- From every site, the run keeps a property of all nodes. -/
def Upholds (P : K → List (Shape K K) → Prop) (p : Parser K α) : Prop :=
  ∀ s : Site K, p.UpholdsAt P s

section Rules

variable {p : Parser K α} {f : α → Parser K β} {s : Site K}

theorem UpholdsAt.bind
    (hp : p.UpholdsAt P s)
    (hf : ∀ a, (f a).Upholds P) :
    (p >>= f).UpholdsAt P s :=
  Ends.bind hp fun a t ht => (hf a t).mono fun _ _ hu hs => hu (ht hs)

theorem Upholds.bind
    (hp : p.Upholds P)
    (hf : ∀ a, (f a).Upholds P) :
    (p >>= f).Upholds P :=
  fun s => (hp s).bind hf

theorem Upholds.seq
    {q : Parser K β}
    (hp : p.Upholds P)
    (hq : q.Upholds P) :
    (p >>= fun _ => q).Upholds P :=
  hp.bind fun _ => hq

theorem UpholdsAt.discard (h : p.UpholdsAt P s) :
    (Functor.discard p : Parser K Unit).UpholdsAt P s :=
  ends_discard h

theorem Upholds.discard (h : p.Upholds P) : (Functor.discard p : Parser K Unit).Upholds P :=
  fun s => (h s).discard

theorem Upholds.ite
    {holds : Bool}
    {p q : Parser K α}
    (hp : p.Upholds P)
    (hq : q.Upholds P) :
    (if holds then p else q).Upholds P := by
  cases holds
  · exact hq
  · exact hp

theorem upholds_pure (a : α) : (pure a : Parser K α).Upholds P := fun _ => ends_pure id

theorem upholds_report (fault : Fault K) : (report fault : Parser K Unit).Upholds P :=
  fun _ => ends_report id

theorem upholds_advance : (advance : Parser K Unit).Upholds P :=
  fun _ => ends_advance Site.Everywhere.advanced

theorem upholds_peek : (peek : Parser K K).Upholds P := fun s => ⟨s, rfl, .nil s, id⟩

theorem upholds_atEnd : (atEnd : Parser K Bool).Upholds P := fun s => ⟨s, rfl, .nil s, id⟩

theorem upholds_text : (text : Parser K Text).Upholds P := fun s => ⟨s, rfl, .nil s, id⟩

theorem upholds_at (kind : K) : (at_ kind : Parser K Bool).Upholds P :=
  upholds_peek.bind fun _ => upholds_pure _

theorem upholds_atAny (set : KindSet K) : (atAny set : Parser K Bool).Upholds P :=
  upholds_peek.bind fun _ => upholds_pure _

theorem upholds_eat (kind : K) : (eat kind : Parser K Bool).Upholds P :=
  fun _ => ends_eat (fun _ => Site.Everywhere.advanced) fun _ => id

theorem upholds_expect (kind : K) : (expect kind : Parser K Unit).Upholds P :=
  fun _ => ends_expect (fun _ => Site.Everywhere.advanced) fun _ => id

/-- A node whose kind is not concerned by the property may have any children. -/
theorem upholds_nodeOf
    {body : Parser K K}
    (hkind : body.Gives fun kind => kind ≠ Vocabulary.tombstone ∧ ∀ children, P kind children)
    (hbody : body.Upholds P) :
    (nodeOf body).Upholds P := by
  intro s
  obtain ⟨t, hcursor, hleads, ht⟩ := hbody s.opened
  refine ends_nodeOf ⟨t, hcursor, hleads, (hkind _).1, fun hs => ?_⟩
  exact hs.closed (ht s.everywhere_opened) ((hkind _).2 _)

theorem upholds_node
    {kind : K}
    {body : Parser K Unit}
    (htombstone : kind ≠ Vocabulary.tombstone)
    (hkind : ∀ children, P kind children)
    (hbody : body.Upholds P) :
    (node kind body).Upholds P :=
  upholds_nodeOf (gives_bind fun _ => gives_pure ⟨htombstone, hkind⟩)
    (hbody.bind fun _ => upholds_pure _)

/-- A loop keeps what its turns keep. -/
theorem upholds_iterate
    {body : σ → Parser K (Bool × σ)}
    (hturns : ∀ v, (body v).Turns Prod.fst)
    (hbody : ∀ v, (body v).Upholds P)
    (v : σ) :
    (iterate body v).Upholds P := by
  intro s
  refine Ends.iterate (I := fun _ t => s.Everywhere P → t.Everywhere P) ?_ id
  intro w t ht
  refine ((hturns w t).and (hbody w t)).mono fun r u hu => ⟨fun hr => ⟨hu.1.2 hr, ?_⟩, fun _ => ?_⟩
  · exact fun hs => hu.2 (ht hs)
  · exact fun hs => hu.2 (ht hs)

theorem upholds_repeatWhile
    {body : Parser K Bool}
    (hturns : body.Turns id)
    (hbody : body.Upholds P) :
    (repeatWhile body).Upholds P :=
  upholds_iterate (fun _ => turns_pair hturns) (fun _ => hbody.bind fun _ => upholds_pure _) ()

end Rules

section Recovery

variable [LawfulVocabulary K] (herror : ∀ children, P Vocabulary.error children)
include herror

theorem upholds_bump (fault : Fault K) : (bump fault : Parser K Unit).Upholds P := by
  refine (upholds_node LawfulVocabulary.error_ne_tombstone herror ?_).discard
  refine (upholds_at _).bind fun _ => Upholds.ite ?_ ?_
  · exact upholds_text.bind fun _ => (upholds_report _).seq upholds_advance
  · exact (upholds_report _).seq upholds_advance

theorem upholds_recover
    (fault : Fault K)
    (recovery : KindSet K) :
    (recover fault recovery : Parser K Unit).Upholds P := by
  refine (upholds_atAny _).bind fun _ => upholds_atEnd.bind fun _ => ?_
  refine Upholds.ite ?_ (upholds_bump herror fault)
  exact (upholds_node LawfulVocabulary.error_ne_tombstone herror (upholds_report _)).discard

omit herror [LawfulVocabulary K] in
theorem upholds_passToken (depth : Nat) :
    (passToken depth : Parser K (Bool × Nat)).Upholds P := by
  have hadvance : ∀ r : Bool × Nat,
      (do advance; return r : Parser K (Bool × Nat)).Upholds P :=
    fun r => upholds_advance.seq (upholds_pure r)
  refine upholds_atEnd.bind fun _ => Upholds.ite (upholds_pure _) (upholds_peek.bind fun _ => ?_)
  split
  · exact hadvance _
  · exact upholds_pure _
  · exact upholds_pure _
  · exact hadvance _
  · exact hadvance _

theorem upholds_tooDeep : (tooDeep : Parser K Unit).Upholds P := by
  refine (upholds_node LawfulVocabulary.error_ne_tombstone herror ?_).discard
  exact (upholds_report _).seq (upholds_iterate turns_passToken upholds_passToken 0).discard

end Recovery
end Parser

/-! ## Names and strings in Zon -/

namespace Zon

open ZigCst.Parser

/-- What a property has to hold of so that every Zon file has it everywhere: of names and
strings as they are parsed, and of all nodes of other kinds. -/
structure HoldsOfLeaves (P : Kind → List (Shape Kind Kind) → Prop) : Prop where
  name : P .ident [.leaf .identifier]
  string : P .stringLiteral [.leaf .stringLiteralSingle]
  lines : ∀ m, P .stringLiteral (List.replicate (m + 1) (.leaf .lineString))
  other : ∀ {kind}, kind ∉ [.ident, .stringLiteral] → ∀ children, P kind children

section Leaves

variable {P : Kind → List (Shape Kind Kind) → Prop} (hP : HoldsOfLeaves P)
include hP

theorem everywhere_name : (Shape.node .ident [.leaf .identifier]).Everywhere P := by
  refine Shape.everywhere_node_iff.mpr ⟨hP.name, fun c hc => ?_⟩
  obtain rfl := List.mem_singleton.mp hc
  exact Shape.everywhere_leaf _

theorem upholdsAt_identifier
    {s : Site Kind}
    (hpeek : s.peek = .identifier) :
    (identifier : Parser Kind Unit).UpholdsAt P s := by
  obtain ⟨rest, hrest⟩ := Site.exists_kinds_of_peek hpeek (by decide)
  refine (ends_identifier_adds hrest).mono fun _ t ht => ht.everywhere ?_
  exact List.forall_mem_singleton.mpr (everywhere_name hP)

theorem upholdsAt_string
    {s : Site Kind}
    (hpeek : s.peek = .stringLiteralSingle) :
    (discard (node .stringLiteral advance) : Parser Kind Unit).UpholdsAt P s := by
  obtain ⟨rest, hrest⟩ := Site.exists_kinds_of_peek hpeek (by decide)
  refine ends_discard (ends_node (by decide) ?_)
  refine (ends_advance_adds (s := s.opened) hrest).mono fun _ t ht hs => ?_
  refine hs.closed (ht.everywhere ?_ s.everywhere_opened) ?_
  · exact List.forall_mem_singleton.mpr (Shape.everywhere_leaf _)
  · have hchildren : t.children = [.leaf .stringLiteralSingle] := ht.children
    exact hchildren ▸ hP.string

theorem upholdsAt_lines
    {s : Site Kind}
    (hpeek : s.peek = .lineString) :
    (discard (node .stringLiteral (repeatWhile (eat .lineString))) : Parser Kind Unit).UpholdsAt
      P s := by
  refine (ends_lines_adds hpeek).mono fun _ t ⟨m, hadds, _⟩ => hadds.everywhere ?_
  refine List.forall_mem_singleton.mpr (Shape.everywhere_node_iff.mpr ⟨hP.lines m, fun c hc => ?_⟩)
  obtain rfl := (List.mem_replicate.mp hc).2
  exact Shape.everywhere_leaf _

section Containers

variable
  {value : KindSet Kind → Parser Kind Unit}
  (hsound : ValueSound value)
  (h : ∀ recovery, (value recovery).Upholds P)
include h

theorem upholds_entry : (entry value).Upholds P := by
  intro s
  rw [UpholdsAt, entry, routine_eq, ends_at_bind, ends_nthAt_bind, ends_nthAt_bind]
  refine Ends.bind (P := fun _ t => s.Everywhere P → t.Everywhere P) ?_
    fun _ _ ht => ends_pure ht
  refine ends_discard (ends_node (by decide) ?_)
  refine Ends.mono (P := fun _ t => t.Everywhere P) ?_
    fun _ t ht hs => hs.closed ht (hP.other (by decide) _)
  split
  · rename_i hnamed
    obtain ⟨rest, hrest⟩ := named_iff.mp hnamed
    refine ends_name_bind (s := s.opened) hrest fun t ht => ?_
    refine (h entryRecovery t).mono fun _ u hu => hu (ht.everywhere ?_ s.everywhere_opened)
    simpa [Shape.everywhere_leaf] using everywhere_name hP
  · exact (h entryRecovery s.opened).mono fun _ t ht => ht s.everywhere_opened

theorem upholds_entryAndComma (entries : Entries) :
    (entryAndComma value entries).Upholds P := by
  refine (upholds_at _).bind fun _ => upholds_atEnd.bind fun _ => Upholds.ite (upholds_pure _) ?_
  refine (upholds_at _).bind fun _ => Upholds.ite ?_ ?_
  · exact (upholds_bump (hP.other (by decide)) _).seq (upholds_pure _)
  refine (upholds_entry hP h).bind fun named => (upholds_eat _).bind fun _ => ?_
  refine Upholds.ite (upholds_pure _) ?_
  refine (upholds_at _).bind fun _ => upholds_atEnd.bind fun _ => Upholds.ite (upholds_pure _) ?_
  exact (upholds_report _).seq (upholds_pure _)

include hsound

theorem upholds_container : (container value).Upholds P := by
  refine (upholds_nodeOf ?_ ?_).discard
  · refine gives_bind fun _ => gives_bind fun _ => gives_bind fun entries => gives_bind fun _ => ?_
    refine gives_pure ⟨entries.kind_ne_tombstone, hP.other ?_⟩
    rw [Entries.kind]
    split <;> decide
  · refine upholds_advance.seq (upholds_advance.seq ?_)
    refine (upholds_iterate (turns_entryAndComma hsound) (upholds_entryAndComma hP h) _).bind ?_
    exact fun _ => (upholds_expect _).seq (upholds_pure _)

theorem upholds_valueWith (recovery : KindSet Kind) :
    (valueWith value recovery).Upholds P := by
  intro s
  rw [UpholdsAt, valueWith, ends_peek_bind]
  have hnode : ∀ {kind : Kind} {body : Parser Kind Unit}, kind ≠ .tombstone →
      kind ∉ [.ident, .stringLiteral] → body.Upholds P →
      (discard (node kind body) : Parser Kind Unit).UpholdsAt P s :=
    fun htombstone hkind hbody => (upholds_node htombstone (hP.other hkind) hbody).discard s
  have hrecover := upholds_recover (P := P) (hP.other (by decide))
    .expectedValue recovery s
  split
  · rename_i hpeek
    rw [ends_nth_bind]
    split
    · exact upholds_container hP hsound h s
    · rename_i hnth
      obtain ⟨rest, hrest⟩ :=
        Site.exists_kinds_of_nth_one hpeek (by decide) hnth (by decide)
      have hbody : (do advance; identifier : Parser Kind Unit).Ends s.opened fun _ t =>
          s.opened.Adds ([Kind.dot] ++ [Kind.identifier])
            ([Shape.leaf Kind.dot] ++ [Shape.node Kind.ident [Shape.leaf Kind.identifier]]) t :=
        (ends_advance_adds (s := s.opened) hrest).adds_seq fun t ht =>
          ends_identifier_adds (ht.kinds_eq hrest)
      refine ends_discard (ends_node (by decide) (hbody.mono fun _ t ht hs => ?_))
      refine hs.closed (ht.everywhere ?_ s.everywhere_opened) (hP.other (by decide) _)
      simpa [Shape.everywhere_leaf] using everywhere_name hP
    · exact hrecover
  · rename_i hpeek
    exact upholdsAt_string hP hpeek
  · rename_i hpeek
    exact upholdsAt_lines hP hpeek
  · exact hnode (by decide) (by decide) upholds_advance
  · exact hnode (by decide) (by decide) upholds_advance
  · exact hnode (by decide) (by decide) upholds_advance
  · refine hnode (by decide) (by decide) (upholds_advance.seq ((upholds_eat _).bind fun _ => ?_))
    refine Upholds.ite (upholds_pure _) ((upholds_eat _).bind fun _ => ?_)
    exact Upholds.ite (upholds_pure _) (upholds_report _)
  · rename_i hpeek
    exact upholdsAt_identifier hP hpeek
  · exact hrecover

end Containers

theorem upholds_value
    (depth : Nat)
    (recovery : KindSet Kind) :
    (value depth recovery).Upholds P := by
  induction depth generalizing recovery with
  | zero => exact upholds_tooDeep (hP.other (by decide))
  | succ depth ih => exact upholds_valueWith hP (valueSound_value depth) ih recovery

theorem upholds_remains : (remains : Parser Kind Unit).Upholds P := by
  have hturns : (do advance; return !(← atEnd) : Parser Kind Bool).Turns id := by
    intro s
    refine ends_advance_bind ?_
    rw [ends_atEnd_bind]
    refine ends_pure ⟨s.grows_advanced, fun hagain => ?_⟩
    have hleft : 0 < s.advanced.left := Site.left_pos_iff.mpr (by simpa using hagain)
    exact Site.left_advanced (Nat.lt_of_lt_of_le hleft s.grows_advanced.left)
  refine (upholds_node (by decide) (hP.other (by decide)) ?_).discard
  refine (upholds_report _).seq (upholds_repeatWhile hturns ?_)
  exact upholds_advance.seq (upholds_atEnd.bind fun _ => upholds_pure _)

/-- What is true of names and strings as they are parsed is true of all of them. -/
theorem upholds_document_of : document.Upholds P := by
  have hrest : (do
      unless ← atEnd do
        remains : Parser Kind Unit).Upholds P :=
    upholds_atEnd.bind fun _ => Upholds.ite (upholds_pure _) (upholds_remains hP)
  refine upholds_atEnd.bind fun _ => Upholds.ite ?_ ?_
  · exact (upholds_report _).seq hrest
  · exact (upholds_value hP _ _).seq hrest

end Leaves

/-- Whether a node is one identifier if it is a name. -/
def NamesWhole (kind : Kind) (children : List (Shape Kind Kind)) : Prop :=
  kind = .ident → children = [.leaf .identifier]

/-- Other nodes than names may have any children. -/
theorem namesWhole_of_ne
    {kind : Kind}
    (hkind : kind ≠ .ident)
    (children : List (Shape Kind Kind)) :
    NamesWhole kind children :=
  fun h => absurd h hkind

theorem holdsOfLeaves_namesWhole : HoldsOfLeaves NamesWhole where
  name := fun _ => rfl
  string := namesWhole_of_ne (by decide) _
  lines := fun _ => namesWhole_of_ne (by decide) _
  other := fun hkind => namesWhole_of_ne fun heq => hkind (by simp [heq])

/-- In every file, every name is one identifier. -/
theorem upholds_document : document.Upholds NamesWhole :=
  upholds_document_of holdsOfLeaves_namesWhole

end Zon
end ZigCst
