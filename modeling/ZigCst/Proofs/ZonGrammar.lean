import ZigCst.Proofs.Soundness
import ZigCst.Zon.Parse

/-!
# The Zon grammar is sound

Every value plants one node.  The loop over the entries of a container turns only
after an entry or a comma, and an entry takes something: where no comma, no
closing brace and no end stands, every value does, be it nested too deep or no
value at all.

**Results.**
* `valueSound_value`: values plant one node each, and take something where an entry
  may start.
* `ends_document`: a file is taken up to its end.
-/

namespace ZigCst
namespace Zon

open ZigCst.Parser

/-- A parser of values plants one node, and takes something where an entry may
start. -/
structure ValueSound (value : KindSet Kind → Parser Kind Unit) : Prop where
  plants : ∀ recovery, (value recovery).Plants
  eats : ∀ s : Site Kind, 0 < s.left → s.peek ≠ .comma → s.peek ≠ .rightBrace →
    (value entryRecovery).Ends s fun _ t => s.Grows t ∧ t.left < s.left

theorem contains_entryRecovery (kind : Kind) :
    entryRecovery.contains kind = (kind == .comma || kind == .rightBrace) := by
  cases kind <;> decide

/-- Zon has no other delimiters. -/
theorem delimiter_notMem
    {kind : Kind}
    (hcomma : kind ≠ .comma)
    (hbrace : kind ≠ .rightBrace) :
    Vocabulary.delimiter? kind ∉ [some .closing, some .separator] := by
  cases kind <;> first | contradiction | decide

theorem plants_identifier : (identifier : Parser Kind Unit).Plants :=
  (plants_node (by decide) sound_advance).discard

theorem eats_identifier : (identifier : Parser Kind Unit).Eats :=
  fun s => ends_discard (eats_node (by decide) eats_advance s)

section Containers

variable {value : KindSet Kind → Parser Kind Unit} (h : ValueSound value)
include h

theorem ends_entry
    {s : Site Kind}
    (hleft : 0 < s.left)
    (hcomma : s.peek ≠ .comma)
    (hbrace : s.peek ≠ .rightBrace) :
    (entry value).Ends s fun _ t => s.Grows t ∧ t.left < s.left := by
  rw [entry, routine_eq, ends_at_bind, ends_nthAt_bind, ends_nthAt_bind]
  refine Ends.bind (P := fun _ t => s.Grows t ∧ t.left < s.left) ?_ fun _ t ht => ends_pure ht
  refine ends_discard (ends_node (by decide) ?_)
  refine Ends.mono (P := fun _ t => s.opened.Grows t ∧ t.left < s.left) ?_
    fun _ t ht => ⟨(Site.plants_closed ht.1).grows, ht.2⟩
  split
  · have hnamed : (do
        advance
        identifier
        advance
        value entryRecovery : Parser Kind Unit).Eats :=
      eats_advance.bind fun _ => plants_identifier.sound.seq <|
        sound_advance.seq (h.plants entryRecovery).sound
    exact hnamed.ends hleft
  · exact h.eats s.opened hleft hcomma hbrace

/-- An entry is taken apart wherever it is asked for. -/
theorem sound_entry : (entry value).Sound := by
  have hvalue := (h.plants entryRecovery).sound
  have hnamed := sound_advance.seq (plants_identifier.sound.seq (sound_advance.seq hvalue))
  refine (sound_at _).bind fun _ => (sound_nthAt _ _).bind fun _ => ?_
  refine (sound_nthAt _ _).bind fun _ => ?_
  exact (plants_node (by decide) (hnamed.ite hvalue)).discard.sound.bind fun _ => sound_pure _

/-- Entries go on only after something was taken. -/
theorem turns_entryAndComma (entries : Entries) :
    (entryAndComma value entries).Turns Prod.fst := by
  intro s
  rw [entryAndComma, ends_at_bind, ends_atEnd_bind]
  split
  · exact ends_pure ⟨.refl s, by simp⟩
  rename_i hend
  have hbrace : s.peek ≠ .rightBrace := by simp_all
  have hleft : 0 < s.left := Site.left_pos_iff.mpr (by simp_all)
  rw [ends_at_bind]
  split
  · exact ((eats_bump _).ends hleft).bind fun _ t ht => ends_pure ⟨ht.1, fun _ => ht.2⟩
  rename_i hcomma
  refine (ends_entry h hleft (by simpa using hcomma) hbrace).bind fun isNamed t ht => ?_
  refine (sound_eat _ t).bind fun found u hu => ?_
  have hgrows := ht.1.trans hu
  have hless := Nat.lt_of_le_of_lt hu.left ht.2
  cases found with
  | true => exact ends_pure ⟨hgrows, fun _ => hless⟩
  | false =>
      simp only [Bool.false_eq_true, if_false, ends_at_bind, ends_atEnd_bind]
      split
      · exact ends_pure ⟨hgrows, by simp⟩
      · exact ends_report_bind (ends_pure ⟨hgrows.trans u.grows_faulted, fun _ => hless⟩)

omit h in
theorem Entries.kind_ne_tombstone (entries : Entries) : entries.kind ≠ .tombstone := by
  rw [kind]
  split <;> decide

theorem eats_containerBody : (containerBody value).Eats :=
  eats_advance.bind fun _ => sound_advance.seq <|
    (sound_iterate (turns_entryAndComma h) _).bind fun _ => (sound_expect _).seq (sound_pure _)

omit h in
theorem gives_containerBody : (containerBody value).Gives (· ≠ Vocabulary.tombstone) := by
  refine gives_bind fun _ => gives_bind fun _ => gives_bind fun entries => gives_bind fun _ => ?_
  exact gives_pure entries.kind_ne_tombstone

theorem plants_container : (container value).Plants :=
  (plants_nodeOf gives_containerBody (eats_containerBody h).sound).discard

theorem eats_container : (container value).Eats :=
  (eats_nodeOf gives_containerBody (eats_containerBody h)).discard

end Containers

/-- A minus is consumed whether or not a number follows it. -/
theorem eats_negativeBody :
    (do
      advance
      unless ← eat .integer do
        unless ← eat .float do
          report .expectedNumber : Parser Kind Unit).Eats := by
  refine eats_advance.bind fun _ => (sound_eat _).bind fun _ => Sound.ite (sound_pure _) ?_
  exact (sound_eat _).bind fun _ => Sound.ite (sound_pure _) (sound_report _)

theorem turns_lineString : (eat .lineString : Parser Kind Bool).Turns id := turns_eat (by decide)

section Values

variable {value : KindSet Kind → Parser Kind Unit} (h : ValueSound value)
include h

theorem plants_valueWith (recovery : KindSet Kind) : (valueWith value recovery).Plants := by
  intro s
  rw [valueWith, ends_peek_bind]
  have htoken : ∀ {kind : Kind}, kind ≠ .tombstone →
      (discard (node kind advance) : Parser Kind Unit).Ends s fun _ t => s.Plants t :=
    fun hkind => (plants_node hkind sound_advance).discard s
  split
  · rw [ends_nth_bind]
    split
    · exact plants_container h s
    · exact (plants_node (by decide) (sound_advance.seq plants_identifier.sound)).discard s
    · exact plants_recover _ _ s
  · exact htoken (by decide)
  · exact (plants_node (by decide) (sound_repeatWhile turns_lineString)).discard s
  · exact htoken (by decide)
  · exact htoken (by decide)
  · exact htoken (by decide)
  · exact (plants_node (by decide) eats_negativeBody.sound).discard s
  · exact plants_identifier s
  · exact plants_recover _ _ s

omit h in
/-- What starts no value goes into an error node unless it belongs to the container. -/
theorem ends_recover_eats
    {s : Site Kind}
    (hleft : 0 < s.left)
    (hcomma : s.peek ≠ .comma)
    (hbrace : s.peek ≠ .rightBrace) :
    (recover .expectedValue entryRecovery : Parser Kind Unit).Ends s fun _ t =>
      s.Grows t ∧ t.left < s.left := by
  have hend : s.kinds.isEmpty = false := by
    simpa using Site.left_pos_iff.mp hleft
  rw [recover, ends_atAny_bind, ends_atEnd_bind, contains_entryRecovery, hend]
  simp only [beq_eq_false_iff_ne.mpr hcomma, beq_eq_false_iff_ne.mpr hbrace, Bool.or_false,
    Bool.false_eq_true, if_false]
  exact (eats_bump _).ends hleft

theorem valueSound_valueWith : ValueSound (valueWith value) := by
  refine ⟨plants_valueWith h, ?_⟩
  intro s hleft hcomma hbrace
  rw [valueWith, ends_peek_bind]
  have htoken : ∀ {kind : Kind}, kind ≠ .tombstone →
      (discard (node kind advance) : Parser Kind Unit).Ends s fun _ t =>
        s.Grows t ∧ t.left < s.left :=
    fun hkind => (eats_node hkind eats_advance).discard.ends hleft
  split
  · rw [ends_nth_bind]
    split
    · exact (eats_container h).ends hleft
    · refine (eats_node (by decide) ?_).discard.ends hleft
      exact eats_advance.bind fun _ => plants_identifier.sound
    · exact ends_recover_eats hleft hcomma hbrace
  · exact htoken (by decide)
  · rename_i hpeek
    have hfirst : (eat .lineString : Parser Kind Bool).Ends s.opened fun _ t =>
        s.opened.Grows t ∧ t.left < s.left :=
      ends_eat (fun _ => ⟨s.opened.grows_advanced, Site.left_advanced hleft⟩)
        fun hne => absurd hpeek hne
    refine ends_discard (ends_node (by decide) ?_)
    refine (ends_repeatWhile_of_first turns_lineString hfirst).mono fun _ t ht => ?_
    exact ⟨(Site.plants_closed ht.1).grows, ht.2⟩
  · exact htoken (by decide)
  · exact htoken (by decide)
  · exact htoken (by decide)
  · exact (eats_node (by decide) eats_negativeBody).discard.ends hleft
  · exact eats_identifier.ends hleft
  · exact ends_recover_eats hleft hcomma hbrace

end Values

theorem valueSound_value (depth : Nat) : ValueSound (value depth) := by
  induction depth with
  | zero =>
      refine ⟨fun _ => plants_tooDeep, ?_⟩
      intro s hleft hcomma hbrace
      have hpeek : Vocabulary.delimiter? s.peek ∉ [some .closing, some .separator] :=
        delimiter_notMem hcomma hbrace
      refine ends_discard (ends_node (by decide) (ends_report_bind ?_))
      refine (ends_passOver_eats (s := s.opened.faulted) hleft hpeek).mono fun _ t ht => ?_
      exact ⟨(Site.plants_closed (s.opened.grows_faulted.trans ht.1)).grows, ht.2⟩
  | succ depth ih => exact valueSound_valueWith ih

/-! ## Files -/

/-- Everything up to the end is taken, and reported. -/
theorem ends_remains (s : Site Kind) :
    (remains : Parser Kind Unit).Ends s fun _ t =>
      s.Plants t ∧ t.kinds = [] ∧ s.reports < t.reports := by
  refine ends_discard (ends_node (by decide) (ends_report_bind ?_))
  refine Ends.mono (P := fun _ t => s.opened.faulted.Grows t ∧ t.kinds = []) ?_ ?_
  · refine Ends.iterate (I := fun _ t => s.opened.faulted.Grows t) ?_ (.refl _)
    intro _ t ht
    have hturn : (do advance; return !(← atEnd) : Parser Kind Bool).Ends t fun again u =>
        u = t.advanced ∧ again = !u.kinds.isEmpty := by
      refine ends_advance_bind ?_
      rw [ends_atEnd_bind]
      exact ends_pure ⟨rfl, rfl⟩
    refine hturn.bind ?_
    rintro _ _ ⟨rfl, rfl⟩
    have hgrows := ht.trans t.grows_advanced
    refine ends_pure ⟨fun hagain => ⟨?_, hgrows⟩, fun hlast => ⟨hgrows, by simpa using hlast⟩⟩
    have hleft : 0 < t.advanced.left := Site.left_pos_iff.mpr (by simpa using hagain)
    exact Site.left_advanced (Nat.lt_of_lt_of_le hleft t.grows_advanced.left)
  · intro _ t ht
    have hgrows := s.opened.grows_faulted.trans ht.1
    exact ⟨Site.plants_closed hgrows, ht.2, ht.1.reports⟩

/-- What a file consists of is taken up to its end. -/
theorem ends_documentOf
    {value : Parser Kind Unit}
    (hvalue : value.Plants)
    (s : Site Kind) :
    (documentOf value).Ends s fun _ t => s.Grows t ∧ t.kinds = [] := by
  have hremains : ∀ t : Site Kind, s.Grows t →
      (do
        unless ← atEnd do
          remains : Parser Kind Unit).Ends t fun _ u => s.Grows u ∧ u.kinds = [] := by
    intro t ht
    rw [ends_atEnd_bind]
    split
    · rename_i hend
      exact ends_pure ⟨ht, by simpa using hend⟩
    · exact (ends_remains t).mono fun _ u hu => ⟨ht.trans hu.1.grows, hu.2.1⟩
  rw [documentOf, ends_atEnd_bind]
  split
  · exact ends_report_bind (hremains s.faulted s.grows_faulted)
  · refine (hvalue s).bind fun _ t ht => ?_
    exact hremains t ht.grows

/-- A file is taken up to its end. -/
theorem ends_document (s : Site Kind) :
    document.Ends s fun _ t => s.Grows t ∧ t.kinds = [] :=
  ends_documentOf ((valueSound_value maxDepth).plants .empty) s

end Zon
end ZigCst
