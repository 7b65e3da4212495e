import ZigCst.Proofs.Lockstep

/-!
# Constructs that end with a stop

A construct that ends with a stop does not depend on much of what follows it, though
what follows may have to fit: nothing goes on with the construct in one stream, and
nothing does in the other.

**Definitions.**
* `Parser.ClosesAt`: a run ends with a stop, whatever fits may follow.
* `Parser.Closes`: so does every run without reports.
* `Parser.Still`: parsers that neither look nor move.

**Results.**
* `Steady.bind_closes`: what comes last closes the whole.
* `closes_expect`: a stop that must be there closes.
* `ClosesAt.moves_or_bump`: a turn of a loop ends with a stop if the part that it takes
  does.
-/

namespace ZigCst
namespace Parser

variable {K α β : Type}

section Closing

variable {stop : K → Prop} {fits : K → List (Lexeme K) → List (Lexeme K) → Prop}
  {p : Parser K α} {f : α → Parser K β} {c : Cursor K}

/-- Whether a run from a cursor ends with a stop, and is in step on every stream that
may follow instead of the one that does. -/
structure ClosesAt
    (stop : K → Prop)
    (fits : K → List (Lexeme K) → List (Lexeme K) → Prop)
    (p : Parser K α)
    (c : Cursor K) : Prop where
  stops : ∀ {taken : List (Lexeme K)}, c.Takes taken (p c).cursor →
    ∃ z, taken.getLast? = some z ∧ stop z.kind
  inStep : ∀ {d : Cursor K} {taken y : List (Lexeme K)}, c.Takes taken (p c).cursor →
    (∀ z ∈ taken.getLast?, fits z.kind (p c).cursor.rest y) → d.rest = taken ++ y →
    p.InStep c d taken

/-- Whether every run without reports ends with a stop, and is in step on what may follow
instead. -/
structure Closes
    (stop : K → Prop)
    (fits : K → List (Lexeme K) → List (Lexeme K) → Prop)
    (p : Parser K α) : Prop where
  forward : p.Forward
  closesAt : ∀ {c : Cursor K}, Trace.reports (p c).trace = 0 → p.ClosesAt stop fits c

/-- What comes last closes the whole. -/
theorem Steady.bind_closesAt
    (hp : p.Steady stop)
    (hforward : ∀ a, (f a).Forward)
    (hf : (f (p c).value).ClosesAt stop fits (p c).cursor) :
    (p >>= f).ClosesAt stop fits c := by
  constructor
  · intro taken htakes
    obtain ⟨first, second, rfl, -, hsecond⟩ := hp.forward.exists_takes hforward htakes
    obtain ⟨z, hz, hstop⟩ := hf.stops hsecond
    exact ⟨z, by rw [List.getLast?_append, hz]; rfl, hstop⟩
  · intro d taken y htakes hfits hd
    obtain ⟨first, second, rfl, hfirst, hsecond⟩ := hp.forward.exists_takes hforward htakes
    obtain ⟨z, hz, hstop⟩ := hf.stops hsecond
    rw [List.append_assoc] at hd
    have hpstep : p.InStep c d first := by
      refine hp.inStep hfirst hd ?_
      rw [hsecond.rest]
      exact AgreeTo.of_getLast? hz hstop _ y
    have hlast : ∀ z ∈ second.getLast?, fits z.kind (f (p c).value (p c).cursor).cursor.rest y := by
      intro z hz
      refine hfits z ?_
      rw [List.getLast?_append, Option.mem_def.mp hz]
      rfl
    exact hpstep.bind (hf.inStep hsecond hlast (hpstep.rest_eq hd))

theorem Steady.bind_closes
    (hp : p.Steady stop)
    (hf : ∀ a, (f a).Closes stop fits) :
    (p >>= f).Closes stop fits where
  forward := hp.forward.bind fun a => (hf a).forward
  closesAt hquiet :=
    hp.bind_closesAt (fun a => (hf a).forward) ((hf _).closesAt (reports_bind hquiet).2)

/-- Whether a parser neither looks nor moves. -/
def Still (p : Parser K α) : Prop := ∃ a trace, ∀ c, p c = ⟨a, c, trace⟩

theorem still_pure (a : α) : (pure a : Parser K α).Still := ⟨a, [], fun _ => rfl⟩

theorem still_complete (kind : K) :
    (do emit (.complete kind); return kind : Parser K K).Still :=
  ⟨kind, [.complete kind], fun _ => rfl⟩

/-- A construct is closed before the last node of it is completed. -/
theorem Closes.bind_still
    (hp : p.Closes stop fits)
    (hf : ∀ a, (f a).Still) :
    (p >>= f).Closes stop fits := by
  have hcursor : ∀ c, ((p >>= f) c).cursor = (p c).cursor := by
    intro c
    obtain ⟨b, trace, hrun⟩ := hf (p c).value
    change (f (p c).value (p c).cursor).cursor = _
    rw [hrun]
  refine ⟨fun c => hcursor c ▸ hp.forward c, fun {c} hquiet => ?_⟩
  have hcloses := hp.closesAt (reports_bind hquiet).1
  constructor
  · intro taken htakes
    exact hcloses.stops (hcursor c ▸ htakes)
  · intro d taken y htakes hfits hd
    rw [hcursor] at htakes hfits
    have hstep := hcloses.inStep htakes hfits hd
    obtain ⟨b, trace, hrun⟩ := hf (p c).value
    have hstill : (f (p c).value).InStep (p c).cursor (p d).cursor [] := by
      constructor
      · rw [hrun, hrun]
      · rw [hrun, hrun]
      · rw [hrun]
        exact .refl _
    have hboth := hstep.bind hstill
    rwa [List.append_nil] at hboth

theorem Closes.discard (h : p.Closes stop fits) :
    (discard p : Parser K Unit).Closes stop fits :=
  h.bind_still fun _ => still_pure ()

theorem Closes.nodeOf
    {body : Parser K K}
    (h : body.Closes stop fits) :
    (nodeOf body).Closes stop fits :=
  (steady_emit _).bind_closes fun _ => h.bind_still fun kind => still_complete kind

theorem Closes.node
    {kind : K}
    {body : Parser K Unit}
    (h : body.Closes stop fits) :
    (node kind body).Closes stop fits :=
  Closes.nodeOf (h.bind_still fun _ => still_pure kind)

theorem Closes.ite
    {holds : Bool}
    {q : Parser K α}
    (hp : p.Closes stop fits)
    (hq : q.Closes stop fits) :
    (if holds then p else q).Closes stop fits := by
  cases holds
  · exact hq
  · exact hp

/-- What is ahead decides which construct it is. -/
theorem ClosesAt.of_look
    (look : List (Lexeme K) → Parser K α)
    (hp : ∀ c, p c = look c.rest c)
    (hagree : ∀ x y, AgreeTo stop x y → look x = look y)
    (h : (look c.rest).ClosesAt stop fits c) :
    p.ClosesAt stop fits c := by
  constructor
  · intro taken htakes
    rw [hp] at htakes
    exact h.stops htakes
  · intro d taken y htakes hfits hd
    rw [hp] at htakes hfits
    obtain ⟨z, hz, hstop⟩ := h.stops htakes
    have hsame : look c.rest = look d.rest := by
      rw [htakes.rest, hd]
      exact hagree _ _ (AgreeTo.of_getLast? hz hstop _ y)
    have hstep := h.inStep htakes hfits hd
    constructor
    · rw [hp, hp, ← hsame]
      exact hstep.value
    · rw [hp, hp, ← hsame]
      exact hstep.trace
    · rw [hp, ← hsame]
      exact hstep.takes

variable [DecidableEq K] [Vocabulary K]

theorem Faults.closes
    (h : p.Faults)
    (hsteady : p.Steady stop) :
    p.Closes stop fits where
  forward := hsteady.forward
  closesAt {c} hquiet := absurd hquiet (h.reports_ne_zero c)

omit [DecidableEq K] in
/-- Two lexemes ahead decide, the second only behind one that does not stop. -/
theorem closes_peek_nth_bind
    {f : K → K → Parser K α}
    (hf : ∀ kind next, (f kind next).Closes stop fits)
    (hstop : ∀ kind, stop kind → ∀ next next', f kind next = f kind next') :
    (peek >>= fun kind => nth 1 >>= fun next => f kind next).Closes stop fits where
  forward c := (hf (kindAt 0 c.rest) (kindAt 1 c.rest)).forward c
  closesAt hquiet := by
    refine .of_look (fun ls => f (kindAt 0 ls) (kindAt 1 ls)) (fun _ => rfl) (fun x y h => ?_)
      ((hf _ _).closesAt hquiet)
    rw [← kindAt_zero_eq h]
    by_cases hzero : stop (kindAt 0 x)
    · exact hstop _ hzero _ _
    · rw [kindAt_one_eq h hzero]

theorem expect_eq
    (kind : K)
    (c : Cursor K) :
    (expect kind : Parser K Unit) c =
      if kindAt 0 c.rest == kind then (advance : Parser K Unit) c
      else ⟨(), c, [.report (.expected kind (kindAt 0 c.rest))]⟩ := by
  have hrun : (expect kind : Parser K Unit) c =
      (do
        unless ← (if kindAt 0 c.rest == kind then (do advance; return true) else return false :
          Parser K Bool) do
            report (.expected kind (← peek)) : Parser K Unit) c := rfl
  rw [hrun]
  split
  · change Outcome.mk () ((advance : Parser K Unit) c).cursor
      (((advance : Parser K Unit) c).trace ++ [] ++ []) = _
    rw [List.append_nil, List.append_nil]
  · rfl

theorem expect_of_cons
    {kind : K}
    {c : Cursor K}
    {l : Lexeme K}
    {rest : List (Lexeme K)}
    (h : c.rest = l :: rest)
    (hkind : l.kind = kind) :
    (expect kind : Parser K Unit) c = ⟨(), c.next, [.advance]⟩ := by
  rw [expect_eq, if_pos, advance_of_cons h]
  simp [kindAt, h, hkind]

theorem expect_of_ne
    {kind : K}
    {c : Cursor K}
    (h : kindAt 0 c.rest ≠ kind) :
    (expect kind : Parser K Unit) c = ⟨(), c, [.report (.expected kind (kindAt 0 c.rest))]⟩ := by
  rw [expect_eq, if_neg]
  simpa using h

/-- A lexeme that must be there is there if nothing is reported. -/
theorem exists_rest_of_expect
    {kind : K}
    {c : Cursor K}
    (heof : kind ≠ Vocabulary.eof)
    (hquiet : Trace.reports ((expect kind : Parser K Unit) c).trace = 0) :
    ∃ l rest, c.rest = l :: rest ∧ l.kind = kind := by
  by_cases hat : kindAt 0 c.rest = kind
  · cases hc : c.rest with
    | nil =>
        rw [hc] at hat
        exact absurd hat.symm heof
    | cons l rest =>
        rw [hc] at hat
        exact ⟨l, rest, rfl, hat⟩
  · rw [expect_of_ne hat] at hquiet
    exact absurd hquiet Nat.one_ne_zero

/-- A lexeme that stops and must be there closes a construct. -/
theorem closes_expect
    {kind : K}
    (hkind : stop kind)
    (heof : kind ≠ Vocabulary.eof) :
    (expect kind : Parser K Unit).Closes stop fits := by
  have hsteady : (expect kind : Parser K Unit).Steady stop := steady_expect kind
  refine ⟨hsteady.forward, fun {c} hquiet => ?_⟩
  obtain ⟨l, rest, hc, hl⟩ := exists_rest_of_expect heof hquiet
  have hrun := expect_of_cons hc hl
  have htaken : ∀ {taken : List (Lexeme K)},
      c.Takes taken ((expect kind : Parser K Unit) c).cursor → taken = [l] := by
    intro taken htakes
    rw [hrun] at htakes
    exact htakes.unique (.next hc)
  constructor
  · intro taken htakes
    obtain rfl := htaken htakes
    exact ⟨l, rfl, hl ▸ hkind⟩
  · intro d taken y htakes _ hd
    obtain rfl := htaken htakes
    have hrun' := expect_of_cons hd hl
    constructor
    · rw [hrun, hrun']
    · rw [hrun, hrun']
    · rw [hrun']
      exact .next hd

end Closing

/-! ## One turn -/

section Turns

variable {stop : K → Prop} {fits : K → List (Lexeme K) → List (Lexeme K) → Prop}
  {c : Cursor K} [Vocabulary K] [DecidableEq K] {q : Parser K Unit} (fault : Fault K)

/-- A turn asks for another one. -/
theorem gives_moves_or_bump (q : Parser K Unit) :
    (do
      unless ← moves q do
        bump fault
      return true : Parser K Bool).Gives (· = true) :=
  gives_bind fun _ => Gives.ite (gives_pure rfl) (gives_bind fun _ => gives_pure rfl)

/-- A turn that takes something leaves no error node. -/
theorem moves_or_bump_eq
    (h : (q c).cursor.left < c.left) :
    (do
      unless ← moves q do
        bump fault
      return true : Parser K Bool) c = ⟨true, (q c).cursor, (q c).trace⟩ := by
  have hmoves : moves q c = ⟨true, (q c).cursor, (q c).trace⟩ := by
    rw [moves_eq, decide_eq_true h]
  change (let o := moves q c
    let r := (if o.value = true then pure true else (do bump fault; return true) :
      Parser K Bool) o.cursor
    Outcome.mk r.value r.cursor (o.trace ++ r.trace)) = _
  rw [hmoves]
  change Outcome.mk true (q c).cursor ((q c).trace ++ []) = _
  rw [List.append_nil]

/-- A turn that reports nothing takes something. -/
theorem left_lt_of_moves_or_bump
    [LawfulVocabulary K]
    {fault : Fault K}
    (h : Trace.reports ((do
      unless ← moves q do
        bump fault
      return true : Parser K Bool) c).trace = 0) :
    (q c).cursor.left < c.left := by
  refine Decidable.byContradiction fun hleft => ?_
  have hsecond := (reports_bind h).2
  have hvalue : (moves q c).value = false := decide_eq_false hleft
  rw [hvalue] at hsecond
  have hfaults : (do bump fault; return true : Parser K Bool).Faults :=
    (faults_bump fault).bind fun _ => sound_pure _
  exact hfaults.reports_ne_zero _ hsecond

theorem ClosesAt.moves_or_bump
    (h : q.ClosesAt stop fits c)
    (hleft : (q c).cursor.left < c.left) :
    (do
      unless ← moves q do
        bump fault
      return true : Parser K Bool).ClosesAt stop fits c := by
  have hrun := moves_or_bump_eq fault hleft
  constructor
  · intro taken htakes
    rw [hrun] at htakes
    exact h.stops htakes
  · intro d taken y htakes hfits hd
    rw [hrun] at htakes hfits
    have hstep := h.inStep htakes hfits hd
    have hleft' : (q d).cursor.left < d.left :=
      hstep.takes.left_lt_iff.mpr (htakes.left_lt_iff.mp hleft)
    have hrun' := moves_or_bump_eq fault hleft'
    constructor
    · rw [hrun, hrun']
    · rw [hrun, hrun', hstep.trace]
    · rw [hrun']
      exact hstep.takes

end Turns
end Parser
end ZigCst
