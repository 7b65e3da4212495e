import ZigCst.Proofs.Lockstep
import ZigCst.Proofs.Marked
import ZigCst.Proofs.ZigCongruence

/-!
# Runs that nest less deeply

A level of the grammar that may nest more deeply does the same as one that may nest less,
as long as nothing is nested too deep for the latter.  Where something is, the faults are
the same up to that one.

**Definitions.**
* `CutShort`: faults end early with one about the nesting.
* `Parser.Runs`: a run has some faults and ends in some way, unless it is cut short, where
  it may be.
* `Parser.Within`: a parser does the same as another one, unless it is cut short.

**Results.**
* `congruence_within`: the combinators keep runs within others.
* `within_level`: a level runs within those that nest more deeply.
-/

namespace ZigCst

variable {K : Type}

/-- Whether faults are those of a list as far as the one that something is nested too
deep. -/
def CutShort (found listed : List (Fault K)) : Prop :=
  ∃ front behind, found = front ++ .nestingTooDeep :: behind ∧ front <+: listed

namespace CutShort

variable {found listed : List (Fault K)}

/-- What comes later does not matter. -/
theorem append
    (h : CutShort found listed)
    (more others : List (Fault K)) :
    CutShort (found ++ more) (listed ++ others) := by
  obtain ⟨front, behind, rfl, hfront⟩ := h
  refine ⟨front, behind ++ more, ?_, hfront.trans (List.prefix_append _ _)⟩
  rw [List.append_assoc, List.cons_append]

/-- What comes before is the same. -/
theorem append_left
    (h : CutShort found listed)
    (first : List (Fault K)) :
    CutShort (first ++ found) (first ++ listed) := by
  obtain ⟨front, behind, rfl, hfront⟩ := h
  exact ⟨first ++ front, behind, (List.append_assoc _ _ _).symm,
    (List.prefix_append_right_inj first).mpr hfront⟩

end CutShort

theorem Trace.faults_append (trace rest : Trace K) :
    Trace.faults (trace ++ rest) = Trace.faults trace ++ Trace.faults rest :=
  List.filterMap_append

theorem Trace.length_faults (trace : Trace K) :
    (Trace.faults trace).length = Trace.reports trace := by
  have hreport : ∀ s : Step K, s.fault?.isSome = s.isReport := fun s => by cases s <;> rfl
  rw [Trace.faults, List.length_filterMap_eq_countP, Trace.reports]
  exact List.countP_congr fun s _ => by rw [hreport s]

theorem Trace.faults_eq_nil_iff (trace : Trace K) :
    Trace.faults trace = [] ↔ Trace.reports trace = 0 := by
  rw [← Trace.length_faults, List.length_eq_zero_iff]

namespace Parser

variable
  {α β σ : Type}
  {p q : Parser K α}
  {f : α → Parser K β}
  {cut : Prop}
  {c : Cursor K}
  {faults others : List (Fault K)}
  {P : α → Cursor K → Prop}
  {Q : β → Cursor K → Prop}

/-- Whether a run has some faults and ends in some way, unless it is cut short, where it
may be. -/
def Runs
    (p : Parser K α)
    (cut : Prop)
    (c : Cursor K)
    (faults : List (Fault K))
    (P : α → Cursor K → Prop) : Prop :=
  cut ∧ CutShort (Trace.faults (p c).trace) faults ∨
    Trace.faults (p c).trace = faults ∧ P (p c).value (p c).cursor

/-- Whether a parser does the same as another one, unless it is cut short. -/
def Within ⦃α : Type⦄ (p q : Parser K α) : Prop :=
  ∀ c, CutShort (Trace.faults (p c).trace) (Trace.faults (q c).trace) ∨ p c = q c

/-! ## Rules for runs -/

section Rules

/-- What does the same as another parser from a cursor has its runs there. -/
theorem Runs.of_eq
    (h : q.Runs cut c faults P)
    (heq : p c = q c) :
    p.Runs cut c faults P := by
  rwa [Runs, heq]

theorem Runs.mono
    {P' : α → Cursor K → Prop}
    (h : p.Runs cut c faults P)
    (himp : ∀ a c', P a c' → P' a c') :
    p.Runs cut c faults P' :=
  h.imp_right fun ⟨hfaults, hend⟩ => ⟨hfaults, himp _ _ hend⟩

theorem runs_pure
    {a : α}
    (h : P a c) :
    (pure a : Parser K α).Runs cut c [] P :=
  .inr ⟨rfl, h⟩

theorem runs_emit
    {s : Step K}
    {P : Unit → Cursor K → Prop}
    (h : P () c) :
    (emit s).Runs cut c s.fault?.toList P := by
  refine .inr ⟨?_, h⟩
  cases s <;> rfl

/-- One run after another. -/
theorem Runs.bind
    (hp : p.Runs cut c faults P)
    (hf : ∀ a c', P a c' → (f a).Runs cut c' others Q) :
    (p >>= f).Runs cut c (faults ++ others) Q := by
  have htrace : Trace.faults ((p >>= f) c).trace =
      Trace.faults (p c).trace ++ Trace.faults (f (p c).value (p c).cursor).trace :=
    Trace.faults_append _ _
  rw [Runs, htrace]
  rcases hp with ⟨hcut, hshort⟩ | ⟨hfaults, hend⟩
  · exact .inl ⟨hcut, hshort.append _ _⟩
  · rcases hf _ _ hend with ⟨hcut, hshort⟩ | ⟨hothers, hend'⟩
    · exact .inl ⟨hcut, hfaults ▸ hshort.append_left _⟩
    · exact .inr ⟨by rw [hfaults, hothers], hend'⟩

/-- What looks only, and gives a value, goes on with that value. -/
theorem runs_look_bind
    {a : α}
    (h : p c = ⟨a, c, []⟩)
    (hf : (f a).Runs cut c faults Q) :
    (p >>= f).Runs cut c faults Q := by
  rwa [Runs, bind_of_eq h]

/-- A quiet run has no faults. -/
theorem Ends.runs
    [DecidableEq K]
    [Vocabulary K]
    (h : p.Ends ⟨c, [], [], 0⟩ fun a t => t.reports = 0 ∧ P a t.cursor) :
    p.Runs cut c [] P := by
  obtain ⟨t, hcursor, hleads, hreports, hend⟩ := h
  have hcount : t.reports = 0 + Trace.reports (p c).trace := hleads.reports
  refine .inr ⟨(Trace.faults_eq_nil_iff _).mpr (by omega), ?_⟩
  rwa [hcursor] at hend

theorem runs_nodeOf
    {body : Parser K K}
    {P : K → Cursor K → Prop}
    (h : body.Runs cut c faults P) :
    (nodeOf body).Runs cut c faults P := by
  have hrest : ∀ kind c', P kind c' →
      (do emit (.complete kind); return kind : Parser K K).Runs cut c' [] P :=
    fun kind c' hend => (runs_emit (P := fun _ d => d = c') rfl).bind
      fun _ _ hd => runs_pure (hd ▸ hend)
  have hall := (runs_emit (s := Step.start) (P := fun _ d => d = c) rfl).bind
    fun _ d (hd : d = c) => hd ▸ h.bind hrest
  rwa [List.append_nil] at hall

/-- A run without faults has those of what follows. -/
theorem Runs.bind_quiet
    (hp : p.Runs cut c [] P)
    (hf : ∀ a c', P a c' → (f a).Runs cut c' faults Q) :
    (p >>= f).Runs cut c faults Q :=
  hp.bind hf

theorem Runs.discard
    {P : Cursor K → Prop}
    (h : p.Runs cut c faults fun _ c' => P c') :
    (Functor.discard p : Parser K Unit).Runs cut c faults fun _ c' => P c' := by
  have hall : (Functor.discard p : Parser K Unit).Runs cut c (faults ++ []) fun _ c' => P c' :=
    h.bind fun _ _ hend => runs_pure hend
  rwa [List.append_nil] at hall

theorem runs_node
    {kind : K}
    {body : Parser K Unit}
    {P : K → Cursor K → Prop}
    (h : body.Runs cut c faults fun _ c' => P kind c') :
    (node kind body).Runs cut c faults P := by
  refine runs_nodeOf ?_
  have hall := h.bind fun _ _ hend => runs_pure (P := P) hend
  rwa [List.append_nil] at hall

theorem Runs.moves
    {p : Parser K Unit}
    {P : Bool → Cursor K → Prop}
    (h : p.Runs cut c faults fun _ c' => P (decide (c'.left < c.left)) c') :
    (moves p).Runs cut c faults P :=
  h

/-- A loop has the faults of its first turn first. -/
theorem faults_turn_prefix
    (body : σ → Parser K (Bool × σ))
    (v : σ)
    (c : Cursor K) :
    Trace.faults (body v c).trace <+: Trace.faults (iterate body v c).trace := by
  cases hvalue : (body v c).value.1 with
  | false => exact iterate_last hvalue ▸ List.prefix_rfl
  | true =>
      by_cases hleft : (body v c).cursor.left < c.left
      · rw [iterate_again hvalue hleft, Trace.faults_append]
        exact List.prefix_append _ _
      · rw [iterate_stuck hvalue hleft, Trace.faults_append]
        exact List.prefix_append _ _

section Loops

variable
  {body : σ → Parser K (Bool × σ)}
  {v : σ}
  {P : Bool × σ → Cursor K → Prop}
  {Q : σ → Cursor K → Prop}

/-- A loop is cut short by its first turn, or does what it does behind that. -/
theorem Runs.first
    (h : (body v).Runs cut c faults P)
    (hrest : P (body v c).value (body v c).cursor → Trace.faults (body v c).trace = faults →
      (iterate body v).Runs cut c (faults ++ others) Q) :
    (iterate body v).Runs cut c (faults ++ others) Q := by
  rcases h with ⟨hcut, hshort⟩ | ⟨hfaults, hend⟩
  · obtain ⟨more, hmore⟩ := faults_turn_prefix body v c
    exact .inl ⟨hcut, hmore ▸ hshort.append more others⟩
  · exact hrest hend hfaults

/-- A loop whose first turn is not the last one goes on from there. -/
theorem Runs.again
    (h : (body v).Runs cut c faults P)
    (hrest : ∀ r c', P r c' →
      r.1 = true ∧ c'.left < c.left ∧ (iterate body r.2).Runs cut c' others Q) :
    (iterate body v).Runs cut c (faults ++ others) Q := by
  refine h.first fun hend hfaults => ?_
  obtain ⟨hvalue, hleft, hruns⟩ := hrest _ _ hend
  rw [Runs, iterate_again hvalue hleft, Trace.faults_append, hfaults]
  exact hruns.imp (fun ⟨hcut, hshort⟩ => ⟨hcut, hshort.append_left _⟩) fun ⟨hothers, hend'⟩ =>
    ⟨congrArg (faults ++ ·) hothers, hend'⟩

/-- A loop ends where its first turn is the last one. -/
theorem Runs.last
    (h : (body v).Runs cut c faults P)
    (hrest : ∀ r c', P r c' → r.1 = false ∧ Q r.2 c') :
    (iterate body v).Runs cut c faults Q := by
  rw [← List.append_nil faults]
  refine h.first fun hend hfaults => ?_
  obtain ⟨hvalue, hend'⟩ := hrest _ _ hend
  rw [Runs, iterate_last hvalue, List.append_nil]
  exact .inr ⟨hfaults, hend'⟩

end Loops
end Rules

/-! ## Parsers within others -/

theorem Within.refl (p : Parser K α) : Within p p := fun _ => .inr rfl

/-- A run within another one has its faults and ends as it does, unless it is cut short. -/
theorem Within.runs
    (h : Within p q)
    (c : Cursor K) :
    p.Runs True c (Trace.faults (q c).trace) fun a c' => a = (q c).value ∧ c' = (q c).cursor :=
  (h c).imp (fun hshort => ⟨trivial, hshort⟩) fun heq => by
    rw [heq]
    exact ⟨rfl, rfl, rfl⟩

theorem Within.bind
    {f g : α → Parser K β}
    (hp : Within p q)
    (hf : ∀ a, Within (f a) (g a)) :
    Within (p >>= f) (q >>= g) := by
  intro c
  have hfaults : ∀ (p : Parser K α) (f : α → Parser K β), Trace.faults ((p >>= f) c).trace =
      Trace.faults (p c).trace ++ Trace.faults (f (p c).value (p c).cursor).trace :=
    fun _ _ => Trace.faults_append _ _
  rw [hfaults, hfaults]
  rcases hp c with hcut | heq
  · exact .inl (hcut.append _ _)
  rw [heq]
  refine (hf (q c).value (q c).cursor).imp (fun hcut => hcut.append_left _) fun heq' => ?_
  simp only [Bind.bind, heq, heq']

/-- Loops whose turns run within each other do so too. -/
theorem Within.iterate
    {f g : σ → Parser K (Bool × σ)}
    (h : ∀ v, Within (f v) (g v))
    (v : σ) :
    Within (Parser.iterate f v) (Parser.iterate g v) := by
  intro c
  rcases h v c with hcut | heq
  · obtain ⟨more, hmore⟩ := faults_turn_prefix f v c
    obtain ⟨others, hothers⟩ := faults_turn_prefix g v c
    exact .inl (hmore ▸ hothers ▸ hcut.append more others)
  cases hvalue : (g v c).value.1 with
  | false => exact .inr (by rw [iterate_last hvalue, iterate_last (heq ▸ hvalue), heq])
  | true =>
      by_cases hleft : (g v c).cursor.left < c.left
      · rw [iterate_again hvalue hleft, iterate_again (heq ▸ hvalue) (heq ▸ hleft), heq,
          Trace.faults_append, Trace.faults_append]
        refine (Within.iterate h (g v c).value.2 (g v c).cursor).imp
          (fun hcut => hcut.append_left _) fun hrest => ?_
        rw [hrest]
      · refine .inr ?_
        rw [iterate_stuck hvalue hleft, iterate_stuck (heq ▸ hvalue) (heq ▸ hleft), heq]
termination_by c => c.left

theorem Within.moves
    {p q : Parser K Unit}
    (h : Within p q) :
    Within (Parser.moves p) (Parser.moves q) := by
  refine fun c => (h c).imp id fun heq => ?_
  simp only [Parser.moves, heq]

/-- The combinators keep runs within others. -/
theorem congruence_within
    [Vocabulary K]
    {free : K → Prop}
    (herror : free Vocabulary.error) :
    Congruence free (@Within K) where
  error := herror
  pure _ := .refl _
  look _ := .refl _
  report _ := .refl _
  advance := .refl _
  ensure _ := .refl _
  bind := Within.bind
  discard h := .bind h fun _ => .refl _
  nodeOf _ h := .bind (.refl _) fun _ => .bind h fun _ => .refl _
  wrapOf _ h := .bind (.refl _) fun _ => .bind h fun _ => .refl _
  moves h := h.moves
  iterate := Within.iterate

end Parser

/-! ## Levels within others -/

namespace Zig

open ZigCst.Parser

/-- What is nested too deep cuts every run short. -/
theorem within_tooDeep (p : NodeParser) : Within (do tooDeep; return none) p :=
  fun _ => .inl ⟨[], _, rfl, List.nil_prefix⟩

/-- Levels are within one another where their functions are. -/
theorem related_within
    {inner inner' : Level}
    (h : Within inner.expr inner'.expr ∧ Within inner.operand inner'.operand ∧
      Within inner.type inner'.type) :
    LevelOf.Related (@Within Kind) inner inner' :=
  ⟨h.1, h.2.1, h.2.2, fun _ _ hp => hp⟩

/-- A level runs within those that nest more deeply. -/
theorem within_level (depth more : Nat) :
    LevelOf.Related (@Within Kind) (level depth) (level (depth + more)) := by
  have hR : Congruence (· ∉ declarationKinds) (@Within Kind) := congruence_within (by decide)
  induction depth with
  | zero => exact related_within ⟨within_tooDeep _, within_tooDeep _, within_tooDeep _⟩
  | succ depth ih =>
      rw [Nat.add_right_comm]
      exact related_within (related_levelOver hR ih (ih.declarations (congruence_within trivial)))

end Zig
end ZigCst
