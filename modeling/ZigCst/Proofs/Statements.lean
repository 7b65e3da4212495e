import ZigCst.Proofs.Declarations
import ZigCst.Proofs.ZigBraces
import ZigCst.Zig.View

/-!
# Statements end with a semicolon or a brace

A statement of which nothing is reported ends with a semicolon, or with the closing
brace of an expression that is like a block.  Behind a semicolon anything may follow.
Behind a brace the expression might go on, so what follows must not be able to.

**Definitions.**
* `Fits`: the streams that may follow a statement in place of each other.
* `goesOn`: whether a block has more statements.

**Results.**
* `closes_statement`: all statements close.
* `closing_rounds_of_quiet`: the turns of a block of which nothing is reported close.
-/

namespace ZigCst
namespace Zig

open ZigCst.Parser

/-! ## Statements close -/

/-- Whether one stream may follow a statement in place of another.  Behind a semicolon
all may; behind a closing brace nothing may go on with an expression. -/
def Fits (last : Kind) (x y : List (Lexeme Kind)) : Prop :=
  last = .semicolon ∨ Inert x ∧ Inert y

section Closing

variable {inner : Level} {c : Cursor Kind}

/-- The end of a statement behind an expression of a kind: nothing if the expression is
like a block and ends with a brace, and a semicolon otherwise. -/
theorem statementBody_eq
    {kind : Kind}
    (h : (assignExpr inner c).value = some kind) :
    statementBody inner c =
      let o := assignExpr inner c
      let e : Outcome Kind Unit :=
        if isBlockLike kind && o.cursor.prev == some .rightBrace then ⟨(), o.cursor, []⟩
        else (expect .semicolon : Parser Kind Unit) o.cursor
      ⟨(), e.cursor, o.trace ++ e.trace⟩ := by
  have hend : ∀ d : Cursor Kind,
      (do
        unless isBlockLike kind && (← prev?) == some .rightBrace do
          expect .semicolon : Parser Kind Unit) d =
        if isBlockLike kind && d.prev == some .rightBrace then ⟨(), d, []⟩
        else (expect .semicolon : Parser Kind Unit) d := by
    intro d
    rw [bind_of_eq (show (prev? : Parser Kind (Option Kind)) d = ⟨d.prev, d, []⟩ from rfl)]
    cases isBlockLike kind && d.prev == some Kind.rightBrace <;> rfl
  rw [statementBody, routine_eq, bind_of_value h]
  dsimp only
  rw [hend]

/-- Where something was taken, the lexeme before is the last of it. -/
theorem exists_last_of_takes
    {c' : Cursor Kind}
    {taken : List (Lexeme Kind)}
    (h : c.Takes taken c')
    (hleft : c'.left < c.left) :
    ∃ z, taken.getLast? = some z ∧ c'.prev = some z.kind := by
  obtain ⟨z, hz⟩ := Option.isSome_iff_exists.mp
    (List.getLast?_isSome.mpr (h.left_lt_iff.mp hleft))
  refine ⟨z, hz, ?_⟩
  rw [h.prev, hz]
  rfl

variable (h : inner.Steady) (hend : inner.Presses)
include h hend

/-- An expression that is like a block and ends with a brace closes. -/
theorem closesAt_statementBody_of_brace
    {kind : Kind}
    (hfound : (assignExpr inner c).value = some kind)
    (hends : (isBlockLike kind && (assignExpr inner c).cursor.prev == some .rightBrace) = true)
    (hquiet : Trace.reports (assignExpr inner c).trace = 0) :
    (statementBody inner).ClosesAt IsStop Fits c := by
  have hrun := statementBody_eq hfound
  dsimp only at hrun
  rw [if_pos hends] at hrun
  have hleft := (resolves_assignExpr h).takes c (by simp [hfound])
  have hlast : ∀ {taken : List (Lexeme Kind)}, c.Takes taken (assignExpr inner c).cursor →
      ∃ z, taken.getLast? = some z ∧ z.kind = .rightBrace := by
    intro taken htakes
    obtain ⟨z, hz, hprev⟩ := exists_last_of_takes htakes hleft
    simp only [hprev, Bool.and_eq_true, beq_iff_eq, Option.some.injEq] at hends
    exact ⟨z, hz, hends.2⟩
  constructor
  · intro taken htakes
    rw [hrun] at htakes
    obtain ⟨z, hz, hbrace⟩ := hlast htakes
    exact ⟨z, hz, .inr (.inr hbrace)⟩
  · intro d taken y htakes hfits hd
    rw [hrun] at htakes hfits
    obtain ⟨z, hz, hbrace⟩ := hlast htakes
    have hinert : Inert (assignExpr inner c).cursor.rest ∧ Inert y := by
      rcases hfits z hz with hsemicolon | hinert
      · simp [hbrace] at hsemicolon
      · exact hinert
    have hstep := (presses_assignExpr hend).inStep htakes hquiet ⟨z, hz, hbrace⟩ hinert.1 hinert.2 hd
    have hprev : (assignExpr inner d).cursor.prev = (assignExpr inner c).cursor.prev := by
      rw [hstep.takes.prev, htakes.prev, hz]
      rfl
    have hrun' := statementBody_eq (hstep.value.trans hfound)
    dsimp only at hrun'
    rw [hprev, if_pos hends] at hrun'
    constructor
    · rw [hrun, hrun']
    · rw [hrun, hrun', hstep.trace]
    · rw [hrun']
      exact hstep.takes

omit hend in
/-- An expression with a semicolon closes. -/
theorem closesAt_statementBody_of_semicolon
    {kind : Kind}
    (hfound : (assignExpr inner c).value = some kind)
    (hends : ¬ (isBlockLike kind && (assignExpr inner c).cursor.prev == some .rightBrace) = true)
    (hquiet : Trace.reports (statementBody inner c).trace = 0) :
    (statementBody inner).ClosesAt IsStop Fits c := by
  have hassign := resolves_assignExpr h
  have hrun := statementBody_eq hfound
  dsimp only at hrun
  rw [if_neg hends] at hrun
  have hexpect : (expect Kind.semicolon : Parser Kind Unit).ClosesAt IsStop Fits
      (assignExpr inner c).cursor := by
    refine (closes_expect (.inl rfl) (by decide)).closesAt ?_
    rw [hrun, Trace.reports_append] at hquiet
    omega
  have hleft := hassign.takes c (by simp [hfound])
  have htaken : ∀ {taken : List (Lexeme Kind)}, c.Takes taken (statementBody inner c).cursor →
      ∃ first second z,
        taken = first ++ second ∧
        c.Takes first (assignExpr inner c).cursor ∧
        (assignExpr inner c).cursor.Takes second
          ((expect .semicolon : Parser Kind Unit) (assignExpr inner c).cursor).cursor ∧
        second.getLast? = some z ∧ IsStop z.kind := by
    intro taken htakes
    obtain ⟨first, hfirst⟩ := hassign.steady.forward c
    have hforward : (expect Kind.semicolon : Parser Kind Unit).Steady IsStop := steady_expect _
    obtain ⟨second, hsecond⟩ := hforward.forward (assignExpr inner c).cursor
    obtain ⟨z, hz, hstop⟩ := hexpect.stops hsecond
    rw [hrun] at htakes
    exact ⟨first, second, z, htakes.unique (hfirst.trans hsecond), hfirst, hsecond, hz, hstop⟩
  constructor
  · intro taken htakes
    obtain ⟨first, second, z, rfl, -, -, hz, hstop⟩ := htaken htakes
    exact ⟨z, by rw [List.getLast?_append, hz]; rfl, hstop⟩
  · intro d taken y htakes hfits hd
    obtain ⟨first, second, z, rfl, hfirst, hsecond, hz, hstop⟩ := htaken htakes
    rw [List.append_assoc] at hd
    rw [hrun] at hfits
    have hstep : (assignExpr inner).InStep c d first := by
      refine hassign.steady.inStep hfirst hd ?_
      rw [hsecond.rest]
      exact AgreeTo.of_getLast? hz hstop _ y
    have hprev : (assignExpr inner d).cursor.prev = (assignExpr inner c).cursor.prev := by
      obtain ⟨w, hw, hprev⟩ := exists_last_of_takes hfirst hleft
      rw [hprev, hstep.takes.prev, hw]
      rfl
    have hsemicolon : (expect Kind.semicolon : Parser Kind Unit).InStep (assignExpr inner c).cursor
        (assignExpr inner d).cursor second := by
      refine hexpect.inStep hsecond (fun w hw => hfits w ?_) (hstep.rest_eq hd)
      rw [List.getLast?_append, Option.mem_def.mp hw]
      rfl
    have hrun' := statementBody_eq (hstep.value.trans hfound)
    dsimp only at hrun'
    rw [hprev, if_neg hends] at hrun'
    constructor
    · rw [hrun, hrun']
    · rw [hrun, hrun', hstep.trace, hsemicolon.trace]
    · rw [hrun']
      exact hstep.takes.trans hsemicolon.takes

theorem closes_statementBody : (statementBody inner).Closes IsStop Fits := by
  refine ⟨(steady_statementBody h).forward, fun {c} hquiet => ?_⟩
  have hassign : Trace.reports (assignExpr inner c).trace = 0 := (reports_bind hquiet).1
  cases hfound : (assignExpr inner c).value with
  | none => exact absurd hassign ((resolves_assignExpr h).reports c hfound)
  | some kind =>
      by_cases hends :
          (isBlockLike kind && (assignExpr inner c).cursor.prev == some .rightBrace) = true
      · exact closesAt_statementBody_of_brace h hend hfound hends hassign
      · exact closesAt_statementBody_of_semicolon h hfound hends hquiet

theorem closes_deferStatement : (deferStatement inner).Closes IsStop Fits := by
  have hbody := closes_statementBody h hend
  refine (Closes.node ((steady_eat _).bind_closes fun _ => ?_)).discard
  exact Closes.ite (steady_payload.bind_closes fun _ => hbody)
    (steady_advance.bind_closes fun _ => hbody)

/-- All statements close. -/
theorem closes_statement : (statement inner).Closes IsStop Fits := by
  have hvarDecl : (varDecl inner).Closes IsStop Fits := closes_varDecl h
  have hbody := closes_statementBody h hend
  have hbump : ∀ kind : Kind, (bump (.unexpected kind) : Parser Kind Unit).Closes IsStop Fits :=
    fun kind => (faults_bump _).closes (steady_bump _)
  refine closes_peek_nth_bind (fun kind next => ?_) fun kind hkind next next' => ?_
  · split
    · exact (Closes.node (steady_advance.bind_closes fun _ => hvarDecl)).discard
    · exact (Closes.node (steady_advance.bind_closes fun _ => hvarDecl)).discard
    · exact (Closes.node hvarDecl).discard
    · exact (Closes.node hvarDecl).discard
    · exact closes_deferStatement h hend
    · exact closes_deferStatement h hend
    · exact (Closes.node (steady_advance.bind_closes fun _ => hbody)).discard
    · exact hbump _
    · exact hbump _
    · exact hbump _
    · exact hbump _
    · exact (Closes.node hbody).discard
  · rcases hkind with rfl | rfl | rfl <;> rfl

end Closing

/-! ## Turns over the statements of a block -/

section Turns

variable {inner : Level} {c : Cursor Kind}

/-- Whether a block goes on: neither its brace nor the end is ahead. -/
def goesOn (ls : List (Lexeme Kind)) : Bool := !(kindAt 0 ls == .rightBrace || ls.isEmpty)

theorem statementInBlock_eq (c : Cursor Kind) :
    statementInBlock inner c =
      (if goesOn c.rest then (do
        unless ← moves (statement inner) do
          bump .expectedStatement
        return true)
      else return false : Parser Kind Bool) c := by
  rw [statementInBlock]
  rw [bind_of_eq (at_kindAt .rightBrace c), bind_of_eq (atEnd_isEmpty c), goesOn]
  cases kindAt 0 c.rest == Kind.rightBrace || c.rest.isEmpty <;> rfl

/-- A turn is the last one only where the block does not go on. -/
theorem statementInBlock_last
    (h : (statementInBlock inner c).value = false) :
    goesOn c.rest = false ∧ statementInBlock inner c = ⟨false, c, []⟩ := by
  rw [statementInBlock_eq] at h ⊢
  cases hgoes : goesOn c.rest with
  | false => exact ⟨rfl, rfl⟩
  | true =>
      rw [hgoes, if_pos rfl, gives_moves_or_bump _ _ c] at h
      exact absurd h (by decide)

/-- A turn that reports nothing closes. -/
theorem closesAt_statementInBlock
    (h : inner.Steady)
    (hend : inner.Presses)
    (hvalue : (statementInBlock inner c).value = true)
    (hquiet : Trace.reports (statementInBlock inner c).trace = 0) :
    (statementInBlock inner).ClosesAt IsStop Fits c := by
  have hgoes : goesOn c.rest = true := by
    cases hgoes : goesOn c.rest with
    | true => rfl
    | false =>
        rw [statementInBlock_eq, hgoes] at hvalue
        exact absurd hvalue (by simp [pure])
  rw [statementInBlock_eq, hgoes, if_pos rfl] at hquiet
  have hleft := left_lt_of_moves_or_bump hquiet
  rw [moves_or_bump_eq _ hleft] at hquiet
  refine .of_look (fun ls => if goesOn ls then (do
      unless ← moves (statement inner) do
        bump .expectedStatement
      return true)
    else return false) statementInBlock_eq (fun _ _ hagree => ?_) ?_
  · rw [goesOn, goesOn, kindAt_zero_eq hagree, hagree.isEmpty_eq]
  · rw [hgoes, if_pos rfl]
    exact ((closes_statement h hend).closesAt hquiet).moves_or_bump _ hleft

/-- Turns that report nothing close. -/
theorem closing_rounds_of_quiet
    (h : inner.Steady)
    (hend : inner.Presses)
    {c' : Cursor Kind}
    {trace : Trace Kind}
    (hrounds : Rounds (statementInBlock inner) (fun _ => True) c trace c')
    (hquiet : Trace.reports trace = 0) :
    Rounds (statementInBlock inner) ((statementInBlock inner).ClosesAt IsStop Fits) c trace c' := by
  induction hrounds with
  | done c => exact .done c
  | turn hvalue hleft _ _ ih =>
      rw [Trace.reports_append] at hquiet
      exact .turn hvalue hleft (closesAt_statementInBlock h hend hvalue (by omega)) (ih (by omega))

end Turns

end Zig
end ZigCst
