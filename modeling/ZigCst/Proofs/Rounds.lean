import ZigCst.Proofs.Closing

/-!
# Loops turn by turn

A loop over the parts of a file or of a block makes one turn for every part.  The
turns that it makes on one stream it makes on another as well if every part ends with
a stop, and if the last part does not care for what follows in the other stream.

**Definitions.**
* `Parser.Rounds`: turns of a loop from one cursor to another.

**Results.**
* `Rounds.repeatWhile_eq`: a loop goes on where its turns have come to.
* `Rounds.transfer`: turns on one stream are turns on another.
-/

namespace ZigCst
namespace Parser

variable {K : Type}

/-- Turns of a loop, each asking for another one, from a cursor to a cursor.  A
property holds where each of them starts. -/
inductive Rounds (body : Parser K Bool) (P : Cursor K → Prop) :
    Cursor K → Trace K → Cursor K → Prop where
  | done (c : Cursor K) : Rounds body P c [] c
  | turn {c c' : Cursor K} {trace : Trace K}
      (hvalue : (body c).value = true)
      (hleft : (body c).cursor.left < c.left)
      (hstart : P c)
      (hrest : Rounds body P (body c).cursor trace c') :
      Rounds body P c ((body c).trace ++ trace) c'

section Loops

variable {stop : K → Prop} {body : Parser K Bool} {P : Cursor K → Prop}

theorem repeatWhile_last
    {c : Cursor K}
    (h : (body c).value = false) :
    repeatWhile body c = ⟨(), (body c).cursor, (body c).trace ++ []⟩ := by
  have hvalue : ((do return (← body, ()) : Parser K (Bool × Unit)) c).value.1 = false := h
  exact iterate_last hvalue

theorem repeatWhile_again
    {c : Cursor K}
    (h : (body c).value = true)
    (hleft : (body c).cursor.left < c.left) :
    repeatWhile body c =
      ⟨(), (repeatWhile body (body c).cursor).cursor,
        (body c).trace ++ (repeatWhile body (body c).cursor).trace⟩ := by
  have hvalue : ((do return (← body, ()) : Parser K (Bool × Unit)) c).value.1 = true := h
  have hagain := @iterate_again _ _ (fun _ => do return (← body, ())) () c hvalue hleft
  change repeatWhile body c = ⟨(), (repeatWhile body (body c).cursor).cursor,
    ((body c).trace ++ []) ++ (repeatWhile body (body c).cursor).trace⟩ at hagain
  rwa [List.append_nil] at hagain

/-- A loop goes on where its turns have come to. -/
theorem Rounds.repeatWhile_eq
    {c c' : Cursor K}
    {trace : Trace K}
    (h : Rounds body P c trace c') :
    repeatWhile body c =
      ⟨(), (repeatWhile body c').cursor, trace ++ (repeatWhile body c').trace⟩ := by
  induction h with
  | done c => rfl
  | turn hvalue hleft _ _ ih => rw [repeatWhile_again hvalue hleft, ih, List.append_assoc]

/-- A loop that is never stuck makes turns until one is the last. -/
theorem exists_rounds
    (hturns : ∀ c, (body c).value = true → (body c).cursor.left < c.left)
    (c : Cursor K) :
    ∃ trace c', Rounds body (fun _ => True) c trace c' ∧ (body c').value = false := by
  cases hvalue : (body c).value with
  | false => exact ⟨[], c, .done c, hvalue⟩
  | true =>
      have hleft := hturns c hvalue
      obtain ⟨trace, c', hrounds, hlast⟩ := exists_rounds hturns (body c).cursor
      exact ⟨_, c', .turn hvalue hleft trivial hrounds, hlast⟩
termination_by c.left

theorem Rounds.exists_takes
    (hsteady : body.Steady stop)
    {c c' : Cursor K}
    {trace : Trace K}
    (h : Rounds body P c trace c') :
    ∃ taken, c.Takes taken c' := by
  induction h with
  | done c => exact ⟨[], .refl c⟩
  | turn _ _ _ _ ih =>
      obtain ⟨first, hfirst⟩ := hsteady.forward _
      obtain ⟨second, hsecond⟩ := ih
      exact ⟨first ++ second, hfirst.trans hsecond⟩

variable {fits : K → List (Lexeme K) → List (Lexeme K) → Prop}

/-- Turns end with a stop if there are any. -/
theorem Rounds.stops
    (hsteady : body.Steady stop)
    {c c' : Cursor K}
    {trace : Trace K}
    (h : Rounds body (ClosesAt stop fits body) c trace c')
    {taken : List (Lexeme K)}
    (htakes : c.Takes taken c') :
    taken = [] ∨ ∃ z, taken.getLast? = some z ∧ stop z.kind := by
  induction h generalizing taken with
  | done c => exact .inl (htakes.unique (.refl c))
  | turn _ _ hstart hrest ih =>
      obtain ⟨first, hfirst⟩ := hsteady.forward _
      obtain ⟨second, hsecond⟩ := hrest.exists_takes hsteady
      obtain rfl := htakes.unique (hfirst.trans hsecond)
      rcases ih hsecond with rfl | ⟨z, hz, hstop⟩
      · rw [List.append_nil]
        exact .inr (hstart.stops hfirst)
      · exact .inr ⟨z, by rw [List.getLast?_append, hz]; rfl, hstop⟩

/-- Turns on one stream are turns on another one.  Every turn but the last is in step
because what comes behind it ends with a stop. -/
theorem Rounds.transfer
    (hsteady : body.Steady stop)
    {c c' : Cursor K}
    {trace : Trace K}
    (h : Rounds body (ClosesAt stop fits body) c trace c')
    {d : Cursor K}
    {taken y : List (Lexeme K)}
    (htakes : c.Takes taken c')
    (hfits : ∀ z ∈ taken.getLast?, fits z.kind c'.rest y)
    (hd : d.rest = taken ++ y) :
    ∃ d', Rounds body (fun _ => True) d trace d' ∧ d.Takes taken d' := by
  induction h generalizing d taken with
  | done c =>
      obtain rfl := htakes.unique (.refl c)
      exact ⟨d, .done d, .refl d⟩
  | @turn c c' trace hvalue hleft hstart hrest ih =>
      obtain ⟨first, hfirst⟩ := hsteady.forward c
      obtain ⟨second, hsecond⟩ := hrest.exists_takes hsteady
      obtain rfl := htakes.unique (hfirst.trans hsecond)
      rw [List.append_assoc] at hd
      have hstep : body.InStep c d first := by
        rcases hrest.stops hsteady hsecond with rfl | ⟨z, hz, hstop⟩
        · have hrests : (body c).cursor.rest = c'.rest := hsecond.rest
          rw [List.append_nil, ← hrests] at hfits
          exact hstart.inStep hfirst hfits hd
        · refine hsteady.inStep hfirst hd ?_
          rw [hsecond.rest]
          exact AgreeTo.of_getLast? hz hstop _ y
      have hlast : ∀ z ∈ second.getLast?, fits z.kind c'.rest y := by
        intro z hz
        refine hfits z ?_
        rw [List.getLast?_append, Option.mem_def.mp hz]
        rfl
      obtain ⟨d', hrounds, htaken⟩ := ih hsecond hlast (hstep.rest_eq hd)
      refine ⟨d', ?_, hstep.takes.trans htaken⟩
      rw [← hstep.trace]
      refine .turn (hstep.value.trans hvalue) ?_ trivial hrounds
      exact hstep.takes.left_lt_iff.mpr (hfirst.left_lt_iff.mp hleft)

end Loops

end Parser
end ZigCst
