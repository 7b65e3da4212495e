import ZigCst.Proofs.Bounded
import ZigCst.Proofs.ZonGrammar

/-!
# The functions of the Zon grammar

A value is the only function that opens a level of nesting; all others reach it through
containers and their entries.

**Results.**
* `Routine.denote_body`: the bodies are those of the parsers of the grammar.
* `Routine.below_body`: functions call each other from the inside out.
-/

namespace ZigCst
namespace Zon

open ZigCst.Parser

namespace Routine

/-- A value, which is a call. -/
def calls (recovery : KindSet Kind) : Scripted Kind Routine Unit := fun _ => .call (.value recovery)

/-- What a function does. -/
def body {α : Type} : Routine α → Script Kind Routine α
  | value recovery =>
      .enter (valueWith calls recovery false) (tooDeep (m := Scripted Kind Routine) false)
  | r => function calls r true

/-- The parser of a function below which a number of levels is allowed. -/
def parser {α : Type} (r : Routine α) (depth : Nat) : Parser Kind α :=
  function (Zon.value depth) r

instance : Grammar Kind Routine where
  body := body
  parser := parser
  Ready _ _ := True

instance : CallOrder Routine where
  order
    | value _ => 0
    | identifier => 1
    | entry => 2
    | container => 3
    | file => 4
  rest _ := 0
  Idle _ _ := True
  functions := 5
  spread := 1

/-! ## Bodies are those of the parsers -/

section Denotation

open Scripted

variable (depth : Nat)

theorem congruence_calls : Congruence (fun _ => True) (Denotes (R := Routine) depth) :=
  congruence_denotes depth trivial

theorem denotes_identifier : Denotes (R := Routine) depth Zon.identifier Zon.identifier := by
  have hR := congruence_calls depth
  exact Denotes.routine (r := identifier) rfl (hR.discard (hR.node trivial hR.advance))

theorem denotes_entry : Denotes depth (Zon.entry calls) (Zon.entry (Zon.value depth)) := by
  have hR := congruence_calls depth
  have hvalue : Denotes depth (calls entryRecovery) (Zon.value depth entryRecovery) := fun _ => rfl
  refine Denotes.routine (r := entry) rfl <| hR.bind (hR.at_ _) fun _ =>
    hR.bind (hR.nthAt _ _) fun _ => hR.bind (hR.nthAt _ _) fun _ => ?_
  refine hR.seq (hR.discard (hR.node trivial (related_ite ?_ hvalue))) (hR.pure _)
  exact hR.seq hR.advance <| hR.seq (denotes_identifier depth) <| hR.seq hR.advance hvalue

theorem denotes_entryAndComma (s : Entries) :
    Denotes depth (entryAndComma calls s) (entryAndComma (Zon.value depth) s) := by
  have hR := congruence_calls depth
  refine hR.bind (hR.at_ _) fun _ => hR.bind hR.atEnd fun _ => related_ite (hR.pure _) ?_
  refine hR.bind (hR.at_ _) fun _ => related_ite (hR.seq (hR.bump _) (hR.pure _)) ?_
  refine hR.bind (denotes_entry depth) fun _ => hR.bind (hR.eat _) fun _ =>
    related_ite (hR.pure _) ?_
  refine hR.bind (hR.at_ _) fun _ => hR.bind hR.atEnd fun _ => related_ite (hR.pure _) ?_
  exact hR.seq (hR.report _) (hR.pure _)

theorem denotes_container :
    Denotes depth (Zon.container calls) (Zon.container (Zon.value depth)) := by
  have hR := congruence_calls depth
  refine Denotes.routine (r := container) rfl (hR.discard (hR.nodeOf (fun _ => trivial) ?_))
  refine hR.seq hR.advance <| hR.seq hR.advance <|
    hR.bind (hR.iterate (denotes_entryAndComma depth) _) fun _ => ?_
  exact hR.seq (hR.expect _) (hR.pure _)

theorem denotes_negative : Denotes (R := Routine) depth negative negative := by
  have hR := congruence_calls depth
  refine hR.discard (hR.node trivial (hR.seq hR.advance (hR.bind (hR.eat _) fun _ => ?_)))
  refine related_ite (hR.pure _) (hR.bind (hR.eat _) fun _ => ?_)
  exact related_ite (hR.pure _) (hR.report _)

theorem denotes_valueWith (recovery : KindSet Kind) :
    Denotes depth (valueWith calls recovery) (valueWith (Zon.value depth) recovery) := by
  have hR := congruence_calls depth
  have htoken : ∀ kind : Kind, Denotes (R := Routine) depth
      (discard (node kind advance)) (discard (node kind advance)) :=
    fun _ => hR.discard (hR.node trivial hR.advance)
  refine hR.bind hR.peek fun kind => ?_
  split
  · refine hR.bind (hR.nth 1) fun next => ?_
    split
    · exact denotes_container depth
    · exact hR.discard (hR.node trivial (hR.seq hR.advance (denotes_identifier depth)))
    · exact hR.recover _ _
  · exact htoken _
  · exact hR.discard (hR.node trivial (hR.repeatWhile (hR.eat _)))
  · exact htoken _
  · exact htoken _
  · exact htoken _
  · exact denotes_negative depth
  · exact denotes_identifier depth
  · exact hR.recover _ _

theorem denotes_remains : Denotes (R := Routine) depth remains remains := by
  have hR := congruence_calls depth
  refine hR.discard (hR.node trivial (hR.seq (hR.report _) (hR.repeatWhile ?_)))
  exact hR.seq hR.advance (hR.bind hR.atEnd fun _ => hR.pure _)

theorem denotes_documentOf :
    Denotes depth (documentOf (calls .empty)) (documentOf (Zon.value depth .empty)) := by
  have hR := congruence_calls depth
  have hvalue : Denotes depth (calls .empty) (Zon.value depth .empty) := fun _ => rfl
  refine hR.bind hR.atEnd fun _ => ?_
  refine related_ite (hR.seq (hR.report _) ?hrest) (hR.seq hvalue ?hrest)
  exact hR.bind hR.atEnd fun _ => related_ite (hR.pure _) (denotes_remains depth)

theorem denotes_fileOver : Denotes depth (fileOver calls) (fileOver (Zon.value depth)) :=
  Denotes.routine (r := file) rfl ((denotes_documentOf depth).whole .file)

/-- What every function does is what its parser does. -/
theorem denote_body {α : Type} (r : Routine α) : (body r).denote depth = parser r depth := by
  cases r with
  | value recovery =>
      cases depth with
      | zero => exact (congruence_calls 0).tooDeep false
      | succ depth => exact denotes_valueWith depth recovery false
  | identifier => exact denotes_identifier depth true
  | entry => exact denotes_entry depth true
  | container => exact denotes_container depth true
  | file => exact denotes_fileOver depth true

end Denotation

/-- Outside of values, a function calls only such as come before it. -/
theorem below_body {α : Type} (r : Routine α) :
    (body r).Below (CallOrder.order r) 0 := by
  have hvalue : ∀ {n : Nat} (recovery : KindSet Kind), 0 < n → (calls recovery).Below n 0 :=
    fun _ => .inl
  cases r with
  | value recovery => exact Scripted.below_tooDeep
  | identifier => simp [body, function, Zon.identifier]
  | entry => simp [body, function, Zon.entry, Zon.identifier, hvalue, CallOrder.order]
  | container =>
      simp [body, function, Zon.container, containerBody, entryAndComma, Zon.entry,
        CallOrder.order]
  | file =>
      simp [body, function, fileOver, documentOf, hvalue, remains, CallOrder.order]

instance : LawfulGrammar Kind Routine where
  denote_body r depth := denote_body depth r
  calls_body r := (below_body r).calls fun h => absurd h (Nat.lt_irrefl 0)
  idle_body _ _ _ := trivial
  order_lt r := by cases r <;> simp [CallOrder.order, CallOrder.functions]
  rest_lt r := Nat.one_pos

instance : SoundGrammar Kind Routine where
  adds r depth c _ := by
    have hvalue := valueSound_value depth
    cases r with
    | value recovery => exact (hvalue.plants recovery _).adds
    | identifier => exact (plants_identifier _).adds
    | entry => exact (sound_entry hvalue _).adds
    | container => exact (plants_container hvalue _).adds
    | file => exact Parser.adds_whole (by decide) (ends_documentOf (hvalue.plants .empty) _)

end Routine
end Zon
end ZigCst
