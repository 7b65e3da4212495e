import ZigCst.Proofs.Script
import ZigCst.Proofs.ZigCongruence
import ZigCst.Zig.Parse

/-!
# The functions of the Zig grammar

Three functions open a level of nesting: those of expressions, of operands and of types.
The body of every other one is what the grammar says over functions of a level that are
calls.

**Results.**  `Routine.denote_body`: the bodies are those of the parsers of the grammar.
-/

namespace ZigCst
namespace Zig

open ZigCst.Parser

namespace Routine

/-- The functions of a level, all of them calls. -/
def calls : LevelOf (Scripted Kind Routine) :=
  ⟨fun _ => .call .expr, fun _ => .call .operand, fun _ => .call .type⟩

/-- What a function does. -/
def body {α : Type} : Routine α → Script Kind Routine α
  | expr => .enter ((levelOver calls).expr false) (fail (m := Scripted Kind Routine) false)
  | operand => .enter ((levelOver calls).operand false) (fail (m := Scripted Kind Routine) false)
  | type => .enter ((levelOver calls).type false) (fail (m := Scripted Kind Routine) false)
  | r => function calls r true

/-- The parser of a function below which a number of levels is allowed. -/
def parser {α : Type} (r : Routine α) (depth : Nat) : Parser Kind α := function (level depth) r

/-- A prototype is only asked for at its keyword. -/
def Ready {α : Type} : Routine α → Kind → Prop
  | fnProto, kind => kind = .fnKw
  | _, _ => True

instance : Grammar Kind Routine where
  body := body
  parser := parser
  Ready := Ready

/-! ## Bodies are those of the parsers -/

section Denotation

open Scripted

variable (depth : Nat)

theorem congruence_calls : Congruence (fun _ => True) (Denotes (R := Routine) depth) :=
  congruence_denotes depth trivial

theorem congruence_parts : Congruence (· ∉ declarationKinds) (Denotes (R := Routine) depth) :=
  congruence_denotes depth (by decide)

/-- Calls stand for the parsers of the functions. -/
theorem related_calls : LevelOf.Related (Denotes (R := Routine) depth) calls (level depth) where
  expr _ := rfl
  operand _ := rfl
  type _ := rfl
  routine _ := Denotes.routine rfl

theorem denotes_fail : Denotes (R := Routine) depth fail fail :=
  (congruence_calls depth).seq (congruence_calls depth).tooDeep ((congruence_calls depth).pure none)

/-- Functions over calls stand for the parsers over the level. -/
theorem denotes_function {α : Type} (r : Routine α) :
    Denotes depth (function calls r) (function (level depth) r) := by
  have hR := congruence_parts depth
  have h := related_calls depth
  have hdecls := h.declarations (congruence_calls depth)
  have hmembers := related_containerMembers hR h hdecls false
  exact related_function hR h hdecls
    (h.call .sourceFile rfl (hmembers.whole .sourceFile)) r

/-- What is done one level further in stands for the parsers of the level. -/
theorem denotes_levelOver :
    Denotes (R := Routine) depth (levelOver calls).expr (level (depth + 1)).expr ∧
      Denotes (R := Routine) depth (levelOver calls).operand (level (depth + 1)).operand ∧
        Denotes (R := Routine) depth (levelOver calls).type (level (depth + 1)).type := by
  have h := related_calls depth
  exact related_levelOver (congruence_parts depth) h (h.declarations (congruence_calls depth))

/-- What goes one level further in stands for the parsers of all levels. -/
theorem denote_enter
    {p : Scripted Kind Routine (Option Kind)}
    {q : Nat → NodeParser}
    (hzero : q 0 = fail)
    (hsucc : ∀ depth, Denotes depth p (q (depth + 1))) :
    (Script.enter (p false) (fail (m := Scripted Kind Routine) false)).denote depth = q depth := by
  cases depth with
  | zero => exact (denotes_fail 0 false).trans hzero.symm
  | succ depth => exact hsucc depth false

/-- What every function does is what its parser does. -/
theorem denote_body {α : Type} (r : Routine α) : (body r).denote depth = parser r depth := by
  unfold body
  split
  · exact denote_enter depth rfl fun depth => (denotes_levelOver depth).1
  · exact denote_enter depth rfl fun depth => (denotes_levelOver depth).2.1
  · exact denote_enter depth rfl fun depth => (denotes_levelOver depth).2.2
  · exact denotes_function depth _ true

end Denotation

end Routine
end Zig
end ZigCst
