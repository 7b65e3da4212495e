import ZigCst.Proofs.Congruence

/-!
# Parsers with their calls written out

The functions of a grammar call one another, and a few of them go one level further in
before they do.  Neither is seen in what a parser gives and leaves behind: there, a call
is as good as the body of what is called.  A script keeps both apart from the rest, so that
a run can count open levels and calls.

A grammar names its functions, the routines, by values of a type `R α`, where `α` is the
type of what the function gives.  It is written once, for whatever it is made of.  Made of
scripts, a function is a call of itself where it is asked for, and opened it is its body, in
which all functions are calls.

**Definitions.**
* `Script`: parsers with levels and calls.
* `Script.denote`: the parser that a script stands for.
* `Scripted`: what a grammar is made of to get the scripts of its functions.
* `Grammar`: routines with their bodies and parsers.

**Results.**  `Scripted.congruence_denotes`: scripts stand for the parsers that are written in
the same way.
-/

namespace ZigCst

open ZigCst.Parser

/-- A parser over kinds `K` that calls the routines `R`. -/
inductive Script (K : Type) (R : Type → Type) : Type → Type 1 where
  | done {α : Type} (a : α) : Script K R α
  /-- Looks at what is ahead and at the kind consumed last. -/
  | look {α : Type} (f : Cursor K → α) : Script K R α
  | emit (s : Step K) (h : s ≠ .advance) : Script K R Unit
  | advance : Script K R Unit
  | takeEnd : Script K R Unit
  | bind {α β : Type} (p : Script K R β) (f : β → Script K R α) : Script K R α
  | iterate {σ : Type} (body : σ → Script K R (Bool × σ)) (s : σ) : Script K R σ
  /-- Goes one level further in where that is allowed, and does something else where it
  is not. -/
  | enter {α : Type} (within beyond : Script K R α) : Script K R α
  | call {α : Type} (r : R α) : Script K R α

/-- The functions of a grammar. -/
class Grammar (K : outParam Type) (R : Type → Type) where
  body {α : Type} : R α → Script K R α
  /-- The parser below which a number of levels is allowed. -/
  parser {α : Type} : R α → Nat → Parser K α
  /-- What a function takes for granted of the kind of the next token. -/
  Ready {α : Type} : R α → K → Prop

/-! ## Grammars made of scripts -/

/-- A part of a grammar as a script: the call of a function, or its body if the function is
to be opened. -/
def Scripted (K : Type) (R : Type → Type) (α : Type) := Bool → Script K R α

namespace Scripted

variable {K : Type} {R : Type → Type}

instance : Monad (Scripted K R) where
  pure a := fun _ => .done a
  bind p f := fun opened => .bind (p opened) fun a => f a opened

/-- Runs a script and tells whether it consumed something. -/
def moved (p : Script K R Unit) : Script K R Bool :=
  .bind (.look Cursor.left) fun before => .bind p fun _ => .look fun c => decide (c.left < before)

instance : Parsing K (Scripted K R) where
  look f := fun _ => .look f
  mark s h := fun _ => .emit s h
  advance := fun _ => .advance
  takeEnd := fun _ => .takeEnd
  moves p := fun opened => moved (p opened)
  iterate body s := fun opened => .iterate (fun s => body s opened) s

/-- A function is opened down to the calls in its body. -/
instance : Routines R (Scripted K R) where
  routine r p
    | true => p false
    | false => .call r

end Scripted

/-! ## The parsers of scripts -/

namespace Script

variable {K : Type} {R : Type → Type} [Grammar K R]

/-- The parser that a script stands for where a number of levels is still allowed. -/
def denote {α : Type} : Script K R α → Nat → Parser K α
  | .done a, _ => pure a
  | .look f, _ => Parser.look f
  | .emit s _, _ => Parser.emit s
  | .advance, _ => Parser.advance
  | .takeEnd, _ => Parser.takeEnd
  | .bind p f, depth => p.denote depth >>= fun a => (f a).denote depth
  | .iterate body s, depth => Parser.iterate (fun s => (body s).denote depth) s
  | .enter _ beyond, 0 => beyond.denote 0
  | .enter within _, depth + 1 => within.denote depth
  | .call r, depth => Grammar.parser r depth

variable {α : Type} (depth : Nat)

theorem denote_enter_zero (within beyond : Script K R α) :
    (enter within beyond).denote 0 = beyond.denote 0 := rfl

theorem denote_enter_succ (within beyond : Script K R α) :
    (enter within beyond).denote (depth + 1) = within.denote depth := rfl

theorem denote_moved (p : Script K R Unit) :
    (Scripted.moved p).denote depth = moves (p.denote depth) := by
  funext c
  have htrace : ∀ trace : Trace K, [] ++ (trace ++ []) = trace := by simp
  exact congrArg (Outcome.mk _ _) (htrace _)

end Script

namespace Scripted

variable {K : Type} {R : Type → Type} [Grammar K R] {α : Type}

/-- Whether a part stands for a parser, opened or not. -/
def Denotes (depth : Nat) ⦃α : Type⦄ (p : Scripted K R α) (q : Parser K α) : Prop :=
  ∀ opened, (p opened).denote depth = q

/-- Parts stand for the parsers that are written in the same way. -/
theorem congruence_denotes
    [Vocabulary K]
    (depth : Nat)
    {free : K → Prop}
    (herror : free Vocabulary.error) :
    Congruence free (Denotes (K := K) (R := R) depth) where
  error := herror
  pure _ _ := rfl
  look _ _ := rfl
  report _ _ := rfl
  advance _ := rfl
  ensure holds _ := by cases holds <;> rfl
  bind hp hf opened := congr (congrArg _ (hp opened)) (funext fun a => hf a opened)
  discard hp opened := congrArg discard (hp opened)
  nodeOf _ hp opened := congrArg nodeOf (hp opened)
  wrapOf _ hp opened := congrArg wrapOf (hp opened)
  moves hp opened := (Script.denote_moved depth _).trans (congrArg moves (hp opened))
  iterate hf v opened := congrArg (iterate · v) (funext fun s => hf s opened)

/-- A whole file stands for the parser of one. -/
theorem Denotes.whole
    [Vocabulary K]
    {depth : Nat}
    {p : Scripted K R Unit}
    {q : Parser K Unit}
    (h : Denotes depth p q)
    (kind : K) :
    Denotes depth (whole kind p) (whole kind q) := by
  have hR : Congruence (fun _ => True) (Denotes (K := K) (R := R) depth) :=
    congruence_denotes depth trivial
  exact hR.discard (hR.node trivial (hR.seq h fun _ => rfl))

/-- A call stands for the parser of a function, and what is opened for that of the body. -/
theorem Denotes.routine
    {depth : Nat}
    {r : R α}
    {p : Scripted K R α}
    {q : Parser K α}
    (hr : Grammar.parser r depth = q)
    (h : Denotes depth p q) :
    Denotes depth (Parser.routine r p) q
  | true => h false
  | false => hr

end Scripted
end ZigCst
