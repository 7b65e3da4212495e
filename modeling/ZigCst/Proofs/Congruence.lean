import ZigCst.Proofs.Soundness

/-!
# Relations between parsers that are put together in the same way

Some facts compare two parsers that differ only deep inside, or speak of one parser by
what its parts do, or compare a parser with something else that is written in the same way.
Such a relation holds of whole grammars once it holds of the basic parsers and is kept by
the combinators.  A relation may ask more of nodes of some kinds; then it is kept only where
a new node is of another kind.

**Definitions.**
* `Congruence free R`: the combinators keep the relation `R`, where new nodes are of
  kinds that are `free`.

**Results.**
* `Congruence.expect`, `Congruence.recover` and their like: derived parsers are related to
  themselves, error recovery included.
-/

universe u

namespace ZigCst
namespace Parser

variable {K : Type} [Vocabulary K] {m : Type → Type u} [Monad m] [Parsing K m]

/-- Whether a relation to parsers is kept by the combinators, where new nodes are of
kinds that are free. -/
structure Congruence
    (free : K → Prop)
    (R : ∀ ⦃α : Type⦄, m α → Parser K α → Prop) : Prop where
  error : free Vocabulary.error
  pure : ∀ {α : Type} (a : α), R (pure a) (pure a)
  look : ∀ {α : Type} (f : Cursor K → α), R (look f) (look f)
  report : ∀ fault, R (report fault) (report fault)
  advance : R advance advance
  ensure : ∀ holds, R (ensure holds) (ensure holds)
  bind : ∀ {α β : Type} {p : m α} {q : Parser K α} {f : α → m β} {g : α → Parser K β},
    R p q → (∀ a, R (f a) (g a)) → R (p >>= f) (q >>= g)
  discard : ∀ {α : Type} {p : m α} {q : Parser K α}, R p q → R (discard p) (discard q)
  nodeOf : ∀ {p : m K} {q : Parser K K}, q.Gives free → R p q → R (nodeOf p) (nodeOf q)
  wrapOf : ∀ {p : m K} {q : Parser K K}, q.Gives free → R p q → R (wrapOf p) (wrapOf q)
  moves : ∀ {p : m Unit} {q : Parser K Unit}, R p q → R (moves p) (moves q)
  iterate : ∀ {σ : Type} {f : σ → m (Bool × σ)} {g : σ → Parser K (Bool × σ)},
    (∀ v, R (f v) (g v)) → ∀ v, R (iterate f v) (iterate g v)

variable
  {α β : Type}
  {free : K → Prop}
  {R : ∀ ⦃α : Type⦄, m α → Parser K α → Prop}

omit [Vocabulary K] [Monad m] [Parsing K m] in
/-- What is related on both sides of a decision is related. -/
theorem related_ite
    {holds : Bool}
    {p p' : m α}
    {q q' : Parser K α}
    (hp : R p q)
    (hp' : R p' q') :
    R (if holds then p else p') (if holds then q else q') := by
  cases holds with
  | true => exact hp
  | false => exact hp'

namespace Congruence

variable (hR : Congruence free R)
include hR

/-- Fewer kinds may be free. -/
theorem mono
    {free' : K → Prop}
    (herror : free' Vocabulary.error)
    (hfree : ∀ kind, free' kind → free kind) :
    Congruence free' R :=
  { hR with
    error := herror
    nodeOf := fun hgives => hR.nodeOf (hgives.mono hfree)
    wrapOf := fun hgives => hR.wrapOf (hgives.mono hfree) }

theorem seq
    {p : m α}
    {q : Parser K α}
    {p' : m β}
    {q' : Parser K β}
    (hp : R p q)
    (hp' : R p' q') :
    R (p >>= fun _ => p') (q >>= fun _ => q') :=
  hR.bind hp fun _ => hp'

theorem node
    {kind : K}
    {p : m Unit}
    {q : Parser K Unit}
    (hkind : free kind)
    (h : R p q) :
    R (Parser.node kind p) (Parser.node kind q) :=
  hR.nodeOf (gives_bind fun _ => gives_pure hkind) (hR.seq h (hR.pure kind))

theorem wrap
    {kind : K}
    {p : m Unit}
    {q : Parser K Unit}
    (hkind : free kind)
    (h : R p q) :
    R (Parser.wrap kind p) (Parser.wrap kind q) :=
  hR.wrapOf (gives_bind fun _ => gives_pure hkind) (hR.seq h (hR.pure kind))

theorem repeatWhile
    {p : m Bool}
    {q : Parser K Bool}
    (h : R p q) :
    R (Parser.repeatWhile p) (Parser.repeatWhile q) :=
  hR.iterate (fun _ => hR.bind h fun _ => hR.pure _) ()

/-! ### Looking ahead -/

theorem atEnd : R Parser.atEnd Parser.atEnd := hR.look _

theorem prev? : R Parser.prev? Parser.prev? := hR.look _

theorem text : R Parser.text Parser.text := hR.look _

theorem nth (n : Nat) : R (Parser.nth n) (Parser.nth n) := hR.look _

theorem peek : R Parser.peek Parser.peek := hR.nth 0

variable [DecidableEq K]

theorem nthAt
    (n : Nat)
    (kind : K) :
    R (Parser.nthAt n kind) (Parser.nthAt n kind) :=
  hR.bind (hR.nth n) fun _ => hR.pure _

theorem at_ (kind : K) : R (Parser.at_ kind) (Parser.at_ kind) := hR.nthAt 0 kind

omit [DecidableEq K] in
theorem atAny (set : KindSet K) : R (Parser.atAny set) (Parser.atAny set) :=
  hR.bind hR.peek fun _ => hR.pure _

/-! ### Tokens -/

theorem eat (kind : K) : R (Parser.eat kind) (Parser.eat kind) :=
  hR.bind (hR.at_ kind) fun _ => related_ite (hR.seq hR.advance (hR.pure true)) (hR.pure false)

theorem skip (kind : K) : R (Parser.skip kind) (Parser.skip kind) := hR.discard (hR.eat kind)

theorem expect (kind : K) : R (Parser.expect kind) (Parser.expect kind) :=
  hR.bind (hR.eat kind) fun _ =>
    related_ite (hR.pure ()) (hR.bind hR.peek fun _ => hR.report _)

/-! ### Recovery -/

theorem bump (fault : Fault K) : R (Parser.bump fault) (Parser.bump fault) := by
  refine hR.discard (hR.node hR.error (hR.bind (hR.at_ _) fun _ => related_ite ?_ ?_))
  · exact hR.bind hR.text fun _ => hR.seq (hR.report _) hR.advance
  · exact hR.seq (hR.report fault) hR.advance

theorem recover
    (fault : Fault K)
    (recovery : KindSet K) :
    R (Parser.recover fault recovery) (Parser.recover fault recovery) := by
  refine hR.bind (hR.atAny recovery) fun _ => hR.bind hR.atEnd fun _ => ?_
  refine related_ite ?_ (hR.bump fault)
  exact hR.discard (hR.node hR.error (hR.report fault))

omit [DecidableEq K] in
theorem passToken (depth : Nat) : R (Parser.passToken depth) (Parser.passToken depth) := by
  refine hR.bind hR.atEnd fun _ => related_ite (hR.pure _) (hR.bind hR.peek fun _ => ?_)
  split
  · exact hR.seq hR.advance (hR.pure _)
  · exact hR.pure _
  · exact hR.pure _
  · exact hR.seq hR.advance (hR.pure _)
  · exact hR.seq hR.advance (hR.pure _)

omit [DecidableEq K] in
theorem tooDeep : R Parser.tooDeep Parser.tooDeep := by
  refine hR.discard (hR.node hR.error (hR.seq (hR.report _) ?_))
  exact hR.discard (hR.iterate hR.passToken 0)

end Congruence
end Parser
end ZigCst
