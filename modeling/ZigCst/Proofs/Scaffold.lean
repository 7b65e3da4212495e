import ZigCst.Proofs.Shape
import ZigCst.Tree.Builder

/-!
# Building nested trees

What a builder does to its arrays is described by what happens to the nested trees they
stand for.  A scaffold holds these: the children so far of every open node, and the root
once it is finished.  Its calls are those of a builder, and it refuses what a builder
refuses.

**Definitions.**
* `Call`, `Builder.perform`: the calls of a builder, one after another.
* `Scaffold`: open nodes with the trees in them.
* `Related`: two results that are refused alike or related.
-/

namespace ZigCst

/-- A significant token with its trivia, by kinds and lengths. -/
structure Stretch (K : Type) where
  leading : List (Piece K)
  kind : K
  length : Nat
  trailing : List (Piece K)
deriving DecidableEq, Repr

/-- The pieces of a stretch in order. -/
def Stretch.pieces {K : Type} (s : Stretch K) : List (Piece K) :=
  s.leading ++ ⟨s.kind, s.length⟩ :: s.trailing

/-- A call of a builder, with all that it is given. -/
inductive Call (K : Type) where
  | start (kind : K)
  | token (stretch : Stretch K)
  | finish
deriving DecidableEq, Repr

namespace Builder

variable {K : Type}

/-- Makes one call. -/
def call (b : Builder K) : Call K → Except BuildError (Builder K)
  | .start kind => b.start kind
  | .token s => b.token s.leading s.kind s.length s.trailing
  | .finish => b.finishNode

/-- Makes calls in order. -/
def perform (b : Builder K) (calls : List (Call K)) : Except BuildError (Builder K) :=
  calls.foldlM call b

end Builder

/-! ## Scaffolds -/

/-- An open node, its last child first. -/
structure Frame (K : Type) where
  kind : K
  children : List (Tree K)

namespace Frame

variable {K : Type}

def push (f : Frame K) (t : Tree K) : Frame K := { f with children := t :: f.children }

def close (f : Frame K) : Root K := ⟨f.kind, f.children.reverse⟩

/-- Adds trees behind the children of an open node. -/
def fill (f : Frame K) (ts : List (Tree K)) : Frame K :=
  { f with children := ts.reverse ++ f.children }

@[simp]
theorem fill_nil (f : Frame K) : f.fill [] = f := rfl

theorem fill_append
    (f : Frame K)
    (ts us : List (Tree K)) :
    f.fill (ts ++ us) = (f.fill ts).fill us := by
  simp [fill]

end Frame

/-- Nested trees under construction. -/
structure Scaffold (K : Type) where
  /-- Size of the whole text. -/
  size : Nat
  /-- The text that no token covers yet. -/
  rest : Text
  /-- Open nodes, the innermost first. -/
  frames : List (Frame K)
  /-- The root once it is finished. -/
  root : Option (Root K)

namespace Scaffold

variable {K : Type}

def ofText (t : Text) : Scaffold K := ⟨t.size, t, [], none⟩

/-- Opens a node. -/
def start (s : Scaffold K) (kind : K) : Except BuildError (Scaffold K) :=
  match s.frames, s.root with
  | [], some _ => throw .secondRoot
  | frames, _ => return { s with frames := ⟨kind, []⟩ :: frames }

/-- Finishes the innermost open node. -/
def finishNode (s : Scaffold K) : Except BuildError (Scaffold K) :=
  match s.frames with
  | [] => throw .noOpenNode
  | [f] => return { s with frames := [], root := some f.close }
  | f :: g :: frames => return { s with frames := g.push f.close.tree :: frames }

/-- Adds the next `length` bytes of the text as one token. -/
def push (s : Scaffold K) (kind : K) (length : Nat) : Except BuildError (Scaffold K) :=
  match s.rest.splitAt? length with
  | none => throw .badLength
  | some (text, rest) =>
      match s.frames with
      | [] => throw .noOpenNode
      | f :: frames =>
          return { s with rest := rest, frames := f.push (.token kind text) :: frames }

/-- Adds pieces one by one. -/
def pushAll (s : Scaffold K) (pieces : List (Piece K)) : Except BuildError (Scaffold K) :=
  pieces.foldlM (fun s p => s.push p.kind p.length) s

/-- Makes one call. -/
def call (s : Scaffold K) : Call K → Except BuildError (Scaffold K)
  | .start kind => s.start kind
  | .token stretch => s.pushAll stretch.pieces
  | .finish => s.finishNode

/-- Makes calls in order. -/
def perform (s : Scaffold K) (calls : List (Call K)) : Except BuildError (Scaffold K) :=
  calls.foldlM call s

/-- Takes the finished tree off the scaffold. -/
def finish (s : Scaffold K) : Except BuildError (Root K) :=
  match s.frames, s.root, s.rest with
  | _ :: _, _, _ => throw .unbalanced
  | [], none, _ => throw .noRoot
  | [], some root, [] => return root
  | [], some _, rest => throw (.uncovered (s.size - rest.size) s.size)

theorem pushAll_cons
    (s : Scaffold K)
    (p : Piece K)
    (ps : List (Piece K)) :
    s.pushAll (p :: ps) = s.push p.kind p.length >>= fun s => s.pushAll ps := by
  simp only [pushAll, List.foldlM_cons]

theorem perform_cons
    (s : Scaffold K)
    (c : Call K)
    (cs : List (Call K)) :
    s.perform (c :: cs) = s.call c >>= fun s => s.perform cs := by
  simp only [perform, List.foldlM_cons]

theorem perform_append
    (s : Scaffold K)
    (cs ds : List (Call K)) :
    s.perform (cs ++ ds) = s.perform cs >>= fun s => s.perform ds := by
  simp only [perform, List.foldlM_append]

end Scaffold

/-! ## Results side by side -/

/-- Two computations are refused for the same cause, or what they give is related. -/
inductive Related {ε α β : Type} (R : α → β → Prop) : Except ε α → Except ε β → Prop where
  | ok {a : α} {b : β} (h : R a b) : Related R (.ok a) (.ok b)
  | error (e : ε) : Related R (.error e) (.error e)

namespace Related

variable {ε α β γ δ ι : Type} {R : α → β → Prop} {S : γ → δ → Prop}

theorem bind
    {x : Except ε α}
    {y : Except ε β}
    {f : α → Except ε γ}
    {g : β → Except ε δ}
    (h : Related R x y)
    (hfg : ∀ a b, R a b → Related S (f a) (g b)) :
    Related S (x >>= f) (y >>= g) := by
  cases h with
  | ok hab => exact hfg _ _ hab
  | error e => exact .error e

/-- Side by side, two loops over the same list stay related. -/
theorem foldlM
    {f : α → ι → Except ε α}
    {g : β → ι → Except ε β}
    (hfg : ∀ i a b, R a b → Related R (f a i) (g b i))
    (is : List ι)
    {a : α}
    {b : β}
    (hab : R a b) :
    Related R (is.foldlM f a) (is.foldlM g b) := by
  induction is generalizing a b with
  | nil => exact .ok hab
  | cons i is ih =>
      rw [List.foldlM_cons, List.foldlM_cons]
      exact (hfg i a b hab).bind fun a b hab => ih hab

theorem toOption_bind_eq
    {x : Except ε α}
    {y : Except ε β}
    {f : α → Option β}
    (h : Related R x y)
    (hf : ∀ a b, R a b → f a = some b) :
    x.toOption.bind f = y.toOption := by
  cases h with
  | ok hab => exact hf _ _ hab
  | error e => rfl

theorem exists_of_ok_left
    {a : α}
    {y : Except ε β}
    (h : Related R (.ok a) y) :
    ∃ b, y = .ok b ∧ R a b := by
  cases h with
  | ok hab => exact ⟨_, rfl, hab⟩

theorem exists_of_ok_right
    {x : Except ε α}
    {b : β}
    (h : Related R x (.ok b)) :
    ∃ a, x = .ok a ∧ R a b := by
  cases h with
  | ok hab => exact ⟨_, rfl, hab⟩

end Related
end ZigCst
