import ZigCst.Proofs.Shape
import ZigCst.Trace.Event

/-!
# Growing a shape directly

A trace says how a tree grows, step by step: `start` opens a bed, `advance` adds
the next leaf to the innermost bed, `complete` closes the innermost bed as a node
of the bed around it, and `precede` takes the node completed last out of the
innermost bed and makes it the first child of a new one.

A node is given a parent only once, so the child that a bed took over is kept
apart from the children that were added to it.

**Definitions.**
* `Growth.step`, `Growth.run`: the growth made by a step and by a trace.
* `Shape.grow?`: the shape that a whole trace makes of its leaves.

**Results.**
* `Growth.step_eq_some_iff`: the steps that can be taken, as rules.
* `Growth.run_map`: growth does not look at the leaves.
* `Growth.leaves_run`: every leaf is taken once and in order.
* `Growth.lacks_run`: no node has the kind that marks missing kinds.
-/

namespace ZigCst

/-- A node that is still open: the child that it took over when it was started,
and the children added since, the last first. -/
structure Bed (α K : Type) where
  first : Option (Shape α K)
  children : List (Shape α K)

namespace Bed

variable {α β K : Type}

def empty : Bed α K := ⟨none, []⟩

def add (b : Bed α K) (s : Shape α K) : Bed α K := { b with children := s :: b.children }

/-- All children in order. -/
def shapes (b : Bed α K) : List (Shape α K) := b.first.toList ++ b.children.reverse

/-- The node that a bed becomes. -/
def close (b : Bed α K) (kind : K) : Shape α K := .node kind b.shapes

/-- Exchanges the leaves. -/
def map (f : α → β) (b : Bed α K) : Bed β K :=
  ⟨b.first.map (Shape.map f), b.children.map (Shape.map f)⟩

theorem map_close
    (f : α → β)
    (b : Bed α K)
    (kind : K) :
    (b.close kind).map f = (b.map f).close kind := by
  obtain ⟨first, children⟩ := b
  cases first <;> simp [close, shapes, map]

theorem shapes_add
    (b : Bed α K)
    (s : Shape α K) :
    (b.add s).shapes = b.shapes ++ [s] := by
  simp [add, shapes]

theorem leaves_close
    (b : Bed α K)
    (kind : K) :
    (b.close kind).leaves = b.shapes.flatMap Shape.leaves := by
  rw [close]
  rw [Shape.leaves_node]

end Bed

/-- How far a tree has grown. -/
inductive Stage (α K : Type) where
  | fresh
  /-- Open nodes, the innermost apart from those around it. -/
  | growing (top : Bed α K) (below : List (Bed α K))
  | grown (shape : Shape α K)

/-- A growing tree and the leaves that it has not taken yet. -/
structure Growth (α K : Type) where
  ahead : List α
  stage : Stage α K

namespace Growth

variable {α β K : Type} [DecidableEq K] [Vocabulary K]

/-- The growth made by one step. -/
def step (g : Growth α K) : Step K → Option (Growth α K)
  | .start =>
      match g.stage with
      | .fresh => some ⟨g.ahead, .growing .empty []⟩
      | .growing top below => some ⟨g.ahead, .growing .empty (top :: below)⟩
      | .grown _ => none
  | .advance =>
      match g.ahead, g.stage with
      | a :: ahead, .growing top below => some ⟨ahead, .growing (top.add (.leaf a)) below⟩
      | _, _ => none
  | .complete kind =>
      if kind = Vocabulary.tombstone then none
      else
        match g.stage with
        | .growing top [] => some ⟨g.ahead, .grown (top.close kind)⟩
        | .growing top (bed :: below) =>
            some ⟨g.ahead, .growing (bed.add (top.close kind)) below⟩
        | _ => none
  | .precede =>
      match g.stage with
      | .growing ⟨first, .node kind children :: others⟩ below =>
          some ⟨g.ahead, .growing ⟨some (.node kind children), []⟩ (⟨first, others⟩ :: below)⟩
      | _ => none
  | .report _ => some g
  | .stuck => none

/-- The growth made by a trace. -/
def run (g : Growth α K) (trace : Trace K) : Option (Growth α K) := trace.foldlM step g

/-- The steps that can be taken. -/
inductive Steps : Growth α K → Step K → Growth α K → Prop where
  | sow (ahead : List α) :
      Steps ⟨ahead, .fresh⟩ .start ⟨ahead, .growing .empty []⟩
  | start (ahead : List α) (top : Bed α K) (below : List (Bed α K)) :
      Steps ⟨ahead, .growing top below⟩ .start ⟨ahead, .growing .empty (top :: below)⟩
  | advance (a : α) (ahead : List α) (top : Bed α K) (below : List (Bed α K)) :
      Steps ⟨a :: ahead, .growing top below⟩ .advance ⟨ahead, .growing (top.add (.leaf a)) below⟩
  | complete (ahead : List α) (top bed : Bed α K) (below : List (Bed α K)) (kind : K)
      (hkind : kind ≠ Vocabulary.tombstone) :
      Steps ⟨ahead, .growing top (bed :: below)⟩ (.complete kind)
        ⟨ahead, .growing (bed.add (top.close kind)) below⟩
  | completeLast (ahead : List α) (top : Bed α K) (kind : K)
      (hkind : kind ≠ Vocabulary.tombstone) :
      Steps ⟨ahead, .growing top []⟩ (.complete kind) ⟨ahead, .grown (top.close kind)⟩
  | precede (ahead : List α) (first : Option (Shape α K)) (kind : K)
      (children others : List (Shape α K)) (below : List (Bed α K)) :
      Steps ⟨ahead, .growing ⟨first, .node kind children :: others⟩ below⟩ .precede
        ⟨ahead, .growing ⟨some (.node kind children), []⟩ (⟨first, others⟩ :: below)⟩
  | report (g : Growth α K) (fault : Fault K) : Steps g (.report fault) g

theorem steps_of_step_eq_some
    {g g' : Growth α K}
    {s : Step K}
    (h : g.step s = some g') :
    Steps g s g' := by
  obtain ⟨ahead, stage⟩ := g
  cases s with
  | start =>
      cases stage with
      | fresh =>
          obtain rfl := Option.some.inj h
          exact .sow ahead
      | growing top below =>
          obtain rfl := Option.some.inj h
          exact .start ahead top below
      | grown shape => simp [step] at h
  | advance =>
      cases stage with
      | fresh => cases ahead <;> simp [step] at h
      | grown shape => cases ahead <;> simp [step] at h
      | growing top below =>
          cases ahead with
          | nil => simp [step] at h
          | cons a ahead =>
              obtain rfl := Option.some.inj h
              exact .advance a ahead top below
  | complete kind =>
      by_cases hkind : kind = Vocabulary.tombstone
      · simp [step, hkind] at h
      · rw [step, if_neg hkind] at h
        cases stage with
        | fresh => simp at h
        | grown shape => simp at h
        | growing top below =>
            cases below with
            | nil =>
                obtain rfl := Option.some.inj h
                exact .completeLast ahead top kind hkind
            | cons bed below =>
                obtain rfl := Option.some.inj h
                exact .complete ahead top bed below kind hkind
  | precede =>
      cases stage with
      | fresh => simp [step] at h
      | grown shape => simp [step] at h
      | growing top below =>
          obtain ⟨first, children⟩ := top
          rcases children with _ | ⟨_ | ⟨kind, children⟩, others⟩
          · simp [step] at h
          · simp [step] at h
          · obtain rfl := Option.some.inj h
            exact .precede ahead first kind children others below
  | report fault =>
      obtain rfl := Option.some.inj h
      exact .report _ fault
  | stuck => simp [step] at h

theorem Steps.step_eq_some
    {g g' : Growth α K}
    {s : Step K}
    (h : Steps g s g') :
    g.step s = some g' := by
  cases h with
  | sow => rfl
  | start => rfl
  | advance => rfl
  | complete ahead top bed below kind hkind => rw [step, if_neg hkind]
  | completeLast ahead top kind hkind => rw [step, if_neg hkind]
  | precede => rfl
  | report => rfl

theorem step_eq_some_iff
    {g g' : Growth α K}
    {s : Step K} :
    g.step s = some g' ↔ Steps g s g' :=
  ⟨steps_of_step_eq_some, Steps.step_eq_some⟩

@[simp]
theorem run_nil (g : Growth α K) : g.run [] = some g := rfl

theorem run_cons
    (g : Growth α K)
    (s : Step K)
    (trace : Trace K) :
    g.run (s :: trace) = (g.step s).bind fun g => g.run trace := by
  simp [run]

theorem run_append
    (g : Growth α K)
    (trace rest : Trace K) :
    g.run (trace ++ rest) = (g.run trace).bind fun g => g.run rest := by
  simp [run]

/-- What every step keeps, every trace keeps. -/
theorem run_induction
    {P : Growth α K → Prop}
    (hstep : ∀ g s g', P g → Steps g s g' → P g')
    {g g' : Growth α K}
    {trace : Trace K}
    (hg : P g)
    (h : g.run trace = some g') :
    P g' := by
  induction trace generalizing g with
  | nil =>
      obtain rfl := Option.some.inj h
      exact hg
  | cons s trace ih =>
      rw [run_cons] at h
      obtain ⟨g₁, hs, h⟩ := Option.bind_eq_some_iff.mp h
      have hg₁ := hstep g s g₁ hg (step_eq_some_iff.mp hs)
      exact ih hg₁ h

end Growth

/-! ## Growth does not look at the leaves -/

section Naturality

variable {α β K : Type} [DecidableEq K] [Vocabulary K]

/-- Exchanges the leaves. -/
def Stage.map (f : α → β) : Stage α K → Stage β K
  | .fresh => .fresh
  | .growing top below => .growing (top.map f) (below.map (Bed.map f))
  | .grown shape => .grown (shape.map f)

/-- Exchanges the leaves, those ahead included. -/
def Growth.map (f : α → β) (g : Growth α K) : Growth β K :=
  ⟨g.ahead.map f, g.stage.map f⟩

theorem Growth.step_map
    (f : α → β)
    (g : Growth α K)
    (s : Step K) :
    (g.map f).step s = (g.step s).map (Growth.map f) := by
  obtain ⟨ahead, stage⟩ := g
  cases s with
  | start => cases stage <;> rfl
  | advance => cases ahead <;> cases stage <;> rfl
  | complete kind =>
      by_cases hkind : kind = Vocabulary.tombstone
      · simp [step, hkind]
      · rw [step, if_neg hkind, step, if_neg hkind]
        cases stage with
        | fresh => rfl
        | grown shape => rfl
        | growing top below =>
            cases below with
            | nil => simp [map, Stage.map, Bed.map_close]
            | cons bed below => simp [map, Stage.map, Bed.map, Bed.add, Bed.map_close]
  | precede =>
      cases stage with
      | fresh => rfl
      | grown shape => rfl
      | growing top below =>
          obtain ⟨first, children⟩ := top
          rcases children with _ | ⟨_ | ⟨kind, children⟩, others⟩
          · rfl
          · rfl
          · simp [step, map, Stage.map, Bed.map]
  | report fault => rfl
  | stuck => rfl

/-- A trace grows the same tree whatever its leaves are. -/
theorem Growth.run_map
    (f : α → β)
    (g : Growth α K)
    (trace : Trace K) :
    (g.map f).run trace = (g.run trace).map (Growth.map f) := by
  induction trace generalizing g with
  | nil => rfl
  | cons s trace ih =>
      rw [run_cons, run_cons, step_map]
      cases g.step s with
      | none => rfl
      | some g₁ => exact ih g₁

end Naturality

/-! ## What every trace keeps -/

section Invariants

variable {α β K : Type} [DecidableEq K] [Vocabulary K]

/-- The shapes that have been made so far, in order. -/
def Stage.shapes : Stage α K → List (Shape α K)
  | .fresh => []
  | .growing top below => below.reverse.flatMap Bed.shapes ++ top.shapes
  | .grown shape => [shape]

/-- The leaves taken so far, in order. -/
def Stage.leaves (stage : Stage α K) : List α := stage.shapes.flatMap Shape.leaves

/-- Leaves are taken in order, and none is lost or taken twice. -/
theorem Growth.leaves_run
    {g g' : Growth α K}
    {trace : Trace K}
    (h : g.run trace = some g') :
    g'.stage.leaves ++ g'.ahead = g.stage.leaves ++ g.ahead := by
  refine run_induction (P := fun g' => g'.stage.leaves ++ g'.ahead = g.stage.leaves ++ g.ahead)
    ?_ rfl h
  intro g₁ s g₂ hg₁ hs
  rw [← hg₁]
  cases hs with
  | sow ahead => rfl
  | start ahead top below =>
      simp [Stage.leaves, Stage.shapes, Bed.empty, Bed.shapes]
  | advance a ahead top below =>
      simp [Stage.leaves, Stage.shapes, Bed.shapes_add]
  | complete ahead top bed below kind hkind =>
      simp [Stage.leaves, Stage.shapes, Bed.shapes_add, Bed.leaves_close]
  | completeLast ahead top kind hkind =>
      simp [Stage.leaves, Stage.shapes, Bed.leaves_close]
  | precede ahead first kind children others below =>
      simp [Stage.leaves, Stage.shapes, Bed.shapes]
  | report g fault => rfl

/-- A node is only completed with a proper kind. -/
theorem Growth.lacks_run
    {g g' : Growth α K}
    {trace : Trace K}
    (hg : ∀ s ∈ g.stage.shapes, s.Lacks Vocabulary.tombstone)
    (h : g.run trace = some g') :
    ∀ s ∈ g'.stage.shapes, s.Lacks Vocabulary.tombstone := by
  refine run_induction
    (P := fun g' => ∀ s ∈ g'.stage.shapes, s.Lacks Vocabulary.tombstone) ?_ hg h
  intro g₁ s g₂ hg₁ hs
  cases hs with
  | sow ahead => exact hg₁
  | start ahead top below =>
      simpa [Stage.shapes, Bed.empty, Bed.shapes] using hg₁
  | advance a ahead top below =>
      intro t ht
      simp only [Stage.shapes, Bed.shapes_add, List.mem_append, List.mem_singleton] at ht hg₁
      rcases ht with ht | ht | rfl
      · exact hg₁ t (.inl ht)
      · exact hg₁ t (.inr ht)
      · trivial
  | complete ahead top bed below kind hkind =>
      intro t ht
      simp only [Stage.shapes, Bed.shapes_add, List.reverse_cons, List.flatMap_append,
        List.flatMap_singleton, List.mem_append, List.mem_singleton] at ht hg₁
      rcases ht with ht | ht | rfl
      · exact hg₁ t (.inl (.inl ht))
      · exact hg₁ t (.inl (.inr ht))
      · exact Shape.lacks_node_iff.mpr ⟨hkind, fun u hu => hg₁ u (.inr hu)⟩
  | completeLast ahead top kind hkind =>
      intro t ht
      obtain rfl := List.mem_singleton.mp ht
      exact Shape.lacks_node_iff.mpr ⟨hkind, fun u hu => hg₁ u (by simpa [Stage.shapes] using hu)⟩
  | precede ahead first kind children others below =>
      intro t ht
      apply hg₁ t
      simpa [Stage.shapes, Bed.shapes, or_assoc, or_comm, or_left_comm] using ht
  | report g fault => exact hg₁

/-- A tree has grown only into a node. -/
theorem Growth.grown_run
    {g g' : Growth α K}
    {trace : Trace K}
    (hg : ∀ shape, g.stage = .grown shape → ∃ kind children, shape = .node kind children)
    (h : g.run trace = some g') :
    ∀ shape, g'.stage = .grown shape → ∃ kind children, shape = .node kind children := by
  refine run_induction
    (P := fun g' => ∀ shape, g'.stage = .grown shape →
      ∃ kind children, shape = .node kind children) ?_ hg h
  intro g₁ s g₂ hg₁ hs
  cases hs with
  | completeLast ahead top kind hkind =>
      intro shape hshape
      obtain rfl := Stage.grown.inj hshape
      exact ⟨kind, top.shapes, rfl⟩
  | report => exact hg₁
  | sow => simp
  | start => simp
  | advance => simp
  | complete => simp
  | precede => simp

end Invariants

/-! ## Whole traces -/

section Whole

variable {α β K : Type} [DecidableEq K] [Vocabulary K]

/-- The shape that a trace makes of its leaves: all of them are taken, and one
node is left at the end. -/
def Shape.grow? (leaves : List α) (trace : Trace K) : Option (Shape α K) :=
  match Growth.run ⟨leaves, .fresh⟩ trace with
  | some ⟨[], .grown shape⟩ => some shape
  | _ => none

theorem Shape.grow?_eq_some_iff
    {leaves : List α}
    {trace : Trace K}
    {shape : Shape α K} :
    grow? leaves trace = some shape ↔
      Growth.run ⟨leaves, .fresh⟩ trace = some ⟨[], .grown shape⟩ := by
  rw [grow?]
  constructor
  · intro h
    split at h
    case h_1 shape' hrun =>
        obtain rfl := Option.some.inj h
        exact hrun
    case h_2 => simp at h
  · intro h
    rw [h]

theorem Shape.grow?_map
    (f : α → β)
    (leaves : List α)
    (trace : Trace K) :
    grow? (leaves.map f) trace = (grow? leaves trace).map (Shape.map f) := by
  have hrun := Growth.run_map f ⟨leaves, .fresh⟩ trace
  have hstart : Growth.map f ⟨leaves, (.fresh : Stage α K)⟩ = ⟨leaves.map f, .fresh⟩ := rfl
  rw [hstart] at hrun
  rw [grow?, grow?, hrun]
  rcases Growth.run ⟨leaves, .fresh⟩ trace with _ | ⟨_ | ⟨a, ahead⟩, _ | _ | shape⟩ <;> rfl

theorem Shape.leaves_of_grow?
    {leaves : List α}
    {trace : Trace K}
    {shape : Shape α K}
    (h : grow? leaves trace = some shape) :
    shape.leaves = leaves := by
  have hleaves := Growth.leaves_run (grow?_eq_some_iff.mp h)
  simpa [Stage.leaves, Stage.shapes] using hleaves

theorem Shape.lacks_of_grow?
    {leaves : List α}
    {trace : Trace K}
    {shape : Shape α K}
    (h : grow? leaves trace = some shape) :
    shape.Lacks Vocabulary.tombstone := by
  have hlacks := Growth.lacks_run (by simp [Stage.shapes]) (grow?_eq_some_iff.mp h)
  exact hlacks shape (List.mem_singleton.mpr rfl)

theorem Shape.exists_node_of_grow?
    {leaves : List α}
    {trace : Trace K}
    {shape : Shape α K}
    (h : grow? leaves trace = some shape) :
    ∃ kind children, shape = .node kind children :=
  Growth.grown_run (by simp) (grow?_eq_some_iff.mp h) shape rfl

end Whole
end ZigCst
