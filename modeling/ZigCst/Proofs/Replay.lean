import ZigCst.Proofs.Growth

/-!
# Replaying events

A trace is recorded as a flat list of events in which the start of a node comes
before the starts of the parents that the node gets later.  A branch is a node
that remembers this order: it was started plainly, or around an inner branch that
was complete before it.  The events of a branch follow from its form, and so do
the links between its starts.

**Recording.**  At every moment the recorded events are those of the open nodes,
from the outermost to the innermost, and each open node is an erased start behind
the inner branch that it took over (`Mirrors`).  `exists_step_mirrors` carries
this along one step, `exists_record_mirrors` along a whole trace.

**Replaying.**  At the first start of a branch, following the links gives the
kinds of all its starts from the outside in and leaves the branch hollow: all its
starts are erased (`Branch.chain_events`).  What is then replayed are the ends and
whatever stands between them (`Branch.replays_hollow`).

Together: a trace that grows a shape is recorded, and its events are replayed as
the commands of that shape (`replay_record_of_grow?`).
-/

namespace ZigCst

mutual

/-- A node and the order in which it was started. -/
inductive Branch (α K : Type) where
  | plain (kind : K) (twigs : List (Twig α K))
  /-- A node started around a node that was complete before. -/
  | around (kind : K) (inner : Branch α K) (twigs : List (Twig α K))

/-- A leaf or a branch. -/
inductive Twig (α K : Type) where
  | leaf (a : α)
  | branch (b : Branch α K)

end

section Layout

variable {α K : Type}

mutual

/-- The shape of a branch. -/
def Branch.shape : Branch α K → Shape α K
  | .plain kind twigs => .node kind (Twig.shapes twigs)
  | .around kind inner twigs => .node kind (inner.shape :: Twig.shapes twigs)

def Twig.shape : Twig α K → Shape α K
  | .leaf a => .leaf a
  | .branch b => b.shape

def Twig.shapes : List (Twig α K) → List (Shape α K)
  | [] => []
  | t :: ts => t.shape :: Twig.shapes ts

end

mutual

/-- Number of events of a branch. -/
def Branch.size : Branch α K → Nat
  | .plain _ twigs => Twig.sizes twigs + 2
  | .around _ inner twigs => inner.size + (Twig.sizes twigs + 2)

def Twig.size : Twig α K → Nat
  | .leaf _ => 1
  | .branch b => b.size

def Twig.sizes : List (Twig α K) → Nat
  | [] => 0
  | t :: ts => t.size + Twig.sizes ts

end

/-- Number of events before the outermost start. -/
def Branch.last : Branch α K → Nat
  | .plain _ _ => 0
  | .around _ inner _ => inner.size

/-- Number of events from the outermost start on. -/
def Branch.reach : Branch α K → Nat
  | .plain _ twigs => Twig.sizes twigs + 2
  | .around _ _ twigs => Twig.sizes twigs + 2

mutual

/-- The events of a branch whose outermost start has a given link. -/
def Branch.events (forward : Option Nat) : Branch α K → List (Event K)
  | .plain kind twigs => .start kind forward :: (Twig.events twigs ++ [Event.finish])
  | .around kind inner twigs =>
      inner.events (some inner.reach) ++
        Event.start kind forward :: (Twig.events twigs ++ [Event.finish])

def Twig.event : Twig α K → List (Event K)
  | .leaf _ => [.token]
  | .branch b => b.events none

def Twig.events : List (Twig α K) → List (Event K)
  | [] => []
  | t :: ts => t.event ++ Twig.events ts

end

/-- The kinds of the starts of a branch, the outermost first. -/
def Branch.kinds : Branch α K → List K
  | .plain kind _ => [kind]
  | .around kind inner _ => kind :: inner.kinds

/-- The events of a branch whose starts are erased. -/
def Branch.hollow [Vocabulary K] : Branch α K → List (Event K)
  | .plain _ twigs => .erased :: (Twig.events twigs ++ [Event.finish])
  | .around _ inner twigs => inner.hollow ++ Event.erased :: (Twig.events twigs ++ [Event.finish])

theorem Twig.shapes_eq (ts : List (Twig α K)) : Twig.shapes ts = ts.map Twig.shape := by
  induction ts with
  | nil => rfl
  | cons t ts ih =>
      rw [shapes]
      rw [ih]
      rfl

theorem Twig.lacks_shapes_iff
    {kind : K}
    {ts : List (Twig α K)} :
    (∀ s ∈ Twig.shapes ts, s.Lacks kind) ↔ ∀ t ∈ ts, t.shape.Lacks kind := by
  rw [shapes_eq]
  exact List.forall_mem_map

theorem Twig.events_append (ts us : List (Twig α K)) :
    Twig.events (ts ++ us) = Twig.events ts ++ Twig.events us := by
  induction ts with
  | nil => rfl
  | cons t ts ih =>
      rw [List.cons_append]
      rw [events, events]
      rw [ih]
      rw [List.append_assoc]

theorem Branch.last_add_reach (b : Branch α K) : b.last + b.reach = b.size := by
  cases b with
  | plain kind twigs => simp [last, reach, size]
  | around kind inner twigs => simp [last, reach, size]

mutual

theorem Branch.length_events
    (b : Branch α K)
    (forward : Option Nat) :
    (b.events forward).length = b.size := by
  cases b with
  | plain kind twigs =>
      simp [Branch.events, Branch.size, Twig.length_events twigs]
  | around kind inner twigs =>
      simp [Branch.events, Branch.size, Branch.length_events inner, Twig.length_events twigs]

theorem Twig.length_event (t : Twig α K) : t.event.length = t.size := by
  cases t with
  | leaf a => rfl
  | branch b => exact Branch.length_events b none

theorem Twig.length_events (ts : List (Twig α K)) :
    (Twig.events ts).length = Twig.sizes ts := by
  cases ts with
  | nil => rfl
  | cons t ts =>
      simp [Twig.events, Twig.sizes, Twig.length_event t, Twig.length_events ts]

end

theorem Branch.length_hollow [Vocabulary K] (b : Branch α K) : b.hollow.length = b.size := by
  cases b with
  | plain kind twigs =>
      simp [hollow, size, Twig.length_events]
  | around kind inner twigs =>
      simp [hollow, size, Twig.length_events, Branch.length_hollow inner]

theorem Branch.exists_hollow_eq [Vocabulary K] (b : Branch α K) :
    ∃ tail, b.hollow = .erased :: tail := by
  cases b with
  | plain kind twigs => exact ⟨_, rfl⟩
  | around kind inner twigs =>
      obtain ⟨tail, htail⟩ := Branch.exists_hollow_eq inner
      rw [hollow, htail]
      exact ⟨_, rfl⟩

/-- Only the outermost start of a branch depends on the link. -/
theorem Branch.events_split (b : Branch α K) :
    ∃ kind before after,
      before.length = b.last ∧
      ∀ forward, b.events forward = before ++ Event.start kind forward :: after := by
  cases b with
  | plain kind twigs =>
      exact ⟨kind, [], Twig.events twigs ++ [Event.finish], rfl, fun _ => rfl⟩
  | around kind inner twigs =>
      refine ⟨kind, inner.events (some inner.reach), Twig.events twigs ++ [Event.finish], ?_,
        fun _ => rfl⟩
      exact inner.length_events _

end Layout

/-! ## Replaying -/

section Commands

variable {α K : Type}

mutual

/-- The commands that build a shape. -/
def Shape.commands : Shape α K → List (Command K)
  | .leaf _ => [.token]
  | .node kind children => .start kind :: (commandsAll children ++ [Command.finish])

/-- The commands that build neighbouring shapes. -/
def Shape.commandsAll : List (Shape α K) → List (Command K)
  | [] => []
  | s :: ss => s.commands ++ commandsAll ss

end

/-- The commands of a branch after its starts. -/
def Branch.body : Branch α K → List (Command K)
  | .plain _ twigs => Shape.commandsAll (Twig.shapes twigs) ++ [Command.finish]
  | .around _ inner twigs =>
      inner.body ++ (Shape.commandsAll (Twig.shapes twigs) ++ [Command.finish])

/-- A branch is built by its starts from the outside in, then by its body. -/
theorem Branch.commands_shape (b : Branch α K) :
    b.shape.commands = b.kinds.map .start ++ b.body := by
  cases b with
  | plain kind twigs => rfl
  | around kind inner twigs =>
      rw [shape, Shape.commands, Shape.commandsAll, kinds, body]
      rw [Branch.commands_shape inner]
      simp

end Commands

section Replaying

variable {α K : Type} [DecidableEq K] [Vocabulary K]

theorem chain_none
    (events : Array (Event K))
    (i : Nat)
    (kinds : List K) :
    chain events i none kinds = some (events, kinds) := by
  rw [chain]

/-- A link is followed to the start of a node with a proper kind. -/
theorem chain_some
    {i distance : Nat}
    {kind : K}
    {before : List (Event K)}
    (forward : Option Nat)
    (after : List (Event K))
    (kinds : List K)
    (hdistance : 0 < distance)
    (hbefore : i + distance = before.length)
    (hkind : kind ≠ Vocabulary.tombstone) :
    chain (before ++ Event.start kind forward :: after).toArray i (some distance) kinds =
      chain (before ++ Event.erased :: after).toArray before.length forward (kind :: kinds) := by
  rw [chain]
  have hbound :
      0 < distance ∧
        i + distance < (before ++ Event.start kind forward :: after).toArray.size := by
    simp [hdistance, hbefore]
  rw [dif_pos hbound]
  simp [hbefore, hkind]

/-- From the first start of a branch on, the links lead through all its starts and
leave it hollow. -/
theorem Branch.chain_events
    (b : Branch α K)
    (hb : b.shape.Lacks Vocabulary.tombstone)
    (forward : Option Nat) :
    ∃ kind link tail,
      kind ≠ Vocabulary.tombstone ∧
      b.events forward = .start kind link :: tail ∧
      ∀ before after,
        chain (before ++ Event.erased :: (tail ++ after)).toArray before.length link [kind] =
          chain (before ++ b.hollow ++ after).toArray (before.length + b.last) forward b.kinds := by
  cases b with
  | plain kind twigs =>
      rw [shape] at hb
      obtain ⟨hkind, -⟩ := Shape.lacks_node_iff.mp hb
      refine ⟨kind, forward, Twig.events twigs ++ [Event.finish], hkind, rfl, ?_⟩
      intro before after
      simp [hollow, last, kinds]
  | around kind inner twigs =>
      rw [shape] at hb
      obtain ⟨hkind, hchildren⟩ := Shape.lacks_node_iff.mp hb
      have hinner := hchildren inner.shape List.mem_cons_self
      obtain ⟨first, link, tail, hfirst, hevents, hchain⟩ :=
        Branch.chain_events inner hinner (some inner.reach)
      refine ⟨first, link,
        tail ++ Event.start kind forward :: (Twig.events twigs ++ [Event.finish]), hfirst, ?_, ?_⟩
      · rw [events, hevents]
        rfl
      · intro before after
        have hreach : 0 < inner.reach := by
          cases inner <;> simp [reach]
        have hposition :
            before.length + inner.last + inner.reach = (before ++ inner.hollow).length := by
          rw [List.length_append, length_hollow]
          have hsize := inner.last_add_reach
          omega
        have hinto :=
          hchain before (.start kind forward :: (Twig.events twigs ++ [Event.finish] ++ after))
        have hover :=
          chain_some forward (Twig.events twigs ++ [Event.finish] ++ after) inner.kinds
            hreach hposition hkind
        simp only [List.append_assoc, List.cons_append] at hinto hover ⊢
        rw [hinto, hover]
        simp [hollow, last, kinds, length_hollow]

/-- Events whose replay gives commands, whatever stands before and after them. -/
def Replays (events : List (Event K)) (commands : List (Command K)) : Prop :=
  ∀ before after count,
    ∃ before',
      before'.length = before.length + events.length ∧
      replayFrom (events.length + count) before.length (before ++ events ++ after).toArray =
        (replayFrom count before'.length (before' ++ after).toArray).map (commands ++ ·)

theorem Replays.nil : Replays ([] : List (Event K)) [] := by
  intro before after count
  refine ⟨before, rfl, ?_⟩
  cases h : replayFrom count before.length (before ++ after).toArray <;> simp [h]

theorem Replays.append
    {es fs : List (Event K)}
    {cs ds : List (Command K)}
    (he : Replays es cs)
    (hf : Replays fs ds) :
    Replays (es ++ fs) (cs ++ ds) := by
  intro before after count
  obtain ⟨before₁, hlength₁, hreplay₁⟩ := he before (fs ++ after) (fs.length + count)
  obtain ⟨before₂, hlength₂, hreplay₂⟩ := hf before₁ after count
  refine ⟨before₂, ?_, ?_⟩
  · rw [hlength₂, hlength₁, List.length_append, Nat.add_assoc]
  · have hcount : (es ++ fs).length + count = es.length + (fs.length + count) := by
      rw [List.length_append, Nat.add_assoc]
    have hevents : before ++ (es ++ fs) ++ after = before ++ es ++ (fs ++ after) := by
      simp
    have hevents₁ : before₁ ++ (fs ++ after) = before₁ ++ fs ++ after := by
      simp
    rw [hcount, hevents, hreplay₁, hevents₁, hreplay₂, Option.map_map]
    congr 1
    funext rest
    simp

theorem Replays.erased : Replays [(.erased : Event K)] [] := by
  intro before after count
  refine ⟨before ++ [Event.erased], by simp, ?_⟩
  rw [List.length_singleton, Nat.add_comm, replayFrom]
  simp [Event.erased]

/-- An event that stands for one command. -/
theorem Replays.single
    {e : Event K}
    {c : Command K}
    (h : ∀ count i (events : Array (Event K)), events[i]? = some e →
      replayFrom (count + 1) i events = (replayFrom count (i + 1) events).map (c :: ·)) :
    Replays [e] [c] := by
  intro before after count
  have hevent : (before ++ [e] ++ after).toArray[before.length]? = some e := by simp
  refine ⟨before ++ [e], List.length_append, ?_⟩
  rw [List.length_singleton, Nat.add_comm, h count before.length _ hevent, List.length_append]
  rfl

theorem Replays.token : Replays [(.token : Event K)] [.token] :=
  .single fun count i events hevent => by
    rw [replayFrom, hevent, Option.map_eq_bind]
    rfl

theorem Replays.finish : Replays [(.finish : Event K)] [.finish] :=
  .single fun count i events hevent => by
    rw [replayFrom, hevent, Option.map_eq_bind]
    rfl

/-- A branch is replayed as its starts followed by what its hollow form gives. -/
theorem Branch.replays_of_hollow
    {b : Branch α K}
    (hb : b.shape.Lacks Vocabulary.tombstone)
    (h : Replays b.hollow b.body) :
    Replays (b.events none) b.shape.commands := by
  intro before after count
  obtain ⟨kind, link, tail, hkind, hevents, hchain⟩ := b.chain_events hb none
  obtain ⟨hollowTail, hhollow⟩ := b.exists_hollow_eq
  have hlength : (b.events none).length = b.hollow.length := by
    rw [length_events, length_hollow]
  have htail : tail.length = hollowTail.length := by
    rw [hevents, hhollow] at hlength
    simpa using hlength
  obtain ⟨before', hlength', hreplay⟩ := h before after count
  refine ⟨before', ?_, ?_⟩
  · rw [hlength', hlength]
  · -- the hollow form starts with an erased start, which is passed over
    have hpassed :
        replayFrom (b.hollow.length + count) before.length (before ++ b.hollow ++ after).toArray =
          replayFrom (tail.length + count) (before.length + 1)
            (before ++ b.hollow ++ after).toArray := by
      rw [hhollow, List.length_cons, Nat.add_right_comm, replayFrom, htail]
      simp [Event.erased]
    have hstart :
        replayFrom ((b.events none).length + count) before.length
            (before ++ b.events none ++ after).toArray =
          (replayFrom (tail.length + count) (before.length + 1)
            (before ++ b.hollow ++ after).toArray).map (b.kinds.map .start ++ ·) := by
      have hlinks := hchain before after
      rw [chain_none] at hlinks
      have hevent : (before ++ Event.start kind link :: (tail ++ after)).toArray[before.length]? =
          some (.start kind link) := by simp
      have herased : (before ++ Event.start kind link :: (tail ++ after)).toArray.setIfInBounds
          before.length .erased = (before ++ Event.erased :: (tail ++ after)).toArray := by simp
      rw [hevents, List.append_assoc, List.cons_append, List.length_cons, Nat.add_right_comm,
        replayFrom, hevent, Option.map_eq_bind]
      simp only [Option.bind_eq_bind, Option.bind_some, if_neg hkind, herased, hlinks]
      rfl
    rw [hstart, ← hpassed, hreplay, commands_shape, Option.map_map]
    congr 1
    funext rest
    simp

mutual

/-- The hollow form of a branch is replayed as its body. -/
theorem Branch.replays_hollow
    (b : Branch α K)
    (hb : b.shape.Lacks Vocabulary.tombstone) :
    Replays b.hollow b.body := by
  cases b with
  | plain kind twigs =>
      rw [Branch.shape] at hb
      have htwigs := Twig.lacks_shapes_iff.mp (Shape.lacks_node_iff.mp hb).2
      have hreplays := (Twig.replays_events twigs htwigs).append Replays.finish
      exact Replays.erased.append hreplays
  | around kind inner twigs =>
      rw [Branch.shape] at hb
      obtain ⟨-, hchildren⟩ := Shape.lacks_node_iff.mp hb
      obtain ⟨hinner, hrest⟩ := List.forall_mem_cons.mp hchildren
      have htwigs := Twig.lacks_shapes_iff.mp hrest
      have hreplays := (Twig.replays_events twigs htwigs).append Replays.finish
      exact (Branch.replays_hollow inner hinner).append (Replays.erased.append hreplays)

theorem Twig.replays_event
    (t : Twig α K)
    (ht : t.shape.Lacks Vocabulary.tombstone) :
    Replays t.event t.shape.commands := by
  cases t with
  | leaf a => exact Replays.token
  | branch b => exact Branch.replays_of_hollow ht (Branch.replays_hollow b ht)

theorem Twig.replays_events
    (ts : List (Twig α K))
    (hts : ∀ t ∈ ts, t.shape.Lacks Vocabulary.tombstone) :
    Replays (Twig.events ts) (Shape.commandsAll (Twig.shapes ts)) := by
  cases ts with
  | nil => exact Replays.nil
  | cons t ts =>
      obtain ⟨ht, hts⟩ := List.forall_mem_cons.mp hts
      exact (Twig.replays_event t ht).append (Twig.replays_events ts hts)

end

/-- The events of a whole tree are replayed as its commands. -/
theorem Branch.replay?_events
    (b : Branch α K)
    (hb : b.shape.Lacks Vocabulary.tombstone) :
    replay? (b.events none).toArray = some b.shape.commands := by
  have hreplays := Branch.replays_of_hollow hb (b.replays_hollow hb)
  obtain ⟨before', -, hreplay⟩ := hreplays [] [] 0
  rw [replay?]
  simpa [replayFrom] using hreplay

end Replaying

/-! ## Recording -/

/-- An open node: the branch that it took over, and the twigs added since, the
last first. -/
structure Bud (α K : Type) where
  inner : Option (Branch α K)
  twigs : List (Twig α K)

namespace Bud

variable {α K : Type}

/-- The open node without the order of its starts. -/
def bed (b : Bud α K) : Bed α K := ⟨b.inner.map Branch.shape, b.twigs.map Twig.shape⟩

/-- The branch that an open node becomes. -/
def close (b : Bud α K) (kind : K) : Branch α K :=
  match b.inner with
  | none => .plain kind b.twigs.reverse
  | some inner => .around kind inner b.twigs.reverse

/-- The events before the start of an open node. -/
def taken (b : Bud α K) : List (Event K) :=
  match b.inner with
  | none => []
  | some inner => inner.events (some inner.reach)

theorem shape_close
    (b : Bud α K)
    (kind : K) :
    (b.close kind).shape = b.bed.close kind := by
  obtain ⟨inner, twigs⟩ := b
  cases inner <;> simp [close, bed, Bed.close, Bed.shapes, Branch.shape, Twig.shapes_eq]

theorem events_close
    (b : Bud α K)
    (kind : K)
    (forward : Option Nat) :
    (b.close kind).events forward =
      b.taken ++ Event.start kind forward :: (Twig.events b.twigs.reverse ++ [Event.finish]) := by
  obtain ⟨inner, twigs⟩ := b
  cases inner <;> simp [close, taken, Branch.events]

theorem last_close
    (b : Bud α K)
    (kind : K) :
    (b.close kind).last = b.taken.length := by
  obtain ⟨inner, twigs⟩ := b
  cases inner <;> simp [close, taken, Branch.last, Branch.length_events]

variable [Vocabulary K]

/-- The events of an open node, its start being erased. -/
def events (b : Bud α K) : List (Event K) :=
  b.taken ++ Event.erased :: Twig.events b.twigs.reverse

/-- The events of open nodes, the innermost given first. -/
def stack : List (Bud α K) → List (Event K)
  | [] => []
  | b :: bs => stack bs ++ b.events

/-- The positions of the starts of open nodes. -/
def positions : List (Bud α K) → List Nat
  | [] => []
  | b :: bs => (stack bs ++ b.taken).length :: positions bs

theorem events_add
    (inner : Option (Branch α K))
    (t : Twig α K)
    (ts : List (Twig α K)) :
    events ⟨inner, t :: ts⟩ = events ⟨inner, ts⟩ ++ t.event := by
  have htaken : taken ⟨inner, t :: ts⟩ = taken ⟨inner, ts⟩ := rfl
  rw [events, events, htaken, List.reverse_cons, Twig.events_append]
  simp [Twig.events]

end Bud

section Recording

variable {α K : Type} [Vocabulary K]

/-- A recording holds the events of a growing tree.  The node completed last, if
it is still the last one of the innermost open node, is known by the position of
its outermost start. -/
inductive Mirrors : Recording K → Stage α K → Prop where
  | fresh (completed : Option Nat) : Mirrors ⟨#[], [], completed⟩ .fresh
  | growing (top : Bud α K) (below : List (Bud α K)) (completed : Option Nat)
      (hcompleted : ∀ b ts, top.twigs = .branch b :: ts →
        completed = some ((Bud.stack (⟨top.inner, ts⟩ :: below)).length + b.last)) :
      Mirrors ⟨(Bud.stack (top :: below)).toArray, Bud.positions (top :: below), completed⟩
        (.growing top.bed (below.map Bud.bed))
  | grown (b : Branch α K) (completed : Option Nat) :
      Mirrors ⟨(b.events none).toArray, [], completed⟩ (.grown b.shape)

omit [Vocabulary K] in
theorem Recording.restart_eq
    (before after : List (Event K))
    (kind : K)
    (forward : Option Nat)
    (opened : List Nat)
    (completed : Option Nat)
    (f : K → Option Nat → Event K) :
    (Recording.mk (before ++ Event.start kind forward :: after).toArray opened completed).restart
        before.length f =
      some ⟨(before ++ f kind forward :: after).toArray, opened, completed⟩ := by
  simp [restart]

theorem Mirrors.exists_buds
    {r : Recording K}
    {top : Bed α K}
    {below : List (Bed α K)}
    (h : Mirrors r (.growing top below)) :
    ∃ (bud : Bud α K) (buds : List (Bud α K)) (completed : Option Nat),
      r = ⟨(Bud.stack (bud :: buds)).toArray, Bud.positions (bud :: buds), completed⟩ ∧
      bud.bed = top ∧
      buds.map Bud.bed = below ∧
      ∀ b ts, bud.twigs = .branch b :: ts →
        completed = some ((Bud.stack (⟨bud.inner, ts⟩ :: buds)).length + b.last) := by
  cases h with
  | growing bud buds completed hcompleted =>
      exact ⟨bud, buds, completed, rfl, rfl, rfl, hcompleted⟩

/-- Completing a node turns its erased start into the start of the node. -/
theorem Recording.step_complete
    (top : Bud α K)
    (below : List (Bud α K))
    (completed : Option Nat)
    (kind : K) :
    Recording.step
        ⟨(Bud.stack (top :: below)).toArray, Bud.positions (top :: below), completed⟩
        (.complete kind) =
      some ⟨(Bud.stack below ++ (top.close kind).events none).toArray, Bud.positions below,
        some ((Bud.stack below).length + (top.close kind).last)⟩ := by
  have hrestart :=
    Recording.restart_eq (Bud.stack below ++ top.taken) (Twig.events top.twigs.reverse)
      Vocabulary.tombstone none (Bud.positions (top :: below)) completed
      fun _ forward => .start kind forward
  have hevents :
      Bud.stack (top :: below) =
        Bud.stack below ++ top.taken ++
          .start Vocabulary.tombstone none :: Twig.events top.twigs.reverse := by
    simp [Bud.stack, Bud.events, Event.erased]
  rw [step, Bud.positions]
  rw [Bud.positions] at hrestart
  rw [hevents]
  dsimp only [Option.bind_eq_bind]
  rw [hrestart]
  simp [Bud.events_close, Bud.last_close]

/-- Preceding the last branch of an open node links its outermost start to the
start of a new node. -/
theorem Recording.step_precede
    (inner : Option (Branch α K))
    (b : Branch α K)
    (ts : List (Twig α K))
    (below : List (Bud α K)) :
    Recording.step
        ⟨(Bud.stack (⟨inner, .branch b :: ts⟩ :: below)).toArray,
          Bud.positions (⟨inner, .branch b :: ts⟩ :: below),
          some ((Bud.stack (⟨inner, ts⟩ :: below)).length + b.last)⟩
        .precede =
      some ⟨(Bud.stack (⟨some b, []⟩ :: ⟨inner, ts⟩ :: below)).toArray,
        Bud.positions (⟨some b, []⟩ :: ⟨inner, ts⟩ :: below),
        some ((Bud.stack (⟨inner, ts⟩ :: below)).length + b.last)⟩ := by
  obtain ⟨kind, before, after, hbefore, hsplit⟩ := b.events_split
  have hevents :
      Bud.stack (⟨inner, .branch b :: ts⟩ :: below) =
        Bud.stack (⟨inner, ts⟩ :: below) ++ before ++ Event.start kind none :: after := by
    simp [Bud.stack, Bud.events_add, Twig.event, hsplit]
  have hposition :
      (Bud.stack (⟨inner, ts⟩ :: below)).length + b.last =
        (Bud.stack (⟨inner, ts⟩ :: below) ++ before).length := by
    rw [List.length_append, hbefore]
  have hdistance :
      (Bud.stack (⟨inner, .branch b :: ts⟩ :: below)).length -
          (Bud.stack (⟨inner, ts⟩ :: below) ++ before).length =
        b.reach := by
    have hsize := b.last_add_reach
    have hlength := b.length_events none
    rw [hsplit] at hlength
    rw [hevents]
    simp only [List.length_append, List.length_cons] at hlength ⊢
    omega
  have hrestart :=
    Recording.restart_eq (Bud.stack (⟨inner, ts⟩ :: below) ++ before) after kind none
      (Bud.positions (⟨inner, .branch b :: ts⟩ :: below))
      (some (Bud.stack (⟨inner, ts⟩ :: below) ++ before).length)
      fun kind _ => .start kind (some b.reach)
  have hopened :
      Bud.stack (⟨some b, []⟩ :: ⟨inner, ts⟩ :: below) =
        Bud.stack (⟨inner, ts⟩ :: below) ++ before ++ Event.start kind (some b.reach) :: after ++
          [.erased] := by
    rw [Bud.stack, Bud.events]
    simp [Bud.taken, Twig.events, hsplit]
  have hpositions :
      Bud.positions (⟨some b, []⟩ :: ⟨inner, ts⟩ :: below) =
        (Bud.stack (⟨inner, ts⟩ :: below) ++ before ++
            Event.start kind (some b.reach) :: after).length ::
          Bud.positions (⟨inner, .branch b :: ts⟩ :: below) := by
    rw [Bud.positions]
    simp [Bud.taken, hsplit, Bud.positions]
  rw [step, hposition]
  dsimp only [Option.bind_eq_bind, Option.bind_some]
  rw [List.size_toArray, hdistance, hevents, hrestart, hopened, hpositions]
  simp [openNode]

/-- One step of the growth of a tree is recorded as such. -/
theorem exists_step_mirrors
    {r : Recording K}
    {g g' : Growth α K}
    {s : Step K}
    (hr : Mirrors r g.stage)
    (hs : Growth.Steps g s g') :
    ∃ r', r.step s = some r' ∧ Mirrors r' g'.stage := by
  cases hs with
  | sow ahead =>
      cases hr with
      | fresh completed =>
          refine ⟨_, rfl, ?_⟩
          exact Mirrors.growing ⟨none, []⟩ [] completed (by simp)
  | start ahead top below =>
      cases hr with
      | growing top below completed hcompleted =>
          refine ⟨_, rfl, ?_⟩
          have hm := Mirrors.growing (⟨none, []⟩ : Bud α K) (top :: below) completed (by simp)
          simpa [Recording.openNode, Bud.stack, Bud.positions, Bud.events, Bud.taken, Bud.bed,
            Twig.events, Bed.empty] using hm
  | advance a ahead top below =>
      cases hr with
      | growing top below completed hcompleted =>
          refine ⟨_, rfl, ?_⟩
          obtain ⟨inner, twigs⟩ := top
          have hm := Mirrors.growing (⟨inner, .leaf a :: twigs⟩ : Bud α K) below completed (by simp)
          simpa [Bud.stack, Bud.positions, Bud.events_add, Bud.taken, Bud.bed, Bed.add,
            Twig.event, Twig.shape] using hm
  | complete ahead top bed below kind hkind =>
      obtain ⟨bud, buds, completed, rfl, rfl, hbuds, -⟩ := hr.exists_buds
      obtain ⟨outer, buds, rfl, rfl, rfl⟩ := List.map_eq_cons_iff.mp hbuds
      refine ⟨_, Recording.step_complete bud (outer :: buds) completed kind, ?_⟩
      obtain ⟨inner, twigs⟩ := outer
      have hm :=
        Mirrors.growing ⟨inner, .branch (bud.close kind) :: twigs⟩ buds
          (some ((Bud.stack (⟨inner, twigs⟩ :: buds)).length + (bud.close kind).last))
          (by rintro b ts ⟨⟩; rfl)
      simpa [Bud.stack, Bud.positions, Bud.events_add, Bud.taken, Bud.bed, Bed.add,
        Twig.event, Twig.shape, Bud.shape_close] using hm
  | completeLast ahead top kind hkind =>
      obtain ⟨bud, buds, completed, rfl, rfl, hbuds, -⟩ := hr.exists_buds
      obtain rfl := List.map_eq_nil_iff.mp hbuds
      refine ⟨_, Recording.step_complete bud [] completed kind, ?_⟩
      have hm :=
        Mirrors.grown (bud.close kind) (some ((bud.close kind).last))
      simpa [Bud.stack, Bud.positions, Bud.shape_close] using hm
  | precede ahead first kind children others below =>
      obtain ⟨bud, buds, completed, rfl, hbed, rfl, hcompleted⟩ := hr.exists_buds
      obtain ⟨inner, twigs⟩ := bud
      obtain ⟨hfirst, hchildren⟩ :
          inner.map Branch.shape = first ∧
            twigs.map Twig.shape = .node kind children :: others := by
        simpa [Bud.bed] using hbed
      obtain ⟨t, ts, rfl, ht, rfl⟩ := List.map_eq_cons_iff.mp hchildren
      cases t with
      | leaf a => simp [Twig.shape] at ht
      | branch b =>
          obtain rfl := hcompleted b ts rfl
          refine ⟨_, Recording.step_precede inner b ts buds, ?_⟩
          have hm :=
            Mirrors.growing ⟨some b, []⟩ (⟨inner, ts⟩ :: buds)
              (some ((Bud.stack (⟨inner, ts⟩ :: buds)).length + b.last)) (by simp)
          rw [Twig.shape] at ht
          simpa [Bud.bed, ht, hfirst] using hm
  | report g fault =>
      exact ⟨r, rfl, hr⟩

variable [DecidableEq K]

/-- The growth made by a trace is recorded as such. -/
theorem exists_record_mirrors
    {r : Recording K}
    {g g' : Growth α K}
    {trace : Trace K}
    (hr : Mirrors r g.stage)
    (h : g.run trace = some g') :
    ∃ r', trace.foldlM Recording.step r = some r' ∧ Mirrors r' g'.stage := by
  induction trace generalizing r g with
  | nil =>
      obtain rfl := Option.some.inj h
      exact ⟨r, rfl, hr⟩
  | cons s trace ih =>
      rw [Growth.run_cons] at h
      obtain ⟨g₁, hs, h⟩ := Option.bind_eq_some_iff.mp h
      obtain ⟨r₁, hr₁, hm₁⟩ := exists_step_mirrors hr (Growth.step_eq_some_iff.mp hs)
      obtain ⟨r', hr', hm'⟩ := ih hm₁ h
      refine ⟨r', ?_, hm'⟩
      rw [List.foldlM_cons, hr₁]
      exact hr'

/-- A trace that grows a shape is recorded, and its events are replayed as the
commands of that shape. -/
theorem replay_record_of_grow?
    {leaves : List α}
    {trace : Trace K}
    {shape : Shape α K}
    (h : Shape.grow? leaves trace = some shape) :
    ∃ events, record? trace = some events ∧ replay? events = some shape.commands := by
  have hlacks := Shape.lacks_of_grow? h
  have hrun := Shape.grow?_eq_some_iff.mp h
  obtain ⟨r', hr', hm'⟩ := exists_record_mirrors (Mirrors.fresh none) hrun
  cases hm' with
  | grown b completed =>
      refine ⟨(b.events none).toArray, ?_, b.replay?_events hlacks⟩
      rw [record?]
      have hempty : (Recording.empty : Recording K) = ⟨#[], [], none⟩ := rfl
      rw [hempty, hr']
      rfl

end Recording
end ZigCst
