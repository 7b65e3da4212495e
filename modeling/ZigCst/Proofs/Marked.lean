import ZigCst.Proofs.Exact
import ZigCst.Proofs.Lossless

/-!
# Trees in which faults have a place

A trace says at which point of the growing tree a fault is reported.  A draft is a
growing tree that keeps it there, as a leaf among the lexemes; it never asks whether
a step can be taken that growth has already taken.  A node that gets a parent late
takes along the faults that were reported after it, so the order of the leaves is the
order of the trace.

What is said of a parser on drafts is said on the condition that its trace can be
drafted at all.  Soundness shows once and for all that it can.

**Definitions.**
* `Draft.step`, `Draft.run`: the draft made by a step and by a trace.
* `Draft.Follows`: without its faults, a draft is a growing tree.
* `Parser.Draws p s Q`: where the trace of `p` can be drafted from the desk `s`, it
  ends at a desk for which, together with the value that `p` gives, `Q` holds.

**Results.**
* `Draft.Follows.exists_run`: growth can be drafted.
* `Draft.faults_run`: the faults of a trace are kept in order.
* `draws_nodeOf`, `Draws.iterate` and their like: the rules follow the combinators.
* `exists_marked`: the tree of a grammar with its faults in place.
-/

namespace ZigCst

/-! ## Leaving out leaves -/

namespace Shape

variable {α β K : Type}

mutual

/-- Exchanges the leaves and leaves out some of them. -/
def filterMap (f : α → Option β) : Shape α K → Option (Shape β K)
  | .leaf a => (f a).map .leaf
  | .node kind children => some (.node kind (filterMapAll f children))

/-- Exchanges the leaves of neighbouring shapes and leaves out some of them. -/
def filterMapAll (f : α → Option β) : List (Shape α K) → List (Shape β K)
  | [] => []
  | s :: ss => (s.filterMap f).toList ++ filterMapAll f ss

end

theorem filterMapAll_eq
    (f : α → Option β)
    (ss : List (Shape α K)) :
    filterMapAll f ss = ss.filterMap (filterMap f) := by
  induction ss with
  | nil => rfl
  | cons s ss ih =>
      rw [filterMapAll, ih, List.filterMap_cons]
      cases s.filterMap f <;> rfl

@[simp]
theorem filterMap_leaf
    (f : α → Option β)
    (a : α) :
    (leaf a : Shape α K).filterMap f = (f a).map .leaf := rfl

@[simp]
theorem filterMap_node
    (f : α → Option β)
    (kind : K)
    (children : List (Shape α K)) :
    (node kind children).filterMap f = some (.node kind (children.filterMap (filterMap f))) := by
  rw [filterMap, filterMapAll_eq]

end Shape

/-! ## Drafts -/

/-- A leaf of a tree in which faults have a place. -/
inductive Mark (K : Type) where
  | lexeme (kind : K)
  | fault (fault : Fault K)

/-- A tree in which faults have a place. -/
abbrev Marked (K : Type) := Shape (Mark K) K

section Marks

variable {K : Type}

def Mark.kind? : Mark K → Option K
  | .lexeme kind => some kind
  | .fault _ => none

def Mark.fault? : Mark K → Option (Fault K)
  | .lexeme _ => none
  | .fault cause => some cause

namespace Marked

def isFault : Marked K → Bool
  | .leaf (.fault _) => true
  | _ => false

/-- The tree without its faults. -/
def plain? (m : Marked K) : Option (Shape K K) := m.filterMap Mark.kind?

/-- The faults in order. -/
def faults (m : Marked K) : List (Fault K) := m.leaves.filterMap Mark.fault?

@[simp]
theorem plain?_lexeme (kind : K) : plain? (.leaf (.lexeme kind)) = some (.leaf kind) := rfl

@[simp]
theorem plain?_fault (fault : Fault K) : plain? (.leaf (.fault fault)) = none := rfl

@[simp]
theorem plain?_node
    (kind : K)
    (children : List (Marked K)) :
    plain? (.node kind children) = some (.node kind (children.filterMap plain?)) :=
  Shape.filterMap_node Mark.kind? kind children

@[simp]
theorem faults_lexeme (kind : K) : faults (.leaf (.lexeme kind)) = [] := rfl

@[simp]
theorem faults_fault (fault : Fault K) : faults (.leaf (.fault fault)) = [fault] := rfl

@[simp]
theorem faults_node
    (kind : K)
    (children : List (Marked K)) :
    faults (.node kind children) = children.flatMap faults := by
  simp only [faults, Shape.leaves_node, List.filterMap_flatMap]
  rfl

theorem exists_of_isFault
    {m : Marked K}
    (h : m.isFault = true) :
    ∃ cause, m = .leaf (.fault cause) := by
  cases m with
  | leaf mark =>
      cases mark with
      | lexeme kind => cases h
      | fault cause => exact ⟨cause, rfl⟩
  | node kind children => cases h

theorem plain?_of_isFault
    {m : Marked K}
    (h : m.isFault = true) :
    m.plain? = none := by
  obtain ⟨cause, rfl⟩ := exists_of_isFault h
  rfl

/-- What is left of a node is a node. -/
theorem eq_node_of_plain?
    {m : Marked K}
    {kind : K}
    {children : List (Shape K K)}
    (h : m.plain? = some (.node kind children)) :
    ∃ ms, m = .node kind ms ∧ ms.filterMap plain? = children := by
  cases m with
  | leaf mark => cases mark <;> simp at h
  | node kind' ms =>
      simp only [plain?_node, Option.some.injEq, Shape.node.injEq] at h
      exact ⟨ms, by rw [h.1], h.2⟩

/-- The last node is found in front of the faults that came after it. -/
theorem exists_dropWhile_isFault
    {ms : List (Marked K)}
    {kind : K}
    {children : List (Shape K K)}
    {others : List (Shape K K)}
    (h : ms.filterMap plain? = .node kind children :: others) :
    ∃ grandchildren rest,
      ms.dropWhile isFault = .node kind grandchildren :: rest ∧
        grandchildren.filterMap plain? = children ∧ rest.filterMap plain? = others := by
  induction ms with
  | nil => simp at h
  | cons m ms ih =>
      cases hfault : m.isFault with
      | true =>
          rw [List.filterMap_cons, plain?_of_isFault hfault] at h
          rw [List.dropWhile_cons_of_pos hfault]
          exact ih h
      | false =>
          rw [List.dropWhile_cons_of_neg (by simp [hfault])]
          cases hplain : m.plain? with
          | none =>
              cases m with
              | leaf mark => cases mark <;> simp_all [isFault]
              | node kind' ms => simp at hplain
          | some s =>
              rw [List.filterMap_cons_some hplain] at h
              obtain ⟨rfl, rfl⟩ := List.cons.inj h
              obtain ⟨grandchildren, rfl, hchildren⟩ := eq_node_of_plain? hplain
              exact ⟨grandchildren, ms, rfl, hchildren, rfl⟩

end Marked

/-- A growing tree in which faults have a place. -/
structure Draft (K : Type) where
  ahead : List K
  /-- Children of the innermost open node, the last first. -/
  top : List (Marked K)
  /-- Children of the open nodes around it, from the inside out. -/
  below : List (List (Marked K))

namespace Draft

/-- The draft made by one step. -/
def step (d : Draft K) : Step K → Option (Draft K)
  | .start => some ⟨d.ahead, [], d.top :: d.below⟩
  | .advance =>
      match d.ahead with
      | [] => none
      | kind :: ahead => some ⟨ahead, .leaf (.lexeme kind) :: d.top, d.below⟩
  | .complete kind =>
      match d.below with
      | [] => none
      | children :: below => some ⟨d.ahead, .node kind d.top.reverse :: children, below⟩
  | .precede =>
      match d.top.dropWhile Marked.isFault with
      | .node kind children :: others =>
          some ⟨d.ahead, d.top.takeWhile Marked.isFault ++ [.node kind children],
            others :: d.below⟩
      | _ => none
  | .report fault => some { d with top := .leaf (.fault fault) :: d.top }
  | .stuck => none

/-- The draft made by a trace. -/
def run (d : Draft K) (trace : Trace K) : Option (Draft K) := trace.foldlM step d

@[simp]
theorem run_nil (d : Draft K) : d.run [] = some d := rfl

theorem run_cons
    (d : Draft K)
    (s : Step K)
    (trace : Trace K) :
    d.run (s :: trace) = (d.step s).bind fun d => d.run trace := by
  simp [run, List.foldlM_cons]

theorem run_append
    (d : Draft K)
    (trace rest : Trace K) :
    d.run (trace ++ rest) = (d.run trace).bind fun d => d.run rest := by
  simp [run, List.foldlM_append]

theorem run_append_eq_some
    {d d' : Draft K}
    {trace rest : Trace K} :
    d.run (trace ++ rest) = some d' ↔ ∃ e, d.run trace = some e ∧ e.run rest = some d' := by
  rw [run_append, Option.bind_eq_some_iff]

/-! ### Drafts of growing trees -/

/-- The children of all open nodes and the trees outside of them, from the inside
out. -/
def levels (d : Draft K) : List (List (Marked K)) := d.top :: d.below

/-- The faults reported so far, in order. -/
def faults (d : Draft K) : List (Fault K) :=
  d.levels.reverse.flatMap fun ms => ms.reverse.flatMap Marked.faults

end Draft
end Marks

section Follows

variable {K : Type} [DecidableEq K] [Vocabulary K]

/-- The children of all open nodes and the trees outside of them, from the inside
out. -/
def Stage.levels : Stage K K → List (List (Shape K K))
  | .fresh => [[]]
  | .growing top below => top.shapes :: (below.map Bed.shapes ++ [[]])
  | .grown shape => [[shape]]

/-- Whether a draft without its faults is a growing tree. -/
structure Draft.Follows (d : Draft K) (g : Growth K K) : Prop where
  ahead : d.ahead = g.ahead
  levels : (d.levels.map fun ms => ms.reverse.filterMap Marked.plain?) = g.stage.levels

omit [DecidableEq K] [Vocabulary K] in
/-- The node that came last gets a parent, with the faults that were reported after it. -/
theorem Draft.exists_step_precede
    {ahead : List K}
    {top : List (Marked K)}
    {below : List (List (Marked K))}
    {kind : K}
    {first : Option (Shape K K)}
    {children others : List (Shape K K)}
    (h : top.reverse.filterMap Marked.plain? =
      first.toList ++ (Shape.node kind children :: others).reverse) :
    ∃ opened rest,
      Draft.step ⟨ahead, top, below⟩ .precede = some ⟨ahead, opened, rest :: below⟩ ∧
        opened.reverse.filterMap Marked.plain? = [.node kind children] ∧
        rest.reverse.filterMap Marked.plain? = first.toList ++ others.reverse := by
  have htop : top.filterMap Marked.plain? =
      .node kind children :: (others ++ first.toList.reverse) := by
    have hreverse := congrArg List.reverse h
    simpa [List.filterMap_reverse] using hreverse
  obtain ⟨grandchildren, rest, hdrop, hgrandchildren, hrest⟩ :=
    Marked.exists_dropWhile_isFault htop
  have hfaults : (top.takeWhile Marked.isFault).reverse.filterMap Marked.plain? = [] := by
    rw [List.filterMap_eq_nil_iff]
    intro m hm
    have hm' := List.mem_takeWhile_imp (List.mem_reverse.mp hm)
    exact Marked.plain?_of_isFault hm'
  refine ⟨top.takeWhile Marked.isFault ++ [.node kind grandchildren], rest, ?_, ?_, ?_⟩
  · simp [Draft.step, hdrop]
  · simp [hfaults, hgrandchildren]
  · rw [List.filterMap_reverse, hrest]
    simp

omit [DecidableEq K] in
/-- A step of growth can be drafted. -/
theorem Draft.Follows.exists_step
    {d : Draft K}
    {g g' : Growth K K}
    {s : Step K}
    (h : d.Follows g)
    (hstep : Growth.Steps g s g') :
    ∃ d', d.step s = some d' ∧ d'.Follows g' := by
  obtain ⟨ahead, top, below⟩ := d
  obtain ⟨hahead, hlevels⟩ := h
  cases hstep with
  | sow ahead' =>
      refine ⟨_, rfl, hahead, ?_⟩
      simpa [Draft.levels, Stage.levels, Bed.shapes, Bed.empty] using hlevels
  | start ahead' top' below' =>
      refine ⟨_, rfl, hahead, ?_⟩
      simpa [Draft.levels, Stage.levels, Bed.shapes, Bed.empty] using hlevels
  | advance a ahead' top' below' =>
      subst hahead
      refine ⟨_, rfl, rfl, ?_⟩
      simp only [Draft.levels, Stage.levels, List.map_cons, List.cons.injEq] at hlevels ⊢
      refine ⟨?_, hlevels.2⟩
      rw [Bed.shapes_add, ← hlevels.1, List.reverse_cons, List.filterMap_append]
      rfl
  | complete ahead' top' bed below' kind hkind =>
      simp only [Draft.levels, Stage.levels, List.map_cons, List.cons_append,
        List.cons.injEq] at hlevels
      cases below with
      | nil => simp at hlevels
      | cons children below =>
          refine ⟨_, rfl, hahead, ?_⟩
          simp only [List.map_cons, List.cons.injEq] at hlevels
          simp only [Draft.levels, Stage.levels, List.map_cons, List.cons.injEq]
          refine ⟨?_, hlevels.2.2⟩
          rw [Bed.shapes_add, ← hlevels.2.1, Bed.close, ← hlevels.1, List.reverse_cons,
            List.filterMap_append]
          simp
  | completeLast ahead' top' kind hkind =>
      simp only [Draft.levels, Stage.levels, List.map_cons, List.map_nil, List.nil_append,
        List.cons.injEq] at hlevels
      cases below with
      | nil => simp at hlevels
      | cons children below =>
          refine ⟨_, rfl, hahead, ?_⟩
          simp only [List.map_cons, List.cons.injEq] at hlevels
          simp only [Draft.levels, Stage.levels, List.map_cons, List.cons.injEq]
          refine ⟨?_, hlevels.2.2⟩
          rw [List.reverse_cons, List.filterMap_append, hlevels.2.1, Bed.close, ← hlevels.1]
          simp
  | precede ahead' first kind children others below' =>
      simp only [Draft.levels, Stage.levels, List.map_cons, List.cons.injEq, Bed.shapes] at hlevels
      obtain ⟨opened, rest, hstep, hopened, hrest⟩ := Draft.exists_step_precede hlevels.1
      refine ⟨_, hstep, hahead, ?_⟩
      simp only [Draft.levels, Stage.levels, List.map_cons, List.cons_append, List.cons.injEq,
        Bed.shapes]
      exact ⟨hopened, hrest, hlevels.2⟩
  | report g fault =>
      refine ⟨_, rfl, hahead, ?_⟩
      simpa [Draft.levels, List.filterMap_cons] using hlevels

/-- Growth can be drafted. -/
theorem Draft.Follows.exists_run
    {d : Draft K}
    {g g' : Growth K K}
    {trace : Trace K}
    (h : d.Follows g)
    (hrun : g.run trace = some g') :
    ∃ d', d.run trace = some d' ∧ d'.Follows g' := by
  induction trace generalizing d g with
  | nil => exact ⟨d, rfl, by simpa using Option.some.inj hrun ▸ h⟩
  | cons s trace ih =>
      rw [Growth.run_cons, Option.bind_eq_some_iff] at hrun
      obtain ⟨g₁, hstep, hrun⟩ := hrun
      obtain ⟨d₁, hd₁, hfollows⟩ := h.exists_step (Growth.step_eq_some_iff.mp hstep)
      obtain ⟨d', hd', hfollows'⟩ := ih hfollows hrun
      exact ⟨d', by rw [run_cons, hd₁]; exact hd', hfollows'⟩

end Follows

/-! ## Faults -/

section Faults

variable {K : Type}

def Step.fault? : Step K → Option (Fault K)
  | .report fault => some fault
  | _ => none

/-- The faults of a trace in order. -/
def Trace.faults (trace : Trace K) : List (Fault K) := trace.filterMap Step.fault?

/-- A step adds its fault. -/
theorem Draft.faults_step
    {d d' : Draft K}
    {s : Step K}
    (h : d.step s = some d') :
    d'.faults = d.faults ++ s.fault?.toList := by
  obtain ⟨ahead, top, below⟩ := d
  cases s with
  | start =>
      obtain rfl := Option.some.inj h
      simp [faults, levels, Step.fault?]
  | advance =>
      cases ahead with
      | nil => simp [step] at h
      | cons kind ahead =>
          obtain rfl := Option.some.inj h
          simp [faults, levels, Step.fault?]
  | complete kind =>
      cases below with
      | nil => simp [step] at h
      | cons children below =>
          obtain rfl := Option.some.inj h
          simp [faults, levels, Step.fault?]
  | precede =>
      simp only [step] at h
      split at h
      · rename_i kind children others hdrop
        obtain rfl := Option.some.inj h
        have htop : top = top.takeWhile Marked.isFault ++ .node kind children :: others := by
          rw [← hdrop, List.takeWhile_append_dropWhile]
        have hfaults := congrArg (fun ms => ms.reverse.flatMap Marked.faults) htop
        simpa [faults, levels, Step.fault?] using hfaults.symm
      · simp at h
  | report fault =>
      obtain rfl := Option.some.inj h
      simp [faults, levels, Step.fault?]
  | stuck => simp [step] at h

/-- The faults of a trace are kept in order. -/
theorem Draft.faults_run
    {d d' : Draft K}
    {trace : Trace K}
    (h : d.run trace = some d') :
    d'.faults = d.faults ++ Trace.faults trace := by
  induction trace generalizing d with
  | nil =>
      obtain rfl := Option.some.inj h
      simp [Trace.faults]
  | cons s trace ih =>
      rw [run_cons, Option.bind_eq_some_iff] at h
      obtain ⟨e, hstep, hrun⟩ := h
      rw [ih hrun, faults_step hstep, List.append_assoc, Trace.faults, Trace.faults,
        List.filterMap_cons]
      cases s.fault? <;> rfl

/-- Every fault that is reported before the tokens run out is an error with its
message. -/
theorem Trace.map_message_errors
    [DecidableEq K]
    [Vocabulary K]
    (tokens : List (Token K))
    (trace : Trace K)
    (h : Trace.advances trace < tokens.length) :
    (Trace.errors tokens trace).map Diagnostic.message =
      (Trace.faults trace).map Fault.message := by
  fun_induction Trace.errors tokens trace with
  | case1 => rfl
  | case2 tokens trace ih =>
      have hcons : Trace.advances (.advance :: trace) = 1 + Trace.advances trace :=
        Trace.advances_append [.advance] trace
      rw [ih (by rw [List.length_tail]; omega)]
      rfl
  | case3 tokens fault trace ih =>
      cases tokens with
      | nil => simp at h
      | cons t tokens =>
          rw [List.map_append, ih h]
          rfl
  | case4 tokens step trace hadvance hreport ih =>
      rw [Trace.advances_cons_of_ne hadvance] at h
      rw [ih h, Trace.faults, Trace.faults, List.filterMap_cons]
      cases step <;> simp_all [Step.fault?]

end Faults

/-! ## Rules for parsers -/

section Desks

variable {K : Type}

/-- Where a run stands, as far as drafts are concerned. -/
structure Desk (K : Type) where
  cursor : Cursor K
  /-- Children that the innermost node got since it was started, the last first. -/
  children : List (Marked K)

/-- The draft at a desk, between what stands behind the lexemes of its cursor and the
nodes around the innermost one. -/
def Desk.draft (s : Desk K) (behind : List K) (below : List (List (Marked K))) : Draft K :=
  ⟨s.cursor.kinds ++ behind, s.children, below⟩

theorem Cursor.kinds_of_rest
    {c : Cursor K}
    {l : Lexeme K}
    {rest : List (Lexeme K)}
    (h : c.rest = l :: rest) :
    c.kinds = l.kind :: c.next.kinds := by
  obtain ⟨prev, _ | ⟨l', rest'⟩, left, hleft⟩ := c
  · simp at h
  · obtain ⟨rfl, rfl⟩ := List.cons.inj h
    rfl

variable [Vocabulary K]

/-- The kind of the lexeme `n` places ahead. -/
def Cursor.nth (c : Cursor K) (n : Nat) : K := c.kinds[n]?.getD Vocabulary.eof

/-- The kind of the next lexeme. -/
def Cursor.peek (c : Cursor K) : K := c.nth 0

/-- A lexeme that is not the end of file can be taken. -/
theorem Cursor.kinds_of_peek
    {c : Cursor K}
    {kind : K}
    (hpeek : c.peek = kind)
    (hkind : kind ≠ Vocabulary.eof) :
    c.kinds = kind :: c.next.kinds := by
  cases hrest : c.rest with
  | nil =>
      refine absurd ?_ hkind
      rw [← hpeek, peek, nth, kinds, hrest]
      rfl
  | cons l rest =>
      have hkinds := kinds_of_rest hrest
      have hl : l.kind = kind := by rw [← hpeek, peek, nth, hkinds]; rfl
      rw [hkinds, hl]

/-- Behind a lexeme that is taken, the others are one place nearer. -/
theorem Cursor.nth_next
    {c : Cursor K}
    {kind : K}
    (hpeek : c.peek = kind)
    (hkind : kind ≠ Vocabulary.eof)
    (n : Nat) :
    c.next.nth n = c.nth (n + 1) := by
  rw [nth, nth, kinds_of_peek hpeek hkind, List.getElem?_cons_succ]

end Desks

namespace Parser

variable {K α β σ : Type}

/-- Where the trace of `p` can be drafted from the desk `s`, it ends at a desk for
which `Q` holds. -/
def Draws (p : Parser K α) (s : Desk K) (Q : α → Desk K → Prop) : Prop :=
  ∀ behind below d, (s.draft behind below).run (p s.cursor).trace = some d →
    ∃ t : Desk K,
      t.cursor = (p s.cursor).cursor ∧ t.draft behind below = d ∧ Q (p s.cursor).value t

section Rules

variable {p : Parser K α} {f : α → Parser K β} {s : Desk K}

theorem Draws.mono
    {P Q : α → Desk K → Prop}
    (h : p.Draws s P)
    (himp : ∀ a t, P a t → Q a t) :
    p.Draws s Q := by
  intro behind below d hd
  obtain ⟨t, hcursor, hdraft, ht⟩ := h behind below d hd
  exact ⟨t, hcursor, hdraft, himp _ t ht⟩

/-- The value and the cursor are those of the run. -/
theorem Draws.outcome
    {Q : α → Desk K → Prop}
    (h : p.Draws s Q) :
    p.Draws s fun a t =>
      a = (p s.cursor).value ∧ t.cursor = (p s.cursor).cursor ∧ Q a t := by
  intro behind below d hd
  obtain ⟨t, hcursor, hdraft, ht⟩ := h behind below d hd
  exact ⟨t, hcursor, hdraft, rfl, hcursor, ht⟩

theorem draws_pure
    {a : α}
    {Q : α → Desk K → Prop}
    (h : Q a s) :
    (pure a : Parser K α).Draws s Q := by
  intro behind below d hd
  exact ⟨s, rfl, Option.some.inj hd, h⟩

theorem Draws.bind
    {P : α → Desk K → Prop}
    {Q : β → Desk K → Prop}
    (hp : p.Draws s P)
    (hf : ∀ a t, P a t → (f a).Draws t Q) :
    (p >>= f).Draws s Q := by
  intro behind below d hd
  obtain ⟨e, he, hd⟩ := Draft.run_append_eq_some.mp hd
  obtain ⟨t, hcursor, rfl, ht⟩ := hp behind below e he
  rw [← hcursor] at hd
  obtain ⟨u, hcursor', hdraft, hu⟩ := hf _ t ht behind below d hd
  rw [hcursor] at hcursor' hu
  exact ⟨u, hcursor', hdraft, hu⟩

theorem draws_discard
    {Q : Unit → Desk K → Prop}
    (h : p.Draws s fun _ t => Q () t) :
    (discard p : Parser K Unit).Draws s Q :=
  h.bind fun _ _ ht => draws_pure ht

theorem draws_report
    {fault : Fault K}
    {Q : Unit → Desk K → Prop}
    (h : Q () ⟨s.cursor, .leaf (.fault fault) :: s.children⟩) :
    (report fault : Parser K Unit).Draws s Q := by
  intro behind below d hd
  exact ⟨⟨s.cursor, .leaf (.fault fault) :: s.children⟩, rfl, Option.some.inj hd, h⟩

/-- The next lexeme is taken if there is one. -/
theorem draws_advance
    {Q : Unit → Desk K → Prop}
    (hend : s.cursor.kinds = [] → Q () s)
    (h : ∀ kind, s.cursor.kinds = kind :: s.cursor.next.kinds →
      Q () ⟨s.cursor.next, .leaf (.lexeme kind) :: s.children⟩) :
    (advance : Parser K Unit).Draws s Q := by
  intro behind below d hd
  rw [advance_eq] at hd ⊢
  cases hrest : s.cursor.rest with
  | nil =>
      simp only [hrest] at hd ⊢
      exact ⟨s, rfl, Option.some.inj hd, hend (by rw [Cursor.kinds, hrest]; rfl)⟩
  | cons l rest =>
      simp only [hrest] at hd ⊢
      have hkinds := Cursor.kinds_of_rest hrest
      refine ⟨⟨s.cursor.next, .leaf (.lexeme l.kind) :: s.children⟩, rfl, ?_, h l.kind hkinds⟩
      rw [Desk.draft, hkinds] at hd
      exact Option.some.inj hd

/-- A lexeme that was seen is taken. -/
theorem draws_advance_peek
    [Vocabulary K]
    {kind : K}
    {Q : Unit → Desk K → Prop}
    (hpeek : s.cursor.peek = kind)
    (hkind : kind ≠ Vocabulary.eof)
    (h : Q () ⟨s.cursor.next, .leaf (.lexeme kind) :: s.children⟩) :
    (advance : Parser K Unit).Draws s Q := by
  have hkinds := Cursor.kinds_of_peek hpeek hkind
  refine draws_advance (fun hend => by simp [hend] at hkinds) fun kind' hkind' => ?_
  rw [hkinds] at hkind'
  rwa [← (List.cons.inj hkind').1]

/-- A run that goes on knows that the condition holds. -/
theorem draws_ensure
    {holds : Bool}
    {Q : Unit → Desk K → Prop}
    (h : holds = true → Q () s) :
    (ensure holds : Parser K Unit).Draws s Q := by
  cases holds with
  | true => exact draws_pure (h rfl)
  | false =>
      intro behind below d hd
      exact absurd hd (by simp [ensure, Draft.run_cons, Draft.step])

theorem draws_nodeOf
    {body : Parser K K}
    {Q : K → Desk K → Prop}
    (h : body.Draws ⟨s.cursor, []⟩ fun kind t =>
      Q kind ⟨t.cursor, .node kind t.children.reverse :: s.children⟩) :
    (nodeOf body).Draws s Q := by
  intro behind below d hd
  obtain ⟨e, he, hd⟩ := Draft.run_append_eq_some.mp hd
  obtain rfl := Option.some.inj he
  obtain ⟨e, he, hd⟩ := Draft.run_append_eq_some.mp hd
  obtain ⟨t, hcursor, rfl, ht⟩ := h behind (s.children :: below) e he
  exact ⟨⟨t.cursor, .node _ t.children.reverse :: s.children⟩, hcursor, Option.some.inj hd, ht⟩

/-- A node that stands last is wrapped with the faults that came after it. -/
theorem draws_wrapOf
    {body : Parser K K}
    {kind : K}
    {grandchildren faults others : List (Marked K)}
    {Q : K → Desk K → Prop}
    (hchildren : s.children = faults ++ .node kind grandchildren :: others)
    (hfaults : ∀ m ∈ faults, m.isFault = true)
    (h : body.Draws ⟨s.cursor, faults ++ [Shape.node kind grandchildren]⟩ fun kind t =>
      Q kind ⟨t.cursor, .node kind t.children.reverse :: others⟩) :
    (wrapOf body).Draws s Q := by
  have hnode : Marked.isFault (.node kind grandchildren) = false := rfl
  intro behind below d hd
  obtain ⟨e, he, hd⟩ := Draft.run_append_eq_some.mp hd
  have hstep : (s.draft behind below).step .precede =
      some ⟨s.cursor.kinds ++ behind, faults ++ [Shape.node kind grandchildren],
        others :: below⟩ := by
    have hdrop : s.children.dropWhile Marked.isFault = .node kind grandchildren :: others := by
      rw [hchildren, List.dropWhile_append_of_pos hfaults,
        List.dropWhile_cons_of_neg (by simp [hnode])]
    have htake : s.children.takeWhile Marked.isFault = faults := by
      rw [hchildren, List.takeWhile_append_of_pos hfaults,
        List.takeWhile_cons_of_neg (by simp [hnode]), List.append_nil]
    simp [Desk.draft, Draft.step, hdrop, htake]
  obtain rfl : _ = e := Option.some.inj (by simpa [emit, Draft.run_cons, hstep] using he)
  obtain ⟨e, he, hd⟩ := Draft.run_append_eq_some.mp hd
  obtain ⟨t, hcursor, rfl, ht⟩ := h behind (others :: below) e he
  exact ⟨⟨t.cursor, .node _ t.children.reverse :: others⟩, hcursor, Option.some.inj hd, ht⟩

theorem draws_moves
    {p : Parser K Unit}
    {Q : Bool → Desk K → Prop}
    (h : p.Draws s fun _ t => Q (decide (t.cursor.left < s.cursor.left)) t) :
    (moves p).Draws s Q := by
  intro behind below d hd
  obtain ⟨t, hcursor, hdraft, ht⟩ := h behind below d hd
  rw [hcursor] at ht
  exact ⟨t, hcursor, hdraft, ht⟩

/-- The rule for loops.  The invariant holds before every turn, and the last turn ends
the loop; a loop that would turn for ever cannot be drafted. -/
theorem Draws.iterate
    {body : σ → Parser K (Bool × σ)}
    {I : σ → Desk K → Prop}
    {Q : σ → Desk K → Prop}
    (hturn : ∀ v s, I v s → (body v).Draws s fun r t =>
      (r.1 = true → I r.2 t) ∧ (r.1 = false → Q r.2 t))
    {v : σ}
    {s : Desk K}
    (h : I v s) :
    (iterate body v).Draws s Q := by
  intro behind below d hd
  have hfirst := hturn v s h behind below
  rw [Parser.iterate_eq] at hd ⊢
  cases hvalue : (body v s.cursor).value.1 with
  | false =>
      simp only [hvalue, Bool.false_eq_true, if_false] at hd ⊢
      obtain ⟨t, hcursor, hdraft, ht⟩ := hfirst d hd
      exact ⟨t, hcursor, hdraft, ht.2 hvalue⟩
  | true =>
      simp only [hvalue, if_true] at hd ⊢
      split at hd
      · rename_i hless
        rw [if_pos hless]
        obtain ⟨e, he, hd⟩ := Draft.run_append_eq_some.mp hd
        obtain ⟨t, hcursor, rfl, ht⟩ := hfirst e he
        have hleft : t.cursor.left < s.cursor.left := hcursor ▸ hless
        rw [← hcursor] at hd
        obtain ⟨u, hcursor', hdraft, hu⟩ := Draws.iterate hturn (ht.1 hvalue) behind below d hd
        rw [hcursor] at hcursor' hu
        exact ⟨u, hcursor', hdraft, hu⟩
      · obtain ⟨e, -, hd⟩ := Draft.run_append_eq_some.mp hd
        simp [Draft.run_cons, Draft.step] at hd
termination_by s.cursor.left

/-! A parser that only looks ahead is passed over. -/

theorem draws_bind_of_eq
    {Q : β → Desk K → Prop}
    {a : α}
    (hp : p s.cursor = ⟨a, s.cursor, []⟩) :
    (p >>= f).Draws s Q ↔ (f a).Draws s Q := by
  have hbind : (p >>= f) s.cursor = f a s.cursor := by
    simp [Bind.bind, hp]
  rw [Draws, Draws, hbind]

end Rules
end Parser

/-! ## Whole files -/

section Whole

variable {K : Type} [DecidableEq K] [Vocabulary K]

/-- The errors of a file whose body takes all lexemes are the faults of the body. -/
theorem Site.Leads.map_message_errors
    {body : Parser K Unit}
    {ls : List (Lexeme K)}
    {t : Site K}
    (kind : K)
    (hleads : (Site.ofList ls).Leads (body (.ofList ls)).trace t)
    (hcursor : t.cursor = (body (.ofList ls)).cursor)
    (hkinds : t.kinds = [])
    (hbehind : t.behind = [Vocabulary.eof])
    {tokens : List (Token K)}
    (htokens : tokens.length = ls.length + 1) :
    (Trace.errors tokens (Parser.whole kind body (.ofList ls)).trace).map Diagnostic.message =
      (Trace.faults (body (.ofList ls)).trace).map Fault.message := by
  have hrest : (body (.ofList ls)).cursor.rest = [] := by
    rw [← Site.rest_eq_nil_iff, hcursor] at hkinds
    exact hkinds
  have hahead : t.ahead = [Vocabulary.eof] := by
    rw [Site.ahead, hkinds, hbehind]
    rfl
  have hstart : (Site.ofList ls).ahead.length = ls.length + 1 := by
    simp [Site.ofList, Site.ahead, Site.kinds, Cursor.kinds, Cursor.ofList]
  have hadvances := Growth.length_ahead_run (hleads.run none [])
  simp only [hahead, hstart, List.length_singleton] at hadvances
  have hcons : Trace.advances (.start :: (body (.ofList ls)).trace) =
      Trace.advances (body (.ofList ls)).trace := List.countP_cons_of_neg Bool.false_ne_true
  rw [Parser.trace_whole kind hrest, ← List.cons_append, Trace.errors_append _ _ _ rfl,
    Trace.map_message_errors _ _ (by omega)]
  rfl

/-- What a run does inside of the node of a file can be drafted, with every fault in
its place. -/
theorem Site.Leads.exists_draft
    {body : Parser K Unit}
    {ls : List (Lexeme K)}
    {Q : List (Marked K) → Prop}
    {t : Site K}
    (hleads : (Site.ofList ls).Leads (body (.ofList ls)).trace t)
    (hdraws : body.Draws ⟨.ofList ls, []⟩ fun _ u => Q u.children.reverse) :
    ∃ ms,
      Q ms ∧ ms.filterMap Marked.plain? = t.children.reverse ∧
      ms.flatMap Marked.faults = Trace.faults (body (.ofList ls)).trace := by
  have hfollows : (Desk.draft ⟨.ofList ls, []⟩ [Vocabulary.eof] [[]]).Follows
      ⟨(Site.ofList ls).ahead, .growing ⟨none, []⟩ []⟩ := ⟨rfl, rfl⟩
  obtain ⟨d, hd, hfollows⟩ := hfollows.exists_run (hleads.run none [])
  have hfaults := Draft.faults_run hd
  obtain ⟨u, -, rfl, hu⟩ := hdraws _ _ d hd
  refine ⟨u.children.reverse, hu, ?_, ?_⟩
  · have hlevels := hfollows.levels
    simp only [Desk.draft, Draft.levels, Stage.levels, List.map_cons, List.cons.injEq] at hlevels
    exact hlevels.1
  · simpa [Desk.draft, Draft.faults, Draft.levels] using hfaults

/-- A file whose body takes all lexemes has a tree that keeps its text, and its errors
are the faults of the draft of that tree. -/
theorem exists_marked
    [LawfulVocabulary K]
    {read : (c : Char) → (t : Text) → Reading K t}
    {body : Parser K Unit}
    {kind : K}
    {Q : Cursor K → List (Marked K) → Prop}
    (hkind : kind ≠ Vocabulary.tombstone)
    (hbody : ∀ s : Site K, body.Ends s fun _ t => s.Grows t ∧ t.kinds = [])
    (hdraws : ∀ c, body.Draws ⟨c, []⟩ fun _ t => Q c t.children.reverse)
    (text : Text) :
    ∃ p ms,
      Parse.ofGrammar? (lexWith read) (Parser.whole kind body) text = some p ∧
      p.root.Keeps kind text (lexWith read text) ∧
      Q (.ofList (significant (tokensWith read text))) ms ∧
      p.root.outline = .node kind (ms.filterMap Marked.plain? ++ [Shape.leaf Vocabulary.eof]) ∧
      p.diagnostics.map Diagnostic.message = (ms.flatMap Marked.faults).map Fault.message ∧
      ∀ d ∈ p.diagnostics, d.severity = .error := by
  obtain ⟨s, hcursor, hleads, hgrows, hkinds⟩ :=
    hbody (.ofList (significant (tokensWith read text)))
  obtain ⟨t, rfl, hgrow, -⟩ := Parser.Ends.exists_grow? (Q := (· = s)) hkind
    ⟨s, hcursor, hleads, hkinds, hgrows.behind, rfl⟩
  obtain ⟨ms, hms, hplain, hfaults⟩ := hleads.exists_draft (hdraws _)
  obtain ⟨p, hp, hdiagnostics, hkeeps, houtline⟩ := ofGrammar?_of_grow? hgrow
  refine ⟨p, ms, hp, hkeeps, hms, by rw [houtline, hplain], ?_, ?_⟩
  · rw [hdiagnostics, hfaults]
    exact hleads.map_message_errors kind hcursor hkinds hgrows.behind
      (length_tokensWith read text)
  · intro d hd
    exact Trace.severity_of_mem_errors (hdiagnostics ▸ hd)

end Whole
end ZigCst
