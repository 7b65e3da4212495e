import Mathlib.Data.List.Forall2
import ZigCst.Proofs.Lockstep
import ZigCst.Proofs.Marked

/-!
# Runs that are known step by step

A tree in which faults have a place says how it is written down: it is the trace that
starts and completes its nodes, advances over its lexemes and reports its faults.  Where a
run writes a known tree down, everything is known of it: the tree that grows from its
trace, its errors and where they stand.

**Definitions.**
* `Marked.trace`, `Marked.traces`: the trace that writes a tree down.
* `Parser.Writes`: a run gives a value, writes trees down and leaves the lexemes behind
  them.
* `Mark.faultsFrom`: the faults among leaves, each with the number of lexemes before it.

**Results.**
* `Writes.bind`, `Writes.node`, `writes_advance` and their like: the rules follow the
  combinators.
* `Writes.ends`: what is written down grows.
* `Trace.forall₂_errors`: the errors of a trace that writes trees down.
* `exists_written`: the parse of a file that is written down.
-/

namespace ZigCst

/-! ## Traces that write trees down -/

section Traces

variable {K : Type}

def Mark.step : Mark K → Step K
  | .lexeme _ => .advance
  | .fault cause => .report cause

mutual

/-- The trace that writes a tree down. -/
def Marked.trace : Marked K → Trace K
  | .leaf mark => [mark.step]
  | .node kind children => .start :: (Marked.traces children ++ [.complete kind])

/-- The trace that writes neighbouring trees down. -/
def Marked.traces : List (Marked K) → Trace K
  | [] => []
  | m :: ms => Marked.trace m ++ Marked.traces ms

end

/-- The kinds of the lexemes of neighbouring trees. -/
def Marked.kinds (ms : List (Marked K)) : List K :=
  (ms.flatMap Shape.leaves).filterMap Mark.kind?

@[simp]
theorem Marked.kinds_nil : Marked.kinds ([] : List (Marked K)) = [] := rfl

@[simp]
theorem Marked.kinds_append (ms ns : List (Marked K)) :
    Marked.kinds (ms ++ ns) = Marked.kinds ms ++ Marked.kinds ns := by
  simp [Marked.kinds]

@[simp]
theorem Marked.kinds_node
    (kind : K)
    (ms : List (Marked K)) :
    Marked.kinds [.node kind ms] = Marked.kinds ms := by
  simp [Marked.kinds]

theorem Marked.kinds_cons
    (m : Marked K)
    (ms : List (Marked K)) :
    Marked.kinds (m :: ms) = Marked.kinds [m] ++ Marked.kinds ms :=
  Marked.kinds_append [m] ms

/-- Tokens as leaves. -/
def Marked.ofKinds (kinds : List K) : List (Marked K) := kinds.map fun kind => .leaf (.lexeme kind)

theorem Mark.filterMap_kind?_lexeme (kinds : List K) :
    (kinds.map Mark.lexeme).filterMap Mark.kind? = kinds := by
  rw [List.filterMap_map]
  exact List.filterMap_some

theorem Marked.flatMap_leaves_ofKinds (kinds : List K) :
    (Marked.ofKinds kinds).flatMap Shape.leaves = kinds.map .lexeme := by
  rw [ofKinds, List.flatMap_map]
  exact List.map_eq_flatMap.symm

/-- Nothing is left out of a tree without faults. -/
theorem Marked.filterMap_plain?_map_lexeme (ss : List (Shape K K)) :
    (ss.map (Shape.map Mark.lexeme)).filterMap Marked.plain? = ss := by
  match ss with
  | [] => rfl
  | .leaf kind :: ss => simpa using filterMap_plain?_map_lexeme ss
  | .node kind children :: ss =>
      simp [filterMap_plain?_map_lexeme children, filterMap_plain?_map_lexeme ss]

@[simp]
theorem Marked.kinds_ofKinds (kinds : List K) : Marked.kinds (Marked.ofKinds kinds) = kinds := by
  rw [Marked.kinds, flatMap_leaves_ofKinds, Mark.filterMap_kind?_lexeme]

theorem Marked.traces_append (ms ns : List (Marked K)) :
    Marked.traces (ms ++ ns) = Marked.traces ms ++ Marked.traces ns := by
  induction ms with
  | nil => rfl
  | cons m ms ih => rw [List.cons_append, traces, traces, ih, List.append_assoc]

theorem Marked.traces_singleton (m : Marked K) : Marked.traces [m] = Marked.trace m := by
  rw [traces, traces, List.append_nil]

variable [DecidableEq K] [Vocabulary K]

mutual

/-- A tree that is written down grows, without its faults, behind the children that are
there. -/
theorem Marked.run_trace
    (m : Marked K)
    (hm : m.Lacks Vocabulary.tombstone)
    (ahead : List K)
    (first : Option (Shape K K))
    (children : List (Shape K K))
    (below : List (Bed K K)) :
    Growth.run ⟨Marked.kinds [m] ++ ahead, .growing ⟨first, children⟩ below⟩ m.trace =
      some ⟨ahead, .growing ⟨first, m.plain?.toList ++ children⟩ below⟩ := by
  cases m with
  | leaf mark => cases mark <;> rfl
  | node kind ms =>
      rw [Shape.lacks_node_iff] at hm
      have hbody := Marked.run_traces ms hm.2 ahead none [] (⟨first, children⟩ :: below)
      rw [trace, kinds_node, Growth.run_cons, Growth.step, Option.bind_some, Growth.run_append]
      change (Growth.run ⟨_, .growing ⟨none, []⟩ _⟩ _).bind _ = _
      rw [hbody]
      simp [Growth.run_cons, Growth.step, hm.1, Bed.close, Bed.shapes, Bed.add]

theorem Marked.run_traces
    (ms : List (Marked K))
    (hms : ∀ m ∈ ms, m.Lacks Vocabulary.tombstone)
    (ahead : List K)
    (first : Option (Shape K K))
    (children : List (Shape K K))
    (below : List (Bed K K)) :
    Growth.run ⟨Marked.kinds ms ++ ahead, .growing ⟨first, children⟩ below⟩ (Marked.traces ms) =
      some ⟨ahead, .growing ⟨first, (ms.filterMap Marked.plain?).reverse ++ children⟩ below⟩ := by
  cases ms with
  | nil => rfl
  | cons m ms =>
      obtain ⟨hm, hms⟩ := List.forall_mem_cons.mp hms
      rw [traces, kinds_cons, List.append_assoc, Growth.run_append,
        Marked.run_trace m hm, Option.bind_some, Marked.run_traces ms hms]
      cases hplain : Marked.plain? m <;> simp [hplain]

end
end Traces

/-! ## Runs that write trees down -/

namespace Parser

section Rules

variable
  {K α β σ : Type}
  [Vocabulary K]
  {p : Parser K α}
  {f : α → Parser K β}
  {c : Cursor K}
  {a : α}
  {b : β}
  {ms ns : List (Marked K)}
  {more rest : List K}

/-- Whether a run gives a value and writes trees down, whose nodes have proper kinds and
whose lexemes it takes and no others. -/
structure Writes
    (p : Parser K α)
    (c : Cursor K)
    (a : α)
    (ms : List (Marked K))
    (more : List K) : Prop where
  proper : ∀ m ∈ ms, m.Lacks Vocabulary.tombstone
  kinds : c.kinds = Marked.kinds ms ++ more
  run : ∃ d, p c = ⟨a, d, Marked.traces ms⟩ ∧ d.kinds = more

theorem writes_pure (h : c.kinds = more) : (pure a : Parser K α).Writes c a [] more :=
  ⟨List.forall_mem_nil _, h, c, rfl, h⟩

theorem Writes.bind
    (hp : p.Writes c a ms more)
    (hf : ∀ d : Cursor K, d.kinds = more → (f a).Writes d b ns rest) :
    (p >>= f).Writes c b (ms ++ ns) rest := by
  obtain ⟨hms, hkinds, d, hpd, rfl⟩ := hp
  obtain ⟨hns, hkinds', e, hfe, hrest⟩ := hf d rfl
  refine ⟨List.forall_mem_append.mpr ⟨hms, hns⟩, ?_, e, ?_, hrest⟩
  · rw [hkinds, hkinds', Marked.kinds_append, List.append_assoc]
  · rw [Marked.traces_append]
    simp [Bind.bind, hpd, hfe]

/-- A parser that only looks ahead is passed over. -/
theorem writes_bind_of_eq
    (hp : p c = ⟨a, c, []⟩)
    (h : (f a).Writes c b ms more) :
    (p >>= f).Writes c b ms more := by
  obtain ⟨hms, hkinds, d, hfd, hmore⟩ := h
  exact ⟨hms, hkinds, d, by rw [bind_of_eq hp, hfd], hmore⟩

theorem Writes.discard (h : p.Writes c a ms more) :
    (discard p : Parser K Unit).Writes c () ms more := by
  have hpure : (Functor.discard p : Parser K Unit).Writes c () (ms ++ []) more :=
    h.bind fun _ hd => writes_pure hd
  rwa [List.append_nil] at hpure

theorem writes_advance
    {kind : K}
    (h : c.kinds = kind :: more) :
    (advance : Parser K Unit).Writes c () [.leaf (.lexeme kind)] more := by
  cases hrest : c.rest with
  | nil => simp [Cursor.kinds, hrest] at h
  | cons l ls =>
      have hkinds := Cursor.kinds_of_rest hrest
      obtain ⟨-, hnext⟩ := List.cons.inj (hkinds.symm.trans h)
      exact ⟨List.forall_mem_singleton.mpr trivial, h, c.next, advance_of_cons hrest, hnext⟩

theorem writes_report
    (fault : Fault K)
    (h : c.kinds = more) :
    (report fault : Parser K Unit).Writes c () [.leaf (.fault fault)] more :=
  ⟨List.forall_mem_singleton.mpr trivial, h, c, rfl, h⟩

theorem Writes.nodeOf
    {body : Parser K K}
    {kind : K}
    (hkind : kind ≠ Vocabulary.tombstone)
    (h : body.Writes c kind ms more) :
    (nodeOf body).Writes c kind [.node kind ms] more := by
  obtain ⟨hms, hkinds, d, hbody, hmore⟩ := h
  refine ⟨?_, by rw [Marked.kinds_node, hkinds], d, ?_, hmore⟩
  · exact List.forall_mem_singleton.mpr (Shape.lacks_node_iff.mpr ⟨hkind, hms⟩)
  have hrun : Parser.nodeOf body c = ⟨(body c).value, (body c).cursor,
      .start :: ((body c).trace ++ [.complete (body c).value])⟩ := rfl
  rw [Marked.traces_singleton, Marked.trace, hrun, hbody]

theorem Writes.node
    {body : Parser K Unit}
    {kind : K}
    (hkind : kind ≠ Vocabulary.tombstone)
    (h : body.Writes c () ms more) :
    (Parser.node kind body).Writes c kind [.node kind ms] more := by
  have hbody : (do body; return kind : Parser K K).Writes c kind (ms ++ []) more :=
    h.bind fun _ hd => writes_pure hd
  rw [List.append_nil] at hbody
  exact hbody.nodeOf hkind

section Loops

variable {body : σ → Parser K (Bool × σ)} {v w x : σ}

theorem Writes.iterate_last (h : (body v).Writes c (false, w) ms more) :
    (iterate body v).Writes c w ms more := by
  obtain ⟨hms, hkinds, d, hbody, hmore⟩ := h
  refine ⟨hms, hkinds, d, ?_, hmore⟩
  rw [Parser.iterate_last (by rw [hbody]), hbody]

/-- A loop goes on behind a turn that takes something and asks for another one. -/
theorem Writes.iterate_again
    (h : (body v).Writes c (true, w) ms more)
    (htakes : Marked.kinds ms ≠ [])
    (hrest : ∀ d : Cursor K, d.kinds = more → (iterate body w).Writes d x ns rest) :
    (iterate body v).Writes c x (ms ++ ns) rest := by
  obtain ⟨hms, hkinds, d, hbody, rfl⟩ := h
  obtain ⟨hns, hkinds', e, hloop, hmore⟩ := hrest d rfl
  have hleft : (body v c).cursor.left < c.left := by
    have hlength := congrArg List.length hkinds
    have hpos := List.length_pos_iff.mpr htakes
    rw [List.length_append, Cursor.kinds, Cursor.kinds, List.length_map, List.length_map,
      ← c.left_eq, ← d.left_eq] at hlength
    rw [hbody]
    dsimp only
    omega
  refine ⟨List.forall_mem_append.mpr ⟨hms, hns⟩, ?_, e, ?_, hmore⟩
  · rw [hkinds, hkinds', Marked.kinds_append, List.append_assoc]
  · rw [Parser.iterate_again (by rw [hbody]) hleft, hbody, Marked.traces_append]
    dsimp only
    rw [hloop]

end Loops

theorem writes_atEnd_bind
    {g : Bool → Parser K β}
    (h : (g c.kinds.isEmpty).Writes c b ms more) :
    (atEnd >>= g).Writes c b ms more :=
  writes_bind_of_eq (by simp [atEnd, Cursor.kinds]) h

theorem nth_of_kinds
    (c : Cursor K)
    (n : Nat) :
    (nth n : Parser K K) c = ⟨c.nth n, c, []⟩ := by
  simp [nth, Cursor.nth, Cursor.kinds]

theorem writes_nth_bind
    {n : Nat}
    {g : K → Parser K β}
    (h : (g (c.nth n)).Writes c b ms more) :
    (nth n >>= g).Writes c b ms more :=
  writes_bind_of_eq (nth_of_kinds c n) h

variable [DecidableEq K]

theorem writes_nthAt_bind
    {n : Nat}
    {kind : K}
    {g : Bool → Parser K β}
    (h : (g (c.nth n == kind)).Writes c b ms more) :
    (nthAt n kind >>= g).Writes c b ms more :=
  writes_bind_of_eq (by simp [nthAt, Bind.bind, Pure.pure, nth_of_kinds]) h

theorem writes_eat
    {kind : K}
    (h : c.kinds = kind :: more) :
    (eat kind : Parser K Bool).Writes c true [.leaf (.lexeme kind)] more := by
  have hat : (c.nth 0 == kind) = true := by simp [Cursor.nth, h]
  refine writes_nthAt_bind ?_
  rw [hat, if_pos rfl]
  have htrue := (writes_advance h).bind (f := fun _ => (pure true : Parser K Bool))
    fun _ hd => writes_pure hd
  exact htrue

theorem writes_eat_missing
    {kind : K}
    (h : c.nth 0 ≠ kind)
    (hmore : c.kinds = more) :
    (eat kind : Parser K Bool).Writes c false [] more := by
  refine writes_nthAt_bind ?_
  rw [beq_false_of_ne h, if_neg Bool.false_ne_true]
  exact writes_pure hmore

theorem writes_expect
    {kind : K}
    (h : c.kinds = kind :: more) :
    (expect kind : Parser K Unit).Writes c () [.leaf (.lexeme kind)] more := by
  have hbind := (writes_eat h).bind (f := fun found => (do
    unless found do report (.expected kind (← peek)) : Parser K Unit))
    fun _ hd => writes_pure hd
  exact hbind

/-- Tokens of a kind are taken up to the first one of another kind. -/
theorem writes_repeatWhile_eat
    {kind : K}
    (hkind : kind ≠ Vocabulary.eof)
    (hmore : more.head? ≠ some kind)
    {m : Nat}
    (h : c.kinds = List.replicate m kind ++ more) :
    (repeatWhile (eat kind) : Parser K Unit).Writes c () (Marked.ofKinds (List.replicate m kind))
      more := by
  induction m generalizing c with
  | zero =>
      have hne : c.nth 0 ≠ kind := by
        intro heq
        rw [Cursor.nth, h, List.replicate_zero, List.nil_append, ← List.head?_eq_getElem?] at heq
        cases hhead : more.head? with
        | none => exact hkind (by rw [← heq, hhead]; rfl)
        | some other => exact hmore (by rw [← heq, hhead]; rfl)
      have hturn : (do return (← eat kind, ()) : Parser K (Bool × Unit)).Writes c (false, ())
          ([] ++ []) more :=
        (writes_eat_missing hne h).bind fun _ hd => writes_pure hd
      exact hturn.iterate_last
  | succ m ih =>
      have hturn : (do return (← eat kind, ()) : Parser K (Bool × Unit)).Writes c (true, ())
          ([Shape.leaf (Mark.lexeme kind)] ++ []) (List.replicate m kind ++ more) :=
        (writes_eat h).bind fun _ hd => writes_pure hd
      exact hturn.iterate_again (by simp [Marked.kinds, Mark.kind?]) fun _ hd => ih hd

/-- What is written down grows. -/
theorem Writes.ends
    {s : Site K}
    (h : p.Writes s.cursor a ms more) :
    p.Ends s fun b t =>
      b = a ∧ t.kinds = more ∧ t.behind = s.behind ∧
        t.children = (ms.filterMap Marked.plain?).reverse ++ s.children ∧
        t.reports = s.reports + Trace.reports (Marked.traces ms) := by
  obtain ⟨hms, hkinds, d, hp, hmore⟩ := h
  refine ⟨⟨d, s.behind, (ms.filterMap Marked.plain?).reverse ++ s.children,
    s.reports + Trace.reports (Marked.traces ms)⟩, by rw [hp], ⟨fun first below => ?_, ?_⟩,
    by rw [hp], hmore, rfl, rfl, rfl⟩
  · have hahead : s.ahead = Marked.kinds ms ++ (more ++ s.behind) := by
      rw [Site.ahead, Site.kinds, hkinds, List.append_assoc]
    rw [hp, hahead, Marked.run_traces ms hms]
    simp [Site.ahead, Site.kinds, hmore]
  · rw [hp]

end Rules
end Parser

/-! ## Passing over tokens -/

namespace Parser

section Passing

variable {K : Type} [Vocabulary K]

/-- The number of brackets that are open behind a token that is passed over. -/
def passDepth (depth : Nat) (kind : K) : Option Nat :=
  match Vocabulary.delimiter? kind, depth with
  | some .opening, _ => some (depth + 1)
  | some .closing, 0 => none
  | some .separator, 0 => none
  | some .closing, depth + 1 => some depth
  | _, _ => some depth

variable {c : Cursor K} {kind : K} {kinds more : List K} {depth depth' : Nat}

/-- A turn takes a token that leaves the brackets around the construct alone. -/
theorem writes_passToken
    (h : c.kinds = kind :: more)
    (hdepth : passDepth depth kind = some depth') :
    (passToken depth : Parser K (Bool × Nat)).Writes c (true, depth') [.leaf (.lexeme kind)]
      more := by
  have hend : c.kinds.isEmpty = false := by rw [h]; rfl
  have hpeek : c.nth 0 = kind := by rw [Cursor.nth, h]; rfl
  have htake : ∀ depth : Nat,
      (do advance; return (true, depth) : Parser K (Bool × Nat)).Writes c (true, depth)
        ([Shape.leaf (Mark.lexeme kind)] ++ []) more := fun depth =>
    (writes_advance h).bind fun _ hd => writes_pure hd
  refine writes_atEnd_bind ?_
  rw [hend, if_neg Bool.false_ne_true]
  refine writes_nth_bind ?_
  rw [hpeek]
  unfold passDepth at hdepth
  split at hdepth <;> simp_all

/-- The last turn leaves a separator or a closing token of the construct around. -/
theorem writes_passToken_last
    (h : c.kinds = more)
    (hmore : ∀ kind rest, more = kind :: rest → passDepth 0 kind = none) :
    (passToken 0 : Parser K (Bool × Nat)).Writes c (false, 0) [] more := by
  refine writes_atEnd_bind ?_
  cases more with
  | nil =>
      rw [h, List.isEmpty_nil, if_pos rfl]
      exact writes_pure h
  | cons kind rest =>
      have hnone := hmore kind rest rfl
      have hpeek : c.nth 0 = kind := by rw [Cursor.nth, h]; rfl
      rw [h, List.isEmpty_cons, if_neg Bool.false_ne_true]
      refine writes_nth_bind ?_
      rw [hpeek]
      unfold passDepth at hnone
      split at hnone <;> simp_all [writes_pure]

/-- Tokens that close the brackets they open are passed over. -/
theorem writes_passOver
    (hkinds : c.kinds = kinds ++ more)
    (hpass : kinds.foldlM passDepth 0 = some 0)
    (hmore : ∀ kind rest, more = kind :: rest → passDepth 0 kind = none) :
    (passOver : Parser K Unit).Writes c () (Marked.ofKinds kinds) more := by
  have hloop : ∀ (kinds : List K) (depth : Nat) (c : Cursor K), c.kinds = kinds ++ more →
      kinds.foldlM passDepth depth = some 0 →
      (iterate passToken depth : Parser K Nat).Writes c 0 (Marked.ofKinds kinds) more := by
    intro kinds
    induction kinds with
    | nil =>
        intro depth c hkinds hpass
        obtain rfl := Option.some.inj hpass
        exact (writes_passToken_last hkinds hmore).iterate_last
    | cons kind kinds ih =>
        intro depth c hkinds hpass
        obtain ⟨depth', hdepth, hpass⟩ := Option.bind_eq_some_iff.mp hpass
        exact (writes_passToken hkinds hdepth).iterate_again (by simp [Marked.kinds, Mark.kind?])
          fun d hd => ih depth' d hd hpass
  exact (hloop kinds 0 c hkinds hpass).discard

end Passing
end Parser

/-! ## Errors -/

section Errors

variable {K : Type}

/-- The faults among leaves, each with the number of lexemes before it. -/
def Mark.faultsFrom (rank : Nat) : List (Mark K) → List (Nat × Fault K)
  | [] => []
  | .lexeme _ :: marks => Mark.faultsFrom (rank + 1) marks
  | .fault cause :: marks => (rank, cause) :: Mark.faultsFrom rank marks

theorem Mark.faultsFrom_append
    (rank : Nat)
    (marks others : List (Mark K)) :
    Mark.faultsFrom rank (marks ++ others) =
      Mark.faultsFrom rank marks ++
        Mark.faultsFrom (rank + (marks.filterMap Mark.kind?).length) others := by
  induction marks generalizing rank with
  | nil => rfl
  | cons mark marks ih =>
      cases mark with
      | lexeme kind =>
          rw [List.cons_append, faultsFrom, faultsFrom, ih,
            List.filterMap_cons_some (f := Mark.kind?) rfl, List.length_cons, Nat.add_assoc,
            Nat.add_comm 1]
      | fault cause =>
          rw [List.cons_append, faultsFrom, faultsFrom, ih,
            List.filterMap_cons_none (f := Mark.kind?) rfl, List.cons_append]

theorem Mark.faultsFrom_map_lexeme
    (rank : Nat)
    (kinds : List K) :
    Mark.faultsFrom rank (kinds.map .lexeme) = [] := by
  induction kinds generalizing rank with
  | nil => rfl
  | cons kind kinds ih => exact ih (rank + 1)

/-- Nodes aside, a tree is written down leaf by leaf. -/
def Step.isMark : Step K → Bool
  | .advance => true
  | .report _ => true
  | _ => false

mutual

theorem Marked.filter_isMark_trace (m : Marked K) :
    m.trace.filter Step.isMark = m.leaves.map Mark.step := by
  cases m with
  | leaf mark => cases mark <;> rfl
  | node kind ms =>
      rw [trace, Shape.leaves_node, List.filter_cons_of_neg Bool.false_ne_true,
        List.filter_append, List.filter_cons_of_neg Bool.false_ne_true, List.filter_nil,
        List.append_nil, Marked.filter_isMark_traces]

theorem Marked.filter_isMark_traces (ms : List (Marked K)) :
    (Marked.traces ms).filter Step.isMark = (ms.flatMap Shape.leaves).map Mark.step := by
  cases ms with
  | nil => rfl
  | cons m ms =>
      rw [traces, List.filter_append, List.flatMap_cons, List.map_append,
        Marked.filter_isMark_trace m, Marked.filter_isMark_traces ms]

end

theorem Trace.reports_filter_isMark (trace : Trace K) :
    Trace.reports (trace.filter Step.isMark) = Trace.reports trace := by
  rw [reports, List.countP_filter, reports]
  refine List.countP_congr fun s _ => ?_
  cases s <;> rfl

theorem Mark.length_faultsFrom
    (rank : Nat)
    (marks : List (Mark K)) :
    (Mark.faultsFrom rank marks).length = Trace.reports (marks.map Mark.step) := by
  induction marks generalizing rank with
  | nil => rfl
  | cons mark marks ih =>
      cases mark with
      | lexeme kind => exact ih (rank + 1)
      | fault cause =>
          rw [faultsFrom, List.length_cons, ih, List.map_cons, Mark.step, Trace.reports,
            Trace.reports, List.countP_cons_of_pos rfl]

/-- The reports of a trace that writes trees down are the faults in them. -/
theorem Marked.reports_traces
    (rank : Nat)
    (ms : List (Marked K)) :
    Trace.reports (Marked.traces ms) =
      (Mark.faultsFrom rank (ms.flatMap Shape.leaves)).length := by
  rw [← Trace.reports_filter_isMark, Marked.filter_isMark_traces, Mark.length_faultsFrom]

variable [DecidableEq K] [Vocabulary K]

/-- Errors do not depend on nodes. -/
theorem Trace.errors_filter_isMark
    (tokens : List (Token K))
    (trace : Trace K) :
    Trace.errors tokens (trace.filter Step.isMark) = Trace.errors tokens trace := by
  induction trace generalizing tokens with
  | nil => rfl
  | cons s trace ih =>
      cases s with
      | advance => exact ih tokens.tail
      | report fault => exact congrArg (_ ++ ·) (ih tokens)
      | start => exact ih tokens
      | complete kind => exact ih tokens
      | precede => exact ih tokens
      | stuck => exact ih tokens

/-- Each fault among leaves is an error at the token with its number, as long as there are
more tokens than lexemes. -/
theorem Trace.forall₂_errors_steps
    (tokens : List (Token K))
    (rank : Nat)
    (marks : List (Mark K))
    (h : rank + (marks.filterMap Mark.kind?).length < tokens.length) :
    List.Forall₂
      (fun (d : Diagnostic) x => ∃ t, tokens[x.1]? = some t ∧ d = ⟨.error, x.2.message, t.range⟩)
      (Trace.errors (tokens.drop rank) (marks.map Mark.step)) (Mark.faultsFrom rank marks) := by
  induction marks generalizing rank with
  | nil => exact .nil
  | cons mark marks ih =>
      cases mark with
      | lexeme kind =>
          rw [List.filterMap_cons_some (f := Mark.kind?) rfl, List.length_cons] at h
          have hrest := ih (rank + 1) (by omega)
          rw [← List.tail_drop] at hrest
          exact hrest
      | fault cause =>
          rw [List.filterMap_cons_none (f := Mark.kind?) rfl] at h
          have hrank : rank < tokens.length := by omega
          have hhead : (tokens.drop rank).head? = some tokens[rank] := by
            rw [List.head?_drop, List.getElem?_eq_getElem hrank]
          rw [List.map_cons, Mark.step, Trace.errors, hhead, Mark.faultsFrom]
          exact .cons ⟨_, List.getElem?_eq_getElem hrank, rfl⟩ (ih rank h)

/-- The errors of a file that is written down are its faults in place. -/
theorem Trace.forall₂_errors
    {tokens : List (Token K)}
    {ms : List (Marked K)}
    (h : (Marked.kinds ms).length < tokens.length)
    (trace : Trace K)
    (hquiet : Trace.reports trace = 0) :
    List.Forall₂
      (fun (d : Diagnostic) x => ∃ t, tokens[x.1]? = some t ∧ d = ⟨.error, x.2.message, t.range⟩)
      (Trace.errors tokens (Marked.traces ms ++ trace))
      (Mark.faultsFrom 0 (ms.flatMap Shape.leaves)) := by
  rw [Trace.errors_append _ _ _ hquiet, ← Trace.errors_filter_isMark,
    Marked.filter_isMark_traces]
  exact Trace.forall₂_errors_steps tokens 0 _ (by rwa [Nat.zero_add])

end Errors

/-! ## Files -/

/-- A file that is written down has the tree that was written, and its errors are the
faults in it, each at the token in front of which it stands. -/
theorem exists_written
    {K : Type}
    [DecidableEq K]
    [Vocabulary K]
    [LawfulVocabulary K]
    {read : (c : Char) → (t : Text) → Reading K t}
    {body : Parser K Unit}
    {kind : K}
    {ms : List (Marked K)}
    {text : Text}
    (hkind : kind ≠ Vocabulary.tombstone)
    (h : body.Writes (.ofList (significant (tokensWith read text))) () ms []) :
    ∃ p,
      Parse.ofGrammar? (lexWith read) (Parser.whole kind body) text = some p ∧
      p.root.Keeps kind text (lexWith read text) ∧
      p.root.outline = .node kind (ms.filterMap Marked.plain? ++ [Shape.leaf Vocabulary.eof]) ∧
      List.Forall₂
        (fun (d : Diagnostic) x => ∃ t, (tokensWith read text)[x.1]? = some t ∧
          d = ⟨.error, x.2.message, t.range⟩)
        p.diagnostics (Mark.faultsFrom 0 (ms.flatMap Shape.leaves)) := by
  have hends := h.ends (s := .ofList (significant (tokensWith read text)))
  obtain ⟨t, hchildren, hgrow, -⟩ := Parser.Ends.exists_grow? hkind
    (hends.mono fun _ t ⟨_, hkinds, hbehind, hchildren, _⟩ => ⟨hkinds, hbehind, hchildren⟩)
  obtain ⟨p, hp, hdiagnostics, hkeeps, houtline⟩ := ofGrammar?_of_grow? hgrow
  refine ⟨p, hp, hkeeps, ?_, ?_⟩
  · rw [houtline, hchildren, List.reverse_append, List.reverse_reverse]
    rfl
  · obtain ⟨-, hkinds, d, hbody, hnone⟩ := h
    have hrest : (body (.ofList (significant (tokensWith read text)))).cursor.rest = [] := by
      rw [hbody]
      exact List.map_eq_nil_iff.mp hnone
    rw [hdiagnostics, Parser.trace_whole kind hrest, hbody]
    have hcount : (Marked.kinds ms).length < (tokensWith read text).length := by
      rw [length_tokensWith read text, Nat.lt_succ_iff, ← List.length_map Lexeme.kind]
      rw [List.append_nil] at hkinds
      exact Nat.le_of_eq (congrArg List.length hkinds.symm)
    exact Trace.forall₂_errors hcount _ rfl

end ZigCst
