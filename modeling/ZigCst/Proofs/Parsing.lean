import ZigCst.Parser
import ZigCst.Proofs.Growth

/-!
# What a parser does to a growing tree

A run of a parser stands at a site: the lexemes ahead of it, the children that
the innermost open node has so far, and the number of faults reported.  The trace
of a run leads from one site to another if growth can follow it all the way; it
cannot when the run is stuck, or when a node is wrapped that is not there.

**Definitions.**
* `Site.Leads`: growth follows a trace from one site to another.
* `Parser.Ends p s Q`: from the site `s`, the trace of `p` leads to a site for
  which, together with the value that `p` gives, `Q` holds.

**Results.**  The rules follow the combinators.
* `Ends.bind`: a run goes on where another one ended.
* `ends_nodeOf`, `ends_wrapOf`: what a body did becomes a node.
* `Ends.iterate`: an invariant, and something consumed before every further turn.
* `ends_peek_bind` and its like: a parser that only looks ahead is passed over.
-/

namespace ZigCst

section Sites

variable {K : Type}

/-- The kinds of the lexemes ahead. -/
def Cursor.kinds (c : Cursor K) : List K := c.rest.map Lexeme.kind

def Step.isReport : Step K → Bool
  | .report _ => true
  | _ => false

/-- The number of faults reported in a trace. -/
def Trace.reports (trace : Trace K) : Nat := trace.countP Step.isReport

theorem Trace.reports_append (trace rest : Trace K) :
    Trace.reports (trace ++ rest) = Trace.reports trace + Trace.reports rest :=
  List.countP_append

/-- Where a run stands. -/
structure Site (K : Type) where
  cursor : Cursor K
  /-- Leaves that stand behind all lexemes of the cursor. -/
  behind : List K
  /-- Children that the innermost node got since it was started, the last first. -/
  children : List (Shape K K)
  /-- The number of faults reported so far. -/
  reports : Nat

namespace Site

def kinds (s : Site K) : List K := s.cursor.kinds

/-- The number of lexemes left. -/
def left (s : Site K) : Nat := s.cursor.left

/-- The leaves that growth has not taken yet. -/
def ahead (s : Site K) : List K := s.kinds ++ s.behind

/-- The site inside a node that is started here. -/
def opened (s : Site K) : Site K := { s with children := [] }

/-- The site after the node that ends with `t` was completed. -/
def closed (s t : Site K) (kind : K) : Site K :=
  { t with children := .node kind t.children.reverse :: s.children }

/-- The site after the node that ends with `t` was completed around a node `first`,
which stood last among the children of the node around it. -/
def wrapped (t : Site K) (first : Shape K K) (others : List (Shape K K)) (kind : K) : Site K :=
  { t with children := .node kind (first :: t.children.reverse) :: others }

/-- The site after one more fault. -/
def faulted (s : Site K) : Site K := { s with reports := s.reports + 1 }

/-- The site after the next lexeme. -/
def advanced (s : Site K) : Site K :=
  match s.cursor.rest with
  | [] => s
  | l :: _ => { s with cursor := s.cursor.next, children := .leaf l.kind :: s.children }

theorem left_eq (s : Site K) : s.left = s.kinds.length := by
  rw [left, s.cursor.left_eq, kinds, Cursor.kinds, List.length_map]

theorem left_pos_iff {s : Site K} : 0 < s.left ↔ s.kinds ≠ [] := by
  rw [left_eq, List.length_pos_iff]

theorem rest_eq_nil_iff {s : Site K} : s.cursor.rest = [] ↔ s.kinds = [] :=
  List.map_eq_nil_iff.symm

end Site
end Sites

section Leading

variable {K : Type} [DecidableEq K] [Vocabulary K]

/-- Whether growth can follow a trace from one site to another, whatever stands
around the innermost node. -/
structure Site.Leads (s : Site K) (trace : Trace K) (t : Site K) : Prop where
  run : ∀ first below,
    Growth.run ⟨s.ahead, .growing ⟨first, s.children⟩ below⟩ trace =
      some ⟨t.ahead, .growing ⟨first, t.children⟩ below⟩
  reports : t.reports = s.reports + Trace.reports trace

namespace Site.Leads

theorem nil (s : Site K) : s.Leads [] s := ⟨fun _ _ => rfl, rfl⟩

theorem trans
    {s t u : Site K}
    {trace rest : Trace K}
    (h : s.Leads trace t)
    (h' : t.Leads rest u) :
    s.Leads (trace ++ rest) u := by
  constructor
  · intro first below
    rw [Growth.run_append, h.run]
    exact h'.run first below
  · rw [h'.reports, h.reports, Trace.reports_append, Nat.add_assoc]

/-- A trace leads to one site at a cursor. -/
theorem unique
    {s t u : Site K}
    {trace : Trace K}
    (h : s.Leads trace t)
    (h' : s.Leads trace u)
    (hcursor : t.cursor = u.cursor) :
    t = u := by
  have hrun := (h.run none []).symm.trans (h'.run none [])
  have hreports := h.reports.trans h'.reports.symm
  obtain ⟨cursor, behind, children, reports⟩ := t
  obtain ⟨cursor', behind', children', reports'⟩ := u
  obtain rfl : cursor = cursor' := hcursor
  obtain rfl : reports = reports' := hreports
  simp only [Option.some.injEq, Growth.mk.injEq, Stage.growing.injEq, Bed.mk.injEq, true_and,
    and_true] at hrun
  obtain ⟨hahead, rfl⟩ := hrun
  obtain rfl : behind = behind' := List.append_cancel_left hahead
  rfl

theorem advanced
    {s : Site K}
    (h : s.kinds ≠ []) :
    s.Leads [.advance] s.advanced := by
  obtain ⟨⟨prev, rest, left, hleft⟩, behind, children, reports⟩ := s
  cases rest with
  | nil => simp [Site.kinds, Cursor.kinds] at h
  | cons l rest => exact ⟨fun _ _ => rfl, rfl⟩

theorem faulted
    (s : Site K)
    (fault : Fault K) :
    s.Leads [.report fault] s.faulted :=
  ⟨fun _ _ => rfl, rfl⟩

/-- What a body does between the start and the end of a node. -/
theorem node
    {s t : Site K}
    {trace : Trace K}
    {kind : K}
    (h : s.opened.Leads trace t)
    (hkind : kind ≠ Vocabulary.tombstone) :
    s.Leads (.start :: (trace ++ [Step.complete kind])) (s.closed t kind) := by
  constructor
  · intro first below
    have hbody :
        Growth.run ⟨s.ahead, .growing .empty (⟨first, s.children⟩ :: below)⟩ trace =
          some ⟨t.ahead, .growing ⟨none, t.children⟩ (⟨first, s.children⟩ :: below)⟩ :=
      h.run none _
    rw [Growth.run_cons, Growth.step, Option.bind_some, Growth.run_append, hbody]
    simp only [Option.bind_some, Growth.run_cons, Growth.step, if_neg hkind]
    rfl
  · have hreports := h.reports
    simpa [Site.opened, Site.closed, Trace.reports, Step.isReport] using hreports

/-- What a body does in a node around the node that was added last. -/
theorem wrap
    {s t : Site K}
    {trace : Trace K}
    {kind inner : K}
    {grandchildren others : List (Shape K K)}
    (hchildren : s.children = .node inner grandchildren :: others)
    (h : s.opened.Leads trace t)
    (hkind : kind ≠ Vocabulary.tombstone) :
    s.Leads (.precede :: (trace ++ [Step.complete kind]))
      (t.wrapped (.node inner grandchildren) others kind) := by
  constructor
  · intro first below
    have hbody :
        Growth.run
            ⟨s.ahead, .growing ⟨some (.node inner grandchildren), []⟩ (⟨first, others⟩ :: below)⟩
            trace =
          some ⟨t.ahead,
            .growing ⟨some (.node inner grandchildren), t.children⟩ (⟨first, others⟩ :: below)⟩ :=
      h.run _ _
    rw [Growth.run_cons, hchildren, Growth.step, Option.bind_some, Growth.run_append, hbody]
    simp only [Option.bind_some, Growth.run_cons, Growth.step, if_neg hkind]
    rfl
  · have hreports := h.reports
    simpa [Site.opened, Site.wrapped, Trace.reports, Step.isReport] using hreports

end Site.Leads
end Leading

/-! ## Rules for runs -/

section Running

variable {K α β σ : Type} [DecidableEq K] [Vocabulary K]

/-- The kind of the lexeme `n` places ahead. -/
def Site.nth (s : Site K) (n : Nat) : K := s.kinds[n]?.getD Vocabulary.eof

/-- The kind of the next lexeme. -/
def Site.peek (s : Site K) : K := s.nth 0

omit [DecidableEq K] in
/-- There is a lexeme left if the next one is not the end of file. -/
theorem Site.left_pos_of_peek
    {s : Site K}
    {kind : K}
    (hpeek : s.peek = kind)
    (hkind : kind ≠ Vocabulary.eof) :
    0 < s.left := by
  rw [left_pos_iff]
  intro hkinds
  apply hkind
  rw [← hpeek, peek, nth, hkinds]
  rfl

/-- From the site `s`, the trace of `p` can be followed to its end, and there `Q`
holds. -/
def Parser.Ends (p : Parser K α) (s : Site K) (Q : α → Site K → Prop) : Prop :=
  ∃ t : Site K,
    t.cursor = (p s.cursor).cursor ∧ s.Leads (p s.cursor).trace t ∧ Q (p s.cursor).value t

namespace Parser

theorem Ends.mono
    {p : Parser K α}
    {s : Site K}
    {P Q : α → Site K → Prop}
    (h : p.Ends s P)
    (himp : ∀ a t, P a t → Q a t) :
    p.Ends s Q := by
  obtain ⟨t, hcursor, hleads, hp⟩ := h
  exact ⟨t, hcursor, hleads, himp _ t hp⟩

/-- A run ends at one site only, so what is known of its end in two ways holds
together. -/
theorem Ends.and
    {p : Parser K α}
    {s : Site K}
    {P Q : α → Site K → Prop}
    (hp : p.Ends s P)
    (hq : p.Ends s Q) :
    p.Ends s fun a t => P a t ∧ Q a t := by
  obtain ⟨t, hcursor, hleads, ht⟩ := hp
  obtain ⟨u, hcursor', hleads', hu⟩ := hq
  obtain rfl := hleads.unique hleads' (hcursor.trans hcursor'.symm)
  exact ⟨t, hcursor, hleads, ht, hu⟩

/-- Whatever is known of the end on some condition is known at once. -/
theorem Ends.and_forall
    {ι : Type}
    {p : Parser K α}
    {s : Site K}
    {A : ι → Prop}
    {P : α → Site K → Prop}
    {Q : ι → α → Site K → Prop}
    (hp : p.Ends s P)
    (hq : ∀ i, A i → p.Ends s (Q i)) :
    p.Ends s fun a t => P a t ∧ ∀ i, A i → Q i a t := by
  obtain ⟨t, hcursor, hleads, ht⟩ := hp
  refine ⟨t, hcursor, hleads, ht, fun i hi => ?_⟩
  obtain ⟨u, hcursor', hleads', hu⟩ := hq i hi
  obtain rfl := hleads.unique hleads' (hcursor.trans hcursor'.symm)
  exact hu

theorem ends_pure
    {a : α}
    {s : Site K}
    {Q : α → Site K → Prop}
    (h : Q a s) :
    (pure a : Parser K α).Ends s Q :=
  ⟨s, rfl, .nil s, h⟩

/-- One run goes on where the other ended. -/
theorem Ends.bind
    {p : Parser K α}
    {f : α → Parser K β}
    {s : Site K}
    {P : α → Site K → Prop}
    {Q : β → Site K → Prop}
    (hp : p.Ends s P)
    (hf : ∀ a t, P a t → (f a).Ends t Q) :
    (p >>= f).Ends s Q := by
  obtain ⟨t, hcursor, hleads, ht⟩ := hp
  obtain ⟨u, hcursor', hleads', hu⟩ := hf _ t ht
  rw [hcursor] at hcursor' hleads' hu
  exact ⟨u, hcursor', hleads.trans hleads', hu⟩

theorem ends_discard
    {p : Parser K α}
    {s : Site K}
    {Q : Unit → Site K → Prop}
    (h : p.Ends s fun _ t => Q () t) :
    (discard p : Parser K Unit).Ends s Q := by
  obtain ⟨t, hcursor, hleads, ht⟩ := h
  exact ⟨t, hcursor, hleads.trans (.nil t), ht⟩

theorem ends_report
    {fault : Fault K}
    {s : Site K}
    {Q : Unit → Site K → Prop}
    (h : Q () s.faulted) :
    (report fault : Parser K Unit).Ends s Q :=
  ⟨s.faulted, rfl, .faulted s fault, h⟩

theorem ends_advance
    {s : Site K}
    {Q : Unit → Site K → Prop}
    (h : Q () s.advanced) :
    (advance : Parser K Unit).Ends s Q := by
  obtain ⟨⟨prev, rest, left, hleft⟩, behind, children, reports⟩ := s
  cases rest with
  | nil => exact ⟨_, rfl, .nil _, h⟩
  | cons l rest => exact ⟨_, rfl, .advanced (List.cons_ne_nil _ _), h⟩

theorem ends_report_bind
    {fault : Fault K}
    {f : Unit → Parser K α}
    {s : Site K}
    {Q : α → Site K → Prop}
    (h : (f ()).Ends s.faulted Q) :
    (report fault >>= f).Ends s Q := by
  refine Ends.bind (P := fun _ t => t = s.faulted) (ends_report rfl) ?_
  rintro _ _ rfl
  exact h

theorem ends_advance_bind
    {f : Unit → Parser K α}
    {s : Site K}
    {Q : α → Site K → Prop}
    (h : (f ()).Ends s.advanced Q) :
    (advance >>= f).Ends s Q := by
  refine Ends.bind (P := fun _ t => t = s.advanced) (ends_advance rfl) ?_
  rintro _ _ rfl
  exact h

theorem ends_ensure
    {holds : Bool}
    {s : Site K}
    {Q : Unit → Site K → Prop}
    (hholds : holds = true)
    (h : Q () s) :
    (ensure holds : Parser K Unit).Ends s Q := by
  rw [ensure, if_pos hholds]
  exact ends_pure h

theorem ends_nodeOf
    {body : Parser K K}
    {s : Site K}
    {Q : K → Site K → Prop}
    (h : body.Ends s.opened fun kind t =>
      kind ≠ Vocabulary.tombstone ∧ Q kind (s.closed t kind)) :
    (nodeOf body).Ends s Q := by
  obtain ⟨t, hcursor, hleads, hkind, ht⟩ := h
  exact ⟨s.closed t _, hcursor, hleads.node hkind, ht⟩

theorem ends_wrapOf
    {body : Parser K K}
    {s : Site K}
    {inner : K}
    {grandchildren others : List (Shape K K)}
    {Q : K → Site K → Prop}
    (hchildren : s.children = .node inner grandchildren :: others)
    (h : body.Ends s.opened fun kind t =>
      kind ≠ Vocabulary.tombstone ∧
        Q kind (t.wrapped (.node inner grandchildren) others kind)) :
    (wrapOf body).Ends s Q := by
  obtain ⟨t, hcursor, hleads, hkind, ht⟩ := h
  exact ⟨t.wrapped _ others _, hcursor, hleads.wrap hchildren hkind, ht⟩

theorem ends_moves
    {p : Parser K Unit}
    {s : Site K}
    {Q : Bool → Site K → Prop}
    (h : p.Ends s fun _ t => Q (decide (t.left < s.left)) t) :
    (moves p).Ends s Q := by
  obtain ⟨t, hcursor, hleads, ht⟩ := h
  rw [Site.left, hcursor] at ht
  exact ⟨t, hcursor, hleads, ht⟩

/-- A loop makes a turn, and if the turn asks for another one and has consumed
something, it goes on from there. -/
theorem ends_iterate
    {body : σ → Parser K (Bool × σ)}
    {v : σ}
    {s : Site K}
    {Q : σ → Site K → Prop}
    (h : (body v).Ends s fun r t =>
      (r.1 = true → t.left < s.left ∧ (iterate body r.2).Ends t Q) ∧ (r.1 = false → Q r.2 t)) :
    (iterate body v).Ends s Q := by
  obtain ⟨t, hcursor, hleads, hagain, hlast⟩ := h
  rw [Ends, Parser.iterate_eq]
  cases hvalue : (body v s.cursor).value.1 with
  | false =>
      simp only [Bool.false_eq_true, if_false]
      exact ⟨t, hcursor, hleads, hlast hvalue⟩
  | true =>
      obtain ⟨hleft, u, hcursor', hleads', hu⟩ := hagain hvalue
      rw [hcursor] at hcursor' hleads' hu
      have hless : (body v s.cursor).cursor.left < s.cursor.left := hcursor ▸ hleft
      simp only [if_true, if_pos hless]
      exact ⟨u, hcursor', hleads.trans hleads', hu⟩

/-- The rule for loops.  The invariant holds before every turn; a turn that asks
for another one has consumed something, and the last turn ends the loop. -/
theorem Ends.iterate
    {body : σ → Parser K (Bool × σ)}
    {I : σ → Site K → Prop}
    {Q : σ → Site K → Prop}
    (hturn : ∀ v s, I v s → (body v).Ends s fun r t =>
      (r.1 = true → t.left < s.left ∧ I r.2 t) ∧ (r.1 = false → Q r.2 t))
    {v : σ}
    {s : Site K}
    (h : I v s) :
    (iterate body v).Ends s Q := by
  refine ends_iterate ((hturn v s h).mono fun r t ht => ⟨fun hagain => ?_, ht.2⟩)
  have hleft := (ht.1 hagain).1
  exact ⟨hleft, Ends.iterate hturn (ht.1 hagain).2⟩
termination_by s.left

/-! A parser that only looks ahead is passed over. -/

omit [DecidableEq K] [Vocabulary K] in
theorem bind_of_eq
    {p : Parser K α}
    {f : α → Parser K β}
    {c : Cursor K}
    {a : α}
    (hp : p c = ⟨a, c, []⟩) :
    (p >>= f) c = f a c := by
  simp [bind, hp]

theorem ends_bind_of_eq
    {p : Parser K α}
    {f : α → Parser K β}
    {s : Site K}
    {Q : β → Site K → Prop}
    {a : α}
    (hp : p s.cursor = ⟨a, s.cursor, []⟩) :
    (p >>= f).Ends s Q ↔ (f a).Ends s Q := by
  rw [Ends, Ends, bind_of_eq hp]

omit [DecidableEq K] in
theorem nth_eq
    (s : Site K)
    (n : Nat) :
    (nth n : Parser K K) s.cursor = ⟨s.nth n, s.cursor, []⟩ := by
  simp [nth, Site.nth, Site.kinds, Cursor.kinds]

omit [DecidableEq K] [Vocabulary K] in
theorem atEnd_eq (s : Site K) :
    (atEnd : Parser K Bool) s.cursor = ⟨s.kinds.isEmpty, s.cursor, []⟩ := by
  simp [atEnd, Site.kinds, Cursor.kinds]

section Looking

variable {f : Bool → Parser K β} {s : Site K} {Q : β → Site K → Prop}

@[simp]
theorem ends_nth_bind
    {n : Nat}
    {g : K → Parser K β} :
    (nth n >>= g).Ends s Q ↔ (g (s.nth n)).Ends s Q :=
  ends_bind_of_eq (nth_eq s n)

@[simp]
theorem ends_peek_bind
    {g : K → Parser K β} :
    (peek >>= g).Ends s Q ↔ (g s.peek).Ends s Q :=
  ends_bind_of_eq (nth_eq s 0)

@[simp]
theorem ends_atEnd_bind : (atEnd >>= f).Ends s Q ↔ (f s.kinds.isEmpty).Ends s Q :=
  ends_bind_of_eq (atEnd_eq s)

@[simp]
theorem ends_nthAt_bind
    {n : Nat}
    {kind : K} :
    (nthAt n kind >>= f).Ends s Q ↔ (f (s.nth n == kind)).Ends s Q := by
  apply ends_bind_of_eq
  simp [nthAt, bind, pure, nth_eq]

@[simp]
theorem ends_at_bind
    {kind : K} :
    (at_ kind >>= f).Ends s Q ↔ (f (s.peek == kind)).Ends s Q :=
  ends_nthAt_bind

@[simp]
theorem ends_atAny_bind
    {set : KindSet K} :
    (atAny set >>= f).Ends s Q ↔ (f (set.contains s.peek)).Ends s Q := by
  apply ends_bind_of_eq
  simp [atAny, peek, bind, pure, nth_eq, Site.peek]

end Looking

end Parser
end Running

/-! ## Whole files -/

section Whole

variable {K : Type} [DecidableEq K] [Vocabulary K]

def Step.isAdvance : Step K → Bool
  | .advance => true
  | _ => false

/-- The number of leaves that a trace takes. -/
def Trace.advances (trace : Trace K) : Nat := trace.countP Step.isAdvance

omit [DecidableEq K] [Vocabulary K] in
theorem Trace.advances_append (trace rest : Trace K) :
    Trace.advances (trace ++ rest) = Trace.advances trace + Trace.advances rest :=
  List.countP_append

/-- Every step forward takes one leaf. -/
theorem Growth.length_ahead_run
    {α : Type}
    {g g' : Growth α K}
    {trace : Trace K}
    (h : g.run trace = some g') :
    g.ahead.length = g'.ahead.length + Trace.advances trace := by
  induction trace generalizing g with
  | nil =>
      obtain rfl := Option.some.inj h
      rfl
  | cons s trace ih =>
      rw [run_cons] at h
      obtain ⟨g₁, hs, h⟩ := Option.bind_eq_some_iff.mp h
      have htrace := ih h
      have hstep : g.ahead.length = g₁.ahead.length + Trace.advances [s] := by
        cases step_eq_some_iff.mp hs <;> rfl
      have hcons : Trace.advances (s :: trace) = Trace.advances [s] + Trace.advances trace :=
        Trace.advances_append [s] trace
      omega

omit [DecidableEq K] [Vocabulary K] in
theorem Trace.advances_cons_of_ne
    {step : Step K}
    (h : step = .advance → False)
    (trace : Trace K) :
    Trace.advances (step :: trace) = Trace.advances trace := by
  refine List.countP_cons_of_neg ?_
  cases step with
  | advance => exact absurd rfl h
  | _ => exact Bool.false_ne_true

omit [DecidableEq K] [Vocabulary K] in
theorem Trace.reports_cons_of_ne
    {step : Step K}
    (h : ∀ fault, step = .report fault → False)
    (trace : Trace K) :
    Trace.reports (step :: trace) = Trace.reports trace := by
  refine List.countP_cons_of_neg ?_
  cases step with
  | report fault => exact absurd rfl (h fault)
  | _ => exact Bool.false_ne_true

/-- Every fault that is reported before the tokens run out is an error. -/
theorem Trace.length_errors
    (tokens : List (Token K))
    (trace : Trace K)
    (h : Trace.advances trace < tokens.length) :
    (Trace.errors tokens trace).length = Trace.reports trace := by
  fun_induction Trace.errors tokens trace with
  | case1 => rfl
  | case2 tokens trace ih =>
      have hcons : Trace.advances (.advance :: trace) = 1 + Trace.advances trace :=
        Trace.advances_append [.advance] trace
      rw [ih (by rw [List.length_tail]; omega)]
      exact (List.countP_cons_of_neg Bool.false_ne_true).symm
  | case3 tokens fault trace ih =>
      cases tokens with
      | nil => simp at h
      | cons t tokens =>
          have hcons : Trace.reports (.report fault :: trace) = 1 + Trace.reports trace :=
            Trace.reports_append [.report fault] trace
          rw [hcons, List.length_append, ih h]
          rfl
  | case4 tokens step trace hadvance hreport ih =>
      rw [Trace.advances_cons_of_ne hadvance] at h
      rw [Trace.reports_cons_of_ne hreport, ih h]

/-- Without reports there are no errors. -/
theorem Trace.errors_eq_nil
    (tokens : List (Token K))
    (trace : Trace K)
    (h : Trace.reports trace = 0) :
    Trace.errors tokens trace = [] := by
  fun_induction Trace.errors tokens trace with
  | case1 => rfl
  | case2 tokens trace ih => exact ih h
  | case3 tokens fault trace ih =>
      have hcons : Trace.reports (.report fault :: trace) = 1 + Trace.reports trace :=
        Trace.reports_append [.report fault] trace
      omega
  | case4 tokens step trace hadvance hreport ih =>
      rw [Trace.reports_cons_of_ne hreport] at h
      exact ih h

/-- No errors are found after the last report. -/
theorem Trace.errors_append
    (tokens : List (Token K))
    (trace rest : Trace K)
    (h : Trace.reports rest = 0) :
    Trace.errors tokens (trace ++ rest) = Trace.errors tokens trace := by
  fun_induction Trace.errors tokens trace with
  | case1 tokens => exact Trace.errors_eq_nil tokens rest h
  | case2 tokens trace ih => rw [List.cons_append, Trace.errors, ih]
  | case3 tokens fault trace ih => rw [List.cons_append, Trace.errors, ih]
  | case4 tokens step trace hadvance hreport ih =>
      rw [List.cons_append, Trace.errors, ih]
      · exact hadvance
      · exact hreport

theorem Trace.severity_of_mem_errors
    {tokens : List (Token K)}
    {trace : Trace K}
    {d : Diagnostic}
    (h : d ∈ Trace.errors tokens trace) :
    d.severity = .error := by
  fun_induction Trace.errors tokens trace with
  | case1 => simp at h
  | case2 tokens trace ih => exact ih h
  | case3 tokens fault trace ih =>
      rcases List.mem_append.mp h with h | h
      · obtain ⟨t, -, rfl⟩ := Option.map_eq_some_iff.mp (Option.mem_toList.mp h)
        rfl
      · exact ih h
  | case4 tokens step trace hadvance hreport ih => exact ih h

/-- The start of a file: its lexemes, and the end of file behind them. -/
def Site.ofList (ls : List (Lexeme K)) : Site K := ⟨.ofList ls, [Vocabulary.eof], [], 0⟩

omit [DecidableEq K] [Vocabulary K] in
theorem Parser.trace_takeEnd
    {c : Cursor K}
    (h : c.rest = []) :
    ((takeEnd : Parser K Unit) c).trace = [.advance] := by
  obtain ⟨prev, rest, left, hleft⟩ := c
  cases h
  rfl

omit [DecidableEq K] [Vocabulary K] in
theorem Parser.trace_whole
    {body : Parser K Unit}
    {c : Cursor K}
    (kind : K)
    (h : (body c).cursor.rest = []) :
    (whole kind body c).trace =
      Step.start :: ((body c).trace ++ [Step.advance, Step.complete kind]) := by
  change Step.start :: ((body c).trace ++ ((takeEnd : Parser K Unit) (body c).cursor).trace ++
    [] ++ [Step.complete kind] ++ []) = _
  simp [trace_takeEnd h]

/-- If the body of a file takes all lexemes, the trace grows the node of the file,
and every report is an error. -/
theorem Parser.Ends.exists_grow?
    {body : Parser K Unit}
    {kind : K}
    {ls : List (Lexeme K)}
    {Q : Site K → Prop}
    (hkind : kind ≠ Vocabulary.tombstone)
    (h : body.Ends (.ofList ls) fun _ t => t.kinds = [] ∧ t.behind = [Vocabulary.eof] ∧ Q t) :
    ∃ t : Site K,
      Q t ∧
      Shape.grow? (ls.map Lexeme.kind ++ [Vocabulary.eof]) (whole kind body (.ofList ls)).trace =
        some (.node kind (t.children.reverse ++ [Shape.leaf Vocabulary.eof])) ∧
      ∀ tokens : List (Token K), tokens.length = ls.length + 1 →
        (Trace.errors tokens (whole kind body (.ofList ls)).trace).length = t.reports := by
  obtain ⟨t, hcursor, hleads, hkinds, hbehind, hq⟩ := h
  have hrest : (body (.ofList ls)).cursor.rest = [] := by
    rw [← Site.rest_eq_nil_iff, hcursor] at hkinds
    exact hkinds
  have htrace := trace_whole kind hrest
  have hahead : t.ahead = [Vocabulary.eof] := by
    rw [Site.ahead, hkinds, hbehind]
    rfl
  have hrun := hleads.run none []
  rw [hahead] at hrun
  change Growth.run ⟨ls.map Lexeme.kind ++ [Vocabulary.eof], .growing .empty []⟩
    (body (.ofList ls)).trace = _ at hrun
  refine ⟨t, hq, ?_, ?_⟩
  · rw [htrace, Shape.grow?_eq_some_iff, Growth.run_cons, Growth.step, Option.bind_some]
    rw [Growth.run_append, hrun]
    simp only [Option.bind_some, Growth.run_cons, Growth.step, if_neg hkind, Growth.run_nil]
    simp [Bed.close, Bed.shapes, Bed.add]
  · intro tokens htokens
    have hadvances := Growth.length_ahead_run hrun
    have hcons : Trace.advances (.start :: (body (.ofList ls)).trace) =
        Trace.advances (body (.ofList ls)).trace := List.countP_cons_of_neg Bool.false_ne_true
    rw [htrace, ← List.cons_append, Trace.errors_append _ _ _ rfl, Trace.length_errors]
    · have hreports : t.reports = 0 + Trace.reports (body (.ofList ls)).trace := hleads.reports
      rw [hreports, Nat.zero_add]
      exact List.countP_cons_of_neg Bool.false_ne_true
    · simp only [List.length_append, List.length_map, List.length_singleton] at hadvances
      omega

end Whole
end ZigCst
