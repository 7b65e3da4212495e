import ZigCst.Proofs.Closing
import ZigCst.Proofs.ZigSteady

/-!
# What may follow a closing brace

A closing brace ends a block, but not always the expression that the block belongs to:
operators, suffixes and initializers may still follow.  Where nothing of that kind
follows, an expression that was parsed without a fault and ends with a brace is parsed
in the same way whatever else comes behind it.

Parts of the grammar that stand last in a construct either insist on taking something,
or are silent unless a lexeme follows that continues the expression.  In front of a
part that insists it is enough to be steady, because then a brace is taken later on.

**Definitions.**
* `continues`, `Inert`: lexemes that go on with an expression, and streams that do not.
* `Lands`: runs that end with a brace are in step on inert streams.
* `Settles`: so are runs that take nothing.
* `Presses`: nothing is never taken.

**Results.**  The rules for `Lands`, `Settles` and `Presses` follow the combinators.
* `Lands.bind`, `Settles.bind`: what is silent may follow.
* `presses_bind`: in front of a part that insists it is enough to be steady.
* `settles_iterate`: a loop whose turns settle settles.
-/

namespace ZigCst
namespace Zig

open ZigCst.Parser

/-- Whether lexemes of two kinds go on with an expression that ends with a brace. -/
def continues (kind next : Kind) : Bool :=
  (precedence? kind).isSome || kind.isAssignment ||
    match kind with
    | .elseKw | .leftBrace | .leftParen | .leftBracket | .dotStar | .bang => true
    | .dot => next == .identifier || next == .question
    | _ => false

theorem precedence?_of_inert
    {kind next : Kind}
    (h : continues kind next = false) :
    precedence? kind = none := by
  unfold continues at h
  simp only [Bool.or_eq_false_iff] at h
  exact Option.not_isSome_iff_eq_none.mp (by simp [h.1.1])

theorem isAssignment_of_inert
    {kind next : Kind}
    (h : continues kind next = false) :
    kind.isAssignment = false := by
  unfold continues at h
  simp only [Bool.or_eq_false_iff] at h
  exact h.1.2

/-- Whether something is ahead that does not go on with an expression. -/
def Inert (ls : List (Lexeme Kind)) : Prop :=
  ls ≠ [] ∧ continues (kindAt 0 ls) (kindAt 1 ls) = false

/-- Whether the last of some lexemes is a closing brace. -/
def Braced (taken : List (Lexeme Kind)) : Prop :=
  ∃ z, taken.getLast? = some z ∧ z.kind = .rightBrace

theorem not_braced_nil : ¬ Braced [] := by
  rintro ⟨z, hz, -⟩
  cases hz

/-- What comes last decides, if there is something. -/
theorem Braced.right
    {first second : List (Lexeme Kind)}
    (h : Braced (first ++ second))
    (hsecond : second ≠ []) :
    Braced second := by
  obtain ⟨z, hz, hbrace⟩ := h
  obtain ⟨w, hw⟩ := Option.isSome_iff_exists.mp (List.getLast?_isSome.mpr hsecond)
  rw [List.getLast?_append, hw] at hz
  exact ⟨z, hw.trans hz, hbrace⟩

/-- A brace is a stop. -/
theorem Braced.agreeTo
    {taken : List (Lexeme Kind)}
    (h : Braced taken)
    (x y : List (Lexeme Kind)) :
    AgreeTo IsStop (taken ++ x) (taken ++ y) := by
  obtain ⟨z, hz, hbrace⟩ := h
  exact AgreeTo.of_getLast? hz (.inr (.inr hbrace)) x y

section Rules

variable {α β σ : Type} {p : Parser Kind α} {f : α → Parser Kind β}

/-- Whether runs without reports that end with a brace are in step on inert streams. -/
structure Lands (p : Parser Kind α) : Prop where
  steady : p.Steady IsStop
  inStep : ∀ {c d : Cursor Kind} {taken y : List (Lexeme Kind)}, c.Takes taken (p c).cursor →
    Trace.reports (p c).trace = 0 → Braced taken → Inert (p c).cursor.rest → Inert y →
    d.rest = taken ++ y → p.InStep c d taken

/-- Whether runs without reports that take nothing or end with a brace are in step on
inert streams. -/
structure Settles (p : Parser Kind α) : Prop where
  steady : p.Steady IsStop
  inStep : ∀ {c d : Cursor Kind} {taken y : List (Lexeme Kind)}, c.Takes taken (p c).cursor →
    Trace.reports (p c).trace = 0 → taken = [] ∨ Braced taken → Inert (p c).cursor.rest →
    Inert y → d.rest = taken ++ y → p.InStep c d taken

/-- Whether runs without reports take something from an inert stream, and are in step on
inert streams if they end with a brace. -/
structure Presses (p : Parser Kind α) : Prop extends Lands p where
  takes : ∀ {c : Cursor Kind}, Inert c.rest → Trace.reports (p c).trace = 0 →
    (p c).cursor.left < c.left

/-- Whether no run without reports ends with a brace. -/
def Shuns (p : Parser Kind α) : Prop :=
  ∀ (c : Cursor Kind) (taken : List (Lexeme Kind)), c.Takes taken (p c).cursor →
    Trace.reports (p c).trace = 0 → ¬ Braced taken

theorem Settles.lands (h : Settles p) : Lands p :=
  ⟨h.steady, fun htakes hquiet hbrace => h.inStep htakes hquiet (.inr hbrace)⟩

theorem Presses.settles (h : Presses p) : Settles p := by
  refine ⟨h.steady, fun {c d taken y} htakes hquiet hend hx hy hd => ?_⟩
  rcases hend with rfl | hbrace
  · have hrest : c.rest = (p c).cursor.rest := htakes.rest
    exact absurd (h.takes (hrest ▸ hx) hquiet) (fun hleft => htakes.left_lt_iff.mp hleft rfl)
  · exact h.inStep htakes hquiet hbrace hx hy hd

theorem Shuns.lands
    (h : Shuns p)
    (hsteady : p.Steady IsStop) :
    Lands p :=
  ⟨hsteady, fun htakes hquiet hbrace => absurd hbrace (h _ _ htakes hquiet)⟩

/-- A parser that reports something is never asked. -/
theorem presses_of_faults
    (h : p.Faults)
    (hsteady : p.Steady IsStop) :
    Presses p where
  steady := hsteady
  inStep {c _ _ _} _ hquiet := absurd hquiet (h.reports_ne_zero c)
  takes {c} _ hquiet := absurd hquiet (h.reports_ne_zero c)

/-! ## Sequences -/

/-- The part behind is in step, and so is the part in front if something follows it. -/
theorem inStep_bind_of_ne_nil
    (hp : p.Steady IsStop)
    {c d : Cursor Kind}
    {first second y : List (Lexeme Kind)}
    (hfirst : c.Takes first (p c).cursor)
    (hsecond : (p c).cursor.Takes second (f (p c).value (p c).cursor).cursor)
    (hbrace : Braced second)
    (hd : d.rest = first ++ (second ++ y))
    (hf : ∀ d' : Cursor Kind, d'.rest = second ++ y →
      (f (p c).value).InStep (p c).cursor d' second) :
    (p >>= f).InStep c d (first ++ second) := by
  have hstep : p.InStep c d first := by
    refine hp.inStep hfirst hd ?_
    rw [hsecond.rest]
    exact hbrace.agreeTo _ y
  exact hstep.bind (hf _ (hstep.rest_eq hd))

/-- What is silent may follow. -/
theorem Lands.bind
    (hp : Lands p)
    (hf : ∀ a, Settles (f a)) :
    Lands (p >>= f) := by
  have hforward := fun a => (hf a).steady.forward
  refine ⟨hp.steady.bind fun a => (hf a).steady, fun {c d taken y} htakes hquiet hbrace hx hy hd => ?_⟩
  obtain ⟨first, second, rfl, hfirst, hsecond⟩ := hp.steady.forward.exists_takes hforward htakes
  obtain ⟨hquiet₁, hquiet₂⟩ := reports_bind hquiet
  rw [List.append_assoc] at hd
  by_cases hnil : second = []
  · subst hnil
    have hrest : (p c).cursor.rest = (f (p c).value (p c).cursor).cursor.rest := hsecond.rest
    have hstep : p.InStep c d first :=
      hp.inStep hfirst hquiet₁ (by rwa [List.append_nil] at hbrace) (hrest ▸ hx) hy hd
    exact hstep.bind ((hf _).inStep hsecond hquiet₂ (.inl rfl) hx hy (hstep.rest_eq hd))
  · have hbrace' := hbrace.right hnil
    exact inStep_bind_of_ne_nil hp.steady hfirst hsecond hbrace' hd fun d' hd' =>
      (hf _).inStep hsecond hquiet₂ (.inr hbrace') hx hy hd'

theorem Settles.bind
    (hp : Settles p)
    (hf : ∀ a, Settles (f a)) :
    Settles (p >>= f) := by
  have hforward := fun a => (hf a).steady.forward
  refine ⟨hp.steady.bind fun a => (hf a).steady, fun {c d taken y} htakes hquiet hend hx hy hd => ?_⟩
  rcases hend with rfl | hbrace
  · obtain ⟨first, second, hboth, hfirst, hsecond⟩ := hp.steady.forward.exists_takes hforward htakes
    obtain ⟨rfl, rfl⟩ := List.append_eq_nil_iff.mp hboth.symm
    have hrest : (p c).cursor.rest = (f (p c).value (p c).cursor).cursor.rest := hsecond.rest
    obtain ⟨hquiet₁, hquiet₂⟩ := reports_bind hquiet
    have hstep := hp.inStep hfirst hquiet₁ (.inl rfl) (hrest ▸ hx) hy hd
    exact hstep.bind ((hf _).inStep hsecond hquiet₂ (.inl rfl) hx hy (hstep.rest_eq hd))
  · exact (hp.lands.bind hf).inStep htakes hquiet hbrace hx hy hd

/-- In front of a part that insists it is enough to be steady. -/
theorem presses_bind
    (hp : p.Steady IsStop)
    (hf : ∀ a, Presses (f a)) :
    Presses (p >>= f) := by
  have hforward := fun a => (hf a).steady.forward
  have hsteady := hp.bind fun a => (hf a).steady
  refine ⟨⟨hsteady, fun {c d taken y} htakes hquiet hbrace hx hy hd => ?_⟩, fun {c} hc hquiet => ?_⟩
  · obtain ⟨first, second, rfl, hfirst, hsecond⟩ := hp.forward.exists_takes hforward htakes
    have hquiet₂ := (reports_bind hquiet).2
    rw [List.append_assoc] at hd
    have hne : second ≠ [] := by
      rintro rfl
      have hrest : (p c).cursor.rest = (f (p c).value (p c).cursor).cursor.rest := hsecond.rest
      exact hsecond.left_lt_iff.mp ((hf _).takes (hrest ▸ hx) hquiet₂) rfl
    have hbrace' := hbrace.right hne
    exact inStep_bind_of_ne_nil hp hfirst hsecond hbrace' hd fun d' hd' =>
      (hf _).inStep hsecond hquiet₂ hbrace' hx hy hd'
  · obtain ⟨first, hfirst⟩ := hp.forward c
    by_cases hnil : first = []
    · subst hnil
      have hrest : c.rest = (p c).cursor.rest := hfirst.rest
      have hleft : c.left = 0 + (p c).cursor.left := hfirst.left_eq
      have htaken := (hf _).takes (hrest ▸ hc) (reports_bind hquiet).2
      rw [hleft, Nat.zero_add]
      exact htaken
    · exact left_bind_lt (hfirst.left_lt_iff.mpr hnil) hforward

theorem presses_seq
    {q : Parser Kind β}
    (hp : p.Steady IsStop)
    (hq : Presses q) :
    Presses (p >>= fun _ => q) :=
  presses_bind hp fun _ => hq

theorem Presses.bind
    (hp : Presses p)
    (hf : ∀ a, Settles (f a)) :
    Presses (p >>= f) :=
  ⟨hp.toLands.bind hf, fun hc hquiet =>
    left_bind_lt (hp.takes hc (reports_bind hquiet).1) fun a => (hf a).steady.forward⟩

/-- What never ends with a brace may stand in front of everything. -/
theorem Shuns.bind_lands
    (hp : Shuns p)
    (hsteady : p.Steady IsStop)
    (hf : ∀ a, Lands (f a)) :
    Lands (p >>= f) := by
  have hforward := fun a => (hf a).steady.forward
  refine ⟨hsteady.bind fun a => (hf a).steady, fun {c d taken y} htakes hquiet hbrace hx hy hd => ?_⟩
  obtain ⟨first, second, rfl, hfirst, hsecond⟩ := hsteady.forward.exists_takes hforward htakes
  obtain ⟨hquiet₁, hquiet₂⟩ := reports_bind hquiet
  rw [List.append_assoc] at hd
  have hne : second ≠ [] := by
    rintro rfl
    exact hp _ _ hfirst hquiet₁ (by rwa [List.append_nil] at hbrace)
  have hbrace' := hbrace.right hne
  exact inStep_bind_of_ne_nil hsteady hfirst hsecond hbrace' hd fun d' hd' =>
    (hf _).inStep hsecond hquiet₂ hbrace' hx hy hd'

/-- What is done around a parser without moving changes nothing. -/
theorem Shuns.of_cursor_eq
    {q : Parser Kind β}
    (h : Shuns p)
    (hcursor : ∀ c, (q c).cursor = (p c).cursor)
    (hquiet : ∀ c, Trace.reports (q c).trace = 0 → Trace.reports (p c).trace = 0) :
    Shuns q :=
  fun c taken htakes hreports => h c taken (hcursor c ▸ htakes) (hquiet c hreports)

/-- What is taken last is no brace. -/
theorem shuns_bind
    (hp : p.Steady IsStop)
    (hsteady : ∀ a, (f a).Steady IsStop)
    (hf : ∀ a, Shuns (f a))
    (htakes : ∀ (a : α) (c : Cursor Kind), Trace.reports (f a c).trace = 0 →
      (f a c).cursor.left < c.left) :
    Shuns (p >>= f) := by
  intro c taken htaken hquiet hbrace
  obtain ⟨first, second, rfl, -, hsecond⟩ :=
    hp.forward.exists_takes (fun a => (hsteady a).forward) htaken
  have hquiet₂ := (reports_bind hquiet).2
  have hne : second ≠ [] := hsecond.left_lt_iff.mp (htakes _ _ hquiet₂)
  exact hf _ _ _ hsecond hquiet₂ (hbrace.right hne)

/-! ## Primitive parsers and nodes -/

theorem Lands.ite
    {holds : Bool}
    {q : Parser Kind α}
    (hp : Lands p)
    (hq : Lands q) :
    Lands (if holds then p else q) := by
  cases holds
  · exact hq
  · exact hp

theorem Settles.ite
    {holds : Bool}
    {q : Parser Kind α}
    (hp : Settles p)
    (hq : Settles q) :
    Settles (if holds then p else q) := by
  cases holds
  · exact hq
  · exact hp

theorem Presses.ite
    {holds : Bool}
    {q : Parser Kind α}
    (hp : Presses p)
    (hq : Presses q) :
    Presses (if holds then p else q) := by
  cases holds
  · exact hq
  · exact hp

/-- A parser that neither looks nor moves is silent. -/
theorem settles_of_still
    (h : p.Still)
    (hsteady : p.Steady IsStop) :
    Settles p := by
  obtain ⟨a, trace, hrun⟩ := h
  refine ⟨hsteady, fun {c d taken y} htakes _ _ _ _ _ => ?_⟩
  rw [hrun] at htakes
  obtain rfl := htakes.unique (.refl c)
  constructor
  · rw [hrun, hrun]
  · rw [hrun, hrun]
  · rw [hrun]
    exact .refl d

theorem settles_pure (a : α) : Settles (pure a : Parser Kind α) :=
  settles_of_still (still_pure a) (steady_pure a)

theorem settles_complete (kind : Kind) :
    Settles (do emit (.complete kind); return kind : Parser Kind Kind) :=
  settles_of_still (still_complete kind) ((steady_emit _).seq (steady_pure kind))

theorem presses_report (fault : Fault Kind) : Presses (report fault) :=
  presses_of_faults (faults_report fault) (steady_report fault)

theorem shuns_emit (s : Step Kind) : Shuns (emit s) := by
  intro c taken htakes _ hbrace
  obtain rfl := htakes.unique (.refl c)
  exact not_braced_nil hbrace

theorem presses_advance : Presses (advance : Parser Kind Unit) := by
  refine ⟨⟨steady_advance, fun {c d taken y} htakes _ hbrace _ _ hd => ?_⟩, fun {c} hc _ => ?_⟩
  · cases hrest : c.rest with
    | nil =>
        rw [advance_of_nil hrest] at htakes
        obtain rfl := htakes.unique (.refl c)
        exact absurd hbrace not_braced_nil
    | cons l rest =>
        rw [advance_of_cons hrest] at htakes
        obtain rfl := htakes.unique (.next hrest)
        constructor
        · rfl
        · rw [advance_of_cons hrest, advance_of_cons hd]
        · exact advance_of_cons hd ▸ .next hd
  · obtain ⟨l, rest, hrest⟩ := List.exists_cons_of_ne_nil hc.1
    rw [advance_of_cons hrest, (Cursor.Takes.next hrest).left_lt_iff]
    exact List.cons_ne_nil _ _

theorem Presses.discard (h : Presses p) : Presses (discard p : Parser Kind Unit) :=
  h.bind fun _ => settles_pure ()

theorem Lands.nodeOf
    {body : Parser Kind Kind}
    (h : Lands body) :
    Lands (nodeOf body) :=
  (shuns_emit _).bind_lands (steady_emit _) fun _ => h.bind settles_complete

theorem Presses.nodeOf
    {body : Parser Kind Kind}
    (h : Presses body) :
    Presses (nodeOf body) :=
  presses_bind (steady_emit _) fun _ => h.bind settles_complete

theorem Lands.node
    {kind : Kind}
    {body : Parser Kind Unit}
    (h : Lands body) :
    Lands (node kind body) :=
  Lands.nodeOf (h.bind fun _ => settles_pure kind)

theorem Presses.node
    {kind : Kind}
    {body : Parser Kind Unit}
    (h : Presses body) :
    Presses (node kind body) :=
  Presses.nodeOf (h.bind fun _ => settles_pure kind)

theorem Presses.wrapOf
    {body : Parser Kind Kind}
    (h : Presses body) :
    Presses (wrapOf body) :=
  presses_bind (steady_emit _) fun _ => h.bind settles_complete

theorem Presses.wrap
    {kind : Kind}
    {body : Parser Kind Unit}
    (h : Presses body) :
    Presses (wrap kind body) :=
  Presses.wrapOf (h.bind fun _ => settles_pure kind)

theorem presses_expect
    {kind : Kind}
    (hkind : kind ≠ .eof) :
    Presses (expect kind) := by
  have htaken : ∀ {c : Cursor Kind}, Trace.reports ((expect kind : Parser Kind Unit) c).trace = 0 →
      ∃ l rest, c.rest = l :: rest ∧ l.kind = kind ∧
        (expect kind : Parser Kind Unit) c = ⟨(), c.next, [.advance]⟩ := by
    intro c hquiet
    obtain ⟨l, rest, hc, hl⟩ := exists_rest_of_expect hkind hquiet
    exact ⟨l, rest, hc, hl, expect_of_cons hc hl⟩
  refine ⟨⟨steady_expect _, fun {c d taken y} htakes hquiet _ _ _ hd => ?_⟩, fun {c} _ hquiet => ?_⟩
  · obtain ⟨l, rest, hc, hl, hrun⟩ := htaken hquiet
    rw [hrun] at htakes
    obtain rfl := htakes.unique (.next hc)
    have hrun' := expect_of_cons hd hl
    constructor
    · rw [hrun, hrun']
    · rw [hrun, hrun']
    · rw [hrun']
      exact .next hd
  · obtain ⟨l, rest, hc, -, hrun⟩ := htaken hquiet
    rw [hrun, (Cursor.Takes.next hc).left_lt_iff]
    exact List.cons_ne_nil _ _

/-! ## Looking ahead -/

section Looking

variable (look : List (Lexeme Kind) → Parser Kind α) (hp : ∀ c, p c = look c.rest c)
include hp

/-- Where the same is ahead, the same is done. -/
theorem inStep_of_look
    {c d : Cursor Kind}
    {taken : List (Lexeme Kind)}
    (hsame : look c.rest = look d.rest)
    (h : (look c.rest).InStep c d taken) :
    p.InStep c d taken := by
  constructor
  · rw [hp, hp, ← hsame]
    exact h.value
  · rw [hp, hp, ← hsame]
    exact h.trace
  · rw [hp, ← hsame]
    exact h.takes

variable (hagree : ∀ x y, AgreeTo IsStop x y → look x = look y)
include hagree

theorem lands_of_look (hlook : ∀ x, Lands (look x)) : Lands p := by
  refine ⟨steady_of_look look hp (fun x => (hlook x).steady) hagree,
    fun {c d taken y} htakes hquiet hbrace hx hy hd => ?_⟩
  rw [hp] at htakes hquiet hx
  have hsame : look c.rest = look d.rest := by
    rw [htakes.rest, hd]
    exact hagree _ _ (hbrace.agreeTo _ y)
  exact inStep_of_look look hp hsame ((hlook _).inStep htakes hquiet hbrace hx hy hd)

theorem presses_of_look (hlook : ∀ x, Presses (look x)) : Presses p := by
  refine ⟨lands_of_look look hp hagree fun x => (hlook x).toLands, fun {c} hc hquiet => ?_⟩
  rw [hp] at hquiet ⊢
  exact (hlook _).takes hc hquiet

/-- What is done on inert streams is the same on all of them. -/
theorem settles_of_look
    (hlook : ∀ x, Settles (look x))
    (hinert : ∀ x y, Inert x → Inert y → look x = look y) :
    Settles p := by
  have hlands := lands_of_look look hp hagree fun x => (hlook x).lands
  refine ⟨hlands.steady, fun {c d taken y} htakes hquiet hend hx hy hd => ?_⟩
  rcases hend with rfl | hbrace
  · rw [hp] at htakes hquiet hx
    have hrest : c.rest = (look c.rest c).cursor.rest := htakes.rest
    have hsame : look c.rest = look d.rest := by
      refine hinert _ _ (hrest ▸ hx) ?_
      rw [hd]
      exact hy
    exact inStep_of_look look hp hsame
      ((hlook _).inStep htakes hquiet (.inl rfl) hx hy hd)
  · exact hlands.inStep htakes hquiet hbrace hx hy hd

end Looking

/-- A lexeme that continues an expression is not ahead on an inert stream. -/
theorem Inert.kindAt_ne
    {ls : List (Lexeme Kind)}
    {kind : Kind}
    (h : Inert ls)
    (hkind : ∀ next, continues kind next = true) :
    kindAt 0 ls ≠ kind := by
  rintro rfl
  have hnot := h.2
  rw [hkind] at hnot
  exact absurd hnot (by decide)

/-- The next lexeme decides, and all that are inert decide alike. -/
theorem settles_peek_bind
    {f : Kind → Parser Kind α}
    (q : Parser Kind α)
    (hf : ∀ kind, Settles (f kind))
    (hinert : ∀ kind next, continues kind next = false → f kind = q) :
    Settles (peek >>= f) :=
  settles_of_look (fun ls => f (kindAt 0 ls)) (fun _ => rfl)
    (fun _ _ h => by rw [kindAt_zero_eq h]) (fun _ => hf _)
    fun _ _ hx hy => (hinert _ _ hx.2).trans (hinert _ _ hy.2).symm

section Two

variable {f : Kind → Kind → Parser Kind α}
  (hstop : ∀ kind, IsStop kind → ∀ next next', f kind next = f kind next')
include hstop

/-- Streams that agree to a stop decide alike by two lexemes. -/
theorem two_ahead_eq
    {x y : List (Lexeme Kind)}
    (h : AgreeTo IsStop x y) :
    f (kindAt 0 x) (kindAt 1 x) = f (kindAt 0 y) (kindAt 1 y) := by
  rw [← kindAt_zero_eq h]
  by_cases hzero : IsStop (kindAt 0 x)
  · exact hstop _ hzero _ _
  · rw [kindAt_one_eq h hzero]

theorem lands_peek_nth_bind (hf : ∀ kind next, Lands (f kind next)) :
    Lands (peek >>= fun kind => nth 1 >>= fun next => f kind next) :=
  lands_of_look (fun ls => f (kindAt 0 ls) (kindAt 1 ls)) (fun _ => rfl)
    (fun _ _ => two_ahead_eq hstop) fun _ => hf _ _

theorem settles_peek_nth_bind
    (q : Parser Kind α)
    (hf : ∀ kind next, Settles (f kind next))
    (hinert : ∀ kind next, continues kind next = false → f kind next = q) :
    Settles (peek >>= fun kind => nth 1 >>= fun next => f kind next) :=
  settles_of_look (fun ls => f (kindAt 0 ls) (kindAt 1 ls)) (fun _ => rfl)
    (fun _ _ => two_ahead_eq hstop) (fun _ => hf _ _)
    fun _ _ hx hy => (hinert _ _ hx.2).trans (hinert _ _ hy.2).symm

end Two

section Deciding

variable {kind : Kind} {q : Parser Kind α}

theorem presses_at_bind
    (hp : Presses p)
    (hq : Presses q) :
    Presses (at_ kind >>= fun found => if found then p else q) :=
  presses_of_look (fun ls => if kindAt 0 ls == kind then p else q) (fun _ => rfl)
    (fun _ _ h => by rw [kindAt_zero_eq h]) fun _ => Presses.ite hp hq

/-- A part that is there only behind a lexeme that continues the expression. -/
theorem settles_at_bind
    (hkind : ∀ next, continues kind next = true)
    (hp : Settles p)
    (hq : Settles q) :
    Settles (at_ kind >>= fun found => if found then p else q) := by
  refine settles_of_look (fun ls => if kindAt 0 ls == kind then p else q) (fun _ => rfl)
    (fun _ _ h => by rw [kindAt_zero_eq h]) (fun _ => Settles.ite hp hq) fun x y hx hy => ?_
  rw [beq_eq_false_iff_ne.mpr (hx.kindAt_ne hkind), beq_eq_false_iff_ne.mpr (hy.kindAt_ne hkind)]

end Deciding

/-! ## Loops -/

/-- Turns that settle are in step on inert streams. -/
theorem inStep_iterate_of_settles
    {body : σ → Parser Kind (Bool × σ)}
    (h : ∀ v, Settles (body v))
    (v : σ)
    {c d : Cursor Kind}
    {taken y : List (Lexeme Kind)}
    (htakes : c.Takes taken (iterate body v c).cursor)
    (hquiet : Trace.reports (iterate body v c).trace = 0)
    (hend : taken = [] ∨ Braced taken)
    (hx : Inert (iterate body v c).cursor.rest)
    (hy : Inert y)
    (hd : d.rest = taken ++ y) :
    (iterate body v).InStep c d taken := by
  cases hvalue : (body v c).value.1 with
  | false =>
      rw [iterate_last hvalue] at htakes hquiet hx
      exact ((h v).inStep htakes hquiet hend hx hy hd).iterate_last hvalue
  | true =>
      by_cases hleft : (body v c).cursor.left < c.left
      · obtain ⟨first, hfirst⟩ := (h v).steady.forward c
        obtain ⟨second, hsecond⟩ :=
          exists_takes_iterate (fun v => (h v).steady) (body v c).value.2 (body v c).cursor
        rw [iterate_again hvalue hleft] at htakes hquiet hx
        obtain rfl := htakes.unique (hfirst.trans hsecond)
        rw [Trace.reports_append] at hquiet
        rw [List.append_assoc] at hd
        by_cases hnil : second = []
        · subst hnil
          have hrest : (body v c).cursor.rest = _ := hsecond.rest
          rw [List.append_nil] at hend
          have hstep := (h v).inStep hfirst (by omega) hend (hrest ▸ hx) hy hd
          exact hstep.iterate_again hfirst hvalue hleft
            (inStep_iterate_of_settles h _ hsecond (by omega) (.inl rfl) hx hy (hstep.rest_eq hd))
        · have hbrace := (hend.resolve_left (by simp [hnil])).right hnil
          have hstep : (body v).InStep c d first := by
            refine (h v).steady.inStep hfirst hd ?_
            rw [hsecond.rest]
            exact hbrace.agreeTo _ y
          exact hstep.iterate_again hfirst hvalue hleft
            (inStep_iterate_of_settles h _ hsecond (by omega) (.inr hbrace) hx hy (hstep.rest_eq hd))
      · rw [iterate_stuck hvalue hleft] at htakes hquiet hx
        rw [Trace.reports_append] at hquiet
        exact ((h v).inStep htakes (by omega) hend hx hy hd).iterate_stuck htakes hvalue hleft
termination_by c.left

theorem settles_iterate
    {body : σ → Parser Kind (Bool × σ)}
    (h : ∀ v, Settles (body v))
    (v : σ) :
    Settles (iterate body v) :=
  ⟨steady_iterate (fun v => (h v).steady) v, inStep_iterate_of_settles h v⟩

/-! ## Constructs that start with a lexeme of a kind -/

/-- Whether runs that start with a lexeme of a kind and end with a brace are in step on
inert streams. -/
structure LandsFrom (kind : Kind) (p : Parser Kind α) : Prop where
  steady : p.Steady IsStop
  inStep : ∀ {c d : Cursor Kind} {taken y : List (Lexeme Kind)}, kindAt 0 c.rest = kind →
    c.Takes taken (p c).cursor → Trace.reports (p c).trace = 0 → Braced taken →
    Inert (p c).cursor.rest → Inert y → d.rest = taken ++ y → p.InStep c d taken

theorem Lands.from
    (h : Lands p)
    (kind : Kind) :
    LandsFrom kind p :=
  ⟨h.steady, fun _ => h.inStep⟩

/-- The lexeme at the start is no brace, so something behind it is taken. -/
theorem landsFrom_advance_bind
    {kind : Kind}
    {q : Parser Kind α}
    (hkind : kind ≠ .rightBrace)
    (hq : Lands q) :
    LandsFrom kind (advance >>= fun _ => q) := by
  have hadvance : (advance : Parser Kind Unit).Steady IsStop := steady_advance
  refine ⟨hadvance.seq hq.steady, fun {c d taken y} hstart htakes hquiet hbrace hx hy hd => ?_⟩
  obtain ⟨first, second, rfl, hfirst, hsecond⟩ :=
    hadvance.forward.exists_takes (fun _ => hq.steady.forward) htakes
  rw [List.append_assoc] at hd
  have hne : second ≠ [] := by
    rintro rfl
    rw [List.append_nil] at hbrace
    cases hrest : c.rest with
    | nil =>
        rw [advance_of_nil hrest] at hfirst
        obtain rfl := hfirst.unique (.refl c)
        exact not_braced_nil hbrace
    | cons l rest =>
        rw [advance_of_cons hrest] at hfirst
        obtain rfl := hfirst.unique (.next hrest)
        obtain ⟨z, hz, hzbrace⟩ := hbrace
        obtain rfl : l = z := Option.some.inj hz
        rw [hrest] at hstart
        exact hkind (hstart.symm.trans hzbrace)
  have hbrace' := hbrace.right hne
  exact inStep_bind_of_ne_nil hadvance hfirst hsecond hbrace' hd fun d' hd' =>
    hq.inStep hsecond (reports_bind hquiet).2 hbrace' hx hy hd'

/-- A node is in step if what is in it is. -/
theorem InStep.some_node
    {kind : Kind}
    {body : Parser Kind Unit}
    {c d : Cursor Kind}
    {taken : List (Lexeme Kind)}
    (h : body.InStep c d taken) :
    (do return some (← node kind body) : NodeParser).InStep c d taken := by
  have htrace : ∀ c : Cursor Kind, ((do return some (← node kind body) : NodeParser) c).trace =
      .start :: ((body c).trace ++ [] ++ [Step.complete kind]) ++ [] := fun _ => rfl
  refine ⟨rfl, ?_, h.takes⟩
  rw [htrace, htrace, h.trace]

theorem LandsFrom.some_node
    {start kind : Kind}
    {body : Parser Kind Unit}
    (h : LandsFrom start body) :
    LandsFrom start (do return some (← node kind body)) := by
  refine ⟨(Steady.node h.steady).bind fun _ => steady_pure _,
    fun {c d taken y} hstart htakes hquiet hbrace hx hy hd => ?_⟩
  have hbody := (reports_bind (reports_bind (reports_bind hquiet).1).2).1
  exact InStep.some_node (h.inStep hstart htakes (reports_bind hbody).1 hbrace hx hy hd)

theorem lands_peek_bind
    {f : Kind → Parser Kind α}
    (hf : ∀ kind, LandsFrom kind (f kind)) :
    Lands (peek >>= f) := by
  refine ⟨steady_peek.bind fun kind => (hf kind).steady,
    fun {c d taken y} htakes hquiet hbrace hx hy hd => ?_⟩
  have hsame : kindAt 0 c.rest = kindAt 0 d.rest := by
    rw [htakes.rest, hd]
    exact kindAt_zero_eq (hbrace.agreeTo _ y)
  have hstep := (hf (kindAt 0 c.rest)).inStep rfl htakes hquiet hbrace hx hy hd
  have hrun : (peek >>= f) d = f (kindAt 0 c.rest) d := by
    rw [hsame]
    rfl
  exact ⟨hrun ▸ hstep.value, hrun ▸ hstep.trace, hrun ▸ hstep.takes⟩

end Rules

end Zig
end ZigCst
