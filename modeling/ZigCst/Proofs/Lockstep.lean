import ZigCst.Proofs.Exact

/-!
# Two runs in step

A parser looks only a few lexemes ahead.  Where two streams agree as far as it
looks, its runs on them are in step: they give the same value, leave the same trace
and take the same lexemes.  How far it looks is bounded by stops, kinds of lexemes
behind which nothing can change what the parser does before them.

**Definitions.**
* `Cursor.Takes`: some lexemes lie between two cursors.
* `AgreeTo`: two streams are equal, or equal up to and including a stop.
* `Parser.InStep`: a run is in step with another one.
* `Parser.Steady`: runs are in step on streams that agree to a stop behind what was
  taken.

**Results.**  Steadiness is closed under the combinators, and the primitive parsers
are steady, error recovery included.
-/

namespace ZigCst

section Taking

variable {K : Type}

/-- Whether a cursor is reached from another one by taking some lexemes. -/
structure Cursor.Takes (c : Cursor K) (taken : List (Lexeme K)) (c' : Cursor K) : Prop where
  rest : c.rest = taken ++ c'.rest
  prev : c'.prev = (taken.getLast?.map Lexeme.kind).or c.prev

namespace Cursor.Takes

theorem refl (c : Cursor K) : c.Takes [] c := ⟨rfl, rfl⟩

theorem trans
    {c c' c'' : Cursor K}
    {taken taken' : List (Lexeme K)}
    (h : c.Takes taken c')
    (h' : c'.Takes taken' c'') :
    c.Takes (taken ++ taken') c'' where
  rest := by rw [h.rest, h'.rest, List.append_assoc]
  prev := by
    rw [h'.prev, h.prev, List.getLast?_append]
    cases taken'.getLast? <;> rfl

/-- What was taken is known from the cursors. -/
theorem unique
    {c c' : Cursor K}
    {taken taken' : List (Lexeme K)}
    (h : c.Takes taken c')
    (h' : c.Takes taken' c') :
    taken = taken' :=
  List.append_cancel_right (h.rest.symm.trans h'.rest)

theorem left_eq
    {c c' : Cursor K}
    {taken : List (Lexeme K)}
    (h : c.Takes taken c') :
    c.left = taken.length + c'.left := by
  rw [c.left_eq, c'.left_eq, h.rest, List.length_append]

/-- Something was taken exactly if less is left. -/
theorem left_lt_iff
    {c c' : Cursor K}
    {taken : List (Lexeme K)}
    (h : c.Takes taken c') :
    c'.left < c.left ↔ taken ≠ [] := by
  rw [h.left_eq, ← List.length_pos_iff]
  omega

/-- Where nothing is left, everything was taken. -/
theorem eq_of_rest_nil
    {ls taken : List (Lexeme K)}
    {c' : Cursor K}
    (h : (ofList ls).Takes taken c')
    (hend : c'.rest = []) :
    ls = taken := by
  have hrest := h.rest
  rwa [hend, List.append_nil] at hrest

theorem next
    {c : Cursor K}
    {l : Lexeme K}
    {rest : List (Lexeme K)}
    (h : c.rest = l :: rest) :
    c.Takes [l] c.next := by
  obtain ⟨prev, rest', left, hleft⟩ := c
  cases h
  exact ⟨rfl, rfl⟩

end Cursor.Takes

/-- What is left is known by the number of lexemes that were taken. -/
theorem Site.Adds.rest_eq
    {s t : Site K}
    {kinds : List K}
    {new : List (Shape K K)}
    {taken front rest : List (Lexeme K)}
    (h : s.Adds kinds new t)
    (htakes : s.cursor.Takes taken t.cursor)
    (hs : s.cursor.rest = front ++ rest)
    (hfront : front.length = kinds.length) :
    t.cursor.rest = rest := by
  have hkinds := congrArg List.length h.kinds
  have htaken := congrArg List.length htakes.rest
  simp only [Site.kinds, Cursor.kinds, List.length_map, List.length_append] at hkinds htaken
  refine (List.append_inj (htakes.rest.symm.trans hs) ?_).2
  omega

/-- Whether two streams are equal, or equal up to and including a lexeme of a kind
that stops. -/
def AgreeTo (stop : K → Prop) (x y : List (Lexeme K)) : Prop :=
  x = y ∨ ∃ front z u v, stop z.kind ∧ x = front ++ z :: u ∧ y = front ++ z :: v

namespace AgreeTo

variable {stop : K → Prop} {x y : List (Lexeme K)}

theorem append
    (front : List (Lexeme K))
    (h : AgreeTo stop x y) :
    AgreeTo stop (front ++ x) (front ++ y) := by
  rcases h with rfl | ⟨more, z, u, v, hz, rfl, rfl⟩
  · exact .inl rfl
  · exact .inr ⟨front ++ more, z, u, v, hz, by rw [List.append_assoc], by rw [List.append_assoc]⟩

/-- Streams agree if a stop is the last lexeme of a common beginning. -/
theorem of_getLast?
    {front : List (Lexeme K)}
    {z : Lexeme K}
    (hfront : front.getLast? = some z)
    (hz : stop z.kind)
    (x y : List (Lexeme K)) :
    AgreeTo stop (front ++ x) (front ++ y) := by
  obtain ⟨front', rfl⟩ := List.getLast?_eq_some_iff.mp hfront
  exact .inr ⟨front', z, x, y, hz, by rw [List.append_assoc]; rfl, by rw [List.append_assoc]; rfl⟩

/-- The next lexemes are the same. -/
theorem head?_eq (h : AgreeTo stop x y) : x.head? = y.head? := by
  rcases h with rfl | ⟨front, z, u, v, -, rfl, rfl⟩
  · rfl
  · cases front <;> rfl

theorem isEmpty_eq (h : AgreeTo stop x y) : x.isEmpty = y.isEmpty := by
  have hhead := h.head?_eq
  cases x <;> cases y <;> simp_all

end AgreeTo
end Taking

namespace Parser

variable {K α β σ : Type}

/-- Whether the run from `d` is in step with the run from `c`, which takes some
lexemes. -/
structure InStep (p : Parser K α) (c d : Cursor K) (taken : List (Lexeme K)) : Prop where
  value : (p d).value = (p c).value
  trace : (p d).trace = (p c).trace
  takes : d.Takes taken (p d).cursor

/-- Whether a parser takes lexemes from the front. -/
def Forward (p : Parser K α) : Prop := ∀ c : Cursor K, ∃ taken, c.Takes taken (p c).cursor

theorem Forward.bind
    {p : Parser K α}
    {f : α → Parser K β}
    (hp : p.Forward)
    (hf : ∀ a, (f a).Forward) :
    (p >>= f).Forward := by
  intro c
  obtain ⟨first, hfirst⟩ := hp c
  obtain ⟨second, hsecond⟩ := hf (p c).value (p c).cursor
  exact ⟨first ++ second, hfirst.trans hsecond⟩

/-- What two parsers take one after the other. -/
theorem Forward.exists_takes
    {p : Parser K α}
    {f : α → Parser K β}
    (hp : p.Forward)
    (hf : ∀ a, (f a).Forward)
    {c : Cursor K}
    {taken : List (Lexeme K)}
    (h : c.Takes taken ((p >>= f) c).cursor) :
    ∃ first second,
      taken = first ++ second ∧
      c.Takes first (p c).cursor ∧
      (p c).cursor.Takes second (f (p c).value (p c).cursor).cursor := by
  obtain ⟨first, hfirst⟩ := hp c
  obtain ⟨second, hsecond⟩ := hf (p c).value (p c).cursor
  exact ⟨first, second, h.unique (hfirst.trans hsecond), hfirst, hsecond⟩

theorem Ends.takes
    [DecidableEq K]
    [Vocabulary K]
    {p : Parser K α}
    {s : Site K}
    {Q : α → Site K → Prop}
    (h : p.Ends s Q)
    (hp : p.Forward) :
    p.Ends s fun a t => Q a t ∧ ∃ taken, s.cursor.Takes taken t.cursor := by
  obtain ⟨t, hcursor, hleads, ht⟩ := h
  exact ⟨t, hcursor, hleads, ht, hcursor ▸ hp s.cursor⟩

/-- Whether a parser takes lexemes from the front, and its runs are in step on streams
that agree to a stop behind what it takes. -/
structure Steady (stop : K → Prop) (p : Parser K α) : Prop where
  forward : p.Forward
  inStep : ∀ {c d : Cursor K} {taken y : List (Lexeme K)}, c.Takes taken (p c).cursor →
    d.rest = taken ++ y → AgreeTo stop (p c).cursor.rest y → p.InStep c d taken

section Closure

variable {stop : K → Prop} {p : Parser K α} {f : α → Parser K β}

/-- What is left to a run in step. -/
theorem InStep.rest_eq
    {c d : Cursor K}
    {taken y : List (Lexeme K)}
    (h : p.InStep c d taken)
    (hd : d.rest = taken ++ y) :
    (p d).cursor.rest = y :=
  List.append_cancel_left (h.takes.rest.symm.trans hd)

/-- Runs that are in step go on in step. -/
theorem InStep.bind
    {c d : Cursor K}
    {taken taken' : List (Lexeme K)}
    (hp : p.InStep c d taken)
    (hf : (f (p c).value).InStep (p c).cursor (p d).cursor taken') :
    (p >>= f).InStep c d (taken ++ taken') where
  value := by
    change (f (p d).value (p d).cursor).value = _
    rw [hp.value]
    exact hf.value
  trace := by
    change (p d).trace ++ (f (p d).value (p d).cursor).trace = _
    rw [hp.value, hp.trace, hf.trace]
    rfl
  takes := by
    change d.Takes _ (f (p d).value (p d).cursor).cursor
    rw [hp.value]
    exact hp.takes.trans hf.takes

/-- A parser is in step if something else takes lexemes behind it, which the run leaves. -/
theorem Steady.inStep_front
    (h : p.Steady stop)
    {c c' d : Cursor K}
    {first second y : List (Lexeme K)}
    (hfirst : c.Takes first (p c).cursor)
    (hsecond : (p c).cursor.Takes second c')
    (hd : d.rest = first ++ second ++ y)
    (hagree : AgreeTo stop c'.rest y) :
    p.InStep c d first ∧ (p d).cursor.rest = second ++ y := by
  rw [List.append_assoc] at hd
  have hstep : p.InStep c d first := by
    refine h.inStep hfirst hd ?_
    rw [hsecond.rest]
    exact hagree.append second
  exact ⟨hstep, hstep.rest_eq hd⟩

theorem Steady.bind
    (hp : p.Steady stop)
    (hf : ∀ a, (f a).Steady stop) :
    (p >>= f).Steady stop := by
  have hforward := fun a => (hf a).forward
  refine ⟨hp.forward.bind hforward, fun htakes hd hagree => ?_⟩
  obtain ⟨first, second, rfl, hfirst, hsecond⟩ := hp.forward.exists_takes hforward htakes
  obtain ⟨hstep, hrest⟩ := hp.inStep_front hfirst hsecond hd hagree
  exact hstep.bind ((hf _).inStep hsecond hrest hagree)

/-- One steady parser after another. -/
theorem Steady.seq
    {q : Parser K β}
    (hp : p.Steady stop)
    (hq : q.Steady stop) :
    (p >>= fun _ => q).Steady stop :=
  hp.bind fun _ => hq

theorem Steady.ite
    {holds : Bool}
    {q : Parser K α}
    (hp : p.Steady stop)
    (hq : q.Steady stop) :
    (if holds then p else q).Steady stop := by
  cases holds
  · exact hq
  · exact hp

theorem steady_pure (a : α) : (pure a : Parser K α).Steady stop where
  forward c := ⟨[], .refl c⟩
  inStep {c d taken y} htakes _ _ := by
    obtain rfl := htakes.unique (.refl c)
    exact ⟨rfl, rfl, .refl d⟩

theorem Steady.discard (h : p.Steady stop) : (discard p : Parser K Unit).Steady stop :=
  h.bind fun _ => steady_pure ()

theorem steady_emit (s : Step K) : (emit s).Steady stop where
  forward c := ⟨[], .refl c⟩
  inStep {c d taken y} htakes _ _ := by
    obtain rfl := htakes.unique (.refl c)
    exact ⟨rfl, rfl, .refl d⟩

theorem steady_report (fault : Fault K) : (report fault : Parser K Unit).Steady stop :=
  steady_emit _

theorem steady_ensure (holds : Bool) : (ensure holds : Parser K Unit).Steady stop :=
  Steady.ite (steady_pure _) (steady_emit _)

theorem advance_of_nil
    {c : Cursor K}
    (h : c.rest = []) :
    (advance : Parser K Unit) c = ⟨(), c, []⟩ := by
  rw [advance_eq, h]

theorem advance_of_cons
    {c : Cursor K}
    {l : Lexeme K}
    {rest : List (Lexeme K)}
    (h : c.rest = l :: rest) :
    (advance : Parser K Unit) c = ⟨(), c.next, [.advance]⟩ := by
  rw [advance_eq, h]

theorem steady_advance : (advance : Parser K Unit).Steady stop := by
  constructor
  · intro c
    cases hc : c.rest with
    | nil => exact ⟨[], advance_of_nil hc ▸ .refl c⟩
    | cons l rest => exact ⟨[l], advance_of_cons hc ▸ .next hc⟩
  · intro c d taken y htakes hd hagree
    cases hc : c.rest with
    | nil =>
        rw [advance_of_nil hc] at htakes hagree
        obtain rfl := htakes.unique (.refl c)
        have hrest : d.rest = [] := by
          rw [hc] at hagree
          rw [hd, List.nil_append, ← List.head?_eq_none_iff]
          exact hagree.head?_eq.symm
        constructor
        · rfl
        · rw [advance_of_nil hc, advance_of_nil hrest]
        · exact advance_of_nil hrest ▸ .refl d
    | cons l rest =>
        rw [advance_of_cons hc] at htakes
        obtain rfl := htakes.unique (.next hc)
        constructor
        · rfl
        · rw [advance_of_cons hc, advance_of_cons hd]
        · exact advance_of_cons hd ▸ .next hd

/-- A parser that decides by what is ahead, and decides alike where streams agree to a
stop. -/
theorem steady_of_look
    (look : List (Lexeme K) → Parser K α)
    (hp : ∀ c, p c = look c.rest c)
    (hlook : ∀ x, (look x).Steady stop)
    (hagree : ∀ x y, AgreeTo stop x y → look x = look y) :
    p.Steady stop := by
  constructor
  · intro c
    rw [hp]
    exact (hlook c.rest).forward c
  · intro c d taken y htakes hd hxy
    rw [hp] at htakes hxy
    have hsame : look c.rest = look d.rest := by
      rw [htakes.rest, hd]
      exact hagree _ _ (hxy.append taken)
    have hstep := (hlook c.rest).inStep htakes hd hxy
    constructor
    · rw [hp, hp, ← hsame]
      exact hstep.value
    · rw [hp, hp, ← hsame]
      exact hstep.trace
    · rw [hp, ← hsame]
      exact hstep.takes

theorem steady_atEnd : (atEnd : Parser K Bool).Steady stop :=
  steady_of_look (fun ls => pure ls.isEmpty) (fun _ => rfl) (fun _ => steady_pure _)
    fun _ _ h => by rw [h.isEmpty_eq]

theorem steady_text : (text : Parser K Text).Steady stop :=
  steady_of_look (fun ls => pure ((ls.head?.map Lexeme.text).getD [])) (fun _ => rfl)
    (fun _ => steady_pure _) fun _ _ h => by rw [h.head?_eq]

theorem Steady.moves
    {p : Parser K Unit}
    (h : p.Steady stop) :
    (moves p).Steady stop where
  forward := h.forward
  inStep {c d taken y} htakes hd hagree := by
    have hstep := h.inStep htakes hd hagree
    refine ⟨?_, hstep.trace, hstep.takes⟩
    exact decide_eq_decide.mpr (hstep.takes.left_lt_iff.trans htakes.left_lt_iff.symm)

theorem Steady.nodeOf
    {body : Parser K K}
    (h : body.Steady stop) :
    (nodeOf body).Steady stop :=
  (steady_emit _).seq <| h.bind fun kind => (steady_emit _).seq (steady_pure kind)

theorem Steady.node
    {kind : K}
    {body : Parser K Unit}
    (h : body.Steady stop) :
    (node kind body).Steady stop :=
  Steady.nodeOf (h.seq (steady_pure kind))

theorem Steady.wrapOf
    {body : Parser K K}
    (h : body.Steady stop) :
    (wrapOf body).Steady stop :=
  (steady_emit _).seq <| h.bind fun kind => (steady_emit _).seq (steady_pure kind)

theorem Steady.wrap
    {kind : K}
    {body : Parser K Unit}
    (h : body.Steady stop) :
    (wrap kind body).Steady stop :=
  Steady.wrapOf (h.seq (steady_pure kind))

section Turns

variable {body : σ → Parser K (Bool × σ)} {v : σ} {c : Cursor K}

theorem iterate_last
    (h : (body v c).value.1 = false) :
    iterate body v c = ⟨(body v c).value.2, (body v c).cursor, (body v c).trace⟩ := by
  rw [iterate_eq, h]
  rfl

theorem iterate_stuck
    (h : (body v c).value.1 = true)
    (hleft : ¬ (body v c).cursor.left < c.left) :
    iterate body v c =
      ⟨(body v c).value.2, (body v c).cursor, (body v c).trace ++ [.stuck]⟩ := by
  rw [iterate_eq, h]
  simp only [if_true, if_neg hleft]

theorem iterate_again
    (h : (body v c).value.1 = true)
    (hleft : (body v c).cursor.left < c.left) :
    iterate body v c =
      ⟨(iterate body (body v c).value.2 (body v c).cursor).value,
        (iterate body (body v c).value.2 (body v c).cursor).cursor,
        (body v c).trace ++ (iterate body (body v c).value.2 (body v c).cursor).trace⟩ := by
  rw [iterate_eq, h]
  simp only [if_true, if_pos hleft]

variable {d : Cursor K} {first second : List (Lexeme K)}

theorem InStep.iterate_last
    (h : (body v).InStep c d first)
    (hvalue : (body v c).value.1 = false) :
    (iterate body v).InStep c d first := by
  have hvalue' : (body v d).value.1 = false := h.value ▸ hvalue
  constructor
  · rw [Parser.iterate_last hvalue, Parser.iterate_last hvalue', h.value]
  · rw [Parser.iterate_last hvalue, Parser.iterate_last hvalue', h.trace]
  · rw [Parser.iterate_last hvalue']
    exact h.takes

theorem InStep.iterate_stuck
    (h : (body v).InStep c d first)
    (htakes : c.Takes first (body v c).cursor)
    (hvalue : (body v c).value.1 = true)
    (hleft : ¬ (body v c).cursor.left < c.left) :
    (iterate body v).InStep c d first := by
  have hvalue' : (body v d).value.1 = true := h.value ▸ hvalue
  have hleft' : ¬ (body v d).cursor.left < d.left :=
    fun hless => hleft (htakes.left_lt_iff.mpr (h.takes.left_lt_iff.mp hless))
  constructor
  · rw [Parser.iterate_stuck hvalue hleft, Parser.iterate_stuck hvalue' hleft', h.value]
  · rw [Parser.iterate_stuck hvalue hleft, Parser.iterate_stuck hvalue' hleft', h.trace]
  · rw [Parser.iterate_stuck hvalue' hleft']
    exact h.takes

/-- A loop stays in step if a turn and the turns behind it do. -/
theorem InStep.iterate_again
    (h : (body v).InStep c d first)
    (htakes : c.Takes first (body v c).cursor)
    (hvalue : (body v c).value.1 = true)
    (hleft : (body v c).cursor.left < c.left)
    (hmore : (iterate body (body v c).value.2).InStep (body v c).cursor (body v d).cursor second) :
    (iterate body v).InStep c d (first ++ second) := by
  have hvalue' : (body v d).value.1 = true := h.value ▸ hvalue
  have hleft' : (body v d).cursor.left < d.left :=
    h.takes.left_lt_iff.mpr (htakes.left_lt_iff.mp hleft)
  constructor
  · rw [Parser.iterate_again hvalue hleft, Parser.iterate_again hvalue' hleft', h.value, hmore.value]
  · rw [Parser.iterate_again hvalue hleft, Parser.iterate_again hvalue' hleft', h.value, h.trace,
      hmore.trace]
  · rw [Parser.iterate_again hvalue' hleft', h.value]
    exact h.takes.trans hmore.takes

end Turns

/-- What a loop does at a cursor, by the number of lexemes left. -/
theorem exists_takes_iterate
    {body : σ → Parser K (Bool × σ)}
    (h : ∀ v, (body v).Steady stop)
    (v : σ)
    (c : Cursor K) :
    ∃ taken, c.Takes taken (iterate body v c).cursor := by
  obtain ⟨first, hfirst⟩ := (h v).forward c
  cases hvalue : (body v c).value.1 with
  | false =>
      rw [iterate_last hvalue]
      exact ⟨first, hfirst⟩
  | true =>
      by_cases hleft : (body v c).cursor.left < c.left
      · obtain ⟨second, hsecond⟩ := exists_takes_iterate h (body v c).value.2 (body v c).cursor
        rw [iterate_again hvalue hleft]
        exact ⟨first ++ second, hfirst.trans hsecond⟩
      · rw [iterate_stuck hvalue hleft]
        exact ⟨first, hfirst⟩
termination_by c.left

/-- Loops whose turns are steady are in step. -/
theorem inStep_iterate
    {body : σ → Parser K (Bool × σ)}
    (h : ∀ v, (body v).Steady stop)
    (v : σ)
    {c d : Cursor K}
    {taken y : List (Lexeme K)}
    (htakes : c.Takes taken (iterate body v c).cursor)
    (hd : d.rest = taken ++ y)
    (hagree : AgreeTo stop (iterate body v c).cursor.rest y) :
    (iterate body v).InStep c d taken := by
  cases hvalue : (body v c).value.1 with
  | false =>
      rw [iterate_last hvalue] at htakes hagree
      exact ((h v).inStep htakes hd hagree).iterate_last hvalue
  | true =>
      by_cases hleft : (body v c).cursor.left < c.left
      · obtain ⟨first, hfirst⟩ := (h v).forward c
        obtain ⟨second, hsecond⟩ := exists_takes_iterate h (body v c).value.2 (body v c).cursor
        rw [iterate_again hvalue hleft] at htakes hagree
        obtain rfl := htakes.unique (hfirst.trans hsecond)
        obtain ⟨hstep, hrest⟩ := (h v).inStep_front hfirst hsecond hd hagree
        exact hstep.iterate_again hfirst hvalue hleft
          (inStep_iterate h (body v c).value.2 hsecond hrest hagree)
      · rw [iterate_stuck hvalue hleft] at htakes hagree
        exact ((h v).inStep htakes hd hagree).iterate_stuck htakes hvalue hleft
termination_by c.left

theorem steady_iterate
    {body : σ → Parser K (Bool × σ)}
    (h : ∀ v, (body v).Steady stop)
    (v : σ) :
    (iterate body v).Steady stop :=
  ⟨exists_takes_iterate h v, inStep_iterate h v⟩

theorem steady_repeatWhile
    {body : Parser K Bool}
    (h : body.Steady stop) :
    (repeatWhile body).Steady stop :=
  steady_iterate (fun _ => h.bind fun _ => steady_pure _) ()

end Closure

/-! ## Looking ahead -/

section Looking

variable [Vocabulary K] {stop : K → Prop}

/-- The kind of the lexeme `n` places ahead. -/
def kindAt (n : Nat) (ls : List (Lexeme K)) : K :=
  (ls[n]?.map Lexeme.kind).getD Vocabulary.eof

/-- Looking ahead consumes nothing. -/
theorem nth_kindAt
    (n : Nat)
    (c : Cursor K) :
    (nth n : Parser K K) c = ⟨kindAt n c.rest, c, []⟩ := rfl

theorem peek_kindAt (c : Cursor K) : (peek : Parser K K) c = ⟨kindAt 0 c.rest, c, []⟩ := rfl

theorem at_kindAt [DecidableEq K] (kind : K) (c : Cursor K) :
    (at_ kind : Parser K Bool) c = ⟨kindAt 0 c.rest == kind, c, []⟩ := rfl

omit [Vocabulary K] in
theorem atEnd_isEmpty (c : Cursor K) : (atEnd : Parser K Bool) c = ⟨c.rest.isEmpty, c, []⟩ := rfl

theorem peek_eq_kindAt (s : Site K) : s.peek = kindAt 0 s.cursor.rest := by
  rw [Site.peek, Site.nth, Site.kinds, Cursor.kinds, kindAt, List.getElem?_map]

/-- The next lexeme becomes a leaf. -/
theorem advanced_of_kindAt
    {s : Site K}
    {kind : K}
    (h : kindAt 0 s.cursor.rest = kind)
    (hkind : kind ≠ Vocabulary.eof) :
    s.advanced = ⟨s.cursor.next, s.behind, .leaf kind :: s.children, s.reports⟩ := by
  rw [Site.advanced]
  cases hrest : s.cursor.rest with
  | nil =>
      rw [hrest] at h
      exact absurd h.symm hkind
  | cons l rest =>
      rw [hrest] at h
      obtain rfl : l.kind = kind := h
      rfl

section Agreeing

variable {x y : List (Lexeme K)} (h : AgreeTo stop x y)
include h

theorem kindAt_zero_eq : kindAt 0 x = kindAt 0 y := by
  rw [kindAt, kindAt, ← List.head?_eq_getElem?, ← List.head?_eq_getElem?, h.head?_eq]

/-- Behind a lexeme that does not stop, streams still agree. -/
theorem agreeTo_tail (hzero : ¬ stop (kindAt 0 x)) : AgreeTo stop x.tail y.tail := by
  rcases h with rfl | ⟨front, z, u, v, hz, rfl, rfl⟩
  · exact .inl rfl
  · cases front with
    | nil => exact absurd hz hzero
    | cons l front => exact .inr ⟨front, z, u, v, hz, rfl, rfl⟩

omit h in
theorem kindAt_tail (n : Nat) (ls : List (Lexeme K)) : kindAt n ls.tail = kindAt (n + 1) ls := by
  rw [kindAt, kindAt, List.getElem?_tail]

theorem kindAt_one_eq (hzero : ¬ stop (kindAt 0 x)) : kindAt 1 x = kindAt 1 y := by
  rw [← kindAt_tail, ← kindAt_tail]
  exact kindAt_zero_eq (agreeTo_tail h hzero)

theorem kindAt_two_eq
    (hzero : ¬ stop (kindAt 0 x))
    (hone : ¬ stop (kindAt 1 x)) :
    kindAt 2 x = kindAt 2 y := by
  rw [← kindAt_tail 1 x, ← kindAt_tail 1 y]
  refine kindAt_one_eq (agreeTo_tail h hzero) ?_
  rwa [kindAt_tail]

end Agreeing

theorem steady_peek : (peek : Parser K K).Steady stop :=
  steady_of_look (fun ls => pure (kindAt 0 ls)) (fun _ => rfl) (fun _ => steady_pure _)
    fun _ _ h => by rw [kindAt_zero_eq h]

/-- The next lexeme decides, and behind some that do not stop one more is looked at. -/
theorem steady_peek_bind_of
    {f : K → Parser K α}
    (hf : ∀ kind, (f kind).Steady stop ∨
      ¬ stop kind ∧ ∃ look : K → Parser K α,
        (∀ next, (look next).Steady stop) ∧ ∀ c, f kind c = look (kindAt 1 c.rest) c) :
    (peek >>= f).Steady stop := by
  constructor
  · intro c
    rcases hf (kindAt 0 c.rest) with hsteady | ⟨-, look, hlook, hrun⟩
    · exact hsteady.forward c
    · change ∃ taken, c.Takes taken (f (kindAt 0 c.rest) c).cursor
      rw [hrun]
      exact (hlook _).forward c
  · intro c d taken y htakes hd hagree
    have hrests : AgreeTo stop c.rest d.rest := by
      rw [htakes.rest, hd]
      exact hagree.append taken
    -- Both runs see the same next lexeme, and the same one behind it if they look.
    suffices hstep : (f (kindAt 0 c.rest)).InStep c d taken by
      have hrun : (peek >>= f) d = f (kindAt 0 c.rest) d := by
        rw [kindAt_zero_eq hrests]
        rfl
      exact ⟨hrun ▸ hstep.value, hrun ▸ hstep.trace, hrun ▸ hstep.takes⟩
    rcases hf (kindAt 0 c.rest) with hsteady | ⟨hzero, look, hlook, hrun⟩
    · exact hsteady.inStep htakes hd hagree
    · change c.Takes taken (f (kindAt 0 c.rest) c).cursor at htakes
      change AgreeTo stop (f (kindAt 0 c.rest) c).cursor.rest y at hagree
      rw [hrun] at htakes hagree
      have hstep := (hlook _).inStep htakes hd hagree
      constructor
      · rw [hrun, hrun, ← kindAt_one_eq hrests hzero]
        exact hstep.value
      · rw [hrun, hrun, ← kindAt_one_eq hrests hzero]
        exact hstep.trace
      · rw [hrun, ← kindAt_one_eq hrests hzero]
        exact hstep.takes

/-- Two lexemes ahead decide, the second only behind one that does not stop. -/
theorem steady_peek_nth_bind
    {f : K → K → Parser K α}
    (hf : ∀ kind next, (f kind next).Steady stop)
    (hstop : ∀ kind, stop kind → ∀ next next', f kind next = f kind next') :
    (peek >>= fun kind => nth 1 >>= fun next => f kind next).Steady stop := by
  refine steady_of_look (fun ls => f (kindAt 0 ls) (kindAt 1 ls)) (fun _ => rfl)
    (fun _ => hf _ _) fun x y h => ?_
  rw [← kindAt_zero_eq h]
  by_cases hzero : stop (kindAt 0 x)
  · exact hstop _ hzero _ _
  · rw [kindAt_one_eq h hzero]

variable [DecidableEq K]

theorem steady_at (kind : K) : (at_ kind : Parser K Bool).Steady stop :=
  steady_peek.bind fun _ => steady_pure _

omit [DecidableEq K] in
theorem steady_atAny (set : KindSet K) : (atAny set : Parser K Bool).Steady stop :=
  steady_peek.bind fun _ => steady_pure _

/-- Whether two lexemes of some kinds are ahead decides. -/
theorem steady_two_ahead
    {first second : K}
    {p q : Parser K α}
    (hfirst : ¬ stop first)
    (hp : p.Steady stop)
    (hq : q.Steady stop) :
    (at_ first >>= fun a => nthAt 1 second >>= fun b => if a && b then p else q).Steady stop := by
  refine steady_of_look (fun ls =>
    if kindAt 0 ls == first && kindAt 1 ls == second then p else q) (fun _ => rfl)
    (fun _ => Steady.ite hp hq) fun x y h => ?_
  rw [← kindAt_zero_eq h]
  by_cases hzero : kindAt 0 x = first
  · rw [kindAt_one_eq h (hzero ▸ hfirst)]
  · simp [hzero]

/-- Whether three lexemes of some kinds are ahead decides. -/
theorem steady_three_ahead
    {first second third : K}
    {p q : Parser K α}
    (hfirst : ¬ stop first)
    (hsecond : ¬ stop second)
    (hp : p.Steady stop)
    (hq : q.Steady stop) :
    (at_ first >>= fun a => nthAt 1 second >>= fun b => nthAt 2 third >>= fun c =>
      if a && b && c then p else q).Steady stop := by
  refine steady_of_look (fun ls =>
    if kindAt 0 ls == first && kindAt 1 ls == second && kindAt 2 ls == third then p else q)
    (fun _ => rfl) (fun _ => Steady.ite hp hq) fun x y h => ?_
  rw [← kindAt_zero_eq h]
  by_cases hzero : kindAt 0 x = first
  · rw [← kindAt_one_eq h (hzero ▸ hfirst)]
    by_cases hone : kindAt 1 x = second
    · rw [kindAt_two_eq h (hzero ▸ hfirst) (hone ▸ hsecond)]
    · simp [hone]
  · simp [hzero]

theorem steady_eat (kind : K) : (eat kind : Parser K Bool).Steady stop :=
  (steady_at kind).bind fun _ => Steady.ite (steady_advance.seq (steady_pure _)) (steady_pure _)

theorem steady_skip (kind : K) : (skip kind : Parser K Unit).Steady stop :=
  (steady_eat kind).discard

theorem steady_expect (kind : K) : (expect kind : Parser K Unit).Steady stop :=
  (steady_eat kind).bind fun _ =>
    Steady.ite (steady_pure _) (steady_peek.bind fun _ => steady_report _)

theorem steady_bump (fault : Fault K) : (bump fault : Parser K Unit).Steady stop := by
  refine (Steady.node ?_).discard
  refine (steady_at _).bind fun _ => Steady.ite ?_ ?_
  · exact steady_text.bind fun _ => (steady_report _).seq steady_advance
  · exact (steady_report _).seq steady_advance

theorem steady_recover
    (fault : Fault K)
    (recovery : KindSet K) :
    (recover fault recovery : Parser K Unit).Steady stop := by
  refine (steady_atAny recovery).bind fun _ => steady_atEnd.bind fun _ => Steady.ite ?_ ?_
  · exact (Steady.node (steady_report fault)).discard
  · exact steady_bump fault

omit [DecidableEq K] in
theorem steady_passToken (depth : Nat) :
    (passToken depth : Parser K (Bool × Nat)).Steady stop := by
  refine steady_atEnd.bind fun _ => Steady.ite (steady_pure _) ?_
  refine steady_peek.bind fun kind => ?_
  split
  · exact steady_advance.seq (steady_pure _)
  · exact steady_pure _
  · exact steady_pure _
  · exact steady_advance.seq (steady_pure _)
  · exact steady_advance.seq (steady_pure _)

omit [DecidableEq K] in
theorem steady_tooDeep : (tooDeep : Parser K Unit).Steady stop :=
  (Steady.node ((steady_report _).seq (steady_iterate steady_passToken 0).discard)).discard

end Looking

/-! ## Taking something -/

section Eating

variable {stop : K → Prop} {p : Parser K α} {f : α → Parser K β} {c : Cursor K}

/-- What was taken stays taken. -/
theorem left_bind_lt
    (h : (p c).cursor.left < c.left)
    (hf : ∀ a, (f a).Forward) :
    ((p >>= f) c).cursor.left < c.left := by
  obtain ⟨taken, htaken⟩ := hf (p c).value (p c).cursor
  have hleft := htaken.left_eq
  change (f (p c).value (p c).cursor).cursor.left < c.left
  omega

/-- A parser that does nothing here is passed over. -/
theorem bind_of_value
    {a : α}
    (h : (p c).value = a) :
    (p >>= f) c =
      ⟨(f a (p c).cursor).value, (f a (p c).cursor).cursor,
        (p c).trace ++ (f a (p c).cursor).trace⟩ := by
  subst h
  rfl

variable [Vocabulary K]

/-- Whether a parser is steady, and takes something where a lexeme is next that starts
what it parses. -/
structure SteadyFrom (stop starts : K → Prop) (p : Parser K α) : Prop where
  steady : p.Steady stop
  takes : ∀ c : Cursor K, starts (kindAt 0 c.rest) → (p c).cursor.left < c.left

variable {starts starts' : K → Prop}

theorem SteadyFrom.mono
    (h : p.SteadyFrom stop starts)
    (himp : ∀ kind, starts' kind → starts kind) :
    p.SteadyFrom stop starts' :=
  ⟨h.steady, fun c hc => h.takes c (himp _ hc)⟩

/-- A steady parser takes what nothing starts. -/
theorem Steady.fromNone
    (h : p.Steady stop)
    (hnone : ∀ kind, ¬ starts kind) :
    p.SteadyFrom stop starts :=
  ⟨h, fun _ hc => absurd hc (hnone _)⟩

theorem steadyFrom_advance : (advance : Parser K Unit).SteadyFrom stop (· ≠ Vocabulary.eof) := by
  refine ⟨steady_advance, fun c hc => ?_⟩
  cases hrest : c.rest with
  | nil =>
      rw [hrest] at hc
      exact absurd rfl hc
  | cons l rest =>
      rw [advance_of_cons hrest, (Cursor.Takes.next hrest).left_lt_iff]
      exact List.cons_ne_nil _ _

theorem SteadyFrom.bind
    (hp : p.SteadyFrom stop starts)
    (hf : ∀ a, (f a).Steady stop) :
    (p >>= f).SteadyFrom stop starts :=
  ⟨hp.steady.bind hf, fun c hc => left_bind_lt (hp.takes c hc) fun a => (hf a).forward⟩

/-- What one parser leaves over is taken by the other. -/
theorem Steady.bind_from
    (hp : p.Steady stop)
    (hf : ∀ a, (f a).SteadyFrom stop starts) :
    (p >>= f).SteadyFrom stop starts := by
  refine ⟨hp.bind fun a => (hf a).steady, fun c hc => ?_⟩
  obtain ⟨taken, htaken⟩ := hp.forward c
  cases taken with
  | nil =>
      have hrest : c.rest = (p c).cursor.rest := htaken.rest
      have hleft : c.left = 0 + (p c).cursor.left := htaken.left_eq
      rw [hleft, Nat.zero_add]
      exact (hf _).takes _ (hrest ▸ hc)
  | cons l taken =>
      exact left_bind_lt (htaken.left_lt_iff.mpr (List.cons_ne_nil _ _))
        fun a => (hf a).steady.forward

theorem SteadyFrom.discard
    (h : p.SteadyFrom stop starts) :
    (discard p : Parser K Unit).SteadyFrom stop starts :=
  h.bind fun _ => steady_pure ()

theorem SteadyFrom.nodeOf
    {body : Parser K K}
    (h : body.SteadyFrom stop starts) :
    (nodeOf body).SteadyFrom stop starts :=
  ⟨h.steady.nodeOf, h.takes⟩

theorem SteadyFrom.node
    {kind : K}
    {body : Parser K Unit}
    (h : body.SteadyFrom stop starts) :
    (node kind body).SteadyFrom stop starts :=
  ⟨h.steady.node, h.takes⟩

/-- The next lexeme decides what is taken. -/
theorem steadyFrom_peek_bind
    {f : K → Parser K α}
    (hf : ∀ kind, (f kind).SteadyFrom stop fun next => next = kind ∧ starts kind) :
    (peek >>= f).SteadyFrom stop starts :=
  ⟨steady_peek.bind fun kind => (hf kind).steady, fun c hc => (hf _).takes c ⟨rfl, hc⟩⟩

theorem steadyFrom_iterate
    {body : σ → Parser K (Bool × σ)}
    (h : ∀ v, (body v).SteadyFrom stop starts)
    (v : σ) :
    (iterate body v).SteadyFrom stop starts := by
  refine ⟨steady_iterate (fun v => (h v).steady) v, fun c hc => ?_⟩
  have hfirst := (h v).takes c hc
  cases hvalue : (body v c).value.1 with
  | false =>
      rw [iterate_last hvalue]
      exact hfirst
  | true =>
      obtain ⟨taken, htaken⟩ := (steady_iterate (fun v => (h v).steady)
        (body v c).value.2).forward (body v c).cursor
      have hleft := htaken.left_eq
      rw [iterate_again hvalue hfirst]
      dsimp only
      omega

theorem steadyFrom_repeatWhile
    {body : Parser K Bool}
    (h : body.SteadyFrom stop starts) :
    (repeatWhile body).SteadyFrom stop starts :=
  steadyFrom_iterate (fun _ => h.bind fun _ => steady_pure _) ()

variable [DecidableEq K]

theorem eat_kindAt
    (kind : K)
    (c : Cursor K) :
    (eat kind : Parser K Bool) c =
      (if kindAt 0 c.rest == kind then (do advance; return true)
        else return false : Parser K Bool) c := rfl

theorem eat_of_ne
    {kind : K}
    (h : kindAt 0 c.rest ≠ kind) :
    (eat kind : Parser K Bool) c = ⟨false, c, []⟩ := by
  rw [eat_kindAt, if_neg (by simpa using h)]
  rfl

theorem eat_of_cons
    {kind : K}
    {l : Lexeme K}
    {rest : List (Lexeme K)}
    (h : c.rest = l :: rest)
    (hkind : l.kind = kind) :
    (eat kind : Parser K Bool) c = ⟨true, c.next, [.advance]⟩ := by
  have hnext : kindAt 0 c.rest = kind := by rw [h]; exact hkind
  rw [eat_kindAt, hnext, beq_self_eq_true, if_pos rfl]
  change Outcome.mk true ((advance : Parser K Unit) c).cursor
    (((advance : Parser K Unit) c).trace ++ []) = _
  rw [advance_of_cons h]
  rfl

/-- A lexeme that is there is taken. -/
theorem steadyFrom_eat
    {kind : K}
    (hkind : kind ≠ Vocabulary.eof) :
    (eat kind : Parser K Bool).SteadyFrom stop (· = kind) := by
  refine ⟨steady_eat kind, fun c hc => ?_⟩
  rw [eat_kindAt, hc, beq_self_eq_true, if_pos rfl]
  have hadvance : (advance : Parser K Unit).SteadyFrom stop (· ≠ Vocabulary.eof) :=
    steadyFrom_advance
  exact hadvance.takes c (hc ▸ hkind)

theorem steadyFrom_skip
    {kind : K}
    (hkind : kind ≠ Vocabulary.eof) :
    (skip kind : Parser K Unit).SteadyFrom stop (· = kind) :=
  (steadyFrom_eat hkind).discard

/-- A lexeme may stand in front of what is taken. -/
theorem steadyFrom_eat_bind
    {kind : K}
    {f : Bool → Parser K α}
    (hkind : kind ≠ Vocabulary.eof)
    (htrue : (f true).Steady stop)
    (hfalse : (f false).SteadyFrom stop starts) :
    (eat kind >>= f).SteadyFrom stop fun next => next = kind ∨ starts next := by
  have hsteady : ∀ found, (f found).Steady stop := by
    rintro (_ | _)
    · exact hfalse.steady
    · exact htrue
  refine ⟨(steady_eat kind).bind hsteady, fun c hc => ?_⟩
  by_cases hnext : kindAt 0 c.rest = kind
  · have heat : (eat kind : Parser K Bool).SteadyFrom stop (· = kind) := steadyFrom_eat hkind
    exact left_bind_lt (heat.takes c hnext) fun found => (hsteady found).forward
  · rw [bind_of_eq (eat_of_ne hnext)]
    exact hfalse.takes c (hc.resolve_left hnext)

theorem steadyFrom_skip_bind
    {kind : K}
    {q : Parser K α}
    (hkind : kind ≠ Vocabulary.eof)
    (hq : q.SteadyFrom stop starts) :
    (skip kind >>= fun _ => q).SteadyFrom stop fun next => next = kind ∨ starts next := by
  refine ⟨(steady_skip kind).seq hq.steady, fun c hc => ?_⟩
  by_cases hnext : kindAt 0 c.rest = kind
  · have hskip : (skip kind : Parser K Unit).SteadyFrom stop (· = kind) := steadyFrom_skip hkind
    exact left_bind_lt (hskip.takes c hnext) fun _ => hq.steady.forward
  · have hskip : (skip kind : Parser K Unit) c = ⟨(), c, []⟩ := by
      change (Functor.discard (eat kind) : Parser K Unit) c = _
      exact (bind_of_eq (eat_of_ne hnext)).trans rfl
    rw [bind_of_eq hskip]
    exact hq.takes c (hc.resolve_left hnext)

theorem steadyFrom_expect
    {kind : K}
    (hkind : kind ≠ Vocabulary.eof) :
    (expect kind : Parser K Unit).SteadyFrom stop (· = kind) :=
  (steadyFrom_eat hkind).bind fun _ =>
    Steady.ite (steady_pure _) (steady_peek.bind fun _ => steady_report _)

end Eating

/-! ## The lexeme before -/

section Previous

variable {stop : K → Prop} {p : Parser K α} {f : α → Parser K β}

/-- Whether runs that start behind lexemes of one kind are in step. -/
structure SteadyBehind (stop : K → Prop) (p : Parser K α) : Prop where
  forward : p.Forward
  inStep : ∀ {c d : Cursor K} {taken y : List (Lexeme K)}, c.prev = d.prev →
    c.Takes taken (p c).cursor → d.rest = taken ++ y → AgreeTo stop (p c).cursor.rest y →
    p.InStep c d taken

theorem Steady.behind (h : p.Steady stop) : p.SteadyBehind stop :=
  ⟨h.forward, fun _ => h.inStep⟩

theorem steadyBehind_prev_bind
    {f : Option K → Parser K α}
    (hf : ∀ prev, (f prev).Steady stop) :
    (prev? >>= f).SteadyBehind stop where
  forward c := (hf c.prev).forward c
  inStep {c d taken y} hprev htakes hd hagree := by
    have hstep := (hf c.prev).inStep htakes hd hagree
    have hrun : (prev? >>= f) d = f c.prev d := by
      rw [hprev]
      rfl
    constructor
    · rw [hrun]
      exact hstep.value
    · rw [hrun]
      exact hstep.trace
    · rw [hrun]
      exact hstep.takes

/-- A parser may ask for the lexeme before it if another one has taken something. -/
theorem Steady.bind_behind
    (hp : p.Steady stop)
    (hf : ∀ a, (f a).SteadyBehind stop)
    (hmoves : ∀ c, (f (p c).value).Steady stop ∨ (p c).cursor.left < c.left) :
    (p >>= f).Steady stop := by
  have hforward := fun a => (hf a).forward
  refine ⟨hp.forward.bind hforward, fun {c} d taken y htakes hd hagree => ?_⟩
  obtain ⟨first, second, rfl, hfirst, hsecond⟩ := hp.forward.exists_takes hforward htakes
  obtain ⟨hstep, hrest⟩ := hp.inStep_front hfirst hsecond hd hagree
  refine hstep.bind ?_
  rcases hmoves c with hsteady | hless
  · exact hsteady.inStep hsecond hrest hagree
  · refine (hf _).inStep ?_ hsecond hrest hagree
    have htaken := List.getLast?_isSome.mpr (hfirst.left_lt_iff.mp hless)
    obtain ⟨l, hl⟩ := Option.isSome_iff_exists.mp htaken
    rw [hfirst.prev, hstep.takes.prev, hl]
    rfl

end Previous

/-! ## Runs without reports -/

section Quiet

variable {p : Parser K α} {f : α → Parser K β}

/-- Where runs of two parsers report nothing, neither does. -/
theorem reports_bind
    {c : Cursor K}
    (h : Trace.reports ((p >>= f) c).trace = 0) :
    Trace.reports (p c).trace = 0 ∧ Trace.reports (f (p c).value (p c).cursor).trace = 0 := by
  change Trace.reports ((p c).trace ++ (f (p c).value (p c).cursor).trace) = 0 at h
  rw [Trace.reports_append] at h
  omega

theorem reports_discard
    (p : Parser K α)
    (c : Cursor K) :
    Trace.reports ((discard p : Parser K Unit) c).trace = Trace.reports (p c).trace := by
  change Trace.reports ((p c).trace ++ []) = _
  rw [List.append_nil]

theorem reports_node
    (kind : K)
    (body : Parser K Unit)
    (c : Cursor K) :
    Trace.reports (node kind body c).trace = Trace.reports (body c).trace := by
  change Trace.reports (.start :: ((body c).trace ++ [] ++ [Step.complete kind])) = _
  simp [Trace.reports, Step.isReport]

variable [DecidableEq K] [Vocabulary K]

/-- A parser that reports something has no runs without reports. -/
theorem Faults.reports_ne_zero
    (h : p.Faults)
    (c : Cursor K) :
    Trace.reports (p c).trace ≠ 0 := by
  obtain ⟨t, -, hleads, -, hless⟩ := h ⟨c, [], [], 0⟩
  rw [hleads.reports] at hless
  exact Nat.ne_of_gt (Nat.lt_of_add_lt_add_left hless)

end Quiet

end Parser
end ZigCst
