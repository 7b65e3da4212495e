import ZigCst.Proofs.Machine

/-!
# The order of calls

The functions of a grammar are put in an order.  Outside of a level that it opens, a function
calls only such as come before it; it may call itself there if something decreases and a
level has been opened since it was called.  So of two calls on the stack, the later one came
after a level had been opened if both are of one function; if no level has been opened in
between that is still open, the later function comes before the earlier one, or it is the
same and that something has decreased.  There are only so many calls on the stack, then,
however long the text is.

**Definitions.**
* `CallOrder`: the order of the functions of a grammar.
* `Script.Idle`, `Script.Calls`: what a script gives without having opened a level, and what
  it calls outside of levels.
* `Script.Below`, `Scripted.Below`: a script or a part of a grammar calls only functions that
  come before a place.
* `LawfulGrammar`: the functions of a grammar call each other in order.
* `Activation.Precedes`: how two calls on the stack are related.

**Results.**
* `Scripted.below_bind` and its like: how the combinators call.
* `Activation.length_le_of_pairwise_precedes`: how many calls there can be on the stack.
-/

namespace ZigCst

/-- The functions of a grammar in an order. -/
class CallOrder (R : Type → Type) where
  /-- The place of the function. -/
  order {α : Type} : R α → Nat
  /-- What decreases when the function calls itself outside of a level. -/
  rest {α : Type} : R α → Nat
  /-- Whether a value may be given without a level having been opened. -/
  Idle {α : Type} : R α → α → Prop
  /-- The number of functions. -/
  functions : Nat
  /-- How many values `rest` may have. -/
  spread : Nat

section Calls

variable {K : Type} {R : Type → Type} [CallOrder R]

open CallOrder

/-- What a function may call outside of the levels that it opens, depending on whether it has
opened one before. -/
def CallOrder.May {α : Type} (r : R α) (opened : Prop) (β : Type) (r' : R β) : Prop :=
  order r' < order r ∨ opened ∧ order r' = order r ∧ rest r' < rest r

/-- What holds of two calls on a stack, the earlier given first: a level that was opened
after the one was open at the other, or the functions are in order. -/
def Activation.Precedes (a b : Activation R) : Prop :=
  a.depth < b.depth ∧ a.entered < b.entered ∨
    a.depth = b.depth ∧ a.entered ≤ b.entered ∧ order b.routine < order a.routine ∨
      a.depth = b.depth ∧ a.entered < b.entered ∧
        order b.routine = order a.routine ∧ rest b.routine < rest a.routine

theorem Activation.Precedes.trans
    {a b c : Activation R}
    (h : a.Precedes b)
    (h' : b.Precedes c) :
    a.Precedes c := by
  unfold Precedes at *
  omega

namespace Script

variable {α : Type}

/-- Whether a script may give a value without having opened a level. -/
def Idle {α : Type} : Script K R α → α → Prop
  | .done b, a => a = b
  | .look _, _ | .emit _ _, _ | .advance, _ | .takeEnd, _ | .iterate _ _, _ => True
  | .bind p f, a => ∃ b, p.Idle b ∧ (f b).Idle a
  | .enter _ beyond, a => beyond.Idle a
  | .call r, a => CallOrder.Idle r a

/-- Whether a script calls only what it may, where no level that it opened is open.  What it
may call depends on whether a level has been opened before. -/
def Calls (may : Prop → (β : Type) → R β → Prop) {α : Type} : Script K R α → Prop → Prop
  | .done _, _ | .look _, _ | .emit _ _, _ | .advance, _ | .takeEnd, _ => True
  | .bind p f, opened => p.Calls may opened ∧ ∀ b, (f b).Calls may (opened ∨ ¬ p.Idle b)
  | .iterate body _, opened => ∀ v, (body v).Calls may opened
  | .enter _ beyond, opened => beyond.Calls may opened
  | .call r, opened => may opened _ r

/-- Where a level has been opened, everything may be called that may be called behind one. -/
theorem calls_opened
    (p : Script K R α)
    {opened : Prop}
    (h : opened) :
    p.Calls (fun opened _ _ => opened) opened := by
  induction p generalizing opened with
  | bind p f ihp ihf => exact ⟨ihp h, fun b => ihf b (.inl h)⟩
  | iterate body s ih => exact fun v => ih v h
  | enter within beyond _ ih => exact ih h
  | call r => exact h
  | _ => trivial

/-- Whether a script calls, where no level that it opened is open, only functions that come
before a place in the order, and at that place only with less than `k` remaining. -/
def Below (n k : Nat) {α : Type} : Script K R α → Prop
  | .done _ | .look _ | .emit _ _ | .advance | .takeEnd => True
  | .bind p f => p.Below n k ∧ ∀ b, (f b).Below n k
  | .iterate body _ => ∀ v, (body v).Below n k
  | .enter _ beyond => beyond.Below n k
  | .call r => CallOrder.order r < n ∨ CallOrder.order r = n ∧ CallOrder.rest r < k

/-- A script that calls what comes before a function may be part of it, and it may call the
function itself where a level has been opened. -/
theorem Below.calls
    {β : Type}
    {r : R β}
    {k : Nat}
    {p : Script K R α}
    {opened : Prop}
    (h : p.Below (CallOrder.order r) k)
    (hopened : 0 < k → opened ∧ k ≤ CallOrder.rest r) :
    p.Calls (May r) opened := by
  induction p generalizing opened with
  | bind p f ihp ihf =>
      exact ⟨ihp h.1 hopened, fun b => ihf b (h.2 b) fun hk => (hopened hk).imp_left .inl⟩
  | iterate body s ih => exact fun v => ih v (h v) hopened
  | enter within beyond _ ih => exact ih h hopened
  | call r' =>
      rcases h with hless | ⟨hsame, hless⟩
      · exact .inl hless
      · obtain ⟨hopen, hk⟩ := hopened (Nat.zero_lt_of_lt hless)
        exact .inr ⟨hopen, hsame, Nat.lt_of_lt_of_le hless hk⟩
  | _ => trivial

end Script

/-! ## Calls in grammars made of scripts -/

namespace Scripted

open ZigCst.Parser

/-- Whether a part of a grammar that is not opened calls only what comes before a place. -/
def Below (n k : Nat) {α : Type} (p : Scripted K R α) : Prop := (p false).Below n k

variable {α β σ : Type} {n k : Nat} {p : Scripted K R α} {f : α → Scripted K R β}

/-- A function calls what its body calls where it is opened. -/
@[simp]
theorem below_routine_true (r : R α) : (routine r p true).Below n k ↔ p.Below n k := Iff.rfl

/-- Where it is not opened, a function is a call. -/
@[simp]
theorem below_routine (r : R α) :
    (routine r p).Below n k ↔
      CallOrder.order r < n ∨ CallOrder.order r = n ∧ CallOrder.rest r < k := Iff.rfl

@[simp]
theorem below_pure (a : α) : (pure a : Scripted K R α).Below n k := trivial

@[simp]
theorem below_bind : (p >>= f).Below n k ↔ p.Below n k ∧ ∀ a, (f a).Below n k := Iff.rfl

@[simp]
theorem below_discard : (discard p : Scripted K R Unit).Below n k ↔ p.Below n k :=
  and_iff_left fun _ => trivial

@[simp]
theorem below_ite
    {q : Scripted K R α}
    (c : Prop)
    [Decidable c] :
    (if c then p else q).Below n k ↔ (c → p.Below n k) ∧ (¬ c → q.Below n k) := by
  split <;> simp [*]

@[simp]
theorem below_iterate
    (body : σ → Scripted K R (Bool × σ))
    (s : σ) :
    (iterate body s).Below n k ↔ ∀ v, (body v).Below n k := Iff.rfl

@[simp]
theorem below_advance : (advance : Scripted K R Unit).Below n k := trivial

@[simp]
theorem below_report (fault : Fault K) : (report fault : Scripted K R Unit).Below n k := trivial

@[simp]
theorem below_ensure (holds : Bool) : (ensure holds : Scripted K R Unit).Below n k := by
  cases holds <;> trivial

@[simp]
theorem below_atEnd : (atEnd : Scripted K R Bool).Below n k := trivial

@[simp]
theorem below_prev : (prev? : Scripted K R (Option K)).Below n k := trivial

@[simp]
theorem below_text : (text : Scripted K R Text).Below n k := trivial

@[simp]
theorem below_moves (p : Scripted K R Unit) : (moves p).Below n k ↔ p.Below n k :=
  ⟨fun h => (h.2 0).1, fun h => ⟨trivial, fun _ => ⟨h, fun _ => trivial⟩⟩⟩

@[simp]
theorem below_nodeOf (body : Scripted K R K) : (nodeOf body).Below n k ↔ body.Below n k :=
  ⟨fun h => (h.2 ()).1, fun h => ⟨trivial, fun _ => ⟨h, fun _ => ⟨trivial, fun _ => trivial⟩⟩⟩⟩

@[simp]
theorem below_node
    (kind : K)
    (body : Scripted K R Unit) :
    (node kind body).Below n k ↔ body.Below n k := by
  simp [node]

@[simp]
theorem below_wrapOf (body : Scripted K R K) : (wrapOf body).Below n k ↔ body.Below n k :=
  ⟨fun h => (h.2 ()).1, fun h => ⟨trivial, fun _ => ⟨h, fun _ => ⟨trivial, fun _ => trivial⟩⟩⟩⟩

@[simp]
theorem below_wrap
    (kind : K)
    (body : Scripted K R Unit) :
    (wrap kind body).Below n k ↔ body.Below n k := by
  simp [wrap]

@[simp]
theorem below_whole
    (kind : K)
    (body : Scripted K R Unit) :
    (whole kind body).Below n k ↔ body.Below n k := by
  rw [whole, below_discard, below_node]
  exact and_iff_left fun _ => trivial

@[simp]
theorem below_repeatWhile (body : Scripted K R Bool) :
    (repeatWhile body).Below n k ↔ body.Below n k := by
  simp [repeatWhile]

variable [Vocabulary K]

@[simp]
theorem below_nth (m : Nat) : (nth m : Scripted K R K).Below n k := trivial

@[simp]
theorem below_peek : (peek : Scripted K R K).Below n k := trivial

@[simp]
theorem below_atAny (set : KindSet K) : (atAny set : Scripted K R Bool).Below n k := by
  simp [atAny]

@[simp]
theorem below_passToken (depth : Nat) :
    (passToken depth : Scripted K R (Bool × Nat)).Below n k := by
  refine below_bind.mpr ⟨below_atEnd, fun isEnd => ?_⟩
  split
  · trivial
  · refine below_bind.mpr ⟨below_peek, fun kind => ?_⟩
    split <;> simp

@[simp]
theorem below_tooDeep : (tooDeep : Scripted K R Unit).Below n k := by
  simp [tooDeep, passOver]

variable [DecidableEq K]

@[simp]
theorem below_nthAt
    (m : Nat)
    (kind : K) :
    (nthAt m kind : Scripted K R Bool).Below n k := by
  simp [nthAt]

@[simp]
theorem below_at (kind : K) : (at_ kind : Scripted K R Bool).Below n k := below_nthAt 0 kind

@[simp]
theorem below_eat (kind : K) : (eat kind : Scripted K R Bool).Below n k := by
  simp [eat]

@[simp]
theorem below_skip (kind : K) : (skip kind : Scripted K R Unit).Below n k := by
  simp [skip]

@[simp]
theorem below_expect (kind : K) : (expect kind : Scripted K R Unit).Below n k := by
  simp [expect]

@[simp]
theorem below_bump (fault : Fault K) : (bump fault : Scripted K R Unit).Below n k := by
  simp [bump]

@[simp]
theorem below_recover
    (fault : Fault K)
    (recovery : KindSet K) :
    (recover fault recovery : Scripted K R Unit).Below n k := by
  simp [recover]

end Scripted
end Calls

/-- The bodies of routines are those of their parsers, and call each other in order. -/
class LawfulGrammar (K : outParam Type) (R : Type → Type)
    [Grammar K R] [CallOrder R] : Prop where
  denote_body {α : Type} : ∀ (r : R α) (depth : Nat),
    (Grammar.body r).denote depth = Grammar.parser r depth
  calls_body {α : Type} : ∀ r : R α, (Grammar.body r).Calls (CallOrder.May r) False
  idle_body {α : Type} : ∀ (r : R α) (a : α), (Grammar.body r).Idle a → CallOrder.Idle r a
  order_lt {α : Type} : ∀ r : R α, CallOrder.order r < CallOrder.functions R
  rest_lt {α : Type} : ∀ r : R α, CallOrder.rest r < CallOrder.spread R

/-! ## How many calls there can be at once -/

section Counting

variable {K : Type} {R : Type → Type} [Grammar K R] [CallOrder R] {α β : Type}

namespace CallOrder

/-- How many calls there can be at once between two openings of a level. -/
def perLevel (R : Type → Type) [CallOrder R] : Nat := functions R * spread R

/-- The place of a call among those that can be made at once without opening a level. -/
def place (r : R α) : Nat := order r * spread R + rest r

variable [LawfulGrammar K R]
include K

theorem place_lt_place
    {r : R α}
    {r' : R β}
    (h : order r' < order r ∨ order r' = order r ∧ rest r' < rest r) :
    place r' < place r := by
  unfold place
  rcases h with hless | ⟨hsame, hless⟩
  · have hmul := Nat.mul_le_mul_right (spread R) (Nat.succ_le_of_lt hless)
    have hrest := LawfulGrammar.rest_lt r'
    rw [Nat.succ_mul] at hmul
    omega
  · rw [hsame]
    omega

theorem place_lt (r : R α) : place r < perLevel R := by
  have hmul := Nat.mul_le_mul_right (spread R) (Nat.succ_le_of_lt (LawfulGrammar.order_lt r))
  have hrest := LawfulGrammar.rest_lt r
  rw [Nat.succ_mul] at hmul
  unfold place perLevel
  omega

end CallOrder

open CallOrder

/-- A number that grows from every call on a stack to those on top of it. -/
def Activation.height (a : Activation R) : Nat :=
  a.depth * perLevel R + (perLevel R - 1 - place a.routine)

variable [LawfulGrammar K R]
include K

theorem Activation.Precedes.height_lt
    {a b : Activation R}
    (h : a.Precedes b) :
    a.height < b.height := by
  have ha := place_lt a.routine
  have hb := place_lt b.routine
  unfold height
  rcases h with ⟨hdepth, -⟩ | ⟨hdepth, -, hless⟩ | ⟨hdepth, -, hsame, hless⟩
  · have hmul := Nat.mul_le_mul_right (perLevel R) (Nat.succ_le_of_lt hdepth)
    rw [Nat.succ_mul] at hmul
    omega
  · have hplace := place_lt_place (.inl hless)
    rw [hdepth]
    omega
  · have hplace := place_lt_place (.inr ⟨hsame, hless⟩)
    rw [hdepth]
    omega

theorem Activation.height_lt
    {a : Activation R}
    (h : a.depth ≤ maxDepth) :
    a.height < perLevel R * (maxDepth + 1) := by
  have ha := place_lt a.routine
  have hmul := Nat.mul_le_mul_left (perLevel R) h
  rw [height, Nat.mul_succ, Nat.mul_comm]
  omega

omit [Grammar K R] [CallOrder R] [LawfulGrammar K R] in
omit K in
/-- Numbers that decrease to nothing are not many. -/
theorem length_le_of_pairwise_gt
    {ns : List Nat}
    {n : Nat}
    (h : ns.Pairwise (· > ·))
    (hn : ∀ m ∈ ns, m < n) :
    ns.length ≤ n := by
  induction ns generalizing n with
  | nil => exact Nat.zero_le n
  | cons m ns ih =>
      obtain ⟨hm, hns⟩ := List.pairwise_cons.mp h
      exact Nat.lt_of_le_of_lt (ih hns hm) (hn m List.mem_cons_self)

/-- There are never more calls at once than a number that depends on the grammar only. -/
theorem Activation.length_le_of_pairwise_precedes
    {stack : List (Activation R)}
    (h : stack.Pairwise fun c b => b.Precedes c)
    (hdepth : ∀ a ∈ stack, a.depth ≤ maxDepth) :
    stack.length ≤ perLevel R * (maxDepth + 1) := by
  rw [← List.length_map height]
  refine length_le_of_pairwise_gt (List.pairwise_map.mpr ?_) ?_
  · exact h.imp fun hprecedes => hprecedes.height_lt
  · intro n hn
    obtain ⟨a, ha, rfl⟩ := List.mem_map.mp hn
    exact height_lt (hdepth a ha)

end Counting
end ZigCst
