import Mathlib.Data.List.Induction
import ZigCst.Proofs.Storage

/-!
# What a builder refuses

A run of a builder is any sequence of calls, followed by taking the tree off it.  Every
call is checked on its own, and together the checks let exactly those runs pass whose
calls are one bracketed root node and whose pieces fit the text.

**Calls.**  `Call.Rooted` counts: inside the first call and the last there is always a
node started and not finished.  `Call.rooted_iff_exists_plan` says that these are the
calls of a plan whose root is a node.

**Step.**  `Scaffold.Accepts` lists what a call can do.  A node is started inside the root
or as the root, a token is added inside the root as far as its pieces can be cut off the
text, and an open node is finished.

**Run.**  `Scaffold.Reached` says how far a run has come by the calls made so far: as
many nodes are open as were started and not finished, every call but the first was made
inside the root, and the pieces so far are cut off the text.  One call preserves this,
so every run does, and a call is accepted exactly where it goes on so.  A builder goes
through where the scaffold that its arrays stand for does.

**Results.**
* `Builder.exists_finish_perform_iff`: a run goes through exactly if its calls are rooted
  and its pieces fit the text.
* `Scaffold.finish_perform_eq_ok_iff`: the tree of a run is that of the plan its calls make.
-/

namespace ZigCst

/-! ## Runs -/

namespace Call

variable {K : Type}

/-- How much deeper a call leads. -/
def rise : Call K → Int
  | .start _ => 1
  | .token _ => 0
  | .finish => -1

/-- How many nodes calls start and do not finish. -/
def depth : List (Call K) → Int
  | [] => 0
  | c :: calls => c.rise + depth calls

/-- The pieces that a call pushes, in order. -/
def pieces : Call K → List (Piece K)
  | .token s => s.pieces
  | _ => []

/-- Whether calls are one bracketed root node. -/
structure Rooted (calls : List (Call K)) : Prop where
  /-- The first call starts the root. -/
  begins : ∃ kind, calls.head? = some (.start kind)
  /-- Between the first call and the last, the root is open. -/
  inside : ∀ front back, calls = front ++ back → front ≠ [] → back ≠ [] → 0 < depth front
  /-- In the end everything is finished. -/
  balanced : depth calls = 0

/-- Whether a call may follow others: the first one starts the root, and all others
are made inside it. -/
def Follows (calls : List (Call K)) (c : Call K) : Prop :=
  (calls = [] ∧ ∃ kind, c = .start kind) ∨ 0 < depth calls

/-- Whether every one of some calls may follow those before it. -/
def Underway (calls : List (Call K)) : Prop :=
  ∀ front c back, calls = front ++ c :: back → Follows front c

@[simp]
theorem depth_nil : depth ([] : List (Call K)) = 0 := rfl

theorem depth_cons (c : Call K) (calls : List (Call K)) :
    depth (c :: calls) = c.rise + depth calls := rfl

theorem depth_append (calls more : List (Call K)) :
    depth (calls ++ more) = depth calls + depth more := by
  induction calls with
  | nil => rw [List.nil_append, depth_nil, Int.zero_add]
  | cons c calls ih => rw [List.cons_append, depth_cons, depth_cons, ih, Int.add_assoc]

theorem depth_concat (calls : List (Call K)) (c : Call K) :
    depth (calls ++ [c]) = depth calls + c.rise := by
  rw [depth_append, depth_cons, depth_nil, Int.add_zero]

theorem underway_nil : Underway ([] : List (Call K)) := by
  intro front c back h
  simp at h

theorem underway_concat_iff
    {calls : List (Call K)}
    {c : Call K} :
    Underway (calls ++ [c]) ↔ Underway calls ∧ Follows calls c := by
  constructor
  · intro h
    refine ⟨fun front d back hsplit => ?_, h calls c [] rfl⟩
    exact h front d (back ++ [c]) (by rw [hsplit, List.append_assoc, List.cons_append])
  · rintro ⟨hcalls, hc⟩ front d back hsplit
    rcases List.eq_nil_or_concat back with rfl | ⟨back, e, rfl⟩
    · obtain ⟨rfl, heq⟩ := List.append_inj' hsplit rfl
      obtain rfl := (List.cons.inj heq).1
      exact hc
    · rw [List.concat_eq_append, ← List.cons_append, ← List.append_assoc] at hsplit
      exact hcalls front d back (List.append_inj' hsplit rfl).1

/-- Rooted calls are those that are underway all along and come to an end. -/
theorem rooted_iff
    {calls : List (Call K)} :
    Rooted calls ↔ calls ≠ [] ∧ Underway calls ∧ depth calls = 0 := by
  constructor
  · rintro ⟨⟨kind, hkind⟩, hinside, hbalanced⟩
    refine ⟨by rintro rfl; simp at hkind, fun front c back hsplit => ?_, hbalanced⟩
    cases front with
    | nil =>
        rw [hsplit] at hkind
        exact .inl ⟨rfl, kind, Option.some.inj hkind⟩
    | cons d front =>
        exact .inr (hinside _ _ hsplit (List.cons_ne_nil _ _) (List.cons_ne_nil _ _))
  · rintro ⟨hsome, hunderway, hbalanced⟩
    refine ⟨?_, fun front back hsplit hfront hback => ?_, hbalanced⟩
    · obtain ⟨c, back, rfl⟩ := List.exists_cons_of_ne_nil hsome
      rcases hunderway [] c back rfl with ⟨-, kind, rfl⟩ | hdepth
      · exact ⟨kind, rfl⟩
      · exact absurd hdepth (Int.lt_irrefl 0)
    · obtain ⟨c, back, rfl⟩ := List.exists_cons_of_ne_nil hback
      rcases hunderway front c back hsplit with ⟨hnil, -⟩ | hdepth
      · exact absurd hnil hfront
      · exact hdepth

/-! ## Rooted calls and plans -/

/-- Whether calls leave the open nodes as they are. -/
structure Level (calls : List (Call K)) : Prop where
  /-- On the way no node is finished that was open before. -/
  nonneg : ∀ front back, calls = front ++ back → 0 ≤ depth front
  balanced : depth calls = 0

theorem level_nil : Level ([] : List (Call K)) where
  nonneg front back h := by
    obtain rfl := (List.append_eq_nil_iff.mp h.symm).1
    exact Int.le_refl 0
  balanced := rfl

theorem level_token (s : Stretch K) : Level [token s] where
  nonneg front back h := by
    rcases List.singleton_eq_append_iff.mp h with ⟨rfl, -⟩ | ⟨rfl, -⟩ <;> exact Int.le_refl 0
  balanced := rfl

theorem Level.append
    {calls more : List (Call K)}
    (hcalls : Level calls)
    (hmore : Level more) :
    Level (calls ++ more) where
  nonneg front back h := by
    rcases List.append_eq_append_iff.mp h with ⟨late, rfl, hlate⟩ | ⟨late, hlate, -⟩
    · rw [depth_append, hcalls.balanced, Int.zero_add]
      exact hmore.nonneg late back hlate
    · exact hcalls.nonneg front late hlate
  balanced := by
    rw [depth_append, hcalls.balanced, hmore.balanced]
    rfl

/-- Level calls between the start and the end of a node are rooted. -/
theorem Level.rooted
    {calls : List (Call K)}
    (h : Level calls)
    (kind : K) :
    Rooted (start kind :: (calls ++ [finish])) where
  begins := ⟨kind, rfl⟩
  inside front back hsplit hfront hback := by
    obtain ⟨c, front, rfl⟩ := List.exists_cons_of_ne_nil hfront
    obtain ⟨back, d, rfl⟩ := (List.eq_nil_or_concat back).resolve_left hback
    rw [List.concat_eq_append, ← List.append_assoc, List.cons_append, List.cons_append] at hsplit
    obtain ⟨rfl, hrest⟩ := List.cons.inj hsplit
    have hlevel : 0 ≤ depth front := h.nonneg front back (List.append_inj' hrest rfl).1
    rw [depth_cons, rise]
    omega
  balanced := by
    rw [depth_cons, depth_append, h.balanced]
    rfl

theorem Rooted.level
    {calls : List (Call K)}
    (h : Rooted calls) :
    Level calls where
  nonneg front back hsplit := by
    by_cases hfront : front = []
    · subst hfront
      exact Int.le_refl 0
    · by_cases hback : back = []
      · rw [hback, List.append_nil] at hsplit
        subst hsplit
        exact Int.le_of_eq h.balanced.symm
      · exact Int.le_of_lt (h.inside front back hsplit hfront hback)
  balanced := h.balanced

end Call

mutual

theorem Plan.level_calls {K : Type} (p : Plan K) : Call.Level (calls p) := by
  cases p with
  | leaf s => exact Call.level_token s
  | node kind children => exact ((Plan.level_callsAll children).rooted kind).level

theorem Plan.level_callsAll {K : Type} (ps : List (Plan K)) : Call.Level (callsAll ps) := by
  cases ps with
  | nil => exact Call.level_nil
  | cons p ps => exact (Plan.level_calls p).append (Plan.level_callsAll ps)

end

theorem Plan.callsAll_concat {K : Type} (ps : List (Plan K)) (p : Plan K) :
    callsAll (ps ++ [p]) = callsAll ps ++ calls p := by
  induction ps with
  | nil => simp [callsAll]
  | cons q ps ih => rw [List.cons_append, callsAll, callsAll, ih, List.append_assoc]

namespace Call

variable {K : Type}

/-- The calls by which nested open nodes were started and filled, the outermost first. -/
def opening (spine : List (K × List (Plan K))) : List (Call K) :=
  spine.flatMap fun f => start f.1 :: Plan.callsAll f.2

theorem opening_concat
    (spine : List (K × List (Plan K)))
    (kind : K)
    (ps : List (Plan K)) :
    opening (spine ++ [(kind, ps)]) = opening spine ++ start kind :: Plan.callsAll ps := by
  simp [opening]

theorem depth_opening (spine : List (K × List (Plan K))) :
    depth (opening spine) = spine.length := by
  induction spine with
  | nil => rfl
  | cons f spine ih =>
      rw [opening, List.flatMap_cons, depth_append, depth_cons,
        (Plan.level_callsAll f.2).balanced, ← opening, ih, rise, List.length_cons]
      omega

/-- Calls inside a root are those of nested open nodes, or those of a whole plan. -/
theorem Underway.exists_plan
    {calls : List (Call K)}
    (h : Underway calls) :
    (∃ spine, calls = opening spine) ∨
      ∃ kind children, calls = Plan.calls (.node kind children) := by
  induction calls using List.reverseRecOn with
  | nil => exact .inl ⟨[], rfl⟩
  | append_singleton calls c ih =>
      obtain ⟨hcalls, hfollows⟩ := underway_concat_iff.mp h
      rcases ih hcalls with ⟨spine, rfl⟩ | ⟨kind, children, rfl⟩
      · rcases List.eq_nil_or_concat spine with rfl | ⟨spine, ⟨kind, ps⟩, rfl⟩
        · -- Nothing was started yet.
          obtain ⟨-, kind, rfl⟩ := hfollows.resolve_right (Int.lt_irrefl 0)
          exact .inl ⟨[(kind, [])], rfl⟩
        · rw [List.concat_eq_append]
          cases c with
          | start kind' =>
              exact .inl ⟨spine ++ [(kind, ps)] ++ [(kind', [])], by
                rw [opening_concat _ kind']; rfl⟩
          | token s =>
              exact .inl ⟨spine ++ [(kind, ps ++ [.leaf s])], by
                rw [opening_concat, opening_concat, Plan.callsAll_concat]
                simp [Plan.calls]⟩
          | finish =>
              rcases List.eq_nil_or_concat spine with rfl | ⟨spine, ⟨kind', qs⟩, rfl⟩
              · exact .inr ⟨kind, ps, by rw [opening_concat]; rfl⟩
              · exact .inl ⟨spine ++ [(kind', qs ++ [.node kind ps])], by
                  rw [List.concat_eq_append, opening_concat, opening_concat, opening_concat,
                    Plan.callsAll_concat]
                  simp [Plan.calls]⟩
      · -- Everything is finished, so nothing may follow.
        rcases hfollows with ⟨hnil, -⟩ | hdepth
        · exact absurd hnil (by simp [Plan.calls])
        · rw [(Plan.level_calls _).balanced] at hdepth
          exact absurd hdepth (Int.lt_irrefl 0)

/-- Rooted calls are exactly those by which the node of a plan is built. -/
theorem rooted_iff_exists_plan
    {calls : List (Call K)} :
    Rooted calls ↔ ∃ kind children, calls = Plan.calls (.node kind children) := by
  constructor
  · intro h
    obtain ⟨hsome, hunderway, hbalanced⟩ := rooted_iff.mp h
    rcases hunderway.exists_plan with ⟨spine, rfl⟩ | hplan
    · rw [depth_opening, Int.natCast_eq_zero, List.length_eq_zero_iff] at hbalanced
      exact absurd (congrArg opening hbalanced) hsome
    · exact hplan
  · rintro ⟨kind, children, rfl⟩
    exact (Plan.level_callsAll children).rooted kind

end Call

/-! ## One call -/

namespace Scaffold

variable {K : Type}

/-- What a call does where it is accepted. -/
inductive Accepts : Scaffold K → Call K → Scaffold K → Prop where
  | start (size : Nat) (rest : Text) (frames : List (Frame K)) (root : Option (Root K))
      (kind : K) (h : frames ≠ [] ∨ root = none) :
      Accepts ⟨size, rest, frames, root⟩ (.start kind) ⟨size, rest, ⟨kind, []⟩ :: frames, root⟩
  | token (size : Nat) (text rest : Text) (f : Frame K) (frames : List (Frame K))
      (root : Option (Root K)) (s : Stretch K) (ls : List (Lexeme K))
      (h : Piece.cut? s.pieces text = some (ls, rest)) :
      Accepts ⟨size, text, f :: frames, root⟩ (.token s)
        ⟨size, rest, f.fill (ls.map Lexeme.tree) :: frames, root⟩
  | finish (size : Nat) (rest : Text) (f g : Frame K) (frames : List (Frame K))
      (root : Option (Root K)) :
      Accepts ⟨size, rest, f :: g :: frames, root⟩ .finish
        ⟨size, rest, g.push f.close.tree :: frames, root⟩
  | finishRoot (size : Nat) (rest : Text) (f : Frame K) (root : Option (Root K)) :
      Accepts ⟨size, rest, [f], root⟩ .finish ⟨size, rest, [], some f.close⟩

/-- Outside every node, no piece is added. -/
theorem pushAll_ne_ok
    (size : Nat)
    (text : Text)
    (root : Option (Root K))
    {ps : List (Piece K)}
    (hps : ps ≠ [])
    (b : Scaffold K) :
    (Scaffold.mk size text [] root).pushAll ps ≠ .ok b := by
  obtain ⟨p, ps, rfl⟩ := List.exists_cons_of_ne_nil hps
  rw [pushAll_cons, push]
  cases text.splitAt? p.length with
  | none =>
      intro h
      cases h
  | some cut =>
      intro h
      cases h

theorem start_eq_ok_iff
    {b b' : Scaffold K}
    {kind : K} :
    b.start kind = .ok b' ↔ Accepts b (.start kind) b' := by
  constructor
  · intro h
    obtain ⟨size, rest, frames, root⟩ := b
    cases frames with
    | nil =>
        cases root with
        | none =>
            obtain rfl := Except.ok.inj h
            exact .start _ _ _ _ _ (.inr rfl)
        | some root => exact nomatch h
    | cons f frames =>
        obtain rfl := Except.ok.inj h
        exact .start _ _ _ _ _ (.inl (List.cons_ne_nil _ _))
  · rintro ⟨size, rest, frames, root, -, hroot⟩
    cases frames with
    | nil =>
        obtain rfl := hroot.resolve_left fun hne => hne rfl
        rfl
    | cons f frames => rfl

theorem pushAll_pieces_eq_ok_iff
    {b b' : Scaffold K}
    {s : Stretch K} :
    b.pushAll s.pieces = .ok b' ↔ Accepts b (.token s) b' := by
  constructor
  · intro h
    obtain ⟨size, text, frames, root⟩ := b
    cases frames with
    | nil => exact absurd h (pushAll_ne_ok size text root (by simp [Stretch.pieces]) b')
    | cons f frames =>
        rw [← toOption_eq_some_iff, pushAll_toOption] at h
        obtain ⟨⟨ls, rest⟩, hcut, rfl⟩ := Option.map_eq_some_iff.mp h
        exact .token _ _ _ _ _ _ _ _ hcut
  · intro h
    cases h with
    | token size text rest f frames root s ls hcut =>
        rw [← toOption_eq_some_iff, pushAll_toOption, hcut]
        rfl

theorem finishNode_eq_ok_iff
    {b b' : Scaffold K} :
    b.finishNode = .ok b' ↔ Accepts b .finish b' := by
  constructor
  · intro h
    obtain ⟨size, rest, frames, root⟩ := b
    match frames with
    | [] => exact nomatch h
    | [f] =>
        obtain rfl := Except.ok.inj h
        exact .finishRoot _ _ _ _
    | f :: g :: frames =>
        obtain rfl := Except.ok.inj h
        exact .finish _ _ _ _ _ _
  · intro h
    cases h <;> rfl

theorem call_eq_ok_iff
    {b b' : Scaffold K}
    {c : Call K} :
    b.call c = .ok b' ↔ Accepts b c b' := by
  cases c with
  | start kind => exact start_eq_ok_iff
  | token s => exact pushAll_pieces_eq_ok_iff
  | finish => exact finishNode_eq_ok_iff

/-- A call is accepted exactly if a node is open or it starts the root, and its pieces
can be cut off what is left of the text. -/
theorem exists_accepts_iff
    {b : Scaffold K}
    {c : Call K} :
    (∃ b', Accepts b c b') ↔
      (b.frames ≠ [] ∨ b.root = none ∧ ∃ kind, c = .start kind) ∧
        (Piece.cut? c.pieces b.rest).isSome := by
  constructor
  · rintro ⟨b', h⟩
    cases h with
    | start size rest frames root kind hopen =>
        exact ⟨hopen.imp_right fun hroot => ⟨hroot, kind, rfl⟩, rfl⟩
    | token size text rest f frames root s ls hcut =>
        exact ⟨.inl (List.cons_ne_nil _ _), Option.isSome_of_eq_some hcut⟩
    | finish => exact ⟨.inl (List.cons_ne_nil _ _), rfl⟩
    | finishRoot => exact ⟨.inl (List.cons_ne_nil _ _), rfl⟩
  · rintro ⟨hopen, hpieces⟩
    obtain ⟨size, text, frames, root⟩ := b
    cases c with
    | start kind => exact ⟨_, .start _ _ _ _ _ (hopen.imp_right And.left)⟩
    | token s =>
        obtain ⟨f, frames, rfl⟩ := List.exists_cons_of_ne_nil (hopen.resolve_right (by simp))
        obtain ⟨⟨ls, rest⟩, hcut⟩ := Option.isSome_iff_exists.mp hpieces
        exact ⟨_, .token _ _ _ _ _ _ _ _ hcut⟩
    | finish =>
        obtain ⟨f, frames, rfl⟩ := List.exists_cons_of_ne_nil (hopen.resolve_right (by simp))
        cases frames with
        | nil => exact ⟨_, .finishRoot _ _ _ _⟩
        | cons g frames => exact ⟨_, .finish _ _ _ _ _ _⟩

/-- What is asked of a builder at the end. -/
theorem finish_eq_ok_iff
    {b : Scaffold K}
    {root : Root K} :
    b.finish = .ok root ↔ b.frames = [] ∧ b.root = some root ∧ b.rest = [] := by
  obtain ⟨size, rest, frames, root'⟩ := b
  constructor
  · intro h
    match frames, root', rest with
    | [], some _, [] => exact ⟨rfl, congrArg some (Except.ok.inj h), rfl⟩
  · rintro ⟨rfl, rfl, rfl⟩
    rfl

/-! ## A run of calls -/

/-- How far a builder has come by calls that were all accepted. -/
structure Reached (text : Text) (calls : List (Call K)) (b : Scaffold K) : Prop where
  underway : Call.Underway calls
  /-- The pieces so far are cut off the text. -/
  cut : ∃ ls, Piece.cut? (calls.flatMap Call.pieces) text = some (ls, b.rest)
  /-- The open nodes are those that were started and not finished. -/
  frames : (b.frames.length : Int) = Call.depth calls
  /-- There is a root once everything is finished. -/
  root : b.root.isSome ↔ calls ≠ [] ∧ b.frames = []

theorem reached_ofText (text : Text) : Reached text ([] : List (Call K)) (ofText text) where
  underway := Call.underway_nil
  cut := ⟨[], rfl⟩
  frames := rfl
  root := by simp [ofText]

namespace Reached

variable {text : Text} {calls : List (Call K)} {b b' : Scaffold K} {c : Call K}

theorem frames_ne_nil_iff (h : Reached text calls b) :
    b.frames ≠ [] ↔ 0 < Call.depth calls := by
  rw [← h.frames, Int.natCast_pos, List.length_pos_iff]

theorem root_eq_none_iff (h : Reached text calls b) :
    b.root = none ↔ calls = [] ∨ b.frames ≠ [] := by
  rw [← Option.not_isSome_iff_eq_none, h.root, Classical.not_and_iff_not_or_not,
    Classical.not_not]

theorem follows_iff (h : Reached text calls b) :
    Call.Follows calls c ↔ b.frames ≠ [] ∨ b.root = none ∧ ∃ kind, c = .start kind := by
  rw [Call.Follows, h.root_eq_none_iff, h.frames_ne_nil_iff]
  constructor
  · rintro (⟨hcalls, hstart⟩ | hdepth)
    · exact .inr ⟨.inl hcalls, hstart⟩
    · exact .inl hdepth
  · rintro (hdepth | ⟨hcalls | hdepth, hstart⟩)
    · exact .inr hdepth
    · exact .inl ⟨hcalls, hstart⟩
    · exact .inr hdepth

/-- A call is accepted exactly where it may follow the calls so far and its pieces can
be cut off what is left of the text. -/
theorem accepts_iff (h : Reached text calls b) :
    (∃ b', Accepts b c b') ↔ Call.Follows calls c ∧ (Piece.cut? c.pieces b.rest).isSome := by
  rw [exists_accepts_iff, h.follows_iff]

/-- One call more. -/
theorem concat
    (h : Reached text calls b)
    (hb' : Accepts b c b') :
    Reached text (calls ++ [c]) b' := by
  have hfollows : Call.Follows calls c := (h.accepts_iff.mp ⟨b', hb'⟩).1
  have hroot : b.root = none :=
    h.root_eq_none_iff.mpr (hfollows.imp And.left h.frames_ne_nil_iff.mpr)
  obtain ⟨ls, hls⟩ := h.cut
  have hframes := h.frames
  refine ⟨Call.underway_concat_iff.mpr ⟨h.underway, hfollows⟩, ?_, ?_, ?_⟩
  · rw [List.flatMap_append, Piece.cut?_append, hls]
    cases hb' with
    | token size text rest f frames root s ms hcut =>
        exact ⟨ls ++ ms, by simp [Call.pieces, hcut]⟩
    | _ => exact ⟨ls, by simp [Call.pieces, Piece.cut?]⟩
  · rw [Call.depth_concat, ← hframes]
    cases hb' with
    | finish size rest f g frames root =>
        simp only [List.length_cons, Call.rise]
        omega
    | _ => simp [Call.rise]
  · cases hb' with
    | finishRoot size rest f root => simp
    | _ => simpa using hroot

end Reached

/-- A computation in two steps has a result exactly if both of its steps have one. -/
theorem bind_eq_ok_iff
    {ε α β : Type}
    {x : Except ε α}
    {f : α → Except ε β}
    {b : β} :
    x >>= f = .ok b ↔ ∃ a, x = .ok a ∧ f a = .ok b := by
  simp only [← toOption_eq_some_iff, toOption_bind, Option.bind_eq_some_iff]

theorem perform_concat
    (b : Scaffold K)
    (calls : List (Call K))
    (c : Call K) :
    b.perform (calls ++ [c]) = b.perform calls >>= fun b => b.call c := by
  simp only [perform, List.foldlM_append, List.foldlM_cons, List.foldlM_nil, bind_pure]

/-- Every accepted run is one that has come as far as its calls say. -/
theorem reached_of_perform
    {text : Text}
    {calls : List (Call K)}
    {b : Scaffold K}
    (h : (ofText text).perform calls = .ok b) :
    Reached text calls b := by
  induction calls using List.reverseRecOn generalizing b with
  | nil =>
      obtain rfl := Except.ok.inj h
      exact reached_ofText text
  | append_singleton calls c ih =>
      rw [perform_concat] at h
      obtain ⟨b₀, hcalls, hc⟩ := bind_eq_ok_iff.mp h
      exact (ih hcalls).concat (call_eq_ok_iff.mp hc)

/-- Calls that are all made inside the root are accepted as far as the text can be cut
by their pieces. -/
theorem exists_perform
    {text : Text}
    {calls : List (Call K)}
    (hunderway : Call.Underway calls)
    (hcut : (Piece.cut? (calls.flatMap Call.pieces) text).isSome) :
    ∃ b, (ofText text).perform calls = .ok b := by
  induction calls using List.reverseRecOn with
  | nil => exact ⟨_, rfl⟩
  | append_singleton calls c ih =>
      obtain ⟨hcalls, hfollows⟩ := Call.underway_concat_iff.mp hunderway
      rw [List.flatMap_append, Piece.cut?_append] at hcut
      obtain ⟨cut, hcut⟩ := Option.isSome_iff_exists.mp hcut
      obtain ⟨⟨ls, rest⟩, hls, hlast⟩ := Option.bind_eq_some_iff.mp hcut
      obtain ⟨last, hlast, -⟩ := Option.map_eq_some_iff.mp hlast
      obtain ⟨b, hb⟩ := ih hcalls (Option.isSome_of_eq_some hls)
      have hreached : Reached text calls b := reached_of_perform hb
      have hpieces : (Piece.cut? c.pieces b.rest).isSome := by
        obtain ⟨ls', hls'⟩ := hreached.cut
        obtain ⟨-, rfl⟩ : ls = ls' ∧ rest = b.rest := by simpa [hls'] using hls.symm
        rw [← List.flatMap_singleton Call.pieces c]
        exact Option.isSome_of_eq_some hlast
      obtain ⟨b', hb'⟩ := hreached.accepts_iff.mpr ⟨hfollows, hpieces⟩
      refine ⟨b', ?_⟩
      rw [perform_concat]
      exact bind_eq_ok_iff.mpr ⟨b, hb, call_eq_ok_iff.mpr hb'⟩

/-- A builder gives its tree only after rooted calls, with its text used up. -/
theorem rooted_of_finish
    {text : Text}
    {calls : List (Call K)}
    {root : Root K}
    (h : ((ofText text).perform calls >>= finish) = .ok root) :
    Call.Rooted calls ∧ ∃ ls, Piece.cut? (calls.flatMap Call.pieces) text = some (ls, []) := by
  obtain ⟨b, hb, hfinish⟩ := bind_eq_ok_iff.mp h
  obtain ⟨hframes, hroot, hrest⟩ := finish_eq_ok_iff.mp hfinish
  have hreached : Reached text calls b := reached_of_perform hb
  constructor
  · refine Call.rooted_iff.mpr ⟨?_, hreached.underway, ?_⟩
    · exact (hreached.root.mp (Option.isSome_of_eq_some hroot)).1
    · rw [← hreached.frames, hframes]
      rfl
  · rw [← hrest]
    exact hreached.cut

/-- Calls of a scaffold go through to the end exactly if they are rooted and their pieces
fit the text. -/
theorem exists_root_iff
    (text : Text)
    (calls : List (Call K)) :
    (∃ root, ((ofText text).perform calls >>= finish) = .ok root) ↔
      Call.Rooted calls ∧ Piece.Fit (calls.flatMap Call.pieces) text := by
  rw [Piece.fit_iff]
  constructor
  · rintro ⟨root, h⟩
    exact rooted_of_finish h
  · rintro ⟨hrooted, ls, hls⟩
    obtain ⟨hsome, hunderway, hbalanced⟩ := Call.rooted_iff.mp hrooted
    obtain ⟨b, hb⟩ := exists_perform hunderway (Option.isSome_of_eq_some hls)
    have hreached : Reached text calls b := reached_of_perform hb
    have hframes : b.frames = [] := by
      have hlength := hreached.frames
      rw [hbalanced] at hlength
      exact List.length_eq_zero_iff.mp (Int.ofNat_inj.mp hlength)
    obtain ⟨root, hroot⟩ := Option.isSome_iff_exists.mp (hreached.root.mpr ⟨hsome, hframes⟩)
    have hrest : b.rest = [] := by
      obtain ⟨ls', hls'⟩ := hreached.cut
      exact (Prod.mk.inj (Option.some.inj (hls'.symm.trans hls))).2
    exact ⟨root, bind_eq_ok_iff.mpr ⟨b, hb, finish_eq_ok_iff.mpr ⟨hframes, hroot, hrest⟩⟩⟩

/-- The tree of a run that goes through is the tree of the plan that its calls make. -/
theorem finish_perform_eq_ok_iff
    {text : Text}
    {calls : List (Call K)}
    {root : Root K} :
    ((ofText text).perform calls >>= finish) = .ok root ↔
      ∃ kind children,
        calls = Plan.calls (.node kind children) ∧
        Plan.root? text (.node kind children) = some root := by
  constructor
  · intro h
    obtain ⟨kind, children, rfl⟩ := Call.rooted_iff_exists_plan.mp (rooted_of_finish h).1
    exact ⟨kind, children, rfl, by rw [← perform_calls_finish, h, toOption_ok]⟩
  · rintro ⟨kind, children, rfl, hroot⟩
    rw [← toOption_eq_some_iff, perform_calls_finish, hroot]

end Scaffold

/-- **A builder refuses exactly the malformed runs.**  Calls followed by taking the tree
off the builder go through exactly if the calls are one bracketed root node and their
pieces, trivia included, fit the text: each ends at a character of it, and together they
have its size. -/
theorem Builder.exists_finish_perform_iff
    {K : Type}
    [Vocabulary K]
    (text : Text)
    (calls : List (Call K)) :
    (∃ a, ((ofText text).perform calls >>= finish) = .ok a) ↔
      Call.Rooted calls ∧ Piece.Fit (calls.flatMap Call.pieces) text := by
  have hrelated := related_finish_perform text calls
  rw [← Scaffold.exists_root_iff text calls]
  constructor
  · rintro ⟨a, ha⟩
    rw [ha] at hrelated
    obtain ⟨root, hroot, -⟩ := hrelated.exists_of_ok_left
    exact ⟨root, hroot⟩
  · rintro ⟨root, hroot⟩
    rw [hroot] at hrelated
    obtain ⟨a, ha, -⟩ := hrelated.exists_of_ok_right
    exact ⟨a, ha⟩

end ZigCst
