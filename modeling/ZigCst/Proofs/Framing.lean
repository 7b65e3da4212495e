import ZigCst.Proofs.CallOrder

/-!
# What a run keeps

A run changes the state in one direction only: the place of the next token grows and stays
in front of the end, and reports are added behind those that are there.  It ends with as many
open levels as it started with, and never has more than `maxDepth`.  On the stack, each call
precedes those on top of it.

**Definitions.**
* `State.Legal`: only the last token is the end of file, and it has not been passed.
* `State.Extends`: what a run may do to a state.
* `Run.Framed`: what holds of a run on top of a call.
* `State.OnTop`: what holds of a state that a script has reached on top of a call.

**Results.**  `Script.framed_exec` for scripts, by their form, and `Grammar.framed_exec` for
routines, by the room on the stack.
-/

namespace ZigCst

section States

variable {K : Type}

/-- Only the last token is the end of file, and it has not been passed. -/
structure State.Legal [Vocabulary K] (s : State K) : Prop where
  pos_lt : s.pos < s.tokens.length
  kind_eq_eof_iff : ∀ i (h : i < s.tokens.length),
    s.tokens[i].kind = Vocabulary.eof ↔ i + 1 = s.tokens.length

/-- What a run may do to a state. -/
structure State.Extends [Vocabulary K] (s t : State K) : Prop where
  tokens_eq : t.tokens = s.tokens
  pos_le : s.pos ≤ t.pos
  legal : s.Legal → t.Legal
  diagnostics : s.diagnostics <+: t.diagnostics
  entered_le : s.entered ≤ t.entered

namespace State

variable [Vocabulary K]

theorem Extends.refl (s : State K) : s.Extends s where
  tokens_eq := rfl
  pos_le := Nat.le_refl _
  legal := id
  diagnostics := List.prefix_rfl
  entered_le := Nat.le_refl _

theorem Extends.trans
    {s t u : State K}
    (h : s.Extends t)
    (h' : t.Extends u) :
    s.Extends u where
  tokens_eq := h'.tokens_eq.trans h.tokens_eq
  pos_le := Nat.le_trans h.pos_le h'.pos_le
  legal := h'.legal ∘ h.legal
  diagnostics := h.diagnostics.trans h'.diagnostics
  entered_le := Nat.le_trans h.entered_le h'.entered_le

theorem extends_enter (s : State K) : s.Extends s.enter where
  tokens_eq := rfl
  pos_le := Nat.le_refl _
  legal h := ⟨h.pos_lt, h.kind_eq_eof_iff⟩
  diagnostics := List.prefix_rfl
  entered_le := Nat.le_succ _

theorem extends_leave (s : State K) : s.Extends s.leave where
  tokens_eq := rfl
  pos_le := Nat.le_refl _
  legal h := ⟨h.pos_lt, h.kind_eq_eof_iff⟩
  diagnostics := List.prefix_rfl
  entered_le := Nat.le_refl _

/-- Where the next token is not the end of file, another one follows. -/
theorem Legal.pos_succ_lt
    {s : State K}
    (h : s.Legal)
    (hpeek : s.peek ≠ Vocabulary.eof) :
    s.pos + 1 < s.tokens.length := by
  have hpos := h.pos_lt
  have hkind : s.tokens[s.pos].kind ≠ Vocabulary.eof := by
    simpa [peek, hpos] using hpeek
  have hlast := mt (h.kind_eq_eof_iff s.pos hpos).mpr hkind
  omega

variable [DecidableEq K]

theorem pos_le_posAfter
    (s : State K)
    (e : Step K) :
    s.pos ≤ s.posAfter e := by
  cases e with
  | advance =>
      rw [posAfter]
      split <;> omega
  | _ => exact Nat.le_refl _

theorem posAfter_of_ne
    {s : State K}
    {e : Step K}
    (h : e ≠ .advance) :
    s.posAfter e = s.pos := by
  cases e with
  | advance => exact absurd rfl h
  | _ => rfl

theorem Legal.posAfter_lt
    {s : State K}
    (h : s.Legal)
    (e : Step K) :
    s.posAfter e < s.tokens.length := by
  cases e with
  | advance =>
      rw [posAfter]
      split
      · exact h.pos_lt
      · exact h.pos_succ_lt ‹_›
  | _ => exact h.pos_lt

theorem step_eq_some_iff
    {s t : State K}
    {e : Step K} :
    s.step e = some t ↔
      ∃ recording, s.recording.step e = some recording ∧
        t = { s with
          recording
          pos := s.posAfter e
          diagnostics := s.diagnostics ++ s.faults e } := by
  rw [step, Option.map_eq_some_iff]
  simp only [eq_comm (b := t)]

theorem extends_step
    {s t : State K}
    {e : Step K}
    (h : s.step e = some t) :
    s.Extends t := by
  obtain ⟨recording, -, rfl⟩ := step_eq_some_iff.mp h
  exact
    { tokens_eq := rfl
      pos_le := s.pos_le_posAfter e
      legal := fun hs => ⟨hs.posAfter_lt e, hs.kind_eq_eof_iff⟩
      diagnostics := List.prefix_append _ _
      entered_le := Nat.le_refl _ }

theorem depth_step
    {s t : State K}
    {e : Step K}
    (h : s.step e = some t) :
    t.depth = s.depth := by
  obtain ⟨recording, -, rfl⟩ := step_eq_some_iff.mp h
  rfl

end State
end States

/-! ## Runs on top of a call -/

section Runs

variable {K : Type} {R : Type → Type} {α β σ : Type} [Vocabulary K] [CallOrder R]

/-- What holds of a run that starts in a state on top of a call. -/
structure Run.Framed
    (a : Activation R)
    (below : List (Activation R))
    (s : State K)
    (run : Run K R α) : Prop where
  depth_eq : run.state.depth = s.depth
  extends_state : s.Extends run.state
  first : ∀ m ∈ run.log, s.Extends m.state
  last : ∀ m ∈ run.log, m.state.Extends run.state
  between : run.log.Pairwise fun m n => m.state.Extends n.state
  depth_mem : ∀ m ∈ run.log, s.depth ≤ m.state.depth ∧ m.state.depth ≤ maxDepth
  stack : ∀ m ∈ run.log, ∃ inner, m.stack = inner ++ a :: below ∧
    (inner ++ [a]).Pairwise (fun c b => b.Precedes c) ∧ ∀ c ∈ inner, c.depth ≤ maxDepth

namespace Run.Framed

variable {a : Activation R} {below : List (Activation R)} {s t : State K}

/-- A run in which nothing happens. -/
theorem idle (v : α) : Run.Framed a below s ⟨v, s, []⟩ where
  depth_eq := rfl
  extends_state := .refl s
  first := by simp
  last := by simp
  between := .nil
  depth_mem := by simp
  stack := by simp

/-- A run of one step. -/
theorem single
    (v : α)
    (hst : s.Extends t)
    (hdepth : t.depth = s.depth)
    (hs : s.depth ≤ maxDepth) :
    Run.Framed a below s ⟨v, t, [⟨a :: below, t⟩]⟩ where
  depth_eq := hdepth
  extends_state := hst
  first := by simpa using hst
  last := by simpa using State.Extends.refl t
  between := List.pairwise_singleton _ _
  depth_mem := by simp [hdepth, hs]
  stack := by
    intro m hm
    obtain rfl := List.mem_singleton.mp hm
    exact ⟨[], rfl, List.pairwise_singleton _ _, by simp⟩

/-- One run after another. -/
theorem after
    {run : Run K R α}
    {run' : Run K R β}
    (h : run.Framed a below s)
    (h' : run'.Framed a below run.state) :
    (run'.after run.log).Framed a below s where
  depth_eq := h'.depth_eq.trans h.depth_eq
  extends_state := h.extends_state.trans h'.extends_state
  first m hm := by
    rcases List.mem_append.mp hm with hm | hm
    · exact h.first m hm
    · exact h.extends_state.trans (h'.first m hm)
  last m hm := by
    rcases List.mem_append.mp hm with hm | hm
    · exact (h.last m hm).trans h'.extends_state
    · exact h'.last m hm
  between :=
    List.pairwise_append.mpr
      ⟨h.between, h'.between, fun m hm n hn => (h.last m hm).trans (h'.first n hn)⟩
  depth_mem m hm := by
    rcases List.mem_append.mp hm with hm | hm
    · exact h.depth_mem m hm
    · exact h.depth_eq ▸ h'.depth_mem m hm
  stack m hm := by
    rcases List.mem_append.mp hm with hm | hm
    · exact h.stack m hm
    · exact h'.stack m hm

/-- The value does not matter. -/
theorem give
    {run : Run K R α}
    (h : run.Framed a below s)
    (v : β) :
    Run.Framed a below s ⟨v, run.state, run.log⟩ where
  depth_eq := h.depth_eq
  extends_state := h.extends_state
  first := h.first
  last := h.last
  between := h.between
  depth_mem := h.depth_mem
  stack := h.stack

/-- A run one level further in. -/
theorem enter
    {run : Run K R α}
    (h : run.Framed a below s.enter)
    (hs : s.depth < maxDepth) :
    Run.Framed a below s
      ⟨run.value, run.state.leave,
        ⟨a :: below, s.enter⟩ :: (run.log ++ [⟨a :: below, run.state.leave⟩])⟩ := by
  have hdepth : run.state.leave.depth = s.depth := by
    rw [State.leave, h.depth_eq]
    rfl
  have hfirst : Run.Framed a below s.enter ⟨(), s.enter, [⟨a :: below, s.enter⟩]⟩ :=
    single () (.refl s.enter) rfl hs
  have hinside : Run.Framed a below s.enter
      ⟨run.value, run.state, [⟨a :: below, s.enter⟩] ++ run.log⟩ := hfirst.after h
  have houtside : s.Extends run.state.leave :=
    (s.extends_enter.trans h.extends_state).trans run.state.extends_leave
  refine
    { depth_eq := hdepth
      extends_state := houtside
      first := ?_
      last := ?_
      between := ?_
      depth_mem := ?_
      stack := ?_ }
  · intro m hm
    rcases List.mem_append.mp (List.cons_append ▸ hm) with hm | hm
    · exact s.extends_enter.trans (hinside.first m hm)
    · obtain rfl := List.mem_singleton.mp hm
      exact houtside
  · intro m hm
    rcases List.mem_append.mp (List.cons_append ▸ hm) with hm | hm
    · exact (hinside.last m hm).trans run.state.extends_leave
    · obtain rfl := List.mem_singleton.mp hm
      exact .refl _
  · rw [← List.cons_append]
    refine List.pairwise_append.mpr ⟨hinside.between, List.pairwise_singleton _ _, ?_⟩
    intro m hm n hn
    obtain rfl := List.mem_singleton.mp hn
    exact (hinside.last m hm).trans run.state.extends_leave
  · intro m hm
    rcases List.mem_append.mp (List.cons_append ▸ hm) with hm | hm
    · have hmem := hinside.depth_mem m hm
      exact ⟨Nat.le_trans (Nat.le_succ _) hmem.1, hmem.2⟩
    · obtain rfl := List.mem_singleton.mp hm
      exact ⟨Nat.le_of_eq hdepth.symm, hdepth ▸ Nat.le_of_lt hs⟩
  · intro m hm
    rcases List.mem_append.mp (List.cons_append ▸ hm) with hm | hm
    · exact hinside.stack m hm
    · obtain rfl := List.mem_singleton.mp hm
      exact ⟨[], rfl, List.pairwise_singleton _ _, by simp⟩

/-- The run of a call, on top of the one that made it. -/
theorem call
    {b : Activation R}
    {run : Run K R α}
    (h : run.Framed b (a :: below) s)
    (hab : a.Precedes b)
    (hb : b.depth ≤ maxDepth) :
    run.Framed a below s := by
  refine
    { depth_eq := h.depth_eq
      extends_state := h.extends_state
      first := h.first
      last := h.last
      between := h.between
      depth_mem := h.depth_mem
      stack := fun m hm => ?_ }
  obtain ⟨inner, hstack, hpairwise, hdepth⟩ := h.stack m hm
  refine ⟨inner ++ [b], by simp [hstack], ?_, ?_⟩
  · refine List.pairwise_append.mpr ⟨hpairwise, List.pairwise_singleton _ _, ?_⟩
    intro c hc d hd
    obtain rfl := List.mem_singleton.mp hd
    rcases List.mem_append.mp hc with hc | hc
    · exact hab.trans ((List.pairwise_append.mp hpairwise).2.2 c hc b (List.mem_singleton_self b))
    · obtain rfl := List.mem_singleton.mp hc
      exact hab
  · intro c hc
    rcases List.mem_append.mp hc with hc | hc
    · exact hdepth c hc
    · obtain rfl := List.mem_singleton.mp hc
      exact hb

end Run.Framed

omit [Vocabulary K] [CallOrder R] in
theorem loop_eq_some_iff
    {turn : σ → State K → Option (Run K R (Bool × σ))}
    {v : σ}
    {s : State K}
    {run : Run K R σ} :
    loop turn v s = some run ↔
      ∃ first, turn v s = some first ∧
        (first.value.1 = false ∧ run = ⟨first.value.2, first.state, first.log⟩ ∨
          first.value.1 = true ∧ first.state.cursor.left < s.cursor.left ∧
            ∃ others, loop turn first.value.2 first.state = some others ∧
              run = others.after first.log) := by
  rw [loop]
  cases hturn : turn v s with
  | none => simp
  | some first =>
      cases hagain : first.value.1 with
      | false => simp [hagain, eq_comm (b := run)]
      | true =>
          by_cases hless : first.state.cursor.left < s.cursor.left
          · simp [hagain, hless, eq_comm (b := run)]
          · simp [hagain, hless]

/-- A loop does what its turns do. -/
theorem framed_loop
    {turn : σ → State K → Option (Run K R (Bool × σ))}
    {a : Activation R}
    {below : List (Activation R)}
    {s : State K}
    (hturn : ∀ v t run, s.Extends t → t.depth = s.depth → turn v t = some run →
      run.Framed a below t)
    {v : σ}
    {t : State K}
    {run : Run K R σ}
    (hst : s.Extends t)
    (hdepth : t.depth = s.depth)
    (h : loop turn v t = some run) :
    run.Framed a below t := by
  induction hleft : t.cursor.left using Nat.strongRecOn generalizing v t run with
  | ind left ih =>
      obtain ⟨first, hfirst, ⟨-, rfl⟩ | ⟨-, hless, others, hothers, rfl⟩⟩ :=
        loop_eq_some_iff.mp h
      · exact (hturn v t first hst hdepth hfirst).give _
      · have hframed := hturn v t first hst hdepth hfirst
        have hmore := ih _ (hleft ▸ hless) (hst.trans hframed.extends_state)
          (hframed.depth_eq.trans hdepth) hothers rfl
        exact hframed.after hmore

variable [DecidableEq K]

/-- Whether every call is answered by a run that is framed. -/
def Caller.Framed (calls : Caller K R) : Prop :=
  ∀ {α : Type} (r : R α) (below : List (Activation R)) (s : State K) (run : Run K R α),
    s.Legal → s.depth ≤ maxDepth → calls α r below s = some run →
      run.Framed (.of r s) below s ∧ (run.state.entered = s.entered → CallOrder.Idle r run.value)

theorem State.framed_runStep
    {a : Activation R}
    {below : List (Activation R)}
    {s : State K}
    {e : Step K}
    {run : Run K R Unit}
    (hs : s.depth ≤ maxDepth)
    (h : s.runStep (a :: below) e = some run) :
    run.Framed a below s := by
  obtain ⟨t, ht, rfl⟩ := Option.map_eq_some_iff.mp h
  exact .single () (extends_step ht) (depth_step ht) hs

/-- A state that a script has reached on top of a call, where what it may call outside of
levels follows that call. -/
structure State.OnTop
    (s : State K)
    (a : Activation R)
    (may : Prop → (β : Type) → R β → Prop)
    (opened : Prop) : Prop where
  legal : s.Legal
  depth_le : s.depth ≤ maxDepth
  le_depth : a.depth ≤ s.depth
  entered_le : a.entered ≤ s.entered
  entered_lt : opened → a.entered < s.entered
  precedes : ∀ opened β (r : R β) (t : State K), may opened β r → t.depth = s.depth →
    a.entered ≤ t.entered → (opened → a.entered < t.entered) → a.Precedes (.of r t)

namespace State.OnTop

variable {a : Activation R} {may : Prop → (β : Type) → R β → Prop} {opened : Prop}
  {s t : State K}

omit [DecidableEq K]

/-- Behind what a run did at the same level. -/
theorem behind
    {opened' : Prop}
    (h : s.OnTop a may opened)
    (hst : s.Extends t)
    (hdepth : t.depth = s.depth)
    (hopened : opened' → a.entered < t.entered) :
    t.OnTop a may opened' where
  legal := hst.legal h.legal
  depth_le := hdepth ▸ h.depth_le
  le_depth := hdepth ▸ h.le_depth
  entered_le := Nat.le_trans h.entered_le hst.entered_le
  entered_lt := hopened
  precedes opened β r u hr hu := h.precedes opened β r u hr (hu.trans hdepth)

/-- Within a level everything may be called, since it is called at a greater depth. -/
theorem enter
    (h : s.OnTop a may opened)
    (hs : s.depth < maxDepth) :
    s.enter.OnTop a (fun opened _ _ => opened) True where
  legal := s.extends_enter.legal h.legal
  depth_le := hs
  le_depth := Nat.le_succ_of_le h.le_depth
  entered_le := Nat.le_succ_of_le h.entered_le
  entered_lt _ := Nat.lt_succ_of_le h.entered_le
  precedes _ _ _ _ hopen ht _ hlt :=
    .inl ⟨Nat.lt_of_lt_of_eq (Nat.lt_succ_of_le h.le_depth) ht.symm, hlt hopen⟩

end State.OnTop

namespace Script

variable {calls : Caller K R} {a : Activation R} {below : List (Activation R)}

/-- A run of a script is framed if what it may call outside of levels follows the call it
stands on. -/
theorem framed_exec
    (hcalls : calls.Framed)
    (p : Script K R α)
    {may : Prop → (β : Type) → R β → Prop}
    {opened : Prop}
    {s : State K}
    {run : Run K R α}
    (hs : s.OnTop a may opened)
    (hp : p.Calls may opened)
    (h : p.exec calls (a :: below) s = some run) :
    run.Framed a below s ∧ (run.state.entered = s.entered → p.Idle run.value) := by
  induction p generalizing may opened s with
  | done v =>
      obtain rfl := Option.some.inj h
      exact ⟨.idle v, fun _ => rfl⟩
  | look f =>
      obtain rfl := Option.some.inj h
      exact ⟨.idle _, fun _ => trivial⟩
  | emit e he => exact ⟨State.framed_runStep hs.depth_le h, fun _ => trivial⟩
  | advance =>
      refine ⟨?_, fun _ => trivial⟩
      rw [exec] at h
      split at h
      · obtain rfl := Option.some.inj h
        exact .idle _
      · exact State.framed_runStep hs.depth_le h
  | takeEnd =>
      refine ⟨?_, fun _ => trivial⟩
      rw [exec] at h
      split at h
      · exact State.framed_runStep hs.depth_le h
      · cases h
  | bind p f ihp ihf =>
      obtain ⟨first, hfirst, h⟩ := Option.bind_eq_some_iff.mp h
      obtain ⟨second, hsecond, rfl⟩ := Option.map_eq_some_iff.mp h
      obtain ⟨hframed, hidle⟩ := ihp hs hp.1 hfirst
      have hle := hframed.extends_state.entered_le
      -- a value that the first part only gives behind a level tells that there was one
      have hopened : opened ∨ ¬ p.Idle first.value → a.entered < first.state.entered := by
        rintro (hopen | hbusy)
        · exact Nat.lt_of_lt_of_le (hs.entered_lt hopen) hle
        · have hne := mt hidle hbusy
          have hge := hs.entered_le
          omega
      obtain ⟨hframed', hidle'⟩ :=
        ihf first.value (hs.behind hframed.extends_state hframed.depth_eq hopened)
          (hp.2 first.value) hsecond
      refine ⟨hframed.after hframed', fun heq => ?_⟩
      have hle' := hframed'.extends_state.entered_le
      change second.state.entered = s.entered at heq
      exact ⟨first.value, hidle (by omega), hidle' (by omega)⟩
  | iterate body v ih =>
      refine ⟨?_, fun _ => trivial⟩
      refine framed_loop (s := s) (fun v t turn hst ht hturn => ?_) (.refl s) rfl h
      have hopened := fun hopen => Nat.lt_of_lt_of_le (hs.entered_lt hopen) hst.entered_le
      exact (ih v (hs.behind hst ht hopened) (hp v) hturn).1
  | enter within beyond ihw ihb =>
      rw [exec] at h
      split at h
      · rename_i hless
        obtain ⟨inside, hinside, rfl⟩ := Option.map_eq_some_iff.mp h
        have hframed := (ihw (hs.enter hless) (within.calls_opened trivial) hinside).1
        refine ⟨hframed.enter hless, fun heq => ?_⟩
        have hle := hframed.extends_state.entered_le
        change inside.state.entered = s.entered at heq
        exact absurd hle (by simp [State.enter, heq])
      · exact ihb hs hp h
  | call r =>
      obtain ⟨hframed, hidle⟩ := hcalls r (a :: below) s run hs.legal hs.depth_le h
      have hprecedes := hs.precedes opened _ r s hp rfl hs.entered_le hs.entered_lt
      exact ⟨hframed.call hprecedes hs.depth_le, hidle⟩

end Script
end Runs

/-! ## Routines -/

section Routines

variable {K : Type} {R : Type → Type} [Vocabulary K] [DecidableEq K]
  [Grammar K R] [CallOrder R] [LawfulGrammar K R]

/-- Runs of routines are framed, whatever room there is on the stack. -/
theorem Grammar.framed_exec (height : Nat) : Caller.Framed (Grammar.exec (R := R) height) := by
  induction height with
  | zero => intro α r below s run _ _ h; cases h
  | succ height ih =>
      intro α r below s run hs hdepth h
      obtain ⟨inside, hinside, rfl⟩ := Option.map_eq_some_iff.mp h
      have hs' : s.OnTop (.of r s) (CallOrder.May r) False :=
        { legal := hs
          depth_le := hdepth
          le_depth := Nat.le_refl _
          entered_le := Nat.le_refl _
          entered_lt := False.elim
          precedes := by
            rintro opened β r' t (hless | ⟨hopen, hsame, hless⟩) hdepth hle hlt
            · exact .inr (.inl ⟨hdepth.symm, hle, hless⟩)
            · exact .inr (.inr ⟨hdepth.symm, hlt hopen, hsame, hless⟩) }
      obtain ⟨hframed, hidle⟩ :=
        Script.framed_exec ih _ hs' (LawfulGrammar.calls_body r) hinside
      have hcall : Run.Framed (.of r s) below s ⟨(), s, [⟨.of r s :: below, s⟩]⟩ :=
        .single () (.refl s) rfl hdepth
      exact ⟨hcall.after hframed, fun heq => LawfulGrammar.idle_body r _ (hidle heq)⟩

end Routines

end ZigCst
