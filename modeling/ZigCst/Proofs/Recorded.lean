import ZigCst.Proofs.Growth
import ZigCst.Proofs.Machine

/-!
# Recording on top of other events

A trace that adds children to an open node can be recorded on top of any events: it touches
only starts that it has written itself.  The nodes that it opens are those that it completes,
and no start of its own is left without a kind.

**Definitions.**
* `Recording.Tends`: all starts without a kind since another recording are in a list.
* `Recording.Above`: a recording holds what a growing node got since another recording.
* `Recording.Keeps`: nothing that was recorded before has changed, and all nodes opened since
  are completed.

**Results.**
* `Recording.exists_step_above`, `Recording.exists_keeps`: one step, and a whole trace.
* `State.exists_play`: the trace can be played in any state.
-/

namespace ZigCst

section Recordings

variable {α K : Type} [Vocabulary K]

namespace Recording

/-- Events go on from others: all that was there is still there, the places in a list are
those of starts written since, and all starts without a kind written since are in it. -/
structure Tends (base events : Array (Event K)) (news : List Nat) : Prop where
  size_le : base.size ≤ events.size
  kept : ∀ i < base.size, events[i]? = base[i]?
  started : ∀ p ∈ news, base.size ≤ p ∧ ∃ kind forward, events[p]? = some (.start kind forward)
  pending : ∀ p forward, base.size ≤ p →
    events[p]? = some (.start Vocabulary.tombstone forward) → p ∈ news

namespace Tends

variable {base events : Array (Event K)} {news : List Nat}

theorem refl (events : Array (Event K)) : Tends events events [] where
  size_le := Nat.le_refl _
  kept _ _ := rfl
  started := by simp
  pending p forward hp h := by simp [Array.getElem?_eq_none hp] at h

/-- An event that starts nothing. -/
theorem push
    (h : Tends base events news)
    {e : Event K}
    (he : ∀ kind forward, e ≠ .start kind forward) :
    Tends base (events.push e) news where
  size_le := by
    have hsize := h.size_le
    rw [Array.size_push]
    omega
  kept i hi := by
    have hsize := h.size_le
    rw [← h.kept i hi, Array.getElem?_push, if_neg (by omega)]
  started p hp := by
    obtain ⟨hle, kind, forward, hstart⟩ := h.started p hp
    have hless := (Array.getElem?_eq_some_iff.mp hstart).1
    exact ⟨hle, kind, forward, by rw [Array.getElem?_push, if_neg (by omega), hstart]⟩
  pending p forward hp hstart := by
    rw [Array.getElem?_push] at hstart
    split at hstart
    · exact absurd (Option.some.inj hstart) (he _ _)
    · exact h.pending p forward hp hstart

/-- A start without a kind. -/
theorem push_erased (h : Tends base events news) :
    Tends base (events.push .erased) (events.size :: news) where
  size_le := by
    have hsize := h.size_le
    rw [Array.size_push]
    omega
  kept i hi := by
    have hsize := h.size_le
    rw [← h.kept i hi, Array.getElem?_push, if_neg (by omega)]
  started p hp := by
    rcases List.mem_cons.mp hp with rfl | hp
    · exact ⟨h.size_le, _, _, Array.getElem?_push_size⟩
    · obtain ⟨hle, kind, forward, hstart⟩ := h.started p hp
      have hless := (Array.getElem?_eq_some_iff.mp hstart).1
      exact ⟨hle, kind, forward, by rw [Array.getElem?_push, if_neg (by omega), hstart]⟩
  pending p forward hp hstart := by
    rw [Array.getElem?_push] at hstart
    split at hstart
    · exact List.mem_cons.mpr (.inl ‹_›)
    · exact List.mem_cons_of_mem _ (h.pending p forward hp hstart)

/-- A start that was written since gets a proper kind. -/
theorem set
    (h : Tends base events news)
    {news' : List Nat}
    {p : Nat}
    {kind : K}
    (forward : Option Nat)
    (hp : base.size ≤ p)
    (hkind : kind ≠ Vocabulary.tombstone)
    (hold : ∀ q ∈ news', q ∈ news)
    (hnew : ∀ q ∈ news, q = p ∨ q ∈ news') :
    Tends base (events.setIfInBounds p (.start kind forward)) news' where
  size_le := by
    rw [Array.size_setIfInBounds]
    exact h.size_le
  kept i hi := by
    rw [← h.kept i hi, Array.getElem?_setIfInBounds_ne (by omega)]
  started q hq := by
    obtain ⟨hle, kind', forward', hstart⟩ := h.started q (hold q hq)
    refine ⟨hle, ?_⟩
    rw [Array.getElem?_setIfInBounds]
    split
    · rename_i heq
      rw [if_pos (heq ▸ (Array.getElem?_eq_some_iff.mp hstart).1)]
      exact ⟨kind, forward, rfl⟩
    · exact ⟨kind', forward', hstart⟩
  pending q forward' hq hstart := by
    rw [Array.getElem?_setIfInBounds] at hstart
    split at hstart
    · split at hstart
      · cases hstart
        exact absurd rfl hkind
      · cases hstart
    · rename_i hne
      exact (hnew q (h.pending q forward' hq hstart)).resolve_left (Ne.symm hne)

end Tends

/-- A recording goes on from another one by what a growing node got since.  The starts at the
places `news` are those of the nodes that are open around it. -/
structure Above
    (base : Recording K)
    (news : List Nat)
    (r : Recording K)
    (top : Bed α K)
    (below : List (Bed α K)) : Prop where
  tends : Tends base.events r.events news
  opened : r.opened = news ++ base.opened
  length_news : news.length = below.length
  last : ∀ kind children others, top.children = .node kind children :: others →
    ∃ p, r.completed = some p ∧ base.events.size ≤ p ∧
      ∃ kind forward, kind ≠ Vocabulary.tombstone ∧ r.events[p]? = some (.start kind forward)

/-- Nothing that was recorded before has changed, and all nodes opened since are
completed. -/
structure Keeps (base r : Recording K) : Prop where
  tends : Tends base.events r.events []
  opened : r.opened = base.opened

variable {base r : Recording K} {news : List Nat}

theorem above_refl (base : Recording K) : base.Above [] base (.empty : Bed α K) [] :=
  ⟨.refl _, rfl, rfl, by simp [Bed.empty]⟩

omit [Vocabulary K] in
theorem restart_eq_some
    {p : Nat}
    {kind : K}
    {forward : Option Nat}
    (h : r.events[p]? = some (.start kind forward))
    (f : K → Option Nat → Event K) :
    r.restart p f = some { r with events := r.events.setIfInBounds p (f kind forward) } := by
  rw [restart, h]

/-- One step of growth is recorded on top of other events. -/
theorem exists_step_above
    {top top' : Bed α K}
    {below below' : List (Bed α K)}
    {ahead ahead' : List α}
    {s : Step K}
    (h : base.Above news r top below)
    (hs : Growth.Steps ⟨ahead, .growing top below⟩ s ⟨ahead', .growing top' below'⟩) :
    ∃ news' r', r.step s = some r' ∧ base.Above news' r' top' below' := by
  cases hs with
  | start =>
      refine ⟨r.events.size :: news, r.openNode, rfl, h.tends.push_erased, ?_, ?_, ?_⟩
      · rw [openNode, h.opened, List.cons_append]
      · rw [List.length_cons, List.length_cons, h.length_news]
      · simp [Bed.empty]
  | advance a =>
      refine ⟨news, _, rfl, h.tends.push (by simp), h.opened, h.length_news, ?_⟩
      simp [Bed.add]
  | complete _ _ bed _ kind hkind =>
      obtain _ | ⟨p, news⟩ := news
      · exact absurd h.length_news (by simp)
      obtain ⟨hp, kind', forward, hstart⟩ := h.tends.started p List.mem_cons_self
      have hset : Tends base.events (r.events.setIfInBounds p (.start kind forward)) news :=
        h.tends.set forward hp hkind (fun q hq => List.mem_cons_of_mem _ hq)
          fun q hq => List.mem_cons.mp hq
      have hless := (Array.getElem?_eq_some_iff.mp hstart).1
      refine ⟨news,
        ⟨(r.events.setIfInBounds p (.start kind forward)).push .finish, news ++ base.opened,
          some p⟩,
        ?_, hset.push (by simp), rfl, Nat.succ.inj h.length_news, ?_⟩
      · rw [step, h.opened]
        simp only [List.cons_append, restart_eq_some hstart]
        rfl
      · intro _ _ _ _
        refine ⟨p, rfl, hp, kind, forward, hkind, ?_⟩
        rw [Array.getElem?_push, Array.size_setIfInBounds, if_neg (by omega),
          Array.getElem?_setIfInBounds_self_of_lt hless]
  | precede _ first kind children others below =>
      obtain ⟨p, hcompleted, hp, kind', forward, hkind, hstart⟩ := h.last _ _ _ rfl
      have hset := h.tends.set (some (r.events.size - p)) hp hkind (fun q hq => hq)
        fun q hq => .inr hq
      refine ⟨_, openNode
        { r with events := r.events.setIfInBounds p (.start kind' (some (r.events.size - p))) },
        ?_, hset.push_erased, ?_, ?_, ?_⟩
      · rw [step]
        simp only [hcompleted, Option.bind_eq_bind, Option.bind_some, restart_eq_some hstart]
        rfl
      · rw [openNode, h.opened, List.cons_append]
      · rw [List.length_cons, List.length_cons, h.length_news]
      · simp
  | report fault => exact ⟨news, r, rfl, h⟩

variable [DecidableEq K]

/-- Once a tree has grown, there are no open nodes again. -/
theorem run_grown
    {ahead : List α}
    {shape : Shape α K}
    {g : Growth α K}
    {trace : Trace K}
    (h : Growth.run ⟨ahead, .grown shape⟩ trace = some g) :
    g.stage = .grown shape := by
  refine Growth.run_induction (P := fun g => g.stage = .grown shape) ?_ rfl h
  intro g₁ s g₂ hg₁ hs
  cases hs <;> first | exact hg₁ | cases hg₁

/-- A trace that adds children to an open node is recorded on top of other events. -/
theorem exists_keeps
    {top top' : Bed α K}
    {below : List (Bed α K)}
    {ahead ahead' : List α}
    {trace : Trace K}
    (h : base.Above news r top below)
    (hrun : Growth.run ⟨ahead, .growing top below⟩ trace = some ⟨ahead', .growing top' []⟩) :
    ∃ r', trace.foldlM step r = some r' ∧ base.Keeps r' := by
  induction trace generalizing news r top below ahead with
  | nil =>
      obtain ⟨-, rfl, rfl⟩ : ahead = ahead' ∧ top = top' ∧ below = [] := by
        simpa using hrun
      obtain rfl := List.length_eq_zero_iff.mp h.length_news
      exact ⟨r, rfl, h.tends, h.opened⟩
  | cons s trace ih =>
      rw [Growth.run_cons] at hrun
      obtain ⟨⟨ahead₁, stage⟩, hs, hrun⟩ := Option.bind_eq_some_iff.mp hrun
      cases stage with
      | fresh => cases Growth.step_eq_some_iff.mp hs
      | grown shape => cases run_grown hrun
      | growing top₁ below₁ =>
          obtain ⟨news', r₁, hr₁, habove⟩ := exists_step_above h (Growth.step_eq_some_iff.mp hs)
          obtain ⟨r', hr', hkeeps⟩ := ih habove hrun
          refine ⟨r', ?_, hkeeps⟩
          rw [List.foldlM_cons, hr₁]
          exact hr'

end Recording

variable [DecidableEq K]

/-- What a trace does to what has been recorded does not depend on the rest of the state. -/
theorem State.map_recording_play
    (s : State K)
    (trace : Trace K) :
    (s.play trace).map State.recording = trace.foldlM Recording.step s.recording := by
  induction trace generalizing s with
  | nil => rfl
  | cons e trace ih =>
      rw [play, List.foldlM_cons, List.foldlM_cons, step]
      cases s.recording.step e with
      | none => rfl
      | some r => exact ih _

/-- A trace that adds children to an open node can be played in any state. -/
theorem State.exists_play
    {top' : Bed α K}
    {ahead ahead' : List α}
    {trace : Trace K}
    (s : State K)
    (hrun : Growth.run ⟨ahead, .growing .empty []⟩ trace = some ⟨ahead', .growing top' []⟩) :
    ∃ t, s.play trace = some t ∧ s.recording.Keeps t.recording := by
  have habove : s.recording.Above [] s.recording (.empty : Bed α K) [] :=
    Recording.above_refl s.recording
  obtain ⟨r, hr, hkeeps⟩ := Recording.exists_keeps habove hrun
  have hplay : (s.play trace).map State.recording = some r := by
    rw [← hr]
    exact map_recording_play s trace
  obtain ⟨t, ht, rfl⟩ := Option.map_eq_some_iff.mp hplay
  exact ⟨t, ht, hkeeps⟩

end Recordings
end ZigCst
