import ZigCst.Proofs.Soundness

/-!
# Runs without faults

A run that reports nothing is described exactly: the kinds that it takes and the
children that it adds.  `Site.Adds` composes along runs, and the primitive parsers
take and add what they say.
-/

namespace ZigCst

section Adding

variable {K : Type}

/-- Lexemes of some kinds were taken and children added, and nothing was reported. -/
structure Site.Adds (s : Site K) (taken : List K) (new : List (Shape K K)) (t : Site K) :
    Prop where
  kinds : s.kinds = taken ++ t.kinds
  behind : t.behind = s.behind
  children : t.children = new.reverse ++ s.children
  reports : t.reports = s.reports

namespace Site.Adds

theorem refl (s : Site K) : s.Adds [] [] s := ⟨rfl, rfl, rfl, rfl⟩

theorem trans
    {s t u : Site K}
    {taken taken' : List K}
    {new new' : List (Shape K K)}
    (h : s.Adds taken new t)
    (h' : t.Adds taken' new' u) :
    s.Adds (taken ++ taken') (new ++ new') u where
  kinds := by rw [h.kinds, h'.kinds, List.append_assoc]
  behind := h'.behind.trans h.behind
  children := by rw [h'.children, h.children, List.reverse_append, List.append_assoc]
  reports := h'.reports.trans h.reports

/-- What is left after kinds that are known. -/
theorem kinds_eq
    {s t : Site K}
    {taken more : List K}
    {new : List (Shape K K)}
    (h : s.Adds taken new t)
    (hkinds : s.kinds = taken ++ more) :
    t.kinds = more :=
  List.append_cancel_left (h.kinds.symm.trans hkinds)

/-- Something is left less after something was taken. -/
theorem left_lt
    {s t : Site K}
    {taken : List K}
    {new : List (Shape K K)}
    (h : s.Adds taken new t)
    (htaken : taken ≠ []) :
    t.left < s.left := by
  rw [Site.left_eq, Site.left_eq, h.kinds, List.length_append]
  have hpos := List.length_pos_iff.mpr htaken
  omega

/-- A completed node is one child more. -/
theorem closed
    {s t : Site K}
    {taken : List K}
    {new : List (Shape K K)}
    {kind : K}
    (h : s.opened.Adds taken new t) :
    s.Adds taken [.node kind new] (s.closed t kind) where
  kinds := h.kinds
  behind := h.behind
  children := by
    have hchildren : t.children = new.reverse ++ [] := h.children
    rw [Site.closed, hchildren, List.append_nil, List.reverse_reverse]
    rfl
  reports := h.reports

theorem advanced
    {s : Site K}
    {kind : K}
    {rest : List K}
    (h : s.kinds = kind :: rest) :
    s.Adds [kind] [.leaf kind] s.advanced := by
  obtain ⟨⟨prev, lexemes, left, hleft⟩, behind, children, reports⟩ := s
  cases lexemes with
  | nil => simp [Site.kinds, Cursor.kinds] at h
  | cons l lexemes =>
      obtain ⟨rfl, -⟩ := List.cons.inj h
      exact ⟨rfl, rfl, rfl, rfl⟩

end Site.Adds
end Adding

section Looking

variable {K : Type} [Vocabulary K] {s : Site K}

theorem Site.peek_eq
    {kind : K}
    {rest : List K}
    (h : s.kinds = kind :: rest) :
    s.peek = kind := by
  rw [peek, nth, h]
  rfl

theorem Site.nth_one_eq
    {kind next : K}
    {rest : List K}
    (h : s.kinds = kind :: next :: rest) :
    s.nth 1 = next := by
  rw [nth, h]
  rfl

/-- A lexeme that is not the end of file is there. -/
theorem Site.exists_kinds_of_peek
    {kind : K}
    (hpeek : s.peek = kind)
    (hkind : kind ≠ Vocabulary.eof) :
    ∃ rest, s.kinds = kind :: rest := by
  rw [peek, nth] at hpeek
  cases hkinds : s.kinds with
  | nil =>
      rw [hkinds] at hpeek
      exact absurd hpeek.symm hkind
  | cons k rest =>
      rw [hkinds] at hpeek
      obtain rfl : k = kind := hpeek
      exact ⟨rest, rfl⟩

theorem Site.exists_kinds_of_nth_one
    {kind next : K}
    (hpeek : s.peek = kind)
    (hkind : kind ≠ Vocabulary.eof)
    (hnth : s.nth 1 = next)
    (hnext : next ≠ Vocabulary.eof) :
    ∃ rest, s.kinds = kind :: next :: rest := by
  obtain ⟨rest, hrest⟩ := exists_kinds_of_peek hpeek hkind
  rw [nth, hrest] at hnth
  cases rest with
  | nil => exact absurd hnth.symm hnext
  | cons k rest =>
      obtain rfl : k = next := hnth
      exact ⟨rest, hrest⟩

end Looking

namespace Parser

variable {K α β : Type} [DecidableEq K] [Vocabulary K] {s : Site K}

theorem ends_advance_adds
    {kind : K}
    {rest : List K}
    (h : s.kinds = kind :: rest) :
    (advance : Parser K Unit).Ends s fun _ t => s.Adds [kind] [.leaf kind] t :=
  ends_advance (.advanced h)

theorem ends_node_adds
    {kind : K}
    {body : Parser K Unit}
    {taken : List K}
    {new : List (Shape K K)}
    (hkind : kind ≠ Vocabulary.tombstone)
    (h : body.Ends s.opened fun _ t => s.opened.Adds taken new t) :
    (discard (node kind body) : Parser K Unit).Ends s fun _ t =>
      s.Adds taken [.node kind new] t :=
  ends_discard (ends_node hkind (h.mono fun _ _ ht => ht.closed))

theorem ends_eat_adds
    {kind : K}
    {rest : List K}
    (h : s.kinds = kind :: rest) :
    (eat kind : Parser K Bool).Ends s fun found t => found = true ∧ s.Adds [kind] [.leaf kind] t :=
  ends_eat (fun _ => ⟨rfl, .advanced h⟩) fun hne => absurd (Site.peek_eq h) hne

theorem ends_eat_missing
    {kind : K}
    (h : s.peek ≠ kind) :
    (eat kind : Parser K Bool).Ends s fun found t => found = false ∧ t = s :=
  ends_eat (fun hpeek => absurd hpeek h) fun _ => ⟨rfl, rfl⟩

theorem ends_expect_adds
    {kind : K}
    {rest : List K}
    (h : s.kinds = kind :: rest) :
    (expect kind : Parser K Unit).Ends s fun _ t => s.Adds [kind] [.leaf kind] t :=
  ends_expect (fun _ => .advanced h) fun hne => absurd (Site.peek_eq h) hne

/-- One exact run after another. -/
theorem Ends.adds_seq
    {p : Parser K α}
    {q : Parser K β}
    {taken taken' : List K}
    {new new' : List (Shape K K)}
    (hp : p.Ends s fun _ t => s.Adds taken new t)
    (hq : ∀ t, s.Adds taken new t → q.Ends t fun _ u => t.Adds taken' new' u) :
    (p >>= fun _ => q).Ends s fun _ u => s.Adds (taken ++ taken') (new ++ new') u :=
  hp.bind fun _ t ht => (hq t ht).mono fun _ _ hu => ht.trans hu

/-- A run of lexemes of one kind is taken as far as it goes. -/
theorem ends_repeatWhile_eat
    {kind : K}
    (hkind : kind ≠ Vocabulary.eof)
    (s : Site K) :
    (repeatWhile (eat kind) : Parser K Unit).Ends s fun _ t =>
      ∃ m, s.Adds (List.replicate m kind) (List.replicate m (.leaf kind)) t ∧ t.peek ≠ kind := by
  refine Ends.iterate (I := fun _ t =>
    ∃ m, s.Adds (List.replicate m kind) (List.replicate m (.leaf kind)) t) ?_ ⟨0, .refl s⟩
  rintro _ t ⟨m, ht⟩
  refine Ends.bind (P := fun found u =>
    (found = true ∧ u = t.advanced ∧ t.peek = kind) ∨ (found = false ∧ u = t ∧ t.peek ≠ kind))
    (ends_eat (fun hpeek => .inl ⟨rfl, rfl, hpeek⟩) fun hpeek => .inr ⟨rfl, rfl, hpeek⟩) ?_
  rintro found u (⟨rfl, rfl, hpeek⟩ | ⟨rfl, rfl, hpeek⟩)
  · obtain ⟨rest, hrest⟩ := Site.exists_kinds_of_peek hpeek hkind
    have hadds := ht.trans (.advanced hrest)
    rw [← List.replicate_succ', ← List.replicate_succ'] at hadds
    have hleft := Site.left_advanced (Site.left_pos_of_peek hpeek hkind)
    exact ends_pure ⟨fun _ => ⟨hleft, m + 1, hadds⟩, by simp⟩
  · exact ends_pure ⟨by simp, fun _ => ⟨m, ht, hpeek⟩⟩

/-! ## Parsers that report something -/

/-- Adds children and reports a fault. -/
def Faults (p : Parser K α) : Prop :=
  ∀ s : Site K, p.Ends s fun _ t => s.Grows t ∧ s.reports < t.reports

theorem faults_report (fault : Fault K) : (report fault : Parser K Unit).Faults :=
  fun s => ends_report ⟨s.grows_faulted, Nat.lt_succ_self _⟩

/-- A parser that reports something is never quiet. -/
theorem Faults.quiet
    {p : Parser K α}
    (h : p.Faults)
    (s : Site K)
    {Q : Site K → Prop} :
    p.Ends s fun _ t => t.reports = s.reports → Q t :=
  (h s).mono fun _ _ ht hquiet => absurd hquiet (Nat.ne_of_gt ht.2)

theorem Faults.bind
    {p : Parser K α}
    {f : α → Parser K β}
    (hp : p.Faults)
    (hf : ∀ a, (f a).Sound) :
    (p >>= f).Faults := by
  intro s
  refine (hp s).bind fun a t ht => ?_
  exact (hf a t).mono fun _ u hu => ⟨ht.1.trans hu, Nat.lt_of_lt_of_le ht.2 hu.reports⟩

theorem Sound.bind_faults
    {p : Parser K α}
    {f : α → Parser K β}
    (hp : p.Sound)
    (hf : ∀ a, (f a).Faults) :
    (p >>= f).Faults := by
  intro s
  refine (hp s).bind fun a t ht => ?_
  exact (hf a t).mono fun _ u hu => ⟨ht.trans hu.1, Nat.lt_of_le_of_lt ht.reports hu.2⟩

theorem faults_node
    {kind : K}
    {body : Parser K Unit}
    (hkind : kind ≠ Vocabulary.tombstone)
    (hbody : body.Faults) :
    (discard (node kind body) : Parser K Unit).Faults := by
  intro s
  refine ends_discard (ends_node hkind ((hbody s.opened).mono fun _ t ht => ?_))
  exact ⟨(Site.plants_closed ht.1).grows, ht.2⟩

variable [LawfulVocabulary K]

theorem faults_bump (fault : Fault K) : (bump fault : Parser K Unit).Faults := by
  refine faults_node LawfulVocabulary.error_ne_tombstone ?_
  refine (sound_at _).bind_faults fun bad => ?_
  cases bad with
  | false => exact (faults_report _).bind fun _ => sound_advance
  | true => exact sound_text.bind_faults fun _ => (faults_report _).bind fun _ => sound_advance

theorem faults_recover
    (fault : Fault K)
    (recovery : KindSet K) :
    (recover fault recovery : Parser K Unit).Faults := by
  intro s
  rw [recover, ends_atAny_bind, ends_atEnd_bind]
  split
  · exact faults_node LawfulVocabulary.error_ne_tombstone (faults_report _) s
  · exact faults_bump fault s

theorem faults_tooDeep : (tooDeep : Parser K Unit).Faults :=
  faults_node LawfulVocabulary.error_ne_tombstone ((faults_report _).bind fun _ => sound_passOver)

end Parser

/-- Two runs of one kind that are followed by something else are equally long. -/
theorem replicate_append_inj
    {α : Type}
    {a : α}
    {m n : Nat}
    {more more' : List α}
    (hmore : more.head? ≠ some a)
    (hmore' : more'.head? ≠ some a)
    (h : List.replicate m a ++ more = List.replicate n a ++ more') :
    m = n := by
  induction m generalizing n with
  | zero =>
      cases n with
      | zero => rfl
      | succ n =>
          simp only [List.replicate_zero, List.nil_append] at h
          simp [h, List.replicate_succ] at hmore
  | succ m ih =>
      cases n with
      | zero =>
          simp only [List.replicate_zero, List.nil_append] at h
          simp [← h, List.replicate_succ] at hmore'
      | succ n =>
          simp only [List.replicate_succ, List.cons_append, List.cons.injEq, true_and] at h
          rw [ih h]

end ZigCst
