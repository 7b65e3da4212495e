import ZigCst.Scan

/-!
# Chains of attempts

Behind its first character an operator is read by attempts to eat one more character.
They are made in order, and where one succeeds, attempts at what may follow are made
next.  So they form a tree, with the kinds that are read at its leaves.

**Definitions.**
* `Chain.read`: the attempts made at the front of a text.
* `Chain.endings`: all that a chain can eat, with the kinds that are read.
* `Chain.Distinct`: whether no character is tried again after it was not there.

**Results.**
* `Chain.mem_endings_read`: what is eaten is one of the endings, with its kind.
* `Chain.length_le_read`, `Chain.kind_eq`: where characters are distinct, no ending that
  fits is longer, and every ending has one kind.
-/

namespace ZigCst

/-- Attempts to eat characters, with the kinds that they lead to. -/
inductive Chain (K : Type) where
  /-- Nothing more is eaten. -/
  | stop (kind : K)
  /-- Goes on with `taken` where `c` is eaten, and with `other` where it is not there. -/
  | eat (c : Char) (taken other : Chain K)
deriving DecidableEq, Repr

namespace Chain

variable {K : Type}

/-- At most one character more, the first of those given that is there. -/
def either (pairs : List (Char × K)) (single : K) : Chain K :=
  pairs.foldr (fun p other => .eat p.1 (.stop p.2) other) (.stop single)

/-- Makes the attempts at the front of a text. -/
def read : Chain K → (t : Text) → Reading K t
  | stop kind, t => ⟨kind, .none t⟩
  | eat _ _ other, [] => other.read []
  | eat c taken other, d :: t =>
      if d = c then ⟨(taken.read t).kind, .cons d (taken.read t).cut⟩ else other.read (d :: t)

/-- All that a chain can eat, with the kinds that are read. -/
def endings : Chain K → List (Text × K)
  | stop kind => [([], kind)]
  | eat c taken other => taken.endings.map (fun x => (c :: x.1, x.2)) ++ other.endings

/-- The kind that is read where nothing is eaten. -/
def single : Chain K → K
  | stop kind => kind
  | eat _ _ other => other.single

/-- The characters of which one is eaten next. -/
def tried : Chain K → List Char
  | stop _ => []
  | eat c _ other => c :: other.tried

/-- Whether no character is tried again after it was not there. -/
def Distinct : Chain K → Prop
  | stop _ => True
  | eat c taken other => c ∉ other.tried ∧ taken.Distinct ∧ other.Distinct

instance decidableDistinct : (chain : Chain K) → Decidable chain.Distinct
  | stop _ => .isTrue trivial
  | eat c taken other =>
      have := decidableDistinct taken
      have := decidableDistinct other
      inferInstanceAs (Decidable (c ∉ other.tried ∧ taken.Distinct ∧ other.Distinct))

/-! ## What is read -/

theorem mem_endings_eat_iff
    {c : Char}
    {taken other : Chain K}
    {x : Text × K} :
    x ∈ (eat c taken other).endings ↔
      (∃ ending, x.1 = c :: ending ∧ (ending, x.2) ∈ taken.endings) ∨ x ∈ other.endings := by
  rw [endings, List.mem_append, List.mem_map]
  refine or_congr_left ⟨?_, ?_⟩
  · rintro ⟨y, hy, rfl⟩
    exact ⟨y.1, rfl, hy⟩
  · rintro ⟨ending, hending, hx⟩
    exact ⟨(ending, x.2), hx, by rw [← hending]⟩

/-- What is eaten is one of the endings, with its kind. -/
theorem mem_endings_read
    (chain : Chain K)
    (t : Text) :
    ((chain.read t).cut.taken, (chain.read t).kind) ∈ chain.endings := by
  induction chain generalizing t with
  | stop kind => exact List.mem_singleton_self _
  | eat c taken other ihTaken ihOther =>
      rw [mem_endings_eat_iff]
      cases t with
      | nil => exact .inr (ihOther [])
      | cons d t =>
          rw [read]
          split
          · rename_i hd
            subst hd
            exact .inl ⟨_, rfl, ihTaken t⟩
          · exact .inr (ihOther (d :: t))

/-- Where no ending fits but the empty one, nothing is eaten. -/
theorem read_eq_single
    {chain : Chain K}
    {t : Text}
    (h : ∀ x ∈ chain.endings, x.1 <+: t → x.1 = []) :
    chain.read t = ⟨chain.single, .none t⟩ := by
  induction chain with
  | stop kind => rfl
  | eat c taken other _ ih =>
      have hother : other.read t = ⟨other.single, .none t⟩ :=
        ih fun x hx => h x (mem_endings_eat_iff.mpr (.inr hx))
      cases t with
      | nil => exact hother
      | cons d t =>
          rw [read]
          split
          · rename_i hd
            subst hd
            have hmem : (d :: (taken.read t).cut.taken, (taken.read t).kind) ∈
                (eat d taken other).endings :=
              mem_endings_eat_iff.mpr (.inl ⟨_, rfl, taken.mem_endings_read t⟩)
            have hfits : d :: (taken.read t).cut.taken <+: d :: t :=
              List.cons_prefix_cons.mpr ⟨rfl, _, (taken.read t).cut.join⟩
            exact absurd (h _ hmem hfits) (List.cons_ne_nil _ _)
          · exact hother

/-! ## Longest endings -/

/-- An ending starts with a character that is tried, or is empty. -/
theorem mem_tried_of_mem_endings
    {chain : Chain K}
    {c : Char}
    {ending : Text}
    {kind : K}
    (h : (c :: ending, kind) ∈ chain.endings) :
    c ∈ chain.tried := by
  induction chain with
  | stop kind' => simp [endings] at h
  | eat d taken other _ ih =>
      rcases mem_endings_eat_iff.mp h with ⟨ending', heq, -⟩ | hother
      · rw [(List.cons.inj heq).1]
        exact List.mem_cons_self
      · exact List.mem_cons_of_mem _ (ih hother)

/-- Every ending has one kind. -/
theorem kind_eq
    {chain : Chain K}
    (hdistinct : chain.Distinct)
    {ending : Text}
    {kind kind' : K}
    (h : (ending, kind) ∈ chain.endings)
    (h' : (ending, kind') ∈ chain.endings) :
    kind = kind' := by
  induction chain generalizing ending with
  | stop k =>
      rw [endings, List.mem_singleton] at h h'
      rw [(Prod.mk.inj h).2, (Prod.mk.inj h').2]
  | eat c taken other ihTaken ihOther =>
      obtain ⟨hnew, htaken, hother⟩ := hdistinct
      rcases mem_endings_eat_iff.mp h with ⟨more, rfl, hmore⟩ | hend
      · rcases mem_endings_eat_iff.mp h' with ⟨more', heq, hmore'⟩ | hend'
        · obtain rfl := (List.cons.inj heq).2
          exact ihTaken htaken hmore hmore'
        · exact absurd (mem_tried_of_mem_endings hend') hnew
      · rcases mem_endings_eat_iff.mp h' with ⟨more', rfl, -⟩ | hend'
        · exact absurd (mem_tried_of_mem_endings hend) hnew
        · exact ihOther hother hend hend'

/-- No ending that fits is longer than what is eaten. -/
theorem length_le_read
    {chain : Chain K}
    (hdistinct : chain.Distinct)
    {t ending : Text}
    {kind : K}
    (h : (ending, kind) ∈ chain.endings)
    (hfits : ending <+: t) :
    ending.length ≤ (chain.read t).cut.taken.length := by
  induction chain generalizing t ending with
  | stop k =>
      rw [endings, List.mem_singleton] at h
      rw [(Prod.mk.inj h).1]
      exact Nat.zero_le _
  | eat c taken other ihTaken ihOther =>
      obtain ⟨hnew, htaken, hother⟩ := hdistinct
      cases t with
      | nil =>
          rw [List.prefix_nil.mp hfits]
          exact Nat.zero_le _
      | cons d t =>
          rw [read]
          split
          · rename_i hd
            subst hd
            rcases mem_endings_eat_iff.mp h with ⟨more, rfl, hmore⟩ | hend
            · exact Nat.succ_le_succ (ihTaken htaken hmore (List.cons_prefix_cons.mp hfits).2)
            · -- No other ending starts with what is eaten.
              cases ending with
              | nil => exact Nat.zero_le _
              | cons e more =>
                  obtain ⟨rfl, -⟩ := List.cons_prefix_cons.mp hfits
                  exact absurd (mem_tried_of_mem_endings hend) hnew
          · rename_i hd
            rcases mem_endings_eat_iff.mp h with ⟨more, rfl, -⟩ | hend
            · exact absurd (List.cons_prefix_cons.mp hfits).1.symm hd
            · exact ihOther hother hend hfits

end Chain
end ZigCst
