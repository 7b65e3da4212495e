import ZigCst.Text.Basic

/-!
# Tables in the order of their texts

A table pairs texts with values.  Where its texts ascend, a text is looked up by
halving: the entry in the middle either is the one that is sought, or tells in
which half it would stand.

**Definitions.**
* `Text.lookup?`: the value of a text in a table.
* `Text.Ascending`: whether the texts of a table ascend.

**Results.**
* `Text.lookup?_eq_some_iff`: where they ascend, a text is found exactly if it stands
  in the table.
-/

namespace ZigCst
namespace Text

/-- Looks a text up by halving a table, at most so many times. -/
def search? {α : Type} (key : Text) : Nat → List (Text × α) → Option α
  | 0, _ => none
  | rounds + 1, table =>
      match table.drop (table.length / 2) with
      | [] => none
      | (middle, value) :: after =>
          if key = middle then some value
          else if key.precedes middle then search? key rounds (table.take (table.length / 2))
          else search? key rounds after

/-- The value of a text in a table whose texts ascend.  Every round shortens the
table. -/
def lookup? {α : Type} (key : Text) (table : List (Text × α)) : Option α :=
  search? key table.length table

/-- Whether the texts of a table ascend. -/
def Ascending {α : Type} (table : List (Text × α)) : Prop :=
  table.Pairwise fun x y => y.1.precedes x.1 = false

instance {α : Type} (table : List (Text × α)) : Decidable (Ascending table) :=
  inferInstanceAs (Decidable (table.Pairwise _))

/-! ## What is found -/

section Found

variable {α : Type} {key : Text} {value : α} {table : List (Text × α)}

theorem precedes_self (t : Text) : t.precedes t = true := by
  induction t with
  | nil => rfl
  | cons c t ih => rw [precedes, if_pos rfl, ih]

theorem ne_of_precedes_eq_false {t u : Text} (h : t.precedes u = false) : t ≠ u := by
  rintro rfl
  rw [precedes_self] at h
  exact Bool.false_ne_true h.symm

theorem precedes_total (t u : Text) : t.precedes u = true ∨ u.precedes t = true := by
  induction t generalizing u with
  | nil => exact .inl rfl
  | cons c t ih =>
      cases u with
      | nil => exact .inr rfl
      | cons d u =>
          rw [precedes, precedes]
          by_cases hsame : c = d
          · rw [if_pos hsame, if_pos hsame.symm]
            exact ih u
          · rw [if_neg hsame, if_neg (Ne.symm hsame), decide_eq_true_iff, decide_eq_true_iff]
            have hne : c.toNat ≠ d.toNat := fun h => hsame (Char.toNat_inj.mp h)
            omega

/-- What is found stands in the table. -/
theorem mem_of_search? {rounds : Nat} (h : search? key rounds table = some value) :
    (key, value) ∈ table := by
  fun_induction search? key rounds table with
  | case1 => simp at h
  | case2 => simp at h
  | case3 rounds table value' after hafter =>
      obtain rfl := Option.some.inj h
      exact List.mem_of_mem_drop (hafter ▸ List.mem_cons_self)
  | case4 rounds table middle value after hafter hne hprecedes ih =>
      exact List.mem_of_mem_take (ih h)
  | case5 rounds table middle value after hafter hne hprecedes ih =>
      exact List.mem_of_mem_drop (hafter ▸ List.mem_cons_of_mem _ (ih h))

/-- What stands before an entry of a table that ascends, and what stands behind it. -/
theorem Ascending.split
    {before after : List (Text × α)}
    {entry : Text × α}
    (h : Ascending (before ++ entry :: after)) :
    (∀ x ∈ before, entry.1.precedes x.1 = false) ∧
      (∀ x ∈ after, x.1.precedes entry.1 = false) ∧ Ascending before ∧ Ascending after := by
  obtain ⟨hbefore, hrest, hcross⟩ := List.pairwise_append.mp h
  obtain ⟨hentry, hafter⟩ := List.pairwise_cons.mp hrest
  exact ⟨fun x hx => hcross x hx entry List.mem_cons_self, hentry, hbefore, hafter⟩

/-- What stands in a table that ascends is found, given rounds enough. -/
theorem search?_of_mem
    {rounds : Nat}
    (hrounds : table.length ≤ rounds)
    (hascending : Ascending table)
    (h : (key, value) ∈ table) :
    search? key rounds table = some value := by
  induction rounds generalizing table with
  | zero =>
      obtain rfl := List.length_eq_zero_iff.mp (Nat.le_zero.mp hrounds)
      exact absurd h List.not_mem_nil
  | succ rounds ih =>
      have hpos := List.length_pos_of_mem h
      have hjoin := List.take_append_drop (table.length / 2) table
      rw [search?]
      cases hdrop : table.drop (table.length / 2) with
      | nil =>
          have hlength := List.drop_eq_nil_iff.mp hdrop
          omega
      | cons entry after =>
          obtain ⟨middle, found⟩ := entry
          rw [hdrop] at hjoin
          have hlength := congrArg List.length hjoin
          rw [List.length_append, List.length_take, List.length_cons] at hlength
          rw [← hjoin] at h hascending
          obtain ⟨hbefore, hbehind, hfront, hback⟩ := hascending.split
          rcases List.mem_append.mp h with hmem | hmem
          · -- The middle does not come before what stands in front of it.
            have hmiddle : middle.precedes key = false := hbefore _ hmem
            have hprecedes : key.precedes middle = true :=
              (precedes_total key middle).resolve_right (by simp [hmiddle])
            dsimp only
            rw [if_neg (ne_of_precedes_eq_false hmiddle).symm, if_pos hprecedes]
            exact ih (by rw [List.length_take]; omega) hfront hmem
          · rcases List.mem_cons.mp hmem with heq | hmem
            · obtain ⟨rfl, rfl⟩ := Prod.mk.inj heq
              exact if_pos rfl
            · have hkey : key.precedes middle = false := hbehind _ hmem
              dsimp only
              rw [if_neg (ne_of_precedes_eq_false hkey), if_neg (by simp [hkey])]
              exact ih (by omega) hback hmem

/-- A text is found in a table that ascends exactly if it stands there. -/
theorem lookup?_eq_some_iff (hascending : Ascending table) :
    lookup? key table = some value ↔ (key, value) ∈ table :=
  ⟨mem_of_search?, search?_of_mem (Nat.le_refl _) hascending⟩

end Found
end Text
end ZigCst
