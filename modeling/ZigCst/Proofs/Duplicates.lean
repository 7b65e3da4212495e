import ZigCst.Proofs.Diagnostics
import ZigCst.Proofs.InPlace
import ZigCst.Proofs.ZonShape

/-!
# Fields that repeat a name

The keys of a struct, its repeated entries and the lookup of a name are three passes over
the same entries.  They agree: each keyed entry is the first one of its name and counts
for a key, or it repeats an earlier one; and a name is looked up in its first entry.  The
warnings of a file are about the repeated entries, each at the identifier of its key.

**Definitions.**
* `Struct.Indexed`: how keys, repeated entries and lookup of a struct agree.
* `WarnsOf`: the warning about a repeated entry.

**Results.**
* `length_filterMap_keyName?`, `mem_duplicatesFrom_iff`: what the pass over the entries
  finds, whatever names were seen before.
* `exists_parse_duplicates`: all structs and the warnings of every file.
-/

namespace ZigCst

/-! ## Nodes and tokens in place -/

section Places

variable {K : Type}

/-- Child nodes are counted from left to right. -/
theorem Node.pairwise_index (n : Node K) : n.childNodes.Pairwise fun c d => c.index < d.index := by
  have hfrom : ∀ (index : Nat) (place : Extent) (ts : List (Tree K)),
      (∀ c ∈ (n.elementsFrom index place ts).filterMap Element.node?, index ≤ c.index) ∧
        ((n.elementsFrom index place ts).filterMap Element.node?).Pairwise fun c d =>
          c.index < d.index := by
    intro index place ts
    induction ts generalizing index place with
    | nil => exact ⟨by simp [elementsFrom], .nil⟩
    | cons t ts ih =>
        obtain ⟨hindex, hpairwise⟩ := ih (index + 1) (place.add t.extent)
        have hrest : ∀ c ∈ (n.elementsFrom (index + 1) (place.add t.extent) ts).filterMap
            Element.node?, index ≤ c.index := fun c hc => Nat.le_of_succ_le (hindex c hc)
        cases t with
        | token kind text => exact ⟨hrest, hpairwise⟩
        | node kind children =>
            exact ⟨List.forall_mem_cons.mpr ⟨Nat.le_refl _, hrest⟩, .cons hindex hpairwise⟩
  exact (hfrom 0 n.place.enter n.children).2

theorem Node.nodup_childNodes (n : Node K) : n.childNodes.Nodup :=
  n.pairwise_index.imp fun {c d} hlt (heq : c = d) => absurd (heq ▸ hlt) (Nat.lt_irrefl _)

theorem Node.mem_descendants_self (n : Node K) : n ∈ n.descendants := by
  rw [descendants, walk_eq, filterMap_entered_enter_leave]
  exact List.mem_cons_self

/-- A node of one token is trimmed to that token. -/
theorem Node.trimmedRange_eq
    [Vocabulary K]
    {n : Node K}
    {l : Leaf K}
    (h : n.significant = [.token l]) :
    n.trimmedRange = l.range := by
  have hone : (significantLexemes (Tree.allLexemes n.children)).length = 1 := by
    have houtlines : Tree.outlines n.children = [.leaf l.kind] := by
      rw [← n.map_outline_significant, h]
      rfl
    rw [← Tree.leaves_bares, ← List.length_map Lexeme.kind, ← Shape.flatMap_leaves_map,
      Tree.map_kind_bares, houtlines]
    rfl
  obtain ⟨x, hx⟩ : ∃ x, places n.place.bytes (Tree.allLexemes n.children) = [x] := by
    rw [← List.length_eq_one_iff, length_places, hone]
  have hl : .token l ∈ n.elements ∧ Element.isSignificant (.token l) = true := by
    rw [← List.mem_filter, ← significant, h]
    exact List.mem_singleton.mpr rfl
  have hmem : l.located ∈ places n.place.bytes (Tree.allLexemes n.children) := by
    refine List.mem_filter.mpr ⟨?_, hl.2⟩
    rw [← n.map_located_tokens]
    exact List.mem_map_of_mem (mem_tokens_of_mem_elements n.mem_descendants_self hl.1)
  rw [hx, List.mem_singleton] at hmem
  have hsignificant : (locate n.place.bytes (Tree.allLexemes n.children)).filter
      (fun l => !Vocabulary.isTrivia l.kind) = [x] := hx
  rw [trimmedRange, hsignificant, ← hmem]
  rfl

end Places

theorem nodup_eraseDups
    {α : Type}
    [BEq α]
    [LawfulBEq α]
    (xs : List α) :
    xs.eraseDups.Nodup := by
  match xs with
  | [] => exact .nil
  | x :: xs =>
      rw [List.eraseDups_cons, List.nodup_cons]
      refine ⟨fun hmem => ?_, nodup_eraseDups _⟩
      have hne := (List.mem_filter.mp (List.mem_eraseDups.mp hmem)).2
      simp at hne
termination_by xs.length
decreasing_by exact Nat.lt_succ_of_le (List.length_filter_le ..)

namespace Zon

/-! ## Names of entries -/

section Pass

variable {seen : List Text} {e : Node Kind} {es : List (Node Kind)} {name : Text}

theorem duplicatesFrom_cons_none (hname : Struct.keyName? e = none) :
    Struct.duplicatesFrom seen (e :: es) = Struct.duplicatesFrom seen es := by
  rw [Struct.duplicatesFrom, hname]

theorem duplicatesFrom_cons_of_mem
    (hname : Struct.keyName? e = some name)
    (hseen : name ∈ seen) :
    Struct.duplicatesFrom seen (e :: es) = e :: Struct.duplicatesFrom seen es := by
  rw [Struct.duplicatesFrom, hname]
  exact if_pos (List.contains_iff_mem.mpr hseen)

theorem duplicatesFrom_cons_of_not_mem
    (hname : Struct.keyName? e = some name)
    (hseen : name ∉ seen) :
    Struct.duplicatesFrom seen (e :: es) = Struct.duplicatesFrom (name :: seen) es := by
  rw [Struct.duplicatesFrom, hname]
  exact if_neg (mt List.contains_iff_mem.mp hseen)

end Pass

/-- Each entry with a name is the first one of a name that was not seen before, or it
repeats one. -/
theorem length_filterMap_keyName?
    (seen : List Text)
    (es : List (Node Kind)) :
    (es.filterMap Struct.keyName?).length =
      ((es.filterMap Struct.keyName?).filter fun name => !seen.contains name).eraseDups.length +
        (Struct.duplicatesFrom seen es).length := by
  induction es generalizing seen with
  | nil => rfl
  | cons e es ih =>
      cases hname : Struct.keyName? e with
      | none =>
          rw [List.filterMap_cons_none hname, duplicatesFrom_cons_none hname]
          exact ih seen
      | some name =>
          rw [List.filterMap_cons_some hname]
          by_cases hseen : name ∈ seen
          · rw [List.filter_cons_of_neg (by simp [hseen]), duplicatesFrom_cons_of_mem hname hseen,
              List.length_cons, List.length_cons, ih seen, Nat.add_assoc]
          · have hrest : (((es.filterMap Struct.keyName?).filter fun name =>
                !seen.contains name).filter fun other => !other == name) =
                  (es.filterMap Struct.keyName?).filter fun other =>
                    !(name :: seen).contains other := by
              rw [List.filter_filter]
              refine List.filter_congr fun other _ => ?_
              rw [List.contains_cons, Bool.not_or]
            rw [List.filter_cons_of_pos (by simp [hseen]), List.eraseDups_cons, hrest,
              duplicatesFrom_cons_of_not_mem hname hseen, List.length_cons, List.length_cons,
              ih (name :: seen), Nat.add_right_comm]

/-- An entry is found to be repeated exactly if its name was seen before or is the name of
an entry before it. -/
theorem mem_duplicatesFrom_iff
    {seen : List Text}
    {before after : List (Node Kind)}
    {e : Node Kind}
    (hnodup : (before ++ e :: after).Nodup) :
    e ∈ Struct.duplicatesFrom seen (before ++ e :: after) ↔
      ∃ name, Struct.keyName? e = some name ∧
        (name ∈ seen ∨ ∃ e' ∈ before, Struct.keyName? e' = some name) := by
  induction before generalizing seen with
  | nil =>
      have hnot : ∀ seen, e ∉ Struct.duplicatesFrom seen after := fun seen hmem =>
        (List.nodup_cons.mp hnodup).1 (mem_of_mem_duplicatesFrom hmem)
      cases hname : Struct.keyName? e with
      | none => simp [duplicatesFrom_cons_none hname, hnot]
      | some name =>
          by_cases hseen : name ∈ seen
          · simp [duplicatesFrom_cons_of_mem hname hseen, hseen]
          · simp [duplicatesFrom_cons_of_not_mem hname hseen, hseen, hnot]
  | cons b before ih =>
      obtain ⟨hb, hnodup⟩ := List.nodup_cons.mp hnodup
      have hne : e ≠ b := fun heq => hb (heq ▸ List.mem_append_right _ List.mem_cons_self)
      cases hname : Struct.keyName? b with
      | none => simp [duplicatesFrom_cons_none hname, ih hnodup, hname]
      | some other =>
          by_cases hseen : other ∈ seen
          · rw [List.cons_append, duplicatesFrom_cons_of_mem hname hseen, List.mem_cons,
              or_iff_right hne, ih hnodup]
            refine exists_congr fun name => and_congr_right fun _ => ?_
            rw [List.exists_mem_cons_iff, hname, Option.some.injEq]
            constructor
            · exact Or.imp id .inr
            · rintro (h | rfl | h)
              · exact .inl h
              · exact .inl hseen
              · exact .inr h
          · rw [List.cons_append, duplicatesFrom_cons_of_not_mem hname hseen, ih hnodup]
            refine exists_congr fun name => and_congr_right fun _ => ?_
            rw [List.exists_mem_cons_iff, hname, Option.some.injEq, List.mem_cons, eq_comm,
              or_assoc, or_left_comm]

/-- Repeated entries are in the order of the entries. -/
theorem duplicatesFrom_sublist
    (seen : List Text)
    (es : List (Node Kind)) :
    (Struct.duplicatesFrom seen es).Sublist es := by
  induction es generalizing seen with
  | nil => exact .slnil
  | cons e es ih =>
      rw [Struct.duplicatesFrom]
      split
      · exact (ih _).cons e
      · split
        · exact (ih _).cons_cons e
        · exact (ih _).cons e

/-! ## Structs -/

/-- How the keys, the repeated entries and the lookup of a struct agree.  An entry is
known by what stands before and after it. -/
structure Struct.Indexed (s : Node Kind) : Prop where
  nodup_keys : (keys s).Nodup
  mem_keys_iff : ∀ name, name ∈ keys s ↔ ∃ e ∈ entries s, keyName? e = some name
  length_eq : (entries s).countP (fun e => (Entry.key? e).isSome) =
    (keys s).length + (duplicates s).length
  sublist : (duplicates s).Sublist (entries s)
  mem_duplicates_iff : ∀ before e after, entries s = before ++ e :: after →
    (e ∈ duplicates s ↔
      ∃ name, keyName? e = some name ∧ ∃ e' ∈ before, keyName? e' = some name)
  isSome_get?_iff : ∀ name, (get? s name).isSome ↔ name ∈ keys s
  get?_eq : ∀ before e after name, entries s = before ++ e :: after → keyName? e = some name →
    (∀ e' ∈ before, keyName? e' ≠ some name) →
      ∃ value, Entry.value? e = some value ∧ get? s name = some value

theorem mem_keys_iff
    {s : Node Kind}
    {name : Text} :
    name ∈ Struct.keys s ↔ ∃ e ∈ Struct.entries s, Struct.keyName? e = some name := by
  rw [Struct.keys, List.mem_mergeSort, List.mem_eraseDups, List.mem_filterMap]

theorem nodup_keys (s : Node Kind) : (Struct.keys s).Nodup :=
  (List.mergeSort_perm ..).nodup_iff.mpr (nodup_eraseDups _)

/-- Every entry with a name counts for a key or repeats one. -/
theorem countP_key? (s : Node Kind) :
    (Struct.entries s).countP (fun e => (Entry.key? e).isSome) =
      (Struct.keys s).length + (Struct.duplicates s).length := by
  have hnamed : (Struct.entries s).countP (fun e => (Entry.key? e).isSome) =
      ((Struct.entries s).filterMap Struct.keyName?).length := by
    rw [List.length_filterMap_eq_countP]
    refine List.countP_congr fun e _ => ?_
    rw [Struct.keyName?, Option.isSome_map]
  have hall : (((Struct.entries s).filterMap Struct.keyName?).filter fun name =>
      !([] : List Text).contains name) = (Struct.entries s).filterMap Struct.keyName? :=
    List.filter_eq_self.mpr fun _ _ => rfl
  rw [hnamed, length_filterMap_keyName? [], hall, Struct.keys, List.length_mergeSort,
    Struct.duplicates]

/-- An entry has a value. -/
theorem Entry.Shaped.isSome_value?
    {e : Node Kind}
    (h : Entry.Shaped e) :
    (Entry.value? e).isSome = true := by
  cases hkeyed : e.hasToken .eq with
  | true =>
      obtain ⟨_, _, -, -, ⟨v, -, -, hv⟩, -⟩ := h.keyed hkeyed
      rw [hv, Option.isSome_some]
  | false =>
      obtain ⟨_, -, ⟨v, -, -, hv⟩, -⟩ := h.positional hkeyed
      rw [hv, Option.isSome_some]

/-- A name is looked up in its first entry. -/
theorem get?_of_split
    {s e : Node Kind}
    {before after : List (Node Kind)}
    {name : Text}
    (hentries : Struct.entries s = before ++ e :: after)
    (hname : Struct.keyName? e = some name)
    (hbefore : ∀ e' ∈ before, Struct.keyName? e' ≠ some name) :
    Struct.get? s name = Entry.value? e := by
  have hnone : before.find? (fun e => Struct.keyName? e == some name) = none :=
    List.find?_eq_none.mpr fun e' he' => by simpa using hbefore e' he'
  rw [Struct.get?, hentries, List.find?_append, hnone, List.find?_cons_of_pos (by simp [hname])]
  rfl

theorem isSome_get?_iff
    {s : Node Kind}
    (hvalues : ∀ e ∈ Struct.entries s, (Entry.value? e).isSome = true)
    (name : Text) :
    (Struct.get? s name).isSome ↔ name ∈ Struct.keys s := by
  rw [mem_keys_iff, Struct.get?, Option.isSome_bind, Option.any_eq_true]
  constructor
  · rintro ⟨e, he, -⟩
    exact ⟨e, List.mem_of_find?_eq_some he, by simpa using List.find?_some he⟩
  · rintro ⟨e, he, hname⟩
    have hfound : ((Struct.entries s).find? fun e => Struct.keyName? e == some name).isSome := by
      rw [List.find?_isSome]
      exact ⟨e, he, by simp [hname]⟩
    obtain ⟨e', he'⟩ := Option.isSome_iff_exists.mp hfound
    exact ⟨e', he', hvalues e' (List.mem_of_find?_eq_some he')⟩

/-- Keys, repeated entries and lookup agree where every entry has a value. -/
theorem indexed_of_values
    {s : Node Kind}
    (hvalues : ∀ e ∈ Struct.entries s, (Entry.value? e).isSome = true) :
    Struct.Indexed s where
  nodup_keys := nodup_keys s
  mem_keys_iff := fun _ => mem_keys_iff
  length_eq := countP_key? s
  sublist := duplicatesFrom_sublist ..
  mem_duplicates_iff := by
    intro before e after hentries
    have hnodup : (before ++ e :: after).Nodup :=
      hentries ▸ s.nodup_childNodes.sublist List.filter_sublist
    rw [Struct.duplicates, hentries, mem_duplicatesFrom_iff hnodup]
    simp
  isSome_get?_iff := isSome_get?_iff hvalues
  get?_eq := by
    intro before e after name hentries hname hbefore
    have he : e ∈ Struct.entries s := by simp [hentries]
    obtain ⟨value, hvalue⟩ := Option.isSome_iff_exists.mp (hvalues e he)
    exact ⟨value, hvalue, (get?_of_split hentries hname hbefore).trans hvalue⟩

/-! ## Warnings -/

/-- The warning about an entry that repeats a name stands at the identifier of its key. -/
def WarnsOf (e : Node Kind) (d : Diagnostic) : Prop :=
  ∃ key l, Entry.key? e = some key ∧ Identifier.token? key = some l ∧
    d = ⟨.warning, "duplicate field `".toList ++ Identifier.value key ++ ['`'], l.range⟩

/-- The entries of a struct are below it. -/
theorem mem_descendants_of_mem_entries
    {n s e : Node Kind}
    (hs : s ∈ n.descendants)
    (he : e ∈ Struct.entries s) :
    e ∈ n.descendants ∧ e.kind = .entry := by
  obtain ⟨hmem, hkind⟩ := List.mem_filter.mp he
  exact ⟨Node.mem_descendants_of_mem_childNodes hs hmem, by simpa using hkind⟩

/-- A key is one of the children, and a name. -/
theorem mem_childNodes_of_key?
    {e key : Node Kind}
    (h : Entry.key? e = some key) :
    key ∈ e.childNodes ∧ key.kind = .ident := by
  rw [Entry.key?] at h
  split at h
  · exact ⟨List.mem_of_find?_eq_some h, by simpa using List.find?_some h⟩
  · cases h

section Trees

variable
  {r : Root Kind}
  {m : Marked Kind}
  (heverywhere : m.Everywhere Formed)
  (hplain : m.plain? = some r.outline)
include heverywhere hplain

/-- A name is one identifier, to which it is trimmed. -/
theorem exists_token_of_ident
    {key : Node Kind}
    (hkey : key ∈ r.node.descendants)
    (hkind : key.kind = .ident) :
    ∃ l, Identifier.token? key = some l ∧ key.trimmedRange = l.range := by
  obtain ⟨ms, hnode, hms⟩ := Root.exists_children_of_mem hplain hkey
  have hformed := heverywhere.of_mem_nodes m hnode
  rw [hkind] at hformed
  have hfits := Pattern.fits_significant (hformed.fits (by decide)) hms
  obtain ⟨es, rest, hes, hes₁, hrest⟩ := Pattern.fits_all_cons_iff.mp hfits
  obtain ⟨l, rfl, hl⟩ := hes₁.exists_token
  obtain rfl := Pattern.fits_all_nil_iff.mp hrest
  refine ⟨l, ?_, Node.trimmedRange_eq hes⟩
  rw [Identifier.token?, key.token?_eq rfl, hes]
  simpa [Element.token?] using List.mem_singleton.mp hl

/-- There is one warning for each entry that repeats a name. -/
theorem forall₂_warnsOf
    {es : List (Node Kind)}
    (hes : ∀ e ∈ es, e ∈ r.node.descendants ∧ (Entry.key? e).isSome = true) :
    List.Forall₂ WarnsOf es (es.filterMap duplicateWarning?) := by
  induction es with
  | nil => exact .nil
  | cons e es ih =>
      obtain ⟨⟨he, hkeyed⟩, hes⟩ := List.forall_mem_cons.mp hes
      obtain ⟨key, hkey⟩ := Option.isSome_iff_exists.mp hkeyed
      obtain ⟨hmem, hkind⟩ := mem_childNodes_of_key? hkey
      obtain ⟨l, htoken, hrange⟩ := exists_token_of_ident heverywhere hplain
        (Node.mem_descendants_of_mem_childNodes he hmem) hkind
      have hwarning : duplicateWarning? e = some ⟨.warning,
          "duplicate field `".toList ++ Identifier.value key ++ ['`'], l.range⟩ := by
        rw [duplicateWarning?, hkey, ← hrange]
        rfl
      rw [List.filterMap_cons_some hwarning]
      exact .cons ⟨key, l, hkey, htoken, rfl⟩ (ih hes)

/-- There is one warning for each entry that repeats a name in a struct. -/
theorem forall₂_duplicateWarnings :
    List.Forall₂ WarnsOf
      ((r.node.descendants.filter fun n => n.kind == .struct).flatMap Struct.duplicates)
      (duplicateWarnings r) := by
  rw [duplicateWarnings, ← List.filterMap_flatMap]
  refine forall₂_warnsOf heverywhere hplain fun e he => ?_
  obtain ⟨s, hs, he⟩ := List.mem_flatMap.mp he
  have hmem : s ∈ r.node.descendants := (List.mem_filter.mp hs).1
  have hentry : e ∈ Struct.entries s := mem_of_mem_duplicatesFrom he
  refine ⟨(mem_descendants_of_mem_entries hmem hentry).1, ?_⟩
  -- Only entries with a name are found to repeat one.
  obtain ⟨before, after, hsplit⟩ := List.append_of_mem hentry
  have hnodup : (before ++ e :: after).Nodup :=
    hsplit ▸ s.nodup_childNodes.sublist List.filter_sublist
  rw [Struct.duplicates, hsplit, mem_duplicatesFrom_iff hnodup] at he
  obtain ⟨name, hname, -⟩ := he
  obtain ⟨key, hkey, -⟩ := Option.map_eq_some_iff.mp hname
  rw [hkey, Option.isSome_some]

end Trees

/-- **Repeated names are found exactly.**  In every text, the keys of a struct are the
names of its keyed entries, each once; a keyed entry counts for a key, or an entry before
it has its name and it is among the repeated ones; a name is looked up in the first entry
that has it; and the warnings are those about the repeated entries, structs in preorder,
each at the identifier of the key. -/
theorem exists_parse_duplicates (text : Text) :
    ∃ p, parse? text = some p ∧
      (∀ s ∈ p.root.node.descendants, s.kind = .struct → Struct.Indexed s) ∧
      List.Forall₂ WarnsOf
        ((p.root.node.descendants.filter fun n => n.kind == .struct).flatMap Struct.duplicates)
        (p.diagnostics.filter fun d => d.severity == .warning) := by
  obtain ⟨p, children, hp, hkeeps, heverywhere, -, hplain, -⟩ := exists_marked_file text
  refine ⟨p, hp, fun s hs _ => indexed_of_values fun e he => ?_, ?_⟩
  · obtain ⟨hmem, hkind⟩ := mem_descendants_of_mem_entries hs he
    exact (shaped_of_mem hkeeps heverywhere hplain hmem hkind).isSome_value?
  · obtain ⟨q, hq, hdiagnostics, -⟩ := exists_ofGrammar?_names text
    obtain rfl := Option.some.inj (hp.symm.trans (parse?_of_ofGrammar? hq))
    have herrors : q.diagnostics.filter (fun d => d.severity == .warning) = [] := by
      refine List.filter_eq_nil_iff.mpr fun d hd => ?_
      rw [Trace.severity_of_mem_errors (hdiagnostics ▸ hd)]
      decide
    have hwarnings : (duplicateWarnings q.root).filter (fun d => d.severity == .warning) =
        duplicateWarnings q.root :=
      List.filter_eq_self.mpr fun d hd => by rw [severity_of_mem_duplicateWarnings hd]; rfl
    rw [List.filter_append, herrors, hwarnings, List.nil_append]
    exact forall₂_duplicateWarnings heverywhere hplain

end Zon
end ZigCst
