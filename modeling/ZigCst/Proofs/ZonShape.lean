import ZigCst.Proofs.Outline
import ZigCst.Proofs.Tiling
import ZigCst.Proofs.ZonForms

/-!
# The shape of Zon trees

However malformed a Zon file is, an entry has one value and, in front of it, a key exactly
if it has an equals sign; arrays have entries and none with a key; structs have no entries
or one with a key; and the file has a value unless it is empty.  The readings of entries
and files, which go by the positions of children, find these very nodes.

**Definitions.**
* `Entry.Shaped`: an entry with its value and perhaps its key.

**Results.**
* `significant_of_entry`: the children of an entry that are no trivia.
* `any_isEntry`: entries with and without a key, in a marked tree and in place.
* `exists_parse_shaped`: the shape of every file.
-/

namespace ZigCst
namespace Zon

open Pattern

/-! ## Entries -/

/-- Whether a node is a value, and the reading of an entry. -/
def Entry.Reads (n value : Node Kind) : Prop :=
  ∃ v, Value.ofNode? value = some v ∧ v.node = value ∧ Entry.value? n = some v

/-- Whether an entry has one value and, in front of it, a key exactly if it has an equals
sign. -/
structure Entry.Shaped (n : Node Kind) : Prop where
  keyed : n.hasToken .eq = true → ∃ key value,
    n.childNodes = [key, value] ∧ key.kind = .ident ∧ Entry.Reads n value ∧
      Entry.key? n = some key ∧ key ≠ value
  positional : n.hasToken .eq = false → ∃ value,
    n.childNodes = [value] ∧ Entry.Reads n value ∧ Entry.key? n = none

theorem exists_ofNode?
    {n : Node Kind}
    (h : n.kind ∈ valueKinds) :
    ∃ v, Value.ofNode? n = some v ∧ v.node = n := by
  have hform : ∀ kind ∈ valueKinds, (Form.ofKind? kind).isSome = true := by decide
  obtain ⟨form, hof⟩ := Option.isSome_iff_exists.mp (hform n.kind h)
  exact ⟨⟨form, n⟩, by rw [Value.ofNode?, hof]; rfl, rfl⟩

/-- The children of an entry that are no trivia. -/
theorem significant_of_entry
    {n : Node Kind}
    {ms : List (Marked Kind)}
    (h : (all (contents .entry)).Matches ms)
    (hplain : ms.filterMap Marked.plain? = Tree.outlines n.children) :
    (∃ value, n.significant = [.node value] ∧ value.kind ∈ valueKinds) ∨
      ∃ dot key mark value, n.significant = [.token dot, .node key, .token mark, .node value] ∧
        dot.kind = .dot ∧ key.kind = .ident ∧ mark.kind = .eq ∧ value.kind ∈ valueKinds := by
  obtain ⟨kind, children, hkind, hms⟩ := exists_of_matches_entry h
  rw [← n.map_outline_significant] at hplain
  rcases hms with rfl | ⟨name, rfl⟩
  · left
    obtain ⟨e, he, houtline⟩ := List.map_eq_singleton_iff.mp hplain.symm
    obtain ⟨value, rfl, hvalue, -⟩ := Element.exists_node_of_outline houtline
    exact ⟨value, he, hvalue ▸ hkind⟩
  · right
    obtain ⟨_, es₁, hes, hout₁, hes₁⟩ := List.map_eq_cons_iff.mp hplain.symm
    obtain ⟨_, es₂, rfl, hout₂, hes₂⟩ := List.map_eq_cons_iff.mp hes₁
    obtain ⟨_, es₃, rfl, hout₃, hes₃⟩ := List.map_eq_cons_iff.mp hes₂
    obtain ⟨_, rfl, hout₄⟩ := List.map_eq_singleton_iff.mp hes₃
    obtain ⟨dot, rfl, hdot⟩ := Element.exists_token_of_outline hout₁
    obtain ⟨key, rfl, hkey, -⟩ := Element.exists_node_of_outline hout₂
    obtain ⟨mark, rfl, hmark⟩ := Element.exists_token_of_outline hout₃
    obtain ⟨value, rfl, hvalue, -⟩ := Element.exists_node_of_outline hout₄
    exact ⟨dot, key, mark, value, hes, hdot, hkey, hmark, hvalue ▸ hkind⟩

theorem shaped_of_positional
    {n value : Node Kind}
    (h : n.significant = [.node value])
    (hvalue : value.kind ∈ valueKinds) :
    Entry.Shaped n := by
  obtain ⟨v, hof, hnode⟩ := exists_ofNode? hvalue
  have hnodes : n.childNodes = [value] := by
    rw [n.childNodes_eq, h]
    rfl
  have htoken : n.token? .eq = none := by
    rw [n.token?_eq rfl, h]
    rfl
  have hhas : n.hasToken .eq = false := by
    rw [Node.hasToken, htoken]
    rfl
  refine ⟨fun heq => ?_, fun _ => ⟨value, hnodes, ⟨v, hof, hnode, ?_⟩, ?_⟩⟩
  · simp [hhas] at heq
  · rw [Entry.value?, htoken, hnodes]
    simp [hof]
  · rw [Entry.key?, hhas]
    rfl

/-- The equals sign stands between the key and the value. -/
theorem shaped_of_keyed
    {n key value : Node Kind}
    {dot mark : Leaf Kind}
    (h : n.significant = [.token dot, .node key, .token mark, .node value])
    (hdot : dot.kind = .dot)
    (hkey : key.kind = .ident)
    (hmark : mark.kind = .eq)
    (htext : mark.range.start < mark.range.stop)
    (hvalue : value.kind ∈ valueKinds) :
    Entry.Shaped n := by
  obtain ⟨v, hof, hnode⟩ := exists_ofNode? hvalue
  have hnodes : n.childNodes = [key, value] := by
    rw [n.childNodes_eq, h]
    rfl
  have htoken : n.token? .eq = some mark := by
    rw [n.token?_eq rfl, h]
    simp [Element.token?, hdot, hmark]
  have hhas : n.hasToken .eq = true := by
    rw [Node.hasToken, htoken]
    rfl
  have hordered : n.significant.Pairwise fun e f => e.range.stop ≤ f.range.start :=
    n.pairwise_elements.sublist List.filter_sublist
  rw [h] at hordered
  simp only [List.pairwise_cons, List.mem_cons, List.not_mem_nil, or_false, forall_eq_or_imp,
    forall_eq, Element.range] at hordered
  have hbefore : key.range.start < mark.range.stop := by
    have hkeyRange : key.range.start ≤ key.range.stop := Nat.le_add_right _ _
    omega
  have hbehind : mark.range.stop ≤ value.range.start := hordered.2.2.1
  have hident : Value.ofNode? key = some ⟨.identifier, key⟩ := by
    rw [Value.ofNode?, hkey]
    rfl
  refine ⟨fun _ => ⟨key, value, hnodes, hkey, ⟨v, hof, hnode, ?_⟩, ?_, ?_⟩, fun heq => ?_⟩
  · rw [Entry.value?, htoken, hnodes]
    simp [hident, hof, hnode, hbefore, hbehind]
  · rw [Entry.key?, hhas, Node.child?, hnodes]
    simp [hkey]
  · rintro rfl
    omega
  · simp [hhas] at heq

/-! ## Containers -/

/-- Whether an outline is an entry, named or not. -/
def isEntryOutline (named : Bool) : Shape Kind Kind → Bool
  | .node .entry children => (children.any fun s => s.leaf? == some .eq) == named
  | _ => false

theorem isKeyed_eq (ms : List (Marked Kind)) :
    isKeyed ms = (ms.filterMap Marked.plain?).any fun s => s.leaf? == some .eq := by
  rw [isKeyed, List.any_filterMap]
  congr 1
  funext m
  cases m with
  | leaf mark =>
      cases mark with
      | lexeme kind => simp [Marked.sign, Shape.leaf?]
      | fault cause => rcases cause.sign_eq with h | h <;> simp [Marked.sign, h]
  | node _ _ => simp [Marked.sign, Shape.leaf?]

theorem isEntry_eq
    (named : Bool)
    (m : Marked Kind) :
    isEntry named m = (Marked.plain? m).any (isEntryOutline named) := by
  match m with
  | .leaf (.lexeme _) => rfl
  | .leaf (.fault _) => rfl
  | .node kind children =>
      rw [Marked.plain?_node, Option.any_some]
      cases kind with
      | entry => rw [isEntry, isEntryOutline, isKeyed_eq]
      | _ => rfl

/-- Entries with and without a key are the same in a marked tree and in place. -/
theorem any_isEntry
    {n : Node Kind}
    {ms : List (Marked Kind)}
    (hplain : ms.filterMap Marked.plain? = Tree.outlines n.children)
    (named : Bool) :
    ms.any (isEntry named) = (n.childrenOf .entry).any fun e => e.hasToken .eq == named := by
  have hmarked : ms.any (isEntry named) =
      (Tree.outlines n.children).any (isEntryOutline named) := by
    rw [← hplain, List.any_filterMap]
    congr 1
    funext m
    rw [isEntry_eq]
    cases m.plain? <;> rfl
  rw [hmarked, ← n.map_outline_significant, List.any_map, Node.childrenOf, n.childNodes_eq,
    List.any_filter, List.any_filterMap]
  congr 1
  funext e
  cases e with
  | token l => rfl
  | node c =>
      have hkind : isEntryOutline named c.outline =
          (c.kind == .entry && (c.hasToken .eq == named)) := by
        rw [c.hasToken_eq rfl, Node.outline]
        cases c.kind <;> rfl
      exact hkind

theorem Entries.kind_eq_array_iff (s : Entries) :
    s.kind = .array ↔ s.positional = true ∧ s.named = false := by
  obtain ⟨positional, named⟩ := s
  cases positional <;> cases named <;> decide

theorem Entries.kind_eq_struct_iff (s : Entries) :
    s.kind = .struct ↔ (s.positional = true → s.named = true) := by
  obtain ⟨positional, named⟩ := s
  cases positional <;> cases named <;> decide

/-- An array has entries, and none with a key. -/
theorem entries_of_array
    {n : Node Kind}
    {ms : List (Marked Kind)}
    (hplain : ms.filterMap Marked.plain? = Tree.outlines n.children)
    (h : (Entries.among ms).kind = .array) :
    Array.entries n ≠ [] ∧ ∀ e ∈ Array.entries n, e.hasToken .eq = false := by
  have hentries : ms.any (isEntry false) = true ∧ ms.any (isEntry true) = false :=
    (Entries.kind_eq_array_iff _).mp h
  rw [any_isEntry hplain, any_isEntry hplain, List.any_eq_true, List.any_eq_false] at hentries
  obtain ⟨⟨e, he, -⟩, hnone⟩ := hentries
  exact ⟨List.ne_nil_of_mem he, fun e he => by simpa using hnone e he⟩

/-- A struct has no entries, or one with a key. -/
theorem entries_of_struct
    {n : Node Kind}
    {ms : List (Marked Kind)}
    (hplain : ms.filterMap Marked.plain? = Tree.outlines n.children)
    (h : (Entries.among ms).kind = .struct) :
    Struct.entries n = [] ∨ ∃ e ∈ Struct.entries n, e.hasToken .eq = true := by
  have hentries : ms.any (isEntry false) = true → ms.any (isEntry true) = true :=
    (Entries.kind_eq_struct_iff _).mp h
  rw [any_isEntry hplain, any_isEntry hplain, List.any_eq_true, List.any_eq_true] at hentries
  have hsome : ∀ e ∈ Struct.entries n, ∃ e ∈ Struct.entries n, e.hasToken .eq = true := by
    intro e he
    cases heq : e.hasToken .eq with
    | true => exact ⟨e, he, heq⟩
    | false =>
        obtain ⟨e', he', hkeyed⟩ := hentries ⟨e, he, by simp [heq]⟩
        exact ⟨e', he', by simpa using hkeyed⟩
  cases hes : Struct.entries n with
  | nil => exact .inl rfl
  | cons e es => exact .inr (hes ▸ hsome e (hes ▸ List.mem_cons_self))

/-! ## Files -/

/-- A file has a value exactly if it is not empty. -/
theorem isSome_value?
    {n : Node Kind}
    {children : List (Marked Kind)}
    {empty : Bool}
    (h : (all (fileContents empty)).Matches children)
    (hplain : children.filterMap Marked.plain? = Tree.outlines n.children) :
    (File.value? n).isSome = !empty := by
  rw [← n.map_outline_significant] at hplain
  rw [File.value?, n.childNodes_eq]
  cases empty with
  | true =>
      obtain ⟨_, ys, rfl, hfault, heof⟩ := matches_all_cons_iff.mp h
      obtain ⟨m, rfl, hm⟩ := matches_oneOf_iff.mp hfault
      obtain ⟨kind, rfl, -⟩ := matches_tokens_iff.mp (matches_all_singleton_iff.mp heof)
      match m, hm with
      | .leaf (.fault _), _ =>
          obtain ⟨_, hes, hout⟩ := List.map_eq_singleton_iff.mp hplain.symm
          obtain ⟨l, rfl, -⟩ := Element.exists_token_of_outline hout
          rw [hes]
          rfl
      | .leaf (.lexeme _), hm => simp [Marked.sign] at hm
      | .node _ _, hm => simp [Marked.sign] at hm
  | false =>
      obtain ⟨_, ys, rfl, hvalue, -⟩ := matches_all_cons_iff.mp h
      obtain ⟨kind, cs, rfl, hkind⟩ := matches_nodes_iff.mp hvalue
      rw [List.singleton_append, List.filterMap_cons, Marked.plain?_node] at hplain
      obtain ⟨_, es, hes, hout, -⟩ := List.map_eq_cons_iff.mp hplain.symm
      obtain ⟨value, rfl, hvalueKind, -⟩ := Element.exists_node_of_outline hout
      obtain ⟨v, hof, -⟩ := exists_ofNode? (hvalueKind ▸ hkind)
      rw [hes]
      simp [Element.node?, hof]

theorem isEmpty_significantKinds_eq_false_iff (text : Text) :
    (significantKinds (lex text)).isEmpty = false ↔
      ∃ l ∈ lex text, l.kind ≠ .eof ∧ Vocabulary.isTrivia l.kind = false := by
  obtain ⟨front, hfront, hkeeps⟩ := exists_lexWith_keeps keeps_read text
  rw [significantKinds, lex, hfront, List.dropLast_concat, List.isEmpty_eq_false_iff, ne_eq,
    List.map_eq_nil_iff, List.filter_eq_nil_iff]
  constructor
  · intro hsome
    push Not at hsome
    obtain ⟨l, hl, htrivia⟩ := hsome
    exact ⟨l, List.mem_append_left _ hl, (hkeeps l hl).1.1, by simpa using htrivia⟩
  · rintro ⟨l, hl, hkind, htrivia⟩ hnone
    rcases List.mem_append.mp hl with hl | hl
    · exact hnone l hl (by simp [htrivia])
    · exact hkind (congrArg Lexeme.kind (List.mem_singleton.mp hl))

/-- An equals sign takes something. -/
theorem range_of_eq
    {r : Root Kind}
    {text : Text}
    (h : r.Keeps .file text (lex text))
    {l : Leaf Kind}
    (hl : l ∈ r.node.tokens)
    (hkind : l.kind = .eq) :
    l.range.start < l.range.stop := by
  obtain ⟨front, hfront, hkeeps⟩ := exists_lexWith_keeps keeps_read text
  have hmem : l.toLexeme ∈ lex text := h.map_toLexeme_tokens ▸ List.mem_map_of_mem hl
  rw [lex, hfront, List.mem_append, List.mem_singleton] at hmem
  rcases hmem with hmem | heof
  · have hsize : l.text.size ≠ 0 := mt Text.size_eq_zero_iff.mp (hkeeps _ hmem).1.2
    exact Nat.lt_add_of_pos_right (Nat.pos_of_ne_zero hsize)
  · have hkind' : l.kind = .eof := congrArg Lexeme.kind heof
    rw [hkind] at hkind'
    cases hkind'

/-- Every entry of a file has its shape. -/
theorem shaped_of_mem
    {r : Root Kind}
    {m : Marked Kind}
    {text : Text}
    (hkeeps : r.Keeps .file text (lex text))
    (heverywhere : m.Everywhere Formed)
    (hplain : m.plain? = some r.outline)
    {n : Node Kind}
    (hn : n ∈ r.node.descendants)
    (hkind : n.kind = .entry) :
    Entry.Shaped n := by
  obtain ⟨ms, hnode, hms⟩ := Root.exists_children_of_mem hplain hn
  have hformed := heverywhere.of_mem_nodes _ hnode
  rw [hkind] at hformed
  rcases significant_of_entry (hformed.fits (by decide)) hms with
    ⟨value, hsignificant, hvalue⟩ |
      ⟨dot, key, mark, value, hsignificant, hdot, hkey, hmark, hvalue⟩
  · exact shaped_of_positional hsignificant hvalue
  · have hmark' : .token mark ∈ n.significant := by simp [hsignificant]
    have hmem : .token mark ∈ n.elements := (List.mem_filter.mp hmark').1
    have htext := range_of_eq hkeeps (Node.mem_tokens_of_mem_elements hn hmem) hmark
    exact shaped_of_keyed hsignificant hdot hkey hmark htext hvalue

/-- **The shape of Zon trees.**  In every text, however malformed, an entry has one value
and a key exactly if it has an equals sign, and both are found; an array has entries and
none with a key; a struct has no entries or one with a key; and a value is found for the
file exactly if the text has a token before its end that is no trivia. -/
theorem exists_parse_shaped (text : Text) :
    ∃ p, parse? text = some p ∧
      (∀ n ∈ p.root.node.descendants, n.kind = .entry → Entry.Shaped n) ∧
      (∀ n ∈ p.root.node.descendants, n.kind = .array →
        Array.entries n ≠ [] ∧ ∀ e ∈ Array.entries n, e.hasToken .eq = false) ∧
      (∀ n ∈ p.root.node.descendants, n.kind = .struct →
        Struct.entries n = [] ∨ ∃ e ∈ Struct.entries n, e.hasToken .eq = true) ∧
      ((File.value? p.root.node).isSome ↔
        ∃ l ∈ lex text, l.kind ≠ .eof ∧ Vocabulary.isTrivia l.kind = false) := by
  obtain ⟨p, children, hp, hkeeps, heverywhere, hfile, hplain, -⟩ := exists_marked_file text
  refine ⟨p, hp, fun n hn hkind => ?_, fun n hn hkind => ?_, fun n hn hkind => ?_, ?_⟩
  · exact shaped_of_mem hkeeps heverywhere hplain hn hkind
  · obtain ⟨ms, hnode, hms⟩ := Root.exists_children_of_mem hplain hn
    have hformed := heverywhere.of_mem_nodes _ hnode
    rw [hkind] at hformed
    exact entries_of_array hms (hformed.entries (by decide))
  · obtain ⟨ms, hnode, hms⟩ := Root.exists_children_of_mem hplain hn
    have hformed := heverywhere.of_mem_nodes _ hnode
    rw [hkind] at hformed
    exact entries_of_struct hms (hformed.entries (by decide))
  · have hchildren : children.filterMap Marked.plain? = Tree.outlines p.root.node.children := by
      rw [Marked.plain?_node] at hplain
      exact (Shape.node.inj (Option.some.inj hplain)).2
    rw [isSome_value? hfile hchildren, ← isEmpty_significantKinds_eq_false_iff, Bool.not_eq_true']

end Zon
end ZigCst
