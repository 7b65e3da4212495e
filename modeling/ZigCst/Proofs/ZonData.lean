import ZigCst.Proofs.Bare
import ZigCst.Proofs.ZonPrint

/-!
# Zon data are read back

The reader of data goes from a value in a tree to the entries of a container and
from there to their values.  A tree that was parsed from printed data has no trivia,
so it is known from its outline and its lexemes: it is the tree of the data.  Reading
it gives the data.

**Definitions.**
* `Node.tree`: the tree below a node.
* `Zon.Value.datum?`: the datum that a value in a tree stands for.

**Results.**
* `Root.eq_of_bare_eq`: a tree without trivia is known from its bare form.
* `Zon.Datum.datum?_of_tree`: the tree of a datum is read as the datum.
* `Zon.exists_parse_of_value`: a derivable file has a parse without errors.
* `Zon.parse?_print`: data written to a file are read back.
-/

namespace ZigCst

/-! ## Children of nodes -/

section Children

variable {K : Type}

def Tree.isNode : Tree K → Bool
  | .token _ _ => false
  | .node _ _ => true

/-- The tree below a node, the node included. -/
def Node.tree (n : Node K) : Tree K := .node n.kind n.children

theorem Node.map_tree_elementsFrom
    (n : Node K)
    (index : Nat)
    (place : Extent)
    (ts : List (Tree K)) :
    ((n.elementsFrom index place ts).filterMap Element.node?).map Node.tree =
      ts.filter Tree.isNode := by
  induction ts generalizing index place with
  | nil => rfl
  | cons t ts ih =>
      cases t with
      | token kind text =>
          rw [Node.elementsFrom, List.filterMap_cons_none rfl, ih]
          rfl
      | node kind children =>
          rw [Node.elementsFrom, List.filterMap_cons_some (f := Element.node?) rfl]
          rw [List.map_cons, ih]
          rfl

/-- The child nodes are the nodes among the children. -/
theorem Node.map_tree_childNodes (n : Node K) :
    n.childNodes.map Node.tree = n.children.filter Tree.isNode :=
  n.map_tree_elementsFrom 0 n.place.enter n.children

theorem Node.sizeOf_children_lt
    [SizeOf K]
    {n c : Node K}
    (h : c ∈ n.childNodes) :
    sizeOf c.children < sizeOf n.children := by
  have hmem : c.tree ∈ n.children.filter Tree.isNode := by
    rw [← n.map_tree_childNodes]
    exact List.mem_map_of_mem h
  have hlt := List.sizeOf_lt_of_mem (List.mem_filter.mp hmem).1
  rw [Node.tree, Tree.node.sizeOf_spec] at hlt
  omega

/-- A node of one token. -/
theorem Node.childTokens_eq_singleton
    {n : Node K}
    {kind : K}
    {text : Text}
    (h : n.children = [.token kind text]) :
    n.childTokens = [⟨⟨kind, text⟩, n.place.enter, n⟩] := by
  rw [Node.childTokens, Node.elements, h]
  rfl

end Children

/-! ## Trees without trivia -/

section Shapes

variable {K : Type}

mutual

/-- The tree that a shape of lexemes is. -/
def Shape.tree : Shape (Lexeme K) K → Tree K
  | .leaf l => .token l.kind l.text
  | .node kind children => .node kind (Shape.trees children)

/-- The trees that neighbouring shapes are. -/
def Shape.trees : List (Shape (Lexeme K) K) → List (Tree K)
  | [] => []
  | s :: ss => s.tree :: Shape.trees ss

end

theorem Shape.trees_eq (ss : List (Shape (Lexeme K) K)) : Shape.trees ss = ss.map Shape.tree := by
  induction ss with
  | nil => rfl
  | cons s ss ih => rw [trees, ih, List.map_cons]

theorem Shape.tree_node
    (kind : K)
    (children : List (Shape (Lexeme K) K)) :
    (node kind children).tree = .node kind (children.map Shape.tree) := by
  rw [tree, trees_eq]

variable [Vocabulary K]

mutual

/-- A tree without trivia is known from its bare form. -/
theorem Tree.map_tree_bare
    (t : Tree K)
    (h : ∀ l ∈ t.lexemes, Vocabulary.isTrivia l.kind = false) :
    t.bare.map Shape.tree = [t] := by
  cases t with
  | token kind text =>
      have hkind : Vocabulary.isTrivia kind = false := h ⟨kind, text⟩ (by simp)
      rw [bare, hkind]
      rfl
  | node kind children =>
      rw [bare, List.map_singleton, Shape.tree_node, Tree.map_tree_bares children h]

theorem Tree.map_tree_bares
    (ts : List (Tree K))
    (h : ∀ l ∈ allLexemes ts, Vocabulary.isTrivia l.kind = false) :
    (bares ts).map Shape.tree = ts := by
  cases ts with
  | nil => rfl
  | cons t ts =>
      rw [allLexemes_cons, List.forall_mem_append] at h
      rw [bares, List.map_append, Tree.map_tree_bare t h.1, Tree.map_tree_bares ts h.2]
      rfl

end

/-- A whole tree without trivia is known from its bare form. -/
theorem Root.eq_of_bare_eq
    {r : Root K}
    {kind : K}
    {children : List (Shape (Lexeme K) K)}
    (hbare : r.bare = .node kind children)
    (h : ∀ l ∈ r.lexemes, Vocabulary.isTrivia l.kind = false) :
    r = ⟨kind, children.map Shape.tree⟩ := by
  obtain ⟨hkind, hchildren⟩ := Shape.node.inj hbare
  rw [← hkind, ← hchildren, Tree.map_tree_bares r.children h]

end Shapes

namespace Zon

/-! ## Reading -/

/-- The entries of a container. -/
def Value.entries (v : Value) : List (Node Kind) :=
  match v.form with
  | .struct => Struct.entries v.node
  | .array => Array.entries v.node
  | _ => []

theorem Value.mem_childNodes_of_mem_entries
    {v : Value}
    {e : Node Kind}
    (h : e ∈ v.entries) :
    e ∈ v.node.childNodes := by
  unfold entries at h
  split at h
  · exact List.mem_of_mem_filter h
  · exact List.mem_of_mem_filter h
  · exact absurd h List.not_mem_nil

theorem Value.node_of_ofNode?
    {n : Node Kind}
    {v : Value}
    (h : Value.ofNode? n = some v) :
    v.node = n := by
  obtain ⟨form, -, rfl⟩ := Option.map_eq_some_iff.mp h
  rfl

theorem Entry.mem_childNodes_of_value?
    {e : Node Kind}
    {v : Value}
    (h : Entry.value? e = some v) :
    v.node ∈ e.childNodes := by
  have hmem : v ∈ e.childNodes.filterMap Value.ofNode? := by
    unfold Entry.value? at h
    dsimp only at h
    split at h
    · exact List.mem_of_find?_eq_some h
    · exact List.mem_of_head? h
  obtain ⟨n, hn, hv⟩ := List.mem_filterMap.mp hmem
  rw [Value.node_of_ofNode? hv]
  exact hn

/-- The datum that a value in a tree stands for; none if something in it is
malformed. -/
def Value.datum? (v : Value) : Option Datum :=
  match v.form with
  | .struct | .array =>
      let entries := v.entries.attach.map fun ⟨e, _⟩ =>
        match _h : Entry.value? e with
        | some w => w.datum?.map fun d => (Struct.keyName? e, d)
        | none => none
      (entries.mapM id).map .container
  | .identifier => some (.identifier (Identifier.value v.node))
  | .enumLiteral => (EnumLiteral.name? v.node).map fun n => .enumLiteral (Identifier.value n)
  | .stringLiteral => some (.string (StringLiteral.content v.node))
  | .char => (Character.value? v.node).map .character
  | .number =>
      (Number.literal? v.node).map fun l =>
        .integer (Number.isNegative v.node) (Nat.ofDigitChars 10 l.text 0)
  | .error => none
termination_by sizeOf v.node.children
decreasing_by
  all_goals
    have hentry := Node.sizeOf_children_lt (Value.mem_childNodes_of_mem_entries ‹_ ∈ v.entries›)
    have hvalue := Node.sizeOf_children_lt (Entry.mem_childNodes_of_value? _h)
    omega

/-- The key and the datum of an entry. -/
def Entry.datum? (e : Node Kind) : Option (Option Text × Datum) :=
  (Entry.value? e).bind fun v => v.datum?.map fun d => (Struct.keyName? e, d)

theorem Value.datum?_container
    {v : Value}
    (h : v.form = .struct ∨ v.form = .array) :
    v.datum? = ((v.entries.map Entry.datum?).mapM id).map .container := by
  have hentries : (v.entries.attach.map fun x =>
      match _h : Entry.value? x.1 with
      | some w => w.datum?.map fun d => (Struct.keyName? x.1, d)
      | none => none) = v.entries.map Entry.datum? := by
    rw [← List.attach_map_val (l := v.entries)]
    refine List.map_congr_left fun x _ => ?_
    rw [Entry.datum?]
    split
    · rename_i hvalue
      rw [hvalue]
      rfl
    · rename_i hvalue
      rw [hvalue]
      rfl
  rw [Value.datum?]
  rcases h with h | h <;> simp only [h, hentries]

/-! ## Trees of data -/

/-- What separates the members is filtered out. -/
theorem filter_intersperse
    {α : Type}
    {p : α → Bool}
    {a : α}
    (ha : p a = false)
    (as : List α) :
    (as.intersperse a).filter p = as.filter p := by
  fun_induction List.intersperse a as with
  | case1 => rfl
  | case2 b => rfl
  | case3 b c as ih => simp [List.filter_cons, ha, ih]

theorem mapM_id_map_some
    {α : Type}
    (as : List α) :
    (as.map some).mapM id = some as := by
  induction as with
  | nil => rfl
  | cons a as ih => simp [ih]

namespace Datum

/-- The form of value that the tree of a datum is. -/
def form : Datum → Form
  | .string _ => .stringLiteral
  | .character _ => .char
  | .integer _ _ => .number
  | .enumLiteral _ => .enumLiteral
  | .identifier _ => .identifier
  | .container entries => if containerKind entries = .struct then .struct else .array

section Nodes

variable {n : Node Kind}

theorem ofNode?_of_tree
    (d : Datum)
    (h : n.tree = d.shape.tree) :
    Value.ofNode? n = some ⟨d.form, n⟩ := by
  have hkind : Form.ofKind? n.kind = some d.form := by
    cases d with
    | container entries =>
        rw [shape, Shape.tree_node] at h
        rw [(Tree.node.inj h).1, form, containerKind]
        split <;> rfl
    | _ =>
        rw [(Tree.node.inj h).1]
        rfl
  rw [Value.ofNode?, hkind]
  rfl

theorem identifierValue_of_tree
    {name : Text}
    (h : n.tree = (nameShape name).tree) :
    Identifier.value n = name := by
  have htokens := Node.childTokens_eq_singleton (Tree.node.inj h).2
  rw [Identifier.value, Identifier.text, Identifier.token?, Node.token?, htokens]
  exact Literal.nameOf_encloseName name

theorem content_of_tree
    {content : Text}
    (h : n.tree = (string content).shape.tree) :
    StringLiteral.content n = content := by
  have htokens := Node.childTokens_eq_singleton (Tree.node.inj h).2
  have hmultiline : StringLiteral.isMultiline n = false := by
    rw [StringLiteral.isMultiline, Node.hasToken, Node.token?, htokens]
    rfl
  have hcontent : StringLiteral.content n =
      Literal.unescape (Literal.content '"' (Literal.enclose '"' content)).text := by
    rw [StringLiteral.content, StringLiteral.excerpts, hmultiline, Node.token?, htokens]
    rfl
  rw [hcontent, Literal.content_enclose, Literal.unescape_escape (.inl rfl)]

theorem characterValue?_of_tree
    {value : Char}
    (h : n.tree = (character value).shape.tree) :
    Character.value? n = some value := by
  have htokens := Node.childTokens_eq_singleton (Tree.node.inj h).2
  rw [Character.value?, Node.token?, htokens]
  exact Literal.charOf?_enclose value

theorem number_of_tree
    {isNegative : Bool}
    {magnitude : Nat}
    (h : n.tree = (integer isNegative magnitude).shape.tree) :
    Number.isNegative n = isNegative ∧
      (Number.literal? n).map Leaf.toLexeme = some ⟨.integer, Nat.toDigits 10 magnitude⟩ := by
  have hchildren := (Tree.node.inj h).2
  rw [Number.isNegative, Number.literal?, Node.hasToken, Node.token?, Node.token?, Node.token?,
    Node.childTokens, Node.elements, hchildren]
  cases isNegative with
  | false => exact ⟨rfl, rfl⟩
  | true => exact ⟨rfl, rfl⟩

theorem name?_of_tree
    {name : Text}
    (h : n.tree = (enumLiteral name).shape.tree) :
    (EnumLiteral.name? n).map Identifier.value = some name := by
  have hnodes : n.childNodes.map Node.tree = [(nameShape name).tree] := by
    rw [Node.map_tree_childNodes, (Tree.node.inj h).2]
    rfl
  obtain ⟨c, hc, htree⟩ := List.map_eq_singleton_iff.mp hnodes
  have hkind : c.kind = .ident := (Tree.node.inj htree).1
  rw [EnumLiteral.name?, Node.child?, hc, List.find?_cons_of_pos (by simp [hkind])]
  exact congrArg some (identifierValue_of_tree htree)

/-- A value without a key is the only child of its entry. -/
theorem value?_positional
    {e : Node Kind}
    {t : Tree Kind}
    (h : e.children = [t])
    (ht : t.isNode = true) :
    ∃ value,
      Entry.value? e = Value.ofNode? value ∧ value.tree = t ∧ Struct.keyName? e = none := by
  have hnodes : e.childNodes.map Node.tree = [t] := by
    rw [Node.map_tree_childNodes, h, List.filter_cons_of_pos ht]
    rfl
  obtain ⟨value, hvalue, htree⟩ := List.map_eq_singleton_iff.mp hnodes
  have htokens : e.childTokens = [] := by
    cases t with
    | token kind text => simp [Tree.isNode] at ht
    | node kind children =>
        rw [Node.childTokens, Node.elements, h]
        rfl
  refine ⟨value, ?_, htree, ?_⟩
  · rw [Entry.value?, Node.token?, htokens, hvalue]
    cases hof : Value.ofNode? value <;> simp [hof]
  · rw [Struct.keyName?, Entry.key?, Node.hasToken, Node.token?, htokens]
    rfl

/-- The equals sign stands between the key and the value of an entry. -/
theorem exists_childNodes_named
    {e : Node Kind}
    {dot equals : Text}
    {t u : Tree Kind}
    (h : e.children = [.token .dot dot, t, .token .eq equals, u])
    (hequals : 0 < equals.size)
    (ht : t.isNode = true)
    (hu : u.isNode = true) :
    ∃ key value mark,
      e.childNodes = [key, value] ∧ key.tree = t ∧ value.tree = u ∧
      e.token? .eq = some mark ∧
      ¬mark.range.stop ≤ key.range.start ∧ mark.range.stop ≤ value.range.start := by
  cases t with
  | token kind text => simp [Tree.isNode] at ht
  | node kind children =>
      cases u with
      | token kind' text => simp [Tree.isNode] at hu
      | node kind' children' =>
          refine ⟨_, _, _, by rw [Node.childNodes, Node.elements, h]; rfl, rfl, rfl,
            by rw [Node.token?, Node.childTokens, Node.elements, h]; rfl, ?_, ?_⟩
          · simp [Leaf.range, Leaf.located, Located.range, Range.ofText, Node.range, Node.child,
              Extent.add, Extent.enter, Tree.extent]
            omega
          · simp [Leaf.range, Leaf.located, Located.range, Range.ofText, Node.range, Node.child,
              Extent.add, Extent.enter, Tree.extent]

/-- The value of an entry with a key stands behind the equals sign. -/
theorem value?_named
    {e : Node Kind}
    {name : Text}
    {t : Tree Kind}
    (h : e.children = [.token .dot ['.'], (nameShape name).tree, .token .eq ['='], t])
    (ht : t.isNode = true) :
    ∃ value,
      Entry.value? e = Value.ofNode? value ∧ value.tree = t ∧ Struct.keyName? e = some name := by
  obtain ⟨key, value, mark, hnodes, hkey, hvalue, hmark, hbefore, hbehind⟩ :=
    exists_childNodes_named h (by decide) rfl ht
  have hkind : key.kind = .ident := (Tree.node.inj hkey).1
  refine ⟨value, ?_, hvalue, ?_⟩
  · have hident : Value.ofNode? key = some ⟨.identifier, key⟩ := by
      rw [Value.ofNode?, hkind]
      rfl
    rw [Entry.value?, hmark, hnodes]
    cases hof : Value.ofNode? value with
    | none => simp [hident, hof, hbefore]
    | some v =>
        have hnode := Value.node_of_ofNode? hof
        simp [hident, hof, hnode, hbefore, hbehind]
  · rw [Struct.keyName?, Entry.key?, Node.hasToken, hmark, Node.child?, hnodes,
      List.find?_cons_of_pos (by simp [hkind])]
    exact congrArg some (identifierValue_of_tree hkey)

theorem isNode_tree_shape (d : Datum) : d.shape.tree.isNode = true := by
  cases d <;> rfl

/-- The tree of an entry is read as its key and its value. -/
theorem value?_of_tree
    {e : Node Kind}
    {key : Option Text}
    {d : Datum}
    (h : e.tree = (Shape.node Kind.entry (keyShapes key ++ [d.shape])).tree) :
    ∃ value,
      Entry.value? e = some ⟨d.form, value⟩ ∧ value.tree = d.shape.tree ∧
      Struct.keyName? e = key := by
  rw [Shape.tree_node] at h
  have hchildren := (Tree.node.inj h).2
  have hread : ∃ value,
      Entry.value? e = Value.ofNode? value ∧ value.tree = d.shape.tree ∧
      Struct.keyName? e = key := by
    cases key with
    | none => exact value?_positional hchildren d.isNode_tree_shape
    | some name => exact value?_named hchildren d.isNode_tree_shape
  obtain ⟨value, hvalue, htree, hkey⟩ := hread
  exact ⟨value, hvalue.trans (d.ofNode?_of_tree htree), htree, hkey⟩

theorem exists_eq_of_mem_shapeAll
    {entries : List (Option Text × Datum)}
    {s : Shape (Lexeme Kind) Kind}
    (h : s ∈ shapeAll entries) :
    ∃ children, s = .node .entry children := by
  induction entries with
  | nil => simp [shapeAll] at h
  | cons e entries ih =>
      rw [shapeAll] at h
      rcases List.mem_cons.mp h with rfl | h
      · exact ⟨_, rfl⟩
      · exact ih h

/-- The entries of a container are those of its tree. -/
theorem map_tree_childrenOf
    {entries : List (Option Text × Datum)}
    (h : n.tree = (container entries).shape.tree) :
    (n.childrenOf .entry).map Node.tree = (shapeAll entries).map Shape.tree := by
  rw [shape, Shape.tree_node] at h
  have hentry : ∀ s ∈ shapeAll entries, (Tree.isNode ∘ Shape.tree) s = true := by
    intro s hs
    obtain ⟨children, rfl⟩ := exists_eq_of_mem_shapeAll hs
    rfl
  have hnodes : n.childNodes.map Node.tree = (shapeAll entries).map Shape.tree := by
    rw [Node.map_tree_childNodes, (Tree.node.inj h).2, List.filter_map, List.filter_append,
      List.filter_append, filter_intersperse (p := Tree.isNode ∘ Shape.tree) rfl,
      List.filter_eq_self.mpr hentry]
    exact congrArg (List.map Shape.tree) (List.append_nil (shapeAll entries))
  have hkind : ∀ c ∈ n.childNodes, c.kind = .entry := by
    intro c hc
    have hmem : c.tree ∈ (shapeAll entries).map Shape.tree := hnodes ▸ List.mem_map_of_mem hc
    obtain ⟨s, hs, htree⟩ := List.mem_map.mp hmem
    obtain ⟨children, rfl⟩ := exists_eq_of_mem_shapeAll hs
    exact (Tree.node.inj htree.symm).1
  rw [Node.childrenOf, List.filter_eq_self.mpr (by simpa using hkind), hnodes]

end Nodes

mutual

/-- The tree of a datum is read as the datum. -/
theorem datum?_of_tree
    (d : Datum)
    {n : Node Kind}
    (h : n.tree = d.shape.tree) :
    (Value.mk d.form n).datum? = some d := by
  cases d with
  | string content =>
      rw [Value.datum?]
      exact congrArg (some ∘ string) (content_of_tree h)
  | character value =>
      rw [Value.datum?]
      exact congrArg (Option.map character) (characterValue?_of_tree h)
  | integer isNegative magnitude =>
      obtain ⟨hnegative, hliteral⟩ := number_of_tree h
      obtain ⟨l, hl, hlexeme⟩ := Option.map_eq_some_iff.mp hliteral
      have htext : l.text = Nat.toDigits 10 magnitude := congrArg Lexeme.text hlexeme
      rw [Value.datum?]
      simp only [form, hl, Option.map_some, hnegative, htext]
      rw [Nat.ofDigitChars_toDigits (by decide) (by decide)]
  | enumLiteral name =>
      have hname := congrArg (Option.map enumLiteral) (name?_of_tree h)
      rw [Option.map_map] at hname
      rw [Value.datum?]
      exact hname
  | identifier name =>
      rw [Value.datum?]
      exact congrArg (some ∘ identifier) (identifierValue_of_tree h)
  | container entries =>
      have hform : (container entries).form = .struct ∨ (container entries).form = .array := by
        rw [form]
        split
        · exact .inl rfl
        · exact .inr rfl
      have hread : (Value.mk (container entries).form n).entries = n.childrenOf .entry := by
        rcases hform with hform | hform <;> rw [hform] <;> rfl
      rw [Value.datum?_container hform, hread, datum?_of_trees entries (map_tree_childrenOf h),
        mapM_id_map_some]
      rfl

theorem datum?_of_trees
    (entries : List (Option Text × Datum))
    {ns : List (Node Kind)}
    (h : ns.map Node.tree = (shapeAll entries).map Shape.tree) :
    ns.map Entry.datum? = entries.map some := by
  cases entries with
  | nil =>
      rw [shapeAll, List.map_nil, List.map_eq_nil_iff] at h
      rw [h]
      rfl
  | cons e entries =>
      obtain ⟨key, d⟩ := e
      rw [shapeAll, List.map_cons] at h
      obtain ⟨m, ms, rfl, hm, hms⟩ := List.map_eq_cons_iff.mp h
      obtain ⟨value, hvalue, htree, hkey⟩ := value?_of_tree hm
      have hdatum : Entry.datum? m = some (key, d) := by
        rw [Entry.datum?, hvalue, Option.bind_some, datum?_of_tree d htree, hkey]
        rfl
      rw [List.map_cons, List.map_cons, hdatum, datum?_of_trees entries hms]

end

end Datum

/-! ## Files of data -/

/-- A file that is a value has a parse without errors, and its tree is that of the
value. -/
theorem exists_parse_of_value
    {text : Text}
    {tree : Shape Kind Kind}
    (h : Rule.Value maxDepth (significantKinds (lex text)) tree) :
    ∃ p,
      parse? text = some p ∧
      (∀ e ∈ p.diagnostics, e.severity ≠ .error) ∧
      p.root.lexemes = lex text ∧
      p.root.outline = .node .file [tree, .leaf .eof] := by
  have hstart : (Site.ofList (significant (tokensWith read text))).kinds =
      significantKinds (lex text) := map_kind_significant read text
  rw [← hstart] at h
  have hfile : Kind.file ≠ Vocabulary.tombstone := by decide
  obtain ⟨t, ⟨hchildren, hreports⟩, hgrow, herrors⟩ :=
    Parser.Ends.exists_grow? (Q := fun t => t.children = [tree] ∧ t.reports = 0) hfile
      ((ends_document_accepts tree h).mono fun _ t ht =>
        ⟨ht.kinds_eq (List.append_nil _).symm, ht.behind, ht.children, ht.reports⟩)
  obtain ⟨p, hp, hdiagnostics, hkeeps, houtline⟩ := ofGrammar?_of_grow? hgrow
  refine ⟨_, parse?_of_ofGrammar? hp, ?_, hkeeps.lexemes_eq, ?_⟩
  · rw [hdiagnostics, forall_severity_ne_error_iff, ← List.length_eq_zero_iff,
      herrors _ (length_tokensWith read text), hreports]
  · rw [houtline, hchildren]
    rfl

/-- The lexemes of a file of data. -/
theorem lex_print_eq (d : Datum) : lex d.print = d.shape.leaves ++ [⟨.eof, []⟩] := by
  have hstops : Stops [] := fun c hc => absurd hc (Option.not_mem_none c)
  have hlex := d.lex_print hstops
  rw [List.append_nil] at hlex
  rw [hlex, lex, lexWith]
  rfl

theorem isTrivia_of_mem_lex_print
    (d : Datum)
    {l : Lexeme Kind}
    (hl : l ∈ lex d.print) :
    Vocabulary.isTrivia l.kind = false := by
  rw [lex_print_eq] at hl
  rcases List.mem_append.mp hl with hl | hl
  · exact d.significant_shape l hl
  · obtain rfl := List.mem_singleton.mp hl
    rfl

/-- Printed data are derivable. -/
theorem Datum.value_print
    (d : Datum)
    {n : Nat}
    (h : d.depth ≤ n) :
    Rule.Value n (significantKinds (lex d.print)) (d.shape.map Lexeme.kind) := by
  have hkinds : significantKinds (lex d.print) = d.shape.leaves.map Lexeme.kind := by
    rw [significantKinds, lex_print_eq, List.dropLast_concat, List.filter_eq_self.mpr]
    intro l hl
    simp [d.significant_shape l hl]
  rw [hkinds]
  exact d.value_shape h

/-- A tree with the outline and the lexemes of a datum is the tree of the datum. -/
theorem root_eq_of_outline
    {d : Datum}
    {r : Root Kind}
    (houtline : r.outline = .node .file [d.shape.map Lexeme.kind, .leaf .eof])
    (hlexemes : r.lexemes = lex d.print) :
    r = ⟨.file, [d.shape.tree, .token .eof []]⟩ := by
  have hsignificant : ∀ l ∈ r.lexemes, Vocabulary.isTrivia l.kind = false := by
    rw [hlexemes]
    exact fun l hl => isTrivia_of_mem_lex_print d hl
  have hbare : r.bare = .node .file [d.shape, .leaf ⟨.eof, []⟩] := by
    refine Shape.eq_of_map_eq (f := Lexeme.kind) r.bare _ ?_ ?_
    · rw [Root.map_kind_bare, houtline]
      simp
    · have hall : significantLexemes r.lexemes = r.lexemes :=
        List.filter_eq_self.mpr fun l hl => by simp [hsignificant l hl]
      rw [Root.leaves_bare, hall, hlexemes, lex_print_eq]
      simp
  exact Root.eq_of_bare_eq hbare hsignificant

/-- **Data written to a file are read back.**  A datum that nests at most `maxDepth`
deep is printed as a text that is parsed without an error, and the value of the file
is read as the datum: every string, name and key is recovered, whatever characters it
is made of. -/
theorem parse?_print
    (d : Datum)
    (h : d.depth ≤ maxDepth) :
    ∃ p,
      parse? d.print = some p ∧
      (∀ e ∈ p.diagnostics, e.severity ≠ .error) ∧
      (File.value? p.root.node).bind Value.datum? = some d := by
  obtain ⟨p, hp, herrors, hlexemes, houtline⟩ := exists_parse_of_value (d.value_print h)
  refine ⟨p, hp, herrors, ?_⟩
  -- The only node below the root is the tree of the datum.
  have hnodes : p.root.node.childNodes.map Node.tree = [d.shape.tree] := by
    rw [Node.map_tree_childNodes, root_eq_of_outline houtline hlexemes]
    exact List.filter_cons_of_pos d.isNode_tree_shape
  obtain ⟨n, hn, htree⟩ := List.map_eq_singleton_iff.mp hnodes
  have hvalue : File.value? p.root.node = some ⟨d.form, n⟩ := by
    rw [File.value?, hn, List.findSome?_singleton, d.ofNode?_of_tree htree]
  rw [hvalue, Option.bind_some, d.datum?_of_tree htree]

/-- A key of a line feed and a quote, and a quote as a character. -/
theorem parse?_print_nested :
    (Datum.container [(some ['\n', '"'], .integer true 7), (none, .character '\'')]).print =
        ".\x7b.@\"\\n\\\"\"=-7,'\\''\x7d".toList ∧
    ∃ p,
      parse? (Datum.container
        [(some ['\n', '"'], .integer true 7), (none, .character '\'')]).print = some p ∧
      (∀ e ∈ p.diagnostics, e.severity ≠ .error) ∧
      (File.value? p.root.node).bind Value.datum? =
        some (.container [(some ['\n', '"'], .integer true 7), (none, .character '\'')]) :=
  ⟨by decide, parse?_print _ (by decide)⟩

end Zon
end ZigCst
