import ZigCst.Proofs.Written
import ZigCst.Proofs.ZonRules

/-!
# Values that nest too deep

A value below too many others is passed over: its tokens go into one error node, with one
error, and everything around it is parsed as if it were any value.  Passing over counts
brackets and knows nothing of the grammar, but the brackets of a value are closed within it,
and its commas stand inside of them, so it takes the whole value and nothing else.

**Definitions.**
* `prune`: a tree with other trees for the values below so many others.
* `truncate`: one error node for each of these values.
* `valuesBelow`: these values, each with the number of significant tokens before it.
* `Rule.Below`: a derivation so many levels down in another one.

**Results.**
* `marks_value`: a tree with an error in each place that was cut off is a truncated tree,
  with one error for each value below so many others.
* `Rule.Value.below_of_mem`: what is cut off of the tree of a derivation is the tree of a
  derivation that nests less deep.
* `Rule.Value.passes`: the brackets of a value are closed within it, so that passing over
  takes all of it.
* `writes_document`: a derivable file is written down with its deep values cut off.
-/

namespace ZigCst
namespace Zon

open ZigCst.Parser

/-! ## Values below others -/

section Levels

variable {α : Type}

mutual

/-- A tree whose leaves are exchanged, and below which the values with so many values
around them are exchanged for other trees. -/
def prune (leaf : Kind → α) (cut : List Kind → Shape α Kind) :
    Nat → Shape Kind Kind → Shape α Kind
  | 0, s => cut s.leaves
  | _ + 1, .leaf kind => .leaf (leaf kind)
  | depth + 1, .node kind children => .node kind (pruneMembers leaf cut depth children)

/-- The children of a value: the values of its entries are the next level. -/
def pruneMembers (leaf : Kind → α) (cut : List Kind → Shape α Kind) (depth : Nat) :
    List (Shape Kind Kind) → List (Shape α Kind)
  | [] => []
  | .node .entry parts :: ss =>
      .node .entry (pruneEntry leaf cut depth parts) :: pruneMembers leaf cut depth ss
  | s :: ss => s.map leaf :: pruneMembers leaf cut depth ss

/-- The children of an entry, the last of which is its value. -/
def pruneEntry (leaf : Kind → α) (cut : List Kind → Shape α Kind) (depth : Nat) :
    List (Shape Kind Kind) → List (Shape α Kind)
  | [] => []
  | [s] => [prune leaf cut depth s]
  | s :: t :: ss => s.map leaf :: pruneEntry leaf cut depth (t :: ss)

end

/-- A tree with one error node for each value with `depth` values around it, which holds
the tokens of that value. -/
def truncate (depth : Nat) (s : Shape Kind Kind) : Shape Kind Kind :=
  prune id (fun kinds => .node .error (kinds.map .leaf)) depth s

mutual

/-- The values with so many values around them, each with the number of tokens before it. -/
def valuesBelow (rank : Nat) : Nat → Shape Kind Kind → List (Nat × Shape Kind Kind)
  | 0, s => [(rank, s)]
  | _ + 1, .leaf _ => []
  | depth + 1, .node _ children => valuesAmong rank depth children

/-- Such values in the entries among the children of a value. -/
def valuesAmong (rank depth : Nat) : List (Shape Kind Kind) → List (Nat × Shape Kind Kind)
  | [] => []
  | .node .entry parts :: ss =>
      valuesOfEntry rank depth parts ++
        valuesAmong (rank + (parts.flatMap Shape.leaves).length) depth ss
  | s :: ss => valuesAmong (rank + s.leaves.length) depth ss

/-- Such values in the value of an entry, which is its last child. -/
def valuesOfEntry (rank depth : Nat) : List (Shape Kind Kind) → List (Nat × Shape Kind Kind)
  | [] => []
  | [s] => valuesBelow rank depth s
  | s :: t :: ss => valuesOfEntry (rank + s.leaves.length) depth (t :: ss)

end

/-- An error node with the fault and the tokens of a value that was passed over. -/
def cutDeep (kinds : List Kind) : Marked Kind :=
  .node .error (.leaf (.fault .nestingTooDeep) :: Marked.ofKinds kinds)

/-- A truncated tree with its faults in place. -/
def markDeep (depth : Nat) (s : Shape Kind Kind) : Marked Kind := prune .lexeme cutDeep depth s

section Prunes

variable {leaf : Kind → α} {cut : List Kind → Shape α Kind} {depth : Nat}

theorem entry_or_ne (s : Shape Kind Kind) :
    (∃ parts, s = .node .entry parts) ∨ ∀ parts, s ≠ .node .entry parts := by
  by_cases hentry : ∃ parts, s = .node .entry parts
  · exact .inl hentry
  · exact .inr fun parts heq => hentry ⟨parts, heq⟩

theorem pruneMembers_of_ne
    {s : Shape Kind Kind}
    (h : ∀ parts, s ≠ .node .entry parts)
    (ss : List (Shape Kind Kind)) :
    pruneMembers leaf cut depth (s :: ss) = s.map leaf :: pruneMembers leaf cut depth ss := by
  rw [pruneMembers]
  exact h

theorem valuesAmong_of_ne
    {s : Shape Kind Kind}
    {rank : Nat}
    (h : ∀ parts, s ≠ .node .entry parts)
    (ss : List (Shape Kind Kind)) :
    valuesAmong rank depth (s :: ss) = valuesAmong (rank + s.leaves.length) depth ss := by
  rw [valuesAmong]
  exact h

theorem pruneMembers_append (ss ts : List (Shape Kind Kind)) :
    pruneMembers leaf cut depth (ss ++ ts) =
      pruneMembers leaf cut depth ss ++ pruneMembers leaf cut depth ts := by
  induction ss with
  | nil => rfl
  | cons s ss ih =>
      rcases entry_or_ne s with ⟨parts, rfl⟩ | hne
      · rw [List.cons_append, pruneMembers, pruneMembers, ih, List.cons_append]
      · rw [List.cons_append, pruneMembers_of_ne hne, pruneMembers_of_ne hne, ih,
          List.cons_append]

theorem pruneMembers_map_leaf (kinds : List Kind) :
    pruneMembers leaf cut depth (kinds.map .leaf) = kinds.map fun kind => .leaf (leaf kind) := by
  induction kinds with
  | nil => rfl
  | cons kind kinds ih =>
      rw [List.map_cons, pruneMembers_of_ne (fun _ h => by cases h), ih]
      rfl

end Prunes

/-! ### Truncated trees with their faults -/

/-- What trees with faults in place say about trees that are parsed with them: which trees
are left without the faults, and about which values the faults are. -/
structure Marks
    (rank : Nat)
    (ms : List (Marked Kind))
    (ss left : List (Shape Kind Kind))
    (deep : List (Nat × Shape Kind Kind)) : Prop where
  plain : ms.filterMap Marked.plain? = left
  kinds : Marked.kinds ms = ss.flatMap Shape.leaves
  faults : Mark.faultsFrom rank (ms.flatMap Shape.leaves) =
    deep.map fun v => (v.1, .nestingTooDeep)

theorem marks_nil (rank : Nat) : Marks rank [] [] [] [] := ⟨rfl, rfl, rfl⟩

theorem Marks.append
    {rank : Nat}
    {ms ms' : List (Marked Kind)}
    {ss ss' left left' : List (Shape Kind Kind)}
    {deep deep' : List (Nat × Shape Kind Kind)}
    (h : Marks rank ms ss left deep)
    (h' : Marks (rank + (ss.flatMap Shape.leaves).length) ms' ss' left' deep') :
    Marks rank (ms ++ ms') (ss ++ ss') (left ++ left') (deep ++ deep') where
  plain := by rw [List.filterMap_append, h.plain, h'.plain]
  kinds := by rw [Marked.kinds_append, h.kinds, h'.kinds, List.flatMap_append]
  faults := by
    have hkinds : ((ms.flatMap Shape.leaves).filterMap Mark.kind?).length =
        (ss.flatMap Shape.leaves).length := congrArg List.length h.kinds
    rw [List.flatMap_append, Mark.faultsFrom_append, hkinds, h.faults, h'.faults,
      List.map_append]

theorem Marks.node
    {rank : Nat}
    {ms : List (Marked Kind)}
    {ss left : List (Shape Kind Kind)}
    {deep : List (Nat × Shape Kind Kind)}
    (kind : Kind)
    (h : Marks rank ms ss left deep) :
    Marks rank [.node kind ms] [.node kind ss] [.node kind left] deep where
  plain := by simp [h.plain]
  kinds := by simp [h.kinds]
  faults := by simp [h.faults]

/-- A tree that is kept has no fault. -/
theorem marks_kept (rank : Nat) (s : Shape Kind Kind) :
    Marks rank [s.map .lexeme] [s] [s.map id] [] where
  plain := by
    rw [Shape.map_id]
    exact Marked.filterMap_plain?_map_lexeme [s]
  kinds := by
    rw [Marked.kinds, List.flatMap_singleton, List.flatMap_singleton, Shape.leaves_map,
      Mark.filterMap_kind?_lexeme]
  faults := by
    rw [List.flatMap_singleton, Shape.leaves_map, Mark.faultsFrom_map_lexeme, List.map_nil]

/-- A value that is cut off has one. -/
theorem marks_cut (rank : Nat) (s : Shape Kind Kind) :
    Marks rank [cutDeep s.leaves] [s] [.node .error (s.leaves.map .leaf)] [(rank, s)] where
  plain := by
    have hleaves : (Marked.ofKinds s.leaves).filterMap Marked.plain? = s.leaves.map .leaf := by
      rw [Marked.ofKinds, List.filterMap_map]
      exact congrFun List.filterMap_eq_map s.leaves
    rw [cutDeep, List.filterMap_cons_some (Marked.plain?_node ..), List.filterMap_nil,
      List.filterMap_cons_none (Marked.plain?_fault ..), hleaves]
  kinds := by
    rw [cutDeep, Marked.kinds_node, Marked.kinds_cons, Marked.kinds_ofKinds,
      List.flatMap_singleton]
    rfl
  faults := by
    rw [cutDeep, List.flatMap_singleton, Shape.leaves_node, List.flatMap_cons,
      Marked.flatMap_leaves_ofKinds, Shape.leaves_leaf, List.singleton_append, Mark.faultsFrom,
      Mark.faultsFrom_map_lexeme]
    rfl

mutual

theorem marks_value (rank depth : Nat) (s : Shape Kind Kind) :
    Marks rank [markDeep depth s] [s] [truncate depth s] (valuesBelow rank depth s) := by
  match depth, s with
  | 0, s =>
      have hcut := marks_cut rank s
      simpa [markDeep, truncate, prune, valuesBelow] using hcut
  | depth + 1, .leaf kind => exact marks_kept rank (.leaf kind)
  | depth + 1, .node kind children => exact (marks_members rank depth children).node kind

theorem marks_members (rank depth : Nat) (ss : List (Shape Kind Kind)) :
    Marks rank (pruneMembers .lexeme cutDeep depth ss) ss
      (pruneMembers id (fun kinds => .node .error (kinds.map .leaf)) depth ss)
      (valuesAmong rank depth ss) := by
  match ss with
  | [] => exact marks_nil rank
  | .leaf kind :: ss =>
      exact (marks_kept rank (.leaf kind)).append (marks_members _ depth ss)
  | .node kind parts :: ss =>
      -- Only what stands in an entry is on the next level; all else is kept as it is.
      by_cases hkind : kind = .entry
      · subst hkind
        have hentry := (marks_entry rank depth parts).node .entry
        have hall := hentry.append (marks_members _ depth ss)
        rw [List.flatMap_singleton, Shape.leaves_node] at hall
        exact hall
      · have hne : ∀ others, Shape.node kind parts ≠ .node .entry others := by
          intro others heq
          exact hkind (Shape.node.inj heq).1
        rw [pruneMembers_of_ne hne, pruneMembers_of_ne hne, valuesAmong_of_ne hne]
        have hall := (marks_kept rank (.node kind parts)).append (marks_members _ depth ss)
        rw [List.flatMap_singleton] at hall
        exact hall

theorem marks_entry (rank depth : Nat) (ss : List (Shape Kind Kind)) :
    Marks rank (pruneEntry .lexeme cutDeep depth ss) ss
      (pruneEntry id (fun kinds => .node .error (kinds.map .leaf)) depth ss)
      (valuesOfEntry rank depth ss) := by
  match ss with
  | [] => exact marks_nil rank
  | [s] => exact marks_value rank depth s
  | s :: t :: ss =>
      have hall := (marks_kept rank s).append (marks_entry _ depth (t :: ss))
      rw [List.flatMap_singleton] at hall
      exact hall

end

/-! ### Trees without such values -/

section Whole

variable {cut : List Kind → Shape Kind Kind}

mutual

/-- Nothing is exchanged where no value has so many others around it. -/
theorem prune_eq_self
    {rank depth : Nat}
    {s : Shape Kind Kind}
    (h : valuesBelow rank depth s = []) :
    prune id cut depth s = s := by
  match depth, s with
  | 0, s => simp [valuesBelow] at h
  | depth + 1, .leaf kind => rfl
  | depth + 1, .node kind children => exact congrArg (Shape.node kind) (pruneMembers_eq_self h)

theorem pruneMembers_eq_self
    {rank depth : Nat}
    {ss : List (Shape Kind Kind)}
    (h : valuesAmong rank depth ss = []) :
    pruneMembers id cut depth ss = ss := by
  match ss with
  | [] => rfl
  | .leaf kind :: ss =>
      have hss : valuesAmong (rank + 1) depth ss = [] := h
      exact congrArg (Shape.leaf kind :: ·) (pruneMembers_eq_self hss)
  | .node kind parts :: ss =>
      by_cases hkind : kind = .entry
      · subst hkind
        obtain ⟨hparts, hss⟩ := List.append_eq_nil_iff.mp h
        rw [pruneMembers, pruneEntry_eq_self hparts, pruneMembers_eq_self hss]
      · have hne : ∀ others, Shape.node kind parts ≠ .node .entry others := by
          intro others heq
          exact hkind (Shape.node.inj heq).1
        rw [valuesAmong_of_ne hne] at h
        rw [pruneMembers_of_ne hne, Shape.map_id, pruneMembers_eq_self h]

theorem pruneEntry_eq_self
    {rank depth : Nat}
    {ss : List (Shape Kind Kind)}
    (h : valuesOfEntry rank depth ss = []) :
    pruneEntry id cut depth ss = ss := by
  match ss with
  | [] => rfl
  | [s] => rw [pruneEntry, prune_eq_self h]
  | s :: t :: ss =>
      have hss : valuesOfEntry (rank + s.leaves.length) depth (t :: ss) = [] := h
      rw [pruneEntry, Shape.map_id, pruneEntry_eq_self hss]

end
end Whole

end Levels

/-! ### Values of a derivation -/

section Derivations

theorem valuesAmong_append
    (rank depth : Nat)
    (ss ts : List (Shape Kind Kind)) :
    valuesAmong rank depth (ss ++ ts) =
      valuesAmong rank depth ss ++
        valuesAmong (rank + (ss.flatMap Shape.leaves).length) depth ts := by
  induction ss generalizing rank with
  | nil => rfl
  | cons s ss ih =>
      rcases entry_or_ne s with ⟨parts, rfl⟩ | hne
      · rw [List.cons_append, valuesAmong, valuesAmong, ih, List.append_assoc, List.flatMap_cons,
          Shape.leaves_node, List.length_append, Nat.add_assoc]
      · rw [List.cons_append, valuesAmong_of_ne hne, valuesAmong_of_ne hne, ih,
          List.flatMap_cons, List.length_append, Nat.add_assoc]

theorem valuesAmong_map_leaf
    (rank depth : Nat)
    (kinds : List Kind) :
    valuesAmong rank depth (kinds.map .leaf) = [] := by
  induction kinds generalizing rank with
  | nil => rfl
  | cons kind kinds ih => exact ih (rank + 1)

/-- Whether a tree is that of a derivation so many levels down in another one, and stands
at its place among the tokens. -/
structure Rule.Below
    (n depth rank : Nat)
    (kinds : List Kind)
    (v : Nat × Shape Kind Kind) : Prop where
  exists_split : ∃ front behind,
    kinds = front ++ (v.2.leaves ++ behind) ∧ v.1 = rank + front.length
  exists_value : ∃ m, n = depth + m ∧ Rule.Value m v.2.leaves v.2

variable {n depth rank : Nat} {kinds : List Kind} {v : Nat × Shape Kind Kind}

theorem Rule.Below.within
    (front : List Kind)
    (h : Rule.Below n depth (rank + front.length) kinds v)
    (behind : List Kind) :
    Rule.Below n depth rank (front ++ (kinds ++ behind)) v := by
  obtain ⟨⟨before, after, rfl, hrank⟩, hvalue⟩ := h
  refine ⟨⟨front ++ before, after ++ behind, by simp, ?_⟩, hvalue⟩
  rw [hrank, List.length_append, Nat.add_assoc]

theorem Rule.Below.deeper (h : Rule.Below n depth rank kinds v) :
    Rule.Below (n + 1) (depth + 1) rank kinds v := by
  obtain ⟨hsplit, m, rfl, hvalue⟩ := h
  exact ⟨hsplit, m, Nat.add_right_comm depth m 1, hvalue⟩

mutual

/-- What stands so many levels down in the tree of a derivation is the tree of a
derivation. -/
theorem Rule.Value.below_of_mem
    {n depth rank : Nat}
    {kinds : List Kind}
    {tree : Shape Kind Kind}
    {v : Nat × Shape Kind Kind}
    (h : Rule.Value n kinds tree)
    (hv : v ∈ valuesBelow rank depth tree) :
    Rule.Below n depth rank kinds v := by
  match depth with
  | 0 =>
      rw [valuesBelow, List.mem_singleton] at hv
      subst hv
      have hleaves := h.leaves_eq
      refine ⟨⟨[], [], by simp [hleaves], rfl⟩, n, (Nat.zero_add n).symm, ?_⟩
      rwa [hleaves]
  | depth + 1 =>
      match h with
      | .container hentries =>
          rw [valuesBelow, valuesAmong_append, valuesAmong_append] at hv
          have hmem := by simpa [valuesAmong] using hv
          exact .within [.dot, .leftBrace] (hentries.below_of_mem hmem).deeper [.rightBrace]
      | .lines n m =>
          rw [valuesBelow, ← List.map_replicate, valuesAmong_map_leaf] at hv
          exact absurd hv List.not_mem_nil
      | .empty n => simp [valuesBelow, valuesAmong] at hv
      | .enumLiteral n => simp [valuesBelow, valuesAmong] at hv
      | .string n => simp [valuesBelow, valuesAmong] at hv
      | .char n => simp [valuesBelow, valuesAmong] at hv
      | .number n hkind => simp [valuesBelow, valuesAmong] at hv
      | .negative n hkind => simp [valuesBelow, valuesAmong] at hv
      | .identifier n => simp [valuesBelow, valuesAmong] at hv

theorem Rule.Entry.below_of_mem
    {n depth rank : Nat}
    {kinds : List Kind}
    {named : Bool}
    {tree : Shape Kind Kind}
    {v : Nat × Shape Kind Kind}
    (h : Rule.Entry n kinds named tree)
    (hv : v ∈ valuesAmong rank depth [tree]) :
    Rule.Below n depth rank kinds v := by
  match h with
  | .positional hvalue =>
      rw [valuesAmong, valuesAmong, List.append_nil, valuesOfEntry] at hv
      exact hvalue.below_of_mem hv
  | .named hvalue =>
      rw [valuesAmong, valuesAmong, List.append_nil, valuesOfEntry] at hv
      have hbelow := Rule.Below.within [.dot, .identifier, .eq] (hvalue.below_of_mem hv) []
      rwa [List.append_nil] at hbelow

theorem Rule.Entries.below_of_mem
    {n depth rank : Nat}
    {kinds : List Kind}
    {named : Bool}
    {trees : List (Shape Kind Kind)}
    {v : Nat × Shape Kind Kind}
    (h : Rule.Entries n kinds named trees)
    (hv : v ∈ valuesAmong rank depth trees) :
    Rule.Below n depth rank kinds v := by
  match h with
  | .one hentry => exact hentry.below_of_mem hv
  | @Rule.Entries.last _ _ _ tree hentry =>
      change v ∈ valuesAmong rank depth ([tree] ++ [Shape.leaf Kind.comma]) at hv
      rw [valuesAmong_append, List.mem_append] at hv
      rcases hv with hv | hv
      · exact .within [] (hentry.below_of_mem hv) [.comma]
      · simp [valuesAmong] at hv
  | @Rule.Entries.cons _ first more _ _ tree _ hentry hmore =>
      rw [valuesAmong_append, valuesAmong_append, List.mem_append, List.mem_append] at hv
      rcases hv with hv | hv | hv
      · exact .within [] (hentry.below_of_mem hv) ([.comma] ++ more)
      · simp [valuesAmong] at hv
      · rw [List.flatMap_singleton, List.flatMap_singleton, hentry.leaves_eq, Shape.leaves_leaf,
          Nat.add_assoc, ← List.length_append] at hv
        have hbelow := Rule.Below.within (first ++ [.comma]) (hmore.below_of_mem hv) []
        rwa [List.append_nil, List.append_assoc] at hbelow

end

theorem Rule.Value.pos
    {tree : Shape Kind Kind}
    (h : Rule.Value n kinds tree) :
    0 < n := by
  cases h <;> exact Nat.succ_pos _

/-- A derivation has no values deeper than it nests. -/
theorem Rule.Value.valuesBelow_eq_nil
    {tree : Shape Kind Kind}
    (h : Rule.Value n kinds tree)
    (hle : n ≤ depth)
    (rank : Nat) :
    valuesBelow rank depth tree = [] := by
  refine List.eq_nil_iff_forall_not_mem.mpr fun v hv => ?_
  obtain ⟨m, rfl, hvalue⟩ := (h.below_of_mem hv).exists_value
  have hpos := hvalue.pos
  omega

end Derivations

/-! ## Derivable values -/

section Rules

/-- Tokens that are neither brackets nor separators change nothing. -/
theorem foldlM_passDepth_of_none
    {kinds : List Kind}
    (h : ∀ kind ∈ kinds, Kind.delimiter? kind = none)
    (depth : Nat) :
    kinds.foldlM passDepth depth = some depth := by
  induction kinds with
  | nil => rfl
  | cons kind kinds ih =>
      obtain ⟨hkind, hkinds⟩ := List.forall_mem_cons.mp h
      have hpass : passDepth depth kind = some depth := by
        have hdelimiter : Vocabulary.delimiter? kind = none := hkind
        simp [passDepth, hdelimiter]
      rw [List.foldlM_cons, hpass]
      exact ih hkinds

mutual

/-- The brackets of a value are closed within it. -/
theorem Rule.Value.passes
    {n : Nat}
    {kinds : List Kind}
    {tree : Shape Kind Kind}
    (h : Rule.Value n kinds tree)
    (depth : Nat) :
    kinds.foldlM passDepth depth = some depth := by
  match h with
  | .empty n => rfl
  | .container hentries =>
      have hbraces : [Kind.dot, Kind.leftBrace].foldlM passDepth depth = some (depth + 1) := rfl
      rw [List.foldlM_append, hbraces, Option.bind_eq_bind, Option.bind_some,
        List.foldlM_append, hentries.passes depth]
      rfl
  | .enumLiteral n => rfl
  | .string n => rfl
  | .lines n m =>
      refine foldlM_passDepth_of_none (fun kind hkind => ?_) depth
      rw [List.eq_of_mem_replicate hkind]
      rfl
  | .char n => rfl
  | .number n hkind => rcases hkind with rfl | rfl <;> rfl
  | .negative n hkind => rcases hkind with rfl | rfl <;> rfl
  | .identifier n => rfl

theorem Rule.Entry.passes
    {n : Nat}
    {kinds : List Kind}
    {named : Bool}
    {tree : Shape Kind Kind}
    (h : Rule.Entry n kinds named tree)
    (depth : Nat) :
    kinds.foldlM passDepth depth = some depth := by
  match h with
  | .positional hvalue => exact hvalue.passes depth
  | .named hvalue =>
      have hname : [Kind.dot, Kind.identifier, Kind.eq].foldlM passDepth depth = some depth := rfl
      rw [List.foldlM_append, hname]
      exact hvalue.passes depth

/-- The commas of a value stand inside of its brackets. -/
theorem Rule.Entries.passes
    {n : Nat}
    {kinds : List Kind}
    {named : Bool}
    {trees : List (Shape Kind Kind)}
    (h : Rule.Entries n kinds named trees)
    (depth : Nat) :
    kinds.foldlM passDepth (depth + 1) = some (depth + 1) := by
  match h with
  | .one hentry => exact hentry.passes (depth + 1)
  | .last hentry =>
      rw [List.foldlM_append, hentry.passes (depth + 1)]
      rfl
  | .cons hentry hmore =>
      have hcomma : [Kind.comma].foldlM passDepth (depth + 1) = some (depth + 1) := rfl
      rw [List.foldlM_append, hentry.passes (depth + 1), Option.bind_eq_bind, Option.bind_some,
        List.foldlM_append, hcomma]
      exact hmore.passes depth

end

/-- What comes behind a value is left alone where it is passed over. -/
theorem MayFollow.passDepth_eq
    {more : List Kind}
    (h : MayFollow more) :
    ∀ kind rest, more = kind :: rest → passDepth 0 kind = none := by
  rintro kind rest rfl
  rcases h with h | h | h
  · cases h
  · rw [Option.some.inj h]
    rfl
  · rw [Option.some.inj h]
    rfl

end Rules

/-! ## Values that are written down -/

section Writing

/-- A token as a leaf. -/
abbrev tokenMark (kind : Kind) : Marked Kind := .leaf (.lexeme kind)

/-- The node of a name. -/
abbrev nameMark : Marked Kind := .node .ident [tokenMark .identifier]

/-- Whether all derivable values are written down with the deep ones cut off. -/
def WritesValues (depth : Nat) (value : KindSet Kind → Parser Kind Unit) : Prop :=
  ∀ (n : Nat) (recovery : KindSet Kind) (c : Cursor Kind) (kinds more : List Kind)
    (tree : Shape Kind Kind), Rule.Value n kinds tree → c.kinds = kinds ++ more → MayFollow more →
      (value recovery).Writes c () [markDeep depth tree] more

/-- A value that nests too deep is passed over as a whole. -/
theorem writesValues_tooDeep : WritesValues 0 fun _ => tooDeep := by
  intro n recovery c kinds more tree hrule hkinds hmore
  have hbody : (do report .nestingTooDeep; passOver : Parser Kind Unit).Writes c ()
      ([Shape.leaf (Mark.fault .nestingTooDeep)] ++ Marked.ofKinds kinds) more :=
    (writes_report .nestingTooDeep hkinds).bind fun d hd =>
      writes_passOver hd (hrule.passes 0) hmore.passDepth_eq
  rw [markDeep, prune, hrule.leaves_eq]
  exact (hbody.node (by decide)).discard

variable
  {n depth : Nat}
  {value : KindSet Kind → Parser Kind Unit}
  {c : Cursor Kind}
  {kinds more : List Kind}
  {named : Bool}
  {tree : Shape Kind Kind}
  {trees : List (Shape Kind Kind)}

theorem writes_identifier (h : c.kinds = .identifier :: more) :
    (identifier : Parser Kind Unit).Writes c () [nameMark] more :=
  ((writes_advance h).node (by decide)).discard

/-- An entry is named if a dot, an identifier and an equals sign come first. -/
theorem nth_named_iff :
    (c.nth 0 == .dot && c.nth 1 == .identifier && c.nth 2 == .eq) = true ↔
      ∃ rest, c.kinds = [Kind.dot, Kind.identifier, Kind.eq] ++ rest := by
  rw [Cursor.nth, Cursor.nth, Cursor.nth]
  rcases c.kinds with _ | ⟨first, _ | ⟨second, _ | ⟨third, rest⟩⟩⟩ <;> simp [and_assoc]

theorem writes_entry
    (h : WritesValues depth value)
    (hrule : Rule.Entry n kinds named tree)
    (hkinds : c.kinds = kinds ++ more)
    (hmore : MayFollow more) :
    (entry value).Writes c named (pruneMembers .lexeme cutDeep depth [tree]) more := by
  refine writes_nthAt_bind (writes_nthAt_bind (writes_nthAt_bind ?_))
  cases hrule with
  | @positional _ _ tree hvalue =>
      have hnamed : (c.nth 0 == .dot && c.nth 1 == .identifier && c.nth 2 == .eq) = false := by
        rw [Bool.eq_false_iff]
        intro htrue
        obtain ⟨rest, hrest⟩ := nth_named_iff.mp htrue
        exact hvalue.append_ne (hmore.head?_ne (by decide) (by decide)) (hkinds.symm.trans hrest)
      rw [hnamed]
      have hnode : (discard (node .entry (value entryRecovery)) : Parser Kind Unit).Writes c ()
          [.node .entry [markDeep depth tree]] more :=
        ((h n entryRecovery c kinds more tree hvalue hkinds hmore).node (by decide)).discard
      exact hnode.bind fun _ hd => writes_pure hd
  | @named _ kinds tree hvalue =>
      rw [List.append_assoc] at hkinds
      rw [nth_named_iff.mpr ⟨_, hkinds⟩]
      have hbody : (do advance; identifier; advance; value entryRecovery : Parser Kind Unit).Writes
          c () ([tokenMark .dot] ++ ([nameMark] ++
            ([tokenMark .eq] ++ [markDeep depth tree]))) more :=
        (writes_advance hkinds).bind fun _ h₁ => (writes_identifier h₁).bind fun _ h₂ =>
          (writes_advance h₂).bind fun d h₃ => h n entryRecovery d kinds more tree hvalue h₃ hmore
      exact ((hbody.node (by decide)).discard).bind fun _ hd => writes_pure hd

/-- A turn at an entry takes it, with the comma if there is one. -/
theorem writes_entryAndComma
    (h : WritesValues depth value)
    (comma : Bool)
    (entries : Entries)
    (hrule : Rule.Entry n kinds named tree)
    (hkinds : c.kinds = kinds ++
      ((if comma then [Kind.comma] else []) ++ if comma then more else Kind.rightBrace :: more)) :
    (entryAndComma value entries).Writes c (comma, entries.add named)
      (pruneMembers .lexeme cutDeep depth ([tree] ++ if comma then [Shape.leaf Kind.comma] else []))
      (if comma then more else Kind.rightBrace :: more) := by
  obtain ⟨first, rest, hfirst, hcomma, hbrace⟩ := hrule.exists_first
  have hpeek : c.nth 0 = first := by
    rw [Cursor.nth, hkinds, hfirst]
    rfl
  have hend : c.kinds.isEmpty = false := by
    rw [hkinds, hfirst]
    rfl
  have hmore : MayFollow ((if comma then [Kind.comma] else []) ++
      if comma then more else Kind.rightBrace :: more) := by
    cases comma with
    | true => exact .inr (.inl rfl)
    | false => exact .inr (.inr rfl)
  rw [pruneMembers_append]
  refine writes_nthAt_bind (writes_atEnd_bind ?_)
  rw [hpeek, hend, beq_false_of_ne hbrace, if_neg (by simp)]
  refine writes_nthAt_bind ?_
  rw [hpeek, beq_false_of_ne hcomma, if_neg Bool.false_ne_true]
  refine (writes_entry h hrule hkinds hmore).bind fun d hd => ?_
  cases comma with
  | true =>
      change (eat .comma >>= _ : Parser Kind _).Writes d _ ([tokenMark .comma] ++ []) more
      exact (writes_eat hd).bind fun _ he => writes_pure he
  | false =>
      have hbrace : d.nth 0 = .rightBrace := by
        rw [Cursor.nth, hd]
        rfl
      have hne : d.nth 0 ≠ .comma := by
        rw [hbrace]
        decide
      change (eat .comma >>= _ : Parser Kind _).Writes d _ ([] ++ []) (.rightBrace :: more)
      refine (writes_eat_missing hne hd).bind fun e he => ?_
      refine writes_nthAt_bind (writes_atEnd_bind ?_)
      have hbrace' : (e.nth 0 == .rightBrace) = true := by
        rw [Cursor.nth, he]
        rfl
      rw [hbrace', Bool.true_or, if_pos rfl]
      exact writes_pure he

/-- The loop stops at a closing brace. -/
theorem writes_entries_stop
    (entries : Entries)
    (hkinds : c.kinds = Kind.rightBrace :: more) :
    (iterate (entryAndComma value) entries).Writes c entries [] (Kind.rightBrace :: more) := by
  refine Writes.iterate_last (writes_nthAt_bind (writes_atEnd_bind ?_))
  have hbrace : (c.nth 0 == .rightBrace) = true := by
    rw [Cursor.nth, hkinds]
    rfl
  rw [hbrace, Bool.true_or, if_pos rfl]
  exact writes_pure hkinds

/-- The loop takes derivable entries up to the closing brace. -/
theorem exists_writes_entries
    {kinds : List Kind}
    {named : Bool}
    {trees : List (Shape Kind Kind)}
    (h : WritesValues depth value)
    (entries : Entries)
    (hrule : Rule.Entries n kinds named trees)
    (more : List Kind) :
    ∃ after, entries.Tallies after named ∧
      ∀ c : Cursor Kind, c.kinds = kinds ++ Kind.rightBrace :: more →
        (iterate (entryAndComma value) entries).Writes c after
          (pruneMembers .lexeme cutDeep depth trees) (Kind.rightBrace :: more) := by
  have htakes : ∀ tree : Shape Kind Kind,
      Marked.kinds (pruneMembers .lexeme cutDeep depth
        ([tree] ++ [Shape.leaf Kind.comma])) ≠ [] := by
    intro tree
    rw [(marks_members 0 depth _).kinds]
    simp
  match hrule with
  | .one hentry =>
      refine ⟨_, entries.tallies_add _, fun c hkinds => ?_⟩
      exact (writes_entryAndComma h false entries hentry hkinds).iterate_last
  | .last hentry =>
      refine ⟨_, entries.tallies_add _, fun c hkinds => ?_⟩
      rw [List.append_assoc] at hkinds
      have hloop := (writes_entryAndComma h true entries hentry hkinds).iterate_again (htakes _)
        fun d hd => writes_entries_stop _ hd
      rwa [List.append_nil] at hloop
  | @Rule.Entries.cons _ _ _ someNamed _ _ _ hentry hothers =>
      obtain ⟨after, htally, hrest⟩ :=
        exists_writes_entries h (entries.add someNamed) hothers more
      refine ⟨after, htally.of_add, fun c hkinds => ?_⟩
      rw [List.append_assoc, List.append_assoc] at hkinds
      have hloop := (writes_entryAndComma h true entries hentry hkinds).iterate_again (htakes _)
        hrest
      rwa [← pruneMembers_append, List.append_assoc] at hloop

/-- A container is written down as its entries are. -/
theorem writes_container
    {kind : Kind}
    (hkind : kind ≠ .tombstone)
    (hentries : ∃ after : Entries, after.kind = kind ∧
      ∀ c : Cursor Kind, c.kinds = kinds ++ Kind.rightBrace :: more →
        (iterate (entryAndComma value) ⟨false, false⟩).Writes c after
          (pruneMembers .lexeme cutDeep depth trees) (Kind.rightBrace :: more))
    (hkinds : c.kinds = [Kind.dot, Kind.leftBrace] ++ (kinds ++ Kind.rightBrace :: more)) :
    (container value).Writes c () [markDeep (depth + 1) (.node kind
      ([Shape.leaf Kind.dot, Shape.leaf Kind.leftBrace] ++
        (trees ++ [Shape.leaf Kind.rightBrace])))] more := by
  obtain ⟨after, rfl, hloop⟩ := hentries
  have hbody : (containerBody value).Writes c after.kind
      ([tokenMark .dot] ++ ([tokenMark .leftBrace] ++
        (pruneMembers .lexeme cutDeep depth trees ++ ([tokenMark .rightBrace] ++ [])))) more :=
    (writes_advance hkinds).bind fun _ h₁ => (writes_advance h₁).bind fun d h₂ =>
      (hloop d h₂).bind fun _ h₃ => (writes_expect h₃).bind fun _ h₄ => writes_pure h₄
  rw [markDeep, prune, pruneMembers_append, pruneMembers_append]
  exact (hbody.nodeOf hkind).discard

/-- A minus takes the number after it. -/
theorem writes_negative
    {kind : Kind}
    (hkind : kind = .integer ∨ kind = .float)
    (hkinds : c.kinds = [Kind.minus, kind] ++ more) :
    (negative : Parser Kind Unit).Writes c ()
      [.node .number [tokenMark .minus, tokenMark kind]] more := by
  have hbody : (do
      advance
      unless ← eat .integer do
        unless ← eat .float do
          report .expectedNumber : Parser Kind Unit).Writes c ()
        ([tokenMark .minus] ++ [tokenMark kind]) more := by
    refine (writes_advance hkinds).bind fun d hd => ?_
    rcases hkind with rfl | rfl
    · change (eat .integer >>= _ : Parser Kind _).Writes d _ ([tokenMark .integer] ++ []) more
      exact (writes_eat hd).bind fun _ he => writes_pure he
    · have hfloat : d.nth 0 = .float := by
        rw [Cursor.nth, hd]
        rfl
      have hne : d.nth 0 ≠ .integer := by
        rw [hfloat]
        decide
      change (eat .integer >>= _ : Parser Kind _).Writes d _ ([] ++ ([tokenMark .float] ++ [])) more
      refine (writes_eat_missing hne hd).bind fun e he => ?_
      exact (writes_eat he).bind fun _ hf => writes_pure hf
  exact (hbody.node (by decide)).discard

/-- A token gets a node of its own. -/
theorem writes_nodeOfToken
    {kind tree : Kind}
    (htree : tree ≠ .tombstone)
    (hkinds : c.kinds = [kind] ++ more) :
    (discard (node tree advance) : Parser Kind Unit).Writes c ()
      [.node tree [tokenMark kind]] more :=
  ((writes_advance hkinds).node htree).discard

theorem writes_enumLiteral
    (hkinds : c.kinds = [Kind.dot, Kind.identifier] ++ more) :
    (discard (node .enumLiteral do advance; identifier) : Parser Kind Unit).Writes c ()
      [.node .enumLiteral [tokenMark .dot, nameMark]] more := by
  have hbody : (do advance; identifier : Parser Kind Unit).Writes c ()
      ([tokenMark .dot] ++ [nameMark]) more :=
    (writes_advance hkinds).bind fun _ hd => writes_identifier hd
  exact (hbody.node (by decide)).discard

/-- The lines of a string are taken together. -/
theorem writes_lines
    {m : Nat}
    (hkinds : c.kinds = List.replicate (m + 1) Kind.lineString ++ more)
    (hmore : MayFollow more) :
    (discard (node .stringLiteral (repeatWhile (eat .lineString))) : Parser Kind Unit).Writes c ()
      [markDeep (depth + 1) (.node .stringLiteral
        (List.replicate (m + 1) (.leaf .lineString)))] more := by
  have hlines := writes_repeatWhile_eat (by decide) (hmore.head?_ne (by decide) (by decide))
    hkinds
  rw [markDeep, prune, ← List.map_replicate, pruneMembers_map_leaf]
  exact (hlines.node (by decide)).discard

theorem writesValues_valueWith (h : WritesValues depth value) :
    WritesValues (depth + 1) (valueWith value) := by
  intro n recovery c kinds more tree hrule hkinds hmore
  refine writes_nth_bind ?_
  cases hrule with
  | empty =>
      have hpeek : c.nth 0 = .dot ∧ c.nth 1 = .leftBrace := by simp [Cursor.nth, hkinds]
      rw [hpeek.1]
      refine writes_nth_bind ?_
      rw [hpeek.2]
      have hnone : ∃ after : Entries, after.kind = .struct ∧
          ∀ c : Cursor Kind, c.kinds = [] ++ Kind.rightBrace :: more →
            (iterate (entryAndComma value) ⟨false, false⟩).Writes c after
              (pruneMembers .lexeme cutDeep depth []) (Kind.rightBrace :: more) :=
        ⟨⟨false, false⟩, rfl, fun _ hc => writes_entries_stop _ hc⟩
      exact writes_container (by decide) hnone hkinds
  | container hentries =>
      have hpeek : c.nth 0 = .dot ∧ c.nth 1 = .leftBrace := by simp [Cursor.nth, hkinds]
      rw [hpeek.1]
      refine writes_nth_bind ?_
      rw [hpeek.2]
      rw [List.append_assoc, List.append_assoc] at hkinds
      obtain ⟨after, htally, hloop⟩ := exists_writes_entries h ⟨false, false⟩ hentries more
      refine writes_container ?_ ⟨after, htally.kind_eq, hloop⟩ hkinds
      split <;> decide
  | enumLiteral =>
      have hpeek : c.nth 0 = .dot ∧ c.nth 1 = .identifier := by simp [Cursor.nth, hkinds]
      rw [hpeek.1]
      refine writes_nth_bind ?_
      rw [hpeek.2]
      exact writes_enumLiteral hkinds
  | string =>
      have hpeek : c.nth 0 = .stringLiteralSingle := by simp [Cursor.nth, hkinds]
      rw [hpeek]
      exact writes_nodeOfToken (by decide) hkinds
  | lines n m =>
      have hpeek : c.nth 0 = .lineString := by simp [Cursor.nth, hkinds, List.replicate_succ]
      rw [hpeek]
      exact writes_lines hkinds hmore
  | char =>
      have hpeek : c.nth 0 = .charLiteral := by simp [Cursor.nth, hkinds]
      rw [hpeek]
      exact writes_nodeOfToken (by decide) hkinds
  | @number kind n hkind =>
      have hpeek : c.nth 0 = kind := by simp [Cursor.nth, hkinds]
      rw [hpeek]
      rcases hkind with rfl | rfl
      · exact writes_nodeOfToken (by decide) hkinds
      · exact writes_nodeOfToken (by decide) hkinds
  | negative n hkind =>
      have hpeek : c.nth 0 = .minus := by simp [Cursor.nth, hkinds]
      rw [hpeek]
      exact writes_negative hkind hkinds
  | identifier =>
      have hpeek : c.nth 0 = .identifier := by simp [Cursor.nth, hkinds]
      rw [hpeek]
      exact writes_nodeOfToken (by decide) hkinds

/-- A derivable value is written down with its deep values cut off. -/
theorem writesValues_value (depth : Nat) : WritesValues depth (Zon.value depth) := by
  induction depth with
  | zero => exact writesValues_tooDeep
  | succ depth ih => exact writesValues_valueWith ih

/-- So is a derivable file. -/
theorem writes_document
    (hrule : Rule.Value n kinds tree)
    (hkinds : c.kinds = kinds) :
    document.Writes c () [markDeep maxDepth tree] [] := by
  obtain ⟨first, rest, hfirst, -, -⟩ := hrule.exists_first
  have hstart : c.kinds.isEmpty = false := by
    rw [hkinds, hfirst]
    rfl
  refine writes_atEnd_bind ?_
  rw [hstart]
  have hvalue := writesValues_value maxDepth n .empty c kinds [] tree hrule
    (hkinds.trans (List.append_nil _).symm) (.inl rfl)
  change (Zon.value maxDepth .empty >>= _).Writes c () ([markDeep maxDepth tree] ++ []) []
  refine hvalue.bind fun d hd => writes_atEnd_bind ?_
  have hend : d.kinds.isEmpty = true := by rw [hd]; rfl
  rw [hend]
  exact writes_pure hd

end Writing

end Zon
end ZigCst
