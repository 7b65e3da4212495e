import ZigCst.Proofs.Links
import ZigCst.Proofs.Storage

/-!
# Numbers and handles

A node of a tree is found in two ways: by its number in the arrays that hold the tree, and
by a handle that was carried down from the root.  The number of a node is the number of
nodes before it, and that of a token is one more than the number of tokens before it.  All
that is looked up under a number is what the handle says.

**Definitions.**
* `Arena.ref`, `Arena.tokenRef`, `Arena.elementRef`, `Arena.visitRef`: the numbers of what
  handles stand for.
* `Arena.StoresAt`: a node in place is stored.

**Results.**
* `Arena.Holds.storesAt`: every node of a tree is stored where its handle says.
* `Arena.StoresAt.elements?_eq`, `range?_eq`, `text?_eq`, `tokens?_eq`, `parent?_eq`: its
  entry says what the handle says.
* `Arena.StoresAt.yields_preorder`: the walk by numbers is the walk over the tree.
* `Arena.Holds.climbs`, `Arena.Holds.nextSibling?_eq`, `Arena.Holds.prevSibling?_eq`: the
  way up and sideways.
* `Arena.Holds.nodeRefs_eq`, `Arena.Holds.tokenRefs_eq`: every number is that of a node or
  a token of the tree.
-/

namespace ZigCst

section Handles

variable {K : Type}

namespace Arena

/-- The number of a node in place. -/
def ref (a : Arena K) (n : Node K) : NodeRef K := ⟨a, n.place.nodes⟩

/-- The number of a token in place. -/
def tokenRef (a : Arena K) (l : Leaf K) : TokenRef K := ⟨a, l.place.tokens + 1⟩

def elementRef (a : Arena K) : Element K → ElementRef K
  | .node n => .node (a.ref n)
  | .token l => .token (a.tokenRef l)

def visitRef (a : Arena K) : Visit K → VisitRef K
  | .enter n => .enter (a.ref n)
  | .token l => .token (a.tokenRef l)
  | .leave n => .leave (a.ref n)

/-- All nodes, by their numbers. -/
def nodeRefs (a : Arena K) : List (NodeRef K) := (List.range a.nodes.size).map (⟨a, ·⟩)

/-- All tokens, by their numbers. -/
def tokenRefs (a : Arena K) : List (TokenRef K) :=
  (List.range' 1 (a.tokens.size - 1)).map (⟨a, ·⟩)

/-- A node in place is stored, and so are the tokens in front of it. -/
structure StoresAt (a : Arena K) (n : Node K) : Prop where
  node : a.StoresNode (n.parent?.map fun parent => parent.place.nodes) n.index n.place n.kind
    n.children
  children : a.StoresAll n.place.nodes 0 n.place.enter n.children
  starts : a.startOf? (n.place.tokens + 1) = some n.place.bytes
  empty : a.text.slice? n.place.bytes n.place.bytes = some []

variable {a : Arena K} {r : Root K} {n : Node K}

/-! ## Numbers of elements -/

@[simp]
theorem node?_elementRef (e : Element K) :
    (a.elementRef e).node? = e.node?.map a.ref := by
  cases e <;> rfl

@[simp]
theorem token?_visitRef (v : Visit K) :
    (a.visitRef v).token? = v.token?.map a.tokenRef := by
  cases v <;> rfl

theorem filterMap_node?_elementRef (es : List (Element K)) :
    (es.map a.elementRef).filterMap ElementRef.node? =
      (es.filterMap Element.node?).map a.ref := by
  rw [List.filterMap_map, List.map_filterMap]
  exact List.filterMap_congr fun e _ => node?_elementRef e

theorem findSome?_node?_elementRef (es : List (Element K)) :
    (es.map a.elementRef).findSome? ElementRef.node? =
      (es.findSome? Element.node?).map a.ref := by
  rw [← List.head?_filterMap, filterMap_node?_elementRef, List.head?_map, List.head?_filterMap]

theorem map_element_numbers
    (m : NodeRef K)
    (hm : m.arena = a)
    (index : Nat)
    (place : Extent)
    (ts : List (Tree K)) :
    (Tree.numbers place ts).map m.element = (n.elementsFrom index place ts).map a.elementRef := by
  subst hm
  induction ts generalizing index place with
  | nil => rfl
  | cons t ts ih =>
      rw [Tree.numbers, Node.elementsFrom_cons, List.map_cons, List.map_cons, ih (index + 1)]
      cases t <;> rfl

/-- The numbers of the tokens of a node are a window. -/
theorem map_id_tokenRef (a : Arena K) (n : Node K) :
    (n.tokens.map fun l => (a.tokenRef l).id) =
      List.range' (n.place.tokens + 1) n.extent.tokens := by
  rw [Nat.add_comm, ← List.map_add_range', ← n.map_tokens_tokens, List.map_map]
  exact List.map_congr_left fun l _ => Nat.add_comm _ _

/-! ## The entry of a node -/

/-- The children of a stored node are the trees below it in place. -/
theorem StoresNode.elements?_eq
    {parent : Option Nat}
    {index : Nat}
    {kind : K}
    (h : a.StoresNode parent index n.place kind n.children) :
    (a.ref n).elements? = some (n.elements.map a.elementRef) := by
  have hids : (a.ref n).childIds? = _ := h.childIds?_eq
  rw [NodeRef.elements?, hids, Option.map_some, map_element_numbers (a.ref n) rfl 0]
  rfl

namespace StoresAt

theorem kind?_eq (h : a.StoresAt n) : (a.ref n).kind? = some n.kind := h.node.kind?_eq

theorem elements?_eq (h : a.StoresAt n) :
    (a.ref n).elements? = some (n.elements.map a.elementRef) :=
  h.node.elements?_eq

theorem childNodes?_eq (h : a.StoresAt n) :
    (a.ref n).childNodes? = some (n.childNodes.map a.ref) := by
  rw [NodeRef.childNodes?, h.elements?_eq, Option.map_some, filterMap_node?_elementRef]
  rfl

theorem parent?_eq (h : a.StoresAt n) :
    (a.ref n).parent? = some (n.parent?.map a.ref) := by
  obtain ⟨childrenStart, hentry, -⟩ := h.node
  have hentry' : (a.ref n).data? = _ := hentry
  rw [NodeRef.parent?, hentry', Option.map_some, Option.map_map]
  rfl

theorem stop_eq (h : a.StoresAt n) :
    a.startOf? (n.place.tokens + (Tree.extents n.children).tokens + 1) = some n.range.stop :=
  h.children.startOf?_add h.starts

theorem range?_eq (h : a.StoresAt n) : (a.ref n).range? = some n.range := by
  obtain ⟨childrenStart, hentry, -⟩ := h.node
  have hentry' : (a.ref n).data? = _ := hentry
  have hle : n.range.start ≤ n.range.stop := Nat.le_add_right _ _
  rw [NodeRef.range?, hentry', Option.bind_eq_bind, Option.bind_some]
  dsimp only
  rw [show (a.ref n).arena = a from rfl, h.starts, h.stop_eq]
  change Range.between? n.range.start (max n.range.stop n.range.start) = _
  rw [Nat.max_eq_left hle]
  exact if_pos hle

theorem text?_eq (h : a.StoresAt n) : (a.ref n).text? = some n.text := by
  rw [NodeRef.text?, h.range?_eq]
  exact h.children.slice?_eq h.empty

/-- The tokens of the window that the entry names are those of the node. -/
theorem tokens?_eq (h : a.StoresAt n) :
    (a.ref n).tokens? = some (n.tokens.map a.tokenRef) := by
  obtain ⟨childrenStart, hentry, -⟩ := h.node
  have hentry' : (a.ref n).data? = _ := hentry
  have hlength : n.place.tokens + (Tree.extents n.children).tokens + 1 - (n.place.tokens + 1) =
      n.extent.tokens := by
    rw [Nat.add_right_comm, Nat.add_sub_cancel_left]
    rfl
  rw [NodeRef.tokens?, hentry', Option.map_some, hlength, ← map_id_tokenRef a, List.map_map]
  rfl

/-- A child of a stored node is stored, and its number leads back to the node. -/
theorem child
    {c : Node K}
    (h : a.StoresAt n)
    (hc : c ∈ n.childNodes) :
    a.StoresAt c := by
  obtain ⟨ts, us, hchildren, hchild, -⟩ := Node.eq_child_of_mem hc
  have hstored := h.children
  rw [hchildren, storesAll_append_iff, StoresAll, Nat.zero_add, Stores] at hstored
  obtain ⟨hbefore, ⟨hnode, hbelow⟩, -⟩ := hstored
  have hplace : c.place = n.place.enter.add (Tree.extents ts) := by rw [hchild]; rfl
  have hindex : c.index = ts.length := by rw [hchild]; rfl
  rw [← hplace, ← hindex] at hnode
  rw [← hplace] at hbelow
  refine ⟨?_, hbelow, ?_, ?_⟩
  · rw [Node.parent?_of_mem_childNodes hc]
    exact hnode
  · rw [hplace]
    exact hbefore.startOf?_add h.starts
  · rw [hplace]
    exact Text.slice?_stop (hbefore.slice?_eq h.empty)

/-- A token that is a child of a stored node is stored. -/
theorem token
    {l : Leaf K}
    (h : a.StoresAt n)
    (hl : .token l ∈ n.elements) :
    ∃ index,
      a.Stores n.place.nodes index l.place (.token l.kind l.text) ∧
      a.startOf? (l.place.tokens + 1) = some l.place.bytes := by
  obtain ⟨ts, t, us, hchildren, heq, -⟩ := Node.exists_split_of_mem_elements hl
  have hstored := h.children
  rw [hchildren, storesAll_append_iff, StoresAll] at hstored
  cases t with
  | node kind children => cases heq
  | token kind text =>
      obtain rfl := Element.token.inj heq
      exact ⟨_, hstored.2.1, hstored.1.startOf?_add h.starts⟩

theorem range?_token_eq
    {l : Leaf K}
    (h : a.StoresAt n)
    (hl : .token l ∈ n.elements) :
    (a.tokenRef l).range? = some l.range := by
  obtain ⟨index, hstored, hstart⟩ := h.token hl
  exact hstored.range?_eq hstart

theorem text?_token_eq
    {l : Leaf K}
    (h : a.StoresAt n)
    (hl : .token l ∈ n.elements) :
    (a.tokenRef l).text? = some l.text := by
  obtain ⟨index, hstored, -⟩ := h.token hl
  rw [TokenRef.text?, h.range?_token_eq hl]
  rw [Stores] at hstored
  exact hstored.2

theorem parent?_token_eq
    {l : Leaf K}
    (h : a.StoresAt n)
    (hl : .token l ∈ n.elements) :
    (a.tokenRef l).parent? = some (a.ref n) := by
  obtain ⟨index, hstored, -⟩ := h.token hl
  rw [Stores] at hstored
  exact congrArg (Option.map fun entry => NodeRef.mk a entry.parent) hstored.1

theorem kind?_token_eq
    {l : Leaf K}
    (h : a.StoresAt n)
    (hl : .token l ∈ n.elements) :
    (a.tokenRef l).kind? = some l.kind := by
  obtain ⟨index, hstored, -⟩ := h.token hl
  rw [Stores] at hstored
  exact congrArg (Option.map TokenEntry.kind) hstored.1

theorem range?_element_eq
    {e : Element K}
    (h : a.StoresAt n)
    (he : e ∈ n.elements) :
    (a.elementRef e).range? = some e.range := by
  cases e with
  | node c => exact (h.child (List.mem_filterMap.mpr ⟨.node c, he, rfl⟩)).range?_eq
  | token l => exact h.range?_token_eq he

end StoresAt

/-- Every node of a tree is stored where its handle says. -/
theorem Holds.storesAt
    (h : a.Holds r)
    (hn : n ∈ r.node.descendants) :
    a.StoresAt n := by
  induction hn using Node.descendants_induction with
  | self =>
      exact ⟨h.stored.node, h.stored.children, h.filled.first,
        Text.slice?_eq_some_iff.mpr ⟨[], a.text, rfl, rfl, rfl⟩⟩
  | child m hm c hc hstores => exact hstores.child hc

/-! ## Walking -/

mutual

/-- With a stored tree ahead, a walk by numbers makes the walk over the tree first. -/
theorem Stores.yields
    {m : Node K}
    {index : Nat}
    {place : Extent}
    {t : Tree K}
    (h : a.Stores m.place.nodes index place t)
    {top : NodeRef K}
    {es : List (ElementRef K)}
    {stack : List (NodeRef K × List (ElementRef K))}
    {visits : List (VisitRef K)}
    (hrest : (Preorder.mk ((top, es) :: stack) none).Yields visits) :
    (Preorder.mk ((top, a.elementRef (m.element index place t) :: es) :: stack) none).Yields
      ((t.walk m index place).map a.visitRef ++ visits) := by
  cases t with
  | token kind text => exact .next rfl hrest
  | node kind children =>
      rw [Stores] at h
      have helements : (a.ref (m.child index place kind children)).elements? = _ :=
        h.1.elements?_eq
      have hleave : (Preorder.mk ((a.ref (m.child index place kind children), []) ::
          (top, es) :: stack) none).Yields
            (a.visitRef (.leave (m.child index place kind children)) :: visits) :=
        .next rfl hrest
      have hchildren : a.StoresAll (m.child index place kind children).place.nodes 0 place.enter
          children := h.2
      have hbelow := StoresAll.yields hchildren hleave
      rw [List.append_nil] at hbelow
      rw [Tree.walk, List.map_cons, List.map_append, List.cons_append, List.append_assoc]
      refine .next ?_ hbelow
      rw [Preorder.next?]
      dsimp only [Node.element, elementRef]
      rw [helements]
      rfl

theorem StoresAll.yields
    {m : Node K}
    {index : Nat}
    {place : Extent}
    {ts : List (Tree K)}
    (h : a.StoresAll m.place.nodes index place ts)
    {top : NodeRef K}
    {es : List (ElementRef K)}
    {stack : List (NodeRef K × List (ElementRef K))}
    {visits : List (VisitRef K)}
    (hrest : (Preorder.mk ((top, es) :: stack) none).Yields visits) :
    (Preorder.mk ((top, (m.elementsFrom index place ts).map a.elementRef ++ es) :: stack)
      none).Yields ((Tree.walkAll m index place ts).map a.visitRef ++ visits) := by
  cases ts with
  | nil => exact hrest
  | cons t ts =>
      rw [StoresAll] at h
      rw [Node.elementsFrom_cons, List.map_cons, List.cons_append, Tree.walkAll, List.map_append,
        List.append_assoc]
      exact Stores.yields h.1 (StoresAll.yields h.2 hrest)

end

/-- The walk by numbers is the walk over the tree. -/
theorem StoresAt.yields_preorder (h : a.StoresAt n) :
    (a.ref n).preorder.Yields (n.walk.map a.visitRef) := by
  have hended : (Preorder.mk [] none : Preorder K).Yields [] := .ended rfl
  have hleave : (Preorder.mk [(a.ref n, [])] none).Yields [a.visitRef (.leave n)] :=
    .next rfl hended
  have hbelow := h.children.yields hleave
  rw [List.append_nil] at hbelow
  rw [Node.walk_eq, List.map_cons, List.map_append]
  refine .next ?_ hbelow
  rw [NodeRef.preorder, Preorder.next?]
  dsimp only
  rw [h.elements?_eq]
  rfl

/-! ## Up and sideways -/

/-- The way up by numbers is the way up to the root. -/
theorem Holds.climbs
    (h : a.Holds r)
    (hn : n ∈ r.node.descendants) :
    (a.ref n).Climbs (n.ancestors.map a.ref) := by
  induction hn using Node.descendants_induction with
  | self => exact .last (h.storesAt r.node.mem_descendants_self).parent?_eq
  | child m hm c hc hclimbs =>
      have hparent := (h.storesAt (Node.mem_descendants_of_mem_childNodes hm hc)).parent?_eq
      rw [Node.parent?_of_mem_childNodes hc] at hparent
      rw [Node.ancestors_of_mem_childNodes hc, List.map_cons]
      exact .up hparent hclimbs

theorem StoresAt.exists_entry (h : a.StoresAt n) :
    ∃ entry, (a.ref n).data? = some entry ∧ entry.index = n.index := by
  obtain ⟨childrenStart, hentry, -⟩ := h.node
  exact ⟨_, hentry, rfl⟩

theorem Holds.nextSibling?_eq
    (h : a.Holds r)
    (hn : n ∈ r.node.descendants) :
    (a.ref n).nextSibling? = some (n.nextSibling?.map a.ref) := by
  have hparent := (h.storesAt hn).parent?_eq
  rcases Node.exists_parent hn with rfl | ⟨m, hm, hmem⟩
  · rw [NodeRef.nextSibling?, hparent]
    rfl
  · obtain ⟨entry, hentry, hindex⟩ := (h.storesAt hn).exists_entry
    have hlt : n.index + 1 ≤ (m.elements.map a.elementRef).length := by
      rw [List.length_map]
      exact Node.index_lt_length_elements hmem
    rw [Node.parent?_of_mem_childNodes hmem] at hparent
    rw [NodeRef.nextSibling?, hparent, Node.nextSibling?, Node.parent?_of_mem_childNodes hmem]
    simp only [Option.map_some, Option.bind_eq_bind, Option.bind_some, hentry,
      (h.storesAt hm).elements?_eq, hindex, ← List.map_drop, findSome?_node?_elementRef]
    exact if_pos hlt

theorem Holds.prevSibling?_eq
    (h : a.Holds r)
    (hn : n ∈ r.node.descendants) :
    (a.ref n).prevSibling? = some (n.prevSibling?.map a.ref) := by
  have hparent := (h.storesAt hn).parent?_eq
  rcases Node.exists_parent hn with rfl | ⟨m, hm, hmem⟩
  · rw [NodeRef.prevSibling?, hparent]
    rfl
  · obtain ⟨entry, hentry, hindex⟩ := (h.storesAt hn).exists_entry
    have hle : n.index ≤ (m.elements.map a.elementRef).length := by
      rw [List.length_map]
      exact Nat.le_of_lt (Node.index_lt_length_elements hmem)
    rw [Node.parent?_of_mem_childNodes hmem] at hparent
    rw [NodeRef.prevSibling?, hparent, Node.prevSibling?, Node.parent?_of_mem_childNodes hmem]
    simp only [Option.map_some, Option.bind_eq_bind, Option.bind_some, hentry,
      (h.storesAt hm).elements?_eq, hindex, ← List.map_take, ← List.map_reverse,
      findSome?_node?_elementRef]
    exact if_pos hle

/-! ## All numbers -/

/-- Every number of a node is that of a node of the tree. -/
theorem Holds.nodeRefs_eq (h : a.Holds r) : a.nodeRefs = r.node.descendants.map a.ref := by
  have hnumbers : r.node.descendants.map (fun n => n.place.nodes) = List.range a.nodes.size := by
    rw [Node.map_nodes_descendants, List.range_eq_range', h.filled.nodes]
    rfl
  rw [nodeRefs, ← hnumbers, List.map_map]
  rfl

/-- Every number of a token is that of a token of the tree. -/
theorem Holds.tokenRefs_eq (h : a.Holds r) : a.tokenRefs = r.node.tokens.map a.tokenRef := by
  have hnumbers : (r.node.tokens.map fun l => (a.tokenRef l).id) =
      List.range' 1 (a.tokens.size - 1) := by
    rw [map_id_tokenRef, h.filled.tokens, Nat.add_sub_cancel]
    rfl
  rw [tokenRefs, ← hnumbers, List.map_map]
  rfl

/-- Nodes of a tree with the same number are the same. -/
theorem ref_inj
    {m : Node K}
    (hn : n ∈ r.node.descendants)
    (hm : m ∈ r.node.descendants) :
    a.ref n = a.ref m ↔ n = m := by
  refine ⟨fun heq => ?_, congrArg a.ref⟩
  have hnodup : (r.node.descendants.map fun n => n.place.nodes).Nodup := by
    rw [Node.map_nodes_descendants]
    exact List.nodup_range'
  exact List.inj_on_of_nodup_map hnodup hn hm (congrArg NodeRef.id heq)

theorem tokenRef_inj
    {l k : Leaf K}
    (hl : l ∈ r.node.tokens)
    (hk : k ∈ r.node.tokens) :
    a.tokenRef l = a.tokenRef k ↔ l = k := by
  refine ⟨fun heq => ?_, congrArg a.tokenRef⟩
  have hnodup : (r.node.tokens.map fun l => l.place.tokens).Nodup := by
    rw [Node.map_tokens_tokens]
    exact List.nodup_range'
  exact List.inj_on_of_nodup_map hnodup hl hk (Nat.succ.inj (congrArg TokenRef.id heq))

end Arena

/-- A walk is made to its end in one step more than it has moments. -/
theorem Preorder.Yields.visits?_eq
    {p : Preorder K}
    {visits : List (VisitRef K)}
    (h : p.Yields visits)
    {count : Nat}
    (hcount : visits.length < count) :
    p.visits? count = some visits := by
  induction h generalizing count with
  | ended h =>
      obtain ⟨count, rfl⟩ := Nat.exists_eq_add_one_of_ne_zero (Nat.ne_zero_of_lt hcount)
      rw [visits?, h]
      rfl
  | next h _ ih =>
      obtain ⟨count, rfl⟩ := Nat.exists_eq_add_one_of_ne_zero (Nat.ne_zero_of_lt hcount)
      rw [visits?, h, Option.bind_eq_bind, Option.bind_some]
      dsimp only
      rw [ih (Nat.lt_of_succ_lt_succ hcount)]
      rfl

/-- The walk by numbers is made to its end. -/
theorem Arena.Holds.walk?_eq
    {a : Arena K}
    {r : Root K}
    {n : Node K}
    (h : a.Holds r)
    (hn : n ∈ r.node.descendants) :
    (a.ref n).walk? = some (n.walk.map a.visitRef) := by
  obtain ⟨hnodes, htokens⟩ := Node.extent_le hn
  have hnodes' : r.node.extent.nodes = a.nodes.size := h.filled.nodes.symm
  have htokens' : r.node.extent.tokens + 1 = a.tokens.size := h.filled.tokens.symm
  refine (h.storesAt hn).yields_preorder.visits?_eq ?_
  rw [List.length_map, Node.length_walk, show (a.ref n).arena = a from rfl]
  omega

end Handles
end ZigCst
