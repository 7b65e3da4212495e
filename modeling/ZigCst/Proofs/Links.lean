import Mathlib.Data.List.Basic
import ZigCst.Proofs.Assembly
import ZigCst.Proofs.Duplicates
import ZigCst.Proofs.Following
import ZigCst.Proofs.Tiling
import ZigCst.Proofs.ZonData

/-!
# Links of a tree

A handle knows its parent, its position among the children of the parent and the numbers
of nodes, tokens and bytes before it.  All of them are carried down from the root, one
level at a time, and all of them agree with the walk: whatever holds of a node and of the
children of every node for which it holds, holds of all nodes below.

**Definitions.**
* `Node.element`: a tree in place below a node.
* `Node.Follows`: one child node stands right behind another.

**Results.**
* `Node.descendants_induction`: induction downwards.
* `Node.exists_ancestors_eq`: the way up from a node below leads through the node.
* `Node.exists_tokens_eq`: the tokens of a node below are a part of all tokens, where its
  place says.
* `Node.exists_siblings`: the siblings of a child node.
* `Root.mem_childNodes_iff`: the child nodes of a node are those that have it as parent.
-/

namespace ZigCst

section Links

variable {K : Type}

/-! ## Children in place -/

section Children

/-- A tree in place as child number `index` of `n`. -/
def Node.element (n : Node K) (index : Nat) (place : Extent) : Tree K → Element K
  | .token kind text => .token ⟨⟨kind, text⟩, place, n⟩
  | .node kind children => .node (n.child index place kind children)

variable {n c : Node K}

theorem Node.elementsFrom_cons
    (n : Node K)
    (index : Nat)
    (place : Extent)
    (t : Tree K)
    (ts : List (Tree K)) :
    n.elementsFrom index place (t :: ts) =
      n.element index place t :: n.elementsFrom (index + 1) (place.add t.extent) ts := by
  cases t <;> rfl

theorem Node.elementsFrom_append
    (n : Node K)
    (index : Nat)
    (place : Extent)
    (ts us : List (Tree K)) :
    n.elementsFrom index place (ts ++ us) =
      n.elementsFrom index place ts ++
        n.elementsFrom (index + ts.length) (place.add (Tree.extents ts)) us := by
  induction ts generalizing index place with
  | nil => rfl
  | cons t ts ih =>
      rw [List.cons_append, elementsFrom_cons, elementsFrom_cons, ih, List.cons_append,
        Tree.extents, Extent.add_assoc, List.length_cons, Nat.add_right_comm, Nat.add_assoc]

@[simp]
theorem Node.length_elementsFrom
    (n : Node K)
    (index : Nat)
    (place : Extent)
    (ts : List (Tree K)) :
    (n.elementsFrom index place ts).length = ts.length := by
  induction ts generalizing index place with
  | nil => rfl
  | cons t ts ih => rw [elementsFrom_cons, List.length_cons, List.length_cons, ih]

@[simp]
theorem Element.range_element
    (n : Node K)
    (index : Nat)
    (place : Extent)
    (t : Tree K) :
    (n.element index place t).range = ⟨place.bytes, place.bytes + t.extent.bytes⟩ := by
  cases t <;> rfl

/-- A child is one of the trees below, behind those on its left. -/
theorem Node.exists_split_of_mem_elements
    {e : Element K}
    (he : e ∈ n.elements) :
    ∃ ts t us,
      n.children = ts ++ t :: us ∧
      e = n.element ts.length (n.place.enter.add (Tree.extents ts)) t ∧
      n.elements = n.elementsFrom 0 n.place.enter ts ++
        e :: n.elementsFrom (ts.length + 1)
          ((n.place.enter.add (Tree.extents ts)).add t.extent) us := by
  have hfrom : ∀ (index : Nat) (place : Extent) (ts : List (Tree K)),
      e ∈ n.elementsFrom index place ts →
        ∃ before t after, ts = before ++ t :: after ∧
          e = n.element (index + before.length) (place.add (Tree.extents before)) t := by
    intro index place ts
    induction ts generalizing index place with
    | nil => intro hmem; simp [elementsFrom] at hmem
    | cons t ts ih =>
        intro hmem
        rw [elementsFrom_cons] at hmem
        rcases List.mem_cons.mp hmem with rfl | hmem
        · exact ⟨[], t, ts, rfl, rfl⟩
        · obtain ⟨before, u, after, rfl, rfl⟩ := ih (index + 1) (place.add t.extent) hmem
          refine ⟨t :: before, u, after, rfl, ?_⟩
          rw [Tree.extents, Extent.add_assoc, List.length_cons, Nat.add_right_comm, Nat.add_assoc]
  obtain ⟨ts, t, us, hchildren, hte⟩ := hfrom 0 n.place.enter n.children he
  rw [Nat.zero_add] at hte
  refine ⟨ts, t, us, hchildren, hte, ?_⟩
  rw [elements, hchildren, elementsFrom_append, elementsFrom_cons, Nat.zero_add, ← hte]

theorem Node.node_mem_elements (hc : c ∈ n.childNodes) : .node c ∈ n.elements := by
  obtain ⟨e, he, hnode⟩ := List.mem_filterMap.mp hc
  cases e with
  | node m => exact Option.some.inj hnode ▸ he
  | token l => cases hnode

/-- A child node in place. -/
theorem Node.eq_child_of_mem
    (hc : c ∈ n.childNodes) :
    ∃ ts us,
      n.children = ts ++ .node c.kind c.children :: us ∧
      c = n.child ts.length (n.place.enter.add (Tree.extents ts)) c.kind c.children ∧
      ∃ place, n.elements = n.elementsFrom 0 n.place.enter ts ++
        .node c :: n.elementsFrom (ts.length + 1) place us := by
  obtain ⟨ts, t, us, hchildren, heq, hsplit⟩ :=
    exists_split_of_mem_elements (node_mem_elements hc)
  cases t with
  | token kind text => cases heq
  | node kind children =>
      obtain rfl := Element.node.inj heq
      exact ⟨ts, us, hchildren, rfl, _, hsplit⟩

/-- A child leads up to its parent. -/
theorem Node.parent?_of_mem_childNodes (hc : c ∈ n.childNodes) : c.parent? = some n := by
  obtain ⟨ts, us, -, hchild, -⟩ := eq_child_of_mem hc
  rw [hchild]
  rfl

theorem Node.ancestors_of_mem_childNodes (hc : c ∈ n.childNodes) :
    c.ancestors = c :: n.ancestors := by
  obtain ⟨ts, us, -, hchild, -⟩ := eq_child_of_mem hc
  rw [hchild]
  rfl

theorem Node.token_mem_elements
    {l : Leaf K}
    (hl : l ∈ n.childTokens) :
    .token l ∈ n.elements := by
  obtain ⟨e, he, htoken⟩ := List.mem_filterMap.mp hl
  cases e with
  | node m => cases htoken
  | token l' => exact Option.some.inj htoken ▸ he

theorem Node.parent_of_mem_childTokens
    {l : Leaf K}
    (hl : l ∈ n.childTokens) :
    l.parent = n := by
  obtain ⟨ts, t, us, -, heq, -⟩ := exists_split_of_mem_elements (token_mem_elements hl)
  cases t with
  | token kind text => rw [Element.token.inj heq]
  | node kind children => cases heq

/-- A node covers its children. -/
theorem Node.covers_range
    {e : Element K}
    (he : e ∈ n.elements) :
    n.range.covers e.range = true := by
  obtain ⟨ts, t, us, hchildren, rfl, -⟩ := exists_split_of_mem_elements he
  have hbytes : n.extent.bytes = (Tree.extents ts).bytes +
      (t.extent.bytes + (Tree.extents us).bytes) := by
    rw [extent, hchildren, Tree.extents_append, Tree.extents]
    rfl
  have hplace : (n.place.enter.add (Tree.extents ts)).bytes =
      n.place.bytes + (Tree.extents ts).bytes := rfl
  rw [Element.range_element, range, Range.covers, hplace, hbytes, Bool.and_eq_true,
    decide_eq_true_eq, decide_eq_true_eq]
  dsimp only
  omega

/-- Children stand side by side. -/
theorem Node.isChain_elements (n : Node K) :
    n.elements.IsChain fun e f => e.range.stop = f.range.start := by
  have hfrom : ∀ (index : Nat) (place : Extent) (ts : List (Tree K)),
      (n.elementsFrom index place ts).IsChain fun e f => e.range.stop = f.range.start := by
    intro index place ts
    induction ts generalizing index place with
    | nil => exact .nil
    | cons t ts ih =>
        have hrest := ih (index + 1) (place.add t.extent)
        cases ts with
        | nil => exact .singleton _
        | cons u us =>
            rw [elementsFrom_cons] at hrest ⊢
            rw [elementsFrom_cons]
            refine .cons_cons ?_ hrest
            rw [Element.range_element, Element.range_element]
            rfl
  exact hfrom 0 n.place.enter n.children

/-- One child node stands right behind another. -/
def Node.Follows (n c d : Node K) : Prop :=
  ∃ before after, n.childNodes = before ++ c :: d :: after

theorem Node.Follows.left_mem
    {d : Node K}
    (h : n.Follows c d) :
    c ∈ n.childNodes := by
  obtain ⟨before, after, hsplit⟩ := h
  simp [hsplit]

theorem Node.Follows.right_mem
    {d : Node K}
    (h : n.Follows c d) :
    d ∈ n.childNodes := by
  obtain ⟨before, after, hsplit⟩ := h
  simp [hsplit]

theorem Node.index_lt_length_elements (hc : c ∈ n.childNodes) : c.index < n.elements.length := by
  obtain ⟨ts, us, -, hchild, place, hsplit⟩ := eq_child_of_mem hc
  rw [hsplit, List.length_append, length_elementsFrom, List.length_cons, hchild]
  exact Nat.lt_add_of_pos_right (Nat.succ_pos _)

/-- The siblings of a child node are the child nodes next to it. -/
theorem Node.exists_siblings
    (hc : c ∈ n.childNodes) :
    ∃ before after,
      n.childNodes = before ++ c :: after ∧
      c.prevSibling? = before.getLast? ∧
      c.nextSibling? = after.head? := by
  obtain ⟨ts, us, -, hchild, place, hsplit⟩ := eq_child_of_mem hc
  have hindex : c.index = ts.length := by
    rw [hchild]
    rfl
  refine ⟨(n.elementsFrom 0 n.place.enter ts).filterMap Element.node?,
    (n.elementsFrom (ts.length + 1) place us).filterMap Element.node?, ?_, ?_, ?_⟩
  · rw [childNodes, hsplit, List.filterMap_append,
      List.filterMap_cons_some (f := Element.node?) rfl]
  · rw [prevSibling?, parent?_of_mem_childNodes hc, hindex, Option.bind_eq_bind, Option.bind_some,
      hsplit, List.take_left' (length_elementsFrom ..), List.getLast?_filterMap]
  · rw [nextSibling?, parent?_of_mem_childNodes hc, hindex, Option.bind_eq_bind, Option.bind_some,
      hsplit, ← List.singleton_append, ← List.append_assoc, List.drop_left' (by simp),
      List.head?_filterMap]

/-- A child node stands at one place among the child nodes. -/
theorem Node.childNodes_split_unique
    {c : Node K}
    {before before' after after' : List (Node K)}
    (h : n.childNodes = before ++ c :: after)
    (h' : n.childNodes = before' ++ c :: after') :
    before = before' ∧ after = after' := by
  have hnotMem : ∀ {xs ys : List (Node K)}, n.childNodes = xs ++ c :: ys → c ∉ xs ∧ c ∉ ys := by
    intro xs ys heq
    have hnodup := n.nodup_childNodes
    rw [heq, List.nodup_middle, List.nodup_cons, List.mem_append, not_or] at hnodup
    exact hnodup.1
  obtain ⟨hbefore, -, hafter⟩ :=
    (List.append_cons_inj_of_notMem (hnotMem h).1 (hnotMem h).2).mp (h.symm.trans h')
  exact ⟨hbefore, hafter⟩

theorem Node.follows_iff_nextSibling?
    {d : Node K}
    (hc : c ∈ n.childNodes) :
    n.Follows c d ↔ c.nextSibling? = some d := by
  obtain ⟨before, after, hsplit, -, hnext⟩ := exists_siblings hc
  rw [hnext]
  constructor
  · rintro ⟨before', after', hfollows⟩
    rw [(childNodes_split_unique hsplit hfollows).2]
    rfl
  · intro hhead
    obtain ⟨after', rfl⟩ := List.head?_eq_some_iff.mp hhead
    exact ⟨before, after', hsplit⟩

theorem Node.follows_iff_prevSibling?
    {d : Node K}
    (hd : d ∈ n.childNodes) :
    n.Follows c d ↔ d.prevSibling? = some c := by
  obtain ⟨before, after, hsplit, hprev, -⟩ := exists_siblings hd
  rw [hprev]
  constructor
  · rintro ⟨before', after', hfollows⟩
    rw [← List.singleton_append, ← List.append_assoc] at hfollows
    rw [(childNodes_split_unique hsplit hfollows).1, List.getLast?_concat]
  · intro hlast
    obtain ⟨before', rfl⟩ := List.getLast?_eq_some_iff.mp hlast
    exact ⟨before', after, by rw [hsplit, List.append_assoc, List.singleton_append]⟩

end Children

/-! ## Nodes below -/

section Below

variable {n m k : Node K}

/-- The nodes below a node are those below its child nodes. -/
theorem Node.descendants_eq (n : Node K) :
    n.descendants = n :: n.childNodes.flatMap descendants := by
  have hfrom : ∀ (index : Nat) (place : Extent) (ts : List (Tree K)),
      (Tree.walkAll n index place ts).filterMap Visit.entered? =
        ((n.elementsFrom index place ts).filterMap Element.node?).flatMap descendants := by
    intro index place ts
    induction ts generalizing index place with
    | nil => rfl
    | cons t ts ih =>
        rw [Tree.walkAll, List.filterMap_append, ih, elementsFrom_cons]
        cases t with
        | token kind text => rfl
        | node kind children =>
            rw [element, List.filterMap_cons_some (f := Element.node?) rfl, List.flatMap_cons,
              descendants, walk_eq]
            rfl
  rw [descendants, walk_eq, filterMap_entered_enter_leave, hfrom]
  rfl

/-- Induction downwards: from a node to the child nodes of each node below. -/
@[elab_as_elim]
theorem Node.descendants_induction
    {n k : Node K}
    {motive : (k : Node K) → k ∈ n.descendants → Prop}
    (self : motive n n.mem_descendants_self)
    (child : ∀ (m : Node K) (hm : m ∈ n.descendants) (c : Node K) (hc : c ∈ m.childNodes),
      motive m hm → motive c (mem_descendants_of_mem_childNodes hm hc))
    (hk : k ∈ n.descendants) :
    motive k hk := by
  have hcases := hk
  rw [descendants_eq] at hcases
  rcases List.mem_cons.mp hcases with rfl | hbelow
  · exact self
  obtain ⟨c, hc, hkc⟩ := List.mem_flatMap.mp hbelow
  have hup : ∀ {m : Node K}, m ∈ c.descendants → m ∈ n.descendants := by
    intro m hm
    rw [descendants_eq]
    exact List.mem_cons_of_mem _ (List.mem_flatMap.mpr ⟨c, hc, hm⟩)
  have hstart := child n n.mem_descendants_self c hc self
  exact Node.descendants_induction (motive := fun m hm => motive m (hup hm)) hstart
    (fun m hm d hd hmotive => child m (hup hm) d hd hmotive) hkc
termination_by sizeOf n.children
decreasing_by exact Node.sizeOf_children_lt hc

/-- What is below a node below is below. -/
theorem Node.mem_descendants_trans
    (hm : m ∈ n.descendants)
    (hk : k ∈ m.descendants) :
    k ∈ n.descendants := by
  induction hk using descendants_induction with
  | self => exact hm
  | child d _ c hc hd => exact mem_descendants_of_mem_childNodes hd hc

/-- The way up from a node below leads through the node, and not around it. -/
theorem Node.exists_ancestors_eq
    (hk : k ∈ n.descendants) :
    ∃ path, k.ancestors = path ++ n.ancestors ∧ ∀ a ∈ path, a ∈ n.descendants := by
  induction hk using descendants_induction with
  | self => exact ⟨[], rfl, by simp⟩
  | child m hm c hc ih =>
      obtain ⟨path, hpath, hbelow⟩ := ih
      refine ⟨c :: path, ?_, ?_⟩
      · rw [ancestors_of_mem_childNodes hc, hpath, List.cons_append]
      · exact List.forall_mem_cons.mpr ⟨mem_descendants_of_mem_childNodes hm hc, hbelow⟩

theorem Node.mem_ancestors_of_mem_descendants (hk : k ∈ n.descendants) : n ∈ k.ancestors := by
  obtain ⟨path, hpath, -⟩ := exists_ancestors_eq hk
  rw [hpath]
  exact List.mem_append_right _ List.mem_cons_self

/-- A way up is the way up from each of its nodes. -/
theorem Node.ancestors_eq_of_append
    {a : Node K}
    {before after : List (Node K)}
    (h : k.ancestors = before ++ a :: after) :
    a.ancestors = a :: after := by
  have hgo : ∀ (above : List (Spot K)) (before : List (Node K)),
      ancestors.go above = before ++ a :: after → a.ancestors = a :: after := by
    intro above
    induction above with
    | nil => intro before h; simp [ancestors.go] at h
    | cons s above ih =>
        intro before h
        rw [ancestors.go] at h
        cases before with
        | nil =>
            obtain ⟨rfl, hafter⟩ := List.cons.inj h
            rw [ancestors, ← hafter]
        | cons b before => exact ih before (List.cons.inj h).2
  exact hgo (k.toSpot :: k.above) before h

/-- A node below another one is the child of one below. -/
theorem Node.exists_parent
    (hk : k ∈ n.descendants) :
    k = n ∨ ∃ m ∈ n.descendants, k ∈ m.childNodes := by
  induction hk using descendants_induction with
  | self => exact .inl rfl
  | child m hm c hc _ => exact .inr ⟨m, hm, hc⟩

/-- All nodes on the way up from a node below stand above it. -/
theorem Node.mem_descendants_of_mem_ancestors
    {a : Node K}
    (hk : k ∈ n.descendants)
    (ha : a ∈ k.ancestors)
    (htop : n.above = []) :
    a ∈ n.descendants ∧ k ∈ a.descendants := by
  induction hk using descendants_induction with
  | self =>
      rw [ancestors, htop] at ha
      obtain rfl := List.mem_singleton.mp ha
      exact ⟨mem_descendants_self _, mem_descendants_self _⟩
  | child m hm c hc ih =>
      rw [ancestors_of_mem_childNodes hc] at ha
      rcases List.mem_cons.mp ha with rfl | ha
      · exact ⟨mem_descendants_of_mem_childNodes hm hc, mem_descendants_self _⟩
      · exact ⟨(ih ha).1, mem_descendants_of_mem_childNodes (ih ha).2 hc⟩

end Below

/-! ## Nodes left -/

section Left

mutual

theorem Tree.enter_mem_walk_of_leave_mem_walk
    {parent m : Node K}
    {index : Nat}
    {place : Extent}
    {t : Tree K}
    (h : .leave m ∈ t.walk parent index place) :
    .enter m ∈ t.walk parent index place := by
  cases t with
  | token kind text => simp [walk] at h
  | node kind children =>
      rw [walk, List.mem_cons, List.mem_append, List.mem_singleton] at h ⊢
      rcases h with heq | hbelow | heq
      · cases heq
      · exact .inr (.inl (Tree.enter_mem_walkAll_of_leave_mem_walkAll hbelow))
      · exact .inl (congrArg Visit.enter (Visit.leave.inj heq))

theorem Tree.enter_mem_walkAll_of_leave_mem_walkAll
    {parent m : Node K}
    {index : Nat}
    {place : Extent}
    {ts : List (Tree K)}
    (h : .leave m ∈ walkAll parent index place ts) :
    .enter m ∈ walkAll parent index place ts := by
  cases ts with
  | nil => simp [walkAll] at h
  | cons t ts =>
      rw [walkAll, List.mem_append] at h ⊢
      exact h.imp Tree.enter_mem_walk_of_leave_mem_walk
        Tree.enter_mem_walkAll_of_leave_mem_walkAll

end

/-- The nodes that a walk leaves are those that it enters. -/
theorem Node.mem_descendants_of_leave_mem_walk
    {n m : Node K}
    (h : .leave m ∈ n.walk) :
    m ∈ n.descendants := by
  refine List.mem_filterMap.mpr ⟨.enter m, ?_, rfl⟩
  rw [walk_eq, List.mem_cons, List.mem_append, List.mem_singleton] at h ⊢
  rcases h with heq | hbelow | heq
  · cases heq
  · exact .inr (.inl (Tree.enter_mem_walkAll_of_leave_mem_walkAll hbelow))
  · exact .inl (congrArg Visit.enter (Visit.leave.inj heq))

end Left

/-! ## Numbers below -/

section Numbers

mutual

/-- The nodes of a tree are numbered in preorder. -/
theorem Tree.map_nodes_walk
    (parent : Node K)
    (index : Nat)
    (place : Extent)
    (t : Tree K) :
    ((t.walk parent index place).filterMap Visit.entered?).map (fun n => n.place.nodes) =
      List.range' place.nodes t.extent.nodes := by
  cases t with
  | token kind text => rfl
  | node kind children =>
      rw [walk, filterMap_entered_enter_leave, List.map_cons, Tree.map_nodes_walkAll]
      rfl

theorem Tree.map_nodes_walkAll
    (parent : Node K)
    (index : Nat)
    (place : Extent)
    (ts : List (Tree K)) :
    ((walkAll parent index place ts).filterMap Visit.entered?).map (fun n => n.place.nodes) =
      List.range' place.nodes (extents ts).nodes := by
  cases ts with
  | nil => rfl
  | cons t ts =>
      rw [walkAll, List.filterMap_append, List.map_append, Tree.map_nodes_walk,
        Tree.map_nodes_walkAll, extents]
      exact List.range'_append_1

end

mutual

/-- The tokens of a tree are numbered in order. -/
theorem Tree.map_tokens_walk
    (parent : Node K)
    (index : Nat)
    (place : Extent)
    (t : Tree K) :
    ((t.walk parent index place).filterMap Visit.token?).map (fun l => l.place.tokens) =
      List.range' place.tokens t.extent.tokens := by
  cases t with
  | token kind text => rfl
  | node kind children =>
      rw [walk, List.filterMap_cons_none rfl, List.filterMap_append, List.map_append,
        Tree.map_tokens_walkAll]
      exact List.append_nil _

theorem Tree.map_tokens_walkAll
    (parent : Node K)
    (index : Nat)
    (place : Extent)
    (ts : List (Tree K)) :
    ((walkAll parent index place ts).filterMap Visit.token?).map (fun l => l.place.tokens) =
      List.range' place.tokens (extents ts).tokens := by
  cases ts with
  | nil => rfl
  | cons t ts =>
      rw [walkAll, List.filterMap_append, List.map_append, Tree.map_tokens_walk,
        Tree.map_tokens_walkAll, extents]
      exact List.range'_append_1

end

mutual

/-- A walk meets every node twice and every token once. -/
theorem Tree.length_walk
    (parent : Node K)
    (index : Nat)
    (place : Extent)
    (t : Tree K) :
    (t.walk parent index place).length = 2 * t.extent.nodes + t.extent.tokens := by
  cases t with
  | token kind text => rfl
  | node kind children =>
      rw [walk, List.length_cons, List.length_append, Tree.length_walkAll, List.length_singleton,
        extent, Extent.enter]
      dsimp only
      omega

theorem Tree.length_walkAll
    (parent : Node K)
    (index : Nat)
    (place : Extent)
    (ts : List (Tree K)) :
    (walkAll parent index place ts).length = 2 * (extents ts).nodes + (extents ts).tokens := by
  cases ts with
  | nil => rfl
  | cons t ts =>
      rw [walkAll, List.length_append, Tree.length_walk, Tree.length_walkAll, extents, Extent.add]
      dsimp only
      omega

end

theorem Node.length_walk (n : Node K) :
    n.walk.length = 2 * n.extent.nodes + n.extent.tokens := by
  rw [walk_eq, List.length_cons, List.length_append, Tree.length_walkAll, List.length_singleton,
    extent, Extent.enter]
  dsimp only
  omega

/-- There is not more below a node below. -/
theorem Node.extent_le
    {n m : Node K}
    (hm : m ∈ n.descendants) :
    m.extent.nodes ≤ n.extent.nodes ∧ m.extent.tokens ≤ n.extent.tokens := by
  induction hm using descendants_induction with
  | self => exact ⟨Nat.le_refl _, Nat.le_refl _⟩
  | child k _ c hc ih =>
      obtain ⟨ts, us, hchildren, -, -⟩ := eq_child_of_mem hc
      have hextent : (Tree.extents k.children) =
          (Tree.extents ts).add (c.extent.add (Tree.extents us)) := by
        rw [hchildren, Tree.extents_append]
        rfl
      have hnodes := congrArg Extent.nodes hextent
      have htokens := congrArg Extent.tokens hextent
      simp only [Extent.add] at hnodes htokens
      simp only [extent, Extent.enter] at ih hnodes htokens ⊢
      omega

theorem Node.map_nodes_descendants (n : Node K) :
    n.descendants.map (fun m => m.place.nodes) = List.range' n.place.nodes n.extent.nodes := by
  rw [descendants, walk_eq, filterMap_entered_enter_leave, List.map_cons, Tree.map_nodes_walkAll]
  rfl

theorem Node.map_tokens_tokens (n : Node K) :
    n.tokens.map (fun l => l.place.tokens) = List.range' n.place.tokens n.extent.tokens := by
  rw [tokens, walk_eq, List.filterMap_cons_none rfl, List.filterMap_append, List.map_append,
    Tree.map_tokens_walkAll]
  exact List.append_nil _

end Numbers

/-! ## Tokens below -/

section Tokens

variable {n m : Node K}

mutual

theorem Tree.tokens_extent (t : Tree K) : t.extent.tokens = t.lexemes.length := by
  cases t with
  | token kind text => rfl
  | node kind children => exact Tree.tokens_extents children

theorem Tree.tokens_extents (ts : List (Tree K)) :
    (extents ts).tokens = (allLexemes ts).length := by
  cases ts with
  | nil => rfl
  | cons t ts =>
      rw [extents, allLexemes_cons, List.length_append, Extent.add, Tree.tokens_extent t,
        Tree.tokens_extents ts]

end

theorem Node.map_toLexeme_tokens (n : Node K) :
    n.tokens.map Leaf.toLexeme = Tree.allLexemes n.children := by
  have hlocated := congrArg (List.map Located.toLexeme) n.map_located_tokens
  rwa [map_toLexeme_locate, List.map_map] at hlocated

/-- The tokens of a child node are a part of those of its parent. -/
theorem Node.exists_tokens_eq_of_mem_childNodes
    {c : Node K}
    (hc : c ∈ n.childNodes) :
    ∃ before after,
      n.tokens = before ++ (c.tokens ++ after) ∧
      c.place.tokens = n.place.tokens + before.length ∧
      c.place.bytes = n.place.bytes + (textOf (before.map Leaf.toLexeme)).size := by
  obtain ⟨ts, us, -, hchild, place, hsplit⟩ := eq_child_of_mem hc
  have hbefore : ((n.elementsFrom 0 n.place.enter ts).flatMap Element.tokens).map Leaf.toLexeme =
      Tree.allLexemes ts := by
    -- the trees before the child are the children of a node of their own
    have htokens : ∀ (index : Nat) (place : Extent) (ts : List (Tree K)),
        ((n.elementsFrom index place ts).flatMap Element.tokens).map Leaf.toLexeme =
          Tree.allLexemes ts := by
      intro index place ts
      induction ts generalizing index place with
      | nil => rfl
      | cons t ts ih =>
          rw [elementsFrom_cons, List.flatMap_cons, List.map_append, ih, Tree.allLexemes_cons]
          cases t with
          | token kind text => rfl
          | node kind children => rw [element, Element.tokens, map_toLexeme_tokens]; rfl
    exact htokens 0 n.place.enter ts
  refine ⟨(n.elementsFrom 0 n.place.enter ts).flatMap Element.tokens,
    (n.elementsFrom (ts.length + 1) place us).flatMap Element.tokens, ?_, ?_, ?_⟩
  · rw [tokens_eq, hsplit, List.flatMap_append, List.flatMap_cons]
    rfl
  · rw [← List.length_map Leaf.toLexeme, hbefore, ← Tree.tokens_extents, hchild]
    rfl
  · rw [hbefore, ← Tree.bytes_extents, hchild]
    rfl

/-- The tokens of a node below are a part of all tokens, where its place says. -/
theorem Node.exists_tokens_eq
    (hm : m ∈ n.descendants) :
    ∃ before after,
      n.tokens = before ++ (m.tokens ++ after) ∧
      m.place.tokens = n.place.tokens + before.length ∧
      m.place.bytes = n.place.bytes + (textOf (before.map Leaf.toLexeme)).size := by
  induction hm using descendants_induction with
  | self => exact ⟨[], [], by simp, rfl, rfl⟩
  | child k hk c hc ih =>
      obtain ⟨before, after, htokens, hcount, hbytes⟩ := ih
      obtain ⟨before', after', htokens', hcount', hbytes'⟩ :=
        exists_tokens_eq_of_mem_childNodes hc
      refine ⟨before ++ before', after' ++ after, ?_, ?_, ?_⟩
      · rw [htokens, htokens']
        simp only [List.append_assoc]
      · rw [hcount', hcount, List.length_append, Nat.add_assoc]
      · rw [hbytes', hbytes, List.map_append, textOf_append, Text.size_append, Nat.add_assoc]

/-- The tokens of a node below are tokens below. -/
theorem Node.mem_tokens_of_mem_descendants
    {l : Leaf K}
    (hm : m ∈ n.descendants)
    (hl : l ∈ m.tokens) :
    l ∈ n.tokens := by
  obtain ⟨before, after, htokens, -, -⟩ := exists_tokens_eq hm
  rw [htokens]
  exact List.mem_append_right _ (List.mem_append_left _ hl)

/-- A token below stands in the stream of the tree. -/
theorem Root.located_mem_of_mem_childTokens
    {r : Root K}
    (hn : n ∈ r.node.descendants)
    {l : Leaf K}
    (hl : l ∈ n.childTokens) :
    l.located ∈ locate 0 r.lexemes := by
  rw [← r.located_tokens]
  exact List.mem_map_of_mem (Node.mem_tokens_of_mem_elements hn (Node.token_mem_elements hl))

/-- Among the significant lexemes of a tree, a token is the one of its kind. -/
theorem Root.located_eq_of_kind
    [Vocabulary K]
    {r : Root K}
    (hn : n ∈ r.node.descendants)
    {l : Leaf K}
    (hl : l ∈ n.childTokens)
    {kind : K}
    (hkind : l.kind = kind)
    (htrivia : Vocabulary.isTrivia kind = false)
    {before after : List (Located K)}
    {x : Located K}
    (hplaces : places 0 r.lexemes = before ++ x :: after)
    (hother : ∀ m ∈ before ++ after, m.kind ≠ kind) :
    l.located = x := by
  have hsignificant : (!l.located.isTrivia) = true := by
    rw [Located.isTrivia, Leaf.located, hkind, htrivia]
    rfl
  have hmem : l.located ∈ places 0 r.lexemes :=
    List.mem_filter.mpr ⟨Root.located_mem_of_mem_childTokens hn hl, hsignificant⟩
  rw [hplaces] at hmem
  rw [List.forall_mem_append] at hother
  rcases List.mem_append.mp hmem with hbefore | hrest
  · exact absurd hkind (hother.1 _ hbefore)
  rcases List.mem_cons.mp hrest with heq | hafter
  · exact heq
  · exact absurd hkind (hother.2 _ hafter)

end Tokens

/-! ## Every node of a tree -/

/-- The child nodes of a node are the nodes of the tree that have it as parent. -/
theorem Root.mem_childNodes_iff
    {r : Root K}
    {n c : Node K}
    (hc : c ∈ r.node.descendants) :
    c ∈ n.childNodes ↔ c.parent? = some n := by
  constructor
  · exact Node.parent?_of_mem_childNodes
  · intro hparent
    rcases Node.exists_parent hc with rfl | ⟨m, -, hmem⟩
    · cases hparent
    · rw [Node.parent?_of_mem_childNodes hmem] at hparent
      exact Option.some.inj hparent ▸ hmem

end Links
end ZigCst
