import ZigCst.Proofs.Assembly

/-!
# Trees in the arrays of a builder

The arrays of a builder hold a nested tree piece by piece.  At any moment the finished
nodes are stored in full, every open node has its entry and the numbers of its children
in a buffer, and the last number in the buffer of every node but the innermost is that of
the next open node.

**Definitions.**
* `Arena.Stores`: a tree at a place is stored as a child of a node.
* `Arena.Opens`: frames are stored as open nodes.
* `Builder.Represents`: the arrays of a builder stand for a scaffold.

**Step.**  `Builder.Represents.call`: a call leads from arrays that stand for a scaffold to
arrays that stand for the next one, or both refuse it for the same cause.

**Run.**
* `Builder.related_finish_perform`: a run of a builder gives arrays that store the tree of
  the scaffold.
* `Arena.root?_eq`: and the tree can be read off them.
-/

namespace ZigCst

section Storage

variable {K : Type}

/-! ## Numbers -/

namespace Tree

/-- The number of a tree at a place. -/
def number (place : Extent) : Tree K → Child
  | .token _ _ => .token (place.tokens + 1)
  | .node _ _ => .node place.nodes

/-- The numbers of neighbouring trees from a place on. -/
def numbers (place : Extent) : List (Tree K) → List Child
  | [] => []
  | t :: ts => t.number place :: numbers (place.add t.extent) ts

@[simp]
theorem length_numbers
    (place : Extent)
    (ts : List (Tree K)) :
    (numbers place ts).length = ts.length := by
  induction ts generalizing place with
  | nil => rfl
  | cons t ts ih => rw [numbers, List.length_cons, List.length_cons, ih]

theorem numbers_append
    (place : Extent)
    (ts us : List (Tree K)) :
    numbers place (ts ++ us) = numbers place ts ++ numbers (place.add (extents ts)) us := by
  induction ts generalizing place with
  | nil => rfl
  | cons t ts ih =>
      rw [List.cons_append, numbers, numbers, ih, extents, Extent.add_assoc, List.cons_append]

end Tree

/-! ## Stored trees -/

namespace Arena

/-- A finished node at a place: its entry is complete, and the stretch of its children
holds their numbers. -/
def StoresNode (a : Arena K) (parent : Option Nat) (index : Nat) (place : Extent) (kind : K)
    (children : List (Tree K)) : Prop :=
  ∃ childrenStart,
    a.nodes[place.nodes]? = some
      { kind, parent, index, childrenStart
        childrenLength := children.length
        firstToken := place.tokens + 1
        endToken := place.tokens + (Tree.extents children).tokens + 1 } ∧
    a.stretch? childrenStart children.length = some (Tree.numbers place.enter children)

mutual

/-- A tree at a place is stored as child number `index` of the node `parent`. -/
def Stores (a : Arena K) (parent index : Nat) (place : Extent) : Tree K → Prop
  | .token kind text =>
      a.tokens[place.tokens + 1]? = some ⟨kind, place.bytes + text.size, parent⟩ ∧
        a.text.slice? place.bytes (place.bytes + text.size) = some text
  | .node kind children =>
      a.StoresNode (some parent) index place kind children ∧
        StoresAll a place.nodes 0 place.enter children

/-- Neighbouring trees are stored as children of the node `parent` from `index` on. -/
def StoresAll (a : Arena K) (parent index : Nat) (place : Extent) : List (Tree K) → Prop
  | [] => True
  | t :: ts =>
      Stores a parent index place t ∧ StoresAll a parent (index + 1) (place.add t.extent) ts

end

/-- A whole tree is stored. -/
structure StoresRoot (a : Arena K) (r : Root K) : Prop where
  node : a.StoresNode none 0 .zero r.kind r.children
  children : a.StoresAll 0 0 Extent.zero.enter r.children

/-- The arrays hold what comes before a place, and the token that no text belongs to. -/
structure FilledTo (a : Arena K) (place : Extent) : Prop where
  nodes : a.nodes.size = place.nodes
  tokens : a.tokens.size = place.tokens + 1
  first : a.startOf? 1 = some 0

variable {a b : Arena K}

theorem storesAll_append_iff
    {parent index : Nat}
    {place : Extent}
    {ts us : List (Tree K)} :
    a.StoresAll parent index place (ts ++ us) ↔
      a.StoresAll parent index place ts ∧
        a.StoresAll parent (index + ts.length) (place.add (Tree.extents ts)) us := by
  induction ts generalizing index place with
  | nil => simp [StoresAll, Tree.extents, Extent.add_zero]
  | cons t ts ih =>
      rw [List.cons_append, StoresAll, StoresAll, ih, Tree.extents, Extent.add_assoc,
        List.length_cons, Nat.add_right_comm, Nat.add_assoc, and_assoc]

/-! ## What a step leaves alone -/

/-- What one arena stores another stores too, as far as nodes from `first` up to `stop`
are concerned. -/
structure Agrees (a b : Arena K) (first stop : Nat) : Prop where
  text : b.text = a.text
  nodes : ∀ i, first ≤ i → i < stop → b.nodes[i]? = a.nodes[i]?
  tokens : ∀ {i : Nat} {entry : TokenEntry K},
    a.tokens[i]? = some entry → b.tokens[i]? = some entry
  children : ∀ {start length : Nat} {numbers : List Child},
    a.stretch? start length = some numbers → b.stretch? start length = some numbers

theorem agrees_push_node
    (a : Arena K)
    (entry : NodeEntry K) :
    a.Agrees { a with nodes := a.nodes.push entry } 0 a.nodes.size where
  text := rfl
  nodes i _ hlt := by rw [Array.getElem?_push_lt hlt, Array.getElem?_eq_getElem hlt]
  tokens h := h
  children h := h

theorem agrees_push_token
    (a : Arena K)
    (entry : TokenEntry K)
    (stop : Nat) :
    a.Agrees { a with tokens := a.tokens.push entry } 0 stop where
  text := rfl
  nodes _ _ _ := rfl
  tokens {i _} h := by
    have hlt : i < a.tokens.size := (Array.getElem?_eq_some_iff.mp h).choose
    rwa [Array.getElem?_push_lt hlt, ← Array.getElem?_eq_getElem hlt]
  children h := h

theorem stretch?_append
    {start length : Nat}
    {numbers : List Child}
    {more : Array Child}
    (hb : b.children = a.children ++ more)
    (h : a.stretch? start length = some numbers) :
    b.stretch? start length = some numbers := by
  rw [stretch?] at h ⊢
  split at h
  case isTrue hle =>
      have hbehind : more.extract (start - a.children.size) (start + length - a.children.size) =
          #[] := Array.extract_eq_empty_of_le (by omega)
      rw [hb, if_pos (by rw [Array.size_append]; omega), ← h, Array.extract_append, hbehind,
        Array.append_empty]
  case isFalse => cases h

/-- Entries behind all others make a stretch of their own. -/
theorem stretch?_size_append
    {more : Array Child}
    (hb : b.children = a.children ++ more) :
    b.stretch? a.children.size more.size = some more.toList := by
  rw [stretch?, hb, if_pos (Nat.le_of_eq Array.size_append.symm), Array.extract_append_right]
  simp

theorem agrees_close
    (a : Arena K)
    (id : Nat)
    (f : NodeEntry K → NodeEntry K)
    (more : Array Child)
    {first stop : Nat}
    (hid : id < first ∨ stop ≤ id) :
    a.Agrees { a with nodes := a.nodes.modify id f, children := a.children ++ more }
      first stop where
  text := rfl
  nodes i hle hlt := by
    rw [Array.getElem?_modify, if_neg (by omega)]
  tokens h := h
  children h := stretch?_append rfl h

theorem StoresNode.mono
    {first stop : Nat}
    {parent : Option Nat}
    {index : Nat}
    {place : Extent}
    {kind : K}
    {children : List (Tree K)}
    (h : a.StoresNode parent index place kind children)
    (hab : a.Agrees b first stop)
    (hfirst : first ≤ place.nodes)
    (hstop : place.nodes < stop) :
    b.StoresNode parent index place kind children := by
  obtain ⟨childrenStart, hentry, hchildren⟩ := h
  exact ⟨childrenStart, (hab.nodes _ hfirst hstop).trans hentry, hab.children hchildren⟩

mutual

/-- A stored tree stays stored where its nodes are left alone. -/
theorem Stores.mono
    {first stop parent index : Nat}
    {place : Extent}
    {t : Tree K}
    (h : a.Stores parent index place t)
    (hab : a.Agrees b first stop)
    (hfirst : first ≤ place.nodes)
    (hstop : place.nodes + t.extent.nodes ≤ stop) :
    b.Stores parent index place t := by
  cases t with
  | token kind text =>
      rw [Stores] at h ⊢
      exact ⟨hab.tokens h.1, hab.text ▸ h.2⟩
  | node kind children =>
      rw [Stores] at h ⊢
      rw [Tree.extent, Extent.enter] at hstop
      dsimp only at hstop
      exact ⟨h.1.mono hab hfirst (by omega),
        StoresAll.mono h.2 hab (Nat.le_succ_of_le hfirst) (by simp only [Extent.enter]; omega)⟩

theorem StoresAll.mono
    {first stop parent index : Nat}
    {place : Extent}
    {ts : List (Tree K)}
    (h : a.StoresAll parent index place ts)
    (hab : a.Agrees b first stop)
    (hfirst : first ≤ place.nodes)
    (hstop : place.nodes + (Tree.extents ts).nodes ≤ stop) :
    b.StoresAll parent index place ts := by
  cases ts with
  | nil => trivial
  | cons t ts =>
      rw [StoresAll] at h ⊢
      rw [Tree.extents, Extent.add] at hstop
      dsimp only at hstop
      exact ⟨Stores.mono h.1 hab hfirst (by omega),
        StoresAll.mono h.2 hab (by simp only [Extent.add]; omega)
          (by simp only [Extent.add]; omega)⟩

end

/-! ## Open nodes -/

/-- The position that a new child of the innermost frame takes. -/
def nextIndex : List (Frame K) → Nat
  | [] => 0
  | f :: _ => f.children.length

/-- Frames are stored as open nodes, and everything in them comes before a place.  The
entry of an open node does not know its end yet, and its buffer holds the numbers of the
trees in its frame and further ones. -/
inductive Opens (a : Arena K) :
    List Child → List (Frame K) → List Opened → Extent → Prop where
  | nil (further : List Child) : Opens a further [] [] .zero
  | cons (further : List Child) (f : Frame K) {frames : List (Frame K)} {opened : List Opened}
      {place : Extent}
      (hentry : a.nodes[place.nodes]? = some
        { kind := f.kind
          parent := opened.head?.map Opened.id
          index := nextIndex frames
          childrenStart := 0
          childrenLength := 0
          firstToken := place.tokens + 1
          endToken := place.tokens + 1 })
      (hstored : a.StoresAll place.nodes 0 place.enter f.children.reverse)
      (hrest : Opens a [.node place.nodes] frames opened place) :
      Opens a further (f :: frames)
        (⟨place.nodes,
          (Tree.numbers place.enter f.children.reverse ++ further).toArray⟩ :: opened)
        (place.enter.add (Tree.extents f.children.reverse))

theorem Opens.mono
    {further : List Child}
    {frames : List (Frame K)}
    {opened : List Opened}
    {place : Extent}
    {stop : Nat}
    (h : a.Opens further frames opened place)
    (hab : a.Agrees b 0 stop)
    (hstop : place.nodes ≤ stop) :
    b.Opens further frames opened place := by
  induction h with
  | nil further => exact .nil further
  | cons further f hentry hstored hrest ih =>
      rw [Extent.add, Extent.enter] at hstop
      dsimp only at hstop
      refine .cons further f ?_ (hstored.mono hab (Nat.zero_le _) hstop) (ih (by omega))
      exact (hab.nodes _ (Nat.zero_le _) (by omega)).trans hentry

/-- A further number in the innermost buffer. -/
theorem Opens.push
    {further : List Child}
    {f : Frame K}
    {frames : List (Frame K)}
    {o : Opened}
    {opened : List Opened}
    {place : Extent}
    (h : a.Opens further (f :: frames) (o :: opened) place)
    (c : Child) :
    a.Opens (further ++ [c]) (f :: frames) (o.push c :: opened) place := by
  cases h with
  | cons _ _ hentry hstored hrest =>
      rw [Opened.push, List.push_toArray, List.append_assoc]
      exact .cons _ f hentry hstored hrest

/-- As long as there is nothing further, a new child takes the position behind the numbers
in the innermost buffer. -/
theorem Opens.nextIndex_eq
    {frames : List (Frame K)}
    {o : Opened}
    {opened : List Opened}
    {place : Extent}
    (h : a.Opens [] frames (o :: opened) place) :
    nextIndex frames = o.children.size := by
  cases h
  simp [nextIndex]

/-- Behind every open node stands its frame. -/
theorem Opens.exists_frames
    {further : List Child}
    {frames : List (Frame K)}
    {o : Opened}
    {opened : List Opened}
    {place : Extent}
    (h : a.Opens further frames (o :: opened) place) :
    ∃ f rest, frames = f :: rest := by
  cases h
  exact ⟨_, _, rfl⟩

/-- What the arrays hold up to a place: open nodes or the whole tree. -/
inductive Stage (a : Arena K) :
    List (Frame K) → Option (Root K) → List Opened → Extent → Prop where
  | underway {frames : List (Frame K)} {opened : List Opened} {place : Extent}
      (h : a.Opens [] frames opened place) : Stage a frames none opened place
  | complete {r : Root K} (h : a.StoresRoot r) : Stage a [] (some r) [] r.tree.extent

/-- A stored tree is added to the innermost frame, once its number is in the buffer. -/
theorem Opens.add
    {f : Frame K}
    {frames : List (Frame K)}
    {o : Opened}
    {opened : List Opened}
    {place : Extent}
    {t : Tree K}
    (h : a.Opens [t.number place] (f :: frames) (o :: opened) place)
    (ht : a.Stores o.id f.children.length place t) :
    a.Opens [] (f.push t :: frames) (o :: opened) (place.add t.extent) := by
  cases h with
  | @cons _ _ _ _ start hentry hstored hrest =>
      have hchildren : (f.push t).children.reverse = f.children.reverse ++ [t] :=
        List.reverse_cons
      have hstored' : a.StoresAll start.nodes 0 start.enter (f.push t).children.reverse := by
        rw [hchildren, storesAll_append_iff, Nat.zero_add, List.length_reverse]
        exact ⟨hstored, ht, trivial⟩
      have hadded := Opens.cons [] (f.push t) hentry hstored' hrest
      rw [hchildren, Tree.numbers_append, Tree.extents_append, List.append_nil,
        ← Extent.add_assoc] at hadded
      exact hadded

theorem FilledTo.push_token
    {place : Extent}
    (h : a.FilledTo place)
    (entry : TokenEntry K)
    (bytes : Nat) :
    { a with tokens := a.tokens.push entry }.FilledTo (place.add ⟨0, 1, bytes⟩) where
  nodes := h.nodes
  tokens := by rw [Array.size_push, h.tokens]; rfl
  first := by
    obtain ⟨first, hfirst, hstop⟩ := Option.map_eq_some_iff.mp h.first
    exact Option.map_eq_some_iff.mpr
      ⟨first, (a.agrees_push_token entry 0).tokens hfirst, hstop⟩

/-- A token behind all others is added to the innermost frame. -/
theorem Opens.token
    {f : Frame K}
    {frames : List (Frame K)}
    {o : Opened}
    {opened : List Opened}
    {place : Extent}
    (h : a.Opens [] (f :: frames) (o :: opened) place)
    (hfilled : a.FilledTo place)
    (kind : K)
    {text : Text}
    (htext : a.text.slice? place.bytes (place.bytes + text.size) = some text) :
    { a with tokens := a.tokens.push ⟨kind, place.bytes + text.size, o.id⟩ }.Opens []
      (f.push (.token kind text) :: frames) (o.push (.token a.tokens.size) :: opened)
      (place.add ⟨0, 1, text.size⟩) := by
  have hindex := h.nextIndex_eq
  have hagrees := a.agrees_push_token ⟨kind, place.bytes + text.size, o.id⟩ place.nodes
  have hpushed := (h.mono hagrees (Nat.le_refl _)).push (.token (place.tokens + 1))
  rw [hfilled.tokens]
  have hentry : (a.tokens.push ⟨kind, place.bytes + text.size, o.id⟩)[place.tokens + 1]? =
      some ⟨kind, place.bytes + text.size, o.id⟩ := by
    rw [← hfilled.tokens]
    exact Array.getElem?_push_size
  have hstored : { a with tokens := a.tokens.push ⟨kind, place.bytes + text.size, o.id⟩ }.Stores
      o.id f.children.length place (.token kind text) := ⟨hentry, htext⟩
  exact hpushed.add hstored

/-- The entry of an open node is completed, and its children are written behind those of
all nodes finished before. -/
def close (a : Arena K) (o : Opened) : Arena K :=
  { a with
    nodes := a.nodes.modify o.id fun entry =>
      { entry with
        childrenStart := a.children.size
        childrenLength := o.children.size
        endToken := a.tokens.size }
    children := a.children ++ o.children }

/-- What is stored of the innermost node once it is finished. -/
theorem Opens.storesNode_close
    {f : Frame K}
    {frames : List (Frame K)}
    {o : Opened}
    {opened : List Opened}
    {place : Extent}
    (h : a.Opens [] (f :: frames) (o :: opened) place)
    (hfilled : a.FilledTo place) :
    ∃ start : Extent,
      place = start.add f.close.tree.extent ∧
      (a.close o).Opens [.node start.nodes] frames opened start ∧
      (a.close o).StoresNode (opened.head?.map Opened.id) (nextIndex frames) start f.kind
        f.children.reverse ∧
      (a.close o).StoresAll start.nodes 0 start.enter f.children.reverse := by
  have hstretch : (a.close o).stretch? a.children.size o.children.size = some o.children.toList :=
    stretch?_size_append rfl
  cases h with
  | @cons _ _ _ _ start hentry hstored hrest =>
      have hlength : ((Tree.numbers start.enter f.children.reverse ++ []).toArray).size =
          f.children.reverse.length := by simp
      refine ⟨start, Extent.enter_add _ _, ?_, ⟨a.children.size, ?_, ?_⟩, ?_⟩
      · exact hrest.mono (a.agrees_close _ _ _ (.inr (Nat.le_refl _))) (Nat.le_refl _)
      · rw [close, Array.getElem?_modify, if_pos rfl, hentry, hfilled.tokens, hlength]
        rfl
      · rw [hlength] at hstretch
        rw [hstretch, List.append_nil]
      · exact hstored.mono (a.agrees_close _ _ _ (.inl (Nat.lt_succ_self _))) (Nat.le_refl _)
          (Nat.le_refl _)

end Arena

/-! ## One call -/

namespace Builder

/-- The arrays of a builder stand for the trees of a scaffold. -/
structure Represents (b : Builder K) (s : Scaffold K) : Prop where
  size : s.size = b.text.size
  rest : s.rest = b.rest
  text : ∃ front, b.text = front ++ b.rest ∧ b.covered = front.size
  /-- Buffers that are used again are empty. -/
  pool : ∀ buffer ∈ b.pool, buffer = #[]
  stage : ∃ place,
    b.toArena.FilledTo place ∧ place.bytes = b.covered ∧
      b.toArena.Stage s.frames s.root b.opened place

theorem represents_ofText [Vocabulary K] (text : Text) :
    (ofText text : Builder K).Represents (.ofText text) where
  size := rfl
  rest := rfl
  text := ⟨[], rfl, rfl⟩
  pool := by simp [ofText]
  stage := ⟨.zero, ⟨rfl, rfl, rfl⟩, rfl, .underway (.nil _)⟩

variable {b : Builder K} {s : Scaffold K}

/-- A node is opened with an empty buffer. -/
theorem openNode_eq
    (hpool : ∀ buffer ∈ b.pool, buffer = #[])
    (kind : K)
    (parent : Option Nat)
    (index : Nat)
    (opened : List Opened) :
    ∃ pool,
      (∀ buffer ∈ pool, buffer = #[]) ∧
      b.openNode kind parent index opened =
        { b with
          nodes := b.nodes.push
            { kind, parent, index
              childrenStart := 0
              childrenLength := 0
              firstToken := b.tokens.size
              endToken := b.tokens.size }
          pool
          opened := ⟨b.nodes.size, #[]⟩ :: opened } := by
  obtain ⟨a, pool, opened', covered, rest⟩ := b
  cases pool with
  | nil => exact ⟨[], hpool, rfl⟩
  | cons buffer pool =>
      obtain rfl : buffer = #[] := hpool _ List.mem_cons_self
      exact ⟨pool, fun buffer hmem => hpool _ (List.mem_cons_of_mem _ hmem), rfl⟩

/-- The new innermost node is stored behind everything before it. -/
theorem Represents.openNode
    {opened : List Opened}
    {place : Extent}
    (h : b.Represents s)
    (hfilled : b.toArena.FilledTo place)
    (hbytes : place.bytes = b.covered)
    (hroot : s.root = none)
    (hopens : b.toArena.Opens [.node place.nodes] s.frames opened place)
    (kind : K) :
    (b.openNode kind (opened.head?.map Opened.id) (Arena.nextIndex s.frames) opened).Represents
      { s with frames := ⟨kind, []⟩ :: s.frames } := by
  obtain ⟨pool, hpool, heq⟩ :=
    openNode_eq h.pool kind (opened.head?.map Opened.id) (Arena.nextIndex s.frames) opened
  rw [heq]
  refine ⟨h.size, h.rest, h.text, hpool, place.enter, ⟨?_, hfilled.tokens, hfilled.first⟩, hbytes,
    ?_⟩
  · exact (Array.size_push _).trans (congrArg (· + 1) hfilled.nodes)
  · rw [hroot]
    have hagrees := Arena.agrees_push_node b.toArena
      { kind
        parent := opened.head?.map Opened.id
        index := Arena.nextIndex s.frames
        childrenStart := 0
        childrenLength := 0
        firstToken := b.tokens.size
        endToken := b.tokens.size }
    have hrest := hopens.mono hagrees (Nat.le_of_eq hfilled.nodes.symm)
    have hnode := Arena.Opens.cons [] ⟨kind, []⟩ (by
      rw [← hfilled.nodes, Array.getElem?_push_size, hfilled.tokens]) trivial hrest
    rw [hfilled.nodes]
    exact .underway hnode

theorem Represents.start
    (h : b.Represents s)
    (kind : K) :
    Related Represents (b.start kind) (s.start kind) := by
  obtain ⟨place, hfilled, hbytes, hstage⟩ := h.stage
  obtain ⟨a, pool, opened, covered, rest⟩ := b
  obtain ⟨size, rest', frames, root⟩ := s
  cases hstage with
  | underway hopens =>
      cases opened with
      | nil =>
          cases hopens
          have hempty : a.nodes.isEmpty = true := Array.isEmpty_iff_size_eq_zero.mpr hfilled.nodes
          have hstart : (Builder.mk a pool [] covered rest).start kind =
              .ok ((Builder.mk a pool [] covered rest).openNode kind none 0 []) := by
            rw [Builder.start, if_pos hempty]
            rfl
          rw [hstart]
          exact .ok (h.openNode hfilled hbytes rfl (.nil _) kind)
      | cons o opened =>
          obtain ⟨f, frames, rfl⟩ := hopens.exists_frames
          have hinner := hopens.push (.node place.nodes)
          have hstart := h.openNode hfilled hbytes rfl hinner kind
          rw [hopens.nextIndex_eq, ← hfilled.nodes] at hstart
          exact .ok hstart
  | complete hr =>
      have hsize : a.nodes.size ≠ 0 := by
        rw [hfilled.nodes]
        exact Nat.succ_ne_zero _
      have hempty : ¬ a.nodes.isEmpty = true := fun hempty =>
        hsize (Array.isEmpty_iff_size_eq_zero.mp hempty)
      have hstart : (Builder.mk a pool [] covered rest).start kind = .error .secondRoot := by
        rw [Builder.start, if_neg hempty]
        rfl
      rw [hstart]
      exact .error _

theorem Represents.finishNode (h : b.Represents s) :
    Related Represents b.finishNode s.finishNode := by
  obtain ⟨place, hfilled, hbytes, hstage⟩ := h.stage
  obtain ⟨a, pool, opened, covered, rest⟩ := b
  obtain ⟨size, rest', frames, root⟩ := s
  cases hstage with
  | complete hr => exact .error _
  | underway hopens =>
      cases opened with
      | nil =>
          cases hopens
          exact .error _
      | cons o opened =>
          obtain ⟨f, frames, rfl⟩ := hopens.exists_frames
          obtain ⟨start, hplace, hrest, hnode, hchildren⟩ := hopens.storesNode_close hfilled
          have hfinish : (Builder.mk a pool (o :: opened) covered rest).finishNode =
              .ok ⟨a.close o, #[] :: pool, opened, covered, rest⟩ := rfl
          have hpool : ∀ buffer ∈ #[] :: pool, buffer = #[] :=
            List.forall_mem_cons.mpr ⟨rfl, h.pool⟩
          have hclosed : (a.close o).FilledTo place :=
            ⟨(Array.size_modify ..).trans hfilled.nodes, hfilled.tokens, hfilled.first⟩
          rw [hfinish]
          cases frames with
          | nil =>
              cases hrest
              have hstage : (a.close o).Stage [] (some f.close) [] place := by
                rw [hplace, Extent.zero_add]
                exact .complete ⟨hnode, hchildren⟩
              exact .ok ⟨h.size, h.rest, h.text, hpool, place, hclosed, hbytes, hstage⟩
          | cons g frames =>
              have hstage : (a.close o).Stage (g.push f.close.tree :: frames) none opened place := by
                cases opened with
                | nil => cases hrest
                | cons p opened =>
                    rw [hplace]
                    exact .underway (hrest.add ⟨hnode, hchildren⟩)
              exact .ok ⟨h.size, h.rest, h.text, hpool, place, hclosed, hbytes, hstage⟩

theorem Represents.push
    (h : b.Represents s)
    (kind : K)
    (length : Nat) :
    Related Represents (b.push kind length) (s.push kind length) := by
  obtain ⟨place, hfilled, hbytes, hstage⟩ := h.stage
  obtain ⟨front, htext, hcovered⟩ := h.text
  rw [Builder.push, Scaffold.push, h.rest]
  cases hcut : b.rest.splitAt? length with
  | none => exact .error _
  | some cut =>
      obtain ⟨piece, behind⟩ := cut
      obtain ⟨hpiece, rfl⟩ := Text.splitAt?_eq_some hcut
      obtain ⟨a, pool, opened, covered, rest⟩ := b
      obtain ⟨size, rest', frames, root⟩ := s
      cases hstage with
      | complete hr => exact .error _
      | underway hopens =>
          cases opened with
          | nil =>
              cases hopens
              exact .error _
          | cons o opened =>
              obtain ⟨f, frames, rfl⟩ := hopens.exists_frames
              have hslice : a.text.slice? place.bytes (place.bytes + piece.size) = some piece := by
                rw [show a.text = _ from htext, hbytes, show covered = _ from hcovered, hpiece,
                  Text.slice?_append]
              have hstage := Arena.Stage.underway (hopens.token hfilled kind hslice)
              rw [hbytes] at hstage
              refine .ok ⟨h.size, rfl, ⟨front ++ piece, ?_, ?_⟩, h.pool, _, ?_, ?_, hstage⟩
              · rw [show a.text = _ from htext, hpiece, List.append_assoc]
              · rw [Text.size_append, ← show covered = _ from hcovered]
              · exact hfilled.push_token _ _
              · rw [← hbytes]
                rfl

theorem pushAll_cons
    (b : Builder K)
    (p : Piece K)
    (ps : List (Piece K)) :
    b.pushAll (p :: ps) = b.push p.kind p.length >>= fun b => b.pushAll ps := by
  simp only [pushAll, List.foldlM_cons]

theorem token_eq_pushAll
    (b : Builder K)
    (s : Stretch K) :
    b.token s.leading s.kind s.length s.trailing = b.pushAll s.pieces := by
  have happend : b.pushAll s.pieces = b.pushAll s.leading >>= fun b =>
      b.pushAll (⟨s.kind, s.length⟩ :: s.trailing) := by
    rw [Stretch.pieces]
    simp only [pushAll, List.foldlM_append]
  simp only [happend, pushAll_cons]
  rfl

theorem Represents.call
    (h : b.Represents s)
    (c : Call K) :
    Related Represents (b.call c) (s.call c) := by
  cases c with
  | start kind => exact h.start kind
  | token stretch =>
      rw [Builder.call, token_eq_pushAll]
      exact Related.foldlM (fun p _ _ h => h.push p.kind p.length) stretch.pieces h
  | finish => exact h.finishNode

theorem Represents.perform
    (h : b.Represents s)
    (calls : List (Call K)) :
    Related Represents (b.perform calls) (s.perform calls) :=
  Related.foldlM (fun c _ _ h => h.call c) calls h

end Builder

/-- A whole tree is stored, and there is nothing else in the arrays. -/
structure Arena.Holds (a : Arena K) (r : Root K) : Prop where
  stored : a.StoresRoot r
  filled : a.FilledTo r.tree.extent
  covers : r.tree.extent.bytes = a.text.size

namespace Builder

variable {b : Builder K} {s : Scaffold K}

theorem Represents.finish (h : b.Represents s) : Related Arena.Holds b.finish s.finish := by
  obtain ⟨place, hfilled, hbytes, hstage⟩ := h.stage
  obtain ⟨front, htext, hcovered⟩ := h.text
  have hrest := h.rest
  have hsize := h.size
  obtain ⟨a, pool, opened, covered, rest⟩ := b
  obtain ⟨size, rest', frames, root⟩ := s
  dsimp only at hrest hsize htext hcovered hbytes
  subst hrest hsize
  cases hstage with
  | underway hopens =>
      cases opened with
      | nil =>
          cases hopens
          have hempty : a.nodes.isEmpty = true := Array.isEmpty_iff_size_eq_zero.mpr hfilled.nodes
          rw [Builder.finish, if_pos hempty]
          exact .error _
      | cons o opened =>
          obtain ⟨f, frames, rfl⟩ := hopens.exists_frames
          exact .error _
  | @complete r hr =>
      have hempty : ¬ a.nodes.isEmpty = true := by
        rw [Array.isEmpty_iff_size_eq_zero, hfilled.nodes]
        exact Nat.succ_ne_zero _
      have hsize : a.text.size = covered + Text.size rest' := by
        rw [htext, Text.size_append, hcovered]
      rw [Builder.finish]
      dsimp only
      rw [if_neg hempty]
      cases rest' with
      | nil =>
          have hcovers : covered = a.text.size := hsize.symm
          rw [if_pos hcovers]
          exact .ok ⟨hr, hfilled, hbytes.trans hcovers⟩
      | cons c rest' =>
          have hc := c.utf8Size_pos
          rw [if_neg (by rw [Text.size_cons] at hsize; omega)]
          have huncovered : a.text.size - Text.size (c :: rest') = covered := by omega
          rw [Scaffold.finish]
          dsimp only
          rw [huncovered]
          exact .error _

/-- A run of a builder and a run of a scaffold by the same calls end alike. -/
theorem related_finish_perform [Vocabulary K]
    (text : Text)
    (calls : List (Call K)) :
    Related Arena.Holds ((ofText text).perform calls >>= finish)
      ((Scaffold.ofText text).perform calls >>= Scaffold.finish) :=
  ((represents_ofText text).perform calls).bind fun _ _ h => h.finish

end Builder

/-! ## Reading -/

namespace Arena

variable {a : Arena K}

mutual

/-- Behind a stored tree a token starts where the tree ends. -/
theorem Stores.startOf?_add
    {parent index : Nat}
    {place : Extent}
    {t : Tree K}
    (h : a.Stores parent index place t)
    (hstart : a.startOf? (place.tokens + 1) = some place.bytes) :
    a.startOf? ((place.add t.extent).tokens + 1) = some (place.add t.extent).bytes := by
  cases t with
  | token kind text =>
      rw [Stores] at h
      exact congrArg (Option.map TokenEntry.stop) h.1
  | node kind children =>
      rw [Stores] at h
      rw [Tree.extent, ← Extent.enter_add]
      exact StoresAll.startOf?_add h.2 hstart

theorem StoresAll.startOf?_add
    {parent index : Nat}
    {place : Extent}
    {ts : List (Tree K)}
    (h : a.StoresAll parent index place ts)
    (hstart : a.startOf? (place.tokens + 1) = some place.bytes) :
    a.startOf? ((place.add (Tree.extents ts)).tokens + 1) =
      some (place.add (Tree.extents ts)).bytes := by
  cases ts with
  | nil => exact hstart
  | cons t ts =>
      rw [StoresAll] at h
      rw [Tree.extents, ← Extent.add_assoc]
      exact StoresAll.startOf?_add h.2 (Stores.startOf?_add h.1 hstart)

end

mutual

/-- The text of a stored tree is the part of the whole text that it covers. -/
theorem Stores.slice?_eq
    {parent index : Nat}
    {place : Extent}
    {t : Tree K}
    (h : a.Stores parent index place t)
    (hstart : a.text.slice? place.bytes place.bytes = some []) :
    a.text.slice? place.bytes (place.add t.extent).bytes = some (textOf t.lexemes) := by
  cases t with
  | token kind text =>
      rw [Stores] at h
      rw [Tree.lexemes_token, textOf_cons]
      exact h.2.trans (congrArg some (List.append_nil text).symm)
  | node kind children =>
      rw [Stores] at h
      have hchildren : a.text.slice? place.enter.bytes _ = _ := StoresAll.slice?_eq h.2 hstart
      rw [Tree.extent, ← Extent.enter_add]
      exact hchildren

theorem StoresAll.slice?_eq
    {parent index : Nat}
    {place : Extent}
    {ts : List (Tree K)}
    (h : a.StoresAll parent index place ts)
    (hstart : a.text.slice? place.bytes place.bytes = some []) :
    a.text.slice? place.bytes (place.add (Tree.extents ts)).bytes =
      some (textOf (Tree.allLexemes ts)) := by
  cases ts with
  | nil => exact hstart
  | cons t ts =>
      rw [StoresAll] at h
      have hfirst := Stores.slice?_eq h.1 hstart
      have hrest := StoresAll.slice?_eq h.2 (Text.slice?_stop hfirst)
      rw [Tree.extents, ← Extent.add_assoc, Tree.allLexemes_cons, textOf_append]
      exact Text.slice?_trans hfirst hrest

end

/-- Arrays that hold a tree hold its text. -/
theorem Holds.text_eq
    {r : Root K}
    (h : a.Holds r) :
    a.text = r.text := by
  have hslice := h.stored.children.slice?_eq (Text.slice?_eq_some_iff.mpr ⟨[], a.text, rfl, rfl, rfl⟩)
  obtain ⟨front, back, htext, hfront, hstop⟩ := Text.slice?_eq_some_iff.mp hslice
  have hbytes : (Extent.zero.enter.add (Tree.extents r.children)).bytes = a.text.size := by
    rw [Extent.enter_add, Extent.zero_add]
    exact h.covers
  obtain rfl := Text.size_eq_zero_iff.mp hfront.symm
  have hback : Text.size back = 0 := by
    have hsize := congrArg Text.size htext
    rw [List.nil_append, Text.size_append] at hsize
    rw [hbytes] at hstop
    have hzero : Extent.zero.enter.bytes = 0 := rfl
    omega
  rw [htext, Text.size_eq_zero_iff.mp hback, List.append_nil]
  rfl

/-! ## Entries -/

theorem StoresNode.kind?_eq
    {parent : Option Nat}
    {index : Nat}
    {place : Extent}
    {kind : K}
    {children : List (Tree K)}
    (h : a.StoresNode parent index place kind children) :
    (NodeRef.mk a place.nodes).kind? = some kind := by
  obtain ⟨childrenStart, hentry, -⟩ := h
  exact congrArg (Option.map NodeEntry.kind) hentry

theorem StoresNode.childIds?_eq
    {parent : Option Nat}
    {index : Nat}
    {place : Extent}
    {kind : K}
    {children : List (Tree K)}
    (h : a.StoresNode parent index place kind children) :
    (NodeRef.mk a place.nodes).childIds? = some (Tree.numbers place.enter children) := by
  obtain ⟨childrenStart, hentry, hchildren⟩ := h
  have hentry' : (NodeRef.mk a place.nodes).data? = _ := hentry
  rw [NodeRef.childIds?, hentry']
  exact hchildren

/-- A token covers what is between the end of the token before it and its own. -/
theorem Stores.range?_eq
    {parent index : Nat}
    {place : Extent}
    {kind : K}
    {text : Text}
    (h : a.Stores parent index place (.token kind text))
    (hstart : a.startOf? (place.tokens + 1) = some place.bytes) :
    (TokenRef.mk a (place.tokens + 1)).range? =
      some ⟨place.bytes, place.bytes + text.size⟩ := by
  rw [Stores] at h
  have hentry : (TokenRef.mk a (place.tokens + 1)).data? = _ := h.1
  rw [TokenRef.range?, hstart, hentry]
  exact if_pos (Nat.le_add_right _ _)

/-! ## Reading -/

mutual

/-- A stored tree is read off the arrays and cut off the text. -/
theorem Stores.treeAt?_eq
    {parent index : Nat}
    {place : Extent}
    {t : Tree K}
    (h : a.Stores parent index place t)
    (hstart : a.startOf? (place.tokens + 1) = some place.bytes)
    {depth : Nat}
    (hdepth : t.extent.nodes < depth)
    (rest : Text) :
    (a.treeAt? depth (t.number place)).run (textOf t.lexemes ++ rest) = some (t, rest) := by
  obtain ⟨depth, rfl⟩ := Nat.exists_eq_add_one_of_ne_zero (Nat.ne_zero_of_lt hdepth)
  cases t with
  | token kind text =>
      have hrange := Stores.range?_eq h hstart
      have hlength : (Range.mk place.bytes (place.bytes + text.size)).length = text.size :=
        Nat.add_sub_cancel_left _ _
      rw [Stores] at h
      have hkind : (TokenRef.mk a (place.tokens + 1)).kind? = some kind :=
        congrArg (Option.map TokenEntry.kind) h.1
      rw [Tree.number, Tree.lexemes_token, textOf_cons, List.append_assoc]
      simp only [treeAt?, StateT.run, hrange, hkind, hlength, Option.bind_eq_bind,
        Option.bind_some, Text.splitAt?_size_append]
      rfl
  | node kind children =>
      rw [Stores] at h
      have hchildren := StoresAll.mapM_treeAt?_eq h.2 hstart (Nat.lt_of_succ_lt_succ hdepth) rest
      rw [Tree.number, Tree.lexemes_node]
      simp only [treeAt?, StateT.run, h.1.childIds?_eq, h.1.kind?_eq, Option.bind_eq_bind,
        Option.bind_some] at hchildren ⊢
      rw [hchildren]
      rfl

theorem StoresAll.mapM_treeAt?_eq
    {parent index : Nat}
    {place : Extent}
    {ts : List (Tree K)}
    (h : a.StoresAll parent index place ts)
    (hstart : a.startOf? (place.tokens + 1) = some place.bytes)
    {depth : Nat}
    (hdepth : (Tree.extents ts).nodes < depth)
    (rest : Text) :
    ((Tree.numbers place ts).mapM (a.treeAt? depth)).run (textOf (Tree.allLexemes ts) ++ rest) =
      some (ts, rest) := by
  cases ts with
  | nil => rfl
  | cons t ts =>
      rw [StoresAll] at h
      rw [Tree.extents, Extent.add] at hdepth
      dsimp only at hdepth
      have hfirst : t.extent.nodes < depth := by omega
      have hrest : (Tree.extents ts).nodes < depth := by omega
      have ht := Stores.treeAt?_eq h.1 hstart hfirst (textOf (Tree.allLexemes ts) ++ rest)
      have hts := StoresAll.mapM_treeAt?_eq h.2 (h.1.startOf?_add hstart) hrest rest
      rw [Tree.numbers, Tree.allLexemes_cons, textOf_append, List.append_assoc, List.mapM_cons,
        StateT.run_bind, ht, Option.bind_eq_bind, Option.bind_some, StateT.run_bind, hts]
      rfl

end

/-- The tree that the arrays hold is read off them. -/
theorem Holds.root?_eq
    {r : Root K}
    (h : a.Holds r) :
    a.root? = some r := by
  have hdepth : (Tree.extents r.children).nodes < a.nodes.size := by
    rw [h.filled.nodes]
    exact Nat.lt_succ_self _
  have hread := h.stored.children.mapM_treeAt?_eq h.filled.first hdepth []
  have hkind : a.node.kind? = some r.kind := h.stored.node.kind?_eq
  have hids : a.node.childIds? = some (Tree.numbers Extent.zero.enter r.children) :=
    h.stored.node.childIds?_eq
  have htext : a.text = textOf (Tree.allLexemes r.children) ++ [] := by
    rw [h.text_eq, List.append_nil]
    rfl
  rw [root?, hids, hkind, htext, Option.bind_eq_bind, Option.bind_some, hread]
  rfl

end Arena

/-- The tree of a run is read off the arrays that the builder gives. -/
theorem Builder.root?_finish_perform [Vocabulary K]
    (text : Text)
    (calls : List (Call K)) :
    ((ofText text).perform calls >>= finish).toOption.bind Arena.root? =
      ((Scaffold.ofText text).perform calls >>= Scaffold.finish).toOption :=
  (related_finish_perform text calls).toOption_bind_eq fun _ _ h => h.root?_eq

end Storage
end ZigCst
