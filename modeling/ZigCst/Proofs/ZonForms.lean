import ZigCst.Proofs.Pattern
import ZigCst.Proofs.ZonLanguage

/-!
# What the nodes of a Zon file consist of

Every node of a Zon file matches the pattern of its kind, however malformed the file
is; only an error holds whatever could not be understood, and a fault that says so.  A
container is of the kind that its entries decide.

**Definitions.**
* `contents`: the pattern of a kind.
* `Entries.among`: the entries among children.
* `Formed`: what is asked of a node.

**Results.**
* `forms_value`: a value is one node, at every depth.
* `exists_marked_file`: every file has a tree in which all nodes obey the rule, and its
  errors are the faults of that tree.
-/

namespace ZigCst
namespace Zon

open Pattern

/-! ## Patterns -/

/-- Nodes that may stand for a value. -/
def valueKinds : List Kind :=
  [.struct, .array, .ident, .enumLiteral, .stringLiteral, .char, .number, .error]

/-- An entry with the comma behind it, or an error in its place. -/
def entryContents : Pattern Kind :=
  perhaps [any [nodes [.error], all [nodes [.entry], perhaps [expected .comma]]]]

/-- A dot and entries in braces. -/
def containerContents : List (Pattern Kind) :=
  [tokens [.dot], tokens [.leftBrace], many [entryContents], expected .rightBrace]

/-- A key with the equals sign behind it. -/
def keyContents : List (Pattern Kind) := [tokens [.dot], nodes [.ident], tokens [.eq]]

/-- A file up to its end.  In an empty one, the value is missing. -/
def documentContents : Bool → List (Pattern Kind)
  | true => [fault]
  | false => [nodes valueKinds, perhaps [nodes [.error]]]

/-- A file, empty or not. -/
def fileContents (empty : Bool) : List (Pattern Kind) := documentContents empty ++ [tokens [.eof]]

/-- What a node of a kind consists of.  Errors have no pattern. -/
def contents : Kind → List (Pattern Kind)
  | .file => [any [all (fileContents true), all (fileContents false)]]
  | .struct => containerContents
  | .array => containerContents
  | .entry => [perhaps keyContents, nodes valueKinds]
  | .ident => [tokens [.identifier]]
  | .enumLiteral => [tokens [.dot], nodes [.ident]]
  | .stringLiteral =>
      [any [tokens [.stringLiteralSingle], many [perhaps [tokens [.lineString]]]]]
  | .char => [tokens [.charLiteral]]
  | .number => [perhaps [tokens [.minus]], any [tokens [.integer, .float], fault]]
  | _ => [0]

/-- Whether an equals sign is among children. -/
def isKeyed (children : List (Marked Kind)) : Bool :=
  children.any fun m => m.sign == .token .eq

/-- Whether a child is an entry, named or not. -/
def isEntry (named : Bool) : Marked Kind → Bool
  | .node .entry children => isKeyed children == named
  | _ => false

/-- The entries among children. -/
def Entries.among (ms : List (Marked Kind)) : Entries :=
  ⟨ms.any (isEntry false), ms.any (isEntry true)⟩

/-- What is asked of a node. -/
structure Formed (kind : Kind) (ms : List (Marked Kind)) : Prop where
  fault : kind = .error → ∃ m ∈ ms, m.isFault = true
  fits : kind ≠ .error → (all (contents kind)).Matches ms
  entries : kind ∈ [.struct, .array] → (Entries.among ms).kind = kind

/-- Most nodes only have to match their pattern. -/
theorem formed_of_regular
    {kind : Kind}
    {ms : List (Marked Kind)}
    (hkind : kind ∉ [.error, .struct, .array])
    (h : Regular Formed (contents kind) ms) :
    Formed kind ms where
  fault := fun heq => absurd hkind (by simp [heq])
  fits := fun _ => h.fits
  entries := fun hmem => absurd hkind (by simp [List.mem_cons_of_mem _ hmem])

theorem formed_error
    {ms : List (Marked Kind)}
    (hfault : ∃ m ∈ ms, m.isFault = true) :
    Formed .error ms :=
  ⟨fun _ => hfault, fun hne => absurd rfl hne, fun hmem => by simp at hmem⟩

/-! ## Entries among children -/

/-- One more entry. -/
theorem Entries.among_append_entry
    (ms : List (Marked Kind))
    (children : List (Marked Kind)) :
    Entries.among (ms ++ [.node .entry children]) = (among ms).add (isKeyed children) := by
  cases h : isKeyed children <;> simp [among, isEntry, Entries.add, h]

/-- Nothing but entries counts. -/
theorem Entries.among_append_of_sign
    (ms : List (Marked Kind))
    {ns : List (Marked Kind)}
    (h : ∀ m ∈ ns, m.sign ≠ .node .entry) :
    Entries.among (ms ++ ns) = among ms := by
  have hnone : ∀ named, ns.any (isEntry named) = false := by
    intro named
    refine List.any_eq_false.mpr fun m hm hentry => h m hm ?_
    unfold isEntry at hentry
    split at hentry
    · rfl
    · simp at hentry
  simp [among, hnone]

/-! ## Entries seen from inside -/

theorem matches_keyContents_iff {ms : List (Marked Kind)} :
    (all keyContents).Matches ms ↔
      ∃ name, ms = [.leaf (.lexeme .dot), .node .ident name, .leaf (.lexeme .eq)] := by
  simp only [keyContents, matches_all_cons_iff, matches_tokens_iff, matches_nodes_iff,
    matches_all_nil_iff, List.mem_singleton]
  constructor
  · rintro ⟨_, _, rfl, ⟨_, rfl, rfl⟩, _, _, rfl, ⟨_, name, rfl, rfl⟩, _, _, rfl, ⟨_, rfl, rfl⟩, rfl⟩
    exact ⟨name, rfl⟩
  · rintro ⟨name, rfl⟩
    exact ⟨[_], _, rfl, ⟨_, rfl, rfl⟩, [_], _, rfl, ⟨_, _, rfl, rfl⟩, [_], [], rfl, ⟨_, rfl, rfl⟩,
      rfl⟩

/-- An entry is a value, behind a key or not. -/
theorem exists_of_matches_entry
    {ms : List (Marked Kind)}
    (h : (all (contents .entry)).Matches ms) :
    ∃ kind children, kind ∈ valueKinds ∧
      (ms = [.node kind children] ∨
        ∃ name, ms =
          [.leaf (.lexeme .dot), .node .ident name, .leaf (.lexeme .eq), .node kind children]) := by
  obtain ⟨xs, ys, rfl, hxs, hys⟩ := matches_all_cons_iff.mp h
  obtain ⟨kind, children, rfl, hkind⟩ := matches_nodes_iff.mp (matches_all_singleton_iff.mp hys)
  refine ⟨kind, children, hkind, ?_⟩
  rcases matches_perhaps_iff.mp hxs with rfl | hxs
  · exact .inl rfl
  · obtain ⟨name, rfl⟩ := matches_keyContents_iff.mp hxs
    exact .inr ⟨name, rfl⟩

theorem isKeyed_of_matches
    {Ps : List (Pattern Kind)}
    {ms : List (Marked Kind)}
    (h : (all (keyContents ++ Ps)).Matches ms) :
    isKeyed ms = true := by
  obtain ⟨xs, ys, rfl, hxs, -⟩ := matches_all_append_iff.mp h
  obtain ⟨name, rfl⟩ := matches_keyContents_iff.mp hxs
  simp [isKeyed, Marked.sign]

theorem not_isKeyed_of_matches
    {kinds : List Kind}
    {ms : List (Marked Kind)}
    (h : (all [nodes kinds]).Matches ms) :
    isKeyed ms = false := by
  obtain ⟨kind, children, rfl, -⟩ := matches_nodes_iff.mp (matches_all_singleton_iff.mp h)
  simp [isKeyed, Marked.sign]

/-! ## Parsers of nodes -/

open ZigCst.Parser

section Nodes

variable {c : Cursor Kind}

theorem forms_kind
    {kind : Kind}
    {body : Parser Kind Unit}
    (hkind : kind ∉ [.error, .struct, .array])
    (hbody : body.Forms Formed c fun _ => contents kind) :
    (discard (node kind body) : Parser Kind Unit).Forms Formed c fun _ => [nodes [kind]] :=
  (forms_node hbody fun _ hms => formed_of_regular hkind hms).discard

theorem forms_identifier (hpeek : c.peek = .identifier) :
    (identifier : Parser Kind Unit).Forms Formed c fun _ => [nodes [.ident]] :=
  forms_kind (by decide) (forms_advance hpeek (by decide))

theorem forms_negative (hpeek : c.peek = .minus) :
    (negative : Parser Kind Unit).Forms Formed c fun _ => [nodes [.number]] := by
  refine forms_kind (by decide) (.there ((forms_advance hpeek (by decide)).seq fun _ c => ?_))
  have hdigits : ∀ c : Cursor Kind, c.peek ∈ [.integer, .float] →
      (advance : Parser Kind Unit).Forms Formed c
        fun _ => [any [tokens [.integer, .float], Pattern.fault]] := fun c hpeek =>
    (forms_advance_mem hpeek (by decide)).choose List.mem_cons_self
  refine forms_eat_bind (fun hinteger => ?_) fun _ => forms_eat_bind (fun hfloat => ?_) fun _ => ?_
  · exact (hdigits c (by simp [hinteger])).seq fun _ _ => forms_pure _ rfl
  · exact (hdigits c (by simp [hfloat])).seq fun _ _ => forms_pure _ rfl
  · exact (forms_report rfl).choose (by simp)

end Nodes

section Containers

variable
  {value : KindSet Kind → Parser Kind Unit}
  (h : ∀ recovery c, (value recovery).Forms Formed c fun _ => [nodes valueKinds])
  {c : Cursor Kind}
include h

/-- An entry has an equals sign exactly if it is named. -/
theorem draws_entry (others : List (Marked Kind)) :
    (entry value).Draws ⟨c, others⟩ fun named t =>
      ∃ children, t.children = .node .entry children :: others ∧ isKeyed children = named ∧
        (Shape.node .entry children : Marked Kind).Everywhere Formed := by
  refine (draws_bind_of_eq (nthAt_cursor 0 _)).mpr <| (draws_bind_of_eq (nthAt_cursor 1 _)).mpr <|
    (draws_bind_of_eq (nthAt_cursor 2 _)).mpr ?_
  generalize hnamed : (c.nth 0 == .dot && c.nth 1 == .identifier && c.nth 2 == .eq) = named
  refine Draws.bind (P := fun _ t => ∃ children, t.children = .node .entry children :: others ∧
    isKeyed children = named ∧ (Shape.node .entry children : Marked Kind).Everywhere Formed) ?_
    fun _ t ht => draws_pure ht
  refine draws_discard (draws_nodeOf ?_)
  cases named with
  | true =>
      simp only [Bool.and_eq_true, beq_iff_eq] at hnamed
      obtain ⟨⟨hdot, hname⟩, heq⟩ := hnamed
      have hbody : (do
          advance
          identifier
          advance
          value entryRecovery : Parser Kind Unit).Forms Formed c
            fun _ => keyContents ++ [nodes valueKinds] := by
        refine forms_advance_bind hdot (by decide) ?_
        rw [← Cursor.nth_next hdot (by decide)] at hname heq
        refine (forms_identifier hname).seq_at cursor_advance fun _ => ?_
        rw [← Cursor.nth_next hname (by decide)] at heq
        exact forms_advance_bind heq (by decide) (h _ _)
      refine (hbody []).bind fun _ t ⟨ms, hms, hregular⟩ => draws_pure ?_
      refine ⟨ms, by simp [hms], isKeyed_of_matches hregular.fits, ?_⟩
      refine Shape.everywhere_node_iff.mpr ⟨formed_of_regular (by decide) ?_, hregular.everywhere⟩
      exact hregular.there
  | false =>
      refine (h entryRecovery c []).bind fun _ t ⟨ms, hms, hregular⟩ => draws_pure ?_
      refine ⟨ms, by simp [hms], not_isKeyed_of_matches hregular.fits, ?_⟩
      exact Shape.everywhere_node_iff.mpr
        ⟨formed_of_regular (by decide) hregular.missing, hregular.everywhere⟩

omit h in
/-- A comma, unless the entries end here. -/
theorem forms_afterEntry (s : Entries) :
    (do
      if ← eat .comma then return (true, s)
      if (← at_ .rightBrace) || (← atEnd) then return (false, s)
      report .expectedEntryComma
      return (true, s) : Parser Kind (Bool × Entries)).Forms Formed c
        fun _ => [perhaps [expected .comma]] := by
  refine forms_eat_bind (fun hpeek => ?_) fun _ => ?_
  · exact .there (.expected ((forms_advance hpeek (by decide)).seq fun _ _ => forms_pure _ rfl))
  refine forms_at_bind.mpr (forms_atEnd_bind.mpr (Forms.ite (fun _ => ?_) fun _ => ?_))
  · exact .missing (forms_pure _ rfl)
  · exact .there (.faulty ((forms_report rfl).seq fun _ _ => forms_pure _ rfl))

omit h in
theorem gives_afterEntry (s : Entries) :
    (do
      if ← eat .comma then return (true, s)
      if (← at_ .rightBrace) || (← atEnd) then return (false, s)
      report .expectedEntryComma
      return (true, s) : Parser Kind (Bool × Entries)).Gives fun r => r.2 = s :=
  gives_bind fun _ => Gives.ite (gives_pure rfl) <| gives_bind fun _ => gives_bind fun _ =>
    Gives.ite (gives_pure rfl) (gives_bind fun _ => gives_pure rfl)

/-- A round adds an entry to those that were found. -/
theorem draws_entryAndComma
    (s : Entries)
    (others : List (Marked Kind)) :
    (entryAndComma value s).Draws ⟨c, others⟩ fun r t =>
      ∃ ns, t.children = ns.reverse ++ others ∧ Regular Formed [entryContents] ns ∧
        ∀ ms, s = Entries.among ms → r.2 = Entries.among (ms ++ ns) := by
  refine (draws_bind_of_eq (nthAt_cursor 0 _)).mpr ((draws_bind_of_eq rfl).mpr ?_)
  split
  · exact draws_pure ⟨[], rfl, Regular.nil.missing, fun ms hs => by simpa using hs⟩
  refine (draws_bind_of_eq (nthAt_cursor 0 _)).mpr ?_
  split
  · refine (forms_bump (fun _ hfault _ => formed_error hfault) rfl others).bind ?_
    rintro _ t ⟨ns, hns, hregular⟩
    refine draws_pure ⟨ns, hns, ?_, fun ms hs => ?_⟩
    · exact (hregular.choose List.mem_cons_self).there
    · rw [Entries.among_append_of_sign, hs]
      intro m hm hsign
      have hmem := sign_mem_signs hregular.fits m hm
      simp [hsign, all, nodes, oneOf, signs] at hmem
  refine (draws_entry h others).bind ?_
  rintro named t ⟨children, ht, hnamed, hentry⟩
  have hnode : Regular Formed [nodes [.entry]] [.node .entry children] :=
    .oneOf (List.mem_singleton.mpr rfl) hentry
  refine (forms_afterEntry (s.add named) t.children).outcome.mono ?_
  rintro r u ⟨rfl, -, ns, hns, hregular⟩
  refine ⟨.node .entry children :: ns, by simp [hns, ht], ?_, fun ms hs => ?_⟩
  · exact Regular.there ((hnode.append hregular).group.choose (by simp))
  · have hsigns : ∀ m ∈ ns, m.sign ≠ .node .entry := by
      intro m hm hsign
      have hmem := sign_mem_signs hregular.fits m hm
      simp [hsign, all, perhaps, expected, oneOf, signs] at hmem
    rw [gives_afterEntry _ t.cursor, List.append_cons, Entries.among_append_of_sign _ hsigns,
      Entries.among_append_entry, ← hs, hnamed]

omit h in
/-- Containers consist of the same parts whatever their entries are. -/
theorem Entries.contents_kind (s : Entries) :
    s.kind ∈ [.struct, .array] ∧ contents s.kind = containerContents := by
  unfold Entries.kind
  split
  · exact ⟨by decide, rfl⟩
  · exact ⟨by decide, rfl⟩

/-- The flags of a container know of all its entries. -/
theorem draws_containerBody
    (hpeek : c.peek = .dot)
    (hnext : c.nth 1 = .leftBrace) :
    (containerBody value).Draws ⟨c, []⟩ fun kind t =>
      kind ∈ [.struct, .array] ∧ Formed kind t.children.reverse ∧
        ∀ m ∈ t.children.reverse, m.Everywhere Formed := by
  rw [← Cursor.nth_next hpeek (by decide) 0] at hnext
  refine Draws.bind (P := fun _ t => t = ⟨c.next, [.leaf (.lexeme .dot)]⟩)
    (draws_advance_peek hpeek (by decide) rfl) ?_
  rintro _ _ rfl
  refine Draws.bind
    (P := fun _ t => t.children = [.leaf (.lexeme .dot), .leaf (.lexeme .leftBrace)].reverse)
    (draws_advance_peek hnext (by decide) rfl) fun _ t ht => ?_
  have hstart : Regular Formed [tokens [.dot], tokens [.leftBrace], many [entryContents]]
      [.leaf (.lexeme .dot), .leaf (.lexeme .leftBrace)] :=
    (Regular.lexeme (List.mem_singleton.mpr rfl)).append
      ((Regular.lexeme (List.mem_singleton.mpr rfl)).append .many_nil)
  refine Draws.bind (P := fun s u => ∃ ms, u.children = ms.reverse ∧
    Regular Formed [tokens [.dot], tokens [.leftBrace], many [entryContents]] ms ∧
      s = Entries.among ms) ?_ ?_
  · refine Draws.iterate (I := fun s u => ∃ ms, u.children = ms.reverse ∧
      Regular Formed [tokens [.dot], tokens [.leftBrace], many [entryContents]] ms ∧
        s = Entries.among ms) ?_ ⟨_, ht, hstart, rfl⟩
    rintro s u ⟨ms, hms, hregular, hs⟩
    refine (draws_entryAndComma h s u.children).mono fun r v ⟨ns, hns, hround, hentries⟩ => ?_
    have hmore : ∃ ms, v.children = ms.reverse ∧
        Regular Formed [tokens [.dot], tokens [.leftBrace], many [entryContents]] ms ∧
          r.2 = Entries.among ms :=
      ⟨ms ++ ns, by simp [hns, hms],
        Regular.many_append [tokens [Kind.dot], tokens [.leftBrace]] hregular hround,
        hentries ms hs⟩
    exact ⟨fun _ => hmore, fun _ => hmore⟩
  · rintro s u ⟨ms, hms, hregular, hs⟩
    have hexpect : (expect .rightBrace : Parser Kind Unit).Forms Formed u.cursor
        fun _ => [expected .rightBrace] := forms_expect (by decide)
    refine (hexpect u.children).bind fun _ v ⟨ns, hns, hbrace⟩ => draws_pure ?_
    have hchildren : v.children.reverse = ms ++ ns := by simp [hns, hms]
    have hall := hregular.append hbrace
    obtain ⟨hkind, hcontents⟩ := s.contents_kind
    rw [hchildren]
    refine ⟨hkind, ⟨fun heq => ?_, fun _ => hcontents ▸ hall.fits, fun _ => ?_⟩, hall.everywhere⟩
    · simp [heq] at hkind
    · rw [Entries.among_append_of_sign, hs]
      intro m hm hsign
      have hmem := sign_mem_signs hbrace.fits m hm
      simp [hsign, all, expected, oneOf, signs] at hmem

theorem forms_container
    (hpeek : c.peek = .dot)
    (hnext : c.nth 1 = .leftBrace) :
    (container value).Forms Formed c fun _ => [nodes [.struct, .array]] := by
  refine Forms.discard fun others => draws_nodeOf ?_
  refine (draws_containerBody h hpeek hnext).mono fun kind t ⟨hkind, hformed, heverywhere⟩ => ?_
  exact ⟨[.node kind t.children.reverse], rfl, .nodes hkind hformed heverywhere⟩

theorem forms_valueWith (recovery : KindSet Kind) :
    (valueWith value recovery).Forms Formed c fun _ => [nodes valueKinds] := by
  have hrecover : (recover .expectedValue recovery : Parser Kind Unit).Forms Formed c
      fun _ => [nodes valueKinds] :=
    (forms_recover (fun _ hfault _ => formed_error hfault) rfl recovery).nodes_subset (by decide)
  have hnumber : c.peek ∈ [.integer, .float] →
      (discard (node .number advance) : Parser Kind Unit).Forms Formed c
        fun _ => [nodes valueKinds] := fun hpeek =>
    (forms_kind (by decide) (.missing ((forms_advance_mem hpeek (by decide)).choose
      List.mem_cons_self))).nodes_subset (by decide)
  rw [valueWith, forms_peek_bind]
  split
  · rename_i hpeek
    rw [forms_nth_bind]
    split
    · exact (forms_container h hpeek ‹_›).nodes_subset (by decide)
    · rename_i hname
      rw [← Cursor.nth_next hpeek (by decide)] at hname
      exact (forms_kind (by decide) (forms_advance_bind hpeek (by decide)
        (forms_identifier hname))).nodes_subset (by decide)
    · exact hrecover
  · exact (forms_kind (by decide) ((forms_advance ‹_› (by decide)).choose
      List.mem_cons_self)).nodes_subset (by decide)
  · exact (forms_kind (by decide) ((forms_repeatWhile fun _ => forms_eat (by decide)).choose
      (by simp))).nodes_subset (by decide)
  · exact (forms_kind (by decide) (forms_advance ‹_› (by decide))).nodes_subset (by decide)
  · exact hnumber (by simp [*])
  · exact hnumber (by simp [*])
  · exact (forms_negative ‹_›).nodes_subset (by decide)
  · exact (forms_identifier ‹_›).nodes_subset (by decide)
  · exact hrecover

end Containers

/-- A value is one node, at every depth. -/
theorem forms_value
    (depth : Nat)
    (recovery : KindSet Kind)
    (c : Cursor Kind) :
    (value depth recovery).Forms Formed c fun _ => [nodes valueKinds] := by
  induction depth generalizing recovery c with
  | zero => exact (forms_tooDeep fun _ hfault _ => formed_error hfault).nodes_subset (by decide)
  | succ depth ih => exact forms_valueWith ih recovery

/-! ## Files -/

theorem forms_remains (c : Cursor Kind) :
    (remains : Parser Kind Unit).Forms Formed c fun _ => [nodes [.error]] := by
  have htaken : (do
      advance
      return !(← atEnd) : Parser Kind Bool).Strews :=
    strews_advance.bind fun _ => strews_atEnd.bind fun _ => strews_pure _
  refine Forms.discard (forms_error (fun _ hfault _ => formed_error hfault) ?_)
  exact draws_report_strews rfl (strews_iterate (fun _ => htaken.bind fun _ => strews_pure _) ())

/-- Where something is left, a file has a value. -/
theorem forms_document (c : Cursor Kind) :
    document.Forms Formed c fun _ => documentContents c.kinds.isEmpty := by
  refine forms_atEnd_bind.mpr ?_
  cases hempty : c.kinds.isEmpty with
  | true =>
      have hend : (do unless ← atEnd do remains : Parser Kind Unit).Forms Formed c fun _ => [] := by
        rw [forms_atEnd_bind, hempty]
        exact forms_pure _ rfl
      exact (forms_report rfl).seq_at rfl fun _ => hend
  | false =>
      refine (forms_value maxDepth .empty c).seq fun _ c => forms_atEnd_bind.mpr ?_
      exact Forms.ite (fun _ => .missing (forms_pure _ rfl)) fun _ => .there (forms_remains c)

/-- Every file has a tree in which all nodes obey the rule, and its errors are the faults
of that tree.  A value is missing exactly if nothing is left of the text without blanks
and comments. -/
theorem exists_marked_file (text : Text) :
    ∃ p children,
      parse? text = some p ∧
      p.root.Keeps .file text (lex text) ∧
      (Shape.node .file children : Marked Kind).Everywhere Formed ∧
      (all (fileContents (significantKinds (lex text)).isEmpty)).Matches children ∧
      Marked.plain? (.node .file children) = some p.root.outline ∧
      p.diagnostics.countP (fun d => d.severity == .error) =
        (Marked.faults (.node .file children)).length := by
  have hdraws : ∀ c, document.Draws ⟨c, []⟩ fun _ t =>
      Regular Formed (documentContents c.kinds.isEmpty) t.children.reverse := fun c =>
    (forms_document c []).mono fun _ t ⟨ms, hms, hregular⟩ => by
      rwa [hms, List.append_nil, List.reverse_reverse]
  obtain ⟨p, ms, hp, hkeeps, hms, houtline, hfaults, hseverity⟩ :=
    @exists_marked Kind _ _ _ read _ .file
      (fun c => Regular Formed (documentContents c.kinds.isEmpty)) (by decide)
      ends_document hdraws text
  have hkinds : (Cursor.ofList (significant (tokensWith read text))).kinds =
      significantKinds (lex text) := map_kind_significant read text
  have heof : Regular Formed [tokens [.eof]] [.leaf (.lexeme .eof)] :=
    .lexeme (List.mem_singleton.mpr rfl)
  have hfile : Regular Formed (fileContents (significantKinds (lex text)).isEmpty)
      (ms ++ [Shape.leaf (Mark.lexeme Kind.eof)]) := by
    rw [hkinds] at hms
    exact hms.append heof
  have hformed : Regular Formed (contents .file) (ms ++ [Shape.leaf (Mark.lexeme Kind.eof)]) :=
    hfile.group.choose (by cases (significantKinds (lex text)).isEmpty <;> simp)
  refine ⟨_, ms ++ [Shape.leaf (Mark.lexeme Kind.eof)], parse?_of_ofGrammar? hp, hkeeps, ?_,
    hfile.fits, ?_, ?_⟩
  · exact Shape.everywhere_node_iff.mpr ⟨formed_of_regular (by decide) hformed, hformed.everywhere⟩
  · rw [houtline, Marked.plain?_node, List.filterMap_append]
    rfl
  · have herrors : p.diagnostics.countP (fun d => d.severity == .error) = p.diagnostics.length :=
      List.countP_eq_length.mpr fun d hd => by simp [hseverity d hd]
    have hwarnings : (duplicateWarnings p.root).countP (fun d => d.severity == .error) = 0 :=
      List.countP_eq_zero.mpr fun d hd => by simp [severity_of_mem_duplicateWarnings hd]
    have hlengths := congrArg List.length hfaults
    rw [List.countP_append, herrors, hwarnings]
    simpa using hlengths

end Zon
end ZigCst
