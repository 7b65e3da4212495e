import ZigCst.Proofs.ZonTruncation

/-!
# The language of Zon

The parser reports no error exactly for the texts whose significant kinds are a value,
and then its tree is the tree of the derivation.  What is parsed without a report is
derivable by induction on the depth.  What is derivable is written down with its deep
values cut off, and a derivation has no values deeper than it nests.

**Results.**
* `reads_value`: a value that is parsed without a report is derivable.
* `ends_document_accepts`: a derivable value is parsed without a report.
* `parse?_accepts_iff`: a whole file is accepted exactly if it is a value.
-/

namespace ZigCst
namespace Zon

open ZigCst.Parser

/-! ## Names of entries -/

section Names

theorem ends_identifier_adds
    {s : Site Kind}
    {kind : Kind}
    {rest : List Kind}
    (h : s.kinds = kind :: rest) :
    (identifier : Parser Kind Unit).Ends s fun _ t => s.Adds [kind] [.node .ident [.leaf kind]] t :=
  ends_node_adds (by decide) (ends_advance_adds h)

theorem named_iff {s : Site Kind} :
    (s.peek == .dot && s.nth 1 == .identifier && s.nth 2 == .eq) = true ↔
      ∃ rest, s.kinds = [Kind.dot, Kind.identifier, Kind.eq] ++ rest :=
  nth_named_iff

/-- The name of an entry is taken before its value. -/
theorem ends_name_bind
    {s : Site Kind}
    {rest : List Kind}
    {next : Parser Kind Unit}
    {Q : Unit → Site Kind → Prop}
    (h : s.kinds = [Kind.dot, Kind.identifier, Kind.eq] ++ rest)
    (hnext : ∀ t, s.Adds [.dot, .identifier, .eq]
      [.leaf .dot, .node .ident [.leaf .identifier], .leaf .eq] t → next.Ends t Q) :
    (do
      advance
      identifier
      advance
      next : Parser Kind Unit).Ends s Q := by
  refine (ends_advance_adds h).bind fun _ t ht => ?_
  refine (ends_identifier_adds (ht.kinds_eq h)).bind fun _ u hu => ?_
  have hsu := ht.trans hu
  refine (ends_advance_adds (hsu.kinds_eq h)).bind fun _ v hv => ?_
  exact hnext v (hsu.trans hv)

end Names

/-! ## What is read without a report is derivable -/

section Reading

/-- Whatever a parser of values reads without a report is a value. -/
def Reads (n : Nat) (value : KindSet Kind → Parser Kind Unit) : Prop :=
  ∀ (recovery : KindSet Kind) (s : Site Kind), (value recovery).Ends s fun _ t =>
    t.reports = s.reports → ∃ kinds tree, Rule.Value n kinds tree ∧ s.Adds kinds [tree] t

section Entries

variable {n : Nat} {value : KindSet Kind → Parser Kind Unit} (h : Reads n value)
include h

theorem ends_entry_reads (s : Site Kind) :
    (entry value).Ends s fun named t =>
      t.reports = s.reports →
        ∃ kinds tree, Rule.Entry n kinds named tree ∧ s.Adds kinds [tree] t := by
  rw [entry, routine_eq, ends_at_bind, ends_nthAt_bind, ends_nthAt_bind]
  cases hnamed : (s.peek == .dot && s.nth 1 == .identifier && s.nth 2 == .eq) with
  | false =>
      have hnode : (discard (node .entry (value entryRecovery)) : Parser Kind Unit).Ends s
          fun _ t => t.reports = s.reports →
            ∃ kinds tree, Rule.Entry n kinds false tree ∧ s.Adds kinds [tree] t := by
        refine ends_discard (ends_node (by decide) ?_)
        refine (h entryRecovery s.opened).mono fun _ t ht hquiet => ?_
        obtain ⟨kinds, tree, hvalue, hadds⟩ := ht hquiet
        exact ⟨kinds, _, .positional hvalue, hadds.closed⟩
      exact hnode.bind fun _ _ ht => ends_pure ht
  | true =>
      obtain ⟨rest, hrest⟩ := named_iff.mp hnamed
      have hnode : (discard (node .entry do
          advance
          identifier
          advance
          value entryRecovery) : Parser Kind Unit).Ends s
          fun _ t => t.reports = s.reports →
            ∃ kinds tree, Rule.Entry n kinds true tree ∧ s.Adds kinds [tree] t := by
        have hopened : s.opened.kinds = [Kind.dot, Kind.identifier, Kind.eq] ++ rest := hrest
        refine ends_discard (ends_node (by decide) (ends_name_bind hopened fun t ht => ?_))
        refine (h entryRecovery t).mono fun _ u hu hquiet => ?_
        obtain ⟨kinds, tree, hvalue, hadds⟩ := hu (hquiet.trans ht.reports.symm)
        exact ⟨_, _, .named hvalue, (ht.trans hadds).closed⟩
      exact hnode.bind fun _ _ ht => ends_pure ht

/-- One turn of the loop that reports nothing takes nothing, or an entry with the
comma after it, or an entry before the end of the container. -/
theorem ends_entryAndComma_reads
    (hvalue : ValueSound value)
    (entries : Entries)
    (s : Site Kind) :
    (entryAndComma value entries).Ends s fun r t =>
      t.reports = s.reports →
        (r = (false, entries) ∧ s.Adds [] [] t) ∨
          ∃ kinds named tree, Rule.Entry n kinds named tree ∧ r.2 = entries.add named ∧
            (r.1 = true → s.Adds (kinds ++ [Kind.comma]) ([tree] ++ [Shape.leaf Kind.comma]) t) ∧
            (r.1 = false → s.Adds kinds [tree] t) := by
  rw [entryAndComma, ends_at_bind, ends_atEnd_bind]
  split
  · exact ends_pure fun _ => .inl ⟨rfl, .refl s⟩
  rename_i hend
  have hbrace : s.peek ≠ .rightBrace := by simp_all
  have hleft : 0 < s.left := Site.left_pos_iff.mpr (by simp_all)
  rw [ends_at_bind]
  split
  · refine (faults_bump _ s).bind fun _ t ht => ends_pure fun hquiet => ?_
    have hfault := ht.2
    omega
  rename_i hcomma
  have hentry := ends_entry hvalue hleft (by simpa using hcomma) hbrace
  refine (hentry.and (ends_entry_reads h s)).bind fun named t ht => ?_
  have hreports := ht.1.1.reports
  refine Ends.bind (P := fun found u =>
    (found = true ∧ u = t.advanced ∧ t.peek = .comma) ∨ (found = false ∧ u = t))
    (ends_eat (fun hpeek => .inl ⟨rfl, rfl, hpeek⟩) fun _ => .inr ⟨rfl, rfl⟩) ?_
  rintro found u (⟨rfl, rfl, hpeek⟩ | ⟨rfl, rfl⟩)
  · obtain ⟨rest, hrest⟩ := Site.exists_kinds_of_peek hpeek (by decide)
    have hadvanced := Site.Adds.advanced hrest
    refine ends_pure fun hquiet => .inr ?_
    obtain ⟨kinds, tree, hrule, hadds⟩ := ht.2 (hadvanced.reports.symm.trans hquiet)
    exact ⟨kinds, named, tree, hrule, rfl, fun _ => hadds.trans hadvanced, by simp⟩
  · simp only [Bool.false_eq_true, if_false, ends_at_bind, ends_atEnd_bind]
    split
    · refine ends_pure fun hquiet => .inr ?_
      obtain ⟨kinds, tree, hrule, hadds⟩ := ht.2 hquiet
      exact ⟨kinds, named, tree, hrule, rfl, by simp, fun _ => hadds⟩
    · refine ends_report_bind (ends_pure fun hquiet => ?_)
      have hfault : u.faulted.reports = u.reports + 1 := rfl
      omega

/-- A loop that reports nothing takes nothing, or entries. -/
theorem ends_entries_reads
    (hvalue : ValueSound value)
    (entries : Entries)
    (s : Site Kind) :
    (iterate (entryAndComma value) entries).Ends s fun after t =>
      s.Grows t ∧
        (t.reports = s.reports →
          (after = entries ∧ s.Adds [] [] t) ∨
            ∃ kinds named trees, Rule.Entries n kinds named trees ∧ s.Adds kinds trees t ∧
              entries.Tallies after named) := by
  have hturn := (turns_entryAndComma hvalue entries s).and
    (ends_entryAndComma_reads h hvalue entries s)
  refine ends_iterate (hturn.mono fun r t ht => ⟨fun hagain => ?_, fun hlast => ?_⟩)
  · -- The rest of the entries is read from where the turn ended.
    have hleft := ht.1.2 hagain
    refine ⟨hleft, (ends_entries_reads hvalue r.2 t).mono fun after u hu => ?_⟩
    refine ⟨ht.1.1.trans hu.1, fun hquiet => ?_⟩
    have hst := ht.1.1.reports
    have htu := hu.1.reports
    rcases ht.2 (by omega) with ⟨hr, -⟩ | ⟨kinds, named, tree, hentry, hadd, hadds, -⟩
    · rw [hr] at hagain
      exact absurd hagain Bool.false_ne_true
    · refine .inr ?_
      rw [hadd] at hu
      rcases hu.2 (by omega) with ⟨rfl, hnone⟩ | ⟨more, others, trees, hmore, hadds', htally⟩
      · have hall := (hadds hagain).trans hnone
        rw [List.append_nil, List.append_nil] at hall
        exact ⟨_, named, _, .last hentry, hall, entries.tallies_add named⟩
      · have hall := (hadds hagain).trans hadds'
        rw [List.append_assoc, List.append_assoc] at hall
        exact ⟨_, _, _, .cons hentry hmore, hall, htally.of_add⟩
  · refine ⟨ht.1.1, fun hquiet => ?_⟩
    rcases ht.2 hquiet with ⟨hr, hnone⟩ | ⟨kinds, named, tree, hentry, hadd, -, hadds⟩
    · exact .inl ⟨by rw [hr], hnone⟩
    · refine .inr ⟨kinds, named, [tree], .one hentry, hadds hlast, ?_⟩
      rw [hadd]
      exact entries.tallies_add named
termination_by s.left

/-- A container that is read without a report. -/
theorem ends_container_reads
    (hvalue : ValueSound value)
    {s : Site Kind}
    {rest : List Kind}
    (hkinds : s.kinds = [Kind.dot, Kind.leftBrace] ++ rest) :
    (container value).Ends s fun _ t =>
      t.reports = s.reports →
        ∃ kinds tree, Rule.Value (n + 1) kinds tree ∧ s.Adds kinds [tree] t := by
  have hopened : s.opened.kinds = [Kind.dot, Kind.leftBrace] ++ rest := hkinds
  refine ends_discard (ends_nodeOf ?_)
  refine (ends_advance_adds hopened).bind fun _ t ht => ?_
  refine (ends_advance_adds (ht.kinds_eq hopened)).bind fun _ u hu => ?_
  have hbraces := ht.trans hu
  refine (ends_entries_reads h hvalue ⟨false, false⟩ u).bind fun after v hv => ?_
  have huv := hv.1.reports
  have hkind := after.kind_ne_tombstone
  refine Ends.bind (P := fun _ w => (v.peek = .rightBrace ∧ w = v.advanced) ∨ w = v.faulted)
    (ends_expect (fun hpeek => .inl ⟨hpeek, rfl⟩) fun _ => .inr rfl) ?_
  rintro _ w (⟨hpeek, rfl⟩ | rfl)
  · obtain ⟨rest, hrest⟩ := Site.exists_kinds_of_peek hpeek (by decide)
    have hadvanced := Site.Adds.advanced hrest
    refine ends_pure ⟨hkind, fun hquiet => ?_⟩
    have hquiet' : v.advanced.reports = s.reports := hquiet
    have hreports : v.reports = u.reports :=
      (hadvanced.reports.symm.trans hquiet').trans hbraces.reports.symm
    rcases hv.2 hreports with ⟨rfl, hnone⟩ | ⟨kinds, named, trees, hentries, hadds, htally⟩
    · have hall := (hbraces.trans hnone).trans hadvanced
      exact ⟨_, _, .empty n, hall.closed⟩
    · have hall := (hbraces.trans hadds).trans hadvanced
      rw [List.append_assoc, List.append_assoc] at hall
      rw [htally.kind_eq]
      exact ⟨_, _, .container hentries, hall.closed⟩
  · refine ends_pure ⟨hkind, fun hquiet => ?_⟩
    have hfault : v.reports + 1 = s.reports := hquiet
    have hreports : u.reports = s.reports := hbraces.reports
    omega

end Entries

/-- A minus that is read without a report is followed by a number. -/
theorem ends_negative_reads
    {s : Site Kind}
    {rest : List Kind}
    (hkinds : s.kinds = .minus :: rest) :
    (negative : Parser Kind Unit).Ends s fun _ t =>
      t.reports = s.reports →
        ∃ kind, (kind = .integer ∨ kind = .float) ∧
          s.Adds [.minus, kind] [.node .number [.leaf .minus, .leaf kind]] t := by
  refine ends_discard (ends_node (by decide) ?_)
  have hopened : s.opened.kinds = .minus :: rest := hkinds
  refine (ends_advance_adds hopened).bind fun _ t ht => ?_
  have hfound : ∀ kind : Kind, (kind = .integer ∨ kind = .float) → t.peek = kind →
      ∃ kind, (kind = .integer ∨ kind = .float) ∧
        s.Adds [.minus, kind] [.node .number [.leaf .minus, .leaf kind]]
          (s.closed t.advanced .number) := by
    intro kind hkind hpeek
    have hend : kind ≠ .eof := by
      rcases hkind with rfl | rfl <;> decide
    obtain ⟨rest, hrest⟩ := Site.exists_kinds_of_peek hpeek hend
    exact ⟨kind, hkind, (ht.trans (.advanced hrest)).closed⟩
  refine Ends.bind (P := fun found u =>
    (found = true ∧ u = t.advanced ∧ t.peek = .integer) ∨ (found = false ∧ u = t))
    (ends_eat (fun hpeek => .inl ⟨rfl, rfl, hpeek⟩) fun _ => .inr ⟨rfl, rfl⟩) ?_
  rintro found u (⟨rfl, rfl, hpeek⟩ | ⟨rfl, rfl⟩)
  · exact ends_pure fun _ => hfound .integer (.inl rfl) hpeek
  refine Ends.bind (P := fun found v =>
    (found = true ∧ v = u.advanced ∧ u.peek = .float) ∨ (found = false ∧ v = u))
    (ends_eat (fun hpeek => .inl ⟨rfl, rfl, hpeek⟩) fun _ => .inr ⟨rfl, rfl⟩) ?_
  rintro found v (⟨rfl, rfl, hpeek⟩ | ⟨rfl, rfl⟩)
  · exact ends_pure fun _ => hfound .float (.inr rfl) hpeek
  · refine ends_report fun hquiet => ?_
    have hfault : v.reports + 1 = s.reports := hquiet
    have hreports : v.reports = s.reports := ht.reports
    omega

/-- A run of line strings is taken as a whole. -/
theorem ends_lines_adds
    {s : Site Kind}
    (hpeek : s.peek = .lineString) :
    (discard (node .stringLiteral (repeatWhile (eat .lineString))) : Parser Kind Unit).Ends s
      fun _ t => ∃ m,
        s.Adds (List.replicate (m + 1) .lineString)
          [.node .stringLiteral (List.replicate (m + 1) (.leaf .lineString))] t ∧
        t.peek ≠ .lineString := by
  refine ends_discard (ends_node (by decide) ?_)
  refine (ends_repeatWhile_eat (by decide) s.opened).mono fun _ t ht => ?_
  obtain ⟨m, hadds, hstop⟩ := ht
  cases m with
  | zero =>
      have hkinds : s.kinds = t.kinds := hadds.kinds
      rw [Site.peek, Site.nth, hkinds] at hpeek
      exact absurd hpeek hstop
  | succ m => exact ⟨m, hadds.closed, hstop⟩

theorem reads_valueWith
    {n : Nat}
    {value : KindSet Kind → Parser Kind Unit}
    (hvalue : ValueSound value)
    (h : Reads n value) :
    Reads (n + 1) (valueWith value) := by
  intro recovery s
  have htoken : ∀ {kind tree : Kind}, tree ≠ .tombstone → s.peek = kind → kind ≠ .eof →
      Rule.Value (n + 1) [kind] (.node tree [.leaf kind]) →
      (discard (node tree advance) : Parser Kind Unit).Ends s fun _ t =>
        t.reports = s.reports →
          ∃ kinds tree, Rule.Value (n + 1) kinds tree ∧ s.Adds kinds [tree] t := by
    intro kind tree htree hpeek hkind hrule
    obtain ⟨rest, hrest⟩ := Site.exists_kinds_of_peek hpeek hkind
    have hopened : s.opened.kinds = kind :: rest := hrest
    refine (ends_node_adds htree (ends_advance_adds hopened)).mono fun _ t ht _ => ?_
    exact ⟨_, _, hrule, ht⟩
  rw [valueWith, ends_peek_bind]
  split
  · rename_i hpeek
    rw [ends_nth_bind]
    split
    · rename_i hnext
      obtain ⟨rest, hrest⟩ :=
        Site.exists_kinds_of_nth_one hpeek (by decide) hnext (by decide)
      exact ends_container_reads h hvalue hrest
    · rename_i hnext
      obtain ⟨rest, hrest⟩ :=
        Site.exists_kinds_of_nth_one hpeek (by decide) hnext (by decide)
      have hopened : s.opened.kinds = .dot :: .identifier :: rest := hrest
      refine (ends_node_adds (by decide) ((ends_advance_adds hopened).adds_seq fun t ht =>
        ends_identifier_adds (ht.kinds_eq hopened))).mono fun _ t ht _ => ?_
      exact ⟨_, _, .enumLiteral n, ht⟩
    · exact (faults_recover _ _).quiet s
  · exact htoken (by decide) ‹_› (by decide) (.string n)
  · refine (ends_lines_adds ‹_›).mono fun _ t ht _ => ?_
    obtain ⟨m, hadds, -⟩ := ht
    exact ⟨_, _, .lines n m, hadds⟩
  · exact htoken (by decide) ‹_› (by decide) (.char n)
  · exact htoken (by decide) ‹_› (by decide) (.number n (.inl rfl))
  · exact htoken (by decide) ‹_› (by decide) (.number n (.inr rfl))
  · rename_i hpeek
    obtain ⟨rest, hrest⟩ := Site.exists_kinds_of_peek hpeek (by decide)
    refine (ends_negative_reads hrest).mono fun _ t ht hquiet => ?_
    obtain ⟨kind, hkind, hadds⟩ := ht hquiet
    exact ⟨_, _, .negative n hkind, hadds⟩
  · exact htoken (by decide) ‹_› (by decide) (.identifier n)
  · exact (faults_recover _ _).quiet s

/-- A value that is parsed without a report is derivable. -/
theorem reads_value (depth : Nat) : Reads depth (value depth) := by
  induction depth with
  | zero => exact fun _ s => faults_tooDeep.quiet s
  | succ depth ih => exact reads_valueWith (valueSound_value depth) ih

end Reading

/-! ## Files -/

section Files

/-- A file that is parsed without a report is a value. -/
theorem ends_document_reads (s : Site Kind) :
    document.Ends s fun _ t =>
      t.reports = s.reports → ∃ tree, Rule.Value maxDepth s.kinds tree := by
  rw [document, documentOf, ends_atEnd_bind]
  split
  · refine ends_report_bind ?_
    rw [ends_atEnd_bind]
    split
    · exact ends_pure fun hquiet => absurd hquiet (Nat.succ_ne_self _)
    · refine (ends_remains s.faulted).mono fun _ t ht hquiet => ?_
      have hfault : s.faulted.reports = s.reports + 1 := rfl
      have hreports := ht.2.2
      omega
  · have hvalue := (valueSound_value maxDepth).plants .empty s
    refine (hvalue.and (reads_value maxDepth .empty s)).bind fun _ t ht => ?_
    rw [ends_atEnd_bind]
    split
    · rename_i hend
      refine ends_pure fun hquiet => ?_
      obtain ⟨kinds, tree, hrule, hadds⟩ := ht.2 hquiet
      have hnone : t.kinds = [] := by simpa using hend
      rw [hadds.kinds, hnone, List.append_nil]
      exact ⟨tree, hrule⟩
    · refine (ends_remains t).mono fun _ u hu hquiet => ?_
      have hgrows := ht.1.grows.reports
      have hreports := hu.2.2
      omega

/-- A value is a file that is parsed without a report. -/
theorem ends_document_accepts
    {s : Site Kind}
    (tree : Shape Kind Kind)
    (h : Rule.Value maxDepth s.kinds tree) :
    document.Ends s fun _ t => s.Adds s.kinds [tree] t := by
  have hnone := h.valuesBelow_eq_nil (Nat.le_refl maxDepth) 0
  have hwhole : truncate maxDepth tree = tree := prune_eq_self hnone
  have hmarks := marks_value 0 maxDepth tree
  rw [hnone, hwhole] at hmarks
  refine (writes_document (c := s.cursor) h rfl).ends.mono fun _ t ht => ?_
  obtain ⟨-, hkinds, hbehind, hchildren, hreports⟩ := ht
  rw [hmarks.plain] at hchildren
  rw [Marked.reports_traces 0, hmarks.faults] at hreports
  exact ⟨by rw [hkinds, List.append_nil], hbehind, hchildren, hreports⟩

/-- A file is parsed without a report exactly if it is a value, and then the tree of
the value is all that is added. -/
theorem ends_document_iff (s : Site Kind) :
    document.Ends s fun _ t =>
      (t.reports = s.reports ↔ ∃ tree, Rule.Value maxDepth s.kinds tree) ∧
        ∀ tree, Rule.Value maxDepth s.kinds tree → t.children = [tree] ++ s.children := by
  have haccepts := (ends_document_reads s).and_forall ends_document_accepts
  refine haccepts.mono fun _ t ht => ⟨⟨ht.1, ?_⟩, ?_⟩
  · rintro ⟨tree, hrule⟩
    exact (ht.2 tree hrule).reports
  · intro tree hrule
    exact (ht.2 tree hrule).children

theorem severity_of_mem_duplicateWarnings
    {root : Root Kind}
    {d : Diagnostic}
    (h : d ∈ duplicateWarnings root) :
    d.severity = .warning := by
  obtain ⟨n, -, hd⟩ := List.mem_flatMap.mp h
  obtain ⟨entry, -, hentry⟩ := List.mem_filterMap.mp hd
  obtain ⟨key, -, rfl⟩ := Option.map_eq_some_iff.mp hentry
  rfl

/-- The warnings about names aside, nothing is found but the errors of the trace. -/
theorem forall_severity_ne_error_iff
    {tokens : List (Token Kind)}
    {trace : Trace Kind}
    {root : Root Kind} :
    (∀ d ∈ Trace.errors tokens trace ++ duplicateWarnings root, d.severity ≠ .error) ↔
      Trace.errors tokens trace = [] := by
  constructor
  · intro h
    refine List.eq_nil_iff_forall_not_mem.mpr fun d hd => ?_
    exact h d (List.mem_append_left _ hd) (Trace.severity_of_mem_errors hd)
  · intro h d hd
    rw [h, List.nil_append] at hd
    rw [severity_of_mem_duplicateWarnings hd]
    decide

/-- The parse of a file is that of its grammar, with the warnings about names. -/
theorem parse?_of_ofGrammar?
    {text : Text}
    {p : Parse Kind}
    (h : Parse.ofGrammar? (lexWith read) file text = some p) :
    parse? text = some { p with diagnostics := p.diagnostics ++ duplicateWarnings p.root } := by
  rw [parse?, lex, h]
  rfl

/-- **The accepted files are the derivable ones.**  A text is parsed without an
error exactly if its significant kinds are a value whose values nest at most
`maxDepth` deep, and then the tree of the file is the tree of the derivation. -/
theorem parse?_accepts_iff (text : Text) :
    ∃ p, parse? text = some p ∧
      ((∀ d ∈ p.diagnostics, d.severity ≠ .error) ↔
        ∃ tree, Rule.Value maxDepth (significantKinds (lex text)) tree) ∧
      ∀ tree, Rule.Value maxDepth (significantKinds (lex text)) tree →
        p.root.outline = .node .file [tree, .leaf .eof] := by
  have hstart : (Site.ofList (significant (tokensWith read text))).kinds =
      significantKinds (lex text) := map_kind_significant read text
  have hends := (ends_document (.ofList (significant (tokensWith read text)))).and
    (ends_document_iff _)
  rw [hstart] at hends
  have hfile : Kind.file ≠ Vocabulary.tombstone := by decide
  obtain ⟨t, ⟨hquiet, hchildren⟩, hgrow, herrors⟩ :=
    Parser.Ends.exists_grow? hfile
      (hends.mono fun _ _ ht => ⟨ht.1.2, ht.1.1.behind, ht.2⟩)
  obtain ⟨p, hp, hdiagnostics, -, houtline⟩ := ofGrammar?_of_grow? hgrow
  refine ⟨{ p with diagnostics := p.diagnostics ++ duplicateWarnings p.root }, ?_, ?_, ?_⟩
  · rw [parse?, file_eq, lex, hp]
    rfl
  · rw [hdiagnostics, forall_severity_ne_error_iff, ← List.length_eq_zero_iff,
      herrors _ (length_tokensWith read text)]
    exact hquiet
  · intro tree hrule
    rw [houtline, hchildren tree hrule]
    rfl

end Files
end Zon
end ZigCst
