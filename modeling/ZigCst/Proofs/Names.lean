import ZigCst.Proofs.Announced
import ZigCst.Proofs.Operands

/-!
# Names of declarations

A declaration is named after the first identifier among its child nodes.  That is the
token behind the keyword wherever this token is an identifier.  Where it is none, an
identifier that stands for a type, or for the value of a variable, comes first.

**Definitions.**
* `typesAndValues`: the types and values of a declaration.
* `DeclarationParts`: the children of a declaration in place.
* `NamedBehind`: how the name of a declaration depends on the token behind its keyword.

**Results.**
* `exists_variable_parts`, `exists_function_parts`: what declarations consist of.
* `exists_parse_names`: the names of all declarations in every text.
-/

namespace ZigCst
namespace Zig

open Pattern

/-! ## Names in place -/

section Places

/-- The first node among children that is an identifier. -/
def identAmong (es : List (Element Kind)) : Option (Node Kind) :=
  (es.filterMap Element.node?).find? fun m => m.kind == .ident

theorem name?_eq (n : Node Kind) : name? n = identAmong n.significant := by
  rw [name?, Node.child?, n.childNodes_eq, identAmong]

theorem identAmong_append (es fs : List (Element Kind)) :
    identAmong (es ++ fs) = (identAmong es).or (identAmong fs) := by
  rw [identAmong, List.filterMap_append, List.find?_append]
  rfl

/-- Where no identifier stands in a pattern, there is none among what fits it. -/
theorem identAmong_eq_none
    {P : Pattern Kind}
    {es : List (Element Kind)}
    (h : P.Fits es)
    (hP : .ident ∉ P.signs.filterMap Sign.node?) :
    identAmong es = none := by
  have hne : ∀ m ∈ es.filterMap Element.node?, (m.kind != .ident) = true :=
    h.kind_of_mem (· != .ident) fun kind hkind =>
      bne_iff_ne.mpr fun heq => hP (heq ▸ hkind)
  exact List.find?_eq_none.mpr fun m hm => by simpa using hne m hm

/-- A token and a node behind it, or neither. -/
theorem exists_pair_of_fits
    {kind : Kind}
    {kinds : List Kind}
    {es : List (Element Kind)}
    (h : (perhaps [Form.token kind, nodes kinds]).Fits es) :
    es = [] ∨ ∃ l t, es = [.token l, .node t] ∧ l.kind = kind := by
  rcases fits_perhaps_iff.mp h with rfl | h
  · exact .inl rfl
  · obtain ⟨xs, ys, rfl, hxs, h⟩ := fits_all_cons_iff.mp h
    obtain ⟨zs, ws, rfl, hzs, h⟩ := fits_all_cons_iff.mp h
    obtain rfl := fits_all_nil_iff.mp h
    obtain ⟨l, rfl, hl⟩ := hxs.exists_token
    obtain ⟨t, rfl, -⟩ := hzs.exists_node
    exact .inr ⟨l, t, rfl, List.mem_singleton.mp hl⟩

/-- The node after a token of which there is one at most, with a node behind it. -/
theorem nodeAfter?_of_pair
    {n : Node Kind}
    {kind : Kind}
    {before pair behind : List (Element Kind)}
    (hn : n.significant = before ++ (pair ++ behind))
    (hkind : Vocabulary.isTrivia kind = false)
    (hpair : pair = [] ∨ ∃ l t, pair = [.token l, .node t] ∧ l.kind = kind)
    (hbefore : ∀ e ∈ before, e.sign ≠ .token kind)
    (hbehind : ∀ e ∈ behind, e.sign ≠ .token kind) :
    n.nodeAfter? kind = (pair.filterMap Element.node?).head? := by
  have hother : ∀ e : Element Kind, e.sign ≠ .token kind → (!Node.isTokenOf kind e) = true := by
    intro e he
    cases e with
    | node m => rfl
    | token l => simpa [Element.sign, Node.isTokenOf] using he
  rw [n.nodeAfter?_eq hkind, hn,
    List.dropWhile_append_of_pos fun e he => hother e (hbefore e he)]
  rcases hpair with rfl | ⟨l, t, rfl, rfl⟩
  · rw [List.nil_append, List.dropWhile_eq_nil_iff.mpr fun e he => hother e (hbehind e he)]
    rfl
  · rw [List.cons_append, List.dropWhile_cons_of_neg (by simp [Node.isTokenOf])]
    rfl

/-- The node that a function gives as its type: what the parameters are followed by, or
where there are none, the first child node that is none of the other parts. -/
def returned? (n : Node Kind) : Option (Node Kind) :=
  if (FnDecl.paramList? n).isSome then FnDecl.returnType? n
  else n.childNodes.find? fun m => !FnDecl.isClauseOrBody m.kind && m.kind != .stringLiteral

/-- The types and values of a declaration in order. -/
def typesAndValues (n : Node Kind) : List (Node Kind) :=
  match n.kind with
  | .varDecl => (VarDecl.type? n).toList ++ (VarDecl.initializer? n).toList
  | .fnDecl => (returned? n).toList
  | _ => []

/-- The children of a declaration: its keyword, with no other keyword of this sort and no
identifier in front of it.  Behind it stands a name, or all identifiers are types and
values. -/
structure DeclarationParts
    (n : Node Kind)
    (front : List (Element Kind))
    (keyword : Leaf Kind)
    (behind : List (Element Kind)) : Prop where
  significant_eq : n.significant = front ++ .token keyword :: behind
  keyword_mem : keyword.kind ∈ declarationKeywords n.kind
  sign_ne : ∀ kind ∈ declarationKeywords n.kind, ∀ e ∈ front ++ behind, e.sign ≠ .token kind
  identAmong_front : identAmong front = none
  behind_eq : (∃ id others, behind = .node id :: others ∧ id.kind = .ident) ∨
    identAmong behind = (typesAndValues n).find? fun m => m.kind == .ident

/-- A token with a node behind it has that node as its only one. -/
theorem find?_head?_of_pair
    {kind : Kind}
    {pair : List (Element Kind)}
    (h : pair = [] ∨ ∃ l t, pair = [.token l, .node t] ∧ l.kind = kind) :
    ((pair.filterMap Element.node?).head?.toList.find? fun m => m.kind == .ident) =
      identAmong pair := by
  rcases h with rfl | ⟨l, t, rfl, -⟩ <;> rfl

/-! ### Variables -/

/-- What may stand in front of the keyword of a variable. -/
def variableFront : Pattern Kind :=
  any [all [perhaps [Form.token .pubKw], Form.linkage, perhaps [Form.token .threadlocalKw]],
    Form.token .comptimeKw]

/-- What stands behind the name of a variable. -/
def variableEnd : List (Pattern Kind) :=
  [perhaps [Form.token .colon, Form.type], Form.clauses, perhaps [Form.token .eq, Form.expr],
    expected .semicolon]

/-- The identifiers among the type and the value of a variable are those behind its
name. -/
theorem find?_variable
    {n m : Node Kind}
    {keyword : Leaf Kind}
    {front behind : List (Element Kind)}
    (hkind : n.kind = .varDecl)
    (hn : n.significant = (front ++ [Element.token keyword, Element.node m]) ++ behind)
    (hfront : variableFront.Fits front)
    (hkeyword : keyword.kind ∈ [.constKw, .varKw])
    (hbehind : (all variableEnd).Fits behind) :
    (typesAndValues n).find? (fun m => m.kind == .ident) = identAmong behind := by
  have hfirst : ∀ kind ∈ [Kind.colon, Kind.eq],
      ∀ e ∈ front ++ [Element.token keyword, Element.node m], e.sign ≠ .token kind := by
    intro kind hmem
    have hsign : ∀ kind ∈ [Kind.colon, Kind.eq], .token kind ∉ variableFront.signs := by decide
    have hother : ∀ kind ∈ [Kind.colon, Kind.eq], kind ∉ [Kind.constKw, .varKw] := by decide
    have hne : keyword.kind ≠ kind := fun heq => hother kind hmem (heq ▸ hkeyword)
    refine List.forall_mem_append.mpr ⟨hfront.sign_ne (hsign kind hmem), ?_⟩
    simpa [Element.sign] using hne
  obtain ⟨types, rest, rfl, htypes, h⟩ := fits_all_cons_iff.mp hbehind
  obtain ⟨clauses, rest, rfl, hclauses, hrest⟩ := fits_all_cons_iff.mp h
  obtain ⟨values, rest, rfl, hvalues, hend⟩ := fits_all_cons_iff.mp hrest
  have htype : VarDecl.type? n = (types.filterMap Element.node?).head? := by
    refine nodeAfter?_of_pair hn rfl (exists_pair_of_fits htypes) (hfirst _ (by decide)) ?_
    exact h.sign_ne (by decide)
  have hvalue : VarDecl.initializer? n = (values.filterMap Element.node?).head? := by
    have hvalues' : n.significant =
        ((front ++ [Element.token keyword, Element.node m]) ++ (types ++ clauses)) ++
          (values ++ rest) := by
      rw [hn]
      simp only [List.append_assoc]
    refine nodeAfter?_of_pair hvalues' rfl (exists_pair_of_fits hvalues) ?_
      (hend.sign_ne (by decide))
    refine List.forall_mem_append.mpr ⟨hfirst _ (by decide), ?_⟩
    exact List.forall_mem_append.mpr
      ⟨htypes.sign_ne (by decide), hclauses.sign_ne (by decide)⟩
  rw [typesAndValues, hkind]
  dsimp only
  rw [htype, hvalue, List.find?_append, find?_head?_of_pair (exists_pair_of_fits htypes),
    find?_head?_of_pair (exists_pair_of_fits hvalues), identAmong_append, identAmong_append,
    identAmong_append, identAmong_eq_none hclauses (by decide),
    identAmong_eq_none hend (by decide), Option.none_or, Option.or_none]

theorem exists_variable_parts
    {n : Node Kind}
    (hkind : n.kind = .varDecl)
    (h : (all (Form.of .varDecl)).Fits n.significant) :
    ∃ front keyword behind, DeclarationParts n front keyword behind := by
  obtain ⟨front, es, hn, hfront, h⟩ := fits_all_cons_iff.mp h
  obtain ⟨body, es, rfl, hbody, h⟩ := fits_all_cons_iff.mp h
  obtain rfl := fits_all_nil_iff.mp h
  obtain ⟨keywords, behind, rfl, hkeywords, hbehind⟩ := fits_all_cons_iff.mp hbody
  obtain ⟨keyword, rfl, hkeyword⟩ := hkeywords.exists_token
  have hsigns : ∀ kind ∈ declarationKeywords .varDecl,
      .token kind ∉ variableFront.signs ∧ .token kind ∉ (all (Form.name :: variableEnd)).signs := by
    decide
  rw [List.append_nil] at hn
  refine ⟨front, keyword, behind, hn, hkind ▸ hkeyword, ?_,
    identAmong_eq_none hfront (by decide), ?_⟩
  · rw [hkind]
    exact fun kind hmem => List.forall_mem_append.mpr
      ⟨hfront.sign_ne (hsigns kind hmem).1, hbehind.sign_ne (hsigns kind hmem).2⟩
  · obtain ⟨names, rest, rfl, hnames, hrest⟩ := fits_all_cons_iff.mp hbehind
    obtain ⟨m, rfl, -⟩ := hnames.exists_node
    by_cases hident : m.kind = .ident
    · exact .inl ⟨m, rest, rfl, hident⟩
    · have hname : identAmong [.node m] = none := by simp [identAmong, Element.node?, hident]
      rw [find?_variable hkind (by simpa using hn) hfront hkeyword hrest, identAmong_append, hname,
        Option.none_or]
      exact .inr rfl

/-! ### Functions -/

/-- What may stand in front of the keyword of a function. -/
def functionFront : List (Pattern Kind) := [perhaps [Form.token .pubKw], Form.linkage]

/-- What stands behind the name of a function. -/
def functionEnd : List (Pattern Kind) :=
  [any [nodes [.paramList], fault], Form.clauses, perhaps [Form.token .bang],
    any [fault, Form.type], any [Form.block, expected .semicolon]]

/-- One node of some kinds at most, where there may be a fault instead of it. -/
theorem exists_option_of_fits
    {Ps : List (Pattern Kind)}
    {es : List (Element Kind)}
    (kinds : List Kind)
    (h : (any Ps).Fits es)
    (hPs : ∀ P ∈ Ps, P = nodes kinds ∨ P = fault) :
    ∃ found : Option (Node Kind),
      es = found.toList.map .node ∧ ∀ m ∈ found, m.kind ∈ kinds := by
  obtain ⟨P, hP, h⟩ := fits_any_iff.mp h
  rcases hPs P hP with rfl | rfl
  · obtain ⟨m, rfl, hm⟩ := h.exists_node
    exact ⟨some m, rfl, fun m' hm' => Option.mem_some.mp hm' ▸ hm⟩
  · exact ⟨none, h.eq_nil_of_faults (by simp), by simp⟩

theorem filterMap_node_toList (found : Option (Node Kind)) :
    (found.toList.map Element.node).filterMap Element.node? = found.toList := by
  cases found <;> rfl

/-- An identifier that may come first is found with a condition that it meets. -/
theorem find?_toList_append
    {found : Option (Node Kind)}
    {ms : List (Node Kind)}
    {q : Node Kind → Bool}
    (hq : ∀ m, m.kind = .ident → q m = true)
    (hms : ∀ m ∈ ms, (m.kind != .ident) = true) :
    (((found.toList ++ ms).find? q).toList.find? fun m => m.kind == .ident) =
      found.toList.find? fun m => m.kind == .ident := by
  have hnone : ((ms.find? q).toList.find? fun m => m.kind == .ident) = none := by
    refine List.find?_eq_none.mpr fun m hm => ?_
    have hmem := List.mem_of_find?_eq_some (Option.mem_toList.mp hm)
    simpa using hms m hmem
  cases found with
  | none => exact hnone
  | some t =>
      cases ht : q t with
      | true => simp [ht]
      | false =>
          have hident : t.kind ≠ .ident := fun heq => by simp [hq t heq] at ht
          simpa [ht, hident] using hnone

/-- The type of a function is looked for behind its clauses. -/
theorem returned?_eq
    {n : Node Kind}
    {keyword : Leaf Kind}
    {front rest : List (Element Kind)}
    {list : Option (Node Kind)}
    (hn : n.significant = front ++ Element.token keyword :: (list.toList.map .node ++ rest))
    (hfront : (all functionFront).Fits front)
    (hlist : ∀ m ∈ list, m.kind = .paramList)
    (hrest : (all functionEnd.tail).Fits rest) :
    ∃ q : Node Kind → Bool,
      (∀ m, FnDecl.isClauseOrBody m.kind = true → q m = false) ∧
      (∀ m, m.kind = .ident → q m = true) ∧
      returned? n = (rest.filterMap Element.node?).find? q := by
  have hnodes : n.childNodes = front.filterMap Element.node? ++
      (list.toList ++ rest.filterMap Element.node?) := by
    rw [n.childNodes_eq, hn, List.filterMap_append, List.filterMap_cons_none rfl,
      List.filterMap_append, filterMap_node_toList]
  have hstring : ∀ m ∈ front.filterMap Element.node?, (m.kind == .stringLiteral) = true :=
    hfront.kind_of_mem (· == .stringLiteral) (by decide)
  have hother : ∀ m ∈ rest.filterMap Element.node?, (m.kind != .paramList) = true :=
    hrest.kind_of_mem (· != .paramList) (by decide)
  have hfirst : ∀ m ∈ front.filterMap Element.node?, (m.kind != .paramList) = true :=
    hfront.kind_of_mem (· != .paramList) (by decide)
  rw [returned?, FnDecl.paramList?, Node.child?, FnDecl.returnType?, hnodes]
  cases list with
  | none =>
      refine ⟨fun m => !FnDecl.isClauseOrBody m.kind && m.kind != .stringLiteral,
        fun m hm => by simp [hm], fun m hm => by simp [hm, FnDecl.isClauseOrBody], ?_⟩
      have hnone : (front.filterMap Element.node? ++ rest.filterMap Element.node?).find?
          (fun m => m.kind == .paramList) = none := by
        refine List.find?_eq_none.mpr fun m hm => ?_
        have hne := (List.mem_append.mp hm).elim (hfirst m) (hother m)
        simpa using hne
      have hskip : (front.filterMap Element.node?).find? (fun m =>
          !FnDecl.isClauseOrBody m.kind && m.kind != .stringLiteral) = none :=
        List.find?_eq_none.mpr fun m hm => by simp [eq_of_beq (hstring m hm)]
      rw [Option.toList_none, List.nil_append, hnone, List.find?_append, hskip]
      rfl
  | some m =>
      refine ⟨fun m => !FnDecl.isClauseOrBody m.kind, fun m hm => by simp [hm],
        fun m hm => by simp [hm, FnDecl.isClauseOrBody], ?_⟩
      have hm : m.kind = .paramList := hlist m rfl
      rw [if_pos (by simp [hm]), List.dropWhile_append_of_pos hfirst, Option.toList_some,
        List.singleton_append, List.dropWhile_cons_of_neg (by simp [hm]), List.drop_one,
        List.tail_cons]

/-- The identifier among the types of a function is the one behind its name. -/
theorem find?_function
    {n : Node Kind}
    {keyword : Leaf Kind}
    {front behind : List (Element Kind)}
    (hkind : n.kind = .fnDecl)
    (hn : n.significant = front ++ .token keyword :: behind)
    (hfront : (all functionFront).Fits front)
    (hbehind : (all functionEnd).Fits behind) :
    (typesAndValues n).find? (fun m => m.kind == .ident) = identAmong behind := by
  obtain ⟨params, rest, rfl, hparams, hrest⟩ := fits_all_cons_iff.mp hbehind
  obtain ⟨list, rfl, hlist⟩ := exists_option_of_fits [.paramList] hparams (by simp)
  obtain ⟨q, hclause, hident, hreturned⟩ :=
    returned?_eq hn hfront (fun m hm => List.mem_singleton.mp (hlist m hm)) hrest
  obtain ⟨clauses, rest, rfl, hclauses, h⟩ := fits_all_cons_iff.mp hrest
  obtain ⟨bang, rest, rfl, hbang, h⟩ := fits_all_cons_iff.mp h
  obtain ⟨types, rest, rfl, htypes, hend⟩ := fits_all_cons_iff.mp h
  obtain ⟨found, rfl, -⟩ := exists_option_of_fits typeKinds htypes (by simp [Form.type])
  have hbangs : bang.filterMap Element.node? = [] :=
    List.eq_nil_iff_forall_not_mem.mpr fun m hm =>
      Bool.false_ne_true (hbang.kind_of_mem (fun _ => false) (by decide) m hm)
  have hskip : (clauses.filterMap Element.node?).find? q = none :=
    List.find?_eq_none.mpr fun m hm => by
      simp [hclause m (hclauses.kind_of_mem FnDecl.isClauseOrBody (by decide) m hm)]
  have hbody : ∀ m ∈ rest.filterMap Element.node?, (m.kind != .ident) = true :=
    hend.kind_of_mem (· != .ident) (by decide)
  rw [typesAndValues, hkind]
  dsimp only
  rw [hreturned, List.filterMap_append, List.find?_append, hskip, Option.none_or,
    List.filterMap_append, hbangs, List.nil_append, List.filterMap_append, filterMap_node_toList,
    find?_toList_append hident hbody, identAmong_append, identAmong_append, identAmong_append,
    identAmong_append, identAmong_eq_none hparams (by decide),
    identAmong_eq_none hclauses (by decide), identAmong_eq_none hbang (by decide),
    identAmong_eq_none hend (by decide), Option.none_or, Option.none_or, Option.none_or,
    Option.or_none, identAmong, filterMap_node_toList]

theorem exists_function_parts
    {n : Node Kind}
    (hkind : n.kind = .fnDecl)
    (h : (all (Form.of .fnDecl)).Fits n.significant) :
    ∃ front keyword behind, DeclarationParts n front keyword behind := by
  have hparts : (all (functionFront ++
      [Form.prototype, any [Form.block, expected .semicolon]])).Fits n.significant := h
  obtain ⟨front, es, hn, hfront, h⟩ := fits_all_append_iff.mp hparts
  obtain ⟨prototype, es, rfl, hprototype, hes⟩ := fits_all_cons_iff.mp h
  obtain ⟨keywords, behind, rfl, hkeywords, hbehind⟩ := fits_all_cons_iff.mp hprototype
  obtain ⟨keyword, rfl, hkeyword⟩ := hkeywords.exists_token
  have hbehind : (all (perhaps [nodes [.ident]] :: functionEnd)).Fits (behind ++ es) :=
    fits_all_append_iff.mpr ⟨behind, es, rfl, hbehind, hes⟩
  have hsigns : ∀ kind ∈ declarationKeywords .fnDecl,
      .token kind ∉ (all functionFront).signs ∧
      .token kind ∉ (all (perhaps [nodes [.ident]] :: functionEnd)).signs := by
    decide
  refine ⟨front, keyword, behind ++ es, hn, hkind ▸ hkeyword, ?_,
    identAmong_eq_none hfront (by decide), ?_⟩
  · rw [hkind]
    exact fun kind hmem => List.forall_mem_append.mpr
      ⟨hfront.sign_ne (hsigns kind hmem).1, hbehind.sign_ne (hsigns kind hmem).2⟩
  · obtain ⟨names, rest, hrest, hnames, hend⟩ := fits_all_cons_iff.mp hbehind
    rcases fits_perhaps_iff.mp hnames with rfl | hnames
    · right
      rw [hrest, List.nil_append]
      have hrest' : n.significant = front ++ .token keyword :: rest := by
        rw [hn, List.append_assoc, hrest]
        rfl
      exact (find?_function hkind hrest' hfront hend).symm
    · obtain ⟨name, _, rfl, hname, h⟩ := fits_all_cons_iff.mp hnames
      obtain rfl := fits_all_nil_iff.mp h
      obtain ⟨m, rfl, hm⟩ := hname.exists_node
      exact .inl ⟨m, rest, hrest, List.mem_singleton.mp hm⟩

/-! ### Declarations -/

theorem isTrivia_of_mem_declarationKeywords
    {kind keyword : Kind}
    (h : keyword ∈ declarationKeywords kind) :
    Vocabulary.isTrivia keyword = false := by
  unfold declarationKeywords at h
  split at h <;> revert keyword <;> decide

theorem eof_not_mem_declarationKeywords (kind : Kind) : .eof ∉ declarationKeywords kind := by
  unfold declarationKeywords
  split <;> decide

/-- The only keyword of a declaration among its tokens. -/
theorem DeclarationParts.keywords_eq
    {n : Node Kind}
    {front behind : List (Element Kind)}
    {keyword : Leaf Kind}
    (h : DeclarationParts n front keyword behind) :
    (n.childTokens.filter fun l => l.kind ∈ declarationKeywords n.kind) = [keyword] := by
  have htrivia : ∀ l : Leaf Kind, l.kind ∈ declarationKeywords n.kind → l.isTrivia = false :=
    fun l hl => isTrivia_of_mem_declarationKeywords hl
  have hfilter : (n.childTokens.filter fun l => l.kind ∈ declarationKeywords n.kind) =
      (n.significant.filterMap Element.token?).filter
        fun l => l.kind ∈ declarationKeywords n.kind := by
    rw [← n.filter_childTokens, List.filter_filter]
    refine List.filter_congr fun l _ => ?_
    by_cases hl : l.kind ∈ declarationKeywords n.kind <;> simp [hl, htrivia]
  have hnone : ∀ es : List (Element Kind), (∀ e ∈ es, e ∈ front ++ behind) →
      (es.filterMap Element.token?).filter (fun l => l.kind ∈ declarationKeywords n.kind) = [] := by
    intro es hes
    refine List.filter_eq_nil_iff.mpr fun l hl => ?_
    obtain ⟨e, he, heq⟩ := List.mem_filterMap.mp hl
    cases e with
    | node m => cases heq
    | token l' =>
        obtain rfl : l' = l := Option.some.inj heq
        simpa using fun hkind => h.sign_ne _ hkind _ (hes _ he) rfl
  rw [hfilter, h.significant_eq, List.filterMap_append, List.filter_append,
    List.filterMap_cons_some (f := Element.token?) rfl, hnone front (by simp +contextual),
    List.filter_cons_of_pos (by simpa using h.keyword_mem), hnone behind (by simp +contextual),
    List.nil_append]

/-- What an announced declaration has behind its keyword: an identifier, if the token
behind the keyword is one. -/
theorem DeclarationParts.exists_next
    {n : Node Kind}
    {front behind : List (Element Kind)}
    {keyword : Leaf Kind}
    (h : DeclarationParts n front keyword behind)
    {tokens before after : List (Leaf Kind)}
    (htokens : tokens = before ++ (n.significantTokens ++ after))
    (hlast : ∀ l ∈ tokens.getLast?, l.kind = .eof)
    (hannounced : Announced n.kind
      ((Tree.outlines n.children).flatMap Shape.leaves ++ after.map fun l => l.kind)
      (Tree.outlines n.children)) :
    ∃ next others,
      behind.flatMap Element.significantTokens ++ after = next :: others ∧
      [keyword, next] <:+: tokens ∧
      (next.kind = .identifier → ∃ id others, behind = .node id :: others ∧ id.kind = .ident) := by
  obtain ⟨xs, kind, ys, houtlines, hkind, hname⟩ := hannounced.exists_behind
  rw [← n.map_outline_significant] at houtlines
  obtain ⟨es, fs, hes, rfl, hfs⟩ := List.map_eq_append_iff.mp houtlines
  obtain ⟨e, gs, rfl, he, rfl⟩ := List.map_eq_cons_iff.mp hfs
  obtain ⟨l, rfl, rfl⟩ := Element.exists_token_of_outline he
  -- There is no other keyword, so both ways to split the children are one.
  have hsame : front ++ .token keyword :: behind = es ++ .token l :: gs :=
    h.significant_eq.symm.trans hes
  have hfront : Element.token l ∉ front := fun hmem =>
    h.sign_ne _ hkind _ (List.mem_append_left _ hmem) rfl
  have hbehind : Element.token l ∉ behind := fun hmem =>
    h.sign_ne _ hkind _ (List.mem_append_right _ hmem) rfl
  obtain ⟨rfl, hl, rfl⟩ := (List.append_cons_inj_of_notMem hfront hbehind).mp hsame
  cases hl
  rw [Node.significantTokens_of_token h.significant_eq] at htokens
  cases hrest : behind.flatMap Element.significantTokens ++ after with
  | nil =>
      obtain ⟨hnil, rfl⟩ := List.append_eq_nil_iff.mp hrest
      have heof := hlast keyword (by simp [htokens, hnil])
      exact absurd (heof ▸ hkind) (eof_not_mem_declarationKeywords _)
  | cons next others =>
      refine ⟨next, others, rfl, ⟨before ++ front.flatMap Element.significantTokens, others, ?_⟩,
        fun hidentifier => ?_⟩
      · rw [htokens]
        simp [hrest]
      · have hkinds : (behind.map Element.outline).flatMap Shape.leaves ++
            (after.map fun l => l.kind) = next.kind :: others.map fun l => l.kind := by
          rw [← Element.map_kind_significantTokens, ← List.map_append, hrest, List.map_cons]
          intro e he
          have hmem : e ∈ n.significant := by simp [h.significant_eq, he]
          exact (List.mem_filter.mp hmem).2
        obtain ⟨others', hothers⟩ := hname (by rw [hkinds, hidentifier]; rfl)
        obtain ⟨e, fs, rfl, he, -⟩ := List.map_eq_cons_iff.mp hothers
        obtain ⟨id, rfl, hid, -⟩ := Element.exists_node_of_outline he
        exact ⟨id, fs, rfl, hid⟩

/-- An identifier is one token. -/
theorem exists_token_of_ident
    {n : Node Kind}
    (h : (all (Form.of .ident)).Fits n.significant) :
    ∃ l, n.significant = [.token l] ∧ l.kind = .identifier := by
  obtain ⟨es, rest, hes, hes₁, hrest⟩ := fits_all_cons_iff.mp h
  obtain ⟨l, rfl, hl⟩ := hes₁.exists_token
  obtain rfl := fits_all_nil_iff.mp hrest
  exact ⟨l, hes, List.mem_singleton.mp hl⟩

/-- Whether a token comes right behind the keyword of a declaration in a file, and the
declaration has its name from there: it is named after that token exactly if the token is
an identifier, and otherwise after the first of its types and values that is one. -/
structure NamedBehind (r : Root Kind) (n : Node Kind) (keyword next : Leaf Kind) : Prop where
  keywords_eq :
    (n.childTokens.filter fun l => l.kind ∈ declarationKeywords n.kind) = [keyword]
  neighbours : [keyword, next] <:+: r.node.significantTokens
  name_iff : (∃ id, name? n = some id ∧ id.significant = [.token next]) ↔ next.kind = .identifier
  name_eq : next.kind ≠ .identifier →
    name? n = (typesAndValues n).find? fun m => m.kind == .ident

theorem DeclarationParts.namedBehind
    {r : Root Kind}
    {n : Node Kind}
    {front behind : List (Element Kind)}
    {keyword next : Leaf Kind}
    (h : DeclarationParts n front keyword behind)
    (hneighbours : [keyword, next] <:+: r.node.significantTokens)
    (hname : next.kind = .identifier →
      ∃ id others, behind = .node id :: others ∧ id.kind = .ident)
    (hident : ∀ id ∈ n.childNodes, id.kind = .ident →
      ∃ l, id.significant = [.token l] ∧ l.kind = .identifier)
    (hnext : ∀ id others l, behind = .node id :: others → id.significant = [.token l] → l = next) :
    NamedBehind r n keyword next := by
  have heq : name? n = identAmong behind := by
    rw [name?_eq, h.significant_eq, identAmong_append, h.identAmong_front, Option.none_or]
    rfl
  -- An identifier right behind the keyword is the token that comes there.
  have hfirst : ∀ id others, behind = .node id :: others → id.kind = .ident →
      id.significant = [.token next] ∧ next.kind = .identifier := by
    rintro id others rfl hid
    have hmem : id ∈ n.childNodes := by
      rw [n.childNodes_eq, h.significant_eq]
      simp [Element.node?]
    obtain ⟨l, hl, hidentifier⟩ := hident id hmem hid
    obtain rfl := hnext id others l rfl hl
    exact ⟨hl, hidentifier⟩
  refine ⟨h.keywords_eq, hneighbours, ⟨?_, ?_⟩, ?_⟩
  · rintro ⟨id, hid, hsignificant⟩
    have hmem := List.mem_of_find?_eq_some hid
    have hkind := List.find?_some hid
    obtain ⟨l, hl, hidentifier⟩ := hident id hmem (eq_of_beq hkind)
    rw [hl] at hsignificant
    cases hsignificant
    exact hidentifier
  · intro hkind
    obtain ⟨id, others, rfl, hid⟩ := hname hkind
    refine ⟨id, ?_, (hfirst id others rfl hid).1⟩
    rw [heq]
    simp [identAmong, Element.node?, hid]
  · intro hkind
    rw [heq]
    refine h.behind_eq.resolve_left ?_
    rintro ⟨id, others, hbehind, hid⟩
    exact hkind (hfirst id others hbehind hid).2

/-- **Declarations are named behind their keyword.**  In every text, every variable and
every function has one keyword among its tokens, and is named after the token behind that
keyword exactly if that token is an identifier.  A declaration without a name has the
first of its types and values that is an identifier in place of a name. -/
theorem exists_parse_names (text : Text) :
    ∃ p, parse? text = some p ∧
      ∀ n ∈ p.root.node.descendants, n.kind ∈ declarationKinds →
        ∃ keyword next, NamedBehind p.root n keyword next := by
  obtain ⟨p, m, hp, -, heverywhere, hplain, -⟩ := exists_marked_sourceFile text
  obtain ⟨q, shapes, hq, houtline, hfollowed⟩ := exists_followed_sourceFile text
  obtain rfl : p = q := Option.some.inj (hp.symm.trans hq)
  refine ⟨p, hp, fun n hn hmem => ?_⟩
  obtain ⟨front, keyword, behind, hparts⟩ : ∃ front keyword behind,
      DeclarationParts n front keyword behind := by
    rcases List.mem_pair.mp hmem with hkind | hkind
    · exact exists_variable_parts hkind
        (fits_of_mem heverywhere hplain hn hkind (by decide) (by decide))
    · exact exists_function_parts hkind
        (fits_of_mem heverywhere hplain hn hkind (by decide) (by decide))
  obtain ⟨before, after, htokens, hannounced⟩ := Root.exists_split_of_mem hfollowed hn
  obtain ⟨next, others, hrest, hneighbours, hname⟩ := hparts.exists_next htokens
    (fun l hl => Root.kind_of_mem_getLast? houtline hl) (hannounced hmem)
  refine ⟨keyword, next, hparts.namedBehind hneighbours hname (fun id hid hkind => ?_) ?_⟩
  · exact exists_token_of_ident (fits_of_mem heverywhere hplain
      (Node.mem_descendants_of_mem_childNodes hn hid) hkind (by decide) (by decide))
  · rintro id others' l rfl hl
    have htoken : (Element.node id).significantTokens = [l] :=
      @Node.significantTokens_of_token _ _ id l [] [] hl
    rw [List.flatMap_cons, htoken] at hrest
    exact (List.cons.inj hrest).1

/-- A variable without a name has its type in place of one. -/
theorem exists_parse_names_missing :
    ∃ p, parse? "const : u32 = 5;\n".toList = some p ∧
      ∃ n ∈ p.root.node.descendants, ∃ keyword next id,
        NamedBehind p.root n keyword next ∧ next.kind = .colon ∧
        name? n = some id ∧ VarDecl.type? n = some id := by
  obtain ⟨p, hp, hnames⟩ := exists_parse_names "const : u32 = 5;\n".toList
  have hfound : (parse? "const : u32 = 5;\n".toList).any (fun p =>
      p.root.node.significantTokens.map (fun l => l.kind) ==
          [.constKw, .colon, .identifier, .eq, .integer, .semicolon, .eof] &&
        p.root.node.descendants.any fun n => n.kind == .varDecl &&
          (VarDecl.type? n).any (fun m => m.kind == .ident)) = true := by
    decide +kernel
  rw [hp, Option.any_some] at hfound
  simp only [List.any_eq_true, Bool.and_eq_true, beq_iff_eq, Option.any_eq_true] at hfound
  obtain ⟨hkinds, n, hn, hkind, id, hid, hident⟩ := hfound
  obtain ⟨keyword, next, hnamed⟩ := hnames n hn (by simp [hkind, declarationKinds])
  have hkeyword : keyword.kind ∈ [.constKw, .varKw] := by
    have hmem : keyword ∈ n.childTokens.filter fun l => l.kind ∈ declarationKeywords n.kind :=
      hnamed.keywords_eq ▸ List.mem_singleton.mpr rfl
    simpa [hkind, declarationKeywords] using (List.mem_filter.mp hmem).2
  have hnext : next.kind = .colon := by
    have hinfix := hnamed.neighbours.map fun l => l.kind
    rw [hkinds] at hinfix
    rcases List.mem_pair.mp hkeyword with hkw | hkw
    · simpa [List.infix_cons_iff, hkw] using hinfix
    · simp [List.infix_cons_iff, hkw] at hinfix
  refine ⟨p, hp, n, hn, keyword, next, id, hnamed, hnext, ?_, hid⟩
  rw [hnamed.name_eq (by simp [hnext]), typesAndValues, hkind]
  simp [hid, hident]

end Places
end Zig
end ZigCst
