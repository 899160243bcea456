import SolSyntax.Proofs.Leaves
import SolSyntax.Proofs.Lexemes
import SolSyntax.Proofs.Modules

/-!
# A tree holds the tokens of its source

A strict parse without error loses no token that carries something, makes none up and keeps their
order.

Principal results: `parseSource_keeps_tokens`.
-/

namespace SolSyntax

open Grammar
open Outline (leaf node leavesAll)

/-! ## What a module holds -/

/-- Tokens that carry a name, an operator, a literal or the universe. -/
def TokenKind.isPayload : TokenKind → Bool
  | .ident _ | .symbol _ | .operator _ | .int _ | .float _ | .string _ | .char _ | .kwUniverse => true
  | _ => false

def TokenKind.isDoc : TokenKind → Bool
  | .docString _ => true
  | _ => false

/-- The names, operators, literals and universes of a module, in the order of a walk through its
declarations.  The operators `|` and `.` are signs and are left out. -/
def Module.payload (names : Interner) (a : Arena) (m : Module) : List TokenKind :=
  (m.decls.flatMap fun d => (a.read names d.view).leaves).filter TokenKind.isPayload

def DeclKind.docs : DeclKind → List Name
  | .inductiveType _ _ _ constructors => constructors.flatMap fun c => c.attrs.docs
  | _ => []

/-- The doc-strings of a declaration, then those of its constructors. -/
def Decl.docs (d : Decl) : List Name := d.attrs.docs ++ d.kind.docs

def Module.docs (m : Module) : List Name := m.decls.flatMap Decl.docs

theorem selection_payload : Selection TokenKind.isPayload := by
  refine ⟨fun k hk => ?_, .inl fun k hk => ?_⟩ <;>
    cases k <;> first | rfl | cases hk

theorem selection_docs : Selection TokenKind.isDoc := by
  refine ⟨fun k hk => ?_, .inr fun k hk => ?_⟩ <;>
    cases k <;> first | rfl | cases hk

/-! ## Doc-strings -/

section Docs

variable {names : Interner} {a : Arena} {m m' : Mark} {u : List Token} {o : Outline TokenKind}
  {os : List (Outline TokenKind)}

theorem DocFree.filter_isDoc (h : DocFree os) : (leavesAll os).filter TokenKind.isDoc = [] :=
  List.filter_eq_nil_iff.2 fun k hk ht => h k hk (by
    cases k <;> simp_all [TokenKind.isDoc, TokenKind.tag])

theorem Stores.leaves_docs {docs : List Name}
    (h : Stores names a m (docs.map fun n => leaf (.token (.docString n))) os m') :
    leavesAll os = docs.map TokenKind.docString := by
  induction docs generalizing m os with
  | nil =>
    cases h
    rfl
  | cons n docs ih =>
    cases h with
    | token _ h => simp [ih h]

theorem filter_isDoc_map (docs : List Name) :
    (docs.map TokenKind.docString).filter TokenKind.isDoc = docs.map TokenKind.docString :=
  List.filter_eq_self.2 fun k hk => by
    obtain ⟨n, -, rfl⟩ := List.mem_map.1 hk
    rfl

/-- Attributes hold no doc-strings. -/
theorem Attached.docFree (h : Attached os) : DocFree (os.filter (!·.isLeaf)) := by
  intro k hk
  rw [Outline.leavesAll_eq_flatMap] at hk
  obtain ⟨p, hp, hk⟩ := List.mem_flatMap.1 hk
  obtain ⟨hp, hleaf⟩ := List.mem_filter.1 hp
  rcases h p hp with ⟨k', rfl, -⟩ | ⟨-, hfree⟩
  · cases hleaf
  · exact hfree k (by simpa using hk)

/-- The doc-strings before a declaration or constructor. -/
theorem Derives.docs_attrs {attrs : Attributes} (h : Derives .attrs u [o])
    (hs : Stores names a m [attrs.view] [o] m') :
    (leavesAll [o]).filter TokenKind.isDoc = attrs.docs.map TokenKind.docString := by
  cases h with
  | @attrs _ ts h =>
    obtain ⟨us, ho, hs⟩ := hs.unwrap
    cases ho
    obtain ⟨_, _, _, hus, hdocs, hs⟩ := hs.split
    cases hus
    obtain ⟨us, ho, hdocs⟩ := hdocs.unwrap
    cases ho
    simp only [Outline.attributes, Outline.leavesAll_cons, Outline.leaves_node, Outline.leavesAll_nil,
      List.append_nil, List.filter_append, h.attached.docFree.filter_isDoc, hdocs.leaves_docs,
      filter_isDoc_map]

/-- The items of a list are all of one kind. -/
theorem Derives.of_items {s : Separators} {p : Phrase} {separated : Bool}
    (h : Derives (.items s p separated) u os) :
    ∀ o ∈ os, ∃ v ts, Derives p v ts ∧ o ∈ ts := by
  generalize hp : Phrase.items s p separated = q at h
  induction h generalizing separated with
  | itemsNil => exact fun _ ho => by cases ho
  | itemsPad _ _ ih =>
    cases hp
    exact ih rfl
  | itemsNext _ _ hv ih =>
    cases hp
    intro o ho
    rcases List.mem_append.1 ho with ho | ho
    · exact ih rfl o ho
    · exact ⟨_, _, hv, ho⟩
  | itemsSeparated _ _ _ ih =>
    cases hp
    exact ih rfl
  | _ => cases hp

/-- The doc-strings of constructors. -/
theorem docs_constructors {constructors : List Constructor}
    (h : ∀ o ∈ os, ∃ u ts, Derives .constructor u ts ∧ o ∈ ts)
    (hs : Stores names a m (constructors.map Constructor.view) os m') :
    (leavesAll os).filter TokenKind.isDoc =
      (constructors.flatMap fun c => c.attrs.docs).map TokenKind.docString := by
  induction constructors generalizing m os with
  | nil =>
    cases hs
    rfl
  | cons c constructors ih =>
    obtain ⟨o, os, m₁, rfl, hc, hs⟩ := hs.split
    have rest := ih (fun o ho => h o (List.mem_cons_of_mem _ ho)) hs
    obtain ⟨u, ts, hD, ho⟩ := h o List.mem_cons_self
    cases hD with
    | @constructor u v w attrs name kind hattrs hname hkind =>
      cases List.mem_singleton.1 ho
      obtain ⟨us, he, hc⟩ := hc.unwrap
      cases he
      obtain ⟨_, _, _, he, hc, -⟩ := hc.split
      cases he
      have tail : DocFree [name, kind] := DocFree.cons.2 ⟨hname.docFree rfl, hkind.docFree rfl⟩
      rw [Outline.leavesAll_cons, List.filter_append, rest, List.flatMap_cons, List.map_append,
        ← hattrs.docs_attrs hc]
      simp only [Outline.leaves_node, Outline.leavesAll_cons (o := attrs), List.filter_append,
        tail.filter_isDoc, List.append_nil, Outline.leavesAll_nil]

/-- Only constructors have doc-strings of their own. -/
theorem Derives.docFree_declKind {form : Form} (h : Derives .declKind u [node form os])
    (hf : form ≠ .inductiveType) : DocFree [node form os] := by
  cases h with
  | usingDecl _ h => simp [h.docFree rfl]
  | command _ h₁ h₂ =>
    have hpath := h₁.docFree rfl
    have hargs := h₂.docFree rfl
    simp [hpath, hargs]
  | inductiveDecl => exact absurd rfl hf
  | signatureDecl h₁ h₂ h₃ h₄ =>
    have hpath := h₁.docFree rfl
    have hparams := h₂.docFree rfl
    have htype := h₃.docFree rfl
    have hbody := h₄.docFree rfl
    simp [hpath, hparams, htype, hbody]
  | clauseDecl _ h₁ h₂ h₃ =>
    have hpath := h₁.docFree rfl
    have hatoms := h₂.docFree rfl
    have hvalue := h₃.docFree rfl
    simp [hpath, hatoms, hvalue]

/-- The doc-strings of a declaration without what stands before it. -/
theorem Derives.docs_declKind {kind : DeclKind} (h : Derives .declKind u [o])
    (hs : Stores names a m [kind.view] [o] m') :
    (leavesAll [o]).filter TokenKind.isDoc = kind.docs.map TokenKind.docString := by
  cases kind with
  | inductiveType name params type constructors =>
    obtain ⟨us, ho, parts⟩ := hs.unwrap
    cases ho
    cases h with
    | @inductiveDecl _ _ _ _ u v w x p params type constructors _ _ _ hp hparams htype hx =>
      have head : DocFree [p, node .row params, type] := by
        have h₁ := hp.docFree rfl
        have h₂ := hparams.docFree rfl
        have h₃ := htype.docFree rfl
        simp [h₁, h₂, h₃]
      obtain ⟨_, _, _, he₁, -, parts₁⟩ := parts.split
      cases he₁
      obtain ⟨_, _, _, he₂, -, parts₂⟩ := parts₁.split
      cases he₂
      obtain ⟨_, _, _, he₃, -, parts₃⟩ := parts₂.split
      cases he₃
      obtain ⟨_, he, row⟩ := parts₃.unwrap
      cases he
      have hdocs := docs_constructors hx.of_items row
      have hhead := head.filter_isDoc
      simp only [Outline.leavesAll_cons, Outline.leaves_node, Outline.leavesAll_nil, List.append_nil,
        List.filter_append, List.append_eq_nil_iff] at hhead ⊢
      rw [hhead.1, hhead.2.1, hhead.2.2]
      exact hdocs
  | _ =>
    obtain ⟨us, ho, -⟩ := hs.unwrap
    cases ho
    rw [(h.docFree_declKind (by simp)).filter_isDoc]
    rfl

/-- The doc-strings of a declaration. -/
theorem Derives.docs_decl {d : Decl} (h : Derives .decl u [o])
    (hs : Stores names a m [d.view] [o] m') :
    (leavesAll [o]).filter TokenKind.isDoc = d.docs.map TokenKind.docString := by
  obtain ⟨us, ho, parts⟩ := hs.unwrap
  cases ho
  have both : ∀ {u v : List Token} {attrs kind : Outline TokenKind}, Derives .attrs u [attrs] →
      Derives .declKind v [kind] → us = [attrs, kind] →
      (leavesAll us).filter TokenKind.isDoc = d.docs.map TokenKind.docString := by
    rintro u v attrs kind hattrs hkind rfl
    obtain ⟨_, _, _, he, first, second⟩ := parts.split
    cases he
    rw [Outline.leavesAll_cons, List.filter_append, Decl.docs, List.map_append,
      ← hattrs.docs_attrs first, ← hkind.docs_declKind second]
    simp
  have h' : (leavesAll [node (.decl d.visibility) us]) = leavesAll us := by simp
  rw [h']
  generalize hv : d.visibility = visibility at h
  cases h with
  | decl hattrs hkind => exact both hattrs hkind rfl
  | visibleDecl _ hattrs hkind => exact both hattrs hkind rfl

/-- The doc-strings of some declarations. -/
theorem Derives.docs_decls {ds : List Decl} (h : Derives .decls u os)
    (hs : Stores names a m (ds.map Decl.view) os m') :
    (leavesAll os).filter TokenKind.isDoc = (ds.flatMap Decl.docs).map TokenKind.docString := by
  induction ds generalizing u os m with
  | nil =>
    cases hs
    rfl
  | cons d ds ih =>
    obtain ⟨o, os, m₁, rfl, first, others⟩ := hs.split
    cases h with
    | declsCons _ _ hd hds =>
      have hone := hd.docs_decl first
      rw [Outline.leavesAll_cons, Outline.leavesAll_nil, List.append_nil] at hone
      rw [Outline.leavesAll_cons, List.filter_append, ih hds others, hone, List.flatMap_cons,
        List.map_append]

end Docs

/-! ## A whole source -/

/-- The names of operator tokens are read back as these tokens. -/
theorem Derives.operatorKind {p : Phrase} {u : List Token} {ts : List (Outline TokenKind)}
    {names : Interner} (h : Derives p u ts) (hs : ∀ t ∈ u, t.kind.Sound names) (n : Name)
    (hn : TokenKind.operator n ∈ leavesAll ts) : names.operatorKind n = .operator n := by
  have hmem : TokenKind.operator n ∈ pick TokenKind.isPayload u := by
    rw [h.pick_leaves selection_payload]
    exact List.mem_filter.2 ⟨hn, rfl⟩
  obtain ⟨tok, htok, hkind⟩ := List.mem_map.1 (List.mem_filter.1 hmem).1
  have := hs tok htok
  rw [hkind] at this
  exact this.operatorKind

/-- Declarations that were read and stored have the outlines with which they were read. -/
theorem Derives.read_decls {u : List Token} {os : List (Outline TokenKind)} {names : Interner}
    {a : Arena} {m m' : Mark} {ds : List Decl} (h : Derives .decls u os)
    (hs : ∀ t ∈ u, t.kind.Sound names) (hstores : Stores names a m (ds.map Decl.view) os m') :
    (ds.map fun d => a.read names d.view) = os := by
  have := hstores.read (h.operatorKind hs)
  rwa [List.map_map] at this

theorem pick_eq_filter {f : TokenKind → Bool} (tokens : TokenList) :
    pick f tokens.toList = tokens.kinds.filter f := rfl

/-- Tokens that are not kept do not matter. -/
theorem Selection.pick_of_tags {f : TokenKind → Bool} (hf : Selection f) {u : List Token}
    (h : ∀ t ∈ u, t.tag.isKept = false) : pick f u = [] := by
  induction u with
  | nil => rfl
  | cons t u ih =>
    rw [hf.pick_cons_of_tag rfl (h t List.mem_cons_self)]
    exact ih fun t ht => h t (List.mem_cons_of_mem _ ht)

/-- Nothing follows the first `eof` of a source. -/
theorem tail_of_lex {body b u r : List Token} {last : Token} {names : Interner}
    (h : body ++ [last] = b ++ u ++ r) (hbody : ∀ t ∈ body, t.kind.Sound names)
    (hr : headTag r = .eof) : ∀ t ∈ r, t.tag = .eof := by
  cases r with
  | nil => exact fun _ ht => by cases ht
  | cons tok r =>
    rcases List.eq_nil_or_concat r with rfl | ⟨front, t, rfl⟩
    · intro t ht
      rw [List.mem_singleton.1 ht]
      exact hr
    · -- the end would stand among the tokens before the last one
      have hfront : body = b ++ u ++ tok :: front := by
        have h' : body ++ [last] = (b ++ u ++ tok :: front) ++ [t] := by
          rw [h, List.concat_eq_append, List.append_assoc (b ++ u), List.cons_append]
        exact (List.append_inj' h' rfl).1
      have hsound := hbody tok (by simp [hfront])
      exact absurd (TokenKind.eq_of_tag hr rfl) hsound.ne_eof

/-- A parse begins with a lexed source. -/
theorem exists_lexed {source : String} {names names' : Interner} {recovery : Recovery}
    {output : ParseOutput} (h : parseSource source names recovery = (.ok output, names')) :
    ∃ tokens names₁, lex source names = (.ok tokens, names₁) ∧
      parse tokens names₁ recovery = (.ok output, names') := by
  unfold parseSource at h
  split at h
  · cases h
  rename_i tokens names₁ hlex
  split at h
  · cases h
  rename_i _ output' names₂ hparse
  cases h
  exact ⟨tokens, names₁, hlex, hparse⟩

/-- **A strict parse that succeeds loses no token, makes none up and keeps their order.**  A walk
through the module meets exactly the names, operators, literals and universes of the source, and the
doc-strings of its declarations are those of the source. -/
theorem parseSource_keeps_tokens {source : String} {names names' : Interner} {output : ParseOutput}
    (h : parseSource source names .strict = (.ok output, names')) :
    ∃ tokens names₁, lex source names = (.ok tokens, names₁) ∧
      output.module.payload names' output.arena = tokens.kinds.filter TokenKind.isPayload ∧
      output.module.docs.map TokenKind.docString = tokens.kinds.filter TokenKind.isDoc := by
  obtain ⟨tokens, names₁, hlex, hparse⟩ := exists_lexed h
  obtain ⟨b, u, r, os, hsplit, hb, hr, hD, hkept, hstores⟩ := parse_strict hparse
  obtain ⟨body, last, hbody, hlast, hsound⟩ := lex_sound hlex
  have hend := tail_of_lex (hbody.symm.trans hsplit) hsound hr
  have picked : ∀ {f}, Selection f → tokens.kinds.filter f = (leavesAll os).filter f := by
    intro f hf
    rw [← pick_eq_filter, hsplit, pick_append, pick_append, hD.pick_leaves hf,
      hf.pick_of_tags fun t ht => by rw [hb t ht]; rfl,
      hf.pick_of_tags fun t ht => by rw [hend t ht]; rfl, List.nil_append, List.append_nil]
  have sound : ∀ t ∈ u, t.kind.Sound names' := by
    intro t ht
    have htok : t ∈ body ++ [last] := by simp [← hbody, hsplit, ht]
    rcases List.mem_append.1 htok with htok | htok
    · exact (hsound t htok).mono hkept
    · refine absurd ?_ (hD.nested.ne_eof t ht)
      rw [List.mem_singleton.1 htok, Token.tag, hlast]
      rfl
  refine ⟨tokens, names₁, hlex, ?_, ?_⟩
  · rw [picked selection_payload, Module.payload, ← hD.read_decls sound hstores,
      Outline.leavesAll_eq_flatMap, List.flatMap_map]
  · rw [picked selection_docs, Module.docs, hD.docs_decls hstores]

/-- A documented clause is kept, the sign between its operands apart. -/
theorem documented_clause_keeps_tokens :
    ∃ output names', parseSource "//! d\nf x = ^a | 1 + x\n" .new .strict = (.ok output, names') ∧
      ∃ tokens names₁, lex "//! d\nf x = ^a | 1 + x\n" .new = (.ok tokens, names₁) ∧
        output.module.payload names' output.arena = tokens.kinds.filter TokenKind.isPayload ∧
        output.module.docs.map TokenKind.docString = tokens.kinds.filter TokenKind.isDoc := by
  have succeeds : (parseSource "//! d\nf x = ^a | 1 + x\n" .new .strict).1.isOk = true := by
    decide +kernel
  generalize hrun : parseSource "//! d\nf x = ^a | 1 + x\n" .new .strict = run at succeeds
  obtain ⟨_ | output, names'⟩ := run
  · cases succeeds
  · exact ⟨output, names', rfl, parseSource_keeps_tokens hrun⟩

end SolSyntax
