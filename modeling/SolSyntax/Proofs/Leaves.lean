import SolSyntax.Proofs.Derivation

/-!
# What a derivation keeps of its tokens

The leaves of the outlines are the tokens that carry something, in their order.  Only doc-strings may
change places with attributes, because a node lists them first, so a selection of leaves keeps its
order if it does not mix doc-strings with other tokens.

Principal results: `Derives.pick_leaves` — the leaves of a selection are its tokens.
-/

namespace SolSyntax

open Outline (leaf node leavesAll)

/-- A tag whose tokens are leaves wherever they stand. -/
def Tag.isKept : Tag → Bool
  | .int | .float | .string | .char | .ident | .symbol | .operator | .docString | .kwUniverse => true
  | _ => false

/-- A selection of tokens that are kept, either doc-strings only or none of them. -/
structure Selection (f : TokenKind → Bool) : Prop where
  kept : ∀ k, f k = true → k.tag.isKept = true
  pure : (∀ k : TokenKind, k.tag = .docString → f k = false) ∨ ∀ k, f k = true → k.tag = .docString

/-- What a selection takes of some tokens. -/
def pick (f : TokenKind → Bool) (u : List Token) : List TokenKind := (u.map Token.kind).filter f

section Picking

variable {f : TokenKind → Bool} {u v : List Token}

@[simp] theorem pick_nil : pick f [] = [] := rfl

@[simp] theorem pick_append : pick f (u ++ v) = pick f u ++ pick f v := by
  simp [pick]

theorem pick_cons (t : Token) (u : List Token) : pick f (t :: u) = [t.kind].filter f ++ pick f u := by
  rw [pick, pick, List.map_cons, ← List.singleton_append, List.filter_append]

namespace Selection

variable (hf : Selection f)

include hf

/-- A token that is not kept is not taken. -/
theorem pick_cons_of_tag {t : Token} {tag : Tag} (ht : t.tag = tag) (hk : tag.isKept = false) :
    pick f (t :: u) = pick f u := by
  have : f t.kind = false := by
    cases h : f t.kind with
    | false => rfl
    | true =>
      have := hf.kept _ h
      rw [show t.kind.tag = tag from ht, hk] at this
      cases this
  simp [pick, this]

theorem pick_of_allBreaks (hu : AllBreaks u) : pick f u = [] := by
  induction u with
  | nil => rfl
  | cons t u ih =>
    rw [hf.pick_cons_of_tag (hu t List.mem_cons_self) rfl]
    exact ih fun t ht => hu t (List.mem_cons_of_mem _ ht)

theorem pick_of_separates {s : Separators} (hu : s.Separates u) : pick f u = [] := by
  have separators : ∀ u : List Token, (∀ t ∈ u, t.tag = .comma ∨ t.tag = .newline) → pick f u = [] := by
    intro u hu
    induction u with
    | nil => rfl
    | cons t u ih =>
      have := ih fun t ht => hu t (List.mem_cons_of_mem _ ht)
      rcases hu t List.mem_cons_self with ht | ht <;> rwa [hf.pick_cons_of_tag ht rfl]
  cases s with
  | comma =>
    obtain ⟨t, rfl, ht⟩ := hu
    exact separators _ (by simp [ht])
  | loose => exact separators u hu.2
  | lines => exact hf.pick_of_allBreaks hu.2

end Selection

end Picking

/-! ## Where doc-strings stand -/

/-- Whether a phrase may hold doc-strings. -/
def Phrase.holdsDocs : Phrase → Bool
  | .star p | .opt p | .items _ p _ | .args p => p.holdsDocs
  | .attachment | .attrs | .constructor | .declKind | .decl | .decls => true
  | _ => false

/-- Outlines without a doc-string among their leaves. -/
def DocFree (ts : List (Outline TokenKind)) : Prop := ∀ k ∈ leavesAll ts, k.tag ≠ .docString

namespace DocFree

variable {ts us : List (Outline TokenKind)} {o : Outline TokenKind}

@[simp] theorem nil : DocFree [] := fun _ h => by cases h

@[simp] theorem append : DocFree (ts ++ us) ↔ DocFree ts ∧ DocFree us := by
  simp [DocFree, or_imp, forall_and]

theorem cons : DocFree (o :: ts) ↔ DocFree [o] ∧ DocFree ts := by
  rw [← append, List.singleton_append]

@[simp] theorem cons_cons {p : Outline TokenKind} :
    DocFree (o :: p :: ts) ↔ DocFree [o] ∧ DocFree (p :: ts) := cons

@[simp] theorem node (form : Form) : DocFree [.node form ts] ↔ DocFree ts := by simp [DocFree]

@[simp] theorem leaf (k : TokenKind) : DocFree [.leaf k] ↔ k.tag ≠ .docString := by simp [DocFree]

theorem asType {p : Outline TokenKind} (h : o.asType = some p) : DocFree [p] ↔ DocFree [o] := by
  simp [DocFree, Outline.leaves_asType h]

theorem application {ctx : Context} {as bs : List (Outline TokenKind)} :
    DocFree [Outline.application ctx o as bs] ↔
      DocFree [o] ∧ DocFree as ∧ (ctx.inType = true ∨ DocFree bs) := by
  unfold Outline.application
  split
  · rename_i hc
    rw [node, cons, hc]
    simp
  · rename_i hc
    rw [node, cons, append, Bool.eq_false_iff.2 hc]
    simp

end DocFree

/-- Outside of what stands before declarations and constructors no leaf is a doc-string. -/
theorem Derives.docFree {p : Phrase} {u : List Token} {ts : List (Outline TokenKind)}
    (h : Derives p u ts) (hp : p.holdsDocs = false) : DocFree ts := by
  induction h with
  | docAttachment | attrAttachment | attrs | usingDecl | command | constructor | inductiveDecl
    | signatureDecl | clauseDecl | decl | visibleDecl | declsNil | declsCons => cases hp
  | @ident t h =>
    have : t.kind.tag ≠ .docString := by
      cases hk : t.kind <;> simp_all [TokenKind.isIdent, TokenKind.tag]
    simp [this]
  | @literalPattern t l h | @literal _ t l h =>
    have : t.kind.tag ≠ .docString := by
      cases hk : t.kind <;> simp_all [TokenKind.literal?, TokenKind.tag]
    simp [this]
  | univ => simp [TokenKind.tag]
  | @chain _ o _ _ _ _ h _ _ ih₁ ih₂ =>
    have : o.kind.tag ≠ .docString := by
      cases hk : o.kind <;> simp_all [TokenKind.isOperator, TokenKind.tag]
    simp [this, ih₁ rfl, ih₂ rfl]
  | domainArrow _ htype _ _ ih₁ ih₂ =>
    simp [Outline.domain, DocFree.asType htype, ih₁ rfl, ih₂ rfl]
  | application _ _ _ _ _ ih₁ ih₂ ih₃ =>
    exact DocFree.application.2 ⟨ih₁ rfl, ih₂ rfl, .inr (ih₃ rfl)⟩
  | _ => simp_all [Phrase.holdsDocs]

/-- Doc-strings and attributes in any order. -/
def Attached (ts : List (Outline TokenKind)) : Prop :=
  ∀ o ∈ ts, (∃ k, o = leaf k ∧ k.tag = .docString) ∨ o.isLeaf = false ∧ DocFree [o]

theorem Derives.attached {u : List Token} {ts : List (Outline TokenKind)}
    (h : Derives (.star .attachment) u ts) : Attached ts := by
  generalize hp : Phrase.star .attachment = p at h
  induction h with
  | starNil => exact fun _ h => by cases h
  | @starSnoc _ _ _ ts us _ hlast ih =>
    cases hp
    intro o ho
    obtain ho | ho := List.mem_append.1 ho
    · exact ih rfl o ho
    · cases hlast with
      | docAttachment hd =>
        cases List.mem_singleton.1 ho
        exact .inl ⟨_, rfl, hd⟩
      | attrAttachment hattr =>
        have hfree := hattr.docFree rfl
        cases hattr with
        | attr =>
          cases List.mem_singleton.1 ho
          exact .inr ⟨rfl, hfree⟩
  | _ => cases hp

/-! ## Leaves and tokens -/

namespace Selection

variable {f : TokenKind → Bool} (hf : Selection f)

include hf

/-- Listing doc-strings before attributes changes no selection. -/
theorem filter_attributes {ts : List (Outline TokenKind)} (h : Attached ts) :
    (leavesAll [Outline.attributes ts]).filter f = (leavesAll ts).filter f := by
  suffices (leavesAll (ts.filter Outline.isLeaf)).filter f ++
      (leavesAll (ts.filter (!·.isLeaf))).filter f = (leavesAll ts).filter f by
    simpa [Outline.attributes] using this
  induction ts with
  | nil => rfl
  | cons o ts ih =>
    have ih := ih fun p hp => h p (List.mem_cons_of_mem _ hp)
    rcases h o List.mem_cons_self with ⟨k, rfl, -⟩ | ⟨hnode, hfree⟩
    · rw [List.filter_cons_of_pos (by rfl), List.filter_cons_of_neg (by simp [Outline.isLeaf])]
      simp only [Outline.leavesAll_cons, List.filter_append, List.append_assoc, ih]
    · -- the attribute passes the doc-strings that are listed before it
      have passes : (leavesAll [o]).filter f = [] ∨ (leavesAll (ts.filter Outline.isLeaf)).filter f = [] := by
        rcases hf.pure with hpure | hpure
        · refine .inr (List.filter_eq_nil_iff.2 fun k hk => ?_)
          rw [Outline.leavesAll_eq_flatMap] at hk
          obtain ⟨p, hp, hk⟩ := List.mem_flatMap.1 hk
          obtain ⟨hp, hleaf⟩ := List.mem_filter.1 hp
          rcases h p (List.mem_cons_of_mem _ hp) with ⟨k', rfl, htag⟩ | ⟨hnode, -⟩
          · rw [Outline.leaves_leaf, List.mem_singleton] at hk
            rw [hk, hpure _ htag]
            simp
          · rw [hnode] at hleaf
            cases hleaf
        · exact .inl (List.filter_eq_nil_iff.2 fun k hk ht => hfree k hk (hpure k ht))
      rw [List.filter_cons_of_neg (by simp [hnode]), List.filter_cons_of_pos (by simp [hnode])]
      simp only [Outline.leavesAll_cons, Outline.leavesAll_nil, List.append_nil,
        List.filter_append] at passes ⊢
      rw [← ih]
      rcases passes with he | he <;> simp only [he, List.nil_append]

end Selection

theorem TokenKind.not_isKept_of_visibility? {k : TokenKind} {v : Visibility}
    (h : k.visibility? = some v) : k.tag.isKept = false := by
  cases k <;> simp_all [TokenKind.visibility?, TokenKind.tag, Tag.isKept]

theorem Grammar.not_isKept_of_paramSetShape? {o close : Tag} {k : ParamSetKind}
    (h : paramSetShape? o = some (k, close)) : o.isKept = false ∧ close.isKept = false := by
  cases o <;> cases h <;> exact ⟨rfl, rfl⟩

/-- The leaves of a selection are its tokens. -/
theorem Derives.pick_leaves {f : TokenKind → Bool} (hf : Selection f) {p : Phrase} {u : List Token}
    {ts : List (Outline TokenKind)} (h : Derives p u ts) : pick f u = (leavesAll ts).filter f := by
  induction h with
  | starNil | optNone | itemsNil | elseNone | noBlockArgument | noArgs | noLineArgs => simp
  | ident | literalPattern | literal => simp [pick_cons]
  | univ h =>
    rename_i t
    have : t.kind = .kwUniverse := TokenKind.eq_of_tag h rfl
    simp [pick_cons, this]
  | restPattern h => simp [hf.pick_cons_of_tag h rfl]
  | docAttachment _ hb => simp [pick_cons, hf.pick_of_allBreaks hb]
  | itemsPad _ hb ih | attrAttachment _ hb ih => simp [hf.pick_of_allBreaks hb, ih]
  | itemsSeparated _ _ hs ih => simp [hf.pick_of_separates hs, ih]
  | segment h _ ih | forAll h _ ih | freeVar h _ ih | ret h _ ih | typing h _ ih | usingDecl h _ ih
    | moreArg h _ ih => simp [hf.pick_cons_of_tag h rfl, ih]
  | groupPattern ho hc hb₁ hb₂ _ ih =>
    simp [hf.pick_cons_of_tag ho rfl, hf.pick_cons_of_tag hc rfl, hf.pick_of_allBreaks hb₁,
      hf.pick_of_allBreaks hb₂, ih]
  | group ho hc _ ih | tuple ho hc _ _ ih | array ho hc _ ih | args ho hc _ ih
    | block ho hc _ _ ih =>
    simp [hf.pick_cons_of_tag ho rfl, hf.pick_cons_of_tag hc rfl, ih]
  | paramSet hs hc _ ih =>
    obtain ⟨ho, hclose⟩ := Grammar.not_isKept_of_paramSetShape? hs
    simp [hf.pick_cons_of_tag rfl ho, hf.pick_cons_of_tag hc hclose, ih]
  | typedParam h _ _ ih₁ ih₂ | annotated _ h _ _ ih₁ ih₂ | sigma _ h _ _ ih₁ ih₂
    | paramsArrow _ h _ _ ih₁ ih₂ => simp [hf.pick_cons_of_tag h rfl, ih₁, ih₂]
  | domainArrow h htype _ _ ih₁ ih₂ =>
    simp [hf.pick_cons_of_tag h rfl, Outline.domain, Outline.leaves_asType htype, ih₁, ih₂]
  | chain _ _ _ ih₁ ih₂ =>
    rw [pick_append, pick_cons, ih₁, ih₂, ← List.filter_append, ← List.filter_append]
    simp
  | visibleDecl h _ _ ih₁ ih₂ =>
    simp [hf.pick_cons_of_tag rfl (TokenKind.not_isKept_of_visibility? h), ih₁, ih₂]
  | attr h _ _ ih₁ ih₂ | command h _ _ ih₁ ih₂ => simp [hf.pick_cons_of_tag h rfl, ih₁, ih₂]
  | cases hm ho hc _ _ ih₁ ih₂ =>
    simp [hf.pick_cons_of_tag hm rfl, hf.pick_cons_of_tag ho rfl, hf.pick_cons_of_tag hc rfl, ih₁, ih₂]
  | conditional hi ht hb₁ hb₂ _ _ _ ih₁ ih₂ ih₃ =>
    simp [hf.pick_cons_of_tag hi rfl, hf.pick_cons_of_tag ht rfl, hf.pick_of_allBreaks hb₁,
      hf.pick_of_allBreaks hb₂, ih₁, ih₂, ih₃]
  | elseSome he hb₁ hb₂ _ ih =>
    simp [hf.pick_cons_of_tag he rfl, hf.pick_of_allBreaks hb₁, hf.pick_of_allBreaks hb₂, ih]
  | arm ha hb _ _ ih₁ ih₂ =>
    simp [hf.pick_cons_of_tag ha rfl, hf.pick_of_allBreaks hb, ih₁, ih₂]
  | lambda hp hq _ _ _ ih₁ ih₂ =>
    simp [hf.pick_cons_of_tag hp rfl, hf.pick_cons_of_tag hq rfl, ih₁, ih₂]
  | letStmt hl he _ _ _ ih₁ ih₂ ih₃ =>
    simp [hf.pick_cons_of_tag hl rfl, hf.pick_cons_of_tag he rfl, ih₁, ih₂, ih₃]
  | @application ctx u v w callee as bs _ _ _ _ hblock ih₁ ih₂ ih₃ =>
    unfold Outline.application
    split
    · rename_i hc
      obtain rfl := hblock.blockArgument_inType hc
      simp [ih₁, ih₂, ih₃]
    · simp [ih₁, ih₂, ih₃]
  | attrs h ih => rw [ih, hf.filter_attributes h.attached]
  | inductiveDecl hi ho hc _ _ _ _ ih₁ ih₂ ih₃ ih₄ =>
    simp [hf.pick_cons_of_tag hi rfl, hf.pick_cons_of_tag ho rfl, hf.pick_cons_of_tag hc rfl, ih₁, ih₂,
      ih₃, ih₄]
  | clauseDecl he _ _ _ ih₁ ih₂ ih₃ => simp [hf.pick_cons_of_tag he rfl, ih₁, ih₂, ih₃]
  | declsNil hb => simp [hf.pick_of_allBreaks hb]
  | declsCons hb _ _ _ ih₁ ih₂ => simp [hf.pick_of_allBreaks hb, ih₁, ih₂]
  | _ => simp_all

end SolSyntax
