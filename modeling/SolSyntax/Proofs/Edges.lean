import SolSyntax.Proofs.Derivation

/-!
# How phrases begin and end

Principal results: `Derives.startsDecl` — a declaration begins with one of a few tags; `Derives.endsIn`
— no phrase ends in a point, and only a few may end in a line break.
-/

namespace SolSyntax

open Grammar

/-! ## The first token -/

/-- The tags of names. -/
def Tag.isName : Tag → Bool
  | .ident | .symbol => true
  | _ => false

/-- The tags that begin a declaration. -/
def Tag.startsDecl : Tag → Bool
  | .docString | .atSign | .kwPublic | .kwSealed | .kwPrivate | .kwInternal | .kwUsing | .hash
  | .kwInductive | .ident | .symbol => true
  | _ => false

theorem TokenKind.exists_name {k : TokenKind} (h : k.tag.isName = true) :
    ∃ n, k = .ident n ∨ k = .symbol n := by
  cases k with
  | ident n => exact ⟨n, .inl rfl⟩
  | symbol n => exact ⟨n, .inr rfl⟩
  | _ => cases h

theorem Tag.startsDecl_of_isName {t : Tag} (h : t.isName = true) : t.startsDecl = true := by
  cases t <;> first | rfl | cases h

/-- What begins a declaration ends no line and goes on with no `if`. -/
theorem Tag.ne_of_startsDecl {t : Tag} (h : t.startsDecl = true) :
    t ≠ .newline ∧ t ≠ .eof ∧ t ≠ .kwElse ∧ t ≠ .dot ∧ t ≠ .hashBang := by
  cases t <;> first | decide | cases h

variable {u v : List Token} {ts : List (Outline TokenKind)}

theorem headTag_append (hu : u ≠ []) : headTag (u ++ v) = headTag u := by
  cases u with
  | nil => exact absurd rfl hu
  | cons t u => rfl

/-- A path begins with a name. -/
theorem Derives.isName_path (h : Derives .path u ts) : (headTag u).isName = true := by
  cases h with
  | path hi _ =>
    cases hi with
    | @ident t hk =>
      show t.kind.tag.isName = true
      cases ht : t.kind <;> simp_all [TokenKind.isIdent, TokenKind.tag, Tag.isName]

/-- What stands before a declaration is nothing, or begins with a doc-string or an attribute. -/
theorem Derives.headTag_attrs (h : Derives .attrs u ts) :
    u = [] ∨ headTag u = .docString ∨ headTag u = .atSign := by
  cases h with
  | attrs h =>
    generalize hp : Phrase.star .attachment = p at h
    induction h with
    | starNil => exact .inl rfl
    | @starSnoc _ u v _ _ _ hlast ih =>
      cases hp
      rcases ih rfl with rfl | hu
      · refine .inr ?_
        cases hlast with
        | docAttachment hd => exact .inl hd
        | attrAttachment ha =>
          cases ha with
          | attr hat => exact .inr hat
      · refine .inr ?_
        rwa [headTag_append]
        rintro rfl
        rcases hu with hu | hu <;> cases hu
    | _ => cases hp

theorem Derives.startsDecl_declKind (h : Derives .declKind u ts) :
    (headTag u).startsDecl = true := by
  cases h with
  | usingDecl h _ | command h _ _ | inductiveDecl h =>
    rw [headTag_cons, h]
    rfl
  | signatureDecl hp | clauseDecl _ hp =>
    simp only [List.append_assoc]
    rw [headTag_append (hp.ne_nil rfl)]
    exact Tag.startsDecl_of_isName hp.isName_path

/-- A declaration begins with one of a few tags. -/
theorem Derives.startsDecl (h : Derives .decl u ts) : (headTag u).startsDecl = true := by
  have key : ∀ {u v : List Token} {as : List (Outline TokenKind)}, Derives .attrs u as →
      (headTag v).startsDecl = true → (headTag (u ++ v)).startsDecl = true := by
    intro u v as hattrs hv
    cases u with
    | nil => exact hv
    | cons t u =>
      rw [List.cons_append, headTag_cons]
      rcases hattrs.headTag_attrs with hu | hu | hu
      · cases hu
      · rw [show t.tag = _ from hu]
        rfl
      · rw [show t.tag = _ from hu]
        rfl
  cases h with
  | decl hattrs hkind => exact key hattrs hkind.startsDecl_declKind
  | @visibleDecl _ t _ _ _ _ hv hattrs _ =>
    refine key hattrs ?_
    show t.kind.tag.startsDecl = true
    cases ht : t.kind <;> simp_all [TokenKind.visibility?, TokenKind.tag, Tag.startsDecl]

theorem skipBreaks_append {b r : List Token} (hb : AllBreaks b) : skipBreaks (b ++ r) = skipBreaks r := by
  refine List.dropWhile_append_of_pos fun t ht => ?_
  rw [hb t ht]
  rfl

theorem skipBreaks_cons {n : Token} (hn : n.tag = .newline) (r : List Token) :
    skipBreaks (n :: r) = skipBreaks r := by
  rw [skipBreaks, List.dropWhile_cons, hn]
  rfl

theorem skipBreaks_eq_self {r : List Token} (hr : headTag r ≠ .newline) : skipBreaks r = r := by
  cases r with
  | nil => rfl
  | cons t r => exact List.dropWhile_cons_of_neg (by simpa using hr)

/-- Declarations begin with line breaks, or with what begins a declaration. -/
theorem Derives.headTag_skipBreaks_decls (h : Derives .decls u ts) :
    headTag (skipBreaks (u ++ v)) = headTag (skipBreaks v) ∨
      (headTag (skipBreaks (u ++ v))).startsDecl = true := by
  cases h with
  | declsNil hb => exact .inl (by rw [skipBreaks_append hb])
  | @declsCons b u v' o ts hb _ hd _ =>
    have hstart := hd.startsDecl
    refine .inr ?_
    have hhead : headTag (u ++ (v' ++ v)) = headTag u := headTag_append (hd.ne_nil rfl)
    rw [List.append_assoc, List.append_assoc, skipBreaks_append hb, skipBreaks_eq_self, hhead]
    · exact hstart
    · rw [hhead]
      exact (Tag.ne_of_startsDecl hstart).1

theorem Derives.headTag_decls_cases (h : Derives .decls u ts) (hu : u ≠ []) :
    headTag u = .newline ∨ (headTag u).startsDecl = true := by
  cases h with
  | declsNil hb =>
    cases u with
    | nil => exact absurd rfl hu
    | cons t u => exact .inl (hb t List.mem_cons_self)
  | @declsCons b u v' o ts hb _ hd _ =>
    cases b with
    | nil =>
      rw [List.nil_append, headTag_append (hd.ne_nil rfl)]
      exact .inr hd.startsDecl
    | cons t b => exact .inl (hb t List.mem_cons_self)

/-- No `else` comes after declarations that the tokens end with. -/
theorem Derives.headTag_decls_ne_else (h : Derives .decls u ts) {e : Token} (he : e.tag = .eof) :
    headTag (skipBreaks (u ++ [e])) ≠ .kwElse := by
  have hend : skipBreaks [e] = [e] := skipBreaks_eq_self (by rw [headTag_cons, he]; decide)
  rcases h.headTag_skipBreaks_decls (v := [e]) with hh | hh
  · rw [hh, hend, headTag_cons, he]
    decide
  · exact (Tag.ne_of_startsDecl hh).2.2.1

/-- Declarations do not begin with a point. -/
theorem Derives.headTag_decls_ne_dot (h : Derives .decls u ts) (hv : headTag v ≠ .dot) :
    headTag (u ++ v) ≠ .dot := by
  by_cases hu : u = []
  · rw [hu]
    exact hv
  · rw [headTag_append hu]
    rcases h.headTag_decls_cases hu with hh | hh
    · rw [hh]
      decide
    · exact (Tag.ne_of_startsDecl hh).2.2.2.1

/-! ## The last token -/

/-- The tags that end a phrase. -/
def Tag.endsPhrase : Tag → Bool
  | .ident | .symbol | .int | .float | .string | .char | .dotDot | .kwUniverse | .kwReturn | .eq | .rparen
  | .rbracket | .rbrace => true
  | _ => false

/-- The tags of what may be read with a phrase behind it. -/
def Tag.trails : Tag → Bool
  | .newline | .comma | .docString => true
  | _ => false

/-- Phrases that hold nothing behind their last part. -/
def Phrase.isTight : Phrase → Bool
  | .star p | .opt p => p.isTight
  | .items .. | .attachment | .attrs | .decls => false
  | _ => true

/-- The tags in which a phrase may end. -/
def Phrase.mayEnd (p : Phrase) (t : Tag) : Bool := t.endsPhrase || !p.isTight && t.trails

/-- If there is a last token its tag has a property. -/
def EndsIn (ok : Tag → Bool) (u : List Token) : Prop := ∀ t, u.getLast? = some t → ok t.tag = true

namespace EndsIn

variable {ok : Tag → Bool}

theorem nil : EndsIn ok [] := fun _ h => by cases h

theorem append (hu : EndsIn ok u) (hv : EndsIn ok v) : EndsIn ok (u ++ v) := by
  intro t ht
  rw [List.getLast?_append] at ht
  cases hl : v.getLast? with
  | none =>
    rw [hl, Option.none_or] at ht
    exact hu t ht
  | some l =>
    rw [hl, Option.some_or] at ht
    exact hv t (hl.trans ht)

theorem single {t : Token} (h : ok t.tag = true) : EndsIn ok [t] := by
  intro l hl
  rwa [← Option.some.inj (List.getLast?_singleton.symm.trans hl)]

/-- What stands before other tokens does not matter. -/
theorem cons_of_ne_nil {t : Token} (hu : EndsIn ok u) (hne : u ≠ []) : EndsIn ok (t :: u) := by
  intro l hl
  rw [List.getLast?_cons_of_ne_nil hne] at hl
  exact hu l hl

theorem append_of_ne_nil (hv : EndsIn ok v) (hne : v ≠ []) : EndsIn ok (u ++ v) := by
  intro t ht
  rw [List.getLast?_append, List.getLast?_eq_some_getLast hne, Option.some_or] at ht
  exact hv t ((List.getLast?_eq_some_getLast hne).trans ht)

theorem of_all (h : ∀ t ∈ u, ok t.tag = true) : EndsIn ok u := fun t ht => h t (List.mem_of_getLast? ht)

theorem cons {t : Token} (h : ok t.tag = true) (hu : EndsIn ok u) : EndsIn ok (t :: u) := (single h).append hu

/-- Only what follows a token matters. -/
theorem behind {t : Token} (hv : EndsIn ok v) (hne : v ≠ []) : EndsIn ok (u ++ t :: v) :=
  (hv.cons_of_ne_nil hne).append_of_ne_nil (List.cons_ne_nil _ _)

theorem group {o c : Token} (hc : ok c.tag = true) : EndsIn ok (o :: (u ++ [c])) :=
  ((single hc).append_of_ne_nil (List.cons_ne_nil _ _)).cons_of_ne_nil (by simp)

/-- A tight phrase ends in what any phrase may end in. -/
theorem widen {p q : Phrase} (h : EndsIn p.mayEnd u) (hp : p.isTight = true) : EndsIn q.mayEnd u := by
  intro t ht
  have := h t ht
  rw [Phrase.mayEnd, hp, Bool.not_true, Bool.false_and, Bool.or_false] at this
  rw [Phrase.mayEnd, this, Bool.true_or]

/-- A phrase that is not tight may end in what any phrase ends in. -/
theorem loosen {p q : Phrase} (h : EndsIn p.mayEnd u) (hq : q.isTight = false) : EndsIn q.mayEnd u := by
  intro t ht
  have := h t ht
  rw [Phrase.mayEnd, Bool.or_eq_true, Bool.and_eq_true] at this
  rw [Phrase.mayEnd, hq, Bool.not_false, Bool.true_and, Bool.or_eq_true]
  exact this.imp_right And.right

theorem of_allBreaks {p : Phrase} (hp : p.isTight = false) (h : AllBreaks u) : EndsIn p.mayEnd u :=
  of_all fun t ht => by
    rw [h t ht, Phrase.mayEnd, hp]
    rfl

theorem of_separates {p : Phrase} (hp : p.isTight = false) {s : Separators} (h : s.Separates u) :
    EndsIn p.mayEnd u := by
  refine of_all fun t ht => ?_
  have htag : t.tag = .comma ∨ t.tag = .newline := by
    cases s with
    | comma =>
      obtain ⟨c, rfl, hc⟩ := h
      rw [List.mem_singleton.1 ht]
      exact .inl hc
    | loose => exact h.2 t ht
    | lines => exact .inr (h.2 t ht)
  rcases htag with htag | htag <;> rw [htag, Phrase.mayEnd, hp] <;> rfl

end EndsIn

/-- How phrases end: none in a point, and a tight one not in a line break. -/
theorem Derives.endsIn {p : Phrase} (h : Derives p u ts) : EndsIn p.mayEnd u := by
  induction h with
  | starNil | optNone | itemsNil | elseNone | noBlockArgument | noArgs | noLineArgs => exact .nil
  | starSnoc _ _ ih₁ ih₂ => exact ih₁.append ih₂
  | optSome _ ih | attrs _ ih => exact ih
  | itemsPad _ hb ih => exact ih.append (.of_allBreaks rfl hb)
  | itemsNext _ _ _ ih₁ ih₂ => exact EndsIn.append ih₁ (ih₂.loosen rfl)
  | itemsSeparated _ _ hs ih => exact EndsIn.append ih (.of_separates rfl hs)
  | declsNil hb => exact .of_allBreaks rfl hb
  | declsCons hb _ _ _ ih₁ ih₂ => exact ((EndsIn.of_allBreaks rfl hb).append (ih₁.loosen rfl)).append ih₂
  | docAttachment h hb => exact .cons (by rw [h]; rfl) (.of_allBreaks rfl hb)
  | attrAttachment _ hb ih => exact (ih.loosen rfl).append (.of_allBreaks rfl hb)
  | @ident t hk =>
    refine .single ?_
    show Phrase.mayEnd .ident t.kind.tag = true
    cases ht : t.kind <;> first | rfl | (rw [ht] at hk; cases hk)
  | @literalPattern t l hl | @literal _ t l hl =>
    refine .single ?_
    show Phrase.mayEnd _ t.kind.tag = true
    cases ht : t.kind <;> first | rfl | (rw [ht] at hl; cases hl)
  | restPattern h | univ h => exact .single (by rw [h]; rfl)
  | groupPattern _ hc | group _ hc | tuple _ hc | array _ hc | args _ hc | block _ hc =>
    exact .group (by rw [hc]; rfl)
  | paramSet hs hc =>
    refine .group ?_
    rw [hc]
    unfold paramSetShape? at hs
    split at hs <;> cases hs <;> rfl
  | path _ _ ih₁ ih₂ | appliedPattern _ _ ih₁ ih₂ | lineArgs _ _ ih₁ ih₂ =>
    exact (ih₁.widen rfl).append (ih₂.widen rfl)
  | application _ _ _ _ _ ih₁ ih₂ ih₃ => exact ((ih₁.widen rfl).append (ih₂.widen rfl)).append (ih₃.widen rfl)
  | signatureDecl _ _ _ _ ih₁ ih₂ ih₃ ih₄ =>
    exact (((ih₁.widen rfl).append (ih₂.widen rfl)).append (ih₃.widen rfl)).append (ih₄.widen rfl)
  | constructor _ hv _ _ ih₂ ih₃ =>
    exact ((ih₂.widen rfl).append_of_ne_nil (hv.ne_nil rfl)).append (ih₃.widen rfl)
  | decl _ hv _ ih => exact (ih.widen rfl).append_of_ne_nil (hv.ne_nil rfl)
  | segment _ hu ih | forAll _ hu ih | freeVar _ hu ih | typing _ hu ih | usingDecl _ hu ih | moreArg _ hu ih =>
    exact (ih.widen rfl).cons_of_ne_nil (hu.ne_nil rfl)
  | ret h _ ih => exact .cons (by rw [h]; rfl) (ih.widen rfl)
  | attr _ hu _ ih₁ ih₂ | command _ hu _ ih₁ ih₂ =>
    exact ((ih₁.widen rfl).append (ih₂.widen rfl)).cons_of_ne_nil (by simp [hu.ne_nil rfl])
  | typedParam _ _ hv _ ih | chain _ _ hv _ ih | annotated _ _ _ hv _ ih | sigma _ _ _ hv _ ih
    | domainArrow _ _ _ hv _ ih | paramsArrow _ _ _ hv _ ih | visibleDecl _ _ hv _ ih =>
    exact (ih.widen rfl).behind (hv.ne_nil rfl)
  | lambda _ _ _ _ hv _ ih | letStmt _ _ _ _ hv _ _ ih =>
    exact ((ih.widen rfl).behind (hv.ne_nil rfl)).cons_of_ne_nil (by simp)
  | cases _ _ hc | inductiveDecl _ _ hc =>
    refine EndsIn.cons_of_ne_nil (.append_of_ne_nil (.group ?_) (List.cons_ne_nil _ _)) (by simp)
    rw [hc]
    rfl
  | conditional _ _ _ _ _ hv _ _ ih₂ ih₃ =>
    refine EndsIn.cons_of_ne_nil (.behind (.append ?_ (ih₃.widen rfl)) ?_) (by simp)
    · exact (ih₂.widen rfl).append_of_ne_nil (hv.ne_nil rfl)
    · simp [hv.ne_nil rfl]
  | elseSome _ _ _ hu ih | arm _ _ _ hu _ ih =>
    exact ((ih.widen rfl).append_of_ne_nil (hu.ne_nil rfl)).behind (by simp [hu.ne_nil rfl])
  | clauseDecl he _ _ _ _ _ ih =>
    exact .append_of_ne_nil (.cons (by rw [he]; rfl) (ih.widen rfl)) (List.cons_ne_nil _ _)
  | pathPattern _ ih | atomPattern _ ih | bareType _ _ ih | barePattern _ ih | pathOperand _ ih
    | conditionalOperand _ ih | blockBranch _ ih | exprBranch _ ih | operandApplication _ ih
    | argument _ _ ih | blockArgument _ _ ih | applicationChain _ ih | chainAnnotated _ ih
    | annotatedSigma _ ih | sigmaArrow _ ih | arrowExpr _ ih | ifStmt _ ih | exprStmt _ ih
    | signatureConstructor _ ih | functionConstructor _ ih => exact ih.widen rfl

/-- The tokens do not end in a point. -/
def EndsWell (u : List Token) : Prop := ∀ t, u.getLast? = some t → t.tag ≠ .dot

/-- No phrase ends in a point. -/
theorem Derives.endsWell {p : Phrase} (h : Derives p u ts) : EndsWell u := by
  intro t ht hdot
  have := h.endsIn t ht
  rw [hdot, Phrase.mayEnd] at this
  cases hp : p.isTight <;> rw [hp] at this <;> cases this

/-! ## Lines -/

/-- Phrases that hold no line break outside of brackets. -/
def Phrase.inLine : Phrase → Bool
  | .ident | .segment | .path | .atom => true
  | .star p => p.inLine
  | _ => false

theorem TokenKind.ne_newline_of_isIdent {t : Token} (h : t.kind.isIdent) : t.tag ≠ .newline := by
  obtain ⟨kind, span, position⟩ := t
  cases kind <;> first | (intro e; cases e; done) | cases h

theorem TokenKind.ne_newline_of_literal? {t : Token} {l : Literal} (h : t.kind.literal? = some l) :
    t.tag ≠ .newline := by
  obtain ⟨kind, span, position⟩ := t
  cases kind <;> first | (intro e; cases e; done) | cases h

theorem Derives.nested_inLine {p : Phrase} (h : Derives p u ts) (hp : p.inLine = true) :
    Nested true u := by
  induction h with
  | starNil => exact .nil _
  | starSnoc _ _ ih₁ ih₂ => exact (ih₁ hp).append (ih₂ hp)
  | ident h =>
    exact .single (TokenKind.isPlain_of_isIdent h) fun _ => TokenKind.ne_newline_of_isIdent h
  | segment h _ ih => exact .token (by rw [h]; rfl) (fun _ => by rw [h]; decide) (ih rfl)
  | path _ _ ih₁ ih₂ => exact (ih₁ rfl).append (ih₂ rfl)
  | literalPattern h =>
    exact .single (TokenKind.isPlain_of_literal? h) fun _ => TokenKind.ne_newline_of_literal? h
  | pathPattern _ ih => exact ih rfl
  | restPattern h => exact .single (by rw [h]; rfl) fun _ => by rw [h]; decide
  | groupPattern ho hc hb₁ hb₂ hu =>
    exact .ofGroup (by rw [ho, hc]; rfl) ((hb₁.nested.append hu.nested).append hb₂.nested)
  | _ => cases hp

end SolSyntax
