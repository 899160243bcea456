import SolSyntax.Proofs.Matching
import SolSyntax.Proofs.Taking

/-!
# Signatures and clauses

A declaration that begins with a name is taken for a clause if an `=` follows on the line, outside of
brackets and before any brace.  The scan that finds out knows nothing of the grammar.  It never errs: no
name or pattern of a clause holds a line break or a brace outside of brackets, and nothing of a signature
holds an `=` there.

Principal results: `Outside.lineHasIn_true`, `Outside.lineHasIn_false` — a scan passes over tokens that
hold nothing it looks for; `Derives.hides_eq`; `clause_or_signature`.
-/

namespace SolSyntax

open Grammar
open Outline (leaf node)

/-- Properly bracketed tokens, those outside of brackets and the opening brackets among them being of a
class. -/
inductive Outside (p : Tag → Prop) : List Token → Prop
  | nil : Outside p []
  | token {t u} : t.tag.isPlain → p t.tag → Outside p u → Outside p (t :: u)
  | group {o c u v} : o.tag.closing? = some c.tag → p o.tag → Nested false u → Outside p v →
      Outside p (o :: (u ++ c :: v))

namespace Outside

variable {p : Tag → Prop} {u v : List Token}

theorem append (h : Outside p u) (k : Outside p v) : Outside p (u ++ v) := by
  induction h with
  | nil => exact k
  | token ht hp _ ih => exact .token ht hp ih
  | group hc hp hu _ ih =>
    rw [List.cons_append, List.append_assoc, List.cons_append]
    exact .group hc hp hu ih

theorem single {t : Token} (ht : t.tag.isPlain) (hp : p t.tag) : Outside p [t] := .token ht hp .nil

/-- A group on its own. -/
theorem ofGroup {o c : Token} (h : o.tag.closing? = some c.tag) (hp : p o.tag) (hu : Nested false u) :
    Outside p (o :: (u ++ [c])) := .group h hp hu .nil

theorem of_forall {u : List Token} (h : ∀ t ∈ u, t.tag.isPlain ∧ p t.tag) : Outside p u := by
  induction u with
  | nil => exact .nil
  | cons t u ih =>
    obtain ⟨⟨ht, hp⟩, hu⟩ := List.forall_mem_cons.1 h
    exact .token ht hp (ih hu)

end Outside

/-! ## Scans of a line -/

section Scans

variable {tag : Tag} {stops : TagSet}

/-- Inside of brackets a scan of the line passes over properly bracketed tokens. -/
theorem lineHasIn_nested {oneLine : Bool} {u : List Token} (h : Nested oneLine u) (r : List Token) {d : Nat}
    (hd : 0 < d) : lineHasIn tag stops (u ++ r) d = lineHasIn tag stops r d := by
  have hdeep : d ≠ 0 := by omega
  induction h generalizing r d with
  | nil => rfl
  | token ht _ _ ih =>
    rw [List.cons_append, lineHasIn, if_neg (Tag.ne_eof_of_isPlain ht), if_neg (fun h => hdeep h.1),
      if_neg (fun h => hdeep h.1), Tag.depthFrom_of_isPlain ht, ih r hd hdeep]
  | @group _ o c m w hp _ _ ih₁ ih₂ =>
    have ho := Tag.isOpening_of_closing? hp
    have hc := Tag.isClosing_of_closing? hp
    rw [List.cons_append, List.append_assoc, List.cons_append, lineHasIn,
      if_neg (Tag.ne_eof_of_isOpening ho), if_neg (fun h => hdeep h.1), if_neg (fun h => hdeep h.1),
      Tag.depthFrom_of_isOpening ho, ih₁ _ (by omega) (by omega), lineHasIn,
      if_neg (Tag.ne_eof_of_isClosing hc), if_neg (by omega), if_neg (by omega),
      Tag.depthFrom_of_isClosing hc, Nat.add_sub_cancel, ih₂ r hd hdeep]

/-- A group on the line ends the scan at its opening bracket, or is passed. -/
theorem lineHasIn_group {o c : Token} {u : List Token} (h : o.tag.closing? = some c.tag)
    (hu : Nested false u) (r : List Token) :
    lineHasIn tag stops (o :: (u ++ c :: r)) 0 =
      if o.tag = tag then true else if stops.contains o.tag then false else lineHasIn tag stops r 0 := by
  have ho := Tag.isOpening_of_closing? h
  have hc := Tag.isClosing_of_closing? h
  have hline : o.tag ≠ .newline := fun e => by
    rw [e] at ho
    cases ho
  have hinner : lineHasIn tag stops (u ++ c :: r) 1 = lineHasIn tag stops r 0 := by
    rw [lineHasIn_nested hu _ Nat.one_pos, lineHasIn, if_neg (Tag.ne_eof_of_isClosing hc),
      if_neg (fun h => absurd h.1 (by decide)), if_neg (fun h => absurd h.1 (by decide)),
      Tag.depthFrom_of_isClosing hc]
  rw [lineHasIn, if_neg (Tag.ne_eof_of_isOpening ho), Tag.depthFrom_of_isOpening ho, Nat.zero_add, hinner]
  simp only [true_and, hline, Tag.isClosing_of_isOpening ho, false_or, Bool.false_eq_true, or_false]

variable {p : Tag → Prop} {u r : List Token} (h : Outside p u)
include h

/-- Tokens without a line break and without a stop do not hide what comes later on the line. -/
theorem Outside.lineHasIn_true (hp : ∀ t, p t → t ≠ .newline ∧ stops.contains t = false)
    (hr : lineHasIn tag stops r 0 = true) : lineHasIn tag stops (u ++ r) 0 = true := by
  induction h with
  | nil => exact hr
  | token ht hpt _ ih =>
    obtain ⟨hline, hstop⟩ := hp _ hpt
    have hplain := ht
    simp only [Tag.isPlain, Bool.and_eq_true, Bool.not_eq_true'] at hplain
    rw [List.cons_append, lineHasIn, if_neg (Tag.ne_eof_of_isPlain ht), Tag.depthFrom_of_isPlain ht, ih]
    simp [hline, hstop, hplain.1.2]
  | group hc hpo hu _ ih =>
    rw [List.cons_append, List.append_assoc, List.cons_append, lineHasIn_group hc hu, ih,
      if_neg (ne_true_of_eq_false (hp _ hpo).2), ite_self]

/-- What does not come outside of brackets is not found. -/
theorem Outside.lineHasIn_false (hp : ∀ t, p t → t ≠ tag) (hr : lineHasIn tag stops r 0 = false) :
    lineHasIn tag stops (u ++ r) 0 = false := by
  induction h with
  | nil => exact hr
  | token ht hpt _ ih =>
    rw [List.cons_append, lineHasIn, if_neg (Tag.ne_eof_of_isPlain ht), if_neg (fun h => hp _ hpt h.2),
      Tag.depthFrom_of_isPlain ht, ih, ite_self]
  | group hc hpo hu _ ih =>
    rw [List.cons_append, List.append_assoc, List.cons_append, lineHasIn_group hc hu, ih,
      if_neg (hp _ hpo), ite_self]

end Scans

/-! ## Phrases -/

/-- Phrases of the head of a clause. -/
def Phrase.inHead : Phrase → Bool
  | .ident | .segment | .path | .atom => true
  | .star p => p.inHead
  | _ => false

/-- Phrases that hold an `=` only inside of brackets. -/
def Phrase.hidesEq : Phrase → Bool
  | .stmt | .declKind | .decl | .decls => false
  | .star p | .opt p | .items _ p _ => p.hidesEq
  | _ => true

theorem TokenKind.tag_of_isIdent {t : Token} (h : t.kind.isIdent) : t.tag = .ident ∨ t.tag = .symbol := by
  obtain ⟨kind, span, position⟩ := t
  cases kind <;> first | (cases h; done) | simp [Token.tag, TokenKind.tag]

theorem TokenKind.tag_of_literal? {t : Token} {l : Literal} (h : t.kind.literal? = some l) :
    t.tag = .int ∨ t.tag = .float ∨ t.tag = .string ∨ t.tag = .char := by
  obtain ⟨kind, span, position⟩ := t
  cases kind <;> first | (cases h; done) | simp [Token.tag, TokenKind.tag]

theorem TokenKind.ne_eq_of_isOperator {t : Token} (h : t.kind.isOperator) : t.tag ≠ .eq := by
  obtain ⟨kind, span, position⟩ := t
  cases kind <;> first | (intro e; cases e; done) | cases h

/-- The head of a clause holds no line break and no brace outside of brackets. -/
theorem Derives.outside_inHead {ph : Phrase} {u : List Token} {ts : List (Outline TokenKind)}
    (h : Derives ph u ts) (hph : ph.inHead = true) : Outside (fun t => t ≠ .newline ∧ t ≠ .lbrace) u := by
  induction h with
  | starNil => exact .nil
  | starSnoc _ _ ih₁ ih₂ => exact (ih₁ hph).append (ih₂ hph)
  | ident h =>
    refine .single (TokenKind.isPlain_of_isIdent h) ?_
    rcases TokenKind.tag_of_isIdent h with h | h <;> rw [h] <;> decide
  | segment h _ ih => exact .token (by rw [h]; rfl) (by rw [h]; decide) (ih rfl)
  | path _ _ ih₁ ih₂ => exact (ih₁ rfl).append (ih₂ rfl)
  | literalPattern h =>
    refine .single (TokenKind.isPlain_of_literal? h) ?_
    rcases TokenKind.tag_of_literal? h with h | h | h | h <;> rw [h] <;> decide
  | pathPattern _ ih => exact ih rfl
  | restPattern h => exact .single (by rw [h]; rfl) (by rw [h]; decide)
  | groupPattern ho hc hb₁ hb₂ hu =>
    exact .ofGroup (by rw [ho, hc]; rfl) (by rw [ho]; decide)
      ((hb₁.nested.append hu.nested).append hb₂.nested)
  | _ => cases hph

section HidesEq

/-- A token of a given tag. -/
theorem Outside.cons_tag {p : Tag → Prop} {t : Token} {u : List Token} {tag : Tag} (ht : t.tag = tag)
    (hplain : tag.isPlain = true) (hp : p tag) (hu : Outside p u) : Outside p (t :: u) :=
  .token (ht ▸ hplain) (ht ▸ hp) hu

theorem AllBreaks.hides_eq {u : List Token} (h : AllBreaks u) : Outside (· ≠ .eq) u :=
  .of_forall fun t ht => h t ht ▸ ⟨rfl, by decide⟩

theorem Separators.Separates.hides_eq {s : Separators} {u : List Token} (h : s.Separates u) :
    Outside (· ≠ .eq) u := by
  have loose : ∀ {u : List Token}, (∀ t ∈ u, t.tag = .comma ∨ t.tag = .newline) → Outside (· ≠ .eq) u :=
    fun h => .of_forall fun t ht => by rcases h t ht with h | h <;> rw [h] <;> decide
  cases s with
  | comma =>
    obtain ⟨t, rfl, ht⟩ := h
    exact loose (by simp [ht])
  | loose => exact loose h.2
  | lines => exact AllBreaks.hides_eq h.2

/-- Outside of blocks and declarations an `=` is always in brackets. -/
theorem Derives.hides_eq {ph : Phrase} {u : List Token} {ts : List (Outline TokenKind)}
    (h : Derives ph u ts) (hph : ph.hidesEq = true) : Outside (· ≠ .eq) u := by
  induction h with
  | starNil | optNone | itemsNil | elseNone | noBlockArgument | noArgs | noLineArgs => exact .nil
  | starSnoc _ _ ih₁ ih₂ | itemsNext _ _ _ ih₁ ih₂ => exact (ih₁ hph).append (ih₂ hph)
  | path _ _ ih₁ ih₂ | appliedPattern _ _ ih₁ ih₂ | lineArgs _ _ ih₁ ih₂ =>
    exact (ih₁ rfl).append (ih₂ rfl)
  | optSome _ ih => exact ih hph
  | atomPattern _ ih | pathPattern _ ih | bareType _ _ ih | barePattern _ ih | pathOperand _ ih
    | conditionalOperand _ ih | blockBranch _ ih | exprBranch _ ih | operandApplication _ ih
    | argument _ _ ih | blockArgument _ _ ih | applicationChain _ ih | chainAnnotated _ ih
    | annotatedSigma _ ih | sigmaArrow _ ih | arrowExpr _ ih | attrs _ ih | signatureConstructor _ ih
    | functionConstructor _ ih => exact ih rfl
  | itemsPad _ hb ih => exact (ih hph).append hb.hides_eq
  | attrAttachment _ hb ih => exact (ih rfl).append hb.hides_eq
  | itemsSeparated _ _ hs ih => exact (ih hph).append hs.hides_eq
  | ident h =>
    refine .single (TokenKind.isPlain_of_isIdent h) ?_
    rcases TokenKind.tag_of_isIdent h with h | h <;> rw [h] <;> decide
  | literalPattern h | literal h =>
    refine .single (TokenKind.isPlain_of_literal? h) ?_
    rcases TokenKind.tag_of_literal? h with h | h | h | h <;> rw [h] <;> decide
  | restPattern h | univ h => exact .cons_tag h rfl (by decide) .nil
  | segment h _ ih | forAll h _ ih | freeVar h _ ih | ret h _ ih | typing h _ ih | moreArg h _ ih =>
    exact .cons_tag h rfl (by decide) (ih rfl)
  | docAttachment h hb => exact .cons_tag h rfl (by decide) hb.hides_eq
  | groupPattern ho hc hb₁ hb₂ hu =>
    exact .ofGroup (by rw [ho, hc]; rfl) (by rw [ho]; decide)
      ((hb₁.nested.append hu.nested).append hb₂.nested)
  | group ho hc hu | tuple ho hc hu | array ho hc hu | args ho hc hu | block ho hc hu =>
    exact .ofGroup (by rw [ho, hc]; rfl) (by rw [ho]; decide) hu.nested
  | @paramSet o c k close separated u ts hs hc hu =>
    refine .ofGroup (by rw [hc]; exact closing?_of_paramSetShape? hs) ?_ hu.nested
    intro ho
    rw [ho] at hs
    cases hs
  | typedParam h _ _ ih₁ ih₂ | annotated _ h _ _ ih₁ ih₂ | sigma _ h _ _ ih₁ ih₂
    | domainArrow h _ _ _ ih₁ ih₂ | paramsArrow _ h _ _ ih₁ ih₂ =>
    exact (ih₁ rfl).append (.cons_tag h rfl (by decide) (ih₂ rfl))
  | chain h _ _ ih₁ ih₂ =>
    exact (ih₁ rfl).append
      (.token (TokenKind.isPlain_of_isOperator h) (TokenKind.ne_eq_of_isOperator h) (ih₂ rfl))
  | cases hm ho hc _ hv ih₁ =>
    exact .cons_tag hm rfl (by decide)
      ((ih₁ rfl).append (.ofGroup (by rw [ho, hc]; rfl) (by rw [ho]; decide) hv.nested))
  | conditional hi ht hb₁ hb₂ _ _ _ ih₁ ih₂ ih₃ =>
    exact .cons_tag hi rfl (by decide) (((ih₁ rfl).append hb₁.hides_eq).append
      (.cons_tag ht rfl (by decide) ((hb₂.hides_eq.append (ih₂ rfl)).append (ih₃ rfl))))
  | elseSome he hb₁ hb₂ _ ih =>
    exact hb₁.hides_eq.append (.cons_tag he rfl (by decide) (hb₂.hides_eq.append (ih rfl)))
  | arm hf hb _ _ ih₁ ih₂ =>
    exact (ih₁ rfl).append (.cons_tag hf rfl (by decide) (hb.hides_eq.append (ih₂ rfl)))
  | application _ _ _ _ _ ih₁ ih₂ ih₃ | constructor _ _ _ ih₁ ih₂ ih₃ =>
    exact ((ih₁ rfl).append (ih₂ rfl)).append (ih₃ rfl)
  | lambda hp hq _ _ _ ih₁ ih₂ =>
    exact .cons_tag hp rfl (by decide) ((ih₁ rfl).append (.cons_tag hq rfl (by decide) (ih₂ rfl)))
  | attr h _ _ ih₁ ih₂ => exact .cons_tag h rfl (by decide) ((ih₁ rfl).append (ih₂ rfl))
  | letStmt | ifStmt | exprStmt | usingDecl | command | inductiveDecl | signatureDecl | clauseDecl | decl
    | visibleDecl | declsNil | declsCons => cases hph

end HidesEq

/-! ## Declarations -/

namespace Grammar

open Parse

/-- A declaration with nothing before it, from where it begins to where it ends. -/
def bareDecl (s s' : State) (kind : DeclKind) : Decl :=
  ⟨⟨[], []⟩, none, kind, s.cursor.current.span.merge s'.cursor.previousSpan⟩

section

variable {r : Rules} {s s' : State} {kind : DeclKind}

theorem exists_of_clauseDecl (h : clauseDecl r s = .ok kind s') :
    ∃ name patterns value, kind = .clause name patterns value := by
  obtain ⟨name, s₁, -, h⟩ := exists_of_bind_ok h
  obtain ⟨patterns, s₂, -, h⟩ := exists_of_bind_ok h
  obtain ⟨_, s₃, -, h⟩ := exists_of_bind_ok h
  obtain ⟨value, s₄, -, h⟩ := exists_of_bind_ok h
  cases h
  exact ⟨name, patterns, value, rfl⟩

theorem exists_of_signatureDecl (h : signatureDecl r s = .ok kind s') :
    ∃ name params type body, kind = .signature name params type body := by
  obtain ⟨name, s₁, -, h⟩ := exists_of_bind_ok h
  obtain ⟨params, s₂, -, h⟩ := exists_of_bind_ok h
  obtain ⟨type, s₃, -, h⟩ := exists_of_bind_ok h
  obtain ⟨body, s₄, -, h⟩ := exists_of_bind_ok h
  cases h
  exact ⟨name, params, type, body, rfl⟩

theorem namedDecl_eq (r : Rules) (s : State) :
    namedDecl r s = if isClauseLine s.cursor = true then clauseDecl r s else signatureDecl r s := by
  show (if isClauseLine s.cursor = true then clauseDecl r else signatureDecl r) s = _
  split <;> rfl

/-- A name has nothing before it that belongs to a declaration. -/
theorem decl_of_name (r : Rules) (hname : s.cursor.currentTag = .ident ∨ s.cursor.currentTag = .symbol) :
    decl r s = (namedDecl r >>= fun kind => spanFrom s.cursor.current.span >>= fun span =>
      pure ⟨⟨[], []⟩, none, kind, span⟩) s := by
  obtain ⟨n, hkind⟩ : ∃ n, s.cursor.current.kind = .ident n ∨ s.cursor.current.kind = .symbol n := by
    have htag : s.cursor.current.kind.tag = s.cursor.currentTag := by
      rw [Cursor.current_eq, Cursor.currentTag_eq]
      cases s.cursor.rest <;> rfl
    cases hk : s.cursor.current.kind <;> rw [hk] at htag <;> rw [← htag] at hname <;>
      simp [TokenKind.tag] at hname ⊢
  have hattach : attachment r s = .ok none s := by
    show attachmentOf r s.cursor.current s = .ok none s
    rcases hkind with hk | hk <;> rw [attachmentOf, hk] <;> rfl
  have hattrs : attributes r s = .ok ⟨[], []⟩ s := by
    rw [attributes, bind_of_ok (many_of_none hattach)]
    rfl
  have hvisible : visibility s = .ok none s := by
    show visibilityOf s.cursor.current s = .ok none s
    rcases hkind with hk | hk <;> rw [visibilityOf, hk] <;> rfl
  have hdecl : declKind r s = namedDecl r s := by
    show declKindOf r s.cursor.currentTag s = namedDecl r s
    rcases hname with h | h <;> rw [h] <;> rfl
  show (attributes r >>= _) s = _
  rw [bind_of_ok hattrs]
  show attributed r s.cursor.current.span ⟨[], []⟩ s = _
  rw [attributed, bind_of_ok hvisible]
  show EStateM.bind (declKind r) _ s = EStateM.bind (namedDecl r) _ s
  unfold EStateM.bind
  rw [hdecl]

/-- The reading that is chosen and succeeds is the declaration. -/
theorem decl_of_namedDecl (hname : s.cursor.currentTag = .ident ∨ s.cursor.currentTag = .symbol)
    (h : namedDecl r s = .ok kind s') : decl r s = .ok (bareDecl s s' kind) s' := by
  rw [decl_of_name r hname, bind_of_ok h]
  rfl

end

section

variable {s s' : State} {kind : DeclKind}

/-- Where a clause can be read the scan finds its `=`. -/
theorem isClauseLine_of_clause (h : Reader.ofRules clauseDecl s = .ok kind s') :
    isClauseLine s.cursor = true := by
  have hk := length_rest_le_bound s
  obtain ⟨name, patterns, value, rfl⟩ := exists_of_clauseDecl h
  obtain ⟨u, ts, took, hD, grew⟩ :=
    (clauseDecl_agrees (rules_agree hk hk)).read (Nat.lt_succ_self _) h
  obtain ⟨us, rfl, -⟩ := grew.stores.unwrap
  rw [isClauseLine, Cursor.lineHas_eq, took.rest]
  cases hD with
  | @clauseDecl e u v w p as value he hpath hatoms hvalue =>
    have hhead := (hpath.outside_inHead rfl).append (hatoms.outside_inHead rfl)
    have hfound : lineHasIn .eq (.single .lbrace) (e :: (w ++ s'.cursor.rest)) 0 = true := by
      rw [lineHasIn, he]
      rfl
    rw [List.append_assoc, List.cons_append]
    exact hhead.lineHasIn_true (fun t ht => ⟨ht.1, TagSet.contains_single_of_ne ht.2⟩) hfound

/-- Where a signature can be read to the end of its line the scan finds no `=`. -/
theorem not_isClauseLine_of_signature (h : Reader.ofRules signatureDecl s = .ok kind s')
    (hend : endsLine s'.cursor = true) : isClauseLine s.cursor = false := by
  have hk := length_rest_le_bound s
  obtain ⟨name, params, type, body, rfl⟩ := exists_of_signatureDecl h
  obtain ⟨u, ts, took, hD, grew⟩ :=
    (signatureDecl_agrees (rules_agree hk hk)).read (Nat.lt_succ_self _) h
  obtain ⟨us, rfl, -⟩ := grew.stores.unwrap
  have hhides : Outside (· ≠ .eq) u := by
    cases hD with
    | signatureDecl hpath hparams htype hbody =>
      exact (((hpath.hides_eq rfl).append (hparams.hides_eq rfl)).append (htype.hides_eq rfl)).append
        (hbody.hides_eq rfl)
  have hrest : lineHasIn .eq (.single .lbrace) s'.cursor.rest 0 = false := by
    rw [endsLine, Cursor.isAtEnd, Cursor.isAt_eq, Cursor.isAt_eq, Bool.or_eq_true, beq_iff_eq,
      beq_iff_eq] at hend
    cases hr : s'.cursor.rest with
    | nil => rfl
    | cons t r =>
      rw [hr, headTag_cons] at hend
      rcases hend with ht | ht <;> rw [lineHasIn, ht] <;> rfl
  rw [isClauseLine, Cursor.lineHas_eq, took.rest]
  exact hhides.lineHasIn_false (fun _ ht => ht) hrest

/-- **The scan of the line never sends a declaration the wrong way.**  At a name, if a clause can be read
then the scan says so; if a signature can be read to the end of its line then the scan says that; so only
one of them can be read, and that is the declaration. -/
theorem clause_or_signature {s : State}
    (hname : s.cursor.currentTag = .ident ∨ s.cursor.currentTag = .symbol) :
    (∀ kind s', Reader.ofRules clauseDecl s = .ok kind s' →
      isClauseLine s.cursor = true ∧ Reader.decl s = .ok (bareDecl s s' kind) s') ∧
    (∀ kind s', Reader.ofRules signatureDecl s = .ok kind s' → endsLine s'.cursor = true →
      isClauseLine s.cursor = false ∧ Reader.decl s = .ok (bareDecl s s' kind) s') ∧
    ¬∃ clause s₁ signature s₂, Reader.ofRules clauseDecl s = .ok clause s₁ ∧
      Reader.ofRules signatureDecl s = .ok signature s₂ ∧ endsLine s₂.cursor = true := by
  have named : ∀ {p : Rules → Parse DeclKind} {kind s'}, Reader.ofRules p s = .ok kind s' →
      namedDecl (rules s.bound) s = p (rules s.bound) s → Reader.decl s = .ok (bareDecl s s' kind) s' :=
    fun h hp => decl_of_namedDecl hname (hp.trans h)
  refine ⟨fun kind s' h => ?_, fun kind s' h hend => ?_, ?_⟩
  · have hline := isClauseLine_of_clause h
    exact ⟨hline, named h (by rw [namedDecl_eq, if_pos hline])⟩
  · have hline := not_isClauseLine_of_signature h hend
    exact ⟨hline, named h (by rw [namedDecl_eq, if_neg (ne_true_of_eq_false hline)])⟩
  · rintro ⟨clause, s₁, signature, s₂, hclause, hsignature, hend⟩
    have := isClauseLine_of_clause hclause
    rw [not_isClauseLine_of_signature hsignature hend] at this
    cases this

end

/-- A name, a name in parentheses, `=` and a name; and a name whose type is an `if` that goes on on other
lines. -/
theorem clause_and_signature_read :
    let line := fun kinds : List TokenKind => State.start (.ofList (kinds.map (⟨·, .dummy, .first⟩))) .new
    let x := TokenKind.ident .empty
    let clause := line [x, .lparen, x, .rparen, .eq, x, .eof]
    let signature := line [x, .colon, .kwIf, x, .newline, .kwThen, x, .newline, .kwElse, x, .newline, .eof]
    (∃ kind s', Reader.ofRules clauseDecl clause = .ok kind s' ∧ isClauseLine clause.cursor = true ∧
      Reader.decl clause = .ok (bareDecl clause s' kind) s') ∧
    ∃ kind s', Reader.ofRules signatureDecl signature = .ok kind s' ∧ endsLine s'.cursor = true ∧
      isClauseLine signature.cursor = false ∧
      Reader.decl signature = .ok (bareDecl signature s' kind) s' := by
  intro line x clause signature
  obtain ⟨kind, s', hclause, -⟩ := exists_of_succeeds (r := Reader.ofRules clauseDecl clause)
    (p := fun _ _ => true) (by decide +kernel)
  obtain ⟨kind', t', hsignature, hend⟩ := exists_of_succeeds (r := Reader.ofRules signatureDecl signature)
    (p := fun _ t' => endsLine t'.cursor) (by decide +kernel)
  exact ⟨⟨kind, s', hclause, (clause_or_signature (.inl (by decide +kernel))).1 kind s' hclause⟩,
    kind', t', hsignature, hend,
    (clause_or_signature (.inl (by decide +kernel))).2.1 kind' t' hsignature hend⟩

end Grammar

end SolSyntax
