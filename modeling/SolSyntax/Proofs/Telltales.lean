import SolSyntax.Proofs.Spelling

/-!
# What looking ahead tells

The readers tell parameters from operands by a look ahead: at what stands behind a closing bracket, and at
colons outside of inner brackets.  In what is written as `Spells` says there is a colon only in a
parameter, so these signs are reliable.

Principal results: `Spells.colonless` — colons stand inside brackets; `Spells.not_holdsParams`,
`Spells.not_groupThen` — operands are not taken for parameters; `Spells.encloses_params`,
`Spells.annotatedIn_eq` — parameters are known as such.
-/

namespace SolSyntax

open Grammar
open Outline (leaf node)

/-! ## Colons -/

/-- Properly bracketed tokens with a tag nowhere outside of brackets. -/
structure Lacks (tag : Tag) (u : List Token) : Prop where
  nested : Nested false u
  free : occursIn tag u 0 = false

namespace Lacks

variable {tag : Tag} {u v : List Token}

theorem of_forall (hu : Nested false u) (h : ∀ t ∈ u, t.tag ≠ tag) : Lacks tag u := by
  refine ⟨hu, ?_⟩
  generalize (0 : Nat) = d
  clear hu
  induction u generalizing d with
  | nil => rfl
  | cons t u ih =>
    rw [occursIn, if_neg fun ht => h t List.mem_cons_self ht.2.1]
    exact ih (fun t ht => h t (List.mem_cons_of_mem _ ht)) _

theorem append (hu : Lacks tag u) (hv : Lacks tag v) : Lacks tag (u ++ v) := by
  refine ⟨hu.nested.append hv.nested, ?_⟩
  rw [occursIn_append hu.nested.closes_zero, hu.free, hv.free]
  rfl

theorem cons {t : Token} (ht : t.tag.isPlain = true) (hne : t.tag ≠ tag) (hu : Lacks tag u) :
    Lacks tag (t :: u) := by
  refine ⟨.cons ht hu.nested, ?_⟩
  rw [occursIn, if_neg fun h => hne h.2.1, Tag.depthFrom_of_isPlain ht, hu.free]

theorem group {o c : Token} {m : List Token} (h : o.tag.closing? = some c.tag) (hm : Nested false m) :
    Lacks tag (o :: (m ++ [c])) := by
  have ho := Tag.isOpening_of_closing? h
  have hc := Tag.isClosing_of_closing? h
  refine ⟨.ofGroup h hm, ?_⟩
  rw [occursIn, if_neg fun h => h.2.2.1 ho, Tag.depthFrom_of_isOpening ho,
    hm.closes_zero.occursIn_eq tag [c] Nat.one_pos, occursIn, if_neg fun h => h.2.2.2 hc]
  rfl

theorem of_allBreaks {b : List Token} (hb : AllBreaks b) (ht : tag ≠ .newline) : Lacks tag b :=
  of_forall hb.nested fun t h => (hb t h).symm ▸ ht.symm

end Lacks

/-- What is not there in any item is not there in a row. -/
theorem Row.lacks {tag : Tag} {xs : List Piece} {u : List Token} {separated : Bool}
    (h : Row xs u separated) (hn : tag ≠ .newline) (hc : tag ≠ .comma)
    (hx : ∀ x ∈ xs, Lacks tag x.tokens) : Lacks tag u := by
  induction h with
  | nil => exact .of_forall (.nil _) fun _ ht => by cases ht
  | last hb => exact (hx _ List.mem_cons_self).append (.of_allBreaks hb hn)
  | next hb hcomma hb' _ ih =>
    refine ((hx _ List.mem_cons_self).append (.of_allBreaks hb hn)).append ?_
    refine .cons (by rw [hcomma]; rfl) (by rw [hcomma]; exact hc.symm) ?_
    exact (Lacks.of_allBreaks hb' hn).append (ih fun x h => hx x (List.mem_cons_of_mem _ h))

theorem lacks_flatMap {tag : Tag} {xs : List Piece} (hx : ∀ x ∈ xs, Lacks tag x.tokens) :
    Lacks tag (xs.flatMap Piece.tokens) := by
  induction xs with
  | nil => exact ⟨.nil _, rfl⟩
  | cons x xs ih =>
    exact (hx x List.mem_cons_self).append (ih fun y hy => hx y (List.mem_cons_of_mem _ hy))

theorem TokenKind.binary_of_isOperator {t : Token} (h : t.kind.isOperator = true) :
    TagSet.binaryOperator.contains t.tag = true := by
  have htag : t.kind.tag ∈ [Tag.operator, .pipe, .dot] := by
    cases hk : t.kind <;> rw [hk] at h <;> first | (cases h; done) | simp [TokenKind.tag]
  rw [Token.tag]
  generalize t.kind.tag = tag at htag
  revert tag
  decide

theorem TokenKind.ne_colon_of_isOperator {t : Token} (h : t.kind.isOperator = true) : t.tag ≠ .colon := by
  intro e
  have := binary_of_isOperator h
  rw [e] at this
  exact absurd this (by decide)

/-- The phrases that patterns are made of. -/
def Phrase.isPattern : Phrase → Bool
  | ident | segment | path | atom | pattern => true
  | star p => p.isPattern
  | _ => false

/-- The tokens of a pattern. -/
def TagSet.inPattern : TagSet := TagSet.patternStart.union (.ofList [.dot, .rparen, .newline])

theorem Derives.inPattern {p : Phrase} {u : List Token} {ts : List (Outline TokenKind)}
    (h : Derives p u ts) (hp : p.isPattern = true) :
    ∀ t ∈ u, TagSet.inPattern.contains t.tag = true := by
  have start : ∀ {tag}, TagSet.patternStart.contains tag = true → TagSet.inPattern.contains tag = true := by
    intro tag h
    rw [TagSet.inPattern, TagSet.contains_union, h, Bool.true_or]
  have one : ∀ {tok : Token}, TagSet.inPattern.contains tok.tag = true →
      ∀ t ∈ [tok], TagSet.inPattern.contains t.tag = true := by
    intro tok h t ht
    rwa [List.mem_singleton.1 ht]
  have breaks : ∀ {b}, AllBreaks b → ∀ t ∈ b, TagSet.inPattern.contains t.tag = true := by
    intro b hb t ht
    rw [hb t ht]
    decide
  have append : ∀ {u v : List Token}, (∀ t ∈ u, TagSet.inPattern.contains t.tag = true) →
      (∀ t ∈ v, TagSet.inPattern.contains t.tag = true) →
      ∀ t ∈ u ++ v, TagSet.inPattern.contains t.tag = true := by
    intro u v hu hv t ht
    exact (List.mem_append.1 ht).elim (hu t) (hv t)
  induction h with
  | starNil => exact fun _ ht => by cases ht
  | starSnoc _ _ ih₁ ih₂ => exact append (ih₁ hp) (ih₂ hp)
  | ident hi => exact one (start (Derives.pathPattern (.path (.ident hi) (.starNil _))).starts_atom)
  | segment hd _ ih => exact append (one (by rw [hd]; decide)) (ih rfl)
  | path _ _ ih₁ ih₂ => exact append (ih₁ rfl) (ih₂ rfl)
  | literalPattern hl => exact one (start (Derives.literalPattern hl).starts_atom)
  | restPattern ht => exact one (by rw [ht]; decide)
  | groupPattern ho hc hb₁ hb₂ _ ih =>
    refine append (u := [_]) (one (by rw [ho]; decide)) ?_
    exact append (append (append (breaks hb₁) (ih rfl)) (breaks hb₂)) (one (by rw [hc]; decide))
  | pathPattern _ ih | atomPattern _ ih => exact ih rfl
  | appliedPattern _ _ ih₁ ih₂ => exact append (ih₁ rfl) (ih₂ rfl)
  | _ => cases hp

theorem Derives.lacks_pattern {p : Phrase} {u : List Token} {ts : List (Outline TokenKind)}
    (h : Derives p u ts) (hp : p.isPattern = true) {tag : Tag}
    (ht : TagSet.inPattern.contains tag = false) : Lacks tag u := by
  refine .of_forall h.nested fun t hmem e => ?_
  rw [← e, h.inPattern hp t hmem] at ht
  cases ht

/-- Outside of brackets there is no colon but in a parameter. -/
theorem Spells.colonless {p : Part} {u : List Token} {o : Outline TokenKind} (h : Spells p u o)
    (hparam : ∀ k l, p ≠ .param k l) : Lacks .colon u := by
  induction h with
  | forAll | typedParam | bareType | barePattern => exact absurd rfl (hparam _ _)
  | params ho hc hb _ hrow hxs =>
    refine .group (by rw [hc]; exact closing?_of_paramSetShape? ho) (hb.nested.append ?_)
    exact hrow.nested fun x hx => (hxs x hx).nested
  | literal hl =>
    refine .of_forall (.single (TokenKind.isPlain_of_literal? hl) fun e => by cases e) fun t ht e => ?_
    rw [List.mem_singleton.1 ht] at e
    have := TokenKind.starts_of_literal? hl
    rw [e] at this
    exact absurd this (by decide)
  | path hp => exact hp.lacks_pattern rfl (by decide)
  | freeVar hm hi => exact .cons (by rw [hm]; rfl) (by rw [hm]; decide) (hi.lacks_pattern rfl (by decide))
  | univ ht => exact .cons (by rw [ht]; rfl) (by rw [ht]; decide) ⟨.nil _, rfl⟩
  | group ho hc hb hb' he =>
    exact .group (by rw [ho, hc]; rfl) (hb.nested.append (he.nested.append hb'.nested))
  | tuple ho hc hb hrow _ hxs | array ho hc hb hrow hxs =>
    exact .group (by rw [ho, hc]; rfl) (hb.nested.append (hrow.nested fun x hx => (hxs x hx).nested))
  | operandApplication _ ih | applicationChain _ ih | chainAnnotated _ ih | annotatedArrow _ ih
    | arrowExpr _ ih => exact ih fun _ _ e => by cases e
  | application _ _ _ ih ihs =>
    refine (ih fun _ _ e => by cases e).append ?_
    exact lacks_flatMap fun x hx => ihs x hx fun _ _ e => by cases e
  | chain ho _ _ _ ih₁ ih₂ =>
    refine (ih₁ fun _ _ e => by cases e).append
      (.cons (TokenKind.isPlain_of_isOperator ho) ?_ (ih₂ fun _ _ e => by cases e))
    exact TokenKind.ne_colon_of_isOperator ho
  | annotated _ ht _ _ ih₁ ih₂ | sigma ht _ _ ih₁ ih₂ | domain ht _ _ ih₁ ih₂
    | implicitParams ht _ _ ih₁ ih₂ | explicitParams ht _ _ _ ih₁ ih₂ =>
    exact (ih₁ fun _ _ e => by cases e).append
      (.cons (by rw [ht]; rfl) (by rw [ht]; decide) (ih₂ fun _ _ e => by cases e))
  | lambda _ hp hq _ has _ _ ih =>
    refine .cons (by rw [hp]; rfl) (by rw [hp]; decide) ((has.lacks_pattern rfl (by decide)).append ?_)
    exact .cons (by rw [hq]; rfl) (by rw [hq]; decide) (ih fun _ _ e => by cases e)

/-! ## Scans ahead -/

/-- The search for the colon of a parameter passes over what is in brackets. -/
theorem annotatedIn_nested {oneLine : Bool} {u v : List Token} {d : Nat} (h : Nested oneLine u)
    (hd : 0 < d) : annotatedIn (u ++ v) d = annotatedIn v d := by
  induction h generalizing v d with
  | nil => rfl
  | token ht _ _ ih =>
    rw [List.cons_append, annotatedIn, Tag.depthFrom_of_isPlain ht, ih hd,
      if_neg (Tag.ne_eof_of_isPlain ht), if_neg (by omega), if_neg (by omega)]
  | group hp _ _ ih₁ ih₂ =>
    have ho := Tag.isOpening_of_closing? hp
    have hc := Tag.isClosing_of_closing? hp
    rw [List.cons_append, List.append_assoc, List.cons_append, annotatedIn,
      Tag.depthFrom_of_isOpening ho, ih₁ (show 0 < d + 1 by omega), annotatedIn,
      Tag.depthFrom_of_isClosing hc, Nat.add_sub_cancel, ih₂ hd, if_neg (Tag.ne_eof_of_isOpening ho),
      if_neg (by omega), if_neg (by omega), if_neg (Tag.ne_eof_of_isClosing hc), if_neg (by omega),
      if_neg (by omega)]

theorem annotatedIn_group {o c : Token} {m : List Token} (h : o.tag.closing? = some c.tag)
    (hm : Nested false m) (v : List Token) : annotatedIn (o :: (m ++ c :: v)) 0 = annotatedIn v 0 := by
  have ho := Tag.isOpening_of_closing? h
  have hc := Tag.isClosing_of_closing? h
  have hplain : ¬(o.tag.isClosing = true ∨ o.tag = .comma) ∧ o.tag ≠ .colon := by
    generalize o.tag = tag at ho
    cases tag <;> first | decide | cases ho
  have hlast : annotatedIn (c :: v) 1 = annotatedIn v 0 := by
    rw [annotatedIn, if_neg (Tag.ne_eof_of_isClosing hc), if_neg (by omega), if_neg (by omega),
      Tag.depthFrom_of_isClosing hc]
  rw [annotatedIn, if_neg (Tag.ne_eof_of_isOpening ho), if_neg fun h => hplain.1 h.2,
    if_neg fun h => hplain.2 h.2, Tag.depthFrom_of_isOpening ho, annotatedIn_nested hm Nat.one_pos, hlast]

/-- A token outside of brackets that a scan is not looking for. -/
theorem Lacks.of_token {tag : Tag} {t : Token} {u : List Token} (ht : t.tag.isPlain = true)
    (h : occursIn tag (t :: u) 0 = false) : t.tag ≠ tag ∧ occursIn tag u 0 = false := by
  have hplain := ht
  simp only [Tag.isPlain, Bool.and_eq_true, Bool.not_eq_true', bne_iff_ne, ne_eq] at hplain
  rw [occursIn, Tag.depthFrom_of_isPlain ht] at h
  split at h
  · cases h
  · rename_i hne
    exact ⟨fun e => hne ⟨rfl, e, by simp [hplain.1.1], by simp [hplain.1.2]⟩, h⟩

theorem Lacks.of_group {tag : Tag} {o c : Token} {m w : List Token} (hp : o.tag.closing? = some c.tag)
    (hm : Nested false m) (h : occursIn tag (o :: (m ++ c :: w)) 0 = false) : occursIn tag w 0 = false := by
  have hlacks : Lacks tag (o :: (m ++ [c])) := .group hp hm
  have hsplit : o :: (m ++ c :: w) = o :: (m ++ [c]) ++ w := by simp
  rwa [hsplit, occursIn_append hlacks.nested.closes_zero, hlacks.free, Bool.false_or] at h

/-- A parameter without a colon is not annotated. -/
theorem Lacks.annotatedIn_eq {u r : List Token} (h : Lacks .colon u) (hr : annotatedIn r 0 = false) :
    annotatedIn (u ++ r) 0 = false := by
  obtain ⟨oneLine, hu⟩ : ∃ oneLine, Nested oneLine u := ⟨_, h.nested⟩
  replace h := h.free
  induction hu with
  | nil => exact hr
  | token ht _ _ ih =>
    obtain ⟨hne, hfree⟩ := of_token ht h
    rw [List.cons_append, annotatedIn, Tag.depthFrom_of_isPlain ht, ih hfree]
    simp [hne]
  | group hp hm _ _ ih =>
    rw [List.cons_append, List.append_assoc, List.cons_append, annotatedIn_group hp hm,
      ih (of_group hp hm h)]

/-- A colon after what holds no comma is found. -/
theorem Lacks.annotatedIn_colon {u r : List Token} {c : Token} (h : Lacks .comma u) (hc : c.tag = .colon) :
    annotatedIn (u ++ c :: r) 0 = true := by
  obtain ⟨oneLine, hu⟩ : ∃ oneLine, Nested oneLine u := ⟨_, h.nested⟩
  replace h := h.free
  induction hu with
  | nil => simp [annotatedIn, hc, Tag.isClosing]
  | token ht _ _ ih =>
    obtain ⟨hne, hfree⟩ := of_token ht h
    have hplain := ht
    simp only [Tag.isPlain, Bool.and_eq_true, Bool.not_eq_true', bne_iff_ne, ne_eq] at hplain
    rw [List.cons_append, annotatedIn, Tag.depthFrom_of_isPlain ht, ih hfree]
    simp [hne, hplain]
  | group hp hm _ _ ih =>
    rw [List.cons_append, List.append_assoc, List.cons_append, annotatedIn_group hp hm,
      ih (of_group hp hm h)]

/-- No operand extends to the right on its own. -/
theorem Spells.not_isClosedForm {pl : Place} {u : List Token} {o : Outline TokenKind}
    (h : Spells (.operand pl) u o) : o.isClosedForm = false := by
  cases h with
  | path hp =>
    cases hp
    rfl
  | _ => rfl

/-! ## How annotations begin -/

/-- What stands behind an operand within an annotation. -/
def TagSet.afterOperand : TagSet := (TagSet.argStart.union TagSet.binaryOperator).insert .kwIs

/-- Where a part stands that begins with an operand. -/
def Part.operandPlace? : Part → Option Place
  | operand pl | application pl | chain pl | annotated pl => some pl
  | _ => none

/-- An annotation begins with an operand. -/
theorem Spells.first_operand {p : Part} {pl : Place} {u : List Token} {o : Outline TokenKind}
    (h : Spells p u o) (hp : p.operandPlace? = some pl) :
    ∃ v w f, u = v ++ w ∧ Spells (.operand pl) v f ∧
      (w = [] ∨ TagSet.afterOperand.contains (headTag w) = true) := by
  have whole : ∀ {u o}, Spells (.operand pl) u o → ∃ v w f, u = v ++ w ∧ Spells (.operand pl) v f ∧
      (w = [] ∨ TagSet.afterOperand.contains (headTag w) = true) :=
    fun {u o} h => ⟨u, [], o, (List.append_nil u).symm, h, .inl rfl⟩
  have further : ∀ {u w : List Token}, (∃ v w f, u = v ++ w ∧ Spells (.operand pl) v f ∧
      (w = [] ∨ TagSet.afterOperand.contains (headTag w) = true)) →
      TagSet.afterOperand.contains (headTag w) = true →
      ∃ v w' f, u ++ w = v ++ w' ∧ Spells (.operand pl) v f ∧
        (w' = [] ∨ TagSet.afterOperand.contains (headTag w') = true) := by
    rintro _ w ⟨v, w', f, rfl, hv, hw'⟩ hw
    refine ⟨v, w' ++ w, f, List.append_assoc _ _ _, hv, .inr ?_⟩
    rcases hw' with rfl | hw'
    · exact hw
    · rwa [headTag_append (ne_nil_of_starts (by decide) hw')]
  have self := h
  induction h with
  | literal | path | freeVar | univ | group | tuple | array =>
    cases hp
    exact whole self
  | operandApplication h ih | applicationChain h ih | chainAnnotated h ih => exact ih hp h
  | @application _ _ _ xs hne h hxs ih _ =>
    refine further (ih hp h) ?_
    cases xs with
    | nil => exact absurd rfl hne
    | cons x xs =>
      have hx := hxs x List.mem_cons_self
      have hstart := hx.starts
      rw [List.flatMap_cons, headTag_append hx.ne_nil, TagSet.afterOperand, TagSet.contains_insert,
        TagSet.contains_union]
      rw [Part.starts] at hstart
      rw [hstart]
      rfl
  | chain ho _ h _ ih _ =>
    refine further (ih hp h) ?_
    rw [headTag_cons, TagSet.afterOperand, TagSet.contains_insert, TagSet.contains_union,
      TokenKind.binary_of_isOperator ho]
    simp
  | annotated _ hi h _ ih _ =>
    refine further (ih hp h) ?_
    rw [headTag_cons, hi]
    decide
  | _ => cases hp

/-! ## What stands in brackets -/

/-- Brackets around some tokens. -/
def Encloses (u m : List Token) : Prop :=
  ∃ o c, u = o :: (m ++ [c]) ∧ o.tag.closing? = some c.tag ∧ Nested false m

section Encloses

variable {u m : List Token}

theorem Encloses.groupThen_eq (h : Encloses u m) (tag : Tag) (r : List Token) :
    groupThen tag (u ++ r) = (headTag r == tag) := by
  obtain ⟨o, c, rfl, hclose, hm⟩ := h
  have hsplit : groupSplit (o :: (m ++ [c]) ++ r) 0 = some (o :: m, r) := by
    rw [List.cons_append, List.append_assoc, List.singleton_append]
    exact groupSplit_group (Tag.isOpening_of_closing? hclose) (Tag.isClosing_of_closing? hclose) hm r
  rw [groupThen, hsplit]

theorem Encloses.holdsParams_eq (h : Encloses u m) (r : List Token) : holdsParams (u ++ r) =
    (headTag r == .arrow && (headTag u.tail == .quote || occursIn .colon m 0)) := by
  obtain ⟨o, c, rfl, hclose, hm⟩ := h
  have hsplit : groupSplit (o :: (m ++ [c]) ++ r) 0 = some (o :: m, r) := by
    rw [List.cons_append, List.append_assoc, List.singleton_append]
    exact groupSplit_group (Tag.isOpening_of_closing? hclose) (Tag.isClosing_of_closing? hclose) hm r
  have hfirst : headTag (m ++ [c] ++ r) = headTag (m ++ [c]) := headTag_append (by simp)
  rw [holdsParams, hsplit]
  simp [← hfirst]

end Encloses

/-- What is there in an item is there in a row. -/
theorem Row.occurs {tag : Tag} {xs : List Piece} {u : List Token} {separated : Bool}
    (h : Row xs u separated) (hx : ∀ x ∈ xs, Nested false x.tokens) {x : Piece} (hmem : x ∈ xs)
    (hoccurs : occursIn tag x.tokens 0 = true) : occursIn tag u 0 = true := by
  induction h with
  | nil => cases hmem
  | last =>
    obtain rfl := List.mem_singleton.1 hmem
    rw [occursIn_append (hx _ hmem).closes_zero, hoccurs, Bool.true_or]
  | @next y ys b c b' u separated hb hc hb' _ ih =>
    rw [List.append_assoc, occursIn_append (hx _ List.mem_cons_self).closes_zero]
    rcases List.mem_cons.1 hmem with rfl | hmem
    · rw [hoccurs, Bool.true_or]
    · have hgap : Nested false (b ++ c :: b') := hb.nested.append (.cons (by rw [hc]; rfl) hb'.nested)
      have hsplit : b ++ c :: (b' ++ u) = b ++ c :: b' ++ u := by simp
      rw [hsplit, occursIn_append hgap.closes_zero, ih (fun z hz => hx z (List.mem_cons_of_mem _ hz)) hmem,
        Bool.or_true, Bool.or_true]

/-- What is in the brackets of an operand neither begins with a quote nor has a colon. -/
theorem Spells.encloses_operand {pl : Place} {u : List Token} {o : Outline TokenKind}
    (h : Spells (.operand pl) u o) (ho : (headTag u).isOpening = true) :
    ∃ m, Encloses u m ∧ headTag u.tail ≠ .quote ∧ occursIn .colon m 0 = false := by
  have first : ∀ {x : Piece}, Spells (.expr pl.nested) x.tokens x.outline → headTag x.tokens ≠ .quote :=
    fun hx => hx.headTag_ne (by simp only [Part.starts]; decide)
  have row : ∀ {b u c xs separated}, AllBreaks b → Row xs u separated → c.tag ≠ .quote →
      (∀ x ∈ xs, Spells (.expr pl.nested) x.tokens x.outline) → headTag (b ++ u ++ [c]) ≠ .quote := by
    intro b u c xs separated hb hrow hc hxs e
    rw [List.append_assoc] at e
    rcases headTag_allBreaks_append hb (u := u ++ [c]) with hn | hn
    · rw [hn] at e
      cases e
    · rw [hn] at e
      cases xs with
      | nil =>
        cases hrow
        exact hc e
      | cons x xs =>
        have hx := hxs x List.mem_cons_self
        exact first hx ((hrow.headTag_eq hx.ne_nil [c]).symm.trans e)
  have free : ∀ {b u xs separated}, AllBreaks b → Row xs u separated →
      (∀ x ∈ xs, Spells (.expr pl.nested) x.tokens x.outline) → Lacks .colon (b ++ u) :=
    fun hb hrow hxs => (Lacks.of_allBreaks hb (by decide)).append
      (hrow.lacks (by decide) (by decide) fun x hx => (hxs x hx).colonless fun _ _ e => by cases e)
  cases h with
  | literal hl =>
    have := TokenKind.isPlain_of_literal? hl
    rw [headTag_cons] at ho
    rw [Tag.isPlain, ho] at this
    cases this
  | path hp =>
    have := hp.isName_path
    generalize headTag u = tag at ho this
    cases tag <;> first | (cases ho; done) | cases this
  | freeVar hm =>
    rw [headTag_cons, hm] at ho
    cases ho
  | univ ht =>
    rw [headTag_cons, ht] at ho
    cases ho
  | @group _ a c b b' u e ha hc hb hb' he =>
    have hrow : Row [⟨u, e⟩] (u ++ b') false := .last hb'
    have hxs : ∀ x ∈ [Piece.mk u e], Spells (.expr pl.nested) x.tokens x.outline := by
      intro x hx
      rw [List.mem_singleton.1 hx]
      exact he
    have hm := free hb hrow hxs
    exact ⟨_, ⟨a, c, rfl, by rw [ha, hc]; rfl, hm.nested⟩, row hb hrow (by rw [hc]; decide) hxs, hm.free⟩
  | @tuple _ a c b u xs separated ha hc hb hrow _ hxs | @array _ a c b u xs separated ha hc hb hrow hxs =>
    have hm := free hb hrow hxs
    exact ⟨_, ⟨a, c, rfl, by rw [ha, hc]; rfl, hm.nested⟩, row hb hrow (by rw [hc]; decide) hxs, hm.free⟩

/-- Parentheses at the beginning of an annotation are no parameters. -/
theorem Spells.not_holdsParams {p : Part} {pl : Place} {u : List Token} {o : Outline TokenKind}
    (h : Spells p u o) (hp : p.operandPlace? = some pl) (ho : (headTag u).isOpening = true)
    (r : List Token) : holdsParams (u ++ r) = false := by
  obtain ⟨v, w, f, rfl, hv, -⟩ := h.first_operand hp
  rw [headTag_append hv.ne_nil] at ho
  obtain ⟨m, hm, hquote, hcolon⟩ := hv.encloses_operand ho
  rw [List.append_assoc, hm.holdsParams_eq, hcolon, beq_false_of_ne hquote]
  simp

/-- Square brackets at the beginning of an annotation are no parameters of a sigma type. -/
theorem Spells.not_groupThen {p : Part} {pl : Place} {u r : List Token} {o : Outline TokenKind}
    (h : Spells p u o) (hp : p.operandPlace? = some pl) (ho : (headTag u).isOpening = true)
    (hr : headTag r ≠ .fatArrow) : groupThen .fatArrow (u ++ r) = false := by
  obtain ⟨v, w, f, rfl, hv, hw⟩ := h.first_operand hp
  rw [headTag_append hv.ne_nil] at ho
  obtain ⟨m, hm, -⟩ := hv.encloses_operand ho
  rw [List.append_assoc, hm.groupThen_eq]
  apply beq_false_of_ne
  rcases hw with rfl | hw
  · exact hr
  · intro e
    rw [headTag_append (ne_nil_of_starts (by decide) hw)] at e
    rw [e] at hw
    exact absurd hw (by decide)

/-! ## What stands in a parameter list -/

/-- A parameter with a name and a type has a colon. -/
theorem Spells.occursIn_param {k : ParamSetKind} {l : Bool} {u : List Token} {o : Outline TokenKind}
    (h : Spells (.param k l) u o) (ho : o.isTypedParam = true) : occursIn .colon u 0 = true := by
  cases h with
  | typedParam hp _ hc =>
    rw [occursIn_append hp.nested.closes_zero, occursIn, if_pos]
    · exact Bool.or_true _
    · rw [hc]
      decide
  | _ => cases ho

/-- Parameters stand in brackets; if they are told by what is in these, it is there. -/
theorem Spells.encloses_params {k : ParamSetKind} {l : Bool} {u : List Token} {o : Outline TokenKind}
    (h : Spells (.params k l) u o) :
    ∃ m, Encloses u m ∧ (o.holdsTyped = true → occursIn .colon m 0 = true) := by
  cases h with
  | @params _ _ a c _ b u xs _ ha hc hb _ hrow hxs =>
    have hnested : ∀ x ∈ xs, Nested false x.tokens := fun x hx => (hxs x hx).nested
    refine ⟨b ++ u, ⟨a, c, rfl, by rw [hc]; exact closing?_of_paramSetShape? ha,
      hb.nested.append (hrow.nested hnested)⟩, fun htyped => ?_⟩
    obtain ⟨o, ho, hparam⟩ := List.any_eq_true.1 htyped
    obtain ⟨x, hx, rfl⟩ := List.mem_map.1 ho
    rw [occursIn_append hb.nested.closes_zero,
      hrow.occurs hnested hx ((hxs x hx).occursIn_param hparam), Bool.or_true]

/-- A quote begins a parameter that is a name. -/
theorem Spells.quoted_param {k : ParamSetKind} {l : Bool} {u : List Token} {o : Outline TokenKind}
    (h : Spells (.param k l) u o) (hq : headTag u = .quote) :
    ∃ q w i, u = q :: w ∧ Derives .ident w [i] ∧ o = node .forAll [i] := by
  have pattern : ∀ {v p}, Derives .pattern v [p] → headTag v ≠ .quote := by
    intro v p hp e
    have := hp.starts_pattern
    rw [e] at this
    exact absurd this (by decide)
  cases h with
  | forAll _ hi => exact ⟨_, _, _, rfl, hi, rfl⟩
  | typedParam hp =>
    rw [headTag_append (hp.ne_nil rfl)] at hq
    exact absurd hq (pattern hp)
  | bareType _ ht => exact absurd hq (ht.headTag_ne (by simp only [Part.starts]; decide))
  | barePattern hp => exact absurd hq (pattern hp)

/-- Nothing behind a parameter makes it annotated. -/
theorem Gap.annotatedIn_eq {close : Tag} (hclose : close.isClosing = true) {r : List Token}
    (h : Gap close r) : annotatedIn r 0 = false := by
  induction r with
  | nil => rfl
  | cons t r ih =>
    by_cases hn : t.tag = .newline
    · have hskip : skipBreaks (t :: r) = skipBreaks r := by simp [skipBreaks, hn]
      rw [Gap, hskip] at h
      rw [annotatedIn, hn, Tag.depthFrom_of_isPlain rfl, ih h]
      rfl
    · have hstop : t.tag.isClosing = true ∨ t.tag = .comma := by
        rcases h.headTag with h | h | h
        · exact absurd h hn
        · exact .inr h
        · exact .inl (by rw [show t.tag = close from h]; exact hclose)
      simp [annotatedIn, hstop]

/-- Looking ahead tells a parameter with a name and a type from one without. -/
theorem Spells.annotatedIn_eq {k : ParamSetKind} {l : Bool} {u r : List Token} {o : Outline TokenKind}
    (h : Spells (.param k l) u o) (hr : annotatedIn r 0 = false) (hq : headTag u ≠ .quote) :
    annotatedIn (u ++ r) 0 = o.isTypedParam := by
  cases h with
  | forAll hquote => exact absurd hquote hq
  | typedParam hp _ hc =>
    rw [List.append_assoc, List.cons_append]
    exact (hp.lacks_pattern rfl (by decide)).annotatedIn_colon hc
  | bareType _ ht => exact (ht.colonless fun _ _ e => by cases e).annotatedIn_eq hr
  | barePattern hp => exact (hp.lacks_pattern rfl (by decide)).annotatedIn_eq hr

end SolSyntax
