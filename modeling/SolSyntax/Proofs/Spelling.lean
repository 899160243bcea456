import SolSyntax.Proofs.Edges
import SolSyntax.Proofs.Matching

/-!
# How expressions are written

`Spells p u o` says that the tokens `u` are a way to write the tree `o` as a part `p` of an expression.
The grammar leaves open how a text is to be read; this relation does not.  A point in a path touches
both its neighbours and one between operands does not, bare types in parentheses before an arrow are a
group or a tuple, and an arrow behind an annotation belongs to its type.  Control forms and blocks are
left out.

Principal results: `Spells.nested`, `Spells.starts` — what a part looks like from outside;
`Spells.asType_eq`, `Spells.asValue` — a type is what a value becomes when it is read again as a type.
-/

namespace SolSyntax

open Grammar
open Outline (leaf node asType asTypes)

/-! ## Points -/

/-- Every point touches both its neighbours. -/
def DotsTouch (u : List Token) : Prop :=
  ∀ a d b, [a, d, b] <:+: u → d.tag = .dot →
    Cursor.adjacent a.span d.span = true ∧ Cursor.adjacent d.span b.span = true

/-- A token touches what stands before it and what stands behind it. -/
def Touches (u : List Token) (d : Token) (v : List Token) : Prop :=
  ∃ a b, u.getLast? = some a ∧ v.head? = some b ∧ Cursor.adjacent a.span d.span = true ∧
    Cursor.adjacent d.span b.span = true

theorem Touches.of_append {u v w : List Token} {d : Token} (h : Touches u d (v ++ w)) (hv : v ≠ []) :
    Touches u d v := by
  obtain ⟨a, b, ha, hb, hab⟩ := h
  obtain ⟨c, v, rfl⟩ := List.exists_cons_of_ne_nil hv
  exact ⟨a, b, ha, hb, hab⟩

/-- What comes behind some tokens does not go on with a path that they end in. -/
def EndsPath (u r : List Token) : Prop := ∀ d v, r = d :: v → d.tag = .dot → ¬Touches u d v

theorem EndsPath.of_headTag {u r : List Token} (h : headTag r ≠ .dot) : EndsPath u r := by
  rintro d v rfl hd
  exact absurd hd h

/-- Only the last token matters. -/
theorem EndsPath.of_suffix {u v r : List Token} (h : EndsPath (u ++ v) r) : EndsPath v r := by
  rintro d w rfl hd ⟨a, b, ha, hb, hab⟩
  refine h d w rfl hd ⟨a, b, ?_, hb, hab⟩
  rw [List.getLast?_append, ha, Option.some_or]

theorem DotsTouch.mono {u v : List Token} (h : DotsTouch u) (hv : v <:+: u) : DotsTouch v :=
  fun a d b hi => h a d b (hi.trans hv)

/-! ## Rows -/

/-- An item of a row: how it is written, and what it is. -/
structure Piece where
  tokens : List Token
  outline : Outline TokenKind

/-- Items with commas between them and line breaks around these; whether a comma comes last. -/
inductive Row : List Piece → List Token → Bool → Prop
  | nil : Row [] [] false
  | last {x b} : AllBreaks b → Row [x] (x.tokens ++ b) false
  | next {x xs b c b' u separated} : AllBreaks b → c.tag = .comma → AllBreaks b' →
      Row xs u separated → Row (x :: xs) (x.tokens ++ b ++ c :: (b' ++ u)) (xs.isEmpty || separated)

theorem headTag_allBreaks_append {b u : List Token} (hb : AllBreaks b) :
    headTag (b ++ u) = .newline ∨ headTag (b ++ u) = headTag u := by
  cases b with
  | nil => exact .inr rfl
  | cons t b => exact .inl (hb t List.mem_cons_self)

/-- A row begins as its first item does. -/
theorem Row.headTag_eq {x : Piece} {xs : List Piece} {u : List Token} {separated : Bool}
    (h : Row (x :: xs) u separated) (hx : x.tokens ≠ []) (r : List Token) :
    headTag (u ++ r) = headTag x.tokens := by
  cases h with
  | last => rw [List.append_assoc, headTag_append hx]
  | next => rw [List.append_assoc, List.append_assoc, headTag_append hx]

theorem Row.length_piece_le {xs : List Piece} {u : List Token} {separated : Bool}
    (h : Row xs u separated) {y : Piece} (hy : y ∈ xs) : y.tokens.length ≤ u.length := by
  induction h with
  | nil => cases hy
  | last =>
    rw [List.mem_singleton.1 hy, List.length_append]
    exact Nat.le_add_right _ _
  | next _ _ _ _ ih =>
    simp only [List.length_append, List.length_cons]
    rcases List.mem_cons.1 hy with rfl | hy
    · omega
    · have := ih hy
      omega

/-- What stands behind an item of a list that a bracket closes. -/
def Gap (close : Tag) (r : List Token) : Prop :=
  headTag (skipBreaks r) = .comma ∨ headTag (skipBreaks r) = close

theorem Gap.headTag {close : Tag} {r : List Token} (h : Gap close r) :
    headTag r = .newline ∨ headTag r = .comma ∨ headTag r = close := by
  by_cases hr : SolSyntax.headTag r = .newline
  · exact .inl hr
  · rw [Gap, skipBreaks_eq_self hr] at h
    exact .inr h

/-- A row of phrases, one by one. -/
theorem exists_pieces {ph : Phrase} {u : List Token} {us : List (Outline TokenKind)}
    (hone : ∀ {u ts}, Derives ph u ts → ∃ o, ts = [o]) (h : Derives (.star ph) u us) :
    ∃ xs : List Piece, u = xs.flatMap Piece.tokens ∧
      us = xs.map Piece.outline ∧ ∀ y ∈ xs, Derives ph y.tokens [y.outline] := by
  generalize hq : Phrase.star ph = q at h
  induction h with
  | starNil => exact ⟨[], rfl, rfl, fun _ hy => by cases hy⟩
  | @starSnoc _ u v ts us _ hD ih =>
    obtain ⟨xs, rfl, rfl, hxs⟩ := ih hq
    cases hq
    obtain ⟨o, rfl⟩ := hone hD
    refine ⟨xs ++ [⟨v, o⟩], by simp, by simp, fun y hy => ?_⟩
    rcases List.mem_append.1 hy with hy | hy
    · exact hxs y hy
    · rw [List.mem_singleton.1 hy]
      exact hD
  | _ => cases hq

theorem exists_segment {u : List Token} {us : List (Outline TokenKind)} (h : Derives .segment u us) :
    ∃ o, us = [o] := by
  cases h with
  | segment _ hi =>
    cases hi
    exact ⟨_, rfl⟩

theorem exists_atom {u : List Token} {us : List (Outline TokenKind)} (h : Derives .atom u us) : ∃ o, us = [o] := by
  cases h <;> exact ⟨_, rfl⟩

theorem exists_pattern {u : List Token} {us : List (Outline TokenKind)} (h : Derives .pattern u us) :
    ∃ o, us = [o] := by
  cases h with
  | atomPattern ha => exact exists_atom ha
  | appliedPattern => exact ⟨_, rfl⟩

/-! ## Expressions -/

/-- Where an expression stands. -/
structure Place where
  ctx : Context
  /-- Whether it may hold lambdas.  A domain without parameters may not. -/
  lambdas : Bool

namespace Place

/-- Inside brackets. -/
def nested (pl : Place) : Place := { pl with ctx := pl.ctx.nested }

/-- The result of a function type. -/
def result (pl : Place) : Place := { pl with ctx := pl.ctx.union .type }

/-- The domain of a function type, if it has no parameters. -/
def domain (pl : Place) : Place := ⟨pl.ctx.union .type, false⟩

/-- The type of an annotation. -/
def annotation (pl : Place) : Place := { pl with ctx := .annotationType }

end Place

/-- The parts of expressions. -/
inductive Part where
  | param (kind : ParamSetKind) (lambdas : Bool)
  | params (kind : ParamSetKind) (lambdas : Bool)
  | operand (pl : Place)
  | application (pl : Place)
  | chain (pl : Place)
  | annotated (pl : Place)
  | arrow (pl : Place)
  | expr (pl : Place)

/-- Whether a parameter has a name and a type. -/
def Outline.isTypedParam {α : Type} : Outline α → Bool
  | node .typed [node .row [_], _] => true
  | _ => false

/-- Whether a parameter list has a parameter with a name and a type. -/
def Outline.holdsTyped {α : Type} : Outline α → Bool
  | node (.params _) params => params.any isTypedParam
  | _ => false

/-- Some tokens are a way to write a tree. -/
inductive Spells : Part → List Token → Outline TokenKind → Prop
  -- parameters
  | forAll {k l q u i} : q.tag = .quote → Derives .ident u [i] →
      Spells (.param k l) (q :: u) (node .forAll [i])
  | typedParam {k l u c v p t} : Derives .pattern u [p] → DotsTouch u → c.tag = .colon →
      Spells (.arrow ⟨.type, l⟩) v t →
      Spells (.param k l) (u ++ c :: v) (node .typed [node .row [p], t])
  | bareType {k l u t} : k ≠ .sigma → Spells (.arrow ⟨.type, l⟩) u t →
      Spells (.param k l) u (node .typed [node .row [], t])
  | barePattern {l u p} : Derives .pattern u [p] → DotsTouch u →
      Spells (.param .sigma l) u (node .untyped [p])
  | params {k l o c close b u xs separated} : paramSetShape? o.tag = some (k, close) → c.tag = close →
      AllBreaks b → xs ≠ [] → Row xs u separated →
      (∀ x ∈ xs, Spells (.param k l) x.tokens x.outline) →
      Spells (.params k l) (o :: (b ++ u ++ [c])) (node (.params k) (xs.map Piece.outline))
  -- operands
  | literal {pl t l} : t.kind.literal? = some l →
      Spells (.operand pl) [t] (node .literal [leaf t.kind])
  | path {pl u p} : Derives .path u [p] → DotsTouch u → Spells (.operand pl) u p
  | freeVar {pl m u i} : m.tag = .caret → Derives .ident u [i] →
      Spells (.operand pl) (m :: u) (node .freeVar [i])
  | univ {pl t} : t.tag = .kwUniverse → Spells (.operand pl) [t] (node .univ [leaf .kwUniverse])
  | group {pl o c b b' u e} : o.tag = .lparen → c.tag = .rparen → AllBreaks b → AllBreaks b' →
      Spells (.expr pl.nested) u e →
      Spells (.operand pl) (o :: (b ++ (u ++ b') ++ [c])) (node .group [e])
  | tuple {pl o c b u xs separated} : o.tag = .lparen → c.tag = .rparen → AllBreaks b →
      Row xs u separated → (xs.length = 1 → separated = true) →
      (∀ x ∈ xs, Spells (.expr pl.nested) x.tokens x.outline) →
      Spells (.operand pl) (o :: (b ++ u ++ [c])) (node (.tuple separated) (xs.map Piece.outline))
  | array {pl o c b u xs separated} : o.tag = .lbracket → c.tag = .rbracket → AllBreaks b →
      Row xs u separated → (∀ x ∈ xs, Spells (.expr pl.nested) x.tokens x.outline) →
      Spells (.operand pl) (o :: (b ++ u ++ [c])) (node .array (xs.map Piece.outline))
  -- applications and chains
  | operandApplication {pl u o} : Spells (.operand pl) u o → Spells (.application pl) u o
  | application {pl u f xs} : xs ≠ [] → Spells (.operand pl) u f →
      (∀ x ∈ xs, Spells (.operand pl) x.tokens x.outline) →
      Spells (.application pl) (u ++ xs.flatMap Piece.tokens)
        (Outline.application pl.ctx f (xs.map Piece.outline) [])
  | applicationChain {pl u o} : Spells (.application pl) u o → Spells (.chain pl) u o
  | chain {pl u o v lhs rhs} : o.kind.isOperator → (o.tag = .dot → ¬Touches u o v) →
      Spells (.chain pl) u lhs → Spells (.application pl) v rhs →
      Spells (.chain pl) (u ++ o :: v) (node .binary [lhs, leaf o.kind, rhs])
  -- annotations and function types
  | chainAnnotated {pl u o} : Spells (.chain pl) u o → Spells (.annotated pl) u o
  | annotated {pl i u v value type} : pl.ctx.allowsAnnotation → i.tag = .kwIs →
      Spells (.annotated pl) u value → Spells (.arrow pl.annotation) v type →
      Spells (.annotated pl) (u ++ i :: v) (node .ann [value, type])
  | annotatedArrow {pl u o} : Spells (.annotated pl) u o → Spells (.arrow pl) u o
  | sigma {pl f u v params result} : f.tag = .fatArrow → Spells (.params .sigma pl.lambdas) u params →
      Spells (.arrow pl.result) v result →
      Spells (.arrow pl) (u ++ f :: v) (node .sigma [params, result])
  | domain {pl a u v type result} : a.tag = .arrow → Spells (.chain pl.domain) u type →
      Spells (.arrow pl.result) v result →
      Spells (.arrow pl) (u ++ a :: v) (node .pi [Outline.domain type, result])
  | implicitParams {pl a u v params result} : a.tag = .arrow →
      Spells (.params .implicit pl.lambdas) u params → Spells (.arrow pl.result) v result →
      Spells (.arrow pl) (u ++ a :: v) (node .pi [params, result])
  | explicitParams {pl a u v params result} : a.tag = .arrow →
      headTag u.tail = .quote ∨ params.holdsTyped = true →
      Spells (.params .explicit pl.lambdas) u params → Spells (.arrow pl.result) v result →
      Spells (.arrow pl) (u ++ a :: v) (node .pi [params, result])
  -- lambdas
  | arrowExpr {pl u o} : Spells (.arrow pl) u o → Spells (.expr pl) u o
  | lambda {pl p q u v as body} : pl.lambdas = true → p.tag = .pipe → q.tag = .pipe → as ≠ [] →
      Derives (.star .atom) u as → DotsTouch u → Spells (.expr pl) v body →
      Spells (.expr pl) (p :: (u ++ q :: v)) (node .lambda [node .row as, body])

/-! ## The first token -/

/-- The bracket that opens a parameter list. -/
def ParamSetKind.opening : ParamSetKind → Tag
  | .implicit => .lbrace
  | .sigma => .lbracket
  | _ => .lparen

theorem Grammar.opening_of_paramSetShape? {tag close : Tag} {kind : ParamSetKind}
    (h : paramSetShape? tag = some (kind, close)) : tag = kind.opening := by
  cases tag <;> cases h <;> rfl

/-- What a part begins with. -/
def Part.starts : Part → TagSet
  | param _ _ => (TagSet.argStart.union .patternStart).union (.ofList [.lbrace, .quote])
  | params kind _ => .single kind.opening
  | operand _ | application _ | chain _ | annotated _ => .argStart
  | arrow _ => TagSet.argStart.insert .lbrace
  | expr _ => (TagSet.argStart.insert .lbrace).insert .pipe

/-- What begins with one of some tags is not empty. -/
theorem ne_nil_of_starts {set : TagSet} {u : List Token} (hset : set.contains .eof = false)
    (h : set.contains (headTag u) = true) : u ≠ [] := by
  rintro rfl
  rw [headTag_nil, hset] at h
  cases h

theorem Part.not_starts_eof (p : Part) : p.starts.contains .eof = false := by
  cases p with
  | params kind lambdas => cases kind <;> simp only [starts, ParamSetKind.opening] <;> decide
  | _ =>
    simp only [starts]
    decide

theorem TokenKind.starts_of_literal? {t : Token} {l : Literal} (h : t.kind.literal? = some l) :
    TagSet.literal.contains t.tag = true := by
  have htag : t.kind.tag ∈ [Tag.int, .float, .string, .char] := by
    cases hk : t.kind <;> rw [hk] at h <;> first | (cases h; done) | simp [TokenKind.tag]
  rw [Token.tag]
  generalize t.kind.tag = tag at htag
  revert tag
  decide

theorem Derives.starts_path {u : List Token} {ts : List (Outline TokenKind)} (h : Derives .path u ts) :
    TagSet.identStart.contains (headTag u) = true := by
  have hname := h.isName_path
  generalize headTag u = tag at hname ⊢
  cases tag <;> first | rfl | cases hname

theorem Derives.starts_atom {u : List Token} {ts : List (Outline TokenKind)} (h : Derives .atom u ts) :
    TagSet.patternStart.contains (headTag u) = true := by
  cases h with
  | literalPattern hl =>
    rw [headTag_cons, TagSet.patternStart, TagSet.contains_union, TagSet.contains_union,
      TokenKind.starts_of_literal? hl]
    rfl
  | pathPattern hp =>
    rw [TagSet.patternStart, TagSet.contains_union, TagSet.contains_union, hp.starts_path]
    simp
  | restPattern ht =>
    rw [headTag_cons, ht]
    rfl
  | groupPattern ho =>
    rw [headTag_cons, ho]
    rfl

theorem Derives.headTag_atom_ne {u : List Token} {ts : List (Outline TokenKind)} (h : Derives .atom u ts)
    {tag : Tag} (ht : TagSet.patternStart.contains tag = false) : headTag u ≠ tag := by
  rintro rfl
  rw [h.starts_atom] at ht
  cases ht

theorem Derives.starts_pattern {u : List Token} {ts : List (Outline TokenKind)}
    (h : Derives .pattern u ts) : TagSet.patternStart.contains (headTag u) = true := by
  cases h with
  | atomPattern ha => exact ha.starts_atom
  | appliedPattern hp =>
    rw [headTag_append (hp.ne_nil rfl)]
    exact (Derives.pathPattern hp).starts_atom

section Starts

variable {pl : Place} {kind : ParamSetKind} {lambdas : Bool} {t : Tag}

theorem Part.starts_arrow (h : TagSet.argStart.contains t = true) : (arrow pl).starts.contains t = true := by
  rw [starts, TagSet.contains_insert, h, Bool.true_or]

theorem Part.starts_expr (h : (arrow pl).starts.contains t = true) : (expr pl).starts.contains t = true := by
  simp only [starts] at h ⊢
  rw [TagSet.contains_insert, h, Bool.true_or]

theorem Part.starts_param_of_pattern (h : TagSet.patternStart.contains t = true) :
    (param kind lambdas).starts.contains t = true := by
  rw [starts, TagSet.contains_union, TagSet.contains_union, h, Bool.or_true, Bool.true_or]

theorem Part.starts_param_of_type (h : (arrow pl).starts.contains t = true) :
    (param kind lambdas).starts.contains t = true := by
  simp only [starts, TagSet.contains_insert, Bool.or_eq_true, beq_iff_eq] at h
  simp only [starts, TagSet.contains_union]
  obtain h | rfl := h
  · rw [h, Bool.true_or, Bool.true_or]
  · decide

theorem Part.eq_opening (h : (params kind lambdas).starts.contains t = true) : kind.opening = t := by
  simp only [starts, TagSet.contains_single] at h
  exact eq_of_beq h

theorem Part.starts_append {p : Part} {u v : List Token} (h : p.starts.contains (headTag u) = true) :
    headTag (u ++ v) = headTag u :=
  headTag_append (ne_nil_of_starts p.not_starts_eof h)

end Starts

/-- Every part begins with one of its tags. -/
theorem Spells.starts {p : Part} {u : List Token} {o : Outline TokenKind} (h : Spells p u o) :
    p.starts.contains (headTag u) = true := by
  induction h with
  | forAll hq =>
    rw [headTag_cons, hq, Part.starts]
    decide
  | typedParam hp =>
    rw [headTag_append (hp.ne_nil rfl)]
    exact Part.starts_param_of_pattern hp.starts_pattern
  | barePattern hp => exact Part.starts_param_of_pattern hp.starts_pattern
  | bareType _ _ ih => exact Part.starts_param_of_type ih
  | params ho =>
    rw [headTag_cons, opening_of_paramSetShape? ho, Part.starts, TagSet.contains_single, beq_self_eq_true]
  | literal hl =>
    rw [headTag_cons, Part.starts, TagSet.argStart, TagSet.contains_union, TagSet.contains_union,
      TokenKind.starts_of_literal? hl]
    rfl
  | path hp =>
    rw [Part.starts, TagSet.argStart, TagSet.contains_union, TagSet.contains_union, hp.starts_path]
    simp
  | freeVar hm =>
    rw [headTag_cons, hm, Part.starts]
    decide
  | univ ht =>
    rw [headTag_cons, ht, Part.starts]
    decide
  | group ho | tuple ho | array ho =>
    rw [headTag_cons, ho, Part.starts]
    decide
  | operandApplication _ ih | applicationChain _ ih | chainAnnotated _ ih => exact ih
  | application _ _ _ ih | chain _ _ _ _ ih | annotated _ _ _ _ ih =>
    rw [Part.starts_append ih]
    exact ih
  | annotatedArrow _ ih => exact Part.starts_arrow ih
  | sigma _ _ _ ih | explicitParams _ _ _ _ ih =>
    rw [Part.starts_append ih, ← Part.eq_opening ih]
    exact Part.starts_arrow (by decide)
  | implicitParams _ _ _ ih =>
    rw [Part.starts_append ih, ← Part.eq_opening ih, Part.starts, TagSet.contains_insert]
    exact Bool.or_true _
  | domain _ _ _ ih =>
    rw [Part.starts_append ih]
    exact Part.starts_arrow ih
  | arrowExpr _ ih => exact Part.starts_expr ih
  | lambda _ hp =>
    rw [headTag_cons, hp, Part.starts]
    decide

theorem Spells.headTag_ne {p : Part} {u : List Token} {o : Outline TokenKind} (h : Spells p u o)
    {tag : Tag} (ht : p.starts.contains tag = false) : headTag u ≠ tag := by
  rintro rfl
  rw [h.starts] at ht
  cases ht

theorem Spells.ne_nil {p : Part} {u : List Token} {o : Outline TokenKind} (h : Spells p u o) : u ≠ [] :=
  ne_nil_of_starts p.not_starts_eof h.starts

/-! ## Brackets -/

theorem Row.nested {xs : List Piece} {u : List Token} {separated : Bool} (h : Row xs u separated)
    (hx : ∀ x ∈ xs, Nested false x.tokens) : Nested false u := by
  induction h with
  | nil => exact .nil _
  | last hb => exact (hx _ List.mem_cons_self).append hb.nested
  | next hb hc hb' _ ih =>
    refine ((hx _ List.mem_cons_self).append hb.nested).append (.cons (by rw [hc]; rfl) ?_)
    exact hb'.nested.append (ih fun x h => hx x (List.mem_cons_of_mem _ h))

theorem nested_flatMap {xs : List Piece} (hx : ∀ x ∈ xs, Nested false x.tokens) :
    Nested false (xs.flatMap Piece.tokens) := by
  induction xs with
  | nil => exact .nil _
  | cons x xs ih =>
    exact (hx x List.mem_cons_self).append (ih fun y hy => hx y (List.mem_cons_of_mem _ hy))

/-- Every part is properly bracketed. -/
theorem Spells.nested {p : Part} {u : List Token} {o : Outline TokenKind} (h : Spells p u o) :
    Nested false u := by
  induction h with
  | forAll hq hi => exact .cons (by rw [hq]; rfl) hi.nested
  | typedParam hp _ hc _ ih => exact hp.nested.append (.cons (by rw [hc]; rfl) ih)
  | barePattern hp => exact hp.nested
  | params ho hc hb _ hrow _ ih =>
    exact .ofGroup (by rw [hc]; exact closing?_of_paramSetShape? ho) (hb.nested.append (hrow.nested ih))
  | literal hl => exact .single (TokenKind.isPlain_of_literal? hl) fun e => by cases e
  | path hp => exact hp.nested
  | freeVar hm hi => exact .cons (by rw [hm]; rfl) hi.nested
  | univ ht => exact .single (by rw [ht]; rfl) fun e => by cases e
  | group ho hc hb hb' _ ih =>
    exact .ofGroup (by rw [ho, hc]; rfl) (hb.nested.append (ih.append hb'.nested))
  | tuple ho hc hb hrow _ _ ih | array ho hc hb hrow _ ih =>
    exact .ofGroup (by rw [ho, hc]; rfl) (hb.nested.append (hrow.nested ih))
  | bareType _ _ ih | operandApplication _ ih | applicationChain _ ih | chainAnnotated _ ih
    | annotatedArrow _ ih | arrowExpr _ ih => exact ih
  | application _ _ _ ih ihs => exact ih.append (nested_flatMap ihs)
  | chain ho _ _ _ ih₁ ih₂ => exact ih₁.append (.cons (TokenKind.isPlain_of_isOperator ho) ih₂)
  | annotated _ ht _ _ ih₁ ih₂ | sigma ht _ _ ih₁ ih₂ | domain ht _ _ ih₁ ih₂
    | implicitParams ht _ _ ih₁ ih₂ | explicitParams ht _ _ _ ih₁ ih₂ =>
    exact ih₁.append (.cons (by rw [ht]; rfl) ih₂)
  | lambda _ hp hq _ has _ _ ih =>
    exact .cons (by rw [hp]; rfl) (has.nested.append (.cons (by rw [hq]; rfl) ih))

/-! ## Types written as values -/

/-- Whether a part is a type. -/
def Part.inType : Part → Bool
  | param _ _ | params _ _ => true
  | operand pl | application pl | chain pl | annotated pl | arrow pl | expr pl => pl.ctx.inType

/-- Whether a part may hold lambdas. -/
def Part.lambdas : Part → Bool
  | param _ lambdas | params _ lambdas => lambdas
  | operand pl | application pl | chain pl | annotated pl | arrow pl | expr pl => pl.lambdas

/-- The same place in a value. -/
def Place.inValue (pl : Place) : Place := { pl with ctx := { pl.ctx with inType := false } }

/-- The same part of a value. -/
def Part.inValue : Part → Part
  | param kind lambdas => param kind lambdas
  | params kind lambdas => params kind lambdas
  | operand pl => operand pl.inValue
  | application pl => application pl.inValue
  | chain pl => chain pl.inValue
  | annotated pl => annotated pl.inValue
  | arrow pl => arrow pl.inValue
  | expr pl => expr pl.inValue

theorem Place.result_inValue (pl : Place) : pl.inValue.result = pl.result := by
  simp [result, inValue, Context.union, Context.type]

theorem Place.domain_inValue (pl : Place) : pl.inValue.domain = pl.domain := by
  simp [domain, inValue, Context.union, Context.type]

theorem Row.congr {xs ys : List Piece} {u : List Token} {separated : Bool} (h : Row xs u separated)
    (hxs : ys.map Piece.tokens = xs.map Piece.tokens) : Row ys u separated := by
  induction h generalizing ys with
  | nil =>
    obtain rfl := List.map_eq_nil_iff.1 hxs
    exact .nil
  | last hb =>
    obtain ⟨y, rfl, hy⟩ := List.map_eq_singleton_iff.1 hxs
    exact hy ▸ .last hb
  | @next x xs b c b' u separated hb hc hb' _ ih =>
    obtain ⟨y, ys, rfl, hy, hys⟩ := List.map_eq_cons_iff.1 hxs
    have hempty : ys.isEmpty = xs.isEmpty := by
      have := congrArg List.isEmpty hys
      rwa [List.isEmpty_map, List.isEmpty_map] at this
    rw [← hy, ← hempty]
    exact .next hb hc hb' (ih hys)

/-- Items that are types each are types together. -/
theorem asTypes_map {xs : List Piece} (hx : ∀ x ∈ xs, asType x.outline = some x.outline) :
    asTypes (xs.map Piece.outline) = some (xs.map Piece.outline) := by
  induction xs with
  | nil => simp [asTypes]
  | cons x xs ih =>
    simp [asTypes, hx x List.mem_cons_self, ih fun y hy => hx y (List.mem_cons_of_mem _ hy)]

theorem exists_values {p : Part} {xs : List Piece}
    (hx : ∀ x ∈ xs, ∃ o, Spells p x.tokens o ∧ asType o = some x.outline) :
    ∃ ys : List Piece, ys.map Piece.tokens = xs.map Piece.tokens ∧
      (∀ y ∈ ys, Spells p y.tokens y.outline) ∧
      asTypes (ys.map Piece.outline) = some (xs.map Piece.outline) := by
  induction xs with
  | nil => exact ⟨[], rfl, (fun _ hy => by cases hy), by simp [asTypes]⟩
  | cons x xs ih =>
    obtain ⟨o, ho, htype⟩ := hx x List.mem_cons_self
    obtain ⟨ys, htokens, hys, htypes⟩ := ih fun y hy => hx y (List.mem_cons_of_mem _ hy)
    refine ⟨⟨x.tokens, o⟩ :: ys, by rw [List.map_cons, htokens]; rfl, fun y hy => ?_, ?_⟩
    · rcases List.mem_cons.1 hy with rfl | hy
      · exact ho
      · exact hys y hy
    · simp [asTypes, htype, htypes]

/-- A type is a type already. -/
theorem Spells.asType_eq {p : Part} {u : List Token} {o : Outline TokenKind} (h : Spells p u o)
    (hp : p.inType = true) : o.asType = some o := by
  induction h with
  | path hpath =>
    cases hpath
    simp [asType]
  | operandApplication _ ih | applicationChain _ ih | chainAnnotated _ ih | annotatedArrow _ ih
    | arrowExpr _ ih => exact ih hp
  | group _ _ _ _ _ ih => simp [asType, asTypes, ih hp]
  | tuple _ _ _ _ _ _ ih | array _ _ _ _ _ ih =>
    simp [asType, asTypes_map fun x hx => ih x hx hp]
  | @application pl =>
    rw [Outline.application, if_pos (show pl.ctx.inType = true from hp)]
    simp [asType]
  | chain _ _ _ _ ih₁ ih₂ => simp [asType, asTypes, ih₁ hp, ih₂ hp]
  | annotated _ _ _ _ ih _ => simp [asType, ih hp]
  | _ => simp [asType]

/-- A type without lambdas can be written as a value, with the same tokens. -/
theorem Spells.asValue {p : Part} {u : List Token} {o : Outline TokenKind} (h : Spells p u o)
    (hp : p.inType = true) (hl : p.lambdas = false) :
    ∃ value, Spells p.inValue u value ∧ value.asType = some o := by
  induction h with
  | forAll hq hi => exact ⟨_, .forAll hq hi, by simp [asType]⟩
  | typedParam hpat hd hc ht => exact ⟨_, .typedParam hpat hd hc ht, by simp [asType]⟩
  | bareType hk ht => exact ⟨_, .bareType hk ht, by simp [asType]⟩
  | barePattern hpat hd => exact ⟨_, .barePattern hpat hd, by simp [asType]⟩
  | params ho hc hb hne hrow hxs => exact ⟨_, .params ho hc hb hne hrow hxs, by simp [asType]⟩
  | literal hlit => exact ⟨_, .literal hlit, by simp [asType]⟩
  | path hpath hd =>
    refine ⟨_, .path hpath hd, ?_⟩
    cases hpath
    simp [asType]
  | freeVar hm hi => exact ⟨_, .freeVar hm hi, by simp [asType]⟩
  | univ ht => exact ⟨_, .univ ht, by simp [asType]⟩
  | group ho hc hb hb' _ ih =>
    obtain ⟨value, hv, htype⟩ := ih hp hl
    exact ⟨_, .group ho hc hb hb' hv, by simp [asType, asTypes, htype]⟩
  | tuple ho hc hb hrow hone _ ih =>
    obtain ⟨ys, htokens, hys, htypes⟩ := exists_values fun x hx => ih x hx hp hl
    have hlen := congrArg List.length htokens
    rw [List.length_map, List.length_map] at hlen
    exact ⟨_, .tuple ho hc hb (hrow.congr htokens) (hlen ▸ hone) hys, by simp [asType, htypes]⟩
  | array ho hc hb hrow _ ih =>
    obtain ⟨ys, htokens, hys, htypes⟩ := exists_values fun x hx => ih x hx hp hl
    exact ⟨_, .array ho hc hb (hrow.congr htokens) hys, by simp [asType, htypes]⟩
  | operandApplication _ ih =>
    obtain ⟨value, hv, htype⟩ := ih hp hl
    exact ⟨value, .operandApplication hv, htype⟩
  | @application pl u f xs hne _ _ ih ihs =>
    obtain ⟨value, hv, htype⟩ := ih hp hl
    obtain ⟨ys, htokens, hys, htypes⟩ := exists_values fun x hx => ihs x hx hp hl
    have hne' : ys ≠ [] := by
      rintro rfl
      exact hne (List.map_eq_nil_iff.1 htokens.symm)
    have hflat : ys.flatMap Piece.tokens = xs.flatMap Piece.tokens := by
      rw [List.flatMap_def, List.flatMap_def, htokens]
    have happ := Spells.application hne' hv hys
    rw [hflat] at happ
    refine ⟨_, happ, ?_⟩
    rw [Outline.application, Outline.application, if_pos (show pl.ctx.inType = true from hp),
      if_neg (show ¬pl.inValue.ctx.inType = true from Bool.false_ne_true)]
    simp [asType, asTypes, htype, htypes]
  | applicationChain _ ih =>
    obtain ⟨value, hv, htype⟩ := ih hp hl
    exact ⟨value, .applicationChain hv, htype⟩
  | chain ho hd _ _ ih₁ ih₂ =>
    obtain ⟨lhs, hv₁, htype₁⟩ := ih₁ hp hl
    obtain ⟨rhs, hv₂, htype₂⟩ := ih₂ hp hl
    exact ⟨_, .chain ho hd hv₁ hv₂, by simp [asType, asTypes, htype₁, htype₂]⟩
  | chainAnnotated _ ih =>
    obtain ⟨value, hv, htype⟩ := ih hp hl
    exact ⟨value, .chainAnnotated hv, htype⟩
  | annotated ha hi _ ht ih _ =>
    obtain ⟨value, hv, htype⟩ := ih hp hl
    exact ⟨_, .annotated ha hi hv ht, by simp [asType, htype]⟩
  | annotatedArrow _ ih =>
    obtain ⟨value, hv, htype⟩ := ih hp hl
    exact ⟨value, .annotatedArrow hv, htype⟩
  | @sigma pl _ _ _ _ _ hf hparams hr =>
    rw [← pl.result_inValue] at hr
    exact ⟨_, .sigma hf hparams hr, by simp [asType]⟩
  | @domain pl _ _ _ _ _ ha hd hr =>
    rw [← pl.result_inValue] at hr
    rw [← pl.domain_inValue] at hd
    exact ⟨_, .domain ha hd hr, by simp [asType]⟩
  | @implicitParams pl _ _ _ _ _ ha hparams hr =>
    rw [← pl.result_inValue] at hr
    exact ⟨_, .implicitParams ha hparams hr, by simp [asType]⟩
  | @explicitParams pl _ _ _ _ _ ha hsome hparams hr =>
    rw [← pl.result_inValue] at hr
    exact ⟨_, .explicitParams ha hsome hparams hr, by simp [asType]⟩
  | arrowExpr _ ih =>
    obtain ⟨value, hv, htype⟩ := ih hp hl
    exact ⟨value, .arrowExpr hv, htype⟩
  | lambda hlambdas =>
    rw [Part.lambdas, hlambdas] at hl
    cases hl

end SolSyntax
