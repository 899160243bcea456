import SolSyntax.Proofs.Telltales

/-!
# What can be written

`Tree p o` says that the tree `o` is a part `p` of an expression, without a word about tokens.

Principal result: `tree_iff_spells` — just these trees can be written.
-/

namespace SolSyntax

open Grammar
open Outline (leaf node)

/-! ## Trees -/

/-- A path of identifiers. -/
def IsPath (o : Outline TokenKind) : Prop :=
  ∃ (i : TokenKind) (is : List TokenKind), o = node .path (leaf i :: is.map leaf) ∧
    ∀ j ∈ i :: is, j.isIdent = true

/-- A pattern; an atom takes no arguments. -/
inductive IsPattern : (isAtom : Bool) → Outline TokenKind → Prop
  | literal {isAtom k l} : k.literal? = some l → IsPattern isAtom (node .literalPattern [leaf k])
  | path {isAtom p} : IsPath p → IsPattern isAtom (node .constructorPattern [p, node .row []])
  | rest {isAtom} : IsPattern isAtom (node .restPattern [])
  | group {isAtom p} : IsPattern false p → IsPattern isAtom (node .groupPattern [p])
  | applied {p as} : IsPath p → (∀ a ∈ as, IsPattern true a) →
      IsPattern false (node .constructorPattern [p, node .row as])

/-- Whether a parameter list begins with a quote. -/
def Outline.startsQuoted {α : Type} : Outline α → Bool
  | node (.params _) (node .forAll _ :: _) => true
  | _ => false

/-- A tree is a part of an expression. -/
inductive Tree : Part → Outline TokenKind → Prop
  -- parameters
  | forAll {k l i} : i.isIdent → Tree (.param k l) (node .forAll [leaf i])
  | typedParam {k l p t} : IsPattern false p → Tree (.arrow ⟨.type, l⟩) t →
      Tree (.param k l) (node .typed [node .row [p], t])
  | bareType {k l t} : k ≠ .sigma → Tree (.arrow ⟨.type, l⟩) t →
      Tree (.param k l) (node .typed [node .row [], t])
  | barePattern {l p} : IsPattern false p → Tree (.param .sigma l) (node .untyped [p])
  | params {k l ps} : k ≠ .domain → ps ≠ [] → (∀ p ∈ ps, Tree (.param k l) p) →
      Tree (.params k l) (node (.params k) ps)
  -- operands
  | literal {pl k l} : k.literal? = some l → Tree (.operand pl) (node .literal [leaf k])
  | path {pl p} : IsPath p → Tree (.operand pl) p
  | freeVar {pl i} : i.isIdent → Tree (.operand pl) (node .freeVar [leaf i])
  | univ {pl} : Tree (.operand pl) (node .univ [leaf .kwUniverse])
  | group {pl e} : Tree (.expr pl.nested) e → Tree (.operand pl) (node .group [e])
  | tuple {pl es} {separated : Bool} : (es = [] → separated = false) → (es.length = 1 → separated = true) →
      (∀ e ∈ es, Tree (.expr pl.nested) e) → Tree (.operand pl) (node (.tuple separated) es)
  | array {pl es} : (∀ e ∈ es, Tree (.expr pl.nested) e) → Tree (.operand pl) (node .array es)
  -- applications and chains
  | operandApplication {pl o} : Tree (.operand pl) o → Tree (.application pl) o
  | application {pl f as} : as ≠ [] → Tree (.operand pl) f → (∀ a ∈ as, Tree (.operand pl) a) →
      Tree (.application pl) (Outline.application pl.ctx f as [])
  | applicationChain {pl o} : Tree (.application pl) o → Tree (.chain pl) o
  | chain {pl k lhs rhs} : k.isOperator → Tree (.chain pl) lhs → Tree (.application pl) rhs →
      Tree (.chain pl) (node .binary [lhs, leaf k, rhs])
  -- annotations and function types
  | chainAnnotated {pl o} : Tree (.chain pl) o → Tree (.annotated pl) o
  | annotated {pl value type} : pl.ctx.allowsAnnotation → Tree (.annotated pl) value →
      Tree (.arrow pl.annotation) type → Tree (.annotated pl) (node .ann [value, type])
  | annotatedArrow {pl o} : Tree (.annotated pl) o → Tree (.arrow pl) o
  | sigma {pl params result} : Tree (.params .sigma pl.lambdas) params → Tree (.arrow pl.result) result →
      Tree (.arrow pl) (node .sigma [params, result])
  | domain {pl type result} : Tree (.chain pl.domain) type → Tree (.arrow pl.result) result →
      Tree (.arrow pl) (node .pi [Outline.domain type, result])
  | implicitParams {pl params result} : Tree (.params .implicit pl.lambdas) params →
      Tree (.arrow pl.result) result → Tree (.arrow pl) (node .pi [params, result])
  | explicitParams {pl params result} : params.startsQuoted = true ∨ params.holdsTyped = true →
      Tree (.params .explicit pl.lambdas) params → Tree (.arrow pl.result) result →
      Tree (.arrow pl) (node .pi [params, result])
  -- lambdas
  | arrowExpr {pl o} : Tree (.arrow pl) o → Tree (.expr pl) o
  | lambda {pl as body} : pl.lambdas = true → as ≠ [] → (∀ a ∈ as, IsPattern true a) →
      Tree (.expr pl) body → Tree (.expr pl) (node .lambda [node .row as, body])

/-! ## Writing trees -/

/-- A token of a kind. -/
def TokenKind.token (k : TokenKind) : Token := ⟨k, .dummy, .first⟩

@[simp] theorem TokenKind.tag_token (k : TokenKind) : k.token.tag = k.tag := rfl

/-- Tokens that all touch one another. -/
def Packed (u : List Token) : Prop := ∀ t ∈ u, t.span = .dummy

namespace Packed

variable {u v : List Token}

theorem token (k : TokenKind) : Packed [k.token] := fun t ht => by rw [List.mem_singleton.1 ht]; rfl

theorem append (hu : Packed u) (hv : Packed v) : Packed (u ++ v) :=
  fun t ht => (List.mem_append.1 ht).elim (hu t) (hv t)

theorem flatMap {xs : List Piece} (h : ∀ x ∈ xs, Packed x.tokens) : Packed (xs.flatMap Piece.tokens) := by
  intro t ht
  obtain ⟨x, hx, ht⟩ := List.mem_flatMap.1 ht
  exact h x hx t ht

theorem dotsTouch (h : Packed u) : DotsTouch u := by
  intro a d b hi _
  rw [h a (hi.subset (by simp)), h d (hi.subset (by simp)), h b (hi.subset (by simp))]
  exact ⟨rfl, rfl⟩

end Packed

/-- What can be written one by one can be written in a row. -/
theorem exists_pieces_of_forall {P : Piece → Prop} {os : List (Outline TokenKind)}
    (h : ∀ o ∈ os, ∃ u, P ⟨u, o⟩) : ∃ xs : List Piece, xs.map Piece.outline = os ∧ ∀ x ∈ xs, P x := by
  induction os with
  | nil => exact ⟨[], rfl, fun _ hx => by cases hx⟩
  | cons o os ih =>
    obtain ⟨u, hu⟩ := h o List.mem_cons_self
    obtain ⟨xs, hxs, hall⟩ := ih fun p hp => h p (List.mem_cons_of_mem _ hp)
    refine ⟨⟨u, o⟩ :: xs, by rw [List.map_cons, hxs], fun x hx => ?_⟩
    rcases List.mem_cons.1 hx with rfl | hx
    · exact hu
    · exact hall x hx

/-- A row can be written with or without a comma behind the last item. -/
theorem exists_row (xs : List Piece) (separated : Bool) (h : xs = [] → separated = false) :
    ∃ u, Row xs u separated := by
  induction xs with
  | nil => exact ⟨[], h rfl ▸ .nil⟩
  | cons x xs ih =>
    by_cases hxs : xs = []
    · subst hxs
      cases separated with
      | false => exact ⟨_, .last .nil⟩
      | true => exact ⟨_, .next .nil (TokenKind.tag_token .comma) .nil .nil⟩
    · obtain ⟨u, hu⟩ := ih fun e => absurd e hxs
      have hempty : xs.isEmpty = false := by simpa using hxs
      have hnext := Row.next (x := x) .nil (TokenKind.tag_token .comma) .nil hu
      rw [hempty, Bool.false_or] at hnext
      exact ⟨_, hnext⟩

theorem Derives.star_append {ph : Phrase} {u : List Token} {ts : List (Outline TokenKind)} {xs : List Piece}
    (h : Derives (.star ph) u ts) (hxs : ∀ x ∈ xs, Derives ph x.tokens [x.outline]) :
    Derives (.star ph) (u ++ xs.flatMap Piece.tokens) (ts ++ xs.map Piece.outline) := by
  induction xs generalizing u ts with
  | nil => simpa using h
  | cons x xs ih =>
    have := ih (.starSnoc h (hxs x List.mem_cons_self)) fun y hy => hxs y (List.mem_cons_of_mem _ hy)
    simpa using this

/-- The phrase that a pattern is. -/
def patternPhrase (isAtom : Bool) : Phrase := if isAtom then .atom else .pattern

theorem Derives.patternPhrase {u : List Token} {ts : List (Outline TokenKind)} (h : Derives .atom u ts)
    (isAtom : Bool) : Derives (patternPhrase isAtom) u ts := by
  cases isAtom with
  | true => exact h
  | false => exact .atomPattern h

theorem IsPath.exists_tokens {o : Outline TokenKind} (h : IsPath o) : ∃ u, Derives .path u [o] ∧ Packed u := by
  obtain ⟨i, is, rfl, hall⟩ := h
  have hsegments : ∀ o ∈ is.map leaf, ∃ u, Derives .segment u [o] ∧ Packed u := by
    intro o ho
    obtain ⟨j, hj, rfl⟩ := List.mem_map.1 ho
    have hident : Derives .ident [j.token] [leaf j] := .ident (hall j (List.mem_cons_of_mem _ hj))
    exact ⟨_, .segment (TokenKind.tag_token .dot) hident, (Packed.token .dot).append (.token j)⟩
  obtain ⟨xs, hxs, hx⟩ := exists_pieces_of_forall (P := fun x => Derives .segment x.tokens [x.outline] ∧
    Packed x.tokens) hsegments
  have hstar := (Derives.starNil .segment).star_append fun x h => (hx x h).1
  rw [List.nil_append, List.nil_append, hxs] at hstar
  have hfirst : Derives .ident [i.token] [leaf i] := .ident (hall i List.mem_cons_self)
  exact ⟨_, .path hfirst hstar, (Packed.token i).append (.flatMap fun x h => (hx x h).2)⟩

theorem IsPattern.exists_tokens {isAtom : Bool} {p : Outline TokenKind} (h : IsPattern isAtom p) :
    ∃ u, Derives (patternPhrase isAtom) u [p] ∧ Packed u := by
  induction h with
  | @literal isAtom k l hl =>
    exact ⟨[k.token], (Derives.literalPattern (t := k.token) hl).patternPhrase _, .token k⟩
  | path hp =>
    obtain ⟨u, hu, hpacked⟩ := hp.exists_tokens
    exact ⟨u, (Derives.pathPattern hu).patternPhrase _, hpacked⟩
  | rest =>
    exact ⟨_, (Derives.restPattern (TokenKind.tag_token .dotDot)).patternPhrase _, .token _⟩
  | group _ ih =>
    obtain ⟨u, hu, hpacked⟩ := ih
    refine ⟨_, (Derives.groupPattern (TokenKind.tag_token .lparen) (TokenKind.tag_token .rparen) .nil
      .nil hu).patternPhrase _, ?_⟩
    simpa using (Packed.token .lparen).append (hpacked.append (.token .rparen))
  | applied hp _ ih =>
    obtain ⟨u, hu, hpacked⟩ := hp.exists_tokens
    obtain ⟨xs, rfl, hx⟩ := exists_pieces_of_forall (P := fun x => Derives .atom x.tokens [x.outline] ∧
      Packed x.tokens) ih
    have hstar := (Derives.starNil .atom).star_append fun x h => (hx x h).1
    exact ⟨_, .appliedPattern hu hstar, hpacked.append (.flatMap fun x h => (hx x h).2)⟩

/-- Any point can be put between tokens so that it does not touch them. -/
theorem exists_loose (k : TokenKind) (u v : List Token) : ∃ t : Token, t.kind = k ∧ ¬Touches u t v := by
  cases hu : u.getLast? with
  | none => exact ⟨k.token, rfl, fun ⟨a, _, ha, _⟩ => by rw [hu] at ha; cases ha⟩
  | some a =>
    refine ⟨⟨k, ⟨a.span.stop + 1, 0⟩, .first⟩, rfl, fun ⟨b, _, hb, _, hab, _⟩ => ?_⟩
    rw [hu] at hb
    cases hb
    exact absurd (eq_of_beq hab) (Nat.ne_of_lt (Nat.lt_succ_self _))

/-- The brackets of a parameter list. -/
theorem exists_brackets {k : ParamSetKind} (hk : k ≠ .domain) :
    ∃ (o c : TokenKind), paramSetShape? o.tag = some (k, c.tag) := by
  cases k with
  | explicit => exact ⟨.lparen, .rparen, rfl⟩
  | implicit => exact ⟨.lbrace, .rbrace, rfl⟩
  | sigma => exact ⟨.lbracket, .rbracket, rfl⟩
  | domain => exact absurd rfl hk

/-- A quoted parameter at the beginning of a list can stand right behind the bracket. -/
theorem Spells.exists_quoted {k : ParamSetKind} {l : Bool} {u : List Token} {o : Outline TokenKind}
    (h : Spells (.params k l) u o) (ho : o.startsQuoted = true) :
    ∃ v, Spells (.params k l) v o ∧ headTag v.tail = .quote := by
  cases h with
  | @params _ _ a c close b u xs separated ha hc hb hne hrow hxs =>
    refine ⟨_, .params ha hc .nil hne hrow hxs, ?_⟩
    obtain ⟨⟨u, o⟩, xs, rfl⟩ := List.exists_cons_of_ne_nil hne
    have hx : Spells (.param k l) u o := hxs _ List.mem_cons_self
    rw [List.tail_cons, List.nil_append, hrow.headTag_eq hx.ne_nil]
    cases hx with
    | forAll hq => exact hq
    | _ => cases ho

/-- Every tree can be written. -/
theorem Tree.exists_tokens {p : Part} {o : Outline TokenKind} (h : Tree p o) : ∃ u, Spells p u o := by
  induction h with
  | @forAll k l i hi => exact ⟨_, .forAll (TokenKind.tag_token .quote) (.ident (t := i.token) hi)⟩
  | typedParam hp _ ih =>
    obtain ⟨u, hu, hpacked⟩ := hp.exists_tokens
    obtain ⟨v, hv⟩ := ih
    exact ⟨_, .typedParam hu hpacked.dotsTouch (TokenKind.tag_token .colon) hv⟩
  | bareType hk _ ih => exact ih.imp fun _ hv => .bareType hk hv
  | barePattern hp => exact hp.exists_tokens.imp fun _ hu => .barePattern hu.1 hu.2.dotsTouch
  | @params k l ps hk hne _ ih =>
    obtain ⟨a, c, hshape⟩ := exists_brackets hk
    obtain ⟨xs, rfl, hxs⟩ := exists_pieces_of_forall (P := fun x => Spells (.param k l) x.tokens x.outline) ih
    obtain ⟨w, hrow⟩ := exists_row xs false fun _ => rfl
    have hne' : xs ≠ [] := fun e => hne (List.map_eq_nil_iff.2 e)
    exact ⟨_, .params (o := a.token) (c := c.token) hshape rfl .nil hne' hrow hxs⟩
  | @literal pl k l hl => exact ⟨_, .literal (t := k.token) hl⟩
  | path hp => exact hp.exists_tokens.imp fun _ hu => .path hu.1 hu.2.dotsTouch
  | @freeVar pl i hi => exact ⟨_, .freeVar (TokenKind.tag_token .caret) (.ident (t := i.token) hi)⟩
  | univ => exact ⟨_, .univ (TokenKind.tag_token .kwUniverse)⟩
  | group _ ih =>
    obtain ⟨u, hu⟩ := ih
    exact ⟨_, .group (TokenKind.tag_token .lparen) (TokenKind.tag_token .rparen) .nil .nil hu⟩
  | @tuple pl es separated hnil hone _ ih =>
    obtain ⟨xs, rfl, hxs⟩ :=
      exists_pieces_of_forall (P := fun x => Spells (.expr pl.nested) x.tokens x.outline) ih
    obtain ⟨w, hrow⟩ := exists_row xs separated fun e => hnil (List.map_eq_nil_iff.2 e)
    have hone' : xs.length = 1 → separated = true := fun e => hone (by rwa [List.length_map])
    exact ⟨_, .tuple (TokenKind.tag_token .lparen) (TokenKind.tag_token .rparen) .nil hrow hone' hxs⟩
  | @array pl es _ ih =>
    obtain ⟨xs, rfl, hxs⟩ :=
      exists_pieces_of_forall (P := fun x => Spells (.expr pl.nested) x.tokens x.outline) ih
    obtain ⟨w, hrow⟩ := exists_row xs false fun _ => rfl
    exact ⟨_, .array (TokenKind.tag_token .lbracket) (TokenKind.tag_token .rbracket) .nil hrow hxs⟩
  | operandApplication _ ih => exact ih.imp fun _ hu => .operandApplication hu
  | @application pl f as hne _ _ ih ihs =>
    obtain ⟨u, hu⟩ := ih
    obtain ⟨xs, rfl, hxs⟩ := exists_pieces_of_forall (P := fun x => Spells (.operand pl) x.tokens x.outline) ihs
    have hne' : xs ≠ [] := fun e => hne (List.map_eq_nil_iff.2 e)
    exact ⟨_, .application hne' hu hxs⟩
  | applicationChain _ ih => exact ih.imp fun _ hu => .applicationChain hu
  | @chain pl k lhs rhs hk _ _ ih₁ ih₂ =>
    obtain ⟨u, hu⟩ := ih₁
    obtain ⟨v, hv⟩ := ih₂
    obtain ⟨t, rfl, hloose⟩ := exists_loose k u v
    exact ⟨_, .chain hk (fun _ => hloose) hu hv⟩
  | chainAnnotated _ ih => exact ih.imp fun _ hu => .chainAnnotated hu
  | annotated ha _ _ ih₁ ih₂ =>
    obtain ⟨u, hu⟩ := ih₁
    obtain ⟨v, hv⟩ := ih₂
    exact ⟨_, .annotated ha (TokenKind.tag_token .kwIs) hu hv⟩
  | annotatedArrow _ ih => exact ih.imp fun _ hu => .annotatedArrow hu
  | sigma _ _ ih₁ ih₂ =>
    obtain ⟨u, hu⟩ := ih₁
    obtain ⟨v, hv⟩ := ih₂
    exact ⟨_, .sigma (TokenKind.tag_token .fatArrow) hu hv⟩
  | domain _ _ ih₁ ih₂ =>
    obtain ⟨u, hu⟩ := ih₁
    obtain ⟨v, hv⟩ := ih₂
    exact ⟨_, .domain (TokenKind.tag_token .arrow) hu hv⟩
  | implicitParams _ _ ih₁ ih₂ =>
    obtain ⟨u, hu⟩ := ih₁
    obtain ⟨v, hv⟩ := ih₂
    exact ⟨_, .implicitParams (TokenKind.tag_token .arrow) hu hv⟩
  | explicitParams hsome _ _ ih₁ ih₂ =>
    obtain ⟨u, hu⟩ := ih₁
    obtain ⟨v, hv⟩ := ih₂
    rcases hsome with hquoted | htyped
    · obtain ⟨w, hw, hq⟩ := hu.exists_quoted hquoted
      exact ⟨_, .explicitParams (TokenKind.tag_token .arrow) (.inl hq) hw hv⟩
    · exact ⟨_, .explicitParams (TokenKind.tag_token .arrow) (.inr htyped) hu hv⟩
  | arrowExpr _ ih => exact ih.imp fun _ hu => .arrowExpr hu
  | @lambda pl as body hl hne has _ ih =>
    obtain ⟨v, hv⟩ := ih
    obtain ⟨xs, rfl, hx⟩ := exists_pieces_of_forall (P := fun x => Derives .atom x.tokens [x.outline] ∧
      Packed x.tokens) fun a ha => (has a ha).exists_tokens
    have hstar := (Derives.starNil .atom).star_append fun x h => (hx x h).1
    have hpacked : Packed ([] ++ xs.flatMap Piece.tokens) := .flatMap fun x h => (hx x h).2
    exact ⟨_, .lambda hl (TokenKind.tag_token .pipe) (TokenKind.tag_token .pipe) hne hstar hpacked.dotsTouch hv⟩

/-! ## Nothing else can be written -/

theorem IsPattern.weaken {o : Outline TokenKind} (h : IsPattern true o) : IsPattern false o := by
  cases h with
  | literal hl => exact .literal hl
  | path hp => exact .path hp
  | rest => exact .rest
  | group hp => exact .group hp

/-- What the outlines of identifiers, paths and patterns are. -/
def Phrase.Shapes : Phrase → Outline TokenKind → Prop
  | ident, o | segment, o => ∃ k : TokenKind, o = leaf k ∧ k.isIdent = true
  | path, o => IsPath o
  | atom, o => IsPattern true o
  | pattern, o => IsPattern false o
  | star p, o => p.Shapes o
  | _, _ => True

theorem exists_map_leaf {P : TokenKind → Prop} {os : List (Outline TokenKind)}
    (h : ∀ o ∈ os, ∃ k, o = leaf k ∧ P k) : ∃ ks : List TokenKind, os = ks.map leaf ∧ ∀ k ∈ ks, P k := by
  induction os with
  | nil => exact ⟨[], rfl, fun _ hk => by cases hk⟩
  | cons o os ih =>
    obtain ⟨k, rfl, hk⟩ := h o List.mem_cons_self
    obtain ⟨ks, rfl, hks⟩ := ih fun p hp => h p (List.mem_cons_of_mem _ hp)
    exact ⟨k :: ks, rfl, List.forall_mem_cons.2 ⟨hk, hks⟩⟩

theorem Derives.shapes {ph : Phrase} {u : List Token} {ts : List (Outline TokenKind)} (h : Derives ph u ts) :
    ∀ o ∈ ts, ph.Shapes o := by
  have one : ∀ {ph : Phrase} {p : Outline TokenKind}, ph.Shapes p → ∀ o ∈ [p], ph.Shapes o := by
    intro ph p hp o ho
    rwa [List.mem_singleton.1 ho]
  induction h with
  | starNil => exact fun _ ho => by cases ho
  | starSnoc _ _ ih₁ ih₂ => exact fun o ho => (List.mem_append.1 ho).elim (ih₁ o) (ih₂ o)
  | ident hi => exact one ⟨_, rfl, hi⟩
  | segment _ _ ih => exact ih
  | @path u v ts us hi _ ih₁ ih₂ =>
    cases hi with
    | @ident t hi =>
      obtain ⟨is, rfl, his⟩ := exists_map_leaf ih₂
      exact one ⟨t.kind, is, rfl, List.forall_mem_cons.2 ⟨hi, his⟩⟩
  | literalPattern hl => exact one (.literal hl)
  | pathPattern _ ih => exact one (.path (ih _ List.mem_cons_self))
  | restPattern => exact one .rest
  | groupPattern _ _ _ _ hp ih =>
    obtain ⟨p, rfl⟩ := exists_pattern hp
    exact one (.group (ih _ List.mem_cons_self))
  | atomPattern _ ih => exact fun o ho => (ih o ho).weaken
  | appliedPattern _ _ ih₁ ih₂ => exact one (.applied (ih₁ _ List.mem_cons_self) ih₂)
  | _ => exact fun _ _ => trivial

theorem Row.not_separated {u : List Token} {separated : Bool} (h : Row [] u separated) : separated = false := by
  cases h
  rfl

/-- A quote behind the opening bracket belongs to the first parameter. -/
theorem Spells.startsQuoted {k : ParamSetKind} {l : Bool} {u : List Token} {o : Outline TokenKind}
    (h : Spells (.params k l) u o) (hq : headTag u.tail = .quote) : o.startsQuoted = true := by
  cases h with
  | @params _ _ a c close b w xs separated _ _ hb hne hrow hxs =>
    obtain ⟨x, xs, rfl⟩ := List.exists_cons_of_ne_nil hne
    have hx := hxs x List.mem_cons_self
    rw [List.tail_cons, List.append_assoc] at hq
    rcases headTag_allBreaks_append hb (u := w ++ [c]) with hn | hn
    · rw [hn] at hq
      cases hq
    · rw [hn, hrow.headTag_eq hx.ne_nil] at hq
      obtain ⟨_, _, i, _, _, ho⟩ := hx.quoted_param hq
      rw [List.map_cons, ho]
      rfl

/-- Whatever can be written is a tree. -/
theorem Spells.tree {p : Part} {u : List Token} {o : Outline TokenKind} (h : Spells p u o) : Tree p o := by
  have all : ∀ {p : Part} {xs : List Piece}, (∀ x ∈ xs, Tree p x.outline) →
      ∀ o ∈ xs.map Piece.outline, Tree p o := by
    intro p xs hxs o ho
    obtain ⟨x, hx, rfl⟩ := List.mem_map.1 ho
    exact hxs x hx
  have mapNil : ∀ {xs : List Piece}, xs ≠ [] → xs.map Piece.outline ≠ [] :=
    fun hne e => hne (List.map_eq_nil_iff.1 e)
  induction h with
  | forAll _ hi =>
    obtain ⟨k, rfl, hk⟩ := hi.shapes _ List.mem_cons_self
    exact .forAll hk
  | typedParam hp _ _ _ ih => exact .typedParam (hp.shapes _ List.mem_cons_self) ih
  | bareType hk _ ih => exact .bareType hk ih
  | barePattern hp => exact .barePattern (hp.shapes _ List.mem_cons_self)
  | params ho _ _ hne _ _ ih =>
    refine .params ?_ (mapNil hne) (all ih)
    rintro rfl
    rw [opening_of_paramSetShape? ho] at ho
    cases ho
  | literal hl => exact .literal hl
  | path hp => exact .path (hp.shapes _ List.mem_cons_self)
  | freeVar _ hi =>
    obtain ⟨k, rfl, hk⟩ := hi.shapes _ List.mem_cons_self
    exact .freeVar hk
  | univ => exact .univ
  | group _ _ _ _ _ ih => exact .group ih
  | tuple _ _ _ hrow hone _ ih =>
    refine .tuple (fun e => ?_) (fun e => hone (by rwa [List.length_map] at e)) (all ih)
    obtain rfl := List.map_eq_nil_iff.1 e
    exact hrow.not_separated
  | array _ _ _ _ _ ih => exact .array (all ih)
  | operandApplication _ ih => exact .operandApplication ih
  | application hne _ _ ih ihs => exact .application (mapNil hne) ih (all ihs)
  | applicationChain _ ih => exact .applicationChain ih
  | chain hk _ _ _ ih₁ ih₂ => exact .chain hk ih₁ ih₂
  | chainAnnotated _ ih => exact .chainAnnotated ih
  | annotated ha _ _ _ ih₁ ih₂ => exact .annotated ha ih₁ ih₂
  | annotatedArrow _ ih => exact .annotatedArrow ih
  | sigma _ _ _ ih₁ ih₂ => exact .sigma ih₁ ih₂
  | domain _ _ _ ih₁ ih₂ => exact .domain ih₁ ih₂
  | implicitParams _ _ _ ih₁ ih₂ => exact .implicitParams ih₁ ih₂
  | explicitParams _ hsome hparams _ ih₁ ih₂ =>
    exact .explicitParams (hsome.imp_left hparams.startsQuoted) ih₁ ih₂
  | arrowExpr _ ih => exact .arrowExpr ih
  | lambda hl _ _ hne has _ _ ih => exact .lambda hl hne has.shapes ih

/-- The trees that can be written are just the parts of expressions. -/
theorem tree_iff_spells {p : Part} {o : Outline TokenKind} : Tree p o ↔ ∃ u, Spells p u o :=
  ⟨Tree.exists_tokens, fun ⟨_, h⟩ => h.tree⟩

end SolSyntax
