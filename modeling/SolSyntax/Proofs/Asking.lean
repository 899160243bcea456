import SolSyntax.Proofs.Levels
import SolSyntax.Proofs.Telltales

/-!
# What productions ask for

A group is calm whatever is to be avoided, as all that it asks for is asked for in its own brackets.  So no
expression asks for what does not stand outside of brackets in any, and a row of parameters or constructors asks
for nothing at all beside its brackets.

Principal results: `bracketed_group` — what a group has passed; the instances of `Calm` for productions, up to
`rules_calm` — no expression asks for a colon, a quote or an `=` but in brackets.
-/

-- instances are long terms, as productions have many steps
set_option synthInstance.maxSize 2000

namespace SolSyntax.Grammar

open Parse

variable {p : Spot} {avoid inner : List Tag} {s s' : State} {l : Option Nat}

/-! ## Groups -/

/-- From one state to another a group was passed, with none of some tags in it but in inner brackets. -/
structure PassesGroup (inner : List Tag) (close : Tag) (s s' : State) : Prop where
  tokens : s'.cursor.tokens = s.cursor.tokens
  opens : s.cursor.currentTag.isOpening = true
  /-- What stands between the brackets. -/
  group : ∃ j, s.cursor.position < j ∧ s'.cursor.position = j + 1 ∧ s.cursor.tagAt j = close ∧
    Closes 0 (s.cursor.tokens.slice (s.cursor.position + 1) j) ∧
    ∀ tag ∈ inner, occursIn tag (s.cursor.tokens.slice (s.cursor.position + 1) j) 0 = false

namespace PassesGroup

variable {close : Tag}

/-- The tokens of a group. -/
theorem exists_slice (h : PassesGroup inner close s s') (hclose : close.isClosing = true) :
    ∃ o m c, s.cursor.tokens.slice s.cursor.position s'.cursor.position = o :: (m ++ [c]) ∧
      o.tag.isOpening = true ∧ c.tag = close ∧ Closes 0 m ∧ ∀ tag ∈ inner, occursIn tag m 0 = false := by
  obtain ⟨j, hlt, hstop, htag, hcloses, hfree⟩ := h.group
  have hopens := h.opens
  have hcloser : s.cursor.tokens.tagAt j = close := htag
  obtain ⟨o, ho, hfirst⟩ := TokenList.slice_cons (Tag.ne_eof_of_isOpening hopens) (Nat.lt_succ_of_lt hlt)
  obtain ⟨c, hc, hlast⟩ := TokenList.slice_cons (Tag.ne_eof_of_isClosing (hcloser ▸ hclose)) (Nat.lt_succ_self j)
  rw [TokenList.slice_self] at hlast
  refine ⟨o, _, c, ?_, ?_, hc.trans htag, hcloses, hfree⟩
  · rw [hstop, hfirst, ← TokenList.slice_append hlt (Nat.le_succ j), hlast]
  · rw [ho]
    exact hopens

/-- A group is properly bracketed, and holds nothing outside of brackets. -/
theorem passes (h : PassesGroup inner close s s') (hclose : close.isClosing = true) (avoid : List Tag) :
    Passes avoid s s' := by
  obtain ⟨j, hlt, hstop, -⟩ := h.group
  obtain ⟨o, m, c, hslice, ho, hc, hm, -⟩ := h.exists_slice hclose
  have hclosing : c.tag.isClosing = true := hc ▸ hclose
  refine ⟨h.tokens, by omega, ?_, fun tag _ => ?_⟩
  · rw [hslice, Closes, Tag.depthFrom_of_isOpening ho]
    have hlast : Closes 1 [c] := by
      refine ⟨Tag.ne_eof_of_isClosing hclosing, fun _ => Nat.one_pos, ?_⟩
      rw [Tag.depthFrom_of_isClosing hclosing]
      rfl
    refine ⟨Tag.ne_eof_of_isOpening ho, fun h => ?_, hm.append_iff.2 hlast⟩
    rw [Tag.isClosing_of_isOpening ho] at h
    cases h
  · rw [hslice, occursIn, if_neg (by simp [ho]), Tag.depthFrom_of_isOpening ho, Nat.zero_add, ← Nat.zero_add 1,
      hm.occursIn_eq tag [c] Nat.one_pos, occursIn, if_neg (by simp), occursIn]

/-- A group ends where counting brackets leads. -/
theorem groupSplit_eq (h : PassesGroup inner close s s') (hclose : close.isClosing = true) :
    ∃ o m, groupSplit s.cursor.rest 0 = some (o :: m, s'.cursor.rest) ∧
      ∀ tag ∈ inner, occursIn tag m 0 = false := by
  obtain ⟨o, m, c, hslice, ho, hc, hm, hfree⟩ := h.exists_slice hclose
  have hle := (h.passes hclose []).position
  have hrest : s.cursor.rest = (o :: (m ++ [c])) ++ s'.cursor.rest := by
    have hcut := List.take_append_drop (s'.cursor.position - s.cursor.position)
      (s.cursor.tokens.toList.drop s.cursor.position)
    rw [List.drop_drop, Nat.add_sub_cancel' hle] at hcut
    rw [← hslice, Cursor.rest, Cursor.rest, h.tokens]
    exact hcut.symm
  have hlast : groupSplit (c :: s'.cursor.rest) 1 = some ([], s'.cursor.rest) := by
    rw [groupSplit, if_pos ⟨hc ▸ hclose, Nat.le_refl _⟩]
  refine ⟨o, m, ?_, hfree⟩
  rw [hrest, List.cons_append, List.append_assoc, List.singleton_append, groupSplit,
    Tag.depthFrom_of_isOpening ho, hm.groupSplit_eq _ Nat.one_pos, hlast]
  simp [Tag.isClosing_of_isOpening ho, Tag.ne_eof_of_isOpening ho]

/-- What stands behind a group. -/
theorem groupThen_eq (h : PassesGroup inner close s s') (hclose : close.isClosing = true) (tag : Tag) :
    groupThen tag s.cursor.rest = (s'.cursor.currentTag == tag) := by
  obtain ⟨o, m, hsplit, -⟩ := h.groupSplit_eq hclose
  rw [groupThen, hsplit, Cursor.currentTag_eq]

end PassesGroup

namespace Spot

variable {p : Spot} {s : State} {l : Option Nat}

/-- The level behind a token. -/
theorem Level.next (h : p.Level l s.cursor.position) (htokens : s.cursor.tokens = p.tokens)
    (ho : s.cursor.currentTag.isOpening = true) : p.Level (l.map (· + 1)) (s.cursor.position + 1) := by
  cases l with
  | none => exact h
  | some k =>
    intro hle
    obtain ⟨o, hmem, hslice⟩ := TokenList.slice_cons (Tag.ne_eof_of_isOpening ho) hle
    have hcloses := h (Nat.le_of_succ_le hle)
    rw [← htokens, hslice, Closes, Tag.depthFrom_of_isOpening (hmem ▸ ho)] at hcloses
    rw [← htokens]
    exact hcloses.2.2

end Spot

/-- What stands between brackets, of which the first one is taken whatever it is. -/
def enclosed (close : Tag) (content : Parse α) : Parse (Token × α × Span) := do
  let opening ← advance
  let x ← content
  let closing ← expectClosing close opening.span
  return (opening, x, closing)

section Enclosed

variable {close : Tag} {content : Parse α}

/-- The closing bracket is taken, or complained of as missing. -/
theorem expectClosing_cases (close : Tag) (opening : Span) (s : State) :
    (s.cursor.currentTag = close ∧ (close ≠ .eof → expectClosing close opening s =
      .ok s.cursor.current.span (s.moved (s.cursor.position + 1)))) ∨
    s.cursor.currentTag ≠ close ∧ ∃ e, expectClosing close opening s = .error (.error e) (s.noted (.single close)) ∧
      e.expected = (s.noted (.single close)).cursor.expectedHere := by
  unfold expectClosing
  rw [check_eq_checkSet]
  by_cases h : s.cursor.currentTag = close
  · refine .inl ⟨h, fun heof => ?_⟩
    have hset : (TagSet.single close).contains s.cursor.currentTag = true := h ▸ TagSet.contains_single_self _
    have hend : s.cursor.isAtEnd = false := beq_false_of_ne (h ▸ heof)
    rw [bind_of_ok (checkSet_of_mem hset)]
    exact bind_of_ok (advance_of_not_isAtEnd hend)
  · have hset : (TagSet.single close).contains s.cursor.currentTag = false := TagSet.contains_single_of_ne h
    refine .inr ⟨h, _, (bind_of_ok (checkSet_of_not_mem hset)).trans rfl, rfl⟩

theorem enclosed_group (h : Calm p inner content) (hclose : close.isClosing = true)
    (ho : s.cursor.currentTag.isOpening = true) {x : Token × α × Span} (hrun : enclosed close content s = .ok x s') :
    PassesGroup inner close s s' := by
  have heof := Tag.ne_eof_of_isClosing hclose
  have hend : s.cursor.isAtEnd = false := beq_false_of_ne (Tag.ne_eof_of_isOpening ho)
  rw [enclosed, bind_of_ok (advance_of_not_isAtEnd hend)] at hrun
  obtain ⟨a, s₂, hcontent, hrun⟩ := exists_of_bind_ok hrun
  have passes := (h.calm _).passes a s₂ hcontent
  obtain ⟨c, s₃, hclosing, hrun⟩ := exists_of_bind_ok hrun
  cases hrun
  obtain ⟨htag, hok⟩ | ⟨-, e, herror, -⟩ := expectClosing_cases close s.cursor.current.span s₂
  · rw [hok heof] at hclosing
    cases hclosing
    refine ⟨passes.tokens, ho, s₂.cursor.position, passes.position, rfl, ?_, passes.closes, passes.free⟩
    rw [← htag, Cursor.currentTag, Cursor.tagAt, Cursor.tagAt, passes.tokens]
    rfl
  · rw [herror] at hclosing
    cases hclosing

/-- **A group is calm whatever is to be avoided.** -/
theorem CalmFrom.enclosed (h : Calm p inner content) [TagSet.Beside [] (.single close)]
    (hclose : close.isClosing = true) (ho : s.cursor.currentTag.isOpening = true) :
    CalmFrom p avoid (enclosed close content) s := by
  refine ⟨fun x s' hrun => (enclosed_group h hclose ho hrun).passes hclose avoid, fun l hs _ => ?_⟩
  have hend : s.cursor.isAtEnd = false := beq_false_of_ne (Tag.ne_eof_of_isOpening ho)
  have hstep := hs.step (hs.level.next hs.tokens ho)
  have hl : l.map (· + 1) = some 0 → p.tag ∈ inner := by cases l <;> nofun
  rw [Grammar.enclosed, bind_of_ok (advance_of_not_isAtEnd hend)]
  have calm := h.calm (s.moved (s.cursor.position + 1))
  cases hrun : content (s.moved (s.cursor.position + 1)) with
  | error e s₂ =>
    have hushed := calm.hushed _ hstep hl
    rw [hrun] at hushed
    rw [bind_of_error hrun]
    cases e <;> exact hushed
  | ok a s₂ =>
    have rests := calm.rests hstep hl hrun
    rw [bind_of_ok hrun]
    obtain ⟨-, hok⟩ | ⟨-, e, herror, hexpected⟩ := expectClosing_cases close s.cursor.current.span s₂
    · rw [bind_of_ok (hok (Tag.ne_eof_of_isClosing hclose))]
      exact ⟨Nat.le_succ_of_le rests.probed, fun _ =>
        Spot.Rests.fresh_of_lt (d := (s₂.moved _).cursor) rests.probed (Nat.lt_succ_self _) rfl p.tag⟩
    · rw [bind_of_error herror]
      intro heq
      have hno : l.map (· + 1) = some 0 → p.tag ∈ ([] : List Tag) := by cases l <;> nofun
      rw [hexpected]
      exact (rests.note fun heq => rests.lacks hno heq).fresh heq

end Enclosed

/-! ### Lists in brackets -/

section Lists

variable {close : Tag} {item : Parse α} {separator : Parse Bool}

instance [TagSet.Beside avoid (.single close)] [Calm p avoid item] [Calm p avoid separator] :
    Calm p avoid (sequence close item separator) := by
  have turn (found : List α × Bool) : Calm p avoid (sequenceTurn close item separator found) := by
    unfold sequenceTurn; infer_instance
  unfold sequence
  infer_instance

theorem bracketed_eq (close : Tag) (item : Parse α) :
    bracketed close item = (enclosed close (skipNewlines >>= fun _ => sequence close item commaSeparator) >>= fun x =>
      pure ⟨x.2.1.1, x.2.1.2, x.1.span.merge x.2.2⟩) := by
  simp only [bracketed, enclosed, bind_assoc, pure_bind]

/-- Brackets that close a list. -/
class Closing (close : Tag) : Prop where
  isClosing : close.isClosing = true

instance : Closing .rparen := ⟨rfl⟩
instance : Closing .rbracket := ⟨rfl⟩
instance : Closing .rbrace := ⟨rfl⟩

theorem Closing.beside [h : Closing close] [OfOutside avoid] : TagSet.Beside avoid (.single close) := by
  have := h.isClosing
  cases close <;> first | infer_instance | cases this

theorem bracketed_group [hclose : Closing close] (h : Calm p inner item)
    [TagSet.Beside inner (.single .newline)] [TagSet.Beside inner (.single .comma)]
    [TagSet.Beside inner (.single close)]
    (ho : s.cursor.currentTag.isOpening = true) {found : Bracketed α} (hrun : bracketed close item s = .ok found s') :
    PassesGroup inner close s s' := by
  rw [bracketed_eq] at hrun
  obtain ⟨x, s₁, hx, hrun⟩ := exists_of_bind_ok hrun
  cases hrun
  exact enclosed_group (p := p) inferInstance hclose.isClosing ho hx

/-- Tags of opening brackets. -/
class Opening (set : TagSet) : Prop where
  isOpening : ∀ tag, set.contains tag = true → tag.isOpening = true

theorem Opening.single {tag : Tag} (h : tag.isOpening = true) : Opening (.single tag) :=
  ⟨fun t ht => by rwa [TagSet.eq_of_contains_single ht]⟩

instance : Opening .paramListStart := ⟨by intro tag; cases tag <;> decide⟩
instance : Opening (.single .lparen) := .single rfl
instance : Opening (.single .lbracket) := .single rfl
instance : Opening (.single .lbrace) := .single rfl

instance {set : TagSet} [ho : Opening set] [hclose : Closing close] [Calm p [] item] :
    CalmOn p avoid set (bracketed close item) := by
  refine ⟨fun s hs => ?_⟩
  have : TagSet.Beside [] (.single close) := Closing.beside
  rw [bracketed_eq]
  have hcontent : Calm p [] (skipNewlines >>= fun _ => sequence close item commaSeparator) := inferInstance
  exact (CalmFrom.enclosed hcontent hclose.isClosing (ho.isOpening _ hs)).bind fun _ _ _ =>
    (inferInstance : Calm p avoid _).calm _

section Braces

variable {finish : List α → Parse Unit}

theorem braced_eq (hs : s.cursor.currentTag = .lbrace) :
    braced item separator finish s =
      (enclosed .rbrace (skipNewlines >>= fun _ => sequence .rbrace item separator >>= fun found =>
        finish found.1 >>= fun _ => pure found) >>= fun x => pure (x.2.1.1, x.1.span.merge x.2.2)) s := by
  have hset : (TagSet.single .lbrace).contains s.cursor.currentTag = true := by rw [hs]; rfl
  have hexpect : expect .lbrace s = advance s := by
    rw [expect_eq_check, check_eq_checkSet, bind_of_ok (checkSet_of_mem hset)]
    rfl
  have hend : s.cursor.isAtEnd = false := isAtEnd_eq_false hs (by decide)
  rw [advance_of_not_isAtEnd hend] at hexpect
  simp only [braced, enclosed, bind_assoc, pure_bind]
  rw [bind_of_ok hexpect, bind_of_ok (advance_of_not_isAtEnd hend)]

variable [Calm p [] item] [Calm p [] separator] [∀ items, Calm p [] (finish items)]

instance : CalmOn p avoid (.single .lbrace) (braced item separator finish) := by
  refine ⟨fun s hs => ?_⟩
  have hat : s.cursor.currentTag = .lbrace := TagSet.eq_of_contains_single hs
  have hcontent : Calm p [] (skipNewlines >>= fun _ => sequence .rbrace item separator >>= fun found =>
      finish found.1 >>= fun _ => pure found) := inferInstance
  refine .of_eq ?_ (braced_eq hat)
  exact (CalmFrom.enclosed hcontent rfl (hat ▸ rfl)).bind fun x s₁ _ => (inferInstance : Calm p avoid (pure _)).calm s₁

instance [TagSet.Beside avoid (.single .lbrace)] : Calm p avoid (braced item separator finish) := by
  refine ⟨fun s => ?_⟩
  cases hset : (TagSet.single .lbrace).contains s.cursor.currentTag with
  | true => exact CalmOn.calm s hset
  | false =>
    have hrun : braced item separator finish s = (fail (.expectedToken .lbrace)) (s.noted (.single .lbrace)) := by
      unfold braced
      rw [expect_eq_check, check_eq_checkSet, bind_assoc, bind_of_ok (checkSet_of_not_mem hset)]
      rfl
    refine ⟨fun a s' h => ?_, fun l hs hl => ?_⟩
    · rw [hrun] at h
      cases h
    · rw [hrun]
      exact (hs.note fun heq => hs.lacks hl heq).fresh

end Braces

end Lists

/-! ## Patterns -/

/-- What stands in no pattern but in brackets. -/
def outsidePatterns : List Tag := [.comma, .colon, .eq, .newline, .lbrace, .rparen, .rbracket, .rbrace]

/-- Tags that no pattern asks for but in brackets. -/
class OffPatterns (avoid : List Tag) : Prop where
  mem : ∀ tag ∈ avoid, tag ∈ outsidePatterns ++ outside

instance : OffPatterns outsidePatterns := ⟨fun _ h => List.mem_append_left _ h⟩
instance [h : OfOutside avoid] : OffPatterns avoid := ⟨fun tag ht => List.mem_append_right _ (h.mem tag ht)⟩

section Patterns

variable [h : OffPatterns avoid]

theorem OffPatterns.beside {set : TagSet} (hset : TagSet.Beside (outsidePatterns ++ outside) set) :
    TagSet.Beside avoid set := by
  refine ⟨fun t ht => hset.lacks t ?_⟩
  simp only [List.mem_cons] at ht ⊢
  exact ht.imp_right fun ht => ht.imp_right fun ht => h.mem t ht

instance : TagSet.Beside avoid .patternStart := OffPatterns.beside ⟨by decide⟩
instance : TagSet.Beside avoid .identStart := OffPatterns.beside ⟨by decide⟩
instance : TagSet.Beside avoid (.single .dot) := OffPatterns.beside ⟨by decide⟩

instance : Finds (.single .dot) (look isPathDot) := Finds.look fun c hc => by
  rw [isPathDot, Bool.and_eq_true, Bool.and_eq_true, Bool.and_eq_true] at hc
  rw [eq_of_beq hc.1.1.1]
  rfl

instance : CalmOn p avoid (.single .dot) segment := by unfold segment; infer_instance
instance : Calm p avoid path := by unfold path; infer_instance
instance : Calm p avoid patternPath := by unfold patternPath; infer_instance

variable {q : Parse PatternId} [Calm p [] q]

omit h in
theorem patternGroup_eq (q : Parse PatternId) :
    patternGroup q = (enclosed .rparen (skipNewlines >>= fun _ => q >>= fun inner => skipNewlines >>= fun _ =>
      pure inner) >>= fun x => newPattern (.group x.2.1) (x.1.span.merge x.2.2)) := by
  simp only [patternGroup, enclosed, bind_assoc, pure_bind]

omit h in
instance : CalmOn p avoid (.single .lparen) (patternGroup q) := by
  refine ⟨fun s hs => ?_⟩
  have hcontent : Calm p [] (skipNewlines >>= fun _ => q >>= fun inner => skipNewlines >>= fun _ => pure inner) :=
    inferInstance
  rw [patternGroup_eq]
  exact (CalmFrom.enclosed hcontent rfl (Opening.isOpening _ hs)).bind fun _ s₁ _ =>
    (inferInstance : Calm p avoid (newPattern _ _)).calm s₁

/-- A literal is asked for only where a pattern is, and it is no bracket. -/
theorem OffPatterns.literal {token : Token} {value : Literal} (hvalue : token.kind.literal? = some value) :
    TagSet.Beside avoid (.single token.tag) ∧ TagSet.Plain (.single token.tag) := by
  have htag : TagSet.patternStart.contains token.tag = true :=
    (Derives.literalPattern (t := token) hvalue).starts_atom
  exact ⟨.of_mem htag, .single (TokenKind.isPlain_of_literal? hvalue)⟩

theorem calm_atomOf (token : Token) : CalmOn p avoid (.single token.tag) (atomOf q token) := by
  unfold atomOf
  split
  · rename_i value hvalue
    obtain ⟨_, _⟩ : TagSet.Beside avoid _ ∧ TagSet.Plain _ := OffPatterns.literal hvalue
    infer_instance
  · obtain ⟨kind, _, _⟩ := token
    have : TagSet.Beside avoid (.single .dotDot) := @TagSet.Beside.of_mem avoid .patternStart _ _ rfl
    cases kind <;> simp only [Token.tag, TokenKind.tag] <;> infer_instance

instance : Calm p avoid (atomWith q) := by
  unfold atomWith
  exact .of_current calm_atomOf

instance : Calm p avoid (patternApplication q) := by unfold patternApplication; infer_instance
instance : Calm p avoid (patternWith q) := by unfold patternWith; infer_instance

omit h in
theorem calm_patternAt (n : Nat) (avoid : List Tag) [OffPatterns avoid] : Calm p avoid (patternAt n) := by
  induction n generalizing avoid with
  | zero => unfold patternAt; infer_instance
  | succ n ih =>
    have := ih []
    unfold patternAt
    infer_instance

instance (n : Nat) : Calm p avoid (patternAt n) := calm_patternAt n avoid
instance : Calm p avoid pattern := by unfold pattern; infer_instance
instance : Calm p avoid atom := by unfold atom; infer_instance

end Patterns

/-- What stands behind a pattern, if it is a bracket, closes a group in parentheses. -/
theorem exists_behind_pattern {id : PatternId} (h : pattern s = .ok id s') :
    ∃ j, j + 1 = s'.cursor.position ∧ TagSet.inPattern.contains (s'.cursor.tokens.tagAt j) = true := by
  obtain ⟨u, ts, took, hD⟩ :=
    (pattern_agrees (w := .whole) (k := s.cursor.rest.length + 1)).took (Nat.lt_succ_self _) h
  have hne := hD.ne_nil rfl
  -- the last token of the pattern
  have hlast := List.dropLast_concat_getLast hne
  have hlength : u.dropLast.length + 1 = u.length := by
    rw [List.length_dropLast, Nat.sub_add_cancel (List.length_pos_iff.2 hne)]
  have hrest : s.cursor.rest = u.dropLast ++ u.getLast hne :: s'.cursor.rest := by
    rw [took.rest]
    conv => lhs; rw [← hlast]
    rw [List.append_assoc]
    rfl
  refine ⟨s.cursor.position + u.dropLast.length, by rw [took.position hne]; omega, ?_⟩
  have htag := Cursor.tagAt_add s.cursor u.dropLast.length
  rw [hrest, List.drop_left, headTag_cons] at htag
  rw [took.onward.tokens, show s.cursor.tokens.tagAt _ = _ from htag]
  exact hD.inPattern rfl _ (List.getLast_mem hne)

/-! ## Expressions -/

/-- Readers that are calm. -/
class Rules.Calm (p : Spot) (r : Rules) : Prop where
  expr : ∀ ctx avoid [OfOutside avoid], Grammar.Calm p avoid (r.expr ctx)
  arrow : ∀ ctx avoid [OfOutside avoid], Grammar.Calm p avoid (r.arrow ctx)
  block : ∀ avoid, CalmOn p avoid (.single .lbrace) r.block

namespace Calm

variable {r : Rules} [h : r.Calm p] (ctx : Context)

instance : CalmOn p avoid (.single .lbrace) r.block := h.block avoid

/-! ### Parameters -/

section Params

instance [OfOutside avoid] : Calm p avoid (r.expr ctx) := h.expr ctx avoid
instance [OfOutside avoid] : Calm p avoid (r.arrow ctx) := h.arrow ctx avoid
instance [OfOutside avoid] : Calm p avoid r.value := h.expr _ avoid
instance [OfOutside avoid] : Calm p avoid r.type := h.arrow _ avoid

instance [OfOutside avoid] [TagSet.Beside avoid (.single .colon)] : Calm p avoid (optionalType r) := by
  unfold optionalType; infer_instance

omit h in
instance : CalmOn p [] (.single .quote) forAllParam := by unfold forAllParam; infer_instance

instance : Calm p [] (typedParam r) := by unfold typedParam; infer_instance

instance (kind : ParamSetKind) [OfOutside avoid] : Calm p avoid (bareParam r kind) := by
  unfold bareParam
  split <;> infer_instance

instance (kind : ParamSetKind) : Calm p [] (memberParam r kind) := by unfold memberParam; infer_instance
instance (kind : ParamSetKind) : Calm p [] (param r kind) := by unfold param; infer_instance

instance : CalmOn p avoid .paramListStart (paramSet r) := by
  refine ⟨fun s hs => ?_⟩
  have hrun : paramSet r s = paramSetOf r s.cursor.currentTag s := rfl
  refine .of_eq ?_ hrun
  unfold paramSetOf
  split
  · rename_i hshape
    cases htag : s.cursor.currentTag <;> rw [htag] at hs hshape <;> first | exact absurd hs (by decide) | cases hshape
  · rename_i kind close hshape
    have : Closing close := ⟨Tag.isClosing_of_closing? (closing?_of_paramSetShape? hshape)⟩
    have calm : CalmOn p avoid .paramListStart (bracketed close (param r kind)) := inferInstance
    exact (calm.calm s hs).bind fun _ _ _ => .still rfl rfl

end Params

include h in
/-- Parameters end where counting brackets leads. -/
theorem paramSet_group (hs : TagSet.paramListStart.contains s.cursor.currentTag = true) {params : ParamSet}
    (hrun : paramSet r s = .ok params s') : ∃ close, close.isClosing = true ∧ PassesGroup [] close s s' := by
  have hrun : paramSetOf r s.cursor.currentTag s = .ok params s' := hrun
  cases hshape : paramSetShape? s.cursor.currentTag with
  | none =>
    rw [paramSetOf, hshape] at hrun
    cases hrun
  | some shape =>
    obtain ⟨kind, close⟩ := shape
    rw [paramSetOf, hshape] at hrun
    have : Closing close := ⟨Tag.isClosing_of_closing? (closing?_of_paramSetShape? hshape)⟩
    have : TagSet.Beside [] (.single close) := Closing.beside
    obtain ⟨found, s₁, hfound, hrun⟩ := exists_of_bind_ok hrun
    cases hrun
    exact ⟨close, Closing.isClosing, bracketed_group (inferInstance : Calm p [] (param r kind))
        (Opening.isOpening _ hs) hfound⟩

include h in
/-- What was seen behind parameters stands there. -/
theorem currentTag_of_groupFollowedBy (hs : TagSet.paramListStart.contains s.cursor.currentTag = true)
    {params : ParamSet} (hrun : paramSet r s = .ok params s') {tag : Tag} (h : s.cursor.groupFollowedBy tag = true) :
    s'.cursor.currentTag = tag := by
  obtain ⟨close, hclose, group⟩ := paramSet_group (p := p) hs hrun
  rw [Cursor.groupFollowedBy_eq, group.groupThen_eq hclose] at h
  exact eq_of_beq h

/-! ### Operands -/

omit h in
/-- A token that is there is taken. -/
theorem expect_of_currentTag {tag : Tag} {s : State} (htag : s.cursor.currentTag = tag) (hplain : tag.isPlain = true)
    (hmem : tag ∉ avoid) : CalmFrom p avoid (expect tag) s := by
  have hset : (TagSet.single tag).contains s.cursor.currentTag = true := htag ▸ TagSet.contains_single_self _
  have hstep : expect tag s = advance s := by
    rw [expect_eq_check, check_eq_checkSet, bind_of_ok (checkSet_of_mem hset)]
    rfl
  exact (CalmFrom.advance (htag ▸ hplain) (htag ▸ hmem)).of_eq hstep

omit h in
/-- Behind a pattern there is no square bracket, so the fat arrow that is asked for is none of the rare ones. -/
theorem fatArrow_of_pattern {id : PatternId} {s s' : State} (hpattern : pattern s = .ok id s') :
    CalmFrom p [] (expect .fatArrow) s' := by
  cases hset : (TagSet.single .fatArrow).contains s'.cursor.currentTag with
  | true => exact expect_of_currentTag (TagSet.eq_of_contains_single hset) rfl nofun
  | false =>
    have hrun : expect .fatArrow s' = fail (.expectedToken .fatArrow) (s'.noted (.single .fatArrow)) := by
      rw [expect_eq_check, check_eq_checkSet, bind_of_ok (checkSet_of_not_mem hset)]
      rfl
    refine ⟨fun a t h => ?_, fun l hs hl => ?_⟩
    · rw [hrun] at h
      cases h
    · rw [hrun]
      refine (hs.note fun heq => ?_).fresh
      refine TagSet.contains_single_of_ne fun htag => ?_
      match l with
      | some 0 => cases hl rfl
      | some (k + 1) => cases (heq ▸ hs.level : p.Level _ p.index).eq_zero
      | none =>
        obtain heof | ⟨-, j, hj, hbracket⟩ : p.Rare := hs.level
        · rw [heof] at htag
          cases htag
        · obtain ⟨j', hj', hin⟩ := exists_behind_pattern hpattern
          obtain rfl : j = j' := by omega
          rw [hs.tokens, hbracket] at hin
          exact absurd hin (by decide)

section Operands

variable [OfOutside avoid]

instance : Calm p avoid pathExpr := by unfold pathExpr; infer_instance
instance : CalmOn p avoid (.single .caret) freeVar := by unfold freeVar; infer_instance
instance : CalmOn p avoid (.single .lparen) (parenthesized r ctx) := by unfold parenthesized; infer_instance
instance : CalmOn p avoid (.single .lbracket) (array r ctx) := by unfold array; infer_instance
instance : Calm p avoid (branch r ctx) := by unfold branch; infer_instance
instance : Calm p avoid (condition r) := by unfold condition; infer_instance

instance (position : IfPosition) : Calm p avoid (elseBranch r ctx position) := by
  have taken : CalmOn p avoid (.single .kwElse)
      (advance >>= fun _ => skipNewlines >>= fun _ => branch r ctx >>= fun id => pure (some id)) := inferInstance
  unfold elseBranch
  refine ⟨fun s => (CalmFrom.still (q := look _) rfl rfl).bind fun c _ hc => ?_⟩
  cases hc
  split
  · rename_i helse
    refine ((inferInstance : Calm p avoid skipNewlines).calm s).bind fun _ _ hskip => ?_
    cases hskip
    refine taken.calm _ ?_
    rw [TagSet.contains_single, Bool.beq_comm]
    exact helse
  · split <;> exact Calm.calm s

instance (position : IfPosition) : CalmOn p avoid (.single .kwIf) (conditional r ctx position) := by
  unfold conditional; infer_instance

instance : Calm p [] (matchArm r) := by
  unfold matchArm
  refine ⟨fun s => ((inferInstance : Calm p [] pattern).calm s).bind fun id s₁ hpattern => ?_⟩
  refine (fatArrow_of_pattern hpattern).bind fun _ s₂ _ => ?_
  exact (inferInstance : Calm p [] (skipNewlines >>= fun _ => _)).calm s₂

instance : CalmOn p avoid (.single .kwMatch) (caseAnalysis r) := by unfold caseAnalysis; infer_instance

instance : CalmOn p avoid (.single .kwReturn) (returning r ctx) := by unfold returning; infer_instance

theorem operandOf (token : Token) : CalmOn p avoid (.single token.tag) (operandOf r ctx token) := by
  unfold Grammar.operandOf
  split
  · rename_i value hvalue
    obtain ⟨_, _⟩ : TagSet.Beside avoid _ ∧ TagSet.Plain _ := OffPatterns.literal hvalue
    infer_instance
  · obtain ⟨kind, _, _⟩ := token
    cases kind <;> simp only [Token.tag, TokenKind.tag] <;> infer_instance

instance : Calm p avoid (operand r ctx) := by
  unfold operand
  exact .of_current (operandOf ctx)

/-! ### Applications and operators -/

instance : Calm p avoid (blockArgument r ctx) := by unfold blockArgument; infer_instance
instance (callee : ExprId) : Calm p avoid (applied r ctx callee) := by unfold applied; infer_instance
instance : Calm p avoid (application r ctx) := by unfold application; infer_instance

instance (lhs : ExprId) (op : Ident) : CalmOn p avoid .binaryOperator (joined r ctx lhs op) := by
  unfold joined; infer_instance

instance (lhs : ExprId) : Calm p avoid (chainTurn r ctx lhs) := by
  refine ⟨fun s => ?_⟩
  have hrun := operator?_operator s
  unfold chainTurn
  cases hop : operator? s with
  | error e s₁ => rw [hop] at hrun; cases hrun
  | ok op s₁ =>
    rw [hop] at hrun
    cases hrun with
    | @sign op _ hkept hset _ =>
      refine (CalmFrom.still hop hkept.1).bind fun _ _ hop' => ?_
      rw [hop] at hop'
      cases hop'
      have taken : CalmOn p avoid .binaryOperator (joined r ctx lhs op >>= fun id => pure (ForInStep.yield id)) :=
        inferInstance
      exact taken.calm s₁ (hkept.1 ▸ hset)
    | tightDot hdot htight =>
      refine (CalmFrom.still hop rfl).bind fun _ _ hop' => ?_
      rw [hop] at hop'
      cases hop'
      exact .still rfl rfl
    | none hset =>
      refine (CalmFrom.noted hop).bind fun _ _ hop' => ?_
      rw [hop] at hop'
      cases hop'
      exact .still rfl rfl

instance : Calm p avoid (chain r ctx) := by unfold chain; infer_instance
instance (value : ExprId) : Calm p avoid (ascribed r value) := by unfold ascribed; infer_instance
instance (value : ExprId) : Calm p avoid (annotationTurn r value) := by unfold annotationTurn; infer_instance
instance : Calm p avoid (annotated r ctx) := by unfold annotated; infer_instance

/-! ### Functions and pairs -/

instance (params : ParamSet) : Calm p avoid (sigmaResult r ctx params) := by unfold sigmaResult; infer_instance

instance : Calm p avoid (sigma r ctx) := by
  unfold sigma
  refine ⟨fun s => (CalmFrom.still (q := look startsSigma) rfl rfl).bind fun c _ hc => ?_⟩
  cases hc
  split
  · rename_i hsigma
    have hstart := Finds.paramListStart_of_startsSigma hsigma
    refine (CalmOn.calm s hstart).bind fun params s₁ hparams => ?_
    have hseen := currentTag_of_groupFollowedBy (p := p) hstart hparams (Bool.and_eq_true_iff.1 hsigma).2
    have hmem : Tag.fatArrow ∉ avoid := fun h => absurd (OfOutside.mem _ h) (by decide)
    exact (expect_of_currentTag hseen rfl hmem).bind fun _ s₂ _ => Calm.calm s₂
  · exact Calm.calm s

instance (params : ParamSet) : Calm p avoid (arrowResult r ctx params) := by unfold arrowResult; infer_instance
instance (domain : ExprId) : Calm p avoid (domainResult r ctx domain) := by unfold domainResult; infer_instance
instance : Calm p avoid (domainArrow r ctx) := by unfold domainArrow; infer_instance
instance : Calm p avoid (arrow r ctx) := by unfold arrow; infer_instance

instance : Calm p avoid (lambda r ctx) := by
  have params (start : Span) : Calm p avoid (many (optionally (isBefore .pipe) atom) >>= fun params =>
      lambdaBody r ctx start params) := by
    refine ⟨fun s => (Calm.calm s).bind fun params s₁ hparams => ?_⟩
    have body : CalmOn p avoid (.single .pipe) (lambdaBody r ctx start params) := by
      unfold lambdaBody
      split <;> infer_instance
    refine body.calm s₁ ?_
    rw [many_isBefore hparams]
    rfl
  unfold lambda
  infer_instance

end Operands

/-! ### Blocks -/

instance : CalmOn p [] (.single .kwLet) (letStmt r) := by unfold letStmt; infer_instance
instance : Calm p [] (stmt r) := by unfold stmt; infer_instance

omit h in
instance (stmts : List Stmt) : Calm p [] (rejectOpenIf stmts) := by
  unfold rejectOpenIf
  split <;> infer_instance

instance : CalmOn p avoid (.single .lbrace) (block r) := by unfold block; infer_instance

end Calm

instance : Rules.exhausted.Calm p :=
  ⟨fun _ avoid => inferInstanceAs (Calm p avoid Parse.exhausted),
    fun _ avoid => inferInstanceAs (Calm p avoid Parse.exhausted),
    fun avoid => inferInstanceAs (CalmOn p avoid _ Parse.exhausted)⟩

/-- **What stands outside of brackets in no expression, is asked for in brackets only.** -/
instance rules_calm (n : Nat) : (rules n).Calm p := by
  induction n with
  | zero => exact inferInstanceAs (Rules.exhausted.Calm p)
  | succ n ih =>
    exact ⟨fun ctx avoid => inferInstanceAs (Calm p avoid (lambda (rules n) ctx)),
      fun ctx avoid => inferInstanceAs (Calm p avoid (Grammar.arrow (rules n) ctx)),
      fun avoid => inferInstanceAs (CalmOn p avoid _ (Grammar.block (rules n)))⟩

end SolSyntax.Grammar
