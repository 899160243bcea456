import SolSyntax.Proofs.Taking

/-!
# Which tokens a production takes up

A production that stands before a token it can begin with takes that token, whatever comes of it later.
So where a question has been answered with yes, the reader behind the question gets past the token.

Principal results: the instances of `Enters`, up to `rules_enter` — an expression takes up what begins an
expression, a block a brace, a parameter list a bracket.
-/

namespace SolSyntax

/-- A set of tags of tokens that can be taken. -/
class TagSet.Inner (set : TagSet) : Prop where
  lacks : set.contains .eof = false

/-- A set with a member has the set of that alone in it. -/
theorem TagSet.contains_of_single {set : TagSet} {tag : Tag} (h : set.contains tag = true) (tag' : Tag)
    (h' : (TagSet.single tag).contains tag' = true) : set.contains tag' = true := by
  rw [eq_of_contains_single h']
  exact h

namespace TagSet.Inner

instance : identStart.Inner := ⟨rfl⟩
instance : binaryOperator.Inner := ⟨rfl⟩

theorem single {tag : Tag} (h : tag ≠ .eof) : (TagSet.single tag).Inner :=
  ⟨contains_single_of_ne h.symm⟩

instance : (TagSet.single .comma).Inner := single nofun
instance : (TagSet.single .colon).Inner := single nofun
instance : (TagSet.single .eq).Inner := single nofun
instance : (TagSet.single .arrow).Inner := single nofun
instance : (TagSet.single .fatArrow).Inner := single nofun
instance : (TagSet.single .pipe).Inner := single nofun
instance : (TagSet.single .quote).Inner := single nofun
instance : (TagSet.single .lparen).Inner := single nofun
instance : (TagSet.single .rparen).Inner := single nofun
instance : (TagSet.single .rbracket).Inner := single nofun
instance : (TagSet.single .lbrace).Inner := single nofun
instance : (TagSet.single .rbrace).Inner := single nofun
instance : (TagSet.single .kwIf).Inner := single nofun
instance : (TagSet.single .kwThen).Inner := single nofun
instance : (TagSet.single .kwIs).Inner := single nofun
instance : (TagSet.single .kwLet).Inner := single nofun

end TagSet.Inner

namespace Grammar

open Parse

variable {s t : State}

/-! ## Single steps -/

/-- The cursor moves to an index. -/
def State.moved (s : State) (i : Nat) : State := { s with cursor := { s.cursor with position := i } }

/-- Something is missed. -/
def State.noted (s : State) (set : TagSet) : State := { s with cursor := s.cursor.note set }

theorem advance_of_not_isAtEnd (h : s.cursor.isAtEnd = false) :
    advance s = .ok s.cursor.current (s.moved (s.cursor.position + 1)) := by
  simp only [advance, step, Cursor.advance, h]
  rfl

theorem isAtEnd_eq_false {c : Cursor} {tag : Tag} (h : c.currentTag = tag) (htag : tag ≠ .eof) : c.isAtEnd = false :=
  beq_false_of_ne (h ▸ htag)

theorem check_eq_checkSet (tag : Tag) : check tag = checkSet (.single tag) := by
  funext s
  have h : (TagSet.single tag).contains s.cursor.currentTag = s.cursor.isAt tag := by
    rw [TagSet.contains_single, Cursor.isAt, Bool.beq_comm]
  simp only [check, checkSet, step, Cursor.check, Cursor.checkSet, h]

theorem checkSet_of_mem {set : TagSet} (h : set.contains s.cursor.currentTag = true) :
    checkSet set s = .ok true s := by
  simp only [checkSet, step, Cursor.checkSet, if_pos h]

theorem checkSet_of_not_mem {set : TagSet} (h : set.contains s.cursor.currentTag = false) :
    checkSet set s = .ok false (s.noted set) := by
  simp only [checkSet, step, Cursor.checkSet, h]
  rfl

theorem expect_eq_check (tag : Tag) :
    expect tag = (check tag >>= fun c => if c = true then advance else fail (.expectedToken tag)) := by
  funext s
  cases h : s.cursor.isAt tag with
  | true =>
    have hcheck : check tag s = .ok true s := by simp only [check, step, Cursor.check, h, if_true]
    rw [bind_of_ok hcheck]
    simp only [expect, tryStep, Cursor.expect, Cursor.check, h, if_true]
    rfl
  | false =>
    have hcheck : check tag s = .ok false (s.noted (.single tag)) := by
      simp only [check, step, Cursor.check, h]
      rfl
    rw [bind_of_ok hcheck]
    simp only [expect, tryStep, Cursor.expect, Cursor.check, h]
    rfl

/-- The name that a token is. -/
def identOf (token : Token) : Parse Ident :=
  match token.kind with
  | .ident name => do
    let _ ← advance
    return ⟨name, .simple, token.span⟩
  | .symbol name => do
    let _ ← advance
    return ⟨name, .symbol, token.span⟩
  | _ => failWanting .identStart .expectedIdentifier

theorem expectIdent_eq_identOf : expectIdent = (current >>= identOf) := by
  funext s
  show _ = identOf s.cursor.current s
  unfold expectIdent tryStep Cursor.expectIdent identOf
  cases s.cursor.current.kind <;> rfl

/-- What the token at the cursor is as an operator. -/
inductive Operator (s : State) : EStateM.Result Failure State (Option Ident) → Prop
  | sign {op s'} : s'.cursor = s.cursor ∧ s'.arena = s.arena →
      TagSet.binaryOperator.contains s.cursor.currentTag = true →
      (s.cursor.currentTag = .dot → isTightDot s.cursor = false) → Operator s (.ok (some op) s')
  | tightDot : s.cursor.currentTag = .dot → isTightDot s.cursor = true → Operator s (.ok none s)
  | none : TagSet.binaryOperator.contains s.cursor.currentTag = false →
      Operator s (.ok none (s.noted .binaryOperator))

theorem operator?_operator (s : State) : Operator s (operator? s) := by
  have htag := currentTag_eq_tag s.cursor
  show Operator s (operatorOf s.cursor.current s)
  unfold operatorOf
  rw [Token.tag] at htag
  cases hk : s.cursor.current.kind <;> rw [hk] at htag <;> simp only [TokenKind.tag] at htag
  case dot =>
    show Operator s ((look isTightDot >>= fun c => if c = true then pure Option.none else _) s)
    cases h : isTightDot s.cursor with
    | true =>
      rw [bind_of_ok (show look isTightDot s = .ok true s by rw [← h]; rfl)]
      exact .tightDot htag h
    | false =>
      rw [bind_of_ok (show look isTightDot s = .ok false s by rw [← h]; rfl)]
      exact .sign ⟨rfl, rfl⟩ (by rw [htag]; rfl) fun _ => h
  all_goals
    first
    | exact .none (by rw [htag]; rfl)
    | exact .sign ⟨rfl, rfl⟩ (by rw [htag]; rfl) fun e => by rw [htag] at e; cases e

/-- A token has been taken, if the bound was not reached. -/
def Entered (s : State) (r : EStateM.Result Failure State α) : Prop :=
  s.cursor.position < (final r).cursor.position ∨ ∃ t, r = .error .exhausted t

/-- What comes next does not step back. -/
theorem Entered.bind {p : Parse α} {f : α → Parse β} [hf : ∀ a, Forward (f a)] (h : Entered s (p s)) :
    Entered s ((p >>= f) s) := by
  cases e : p s with
  | ok a t =>
    rw [e] at h
    rw [bind_of_ok e]
    obtain h | ⟨_, ⟨⟩⟩ := h
    exact .inl (Nat.lt_of_lt_of_le h ((hf a).onward t).cursor.position)
  | error x t =>
    rw [e] at h
    rw [bind_of_error e]
    obtain h | ⟨_, ⟨⟩⟩ := h
    · exact .inl h
    · exact .inr ⟨_, rfl⟩

/-- The tag at a place. -/
theorem currentTag_of_place {c d : Cursor} (htokens : d.tokens = c.tokens) (hposition : d.position = c.position) :
    d.currentTag = c.currentTag := by
  rw [Cursor.currentTag, Cursor.currentTag, Cursor.tagAt, Cursor.tagAt, htokens, hposition]

/-- A step that stays where it is. -/
class Still (p : Parse α) : Prop where
  stays : ∀ s, ∃ a t, p s = .ok a t ∧ t.cursor.tokens = s.cursor.tokens ∧
    t.cursor.position = s.cursor.position

namespace Still

instance (f : Cursor → α) : Still (look f) := ⟨fun s => ⟨_, s, rfl, rfl, rfl⟩⟩

instance (tag : Tag) : Still (check tag) := by
  refine ⟨fun s => ?_⟩
  obtain ⟨t, h, m⟩ := check_eq tag s
  exact ⟨_, t, h, m.tokens, m.position⟩

instance (set : TagSet) : Still (checkSet set) := by
  refine ⟨fun s => ?_⟩
  obtain ⟨t, h, m⟩ := checkSet_eq set s
  exact ⟨_, t, h, m.tokens, m.position⟩

end Still

/-- A question that only a token of a set can meet. -/
class Finds (set : outParam TagSet) (test : Parse Bool) : Prop extends Still test where
  yes : ∀ {s s'}, test s = .ok true s' → set.contains s.cursor.currentTag = true

namespace Finds

variable {set set' : TagSet} {test test' : Parse Bool}

instance (set : TagSet) : Finds set (checkSet set) where
  yes h := (checkSet_ok h).2.symm

instance (tag : Tag) : Finds (.single tag) (check tag) := by
  rw [check_eq_checkSet]; infer_instance

theorem look {q : Cursor → Bool} (hq : ∀ c, q c = true → set.contains c.currentTag = true) : Finds set (look q) where
  yes h := hq _ (EStateM.Result.ok.inj h).1

instance (tag : Tag) : Finds (.single tag) (isAt tag) :=
  look fun c h => by rw [TagSet.contains_single, Bool.beq_comm]; exact h

theorem paramListStart_of_startsSigma {c : Cursor} (h : startsSigma c = true) :
    TagSet.paramListStart.contains c.currentTag = true := by
  rw [startsSigma, Bool.and_eq_true] at h
  rw [show c.currentTag = .lbracket from eq_of_beq h.1]
  rfl

/-- A parameter list begins with a bracket. -/
theorem paramListStart_of_startsParamList {c : Cursor} (hc : startsParamList c = true) :
    TagSet.paramListStart.contains c.currentTag = true := by
  rw [startsParamList, Bool.or_eq_true, Bool.and_eq_true, Bool.and_eq_true] at hc
  rcases hc with hc | hc <;> rw [show c.currentTag = _ from eq_of_beq hc.1] <;> rfl

theorem paramListStart_of_startsImplicitParams {c : Cursor} (h : startsImplicitParams c = true) :
    TagSet.paramListStart.contains c.currentTag = true := by
  rw [startsImplicitParams, Bool.and_eq_true] at h
  rw [show c.currentTag = .lbrace from eq_of_beq h.1]
  rfl

instance : Finds .paramListStart (Parse.look startsSigma) := look fun _ => paramListStart_of_startsSigma
instance : Finds .paramListStart (Parse.look startsParamList) := look fun _ => paramListStart_of_startsParamList
instance : Finds .paramListStart (Parse.look startsImplicitParams) :=
  look fun _ => paramListStart_of_startsImplicitParams

/-- The token that was asked for is still there. -/
theorem there [h : Finds set test] {s s' : State} (hs : test s = .ok true s') :
    set.contains s'.cursor.currentTag = true ∧ s'.cursor.position = s.cursor.position := by
  obtain ⟨_, _, hs', htokens, hposition⟩ := h.stays s
  rw [hs] at hs'
  cases hs'
  exact ⟨currentTag_of_place htokens hposition ▸ h.yes hs, hposition⟩

/-- Either of two questions. -/
theorem orElse [h : Finds set' test] [h' : Finds set test']
    (hset : ∀ tag, set'.contains tag = true → set.contains tag = true) :
    Finds set (test >>= fun c => if c = true then pure true else test') where
  stays s := by
    obtain ⟨c, u, hs, htokens, hposition⟩ := h.stays s
    rw [bind_of_ok hs]
    cases c with
    | true => exact ⟨_, u, rfl, htokens, hposition⟩
    | false =>
      obtain ⟨c, v, hu, htokens', hposition'⟩ := h'.stays u
      exact ⟨c, v, hu, htokens'.trans htokens, hposition'.trans hposition⟩
  yes {s s'} hrun := by
    obtain ⟨c, u, hs, hrun⟩ := bind_eq_ok.1 hrun
    cases c with
    | true => exact hset _ (h.yes hs)
    | false =>
      obtain ⟨_, _, hs', htokens, hposition⟩ := h.stays s
      rw [hs] at hs'
      cases hs'
      rw [← currentTag_of_place htokens hposition]
      exact h'.yes hrun

instance : Finds .paramListStart startsDeclParams := by
  have : Finds .paramListStart (check .lbracket >>= fun c =>
      if c = true then pure true else Parse.look startsImplicitParams) :=
    orElse (TagSet.contains_of_single rfl)
  exact orElse (TagSet.contains_of_single rfl)

end Finds

/-- A step that takes up a token, if that has a tag of a set. -/
class Enters (set : TagSet) (p : Parse α) : Prop where
  enters : ∀ s, set.contains s.cursor.currentTag = true → Entered s (p s)

namespace Enters

variable {set : TagSet} {p : Parse α}

/-- Fewer tags. -/
theorem mono {set' : TagSet} (h : Enters set p) (hsub : ∀ tag, set'.contains tag = true → set.contains tag = true) :
    Enters set' p :=
  ⟨fun s hs => h.enters s (hsub _ hs)⟩

/-- One tag. -/
theorem of_mem (h : Enters set p) {tag : Tag} (htag : set.contains tag = true) : Enters (.single tag) p :=
  h.mono (TagSet.contains_of_single htag)

instance [Enters set p] {f : α → Parse β} [∀ a, Forward (f a)] : Enters set (p >>= f) :=
  ⟨fun s hs => (Enters.enters s hs).bind⟩

instance [hq : Still p] {f : α → Parse β} [hf : ∀ a, Enters set (f a)] : Enters set (p >>= f) := by
  refine ⟨fun s hs => ?_⟩
  obtain ⟨a, t, hp, htokens, hposition⟩ := hq.stays s
  rw [bind_of_ok hp]
  have htag := currentTag_of_place htokens hposition
  have entered := (hf a).enters t (by rw [htag]; exact hs)
  rwa [Entered, hposition] at entered

instance [Enters set p] {q : Parse α} [Enters set q] {c : Prop} [Decidable c] :
    Enters set (if c then p else q) := by
  split <;> infer_instance

instance : Enters set (exhausted : Parse α) := ⟨fun s _ => .inr ⟨s, rfl⟩⟩

instance [hp : Enters set p] (what : Construct) : Enters set (within what p) := by
  refine ⟨fun s hs => ?_⟩
  have h := hp.enters s hs
  unfold within
  cases e : p s with
  | ok a t =>
    rw [e] at h
    obtain h | ⟨_, ⟨⟩⟩ := h
    exact .inl h
  | error x t =>
    rw [e] at h
    obtain h | ⟨_, ⟨⟩⟩ := h
    · exact .inl h
    · exact .inr ⟨_, rfl⟩

instance [h : set.Inner] : Enters set advance := by
  refine ⟨fun s hs => .inl ?_⟩
  have hend : ¬s.cursor.isAtEnd = true := by
    intro e
    rw [Cursor.isAtEnd, Cursor.isAt, beq_iff_eq] at e
    rw [e, h.lacks] at hs
    cases hs
  show s.cursor.position < s.cursor.advance.2.position
  rw [Cursor.advance, if_neg hend]
  exact Nat.lt_succ_self _

/-- A question that tells which of two readers is entered. -/
theorem test (yes no : TagSet) {test : Parse Bool} [ht : Still test] {q : Parse α} [hp : Enters yes p]
    [hq : Enters no q] (hyes : ∀ s t, set.contains s.cursor.currentTag = true → test s = .ok true t →
      yes.contains s.cursor.currentTag = true)
    (hno : ∀ s t, set.contains s.cursor.currentTag = true → test s = .ok false t →
      no.contains s.cursor.currentTag = true) :
    Enters set (test >>= fun c => if c = true then p else q) := by
  refine ⟨fun s hs => ?_⟩
  obtain ⟨c, t, hts, htokens, hposition⟩ := ht.stays s
  rw [bind_of_ok hts]
  have htag := currentTag_of_place htokens hposition
  have entered : Entered t ((if c = true then p else q) t) := by
    cases c with
    | true => exact hp.enters t (htag ▸ hyes s t hs hts)
    | false => exact hq.enters t (htag ▸ hno s t hs hts)
  rwa [Entered, hposition] at entered

/-- What the token at the cursor begins. -/
theorem of_current {f : Token → Parse α}
    (h : ∀ token : Token, set.contains token.tag = true → Enters (.single token.tag) (f token)) :
    Enters set (current >>= f) := by
  refine ⟨fun s hs => ?_⟩
  rw [currentTag_eq_tag] at hs
  refine (h s.cursor.current hs).enters s ?_
  rw [currentTag_eq_tag]
  exact TagSet.contains_single_self _

/-! ## Taking tokens -/

instance : Enters (.single .newline) skipNewlines := by
  refine ⟨fun s hs => .inl ?_⟩
  have hat : s.cursor.currentTag = .newline := TagSet.eq_of_contains_single hs
  have hlt : s.cursor.position < s.cursor.tokens.size :=
    Cursor.position_lt_of_not_isAtEnd (isAtEnd_eq_false hat (by decide))
  show s.cursor.position < Cursor.skipFrom s.cursor.tokens _ s.cursor.position
  unfold Cursor.skipFrom
  rw [if_pos ⟨hlt, by rw [beq_iff_eq]; exact hat⟩]
  exact Nat.lt_of_lt_of_le (Nat.lt_succ_self _) (Cursor.le_skipFrom _ _ _)

instance {tag : Tag} [(TagSet.single tag).Inner] : Enters (.single tag) (expect tag) := by
  refine ⟨fun s hs => ?_⟩
  have hadv := Enters.enters (p := advance) s hs
  have hat : s.cursor.isAt tag = true := by rw [Cursor.isAt, TagSet.eq_of_contains_single hs, beq_self_eq_true]
  rwa [show Grammar.expect tag s = advance s by
    simp only [Grammar.expect, tryStep, Cursor.expect, Cursor.check, if_pos hat]; rfl]

instance : Enters .identStart expectIdent := by
  refine ⟨fun s hs => ?_⟩
  have hadv := Enters.enters (p := advance) s hs
  rw [currentTag_eq_tag, Token.tag] at hs
  unfold expectIdent tryStep Cursor.expectIdent
  split
  · rename_i i c h
    split at h <;> cases h
    all_goals exact .inl (hadv.resolve_right nofun)
  · rename_i e c h
    split at h
    · cases h
    · cases h
    · rename_i hident hsymbol
      exfalso
      cases hk : s.cursor.current.kind <;> rw [hk] at hs <;> simp only [TokenKind.tag] at hs <;>
        first
        | exact hident _ hk
        | exact hsymbol _ hk
        | exact absurd hs (by decide)

/-- The closing bracket of a group is taken. -/
instance {close : Tag} [(TagSet.single close).Inner] (opening : Span) :
    Enters (.single close) (expectClosing close opening) := by
  refine ⟨fun s hs => ?_⟩
  have hadv := Enters.enters (p := advance >>= fun tok => pure tok.span) s hs
  have hat : s.cursor.isAt close = true := by rw [Cursor.isAt, TagSet.eq_of_contains_single hs, beq_self_eq_true]
  have hcheck : check close s = .ok true s := by simp only [check, step, Cursor.check, if_pos hat]
  rw [Grammar.expectClosing, bind_of_ok hcheck]
  exact hadv

instance [set.Inner] {close : Tag} [Forward p] : Enters set (bracketed close p) := by
  unfold bracketed; infer_instance

instance {separator : Parse Bool} {finish : List α → Parse Unit} [Forward p] [Forward separator]
    [∀ items, Forward (finish items)] : Enters (.single .lbrace) (braced p separator finish) := by
  unfold braced
  infer_instance

/-! ## Patterns -/

instance : Enters .identStart path := by unfold path; infer_instance
instance : Enters .identStart patternPath := by unfold patternPath; infer_instance

/-- One of the two tags of identifiers. -/
theorem identStart_single {tag : Tag} (h : tag ∈ [Tag.ident, Tag.symbol]) [hp : Enters .identStart p] :
    Enters (.single tag) p :=
  hp.of_mem (by revert h; cases tag <;> decide)

variable {q : Parse PatternId} [Forward q]

theorem atomOf (token : Token) (h : TagSet.patternStart.contains token.tag = true) :
    Enters (.single token.tag) (atomOf q token) := by
  have : (TagSet.single token.tag).Inner := .single fun e => by rw [e] at h; cases h
  unfold Grammar.atomOf
  split
  · infer_instance
  · rename_i hliteral
    split
    · rename_i hk
      exact identStart_single (by simp [Token.tag, hk, TokenKind.tag])
    · rename_i hk
      exact identStart_single (by simp [Token.tag, hk, TokenKind.tag])
    · infer_instance
    · unfold patternGroup
      infer_instance
    · rename_i hident hsymbol _ _
      exfalso
      rw [Token.tag] at h
      cases hk : token.kind <;> rw [hk] at h hliteral <;> simp only [TokenKind.tag] at h <;>
        first
        | contradiction
        | exact hident _ hk
        | exact hsymbol _ hk

instance : Enters .patternStart (atomWith q) := by
  unfold atomWith
  exact of_current atomOf

instance : Enters .identStart (patternApplication q) := by unfold patternApplication; infer_instance

end Enters

/-! ## Expressions -/

/-- Readers that take up what they can begin with. -/
class Rules.Enters (r : Rules) : Prop where
  expr : ∀ ctx, Grammar.Enters .exprStart (r.expr ctx)
  arrow : ∀ ctx, Grammar.Enters .primaryStart (r.arrow ctx)
  block : Grammar.Enters (.single .lbrace) r.block

namespace Enters

variable {set : TagSet} {r : Rules} [r.Forward] [h : r.Enters] (ctx : Context)

instance : Enters .exprStart (r.expr ctx) := h.expr ctx
instance : Enters (.single .lbrace) r.block := h.block

omit h in
theorem paramSetOf (tag : Tag) (htag : TagSet.paramListStart.contains tag = true) :
    Enters (.single tag) (paramSetOf r tag) := by
  have : (TagSet.single tag).Inner := .single fun e => by rw [e] at htag; cases htag
  unfold Grammar.paramSetOf
  split
  · rename_i hshape
    cases tag <;> first | exact absurd htag (by decide) | cases hshape
  · infer_instance

omit h in
instance : Enters .paramListStart (paramSet r) := by
  refine ⟨fun s hs => ?_⟩
  exact (paramSetOf s.cursor.currentTag hs).enters s (TagSet.contains_single_self _)

omit h in
theorem operandOf (token : Token) (htoken : TagSet.primaryStart.contains token.tag = true) :
    Enters (.single token.tag) (operandOf r ctx token) := by
  have : (TagSet.single token.tag).Inner := .single fun e => by rw [e] at htoken; cases htoken
  unfold Grammar.operandOf
  split
  · infer_instance
  · rename_i hliteral
    split
    · rename_i hk
      unfold pathExpr
      exact identStart_single (by simp [Token.tag, hk, TokenKind.tag])
    · rename_i hk
      unfold pathExpr
      exact identStart_single (by simp [Token.tag, hk, TokenKind.tag])
    · unfold freeVar; infer_instance
    · infer_instance
    · unfold parenthesized; infer_instance
    · unfold array; infer_instance
    · unfold conditional; infer_instance
    · unfold caseAnalysis; infer_instance
    · unfold returning; infer_instance
    · rename_i hident hsymbol _ _ _ _ _ _ _
      exfalso
      rw [Token.tag] at htoken
      cases hk : token.kind <;> rw [hk] at htoken hliteral <;> simp only [TokenKind.tag] at htoken <;>
        first
        | contradiction
        | exact hident _ hk
        | exact hsymbol _ hk

omit h in
instance : Enters .primaryStart (operand r ctx) := by
  unfold operand
  exact of_current (operandOf ctx)

instance : Enters .argStart (operand r ctx) :=
  (inferInstance : Enters .primaryStart (operand r ctx)).mono fun tag htag => by
    revert htag
    cases tag <;> decide

instance : Enters .primaryStart (application r ctx) := by unfold application; infer_instance
instance : Enters .primaryStart (chain r ctx) := by unfold chain; infer_instance
instance : Enters .primaryStart (annotated r ctx) := by unfold annotated; infer_instance

/-- Square brackets begin parameters or an array. -/
instance : Enters .primaryStart (sigma r ctx) := by
  unfold sigma
  refine test .paramListStart .primaryStart (fun s t _ hq => ?_) fun _ _ hs _ => hs
  exact Finds.paramListStart_of_startsSigma (EStateM.Result.ok.inj hq).1

instance : Enters .primaryStart (domainArrow r ctx) := by unfold domainArrow; infer_instance

instance : Enters .primaryStart (Grammar.arrow r ctx) := by
  unfold Grammar.arrow
  refine test .paramListStart .primaryStart (fun s t _ hq => ?_) fun _ _ hs _ => hs
  exact Finds.paramListStart_of_startsParamList (EStateM.Result.ok.inj hq).1

instance : Enters .exprStart (lambda r ctx) := by
  have : (TagSet.single .pipe).Inner := .single nofun
  unfold lambda
  refine test (.single .pipe) .primaryStart (fun s t _ hq => ?_) fun s t hs hq => ?_
  · rw [TagSet.contains_single, Bool.beq_comm]
    exact (check_ok hq).2.symm
  · have hne := (check_ok hq).2
    rw [TagSet.exprStart, TagSet.contains_insert, Bool.or_eq_true] at hs
    rcases hs with hs | hs
    · exact hs
    · rw [← eq_of_beq hs] at hne
      cases hne

instance : Enters (.single .lbrace) (Grammar.block r) := by unfold Grammar.block; infer_instance

end Enters

instance : Rules.exhausted.Enters :=
  ⟨fun _ => inferInstanceAs (Grammar.Enters _ Parse.exhausted),
    fun _ => inferInstanceAs (Grammar.Enters _ Parse.exhausted),
    inferInstanceAs (Grammar.Enters _ Parse.exhausted)⟩

instance rules_enter (n : Nat) : (rules n).Enters := by
  induction n with
  | zero => exact inferInstanceAs Rules.exhausted.Enters
  | succ n ih =>
    exact ⟨fun ctx => inferInstanceAs (Grammar.Enters _ (lambda (rules n) ctx)),
      fun ctx => inferInstanceAs (Grammar.Enters _ (Grammar.arrow (rules n) ctx)),
      inferInstanceAs (Grammar.Enters _ (Grammar.block (rules n)))⟩

end Grammar

end SolSyntax
