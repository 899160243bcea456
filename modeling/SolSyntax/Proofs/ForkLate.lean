import SolSyntax.Proofs.ForkTypes

/-!
# Parameters on one token list, an expression on the other

Parentheses hold parameters if an arrow follows them and a colon stands in them.  Where both come behind the index of a
`Fork`, a closing bracket at the index makes an expression of them.  Up to there the left run reads types and the right
one expressions; a quote, which may stand before a parameter, the right one refuses.

Principal results: `lateParam_meets` — a parameter beside an expression; `late_over` — with the parentheses one of the
runs is over.
-/

namespace SolSyntax

open Grammar

/-- A bracket that closes the outermost one ends the search for a colon. -/
theorem annotatedIn_eq_false {u z : List Token} {d : Nat} (hu : Closes d u) (hcolon : occursIn .colon u d = false)
    (hz : (headTag z).isClosing = true) : annotatedIn (u ++ z) d = false := by
  induction u generalizing d with
  | nil =>
    obtain rfl : d = 0 := hu
    cases z with
    | nil => rfl
    | cons c z =>
      rw [headTag_cons] at hz
      rw [List.nil_append, annotatedIn, if_neg (Tag.ne_eof_of_isClosing hz), if_pos ⟨rfl, .inl hz⟩]
  | cons t u ih =>
    obtain ⟨heof, hclosing, hu⟩ := hu
    rw [List.cons_append, annotatedIn, if_neg heof]
    rw [occursIn] at hcolon
    split at hcolon
    · cases hcolon
    rename_i hno
    split
    · rfl
    · split
      · rename_i hat
        refine absurd ⟨hat.1, hat.2, ?_⟩ hno
        rw [hat.2]
        decide
      · exact ih hu hcolon

/-- Readers of expressions that refuse a quote. -/
class Grammar.Rules.NoQuote (r : Rules) : Prop where
  refuses : ∀ ctx s, s.cursor.currentTag = .quote →
    (∃ t, r.expr ctx s = .error .exhausted t) ∨
      ∃ e t, r.expr ctx s = .error (.error e) t ∧ e.Says .expectedExpression .quote ∧
        t.cursor.position = s.cursor.position

namespace Fork

open Parse
open Context (Looser)

/-! ## Tokens that no expression begins with -/

section Refused

variable {r : Rules} (ctx : Context) {s : State} (hs : TagSet.primaryStart.contains s.cursor.currentTag = false)
include hs

/-- No expression but a lambda begins with them. -/
theorem arrow_of_not_mem (hbrace : s.cursor.currentTag ≠ .lbrace) :
    ∃ e t, Grammar.arrow r ctx s = .error (.error e) t ∧ e.Says .expectedExpression s.cursor.currentTag ∧
      t.cursor.position = s.cursor.position := by
  have hne {tag : Tag} (htag : TagSet.primaryStart.contains tag = true) : (s.cursor.currentTag == tag) = false := by
    refine beq_false_of_ne fun e => ?_
    rw [e, htag] at hs
    cases hs
  have hparams : startsParamList s.cursor = false := by
    rw [startsParamList, Cursor.isAt, Cursor.isAt, beq_false_of_ne hbrace, hne rfl]
    rfl
  have hsigma : startsSigma s.cursor = false := by
    rw [startsSigma, Cursor.isAt, hne rfl]
    rfl
  have hoperand : operand r ctx s = .error (.error ((s.cursor.note .primaryStart).complain .expectedExpression))
      (s.noted .primaryStart) := operand_of_not_mem ctx hs
  have happlication : application r ctx s = _ := bind_of_error hoperand
  have hchain : chain r ctx s = _ := bind_of_error happlication
  have hannotated : Grammar.annotated r ctx s = _ := bind_of_error hchain
  have hdomain : domainArrow r ctx s = _ := bind_of_error ((sigma_of_annotated ctx hsigma).trans hannotated)
  exact ⟨_, _, (arrow_of_domain ctx hparams).trans hdomain, says_complain (s.cursor.note .primaryStart) _, rfl⟩

end Refused

instance noQuote_rules (n : Nat) : (rules n).NoQuote := by
  refine ⟨fun ctx s hs => ?_⟩
  cases n with
  | zero => exact .inl ⟨s, rfl⟩
  | succ n =>
    have hpipe : (TagSet.single .pipe).contains s.cursor.currentTag = false := by rw [hs]; rfl
    have hnoted : (s.noted (.single .pipe)).cursor.currentTag = .quote := hs
    obtain ⟨e, t, ht, hsays, hposition⟩ : ∃ e t, Grammar.arrow (rules n) ctx (s.noted (.single .pipe)) =
        .error (.error e) t ∧ e.Says .expectedExpression (s.noted (.single .pipe)).cursor.currentTag ∧
          t.cursor.position = s.cursor.position :=
      arrow_of_not_mem ctx (by rw [hnoted]; rfl) (by rw [hnoted]; decide)
    refine .inr ⟨e, t, ?_, hnoted ▸ hsays, hposition⟩
    show lambda (rules n) ctx s = _
    rw [lambda, check_eq_checkSet, bind_of_ok (checkSet_of_not_mem hpipe)]
    exact ht

/-- Readers of parts that meet. -/
class SideRules (w : Fork) (r r' : Rules) : Prop where
  expr : ∀ ctx ctx' [Looser ctx ctx'], Veers w ctx ctx' (r.expr ctx) (r'.expr ctx')
  arrow : ∀ ctx, Sides w (r.arrow ctx) (r'.arrow ctx)
  /-- What is no lambda beside any expression. -/
  member : ∀ ctx ctx' [Looser ctx ctx'], Veers w ctx ctx' (r.arrow ctx) (r'.expr ctx')
  block : Sides w r.block r'.block

variable {w : Fork} {s s' t : State} {j : Nat}

/-- In parentheses that begin at an index, and that the right list closes at the index of the fork. -/
structure InList (w : Fork) (j : Nat) (s : State) : Prop where
  behind : j < s.cursor.position
  closes : Closes 0 (w.upTo s.cursor.position)
  colon : occursIn .colon (w.upTo s.cursor.position) 0 = false

namespace InList

variable (h : w.InList j s)
include h

theorem pass {avoid : List Tag} (htokens : s.cursor.tokens = w.left) (k : Grammar.Passes avoid s s')
    (hle : s'.cursor.position ≤ w.index) : w.InList j s' := by
  obtain ⟨hbehind, hcloses, hcolon⟩ := h
  have hpassed := k.closes
  rw [htokens] at hpassed
  rw [w.upTo_eq_append k.position hle] at hcloses hcolon
  rw [occursIn_append hpassed, Bool.or_eq_false_iff] at hcolon
  rw [← Nat.zero_add 0] at hcloses
  exact ⟨Nat.lt_of_lt_of_le hbehind k.position, hpassed.append_iff.1 hcloses, hcolon.2⟩

/-- Before the index the parentheses are not closed. -/
theorem not_isClosing (htokens : s.cursor.tokens = w.left) (hlt : s.cursor.position < w.index) :
    s.cursor.currentTag.isClosing = false := by
  obtain ⟨o, ho, hcons⟩ := w.upTo_eq_cons hlt
  have hcloses := h.closes
  rw [hcons] at hcloses
  rw [Cursor.currentTag, Cursor.tagAt, htokens, ← ho, ← Bool.not_eq_true]
  exact fun hc => absurd (hcloses.2.1 hc) (Nat.lt_irrefl _)

/-- No parameter has a type on the right. -/
theorem isAnnotated_right (paired : w.Paired s t) (hclosing : w.tag.isClosing = true) :
    isAnnotated t.cursor = false := by
  rw [Cursor.isAnnotated_eq, paired.rest_right]
  exact annotatedIn_eq_false h.closes h.colon (w.headTag_drop_right ▸ hclosing)

/-- What passes brackets as they should be is in the list still. -/
theorem meets {A : State → Prop} {X : α → β → State → State → Prop} {p : Parse α} {q : Parse β}
    [hp : Calm w.spot [] p] (paired : w.Paired s t) (hmeets : w.Meets (.straying A) X (p s) (q t)) :
    w.Meets (.straying A) (fun _ _ s _ => w.InList j s) (p s) (q t) :=
  hmeets.mono_astray fun a _ s' _ hs _ paired' _ => h.pass paired.left ((hp.calm s).passes a s' hs) paired'.le

end InList

/-- The left run goes on where it is. -/
theorem Meets.then_left {A I : State → Prop} {p : Parse α} {f : α → Parse γ} [∀ a, Forward (f a)]
    {r' : EStateM.Result Failure State β} (h : w.Meets (.straying A) (fun _ _ s _ => I s) (p s) r')
    (hf : ∀ a s', ∃ c, f a s' = .ok c s') : w.Meets (.straying A) (fun _ _ s _ => I s) ((p >>= f) s) r' := by
  obtain hmeets | ⟨a, s', hs, hA⟩ := h.cases_straying
  · obtain hquits | hgone | ⟨a, b, s', t', hs, ht, paired, hI⟩ := hmeets.cases_none
    · exact .quits hquits.bind
    · exact .gone hgone
    · obtain ⟨c, hc⟩ := hf a s'
      exact .both ((bind_of_ok hs).trans hc) ht paired hI
  · obtain ⟨c, hc⟩ := hf a s'
    exact .astray ((bind_of_ok hs).trans hc) hA

section Late

variable {r r' : Rules} [r.Forward] [r'.Forward] [r.Calm w.spot] [h : SideRules w r r'] (ctx : Context)
  (hclosing : w.tag.isClosing = true)
include hclosing

omit [r'.Forward] in
/-- Parentheses that are closed on the right hold no parameter with a type there. -/
theorem lateMember_meets (paired : w.Paired s t) (hin : w.InList j s) :
    w.Meets (.straying (w.Stuck .type ctx.nested)) (fun _ _ s _ => w.InList j s) (memberParam r .explicit s)
      (r'.expr ctx.nested t) := by
  by_cases hsame : isAnnotated t.cursor = isAnnotated s.cursor
  · have hrun : memberParam r .explicit s = (r.type >>= fun type => pure (.typed none type) : Parse ParamKind) s := by
      show (if isAnnotated s.cursor = true then typedParam r else bareParam r .explicit) s = _
      rw [← hsame, hin.isAnnotated_right paired hclosing]
      rfl
    have both : w.Meets (.straying (w.Stuck .type ctx.nested)) (fun _ _ s _ => w.InList j s) (r.type s)
        (r'.expr ctx.nested t) := hin.meets paired ((h.member .type ctx.nested).meets s t paired)
    rw [hrun]
    exact both.then_left fun _ _ => ⟨_, rfl⟩
  · have strays : w.Wanders w.Stray (memberParam r .explicit s) := memberParam_strays paired hsame
    obtain hquits | ⟨_, _, -, stray⟩ := strays
    · exact .quits hquits
    · rw [stray.colon] at hclosing
      cases hclosing

variable [hquote : r'.NoQuote] (late : LateParams w.left w.index j)
include late

omit [r'.Forward] in
/-- A parameter beside an expression, for which a quote is none. -/
theorem lateParam_meets (paired : w.Paired s t) (hin : w.InList j s) :
    w.Meets (.straying (w.Stuck .type ctx.nested)) (fun _ _ s _ => w.InList j s) (param r .explicit s)
      (r'.expr ctx.nested t) := by
  have hrun : param r .explicit s = (check .quote >>= fun c =>
      if c = true then forAllParam
      else memberParam r .explicit >>= fun kind =>
        spanFrom s.cursor.current.span >>= fun span => pure ⟨kind, span⟩) s :=
    rfl
  rw [hrun, check_eq_checkSet]
  cases hset : (TagSet.single .quote).contains s.cursor.currentTag with
  | true =>
    rw [bind_of_ok (checkSet_of_mem hset), if_pos rfl]
    have hat : s.cursor.currentTag = .quote := TagSet.eq_of_contains_single hset
    rcases Nat.lt_or_eq_of_le paired.le with hlt | heq
    · -- the right run refuses the quote
      refine .gone ?_
      obtain ⟨t', ht⟩ | ⟨e, t', ht, hsays, hposition⟩ := hquote.refuses ctx.nested t ((paired.currentTag hlt).trans hat)
      · rw [ht]
        trivial
      · rw [ht]
        rw [paired.position] at hposition
        refine .inr (.quote (hposition ▸ hlt) hsays late (hposition ▸ hin.behind) ?_ hclosing)
        rw [hposition, ← paired.left]
        exact hat
    · have : Enters (.single .quote) forAllParam := by unfold forAllParam; infer_instance
      exact .quits (quits_of_enters hset (Nat.le_of_eq heq.symm))
  | false =>
    rw [bind_of_ok (checkSet_of_not_mem hset), if_neg Bool.false_ne_true]
    have noted : w.Paired (s.noted (.single .quote)) t := paired.note_left fun _ => by
      refine TagSet.contains_single_of_ne fun e => ?_
      rw [e] at hclosing
      cases hclosing
    have hin : w.InList j (s.noted (.single .quote)) := ⟨hin.behind, hin.closes, hin.colon⟩
    exact (lateMember_meets ctx hclosing noted hin).then_left fun _ _ => ⟨_, rfl⟩

theorem lateSequence_meets (paired : w.Paired s t) (hin : w.InList j s) :
    w.Meets ⟨.single .rparen, w.Stuck .type ctx.nested⟩ (fun _ _ s _ => w.InList j s)
      (Grammar.sequence .rparen (param r .explicit) commaSeparator s)
      (Grammar.sequence .rparen (r'.expr ctx.nested) commaSeparator t) := by
  have hloop : w.Meets ⟨.single .rparen, w.Stuck .type ctx.nested⟩ (fun _ _ s _ => w.InList j s)
      (repeating (sequenceTurn .rparen (param r .explicit) commaSeparator) ([], false) s)
      (repeating (sequenceTurn .rparen (r'.expr ctx.nested) commaSeparator) ([], false) t) := by
    refine turns_meet (fun x y s t paired hin => ?_) _ _ _ _ _ _ paired hin
    refine (turn_meets paired hin (fun s₁ t₁ paired₁ moved => ?_) rfl rfl).imp_right (.imp_right wanders_of_done)
    have hin₁ : w.InList j s₁ := by
      have hposition : s₁.cursor.position = s.cursor.position := moved.position
      exact ⟨hposition ▸ hin.behind, hposition ▸ hin.closes, hposition ▸ hin.colon⟩
    have items : w.Meets (.straying (w.Stuck .type ctx.nested)) (fun _ _ s _ => w.InList j s) (param r .explicit s₁)
        (r'.expr ctx.nested t₁) := lateParam_meets ctx hclosing late paired₁ hin₁
    obtain hmeets | ⟨a, s₂, hs, stuck⟩ := items.cases_straying
    · refine .inl (hmeets.bind fun a b s₂ t₂ paired₂ hin₂ => ?_)
      have separators : w.Meets .none (fun c c' s _ => c = c' ∧ w.InList j s) (commaSeparator s₂) (commaSeparator t₂) :=
        (Ends.meets s₂ t₂ paired₂).mono fun c c' s₃ _ hs _ paired₃ (hc : Alike c c') =>
          ⟨hc.eq, hin₂.pass paired₂.left
            (((inferInstance : Calm w.spot [] commaSeparator).calm s₂).passes c s₃ hs) paired₃.le⟩
      refine separators.bind fun c c' s₃ t₃ paired₃ hc => ?_
      obtain ⟨rfl, hin₃⟩ := hc
      cases c <;> exact .both rfl rfl paired₃ hin₃
    · rw [bind_of_ok hs]
      obtain hquits | ⟨s₃, hs₃, stuck⟩ := stuck.separator
      · exact .inl (.quits hquits.bind)
      · exact .inr ⟨_, s₃, bind_of_ok hs₃, stuck⟩
  exact hloop.follow (fun _ _ => ⟨_, rfl⟩) fun _ _ _ _ _ hin => ⟨_, _, rfl, rfl, hin⟩

omit [r.Forward] [r'.Forward] [r.Calm w.spot] h hquote hclosing late in
/-- The parentheses are not closed for both. -/
theorem InList.expectClosing_meets {X : Span → Span → State → State → Prop} (hin : w.InList j s) (paired : w.Paired s t)
    {close : Tag} (hclose : close.isClosing = true) [(TagSet.single close).Inner] (opening opening' : Span) :
    w.Meets .none X (expectClosing close opening s) (expectClosing close opening' t) := by
  have ends : w.Meets .none SameWay (expectClosing close opening s) (expectClosing close opening' t) :=
    Ends.meets s t paired
  refine ends.mono fun _ _ s' _ hs _ paired' _ => ?_
  obtain ⟨htag, hok⟩ | ⟨-, e, herror, -⟩ := expectClosing_cases close opening s
  · rcases Nat.lt_or_eq_of_le paired.le with hlt | heq
    · have hno := hin.not_isClosing paired.left hlt
      rw [htag, hclose] at hno
      cases hno
    · rw [hok (Tag.ne_eof_of_isClosing hclose)] at hs
      cases hs
      exact absurd paired'.le (Nat.not_le_of_lt (Nat.lt_succ_of_le (Nat.le_of_eq heq.symm)))
  · rw [herror] at hs
    cases hs

end Late

section Over

variable {r r' : Rules} [r.Forward] [r'.Forward] [r.Calm w.spot] [r'.NoQuote] [SideRules w r r'] (ctx : Context)

/-- **Parameters beside an expression**: with the parentheses one of the runs is over. -/
theorem late_over (paired : w.Paired s t) (hlt : s.cursor.position < w.index) (hclosing : w.tag.isClosing = true)
    (late : LateParams w.left w.index s.cursor.position) :
    w.Quits (bracketed .rparen (param r .explicit) s) ∨ w.Gone (bracketed .rparen (r'.expr ctx.nested) t) := by
  have hparen : s.cursor.currentTag = .lparen := by
    rw [Cursor.currentTag, Cursor.tagAt, paired.left]
    exact late.opens
  have hs : s.cursor.isAtEnd = false := isAtEnd_eq_false hparen (by decide)
  have ht : t.cursor.isAtEnd = false := isAtEnd_eq_false ((paired.currentTag hlt).trans hparen) (by decide)
  have ends : w.Meets .none (fun _ _ _ _ => False) (bracketed .rparen (param r .explicit) s)
      (bracketed .rparen (r'.expr ctx.nested) t) := by
    unfold bracketed
    rw [bind_of_ok (advance_of_not_isAtEnd hs), bind_of_ok (advance_of_not_isAtEnd ht), paired.position]
    have paired₁ := paired.move (Nat.le_succ s.cursor.position) hlt
    have hin₁ : w.InList s.cursor.position (s.moved (s.cursor.position + 1)) :=
      ⟨Nat.lt_succ_self _, late.closes, late.colon⟩
    have breaks : w.Meets .none SameWay (skipNewlines (s.moved (s.cursor.position + 1)))
        (skipNewlines (t.moved (s.cursor.position + 1))) := Ends.meets _ _ paired₁
    refine (hin₁.meets paired₁ breaks).bind fun _ _ s₂ t₂ paired₂ hin₂ => ?_
    refine (lateSequence_meets ctx hclosing late paired₂ hin₂).bind_stop ?_ ?_ ?_ ?_
    · exact fun _ _ s₃ t₃ paired₃ hin₃ => (hin₃.expectClosing_meets (X := fun _ _ _ _ => False) paired₃ rfl _ _).bind
        fun _ _ _ _ _ => False.elim
    · exact fun _ _ s₃ t₃ paired₃ _ heq hstop => paired₃.quits heq hstop
    · exact fun _ _ s₃ t₃ paired₃ _ heq hstop _ => paired₃.gone heq hstop
    · exact fun _ s₃ stuck => .inl (stuck.closing rfl _).bind
  obtain hquits | hgone | ⟨_, _, _, _, -, -, -, hfalse⟩ := ends.cases_none
  · exact .inl hquits
  · exact .inr hgone
  · exact hfalse.elim

end Over

end Fork

end SolSyntax
