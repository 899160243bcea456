import SolSyntax.Proofs.Steps

/-!
# At the end of the tokens

What a run does that stands at the end of its tokens: a production that needs a token fails (`Dead`),
and all others stay where they are (`Idle`).

Principal results: the instances of `Dead`, up to `dead_rules` — an expression, a block, a
declaration cannot be read from nothing.
-/

namespace SolSyntax.Grammar

open Parse

/-! ## Failing at the end -/

/-- A step that fails at the end of the tokens. -/
class Dead (p : Parse α) : Prop where
  fails : ∀ s : State, s.cursor.isAtEnd = true → ∃ e s', p s = .error e s'

/-- A step that does not lead away from the end of the tokens. -/
class Idle (p : Parse α) : Prop where
  stays : ∀ s : State, s.cursor.isAtEnd = true → Stalled (fun _ => True) (p s)

/-- A question that is answered with no at the end of the tokens. -/
class NotAtEnd (test : Parse Bool) : Prop where
  answer : ∀ s : State, s.cursor.isAtEnd = true →
    ∃ s', test s = .ok false s' ∧ s'.cursor.isAtEnd = true

namespace Dead

variable {p : Parse α}

theorem stalled [Dead p] {S : α → Prop} {s : State} (h : s.cursor.isAtEnd = true) :
    Stalled S (p s) := by
  obtain ⟨e, s', hp⟩ := Dead.fails (p := p) s h
  rw [hp]
  trivial

instance [Dead p] {f : α → Parse β} : Dead (p >>= f) := by
  refine ⟨fun s h => ?_⟩
  obtain ⟨e, s', hp⟩ := Dead.fails (p := p) s h
  exact ⟨e, s', bind_of_error hp⟩

instance [Idle p] {f : α → Parse β} [hf : ∀ a, Dead (f a)] : Dead (p >>= f) := by
  refine ⟨fun s h => ?_⟩
  have hp := Idle.stays (p := p) s h
  show ∃ e s', EStateM.bind p f s = .error e s'
  unfold EStateM.bind
  generalize p s = r at hp
  cases r with
  | ok a s₁ => exact (hf a).fails s₁ hp.1
  | error e s₁ => exact ⟨e, s₁, rfl⟩

instance [Dead p] (what : Construct) : Dead (within what p) := by
  refine ⟨fun s h => ?_⟩
  obtain ⟨e, s', hp⟩ := Dead.fails (p := p) s h
  exact ⟨e.within what, s', by rw [within, hp]⟩

/-- The other way is not taken. -/
instance {test : Parse Bool} [h : NotAtEnd test] {q : Parse α} [Dead q] :
    Dead (test >>= fun c => if c = true then p else q) := by
  refine ⟨fun s hend => ?_⟩
  obtain ⟨s', ht, h'⟩ := h.answer s hend
  obtain ⟨e, s'', hq⟩ := Dead.fails (p := q) s' h'
  exact ⟨e, s'', by rw [bind_of_ok ht]; exact hq⟩

instance : Dead (exhausted : Parse α) := ⟨fun s _ => ⟨_, s, rfl⟩⟩

instance (set : TagSet) (complaint : Complaint) : Dead (failWanting set complaint : Parse α) :=
  ⟨fun _ _ => ⟨_, _, rfl⟩⟩

instance {body : β → Parse (ForInStep β)} [∀ b, Dead (body b)] (n : Nat) (b : β) :
    Dead (turns body n b) := by
  cases n <;> unfold turns <;> infer_instance

instance {body : β → Parse (ForInStep β)} [h : ∀ b, Dead (body b)] (b : β) : Dead (repeating body b) :=
  ⟨fun s hend => Dead.fails (p := turns body s.bound b) s hend⟩

theorem expect {tag : Tag} (h : Tag.isInner tag) : Dead (expect tag) := by
  refine ⟨fun s hend => ?_⟩
  rw [isAtEnd_eq] at hend
  obtain ⟨e, s', he, -⟩ := expect_miss tag (s := s) (by rw [eq_of_beq hend]; exact beq_false_of_ne h.2.symm)
  exact ⟨_, s', he⟩

theorem expectClosing {close : Tag} (h : Tag.isInner close) (opening : Span) :
    Dead (expectClosing close opening) := by
  refine ⟨fun s hend => ?_⟩
  obtain ⟨s', hs, ms⟩ := check_eq close s
  rw [isAtEnd_eq] at hend
  rw [eq_of_beq hend, beq_false_of_ne h.2.symm] at hs
  rw [Grammar.expectClosing, bind_of_ok hs]
  exact ⟨_, s', rfl⟩

theorem kind_of_isAtEnd {s : State} (h : s.cursor.isAtEnd = true) : s.cursor.current.kind = .eof := by
  rw [isAtEnd_eq] at h
  rw [Cursor.current_eq]
  cases hr : s.cursor.rest with
  | nil => rfl
  | cons tok r =>
    rw [hr, headTag_cons] at h
    exact TokenKind.eq_of_tag (eq_of_beq h) rfl

instance : Dead expectIdent := by
  refine ⟨fun s h => ?_⟩
  have hk := kind_of_isAtEnd h
  simp only [expectIdent, tryStep, Cursor.expectIdent, hk]
  exact ⟨_, _, rfl⟩

end Dead

theorem NotAtEnd.check {tag : Tag} (h : Tag.isInner tag) : NotAtEnd (check tag) := by
  refine ⟨fun s hend => ?_⟩
  obtain ⟨s', hs, ms⟩ := check_eq tag s
  rw [isAtEnd_eq] at hend
  rw [eq_of_beq hend, beq_false_of_ne h.2.symm] at hs
  refine ⟨s', hs, ?_⟩
  rw [isAtEnd_eq, ms.rest, List.drop_zero]
  exact hend

theorem NotAtEnd.accept {tag : Tag} (h : Tag.isInner tag) : NotAtEnd (accept tag) := by
  refine ⟨fun s hend => ?_⟩
  obtain ⟨s', hs, h'⟩ := (NotAtEnd.check h).answer s hend
  refine ⟨s', ?_, h'⟩
  rw [Grammar.accept, bind_of_ok hs]
  rfl

theorem isAt_of_isAtEnd {c : Cursor} (hend : c.isAtEnd = true) {tag : Tag} (h : Tag.isInner tag) :
    c.isAt tag = false := by
  rw [Cursor.isAtEnd, Cursor.isAt, beq_iff_eq] at hend
  rw [Cursor.isAt, hend]
  exact beq_false_of_ne h.2.symm

theorem NotAtEnd.checkSet {set : TagSet} (h : set.contains .eof = false) : NotAtEnd (checkSet set) := by
  refine ⟨fun s hend => ?_⟩
  obtain ⟨s', hs, ms⟩ := checkSet_eq set s
  rw [isAtEnd_eq] at hend
  rw [eq_of_beq hend, h] at hs
  refine ⟨s', hs, ?_⟩
  rw [isAtEnd_eq, ms.rest, List.drop_zero]
  exact hend

theorem NotAtEnd.look {q : Cursor → Bool} (h : ∀ c : Cursor, c.isAtEnd = true → q c = false) :
    NotAtEnd (look q) := by
  refine ⟨fun s hend => ⟨s, ?_, hend⟩⟩
  rw [Parse.look, h s.cursor hend]

theorem NotAtEnd.isAt {tag : Tag} (h : Tag.isInner tag) : NotAtEnd (isAt tag) :=
  .look fun _ hend => isAt_of_isAtEnd hend h

/-- A row without items. -/
theorem many_of_none {item : Parse (Option α)} {s s' : State} (h : item s = .ok none s') :
    many item s = .ok [] s' := by
  have hturn : repeating (manyTurn item) [] s = .ok [] s' := by
    show turns (manyTurn item) (s.cursor.tokens.size + 1) [] s = .ok [] s'
    unfold turns
    refine bind_of_ok (a := ForInStep.done []) ?_
    rw [manyTurn, bind_of_ok h]
    rfl
  rw [many, bind_of_ok hturn]
  rfl

/-! ## Staying at the end -/

namespace Idle

instance : Idle advance := by
  refine ⟨fun s hend => ?_⟩
  obtain ⟨tok, hs⟩ := advance_end hend
  rw [hs]
  exact ⟨hend, trivial⟩

instance : Idle skipNewlines := by
  refine ⟨fun s hend => ?_⟩
  obtain ⟨s', hs, ms⟩ := skipNewlines_eq s
  rw [hs]
  refine ⟨?_, trivial⟩
  rw [isAtEnd_eq] at hend
  rw [isAtEnd_eq, rest_of_moved_takeWhile rfl ms]
  cases hr : s.cursor.rest with
  | nil => rfl
  | cons tok r =>
    rw [hr, headTag_cons, beq_iff_eq] at hend
    rw [List.dropWhile_cons, hend]
    simp [hend]

instance : Idle current := ⟨fun _ hend => ⟨hend, trivial⟩⟩

instance (a : α) : Idle (pure a : Parse α) := ⟨fun _ hend => ⟨hend, trivial⟩⟩

instance (id : ExprId) : Idle (isOpenIf id) := ⟨fun _ hend => ⟨hend, trivial⟩⟩

instance {p : Parse α} [h : Dead p] : Idle p := ⟨fun _ hend => h.stalled hend⟩

instance {p q : Parse α} [Idle p] [Idle q] {c : Prop} [Decidable c] : Idle (if c then p else q) := by
  split <;> infer_instance

instance {p : Parse α} [Idle p] {f : α → Parse β} [hf : ∀ a, Idle (f a)] : Idle (p >>= f) := by
  refine ⟨fun s hend => ?_⟩
  have hp := Idle.stays (p := p) s hend
  show Stalled _ (EStateM.bind p f s)
  unfold EStateM.bind
  generalize p s = r at hp
  cases r with
  | ok a s₁ => exact (hf a).stays s₁ hp.1
  | error e s₁ => trivial

instance (items : List α) : Idle (noObjection items) := by unfold noObjection; infer_instance

instance (stmts : List Stmt) : Idle (rejectOpenIf stmts) := by
  unfold rejectOpenIf
  split <;> infer_instance

end Idle

/-! ## The productions -/

namespace Dead

/-- What a production does with the token at the end decides. -/
theorem of_current {f : Token → Parse α} (h : ∀ token : Token, token.kind = .eof → Dead (f token)) :
    Dead (current >>= f) :=
  ⟨fun s hend => (h s.cursor.current (kind_of_isAtEnd hend)).fails s hend⟩

instance (pattern : Parse PatternId) : Dead (atomWith pattern) := by
  unfold atomWith
  refine of_current fun token h => ?_
  simp only [atomOf, h, TokenKind.literal?]
  infer_instance

instance (p : Parse PatternId) : Dead (patternWith p) := by
  have : NotAtEnd (checkSet .identStart) := .checkSet rfl
  unfold patternWith
  infer_instance

instance (n : Nat) : Dead (patternAt n) := by
  cases n <;> unfold patternAt <;> infer_instance

instance : Dead pattern := ⟨fun s hend => Dead.fails (p := patternAt s.bound) s hend⟩

end Dead

/-- Readers that need a token. -/
class Rules.Dead (r : Rules) : Prop where
  expr : ∀ ctx, Grammar.Dead (r.expr ctx)
  arrow : ∀ ctx, Grammar.Dead (r.arrow ctx)
  block : Grammar.Dead r.block

namespace Dead

variable {r : Rules} [h : r.Dead] {ctx : Context}

instance : Dead (r.expr ctx) := h.expr ctx

instance : Dead (r.arrow ctx) := h.arrow ctx

instance : Dead r.value := h.expr _

instance : Dead r.type := h.arrow _

instance (kind : ParamSetKind) : Dead (bareParam r kind) := by
  unfold bareParam
  split <;> infer_instance

instance (kind : ParamSetKind) : Dead (memberParam r kind) := by
  have : NotAtEnd (look isAnnotated) := .look fun c hend => by
    rw [Cursor.isAnnotated_eq]
    rw [Cursor.isAtEnd, Cursor.isAt_eq] at hend
    cases hr : c.rest with
    | nil => rfl
    | cons tok u =>
      rw [hr, headTag_cons, beq_iff_eq] at hend
      simp [annotatedIn, hend]
  unfold memberParam
  infer_instance

instance (kind : ParamSetKind) : Dead (param r kind) := by
  have : NotAtEnd (check .quote) := .check (by decide)
  unfold param
  infer_instance

instance : Dead (branch r ctx) := by
  have : NotAtEnd (isAt .lbrace) := .isAt (by decide)
  unfold branch
  infer_instance

instance : Dead (matchArm r) := by unfold matchArm; infer_instance

instance : Dead (operand r ctx) := by
  unfold operand
  refine of_current fun token h => ?_
  simp only [operandOf, h, TokenKind.literal?]
  infer_instance

instance : Dead (application r ctx) := by unfold application; infer_instance

instance : Dead (chain r ctx) := by unfold chain; infer_instance

instance : Dead (annotated r ctx) := by unfold annotated; infer_instance

instance : Dead (sigma r ctx) := by
  have : NotAtEnd (look startsSigma) := .look fun c hend => by
    rw [startsSigma, isAt_of_isAtEnd hend (by decide), Bool.false_and]
  unfold sigma
  infer_instance

instance : Dead (domainArrow r ctx) := by unfold domainArrow; infer_instance

instance : Dead (arrow r ctx) := by
  have : NotAtEnd (look startsParamList) := .look fun c hend => by
    rw [startsParamList, isAt_of_isAtEnd hend (by decide), isAt_of_isAtEnd hend (by decide),
      Bool.false_and, Bool.false_and, Bool.or_false]
  unfold arrow
  infer_instance

instance : Dead (lambda r ctx) := by
  have : NotAtEnd (check .pipe) := .check (by decide)
  unfold lambda
  infer_instance

instance : Dead (stmt r) := by
  have : NotAtEnd (isAt .kwLet) := .isAt (by decide)
  have : NotAtEnd (isAt .kwIf) := .isAt (by decide)
  unfold stmt
  infer_instance

instance : Dead (block r) := by
  have := Dead.expect (show Tag.isInner .lbrace by decide)
  unfold block braced
  infer_instance

omit h in
theorem attachment_of_isAtEnd {s : State} (hend : s.cursor.isAtEnd = true) :
    attachment r s = .ok none s := by
  show attachmentOf r s.cursor.current s = .ok none s
  unfold attachmentOf
  rw [kind_of_isAtEnd hend]
  rfl

omit h in
instance : Idle (attributes r) := by
  refine ⟨fun s hend => ?_⟩
  rw [attributes, bind_of_ok (many_of_none (attachment_of_isAtEnd hend))]
  exact ⟨hend, trivial⟩

instance : Dead (constructor r) := by unfold constructor; infer_instance

end Dead

/-- Expressions and blocks cannot be read from nothing. -/
instance dead_rules (n : Nat) : (rules n).Dead := by
  induction n with
  | zero =>
    have : ∀ {α}, Dead (exhausted : Parse α) := inferInstance
    exact ⟨fun _ => this, fun _ => this, this⟩
  | succ n ih => exact ⟨fun ctx => inferInstanceAs (Dead (lambda (rules n) ctx)),
      fun ctx => inferInstanceAs (Dead (arrow (rules n) ctx)), inferInstanceAs (Dead (block (rules n)))⟩

end SolSyntax.Grammar
