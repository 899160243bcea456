import SolSyntax.Proofs.Making

/-!
# What the productions make

Every production of patterns and expressions makes one part, in the slot that its level calls for, and
uses up all parts that it made on the way.

Principal results: `rules_make` — the readers of expressions, types and blocks;
`chain_before_arrow` — no annotation or pair is left before an arrow.
-/

namespace SolSyntax.Grammar

open Parse

/-- A row of parts each of which is one pattern. -/
theorem flatMap_pattern (ids : List PatternId) :
    (ids.flatMap fun id => [Use.pattern id]) = ids.map .pattern := by
  induction ids with
  | nil => rfl
  | cons id ids ih => simp [ih]

/-- A row of parts each of which is one expression. -/
theorem flatMap_expr (slot : Slot) (ids : List ExprId) :
    (ids.flatMap fun id => [Use.expr slot id]) = ids.map (.expr slot) := by
  induction ids with
  | nil => rfl
  | cons id ids ih => simp [ih]

/-! ## Patterns -/

theorem patternPath_makes : Makes [] patternPath fun id => [.pattern id] :=
  .quiet fun _ => .newPattern _ rfl

section Patterns

variable {q : Parse PatternId}

theorem patternGroup_makes (h : Makes [] q fun id => [.pattern id]) :
    Makes [] (patternGroup q) fun id => [.pattern id] := by
  refine .quiet fun _ => .quiet fun _ => h.first fun inner => .quiet fun _ => .quiet fun _ => ?_
  exact .newPattern _ rfl

theorem atomOf_makes (h : Makes [] q fun id => [.pattern id]) (token : Token) :
    Makes [] (atomOf q token) fun id => [.pattern id] := by
  unfold atomOf
  split
  · exact .quiet fun _ => .newPattern _ rfl
  · split
    · exact patternPath_makes
    · exact patternPath_makes
    · exact .quiet fun _ => .newPattern _ rfl
    · exact patternGroup_makes h
    · exact .failWanting _ _

theorem atomWith_makes (h : Makes [] q fun id => [.pattern id]) :
    Makes [] (atomWith q) fun id => [.pattern id] := .quiet fun token => atomOf_makes h token

theorem atoms_make {test : Parse Bool} [Quiet test] (h : Makes [] q fun id => [.pattern id]) :
    Makes [] (many (optionally test q)) fun ids => ids.map .pattern := by
  simpa only [flatMap_pattern] using Makes.many (.optionally h)

theorem patternApplication_makes (h : Makes [] q fun id => [.pattern id]) :
    Makes [] (patternApplication q) fun id => [.pattern id] := by
  refine .quiet fun p => (atoms_make (atomWith_makes h)).first fun args => .quiet fun span => ?_
  exact .newPattern span rfl

theorem patternWith_makes (h : Makes [] q fun id => [.pattern id]) :
    Makes [] (patternWith q) fun id => [.pattern id] :=
  .quiet fun _ => .ite (fun _ => patternApplication_makes h) fun _ => atomWith_makes h

end Patterns

theorem patternAt_makes (n : Nat) : Makes [] (patternAt n) fun id => [.pattern id] := by
  induction n with
  | zero => exact .exhausted
  | succ n ih => exact patternWith_makes ih

theorem pattern_makes : Makes [] pattern fun id => [.pattern id] := .bounded patternAt_makes

theorem atom_makes : Makes [] atom fun id => [.pattern id] :=
  .bounded fun n => atomWith_makes (patternAt_makes n)

/-! ## The readers of the parts of expressions -/

/-- The slot of what a level reads in a context. -/
def slotIn (level : ExprLevel) (ctx : Context) : Slot := ⟨level, ctx.inType, ctx.noAnnotation⟩

/-- A step that leaves no arrow unread. -/
def TakesArrow (p : Parse α) : Prop := ∀ s x t, p s = .ok x t → t.cursor.isAt .arrow = false

/-- Readers that make what is asked of them. -/
structure Rules.Make (r : Rules) : Prop where
  expr : ∀ ctx, Makes [] (r.expr ctx) fun id => [.expr .expr id]
  arrow : ∀ ctx, Makes [] (r.arrow ctx) fun id => [.expr (slotIn .arrow ctx) id]
  takesArrow : ∀ ctx, TakesArrow (r.arrow ctx)
  block : Makes [] r.block Block.uses

theorem slotIn_within_type {ctx : Context} (h : ctx.inType = true) :
    (slotIn .arrow ctx).Within .type := .of_level rfl (fun _ => h) (fun e => by cases e)

/-- An expression that may be missing. -/
theorem optionally_makes {test : Parse Bool} [Quiet test] {p : Parse ExprId} {slot : Slot}
    (hp : Makes [] p fun id => [.expr slot id]) :
    Makes [] (optionally test p) fun o => o.toList.map (.expr slot) := by
  simpa only [flatMap_expr] using Makes.optionally hp

section Expressions

variable {r : Rules} (h : r.Make)
include h

theorem value_makes : Makes [] r.value fun id => [.expr .expr id] := h.expr .none

theorem type_makes : Makes [] r.type fun id => [.expr .type id] :=
  (h.arrow .type).slot (slotIn_within_type rfl)

theorem optionalType_makes : Makes [] (optionalType r) fun o => o.toList.map (.expr .type) :=
  optionally_makes (type_makes h)

/-! ## Parameters -/

theorem memberParam_makes {kind : ParamSetKind} (hk : kind.slot = .type) :
    Makes [] (memberParam r kind) (ParamKind.uses kind.slot) := by
  rw [hk]
  refine .quiet fun _ => .ite (fun _ => ?_) fun _ => ?_
  · exact pattern_makes.first fun binding => .quiet fun _ => (type_makes h).first fun type => .give rfl
  · unfold bareParam
    split
    · exact pattern_makes.first fun p => .give rfl
    · exact (type_makes h).first fun type => .give rfl

theorem param_makes {kind : ParamSetKind} (hk : kind.slot = .type) :
    Makes [] (param r kind) fun p => p.kind.uses kind.slot := by
  refine .quiet fun start => .quiet fun _ => .ite (fun _ => ?_) fun _ => ?_
  · exact .quiet fun mark => .quiet fun name => .give rfl
  · exact (memberParam_makes h hk).first fun k => .quiet fun span => .give rfl

theorem paramSet_makes : Makes [] (paramSet r) ParamSet.uses := by
  refine .quiet fun tag => ?_
  unfold paramSetOf
  split
  · exact .failWanting _ _
  · rename_i kind close hshape
    have hk : kind.slot = .type := by cases tag <;> cases hshape <;> rfl
    exact (Makes.bracketed (param_makes h hk)).first fun found => .give rfl

/-! ## Operands -/

omit h in
theorem groupOrTuple_spec (items : List ExprId) (trailingComma : Bool) :
    items.map (.expr .expr) = (groupOrTuple items trailingComma).uses ∧
      (groupOrTuple items trailingComma).IsProper ∧
      (groupOrTuple items trailingComma).level = .argument := by
  unfold groupOrTuple
  split
  · exact ⟨rfl, trivial, rfl⟩
  · rename_i hgroup
    refine ⟨rfl, fun hlen => ?_, rfl⟩
    obtain ⟨item, rfl⟩ := List.length_eq_one_iff.1 hlen
    cases trailingComma with
    | true => rfl
    | false => exact (hgroup item rfl rfl).elim

/-- What stands in brackets is made of its items. -/
theorem items_make {close : Tag} (ctx : Context) :
    Makes [] (bracketed close (r.expr ctx)) fun found => found.items.map (.expr .expr) := by
  simpa only [flatMap_expr] using Makes.bracketed (h.expr ctx)

theorem parenthesized_makes (ctx : Context) :
    Makes [] (parenthesized r ctx) fun id => [.expr .argument id] := by
  refine (items_make h _).first fun found => ?_
  obtain ⟨huses, hproper, hlevel⟩ := groupOrTuple_spec found.items found.trailingComma
  have hslot : Slot.argument.admits (groupOrTuple found.items found.trailingComma) = true := by
    rw [Slot.admits, hlevel]
    rfl
  exact .newExpr _ hslot hproper huses

theorem array_makes (ctx : Context) : Makes [] (array r ctx) fun id => [.expr .argument id] :=
  (items_make h _).first fun _ => .newExpr _ rfl trivial rfl

theorem branch_makes (ctx : Context) : Makes [] (branch r ctx) fun id => [.expr .branch id] := by
  refine .quiet fun _ => .ite (fun _ => ?_) fun _ => ?_
  · exact h.block.first fun b => .newExpr _ rfl trivial rfl
  · exact (h.expr ctx).slot (.of_level rfl (fun e => e) (fun e => e))

/-- What `else` introduces, if it is there. -/
theorem elseBranch_makes (ctx : Context) (position : IfPosition) :
    Makes [] (elseBranch r ctx position) fun o => o.toList.map (.expr .branch) := by
  refine .quiet fun _ => .ite (fun _ => ?_) fun _ => ?_
  · refine .quiet fun _ => .quiet fun _ => .quiet fun _ => ?_
    exact (branch_makes h ctx).first fun id => .give rfl
  · cases position with
    | expr => exact .failWanting _ _
    | stmt => exact .give rfl

omit h in
/-- Where a value is wanted, there is an `else`. -/
theorem isSome_of_elseBranch {ctx : Context} {o : Option ExprId}
    (ho : Returns (elseBranch r ctx .expr) o) : o.isSome = true := by
  obtain ⟨c, -, ho⟩ := ho.of_bind
  cases c with
  | true =>
    obtain ⟨-, -, ho⟩ := ho.of_bind
    obtain ⟨-, -, ho⟩ := ho.of_bind
    obtain ⟨-, -, ho⟩ := ho.of_bind
    obtain ⟨id, -, ho⟩ := ho.of_bind
    rw [ho.of_pure]
    rfl
  | false =>
    obtain ⟨s, t, ho⟩ := ho
    cases ho

theorem condition_makes : Makes [] (condition r) fun id => [.expr .expr id] := by
  refine (h.expr _).first fun test => .quiet fun _ => .quiet fun _ => .quiet fun _ => ?_
  exact .give rfl

/-- Where any operand may stand. -/
def anyOperand : Slot := ⟨.operand, false, false⟩

/-- Where an `if` may stand. -/
def conditionalSlot : IfPosition → Slot
  | .expr => anyOperand
  | .stmt => .stmt

theorem conditional_makes (ctx : Context) (position : IfPosition) :
    Makes [] (conditional r ctx position) fun id => [.expr (conditionalSlot position) id] := by
  refine .quiet fun start => (condition_makes h).first fun test => ?_
  refine (branch_makes h ctx).first fun thenBranch => ?_
  refine (elseBranch_makes h ctx position).first' fun elseBranch helse => .quiet fun span => ?_
  cases position with
  | expr => exact .newExpr _ rfl (isSome_of_elseBranch helse) rfl
  | stmt => exact .newExpr _ (by cases elseBranch <;> rfl) trivial rfl

theorem matchArm_makes : Makes [] (matchArm r) MatchArm.uses := by
  refine pattern_makes.first fun pattern => .quiet fun _ => .quiet fun _ => ?_
  refine (branch_makes h .none).first fun body => .quiet fun _ => .quiet fun _ => .give rfl

theorem caseAnalysis_makes :
    Makes [] (caseAnalysis r) fun id => [.expr anyOperand id] := by
  refine .quiet fun start => (h.expr _).first fun scrutinee => ?_
  refine (Makes.braced ((matchArm_makes h).within _) fun _ => .give rfl).first fun found => ?_
  exact .quiet fun span => .newExpr _ rfl trivial rfl

theorem returning_makes (ctx : Context) :
    Makes [] (returning r ctx) fun id => [.expr anyOperand id] := by
  refine .quiet fun start => (optionally_makes (h.expr ctx)).first fun value => ?_
  exact .quiet fun span => .newExpr _ rfl trivial rfl

/-- The slot of an operand that begins with a tag: if an argument can begin so, it is one. -/
def operandSlot (t : Tag) : Slot :=
  if TagSet.argStart.contains t then .argument else anyOperand

omit h in
theorem argument_within_operandSlot (t : Tag) : Slot.argument.Within (operandSlot t) := by
  unfold operandSlot
  split
  · exact .refl _
  · exact .of_operand (.inl rfl) rfl

theorem operandOf_makes (ctx : Context) (token : Token) :
    Makes [] (operandOf r ctx token) fun id => [.expr (operandSlot token.tag) id] := by
  have asArgument {p : Parse ExprId} (hp : Makes [] p fun id => [.expr .argument id]) :=
    hp.slot (argument_within_operandSlot token.tag)
  have reserved {t : Tag} (ht : token.kind.tag = t) (hs : TagSet.argStart.contains t = false) :
      operandSlot token.tag = anyOperand := by
    unfold operandSlot Token.tag
    rw [ht, hs]
    rfl
  unfold operandOf
  split
  · exact asArgument (.quiet fun _ => .newExpr _ rfl trivial rfl)
  · split
    · exact asArgument (.quiet fun p => .newExpr _ rfl trivial rfl)
    · exact asArgument (.quiet fun p => .newExpr _ rfl trivial rfl)
    · exact asArgument (.quiet fun mark => .quiet fun name => .newExpr _ rfl trivial rfl)
    · exact asArgument (.quiet fun _ => .newExpr _ rfl trivial rfl)
    · exact asArgument (parenthesized_makes h ctx)
    · exact asArgument (array_makes h ctx)
    · rename_i hk
      rw [reserved (congrArg TokenKind.tag hk) rfl]
      exact conditional_makes h ctx .expr
    · rename_i hk
      rw [reserved (congrArg TokenKind.tag hk) rfl]
      exact caseAnalysis_makes h
    · rename_i hk
      rw [reserved (congrArg TokenKind.tag hk) rfl]
      exact returning_makes h ctx
    · exact .failWanting _ _

theorem operand_makes (ctx : Context) :
    Makes [] (operand r ctx) fun id => [.expr anyOperand id] := by
  refine .quiet fun token => (operandOf_makes h ctx token).slot ?_
  unfold operandSlot
  split
  · exact .of_operand (.inl rfl) rfl
  · exact .refl _

/-! ## Applications -/

/-- One more argument, or none. -/
theorem argument_makes (ctx : Context) :
    Makes [] (optionally (checkSet .argStart) (operand r ctx)) fun o =>
      o.toList.flatMap fun id => [.expr .argument id] := by
  intro s held hs
  by_cases hc : TagSet.argStart.contains s.cursor.currentTag = true
  · have htest : checkSet .argStart s = .ok true s := by
      simp only [checkSet, step, Cursor.checkSet, if_pos hc]
    have hslot : operandSlot s.cursor.current.tag = .argument := by
      have htag : s.cursor.current.tag = s.cursor.currentTag := by
        rw [Cursor.current_eq, Cursor.currentTag_eq]
        cases s.cursor.rest <;> rfl
      rw [htag]
      exact if_pos hc
    have reads : Makes [] (operandOf r ctx s.cursor.current) fun id => [.expr .argument id] := by
      rw [← hslot]
      exact operandOf_makes h ctx _
    have result : Makes [] (some <$> operandOf r ctx s.cursor.current) fun o =>
        o.toList.flatMap fun id => [.expr .argument id] := reads.first fun id => .give rfl
    unfold optionally
    rw [bind_of_ok htest]
    exact result s held hs
  · have htest : checkSet .argStart s = .ok false { s with cursor := s.cursor.note .argStart } := by
      simp only [checkSet, step, Cursor.checkSet, if_neg hc]
    unfold optionally
    rw [bind_of_ok htest]
    exact hs

theorem arguments_make (ctx : Context) :
    Makes [] (many (optionally (checkSet .argStart) (operand r ctx))) fun ids =>
      ids.map (.expr .argument) := by
  simpa only [flatMap_expr] using Makes.many (argument_makes h ctx)

omit h in
/-- What is no closed form can be applied. -/
theorem isClosedForm_makes (id : ExprId) :
    Makes [.expr anyOperand id] (isClosedForm id) fun closed =>
      [.expr (if closed then anyOperand else .argument) id] := by
  intro s held hs
  show s.arena.Balanced _
  split
  · exact hs
  · exact hs
  · exact hs
  · rename_i hcond hcases hret
    refine hs.move fun e he hadm => ?_
    rw [he] at hcond hcases hret
    obtain ⟨kind, span⟩ := e
    cases kind
    case cond a b c p => exact (hcond a b c p rfl).elim
    case cases a b => exact (hcases a b rfl).elim
    case ret a => exact (hret a rfl).elim
    all_goals first | rfl | cases hadm

theorem blockArgument_makes (ctx : Context) :
    Makes [] (blockArgument r ctx) fun b => b.toList.flatMap Block.uses :=
  .ite (fun _ => .optionally h.block) fun _ => .give rfl

omit h in
/-- In a type nothing is applied to a block. -/
theorem blockArgument_eq_none {ctx : Context} (hctx : ctx.inType = true) {b : Option Block}
    (hb : Returns (blockArgument r ctx) b) : b = none := by
  unfold blockArgument Context.allowsBlockCall at hb
  rw [hctx] at hb
  exact hb.of_pure

omit h in
theorem applicationKind_spec {ctx : Context} (callee : ExprId) {args : List ExprId}
    {b : Option Block} (hb : ctx.inType = true → b = none)
    (hsome : ¬(args.isEmpty && b.isNone) = true) :
    (applicationKind ctx callee args b).uses =
        .expr .argument callee :: (args.map (.expr .argument) ++ b.toList.flatMap Block.uses) ∧
      (applicationKind ctx callee args b).IsProper ∧
      (slotIn .application ctx).admits (applicationKind ctx callee args b) = true := by
  have given : args ≠ [] ∨ b.isSome = true := by
    cases args <;> cases b <;> simp at hsome ⊢
  unfold applicationKind
  split
  · rename_i htype
    rw [hb htype] at given ⊢
    exact ⟨by simp [ExprKind.uses], given.resolve_right (by simp),
      Slot.admits_iff.2 ⟨rfl, fun _ => rfl, fun _ => rfl⟩⟩
  · rename_i hvalue
    exact ⟨rfl, given, Slot.admits_iff.2 ⟨rfl, fun e => absurd e hvalue, fun _ => rfl⟩⟩

theorem applied_makes (ctx : Context) (callee : ExprId) :
    Makes [.expr .argument callee] (applied r ctx callee) fun id =>
      [.expr (slotIn .application ctx) id] := by
  refine (arguments_make h ctx).first fun args => ?_
  refine (blockArgument_makes h ctx).first' fun b hb => .ite (fun hnone => ?_) fun hsome => ?_
  · obtain ⟨hargs, hb⟩ : args = [] ∧ b = none := by simpa using hnone
    subst hargs hb
    exact (Makes.give rfl).widen (.one (.of_operand (.inl rfl) rfl) callee)
  · obtain ⟨huses, hproper, hslot⟩ :=
      applicationKind_spec callee (fun hctx => blockArgument_eq_none hctx hb) hsome
    exact .quiet fun _ => .quiet fun _ => .newExpr _ hslot hproper huses.symm

theorem application_makes (ctx : Context) :
    Makes [] (application r ctx) fun id => [.expr (slotIn .application ctx) id] := by
  refine (operand_makes h ctx).first fun callee => (isClosedForm_makes callee).andThen fun closed => ?_
  refine .ite (fun hc => ?_) fun hc => ?_
  · rw [if_pos hc]
    exact (Makes.give rfl).widen (.one (.of_operand (.inr rfl) rfl) callee)
  · rw [if_neg hc]
    exact applied_makes h ctx callee

/-! ## Chains and annotations -/

omit h in
/-- A level takes in the ones below it, in the same context. -/
theorem slotIn_within {l k : ExprLevel} (ctx : Context) (hl : l.includes k = true) :
    (slotIn k ctx).Within (slotIn l ctx) := .of_level hl (fun e => e) fun e => e

omit h in
/-- Contexts exclude applications of values and annotations alone. -/
theorem slotIn_admits {l : ExprLevel} {ctx : Context} {k : ExprKind}
    (hl : l.includes k.level = true) (happ : k.isApp = false)
    (hann : ctx.noAnnotation = true → k.isAnn = false) :
    (slotIn l ctx).admits k = true := Slot.admits_iff.2 ⟨hl, fun _ => happ, hann⟩

theorem joined_makes (ctx : Context) (lhs : ExprId) (op : Ident) :
    Makes [.expr (slotIn .chain ctx) lhs] (joined r ctx lhs op) fun id =>
      [.expr (slotIn .chain ctx) id] := by
  have hlhs : (slotIn .chain ctx).Within .lhs := .of_level rfl (by simp [Slot.lhs]) (by simp [Slot.lhs])
  have hrhs : (slotIn .application ctx).Within .rhs :=
    .of_level rfl (by simp [Slot.rhs]) (by simp [Slot.rhs])
  refine .quiet fun _ => ((application_makes h ctx).slot hrhs).first fun rhs => ?_
  refine .widen ?_ ((Widened.one hlhs lhs).append (.refl _))
  exact .quiet fun _ => .quiet fun _ => .newExpr _ (slotIn_admits rfl rfl fun _ => rfl) trivial rfl

theorem chain_makes (ctx : Context) :
    Makes [] (chain r ctx) fun id => [.expr (slotIn .chain ctx) id] := by
  refine ((application_makes h ctx).slot (slotIn_within (l := .chain) ctx rfl)).first fun first => ?_
  refine Makes.repeating (fun id => [.expr (slotIn .chain ctx) id]) (fun lhs => ?_) first
  refine .quiet fun op => ?_
  cases op with
  | none => exact .give rfl
  | some op => exact (joined_makes h ctx lhs op).andThen fun id => .give rfl

theorem ascribed_makes {ctx : Context} (hctx : ctx.allowsAnnotation = true) (value : ExprId) :
    Makes [.expr (slotIn .annotated ctx) value] (ascribed r value) fun id =>
      [.expr (slotIn .annotated ctx) id] := by
  have hvalue : (slotIn .annotated ctx).Within .annotated :=
    .of_level rfl (by simp [Slot.annotated]) (by simp [Slot.annotated])
  refine (h.arrow .annotationType).first fun type => ?_
  refine .widen ?_ ((Widened.one hvalue value).append (.refl _))
  refine .quiet fun _ => .quiet fun _ => .newExpr _ (slotIn_admits rfl rfl fun hno => ?_) trivial rfl
  rw [Context.allowsAnnotation, hno] at hctx
  cases hctx

theorem annotated_makes (ctx : Context) :
    Makes [] (annotated r ctx) fun id => [.expr (slotIn .annotated ctx) id] := by
  refine ((chain_makes h ctx).slot (slotIn_within (l := .annotated) ctx rfl)).first fun value => ?_
  refine .ite (fun hctx => ?_) fun _ => ?_
  · refine Makes.repeating (fun id => [.expr (slotIn .annotated ctx) id]) (fun value => ?_) value
    refine .quiet fun more => .ite (fun _ => ?_) fun _ => .give rfl
    exact (ascribed_makes h hctx value).andThen fun id => .give rfl
  · exact .give rfl

/-! ## Types of functions and pairs -/

omit h in
theorem slotIn_union_type (ctx : Context) : (slotIn .arrow (ctx.union .type)).Within .type :=
  slotIn_within_type (by simp [Context.union, Context.type])

theorem sigmaResult_makes (ctx : Context) (params : ParamSet) :
    Makes params.uses (sigmaResult r ctx params) fun id => [.expr (slotIn .sigma ctx) id] := by
  refine ((h.arrow _).slot (slotIn_union_type ctx)).first fun result => .quiet fun _ => ?_
  exact .newExpr _ (slotIn_admits rfl rfl fun _ => rfl) trivial rfl

theorem sigma_makes (ctx : Context) :
    Makes [] (sigma r ctx) fun id => [.expr (slotIn .sigma ctx) id] := by
  refine .quiet fun _ => .ite (fun _ => ?_) fun _ => ?_
  · exact (paramSet_makes h).first fun params => .quiet fun _ => sigmaResult_makes h ctx params
  · exact (annotated_makes h ctx).slot (slotIn_within ctx rfl)

theorem arrowResult_makes (ctx : Context) (params : ParamSet) :
    Makes params.uses (arrowResult r ctx params) fun id => [.expr (slotIn .arrow ctx) id] := by
  refine ((h.arrow _).slot (slotIn_union_type ctx)).first fun result => .quiet fun _ => ?_
  exact .newExpr _ (slotIn_admits rfl rfl fun _ => rfl) trivial rfl

omit h in
/-- What has been read as a value becomes a domain. -/
theorem toType_makes (ctx : Context) (id : ExprId) :
    Makes [.expr (slotIn .chain ctx) id] (toType id) fun _ => [.expr .domain id] := by
  intro s held hs
  unfold toType
  split
  · rename_i b hb
    refine hs.toType hb fun k hadm happ => ?_
    obtain ⟨hl, -⟩ := Slot.admits_iff.1 hadm
    exact Slot.admits_iff.2 ⟨hl, fun _ => happ, fun e => by cases e⟩
  · rename_i e b hb
    have retyped : s.arena.Retyped (s.arena.toType id).2 := Arena.Retyped.retag _ id s.arena
    rw [hb] at retyped
    exact ⟨_, retyped.balanced _ hs⟩

theorem domainResult_makes (ctx : Context) (domain : ExprId) :
    Makes [.expr (slotIn .chain ctx) domain] (domainResult r ctx domain) fun id =>
      [.expr (slotIn .arrow ctx) id] := by
  refine (toType_makes ctx domain).andThen fun _ => .quiet fun span => ?_
  exact arrowResult_makes h ctx (domainParams domain span)

/-! ### What stands before an arrow

Annotations and pairs end with a type, which takes an arrow that follows it.  So what an arrow is left
behind is a bare chain.
-/

omit h in
theorem accept_of_not_isAt {tag : Tag} {s : State} (hs : s.cursor.isAt tag = false) :
    accept tag s = .ok false { s with cursor := s.cursor.note (.single tag) } := by
  have hcheck : check tag s = .ok false { s with cursor := s.cursor.note (.single tag) } := by
    simp only [check, step, Cursor.check, hs, Bool.false_eq_true, if_false]
  unfold accept
  rw [bind_of_ok hcheck]
  rfl

omit h in
theorem accept_of_isAt {tag : Tag} {s : State} (hs : s.cursor.isAt tag = true) :
    ∃ t, accept tag s = .ok true t := by
  have hcheck : check tag s = .ok true s := by
    simp only [check, step, Cursor.check, hs, if_true]
  unfold accept
  rw [bind_of_ok hcheck]
  exact ⟨_, rfl⟩

omit h in
theorem TakesArrow.bind {p : Parse α} {f : α → Parse β} (hf : ∀ x, TakesArrow (f x)) :
    TakesArrow (p >>= f) := by
  intro s y t hrun
  obtain ⟨x, u, -, hy⟩ := exists_of_bind_ok hrun
  exact hf x u y t hy

omit h in
/-- After that the cursor is not moved. -/
theorem TakesArrow.stay {p : Parse α} {f : α → Parse β} (hp : TakesArrow p)
    (hf : ∀ x s, (final (f x s)).cursor = s.cursor) : TakesArrow (p >>= f) := by
  intro s y t hrun
  obtain ⟨x, u, hx, hy⟩ := exists_of_bind_ok hrun
  have hcursor := hf x u
  rw [hy] at hcursor
  rw [show t.cursor = u.cursor from hcursor]
  exact hp s x u hx

theorem ascribed_takesArrow (value : ExprId) : TakesArrow (ascribed r value) :=
  (h.takesArrow _).stay fun _ _ => rfl

theorem sigmaResult_takesArrow (ctx : Context) (params : ParamSet) :
    TakesArrow (sigmaResult r ctx params) := (h.takesArrow _).stay fun _ _ => rfl

theorem arrowResult_takesArrow (ctx : Context) (params : ParamSet) :
    TakesArrow (arrowResult r ctx params) := (h.takesArrow _).stay fun _ _ => rfl

/-- If an arrow follows a row of annotations, the row is empty. -/
theorem annotations_before_arrow {n : Nat} {value id : ExprId} {s t : State}
    (hrun : turns (annotationTurn r) n value s = .ok id t) (hat : t.cursor.isAt .arrow = true) :
    id = value ∧ t.arena = s.arena ∧ s.cursor.isAt .arrow = true := by
  induction n generalizing value s with
  | zero => cases hrun
  | succ n ih =>
    obtain ⟨turn, u, hturn, hrest⟩ := exists_of_bind_ok hrun
    unfold annotationTurn at hturn
    cases his : s.cursor.isAt .kwIs with
    | false =>
      rw [bind_of_ok (accept_of_not_isAt his)] at hturn
      cases hturn
      cases hrest
      exact ⟨rfl, rfl, hat⟩
    | true =>
      obtain ⟨s₁, hs₁⟩ := accept_of_isAt his
      rw [bind_of_ok hs₁] at hturn
      obtain ⟨value', s₂, hvalue', hturn⟩ := exists_of_bind_ok hturn
      cases hturn
      -- the type of the annotation has left no arrow to the next turn
      have := ascribed_takesArrow h value _ _ _ hvalue'
      rw [(ih hrest).2.2] at this
      cases this

/-- What is left before an arrow was read as a chain. -/
theorem chain_before_arrow {ctx : Context} {id : ExprId} {s t : State}
    (hrun : sigma r ctx s = .ok id t) (hat : t.cursor.isAt .arrow = true) :
    ∃ u, chain r ctx s = .ok id u ∧ u.arena = t.arena := by
  unfold sigma at hrun
  obtain ⟨c, s₁, hs₁, hrun⟩ := exists_of_bind_ok hrun
  cases hs₁
  split at hrun
  · obtain ⟨params, s₂, -, hrun⟩ := exists_of_bind_ok hrun
    obtain ⟨_, s₃, -, hrun⟩ := exists_of_bind_ok hrun
    rw [sigmaResult_takesArrow h ctx params _ _ _ hrun] at hat
    cases hat
  · obtain ⟨value, u, hvalue, hrun⟩ := exists_of_bind_ok hrun
    split at hrun
    · obtain ⟨rfl, harena, -⟩ := annotations_before_arrow h hrun hat
      exact ⟨u, hvalue, harena.symm⟩
    · cases hrun
      exact ⟨_, hvalue, rfl⟩

theorem domainArrow_makes (ctx : Context) :
    Makes [] (domainArrow r ctx) fun id => [.expr (slotIn .arrow ctx) id] := by
  intro s held hs
  have asSigma := sigma_makes h ctx s held hs
  unfold domainArrow
  cases hrun : sigma r ctx s with
  | error e t =>
    rw [hrun] at asSigma
    rw [bind_of_error hrun]
    exact asSigma
  | ok id t =>
    rw [hrun] at asSigma
    rw [bind_of_ok hrun]
    cases hat : t.cursor.isAt .arrow with
    | true =>
      obtain ⟨u, hchain, harena⟩ := chain_before_arrow h hrun hat
      have asChain := chain_makes h ctx s held hs
      rw [hchain] at asChain
      have asChain : t.arena.Balanced (held ++ [.expr (slotIn .chain ctx) id]) := harena ▸ asChain
      have goesOn : Makes [.expr (slotIn .chain ctx) id]
          (do if ← accept .arrow then domainResult r ctx id else return id)
          fun id => [.expr (slotIn .arrow ctx) id] := by
        refine .quiet fun more => .ite (fun _ => domainResult_makes h ctx id) fun _ => ?_
        exact (Makes.give rfl).widen (.one (slotIn_within ctx rfl) id)
      exact goesOn t held asChain
    | false =>
      rw [bind_of_ok (accept_of_not_isAt hat)]
      have asSigma : t.arena.Balanced (held ++ [.expr (slotIn .sigma ctx) id]) := asSigma
      exact asSigma.widen ((Widened.refl held).append (.one (slotIn_within ctx rfl) id))

theorem arrow_makes (ctx : Context) :
    Makes [] (arrow r ctx) fun id => [.expr (slotIn .arrow ctx) id] := by
  refine .quiet fun _ => .ite (fun _ => ?_) fun _ => domainArrow_makes h ctx
  exact (paramSet_makes h).first fun params => .quiet fun _ => arrowResult_makes h ctx params

theorem arrow_takesArrow (ctx : Context) : TakesArrow (arrow r ctx) := by
  refine .bind fun c => ?_
  split
  · exact .bind fun params => .bind fun _ => arrowResult_takesArrow h ctx params
  · refine .bind fun domain => ?_
    intro s id t hrun
    cases hat : s.cursor.isAt .arrow with
    | true =>
      obtain ⟨u, hu⟩ := accept_of_isAt hat
      rw [bind_of_ok hu] at hrun
      refine TakesArrow.bind (fun _ => ?_) u id t hrun
      exact .bind fun span => arrowResult_takesArrow h ctx _
    | false =>
      rw [bind_of_ok (accept_of_not_isAt hat)] at hrun
      cases hrun
      exact hat

/-! ## Lambdas -/

theorem lambda_makes (ctx : Context) : Makes [] (lambda r ctx) fun id => [.expr .expr id] := by
  refine .quiet fun _ => .ite (fun _ => ?_) fun _ => ?_
  · refine .quiet fun start => (atoms_make atom_makes).first fun params => ?_
    refine .ite (fun _ => .fail _) fun hparams => .quiet fun _ => ?_
    refine (h.expr ctx).first fun body => .quiet fun _ => .newExpr _ rfl ?_ rfl
    exact fun e => hparams (by rw [e]; rfl)
  · exact (arrow_makes h ctx).slot (.of_level rfl (fun e => by cases e) fun e => by cases e)

/-! ## Blocks -/

theorem letStmt_makes : Makes [] (letStmt r) (Stmt.uses .stmt) := by
  refine .quiet fun start => pattern_makes.first fun pattern => ?_
  refine (optionalType_makes h).first fun type => .quiet fun _ => ?_
  refine (value_makes h).first fun value => .quiet fun span => .give ?_
  simp [Stmt.uses]

theorem stmt_makes : Makes [] (stmt r) (Stmt.uses .stmt) := by
  refine .quiet fun _ => .ite (fun _ => (letStmt_makes h).within _) fun _ => ?_
  refine .quiet fun _ => .ite (fun _ => ?_) fun _ => ?_
  · exact (conditional_makes h .none .stmt).first fun id => .give rfl
  · refine ((value_makes h).slot (t := .stmt) ?_).first fun id => .give rfl
    exact .of_level rfl (fun e => e) fun e => e

omit h in
/-- What is no open `if` may come last. -/
theorem isOpenIf_makes (id : ExprId) :
    Makes [.expr .stmt id] (isOpenIf id) fun isOpen =>
      [.expr (if isOpen then .stmt else .lastStmt) id] := by
  intro s held hs
  show s.arena.Balanced _
  split
  · exact hs
  · rename_i hopen
    refine hs.move fun e he hadm => ?_
    rw [he] at hopen
    obtain ⟨kind, span⟩ := e
    cases kind
    case cond a b c p =>
      cases p with
      | expr => rfl
      | stmt =>
        cases c with
        | some c => rfl
        | none => exact (hopen a b rfl).elim
    all_goals first | rfl | cases hadm

omit h in
theorem rejectOpenIf_makes (stmts : List Stmt) (span : Span) :
    Makes (stmts.flatMap (Stmt.uses .stmt)) (rejectOpenIf stmts) fun _ => Block.uses ⟨stmts, span⟩ := by
  unfold rejectOpenIf Block.uses
  cases hlast : stmts.getLast? with
  | none =>
    rw [List.getLast?_eq_none_iff.1 hlast]
    exact .give rfl
  | some last =>
    obtain ⟨others, rfl⟩ := List.getLast?_eq_some_iff.1 hlast
    rw [List.flatMap_append, List.dropLast_concat]
    cases last with
    | letIn pattern type value span => exact .give rfl
    | expr last =>
      refine .bind (isOpenIf_makes last) fun isOpen => .ite (fun _ => .failWanting _ _) fun hopen => ?_
      rw [if_neg hopen]
      exact .give rfl

theorem block_makes : Makes [] (block r) Block.uses := by
  have hfinish := fun stmts => rejectOpenIf_makes stmts .dummy
  exact (Makes.braced (stmt_makes h) hfinish).first fun found => .give rfl

end Expressions

/-! ## Tying the recursion -/

theorem rules_make (n : Nat) : (rules n).Make := by
  induction n with
  | zero =>
    refine ⟨fun _ => .exhausted, fun _ => .exhausted, fun _ s x t hrun => ?_, .exhausted⟩
    cases hrun
  | succ n ih => exact ⟨lambda_makes ih, arrow_makes ih, arrow_takesArrow ih, block_makes ih⟩

end SolSyntax.Grammar
