import SolSyntax.Proofs.ForkLate

/-!
# Expressions on two token lists

Every production of patterns, parameters and expressions does the same on the two lists of a `Fork` up to
the index, and what one of them finds there that the other misses, it takes.  Where the left run reads a type and
the right one a value, the left one may get stuck before a brace.

Principal results: `Ends` and `Veers` instances for productions; `conditional_meets` — behind an `if` without
`else` there is no `else`; `typeApplied_meets` — an application of a type beside one of a value.
-/

-- instances are long terms, as productions have many steps
set_option synthInstance.maxSize 2000

namespace SolSyntax.Fork

open Grammar Parse
open Context (Looser)

variable {w : Fork} {s t : State} {stops : Stops}

/-! ## Patterns -/

instance : Ends w stops patternPath patternPath := by unfold patternPath; infer_instance

section Patterns

variable {q q' : Parse PatternId} [Forward q] [Forward q'] [Sides w q q']

instance : Ends w stops (patternGroup q) (patternGroup q') := by unfold patternGroup; infer_instance

instance : Ends w stops (atomWith q) (atomWith q') := by
  have hleft : Enters .patternStart (atomWith q) := inferInstance
  have hright : Enters .patternStart (atomWith q') := inferInstance
  unfold atomWith at *
  refine dispatch .patternStart (fun token h => ?_) fun token => ?_
  · obtain ⟨kind, _, _⟩ := token
    cases kind <;> simp only [Token.tag, TokenKind.tag] at h <;>
      first
      | exact ⟨_, rfl⟩
      | exact absurd h (by decide)
  · unfold atomOf
    split
    · infer_instance
    · cases token.kind <;> infer_instance

instance : Ends w stops (patternApplication q) (patternApplication q') := by
  unfold patternApplication; infer_instance

instance : Ends w stops (patternWith q) (patternWith q') := by unfold patternWith; infer_instance

end Patterns

instance (n m : Nat) : Ends w stops (patternAt n) (patternAt m) := by
  induction n generalizing m stops with
  | zero => exact ⟨fun _ _ _ => .quits trivial⟩
  | succ n ih =>
    cases m with
    | zero => exact ⟨fun _ _ _ => .gone trivial⟩
    | succ m => 
      unfold patternAt
      infer_instance

instance : Ends w stops pattern pattern := by unfold pattern; infer_instance
instance : Ends w stops atom atom := by unfold atom; infer_instance

/-! ## What expressions are made of -/

section Rules

variable {r r' : Rules} [r.Forward] [r'.Forward] [r.Enters] [r'.Enters] [h : SideRules w r r'] (ctx ctx' : Context)
  [Looser ctx ctx']

omit [r.Forward] [r'.Forward] [r.Enters] [r'.Enters] in
section

instance : Veers w ctx ctx' (r.expr ctx) (r'.expr ctx') := h.expr ctx ctx'
instance : Ends w stops (r.expr ctx) (r'.expr ctx) := (h.expr ctx ctx).sides
instance : Ends w stops (r.arrow ctx) (r'.arrow ctx) :=
  ⟨fun s t paired => ((h.arrow ctx).meets s t paired).of_none⟩
instance : Ends w stops r.block r'.block := ⟨fun s t paired => (h.block.meets s t paired).of_none⟩
instance : Ends w stops r.value r'.value := inferInstanceAs (Ends w stops (r.expr _) (r'.expr _))
instance : Ends w stops r.type r'.type := inferInstanceAs (Ends w stops (r.arrow _) (r'.arrow _))

end

instance : Ends w stops (optionalType r) (optionalType r') := by unfold optionalType; infer_instance

/-! ### Parameters -/

instance : Ends w stops forAllParam forAllParam := by unfold forAllParam; infer_instance
instance : Enters (.single .quote) forAllParam := by unfold forAllParam; infer_instance
instance : Ends w stops (typedParam r) (typedParam r') := by unfold typedParam; infer_instance

instance (kind : ParamSetKind) : Ends w stops (bareParam r kind) (bareParam r' kind) := by
  unfold bareParam
  split <;> infer_instance

section Params

variable [r.Calm w.spot]

omit [r.Enters] [r'.Enters] in
/-- Where the two lists differ in whether the parameter has a type, the left run goes astray. -/
theorem memberParam_meets (kind : ParamSetKind) (paired : w.Paired s t) :
    w.Meets (.straying w.Stray) SameWay (memberParam r kind s) (memberParam r' kind t) := by
  by_cases hsame : isAnnotated t.cursor = isAnnotated s.cursor
  · have run (r : Rules) (s : State) :
      memberParam r kind s = (if isAnnotated s.cursor = true then typedParam r else bareParam r kind) s := rfl
    rw [run, run, hsame]
    exact Ends.meets s t paired
  · exact (memberParam_strays paired hsame).meets

omit [r.Enters] [r'.Enters] in
theorem param_meets (kind : ParamSetKind) (paired : w.Paired s t) :
    w.Meets (.straying w.Stray) SameWay (param r kind s) (param r' kind t) := by
  have run (r : Rules) (s : State) : param r kind s = (check .quote >>= fun c =>
      if c = true then forAllParam
      else memberParam r kind >>= fun kind => spanFrom s.cursor.current.span >>= fun span => pure ⟨kind, span⟩) s := rfl
  rw [run, run]
  refine ask_meets paired (fun s₁ t₁ paired₁ _ => Ends.meets s₁ t₁ paired₁) fun s₁ t₁ paired₁ => ?_
  exact (memberParam_meets kind paired₁).follow (fun _ _ => ⟨_, rfl⟩) fun _ _ _ _ _ _ => ⟨_, _, rfl, rfl, ⟨trivial⟩⟩

instance (kind : ParamSetKind) {close : Tag} [Closing close] [(TagSet.single close).Inner] :
    Ends w stops (bracketed close (param r kind)) (bracketed close (param r' kind)) :=
  bracketed_meets (fun _ _ => param_meets kind) (fun _ => Stray.separator) fun _ opening stray =>
    stray.closing Closing.isClosing opening

omit [r.Forward] [r.Enters] h in
theorem paramSet_eq : paramSet r = current >>= fun token => paramSetOf r token.tag := by
  funext s
  show paramSetOf r s.cursor.currentTag s = paramSetOf r s.cursor.current.tag s
  rw [currentTag_eq_tag]

instance : Ends w stops (paramSet r) (paramSet r') := by
  have hleft : Enters .paramListStart (paramSet r) := inferInstance
  have hright : Enters .paramListStart (paramSet r') := inferInstance
  simp only [paramSet_eq] at hleft hright ⊢
  refine dispatch .paramListStart (fun token h => ?_) fun token => ?_
  · unfold paramSetOf
    generalize token.tag = tag at *
    cases tag <;> first | exact ⟨_, rfl⟩ | exact absurd h (by decide)
  · unfold paramSetOf
    split
    · infer_instance
    · rename_i kind close hshape
      obtain ⟨_, _⟩ : Closing close ∧ (TagSet.single close).Inner := by
        unfold paramSetShape? at hshape
        split at hshape <;> cases hshape <;> exact ⟨inferInstance, inferInstance⟩
      have : Ends w stops
        (bracketed close (param r kind) >>= fun found => pure (ParamSet.mk kind found.items found.span))
          (bracketed close (param r' kind) >>= fun found => pure (ParamSet.mk kind found.items found.span)) :=
        Sides.bind fun _ _ _ => inferInstance
      infer_instance

end Params

/-! ### Operands -/

instance : Ends w stops pathExpr pathExpr := by unfold pathExpr; infer_instance
instance : Ends w stops freeVar freeVar := by unfold freeVar; infer_instance

instance : Ends w stops (parenthesized r ctx) (parenthesized r' ctx') := by
  have : Sides w (bracketed .rparen (r.expr ctx.nested)) (bracketed .rparen (r'.expr ctx'.nested)) :=
    Veers.bracketed (h.expr ctx.nested ctx'.nested)
  unfold parenthesized
  exact Sides.bind fun _ _ _ => inferInstance

instance : Ends w stops (array r ctx) (array r' ctx') := by
  have : Sides w (bracketed .rbracket (r.expr ctx.nested)) (bracketed .rbracket (r'.expr ctx'.nested)) :=
    Veers.bracketed (h.expr ctx.nested ctx'.nested)
  unfold array
  exact Sides.bind fun _ _ _ => inferInstance

instance : Veers w ctx ctx' (branch r ctx) (branch r' ctx') := by unfold branch; infer_instance
instance : Ends w stops (branch r ctx) (branch r' ctx) := Ends.sides (inferInstance : Veers w ctx ctx _ _)

instance : Ends w stops (condition r) (condition r') := by unfold condition; infer_instance

/-- Line breaks end before the index in both runs, or not before it in either. -/
theorem Paired.cases_skipNewlines (paired : w.Paired s t) :
    let i := Cursor.skipFrom s.cursor.tokens (· == .newline) s.cursor.position
    let j := Cursor.skipFrom t.cursor.tokens (· == .newline) t.cursor.position
    (i < w.index ∧ j = i) ∨ w.index ≤ i ∧ w.index ≤ j := by
  rw [paired.left, paired.right, paired.position]
  obtain ⟨heq, hle⟩ | ⟨hi, hj⟩ | ⟨hi, hj⟩ := w.cases_skipFrom (· == .newline) paired.le
  · rcases Nat.lt_or_eq_of_le hle with hlt | hi
    · exact .inl ⟨hlt, heq⟩
    · exact .inr ⟨Nat.le_of_eq hi.symm, Nat.le_of_eq (heq.trans hi).symm⟩
  · exact .inr ⟨Nat.le_of_lt hi, hj⟩
  · exact .inr ⟨hi, Nat.le_of_lt hj⟩

/-- An `else` that comes next, perhaps after line breaks, is taken. -/
theorem else_entered {p : Parse α} [Forward p] (h : (s.cursor.tagPastNewlines == .kwElse) = true) :
    Entered (s.moved (Cursor.skipFrom s.cursor.tokens (· == .newline) s.cursor.position))
      ((skipNewlines >>= fun _ => advance >>= fun _ => p) s) := by
  have hend : (s.moved (Cursor.skipFrom s.cursor.tokens (· == .newline) s.cursor.position)).cursor.isAtEnd =
      false := by
    show (s.cursor.tagPastNewlines == .eof) = false
    rw [eq_of_beq h]
    rfl
  have hskip : skipNewlines s =
    .ok () (s.moved (Cursor.skipFrom s.cursor.tokens (· == .newline) s.cursor.position)) := rfl
  rw [bind_of_ok hskip]
  exact (Entered.advance hend).bind

/-- The right list has no `else` at the index if only line breaks stand before it. -/
def NoElse (w : Fork) (s : State) : Prop :=
  w.index ≤ Cursor.skipFrom s.cursor.tokens (· == .newline) s.cursor.position → w.tag ≠ .kwElse

/-- What comes of a missing `else`. -/
def withoutElse : IfPosition → Parse (Option ExprId)
  | .expr => failWanting (.single .kwElse) .valueWithoutElse
  | .stmt => return none

omit [r.Forward] [r.Enters] in
theorem elseBranch_eq (position : IfPosition) (s : State) :
    elseBranch r ctx position s =
      if (s.cursor.tagPastNewlines == .kwElse) = true then
        (skipNewlines >>= fun _ => advance >>= fun _ => skipNewlines >>= fun _ =>
          branch r ctx >>= fun id => pure (some id)) s
      else withoutElse position s := by
  cases position <;>
  · show (if _ = true then _ else _ : Parse (Option ExprId)) s = _
    split <;> rfl

/-- No `else` comes where the left run is stuck. -/
instance (position : IfPosition) : Sticks w ctx ctx' (elseBranch r ctx position) := by
  refine ⟨inferInstance, fun s stuck => ?_⟩
  have hbrace : s.cursor.tagPastNewlines = .lbrace := by
    rw [Cursor.tagPastNewlines, stuck.skipFrom_eq]
    exact stuck.brace
  rw [elseBranch_eq, hbrace, if_neg (by decide)]
  cases position with
  | expr => exact .inl fun heq => absurd heq (Nat.ne_of_lt stuck.lt)
  | stmt => exact .inr ⟨_, s, rfl, stuck⟩

omit [r.Forward] [r'.Forward] [r.Enters] [r'.Enters] h [Looser ctx ctx'] in
/-- Line breaks that reach the index end there on the right, unless there is one more. -/
theorem tagPastNewlines_right (paired : w.Paired s t) (hne : w.tag ≠ .newline)
    (hreach : w.index ≤ Cursor.skipFrom t.cursor.tokens (· == .newline) t.cursor.position) :
    t.cursor.tagPastNewlines = w.tag := by
  have hend : Cursor.skipFrom t.cursor.tokens (· == .newline) t.cursor.position = w.index := by
    refine Nat.le_antisymm (Nat.le_of_not_lt fun hlt => ?_) hreach
    have hbreak := tagAt_of_lt_skipFrom (paired.position ▸ paired.le) hlt
    rw [paired.right] at hbreak
    exact hne (eq_of_beq hbreak)
  rw [Cursor.tagPastNewlines, hend, Cursor.tagAt, paired.right, tag]

theorem elseBranch_meets (position : IfPosition) (paired : w.Paired s t) :
    w.Meets (.straying (w.Stuck ctx ctx')) (fun e e' s _ => Alike e e' ∧ (e = none → NoElse w s))
      (elseBranch r ctx position s) (elseBranch r' ctx' position t) := by
  rw [elseBranch_eq, elseBranch_eq]
  have hnone (h : NoElse w s) : w.Meets (.straying (w.Stuck ctx ctx'))
      (fun e e' s _ => Alike e e' ∧ (e = none → NoElse w s)) (withoutElse position s) (withoutElse position t) := by
    cases position with
    | stmt => exact .both rfl rfl paired ⟨inferInstance, fun _ => h⟩
    | expr =>
      refine .quits (paired.quits_failWanting _ fun heq => ?_)
      exact TagSet.contains_single_of_ne (h (heq ▸ Cursor.le_skipFrom _ _ _))
  obtain ⟨hlt, hj⟩ | ⟨hi, hj⟩ := paired.cases_skipNewlines
  · have hsame : t.cursor.tagPastNewlines = s.cursor.tagPastNewlines := by
      rw [Cursor.tagPastNewlines, Cursor.tagPastNewlines, Cursor.tagAt, Cursor.tagAt, hj, paired.right,
        w.tagAt_eq hlt, paired.left]
    rw [hsame]
    split
    · refine (Ends.meets s t paired).bind fun _ _ s₁ t₁ paired₁ _ => ?_
      refine (Ends.meets s₁ t₁ paired₁).bind fun _ _ s₂ t₂ paired₂ _ => ?_
      refine (Ends.meets s₂ t₂ paired₂).bind fun _ _ s₃ t₃ paired₃ _ => ?_
      have branches : w.Meets (.straying (w.Stuck ctx ctx')) SameWay (branch r ctx s₃) (branch r' ctx' t₃) :=
        Ends.meets s₃ t₃ paired₃
      refine branches.bind_astray (fun id id' s₄ t₄ paired₄ (_ : Alike id id') => ?_)
        fun id s₄ stuck => .inr ⟨_, s₄, rfl, stuck⟩
      exact .both rfl rfl paired₄ ⟨inferInstance, fun hnone => by cases hnone⟩
    · exact hnone fun hle => absurd hle (Nat.not_le_of_lt hlt)
  · by_cases hs : (s.cursor.tagPastNewlines == .kwElse) = true
    · rw [if_pos hs]
      exact .quits (.of_entered (else_entered hs) hi)
    · by_cases ht : (t.cursor.tagPastNewlines == .kwElse) = true
      · rw [if_pos ht]
        exact .gone (.of_entered (else_entered ht) hj)
      · rw [if_neg hs, if_neg ht]
        -- an `else` at the index would end the line breaks
        refine hnone fun _ htag => ht ?_
        rw [tagPastNewlines_right paired (by rw [htag]; decide) hj, htag]
        rfl

/-- An `if` without `else` that has been read. -/
def AfterOpenIf (w : Fork) (id : ExprId) (s : State) : Prop :=
  s.arena.gists[id.index]? = some .openIf → NoElse w s

theorem conditional_meets (position : IfPosition) (paired : w.Paired s t) :
    w.Meets (.straying (w.Stuck ctx ctx')) (fun id id' s _ => Alike id id' ∧ AfterOpenIf w id s)
      (conditional r ctx position s) (conditional r' ctx' position t) := by
  unfold conditional
  refine (Ends.meets s t paired).bind fun start start' s₁ t₁ paired₁ _ => ?_
  refine (Ends.meets s₁ t₁ paired₁).bind fun test test' s₂ t₂ paired₂ (_ : Alike test test') => ?_
  have branches : w.Meets (.straying (w.Stuck ctx ctx')) SameWay (branch r ctx s₂) (branch r' ctx' t₂) :=
    Ends.meets s₂ t₂ paired₂
  refine branches.bind_astray (fun yes yes' s₃ t₃ paired₃ _ => ?_) fun yes => Sticks.sticks
  refine (elseBranch_meets ctx ctx' position paired₃).bind_astray (fun no no' s₄ t₄ paired₄ hno => ?_)
    fun no => Sticks.sticks
  obtain ⟨_, hno⟩ := hno
  have made := (inferInstance : Sides w
    (spanFrom start.span >>= fun span => newExpr (.cond test yes no position) span)
    (spanFrom start'.span >>= fun span => newExpr (.cond test' yes' no' position) span)).meets s₄ t₄ paired₄
  refine made.mono fun id id' s₅ t₅ hs _ _ hid => ⟨hid, fun hgist => ?_⟩
  cases hs
  -- the new expression is an open `if` only if there is no `else`
  replace hgist := (Arena.gist_newExpr s₄.arena _).symm.trans hgist
  cases no with
  | none => exact hno rfl
  | some no => cases position <;> cases hgist

instance (position : IfPosition) : Veers w ctx ctx' (conditional r ctx position) (conditional r' ctx' position) :=
  ⟨fun _ _ paired => (conditional_meets ctx ctx' position paired).imp fun _ _ _ _ h => h.1⟩

instance : Ends w stops (matchArm r) (matchArm r') := by unfold matchArm; infer_instance

instance : Ends w stops (caseAnalysis r) (caseAnalysis r') := by unfold caseAnalysis; infer_instance

instance : Veers w ctx ctx' (returning r ctx) (returning r' ctx') := by unfold returning; infer_instance

instance : Veers w ctx ctx' (operand r ctx) (operand r' ctx') := by
  have hleft : Enters .primaryStart (operand r ctx) := inferInstance
  have hright : Enters .primaryStart (operand r' ctx') := inferInstance
  unfold operand at *
  refine dispatch .primaryStart (fun token h => ?_) fun token => ?_
  · obtain ⟨kind, _, _⟩ := token
    cases kind <;> simp only [Token.tag, TokenKind.tag] at h <;>
      first
      | exact ⟨_, rfl⟩
      | exact absurd h (by decide)
  · unfold operandOf
    split
    · infer_instance
    · cases token.kind <;> infer_instance

/-! ### Applications and operators -/

omit [r.Enters] h in
/-- A stuck run has no block. -/
instance : Sticks w ctx ctx' (blockArgument r ctx) := by
  refine ⟨inferInstance, fun s stuck => .inr ⟨none, s, ?_, stuck⟩⟩
  rw [blockArgument, stuck.allowsBlockCall]
  rfl

instance (callee : ExprId) : Sticks w ctx ctx' (applied r ctx callee) := by unfold applied; infer_instance

instance : Ends w stops (blockArgument r ctx) (blockArgument r' ctx) := by unfold blockArgument; infer_instance

instance : Ends w stops (operand r ctx) (operand r' ctx) := Ends.sides (inferInstance : Veers w ctx ctx _ _)

instance (callee : ExprId) : Ends w stops (applied r ctx callee) (applied r' ctx callee) := by
  unfold applied
  refine Sides.bind fun args args' hargs => ?_
  obtain rfl := hargs.eq
  refine Sides.bind fun block block' hblock => ?_
  rw [hblock.isNone_eq]
  infer_instance

/-- What has been read on the left is rooted. -/
theorem Meets.rooted {A : State → Prop} {X : α → β → State → State → Prop} {p : Parse α} {q : Parse β} {typed : Bool}
    {post : α → List ExprId} (h : w.Meets (.straying A) X (p s) (q t)) (hroots : Roots typed [] p post) :
    w.Meets (.straying A) (fun a b s' t' => X a b s' t' ∧ s.arena.KeptBelow s.arena.exprs.size s'.arena ∧
      ∀ id ∈ post a, s'.arena.Rooted 0 typed id) (p s) (q t) :=
  h.mono_astray fun a _ s' _ hs _ _ hX =>
    have ⟨kept, roots⟩ := hroots _ s a s' hs (Nat.le_refl _) fun _ hid => absurd hid List.not_mem_nil
    ⟨hX, kept, fun id hid => (roots id hid).mono (Nat.zero_le _)⟩

omit [r.Enters] in
/-- An operator is taken. -/
theorem sign_entered {lhs : ExprId} {op : Ident} {s' : State} (h : operator? s = .ok (some op) s')
    (hs : s'.cursor = s.cursor) (hset : TagSet.binaryOperator.contains s.cursor.currentTag = true) :
    Entered s (chainTurn r ctx lhs s) := by
  have : Enters .binaryOperator (joined r ctx lhs op) := by unfold joined; infer_instance
  have entered := (inferInstance : Enters .binaryOperator
    (joined r ctx lhs op >>= fun id => pure (ForInStep.yield id))).enters s' (hs ▸ hset)
  rw [Entered, hs] at entered
  rwa [chainTurn, bind_of_ok h]

section Rooting

variable [r.Rooting]

/-- An application of a type beside one of a value.  A block comes on the right only. -/
theorem typeApplied_meets (callee : ExprId) (paired : w.Paired s t) (hcallee : s.arena.Rooted 0 true callee) :
    w.Meets (.straying (w.Stuck .type .none)) SameWay (applied r .type callee s) (applied r' .none callee t) := by
  have args : w.Meets (.straying (w.Stuck .type .none)) SameWay
      (many (optionally (checkSet .argStart) (operand r .type)) s)
      (many (optionally (checkSet .argStart) (operand r' .none)) t) := Ends.meets s t paired
  unfold applied
  refine (args.rooted (Roots.many (operand_roots .type))).bind_astray
      (fun as as' s₁ t₁ paired₁ ⟨halike, kept, roots⟩ => ?_)
    fun as => Sticks.sticks
  obtain rfl := Alike.eq (h := halike)
  have hblock : blockArgument r' .none = optionally (check .lbrace) r'.block := rfl
  rw [hblock, check_eq_checkSet]
  cases hset : (TagSet.single .lbrace).contains t₁.cursor.currentTag with
  | true =>
    rcases Nat.lt_or_eq_of_le paired₁.le with hlt | heq
    · have stuck : w.Stuck .type .none s₁ :=
        ⟨by decide, hlt, (paired₁.currentTag hlt).symm.trans (TagSet.eq_of_contains_single hset)⟩
      exact Wanders.meets (Sticks.sticks s₁ stuck)
    · have enters : Enters (.single .lbrace) (r'.block >>= fun a => pure (some a)) := inferInstance
      refine .gone (Gone.bind ?_)
      rw [optionally, bind_of_ok (checkSet_of_mem hset), if_pos rfl]
      exact .of_entered (enters.enters t₁ hset) (Nat.le_of_eq (paired₁.position.trans heq).symm)
  | false =>
    have hnone : optionally (checkSet (.single .lbrace)) r'.block t₁ = .ok none (t₁.noted (.single .lbrace)) :=
      bind_of_ok (checkSet_of_not_mem hset)
    have hnoneleft : blockArgument r .type s₁ = .ok none s₁ := rfl
    have paired₂ := paired₁.note_right (.single .lbrace)
    rw [bind_of_ok hnoneleft, bind_of_ok hnone]
    split
    · exact .both rfl rfl paired₂ ⟨rfl⟩
    · refine newExpr_meets paired₂ _ _ (.inr ⟨rfl, callee :: as, rfl, fun part hpart => ?_⟩)
      obtain rfl | hpart := List.mem_cons.1 hpart
      · exact (hcallee.kept kept).typeLike
      · exact (roots part hpart).typeLike

instance : Veers w ctx ctx' (application r ctx) (application r' ctx') := by
  obtain rfl | ⟨rfl, rfl⟩ := ‹Looser ctx ctx'›.cases
  · have : Sides w (application r ctx') (application r' ctx') := by unfold application; infer_instance
    exact ⟨fun s t paired => (this.meets s t paired).of_none⟩
  refine ⟨fun s t paired => ?_⟩
  have operands : w.Meets (.straying (w.Stuck .type .none)) SameWay (operand r .type s) (operand r' .none t) :=
    Ends.meets s t paired
  unfold application
  refine (operands.rooted (operand_roots .type)).bind_astray (fun callee callee' s₁ t₁ paired₁ ⟨halike, _, roots⟩ => ?_)
    fun callee => Sticks.sticks
  obtain rfl := Alike.eq (h := halike)
  obtain ⟨c, hs, ht⟩ := paired₁.isClosedForm_eq callee
  rw [bind_of_ok hs, bind_of_ok ht]
  cases c with
  | true => exact .both rfl rfl paired₁ halike
  | false => exact typeApplied_meets callee paired₁ (roots callee (List.mem_singleton_self _))

instance (lhs : ExprId) (op op' : Ident) : Veers w ctx ctx' (joined r ctx lhs op) (joined r' ctx' lhs op') := by
  unfold joined; infer_instance

/-- Before the index the two runs find the same operator, or none. -/
theorem chainTurn_before (lhs : ExprId) (paired : w.Paired s t) (hlt : s.cursor.position < w.index) :
    w.Meets (.straying (w.Stuck ctx ctx')) SameWay (chainTurn r ctx lhs s) (chainTurn r' ctx' lhs t) := by
  have hs := operator?_operator s
  have ht := operator?_operator t
  generalize hrs : operator? s = rs at hs
  generalize hrt : operator? t = rt at ht
  have hdone : Alike (ForInStep.done lhs) (.done lhs) := inferInstance
  have htag := paired.currentTag hlt
  have htight := paired.isTightDot_eq hlt
  unfold chainTurn
  cases hs with
  | sign hkept hset hspaced =>
    cases ht with
    | sign hkept' hset' hspaced' =>
      rw [bind_of_ok hrs, bind_of_ok hrt]
      exact Ends.meets _ _ (paired.names hkept hkept')
    | tightDot hdot hthere => rw [htight, hspaced (htag ▸ hdot)] at hthere; cases hthere
    | none hset' => rw [htag, hset] at hset'; cases hset'
  | tightDot hdot hthere =>
    cases ht with
    | sign hkept' hset' hspaced' => rw [← htight, hspaced' (htag ▸ hdot)] at hthere; cases hthere
    | tightDot hdot' hthere' =>
      rw [bind_of_ok hrs, bind_of_ok hrt]
      exact .both rfl rfl paired hdone
    | none hset' => rw [htag, hdot] at hset'; cases hset'
  | none hset =>
    cases ht with
    | sign hkept' hset' hspaced' => rw [htag, hset] at hset'; cases hset'
    | tightDot hdot hthere => rw [← htag, hdot] at hset; cases hset
    | none hset' =>
      rw [bind_of_ok hrs, bind_of_ok hrt]
      exact .both rfl rfl (paired.note fun heq => absurd heq (Nat.ne_of_lt hlt)) hdone

omit [r.Enters] [r'.Enters] h [Looser ctx ctx'] [r.Rooting] in
/-- At the index an operator is taken; a point between names is none. -/
theorem chainTurn_at (lhs : ExprId) (paired : w.Paired s t) (heq : s.cursor.position = w.index) :
    w.Meets (.straying (w.Stuck ctx ctx')) SameWay (chainTurn r ctx lhs s) (chainTurn r' ctx' lhs t) := by
  have hs := operator?_operator s
  have ht := operator?_operator t
  generalize hrs : operator? s = rs at hs
  generalize hrt : operator? t = rt at ht
  have hdone : Alike (ForInStep.done lhs) (.done lhs) := inferInstance
  have hle := Nat.le_of_eq heq.symm
  cases hs with
  | sign hkept hset => exact .quits (.of_entered (sign_entered ctx hrs hkept.1 hset) hle)
  | tightDot hdot hthere =>
    cases ht with
    | sign hkept hset => exact .gone (.of_entered (sign_entered ctx' hrt hkept.1 hset) (paired.position ▸ hle))
    | tightDot hdot' hthere' =>
      unfold chainTurn
      rw [bind_of_ok hrs, bind_of_ok hrt]
      exact .both rfl rfl paired hdone
    | none hset =>
      unfold chainTurn
      rw [bind_of_ok hrs, bind_of_ok hrt]
      exact .both rfl rfl (paired.note_right _) hdone
  | none hset =>
    cases ht with
    | sign hkept hset => exact .gone (.of_entered (sign_entered ctx' hrt hkept.1 hset) (paired.position ▸ hle))
    | tightDot hdot hthere =>
      -- such a point does not stand there on the right alone
      have hspaced := w.spaced ((paired.currentTag_right heq).symm.trans hdot) fun hfound => by
        rw [paired.currentTag_left heq, found, hfound] at hset
        cases hset
      rw [show isTightDot t.cursor = isTightDot (.atIndex t.cursor.tokens t.cursor.position) from rfl,
        paired.right, paired.position, heq, hspaced] at hthere
      cases hthere
    | none hset' =>
      unfold chainTurn
      rw [bind_of_ok hrs, bind_of_ok hrt]
      exact .both rfl rfl (paired.note fun _ => paired.currentTag_right heq ▸ hset') hdone

instance (lhs : ExprId) : Veers w ctx ctx' (chainTurn r ctx lhs) (chainTurn r' ctx' lhs) :=
  ⟨fun _ _ paired => (Nat.lt_or_eq_of_le paired.le).elim (chainTurn_before ctx ctx' lhs paired)
    (chainTurn_at ctx ctx' lhs paired)⟩

omit [r.Enters] h [r.Rooting] in
/-- A brace is no operator. -/
instance (lhs : ExprId) : Sticks w ctx ctx' (chainTurn r ctx lhs) := by
  refine ⟨inferInstance, fun s stuck => ?_⟩
  have hs := operator?_operator s
  generalize hrs : operator? s = rs at hs
  unfold chainTurn
  cases hs with
  | sign _ hset =>
    rw [stuck.brace] at hset
    cases hset
  | tightDot hdot =>
    rw [stuck.brace] at hdot
    cases hdot
  | none =>
    rw [bind_of_ok hrs]
    exact .inr ⟨_, _, rfl, stuck.stay rfl rfl⟩

instance : Veers w ctx ctx' (chain r ctx) (chain r' ctx') := by unfold chain; infer_instance

instance (value : ExprId) : Ends w stops (ascribed r value) (ascribed r' value) := by
  unfold ascribed; infer_instance

instance (value : ExprId) : Ends w stops (annotationTurn r value) (annotationTurn r' value) := by
  unfold annotationTurn; infer_instance

omit [r.Enters] h [r.Rooting] in
instance (value : ExprId) : Sticks w ctx ctx' (annotationTurn r value) := by unfold annotationTurn; infer_instance

instance : Veers w ctx ctx' (Grammar.annotated r ctx) (Grammar.annotated r' ctx') := by
  unfold Grammar.annotated
  rw [Looser.allowsAnnotation_eq ctx ctx']
  infer_instance

/-! ### Functions and pairs -/

instance (params params' : ParamSet) : Ends w stops (sigmaResult r ctx params) (sigmaResult r' ctx' params') := by
  unfold sigmaResult
  rw [Looser.union_type_eq ctx ctx']
  infer_instance

section Functions

variable [r.Calm w.spot]

instance : Veers w ctx ctx' (sigma r ctx) (sigma r' ctx') :=
  look_ends fun _ _ paired hlt hne => .inl (sigma_quits ctx paired hlt hne)

instance (params params' : ParamSet) : Ends w stops (arrowResult r ctx params) (arrowResult r' ctx' params') := by
  unfold arrowResult
  rw [Looser.union_type_eq ctx ctx']
  infer_instance

instance (domain : ExprId) : Ends w stops (domainResult r ctx domain) (domainResult r' ctx' domain) := by
  unfold domainResult; infer_instance

instance : Veers w ctx ctx' (domainArrow r ctx) (domainArrow r' ctx') := by unfold domainArrow; infer_instance

omit [r.Enters] [r'.Enters] [Looser ctx ctx'] [r.Rooting] in
/-- Where the left run has parameters only because of what comes behind the index, one of the runs is over. -/
theorem Late.over [r'.NoQuote] (paired : w.Paired s t) (hlt : s.cursor.position < w.index) (hlate : w.Late s t) :
    w.Quits (Grammar.arrow r ctx s) ∨ w.Gone (Grammar.arrow r' ctx' t) := by
  have hleft : s.cursor.currentTag = .lparen := by
    rw [Cursor.currentTag, Cursor.tagAt, paired.left]
    exact hlate.late.opens
  have hright : t.cursor.currentTag = .lparen := (paired.currentTag hlt).trans hleft
  rw [arrow_of_params ctx hlate.left, arrow_of_domain ctx' hlate.right]
  have ended : w.Quits (bracketed .rparen (param r .explicit) s) ∨ w.Gone (bracketed .rparen (r'.expr ctx'.nested) t) :=
    late_over ctx' paired hlt hlate.closing hlate.late
  refine ended.imp (fun hquits => Quits.bind ?_) fun hgone => ?_
  · rw [paramSet_of_lparen hleft]
    exact hquits.bind
  · refine domainArrow_gone ctx' (by rw [startsSigma, Cursor.isAt, hright]; rfl) ?_
    rw [operand_eq_parenthesized ctx' hright]
    exact hgone.bind

instance [r'.NoQuote] : Veers w ctx ctx' (Grammar.arrow r ctx) (Grammar.arrow r' ctx') :=
  look_ends fun _ _ paired hlt hne => (arrow_split ctx paired hlt hne).elim .inl (Late.over ctx ctx' paired hlt)

end Functions

end Rooting

end Rules

end SolSyntax.Fork
