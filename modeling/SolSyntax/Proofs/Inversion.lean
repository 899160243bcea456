import SolSyntax.Proofs.ReadingOperands
import SolSyntax.Proofs.Trees

/-!
# Expressions are read back

The readers choose by what they see ahead and by the place where they stand; on what is written as
`Spells` says, every choice is the right one.  Each level of the grammar gives back what is written if the
levels inside of its brackets do, and the recursion is tied by the number of tokens.

Principal results: `chain_yields`, `annotated_yields`, `arrow_yields`, `lambda_yields` — one level of
the grammar each; `expressions_read_back` — the readers of expressions invert the grammar.
-/

namespace SolSyntax.Grammar

open Outline (leaf node)
open Parse

variable {r : Rules} {m : Nat} {pl : Place} {u v w : List Token} {o : Outline TokenKind} {s s₁ : State}
  {x : List (Outline Ref)} {ts : List (Outline TokenKind)}

/-! ## Loops -/

/-- After `n` turns of a loop the accumulator is `b'`. -/
def Turns (body : β → Parse (ForInStep β)) (b : β) (s : State) (n : Nat) (b' : β) (s' : State) : Prop :=
  ∀ k, turns body (n + k) b s = turns body k b' s'

section Turns

variable {body : β → Parse (ForInStep β)} {b b' b'' : β} {s' s'' : State} {n : Nat}

theorem Turns.refl (body : β → Parse (ForInStep β)) (b : β) (s : State) : Turns body b s 0 b s :=
  fun k => by rw [Nat.zero_add]

theorem Turns.snoc (h : Turns body b s n b' s') (hb : body b' s' = .ok (.yield b'') s'') :
    Turns body b s (n + 1) b'' s'' := by
  intro k
  rw [Nat.add_assoc, Nat.add_comm 1 k, h (k + 1), turns, bind_of_ok hb]

/-- The loop ends after a turn that ends it, unless its bound is reached before. -/
theorem Turns.repeating_eq (h : Turns body b s n b' s') (hb : body b' s' = .ok (.done b'') s'')
    (hn : n < s.bound) : repeating body b s = .ok b'' s'' := by
  obtain ⟨k, hk⟩ : ∃ k, s.bound = n + (k + 1) := ⟨s.bound - n - 1, by omega⟩
  show turns body s.bound b s = _
  rw [hk, h (k + 1), turns, bind_of_ok hb]
  rfl

end Turns

/-! ## Chains -/

section Chains

theorem Read.isTightDot {t : Token} (h : Read s s₁ u (t :: v) x ts) (hu : u ≠ []) (hv : v ≠ [])
    (ht : ¬Touches u t v) : isTightDot s₁.cursor = false := by
  obtain ⟨a, ha⟩ := Option.ne_none_iff_exists'.1 (mt List.getLast?_eq_none_iff.1 hu)
  obtain ⟨b, v, rfl⟩ := List.exists_cons_of_ne_nil hv
  obtain ⟨hspan, hcur, hspan'⟩ := h.adjacent ha
  rw [Grammar.isTightDot, hspan, hcur, hspan', Bool.eq_false_iff]
  intro hab
  rw [Bool.and_eq_true] at hab
  exact ht ⟨a, b, ha, rfl, hab.1, hab.2⟩

/-- An operator is seen between operands. -/
theorem operator_seen {t : Token} (h : Read s s₁ u (t :: v) x ts) (ht : t.kind.isOperator = true)
    (hu : u ≠ []) (hv : v ≠ []) (htouch : t.tag = .dot → ¬Touches u t v) :
    Succeeds (operator? s₁) fun op s₂ => ∃ i, op = some i ∧
      Read s s₂ u (t :: v) (x ++ [leaf (.op i.name)]) (ts ++ [leaf t.kind]) := by
  have sign : ∀ {text : String} {span : Span} {k : TokenKind}, (∀ {names : Interner} {n : Name},
      names.strings[n.index]? = some text → names.IsOperator n k) →
      Succeeds (signOperator text span s₁) fun op s₂ => ∃ i, op = some i ∧
        Read s s₂ u (t :: v) (x ++ [leaf (.op i.name)]) (ts ++ [leaf k]) := fun hop =>
    ⟨_, _, rfl, _, rfl, h.tokens, h.position, h.split, h.grew.trans (.intern s₁ hop)⟩
  refine h.current_bind ?_
  unfold operatorOf
  cases hk : t.kind with
  | operator name => exact ⟨_, s₁, rfl, _, rfl, h.tokens, h.position, h.split, h.grew.op .operator⟩
  | pipe => exact sign .pipe
  | dot =>
    have hloose := h.isTightDot hu hv (htouch (by rw [Token.tag, hk]; rfl))
    refine Succeeds.bind (P := fun c s₂ => c = false ∧ s₂ = s₁) ⟨_, s₁, rfl, hloose, rfl⟩ ?_
    rintro c s₂ ⟨rfl, rfl⟩
    exact sign .dot
  | _ =>
    rw [hk] at ht
    cases ht

theorem operator_missed (h : Read s s₁ u v x ts) (hv : TagSet.binaryOperator.contains (headTag v) = false) :
    Succeeds (operator? s₁) fun op s₂ => op = none ∧ Read s s₂ u v x ts := by
  have noted : Read s { s₁ with cursor := s₁.cursor.note .binaryOperator } u v x ts := h.stay ⟨rfl, rfl, rfl, rfl⟩
  have hcur : s₁.cursor.current.tag = headTag v := by
    rw [Cursor.current_eq, h.rest]
    cases v <;> rfl
  rw [← hcur, Token.tag] at hv
  show Succeeds (operatorOf s₁.cursor.current s₁) _
  unfold operatorOf
  cases hk : s₁.cursor.current.kind with
  | operator name =>
    rw [hk] at hv
    exact absurd (show TagSet.binaryOperator.contains .operator = false from hv) (by decide)
  | pipe =>
    rw [hk] at hv
    exact absurd (show TagSet.binaryOperator.contains .pipe = false from hv) (by decide)
  | dot =>
    rw [hk] at hv
    exact absurd (show TagSet.binaryOperator.contains .dot = false from hv) (by decide)
  | _ => exact ⟨none, _, rfl, rfl, noted⟩

/-- An application ends before an operator. -/
theorem endsApplication_of_operator (ctx : Context) {t : Token} (v : List Token)
    (ht : t.kind.isOperator = true) : EndsApplication ctx (t :: v) := by
  have htag := TokenKind.binary_of_isOperator ht
  have hends : TagSet.argStart.contains t.tag = false ∧ t.tag ≠ .lbrace := by
    generalize t.tag = tag at htag
    cases tag <;> first | decide | exact absurd htag (by decide)
  exact ⟨hends.1, fun _ => hends.2⟩

theorem joined_succeeds (hr : r.Inverts m) {t : Token} {lhs : ExprId} {op : Ident} {o f : Outline TokenKind}
    (hw : w.length ≤ m + 1) (hrhs : Spells (.application pl) w f) (ht : t.kind.isOperator = true)
    (hv : EndsApplication pl.ctx v) (hpath : EndsPath w v)
    (h : Read s s₁ u (t :: (w ++ v)) [lhs.view, leaf (.op op.name)] [o, leaf t.kind]) :
    Succeeds (joined r pl.ctx lhs op s₁) fun id s₂ =>
      Read s s₂ (u ++ t :: w) v [id.view] [node .binary [o, leaf t.kind, f]] := by
  refine h.advance_bind (Tag.ne_eof_of_isPlain (TokenKind.isPlain_of_isOperator ht)) fun h₁ => ?_
  refine h₁.part_bind (application_yields hr hw hrhs hv hpath) fun {rhs s₂} h₂ => ?_
  refine exprSpan_bind fun _ => exprSpan_bind fun _ => Read.newExpr ?_
  simpa [ExprKind.view] using h₂.wrap .binary

/-- A chain is read operand by operand. -/
theorem exists_chainTurns (hr : r.Inverts m) {p : Part} (h : Spells p u o) (hp : p = .chain pl)
    (hu : u.length ≤ m + 1) (hs : s.cursor.rest = u ++ v) (hv : EndsApplication pl.ctx v)
    (hpath : EndsPath u v) :
    Succeeds (application r pl.ctx s) fun a s₁ => ∃ n b s₂, n < u.length ∧
      Turns (chainTurn r pl.ctx) a s₁ n b s₂ ∧ s₁.cursor.tokens = s.cursor.tokens ∧
        Read s s₂ u v [b.view] [o] := by
  induction h generalizing v with
  | applicationChain happ =>
    cases hp
    refine (application_yields hr hu happ hv hpath s hs).mono fun {a s₁} h => ?_
    exact ⟨0, a, s₁, List.length_pos_iff.2 happ.ne_nil, .refl _ _ _, h.tokens, h⟩
  | @chain pl u t w lhs rhs ht htouch hlhs hrhs ih _ =>
    cases hp
    have hne := hrhs.ne_nil
    rw [List.length_append, List.length_cons] at hu
    have hbetween := endsApplication_of_operator pl.ctx (w ++ v) ht
    have hloose : EndsPath u (t :: (w ++ v)) := by
      rintro d v' e hd htouches
      cases e
      exact htouch hd (htouches.of_append hne)
    rw [List.append_assoc, List.cons_append] at hs
    refine (ih rfl (by omega) hs hbetween hloose).mono ?_
    rintro a s₁ ⟨n, b, s₂, hn, hturns, htokens, h₂⟩
    have hturn : Succeeds (chainTurn r pl.ctx b s₂) fun step s₃ => ∃ b', step = .yield b' ∧
        Read s s₃ (u ++ t :: w) v [b'.view] [node .binary [lhs, leaf t.kind, rhs]] := by
      have hseen := operator_seen h₂ ht hlhs.ne_nil (List.append_ne_nil_of_left_ne_nil hne v)
        fun hd htouches => htouch hd (htouches.of_append hne)
      refine Succeeds.bind hseen ?_
      rintro op s₃ ⟨i, rfl, h₃⟩
      have hjoined := joined_succeeds hr (by omega) hrhs ht hv
        (EndsPath.of_suffix (u := u ++ [t]) (by simpa using hpath)) h₃
      exact Succeeds.bind hjoined fun {id s₄} h₄ => ⟨_, s₄, rfl, id, rfl, h₄⟩
    obtain ⟨_, s₃, hstep, b', rfl, h₃⟩ := hturn
    refine ⟨n + 1, b', s₃, ?_, hturns.snoc hstep, htokens, h₃⟩
    rw [List.length_append, List.length_cons]
    omega
  | _ => cases hp

/-- A chain is read if nothing goes on with it. -/
theorem chain_yields (hr : r.Inverts m) (hu : u.length ≤ m + 1) (h : Spells (.chain pl) u o)
    (hv : EndsChain pl.ctx v) : Yields (chain r pl.ctx) ExprId.view u v o := by
  intro s hs
  have hbound := (Read.start hs).length_lt_bound
  refine Succeeds.bind (exists_chainTurns hr h rfl hu hs hv.toEndsApplication hv.endsPath) ?_
  rintro a s₁ ⟨n, b, s₂, hn, hturns, htokens, h₂⟩
  have hlast : Succeeds (chainTurn r pl.ctx b s₂) fun step s₃ => step = .done b ∧
      Read s s₃ u v [b.view] [o] := by
    refine Succeeds.bind (operator_missed h₂ hv.operator) ?_
    rintro op s₃ ⟨rfl, h₃⟩
    exact ⟨_, s₃, rfl, rfl, h₃⟩
  obtain ⟨_, s₃, hstep, rfl, h₃⟩ := hlast
  have hsame : s₁.bound = s.bound := by rw [State.bound, State.bound, htokens]
  exact ⟨b, s₃, hturns.repeating_eq hstep (by omega), h₃⟩

end Chains

/-! ## Annotations -/

section Annotations

/-- A type is read as far as an annotation goes. -/
theorem ascribed_succeeds (hr : r.Inverts m) {value : ExprId} {i : Token} {o t : Outline TokenKind}
    (hw : w.length ≤ m) (ht : Spells (.arrow pl.annotation) w t) (hv : EndsExpr .annotationType v)
    (h : Read s s₁ (u ++ [i]) (w ++ v) [value.view] [o]) :
    Succeeds (ascribed r value s₁) fun id s₂ => Read s s₂ (u ++ i :: w) v [id.view] [node .ann [o, t]] := by
  refine h.part_bind (hr.arrow hw ht hv) fun {type s₂} h₂ => ?_
  refine exprSpan_bind fun _ => exprSpan_bind fun _ => Read.newExpr ?_
  simpa [ExprKind.view] using h₂.wrap .ann

/-- A row of annotations is read one by one. -/
theorem exists_annotationTurns (hr : r.Inverts m) {p : Part} (h : Spells p u o) (hp : p = .annotated pl)
    (hu : u.length ≤ m + 1) (hs : s.cursor.rest = u ++ v) (hv : EndsChain pl.ctx v)
    (htype : EndsExpr .annotationType v) :
    Succeeds (chain r pl.ctx s) fun a s₁ => ∃ n b s₂, n < u.length ∧
      Turns (annotationTurn r) a s₁ n b s₂ ∧ s₁.cursor.tokens = s.cursor.tokens ∧
        Read s s₂ u v [b.view] [o] := by
  induction h generalizing v with
  | chainAnnotated hchain =>
    cases hp
    refine (chain_yields hr hu hchain hv s hs).mono fun {a s₁} h => ?_
    exact ⟨0, a, s₁, List.length_pos_iff.2 hchain.ne_nil, .refl _ _ _, h.tokens, h⟩
  | @annotated pl i u w value t _ hi _ ht ih _ =>
    cases hp
    rw [List.length_append, List.length_cons] at hu
    rw [List.append_assoc, List.cons_append] at hs
    have hbetween : EndsExpr .annotationType (i :: (w ++ v)) ∧ EndsChain pl.ctx (i :: (w ++ v)) := by
      have hends : ∀ ctx, EndsChain ctx (i :: (w ++ v)) := by
        refine fun ctx => ⟨⟨?_, fun _ => ?_⟩, ?_⟩ <;> rw [headTag_cons, hi] <;> decide
      refine ⟨⟨hends _, fun h => Bool.noConfusion h, ?_, ?_⟩, hends _⟩ <;> rw [headTag_cons, hi] <;> decide
    refine (ih rfl (by omega) hs hbetween.2 hbetween.1).mono ?_
    rintro a s₁ ⟨n, b, s₂, hn, hturns, htokens, h₂⟩
    have hturn : Succeeds (annotationTurn r b s₂) fun step s₃ => ∃ b', step = .yield b' ∧
        Read s s₃ (u ++ i :: w) v [b'.view] [node .ann [value, t]] := by
      refine h₂.accept_yes hi (by decide) fun h₃ => ?_
      exact Succeeds.bind (ascribed_succeeds hr (by omega) ht htype h₃) fun {id s₄} h₄ =>
        ⟨_, s₄, rfl, id, rfl, h₄⟩
    obtain ⟨_, s₃, hstep, b', rfl, h₃⟩ := hturn
    refine ⟨n + 1, b', s₃, ?_, hturns.snoc hstep, htokens, h₃⟩
    rw [List.length_append, List.length_cons]
    omega
  | _ => cases hp

theorem annotationTurn_done {b : ExprId} (h : Read s s₁ u v [b.view] [o]) (hv : headTag v ≠ .kwIs) :
    Succeeds (annotationTurn r b s₁) fun step s₂ => step = .done b ∧ Read s s₂ u v [b.view] [o] :=
  h.accept_no hv fun h => ⟨_, _, rfl, rfl, h⟩

theorem chain_annotated_yields (hr : r.Inverts m) (hu : u.length ≤ m + 1) (h : Spells (.chain pl) u o)
    (hv : EndsChain pl.ctx v) (his : pl.ctx.allowsAnnotation = true → headTag v ≠ .kwIs) :
    Yields (annotated r pl.ctx) ExprId.view u v o := by
  intro s hs
  refine Succeeds.bind (chain_yields hr hu h hv s hs) fun {a s₁} h₁ => ?_
  split
  · rename_i hallows
    obtain ⟨_, s₂, hstep, rfl, h₂⟩ := annotationTurn_done (r := r) h₁ (his hallows)
    exact ⟨a, s₂, (Turns.refl _ a s₁).repeating_eq hstep (Nat.succ_pos _), h₂⟩
  · exact ⟨a, s₁, rfl, h₁⟩

/-- An annotation is read if nothing goes on with it. -/
theorem annotated_yields (hr : r.Inverts m) (hu : u.length ≤ m + 1) (h : Spells (.annotated pl) u o)
    (hv : EndsExpr pl.ctx v) : Yields (annotated r pl.ctx) ExprId.view u v o := by
  cases hallows : pl.ctx.allowsAnnotation with
  | false =>
    cases h with
    | chainAnnotated hchain => exact chain_annotated_yields hr hu hchain hv.toEndsChain hv.annotation
    | annotated ha =>
      rw [hallows] at ha
      cases ha
  | true =>
    intro s hs
    have hbound := (Read.start hs).length_lt_bound
    have htype : EndsExpr .annotationType v := hv.mono (fun h => Bool.noConfusion h) fun h => Bool.noConfusion h
    refine Succeeds.bind (exists_annotationTurns hr h rfl hu hs hv.toEndsChain htype) ?_
    rintro a s₁ ⟨n, b, s₂, hn, hturns, htokens, h₂⟩
    obtain ⟨_, s₃, hstep, rfl, h₃⟩ := annotationTurn_done (r := r) h₂ (hv.annotation hallows)
    have hsame : s₁.bound = s.bound := by rw [State.bound, State.bound, htokens]
    rw [if_pos hallows]
    exact ⟨b, s₃, hturns.repeating_eq hstep (by omega), h₃⟩

end Annotations

/-! ## Function types and sigma types -/

section Arrows

/-- The result of a function type. -/
theorem arrowResult_succeeds (hr : r.Inverts m) {params : ParamSet} {o f : Outline TokenKind}
    (hw : w.length ≤ m) (hresult : Spells (.arrow pl.result) w f) (hv : EndsExpr pl.ctx v)
    (h : Read s s₁ u (w ++ v) [params.view] [o]) :
    Succeeds (arrowResult r pl.ctx params s₁) fun id s₂ => Read s s₂ (u ++ w) v [id.view] [node .pi [o, f]] := by
  refine h.part_bind (hr.arrow hw hresult (hv.mono ?_ ?_)) fun {result s₂} h₂ => ?_
  · simp [Place.result, Context.union, Context.type, Context.allowsBlockCall]
  · simp [Place.result, Context.union, Context.type, Context.allowsAnnotation]
  · refine exprSpan_bind fun _ => Read.newExpr ?_
    simpa [ExprKind.view] using h₂.wrap .pi

theorem sigmaResult_succeeds (hr : r.Inverts m) {params : ParamSet} {o f : Outline TokenKind}
    (hw : w.length ≤ m) (hresult : Spells (.arrow pl.result) w f) (hv : EndsExpr pl.ctx v)
    (h : Read s s₁ u (w ++ v) [params.view] [o]) :
    Succeeds (sigmaResult r pl.ctx params s₁) fun id s₂ =>
      Read s s₂ (u ++ w) v [id.view] [node .sigma [o, f]] := by
  refine h.part_bind (hr.arrow hw hresult (hv.mono ?_ ?_)) fun {result s₂} h₂ => ?_
  · simp [Place.result, Context.union, Context.type, Context.allowsBlockCall]
  · simp [Place.result, Context.union, Context.type, Context.allowsAnnotation]
  · refine exprSpan_bind fun _ => Read.newExpr ?_
    simpa [ExprKind.view] using h₂.wrap .sigma

/-- What was read as a value is a type after all. -/
theorem toType_bind {Q : α → State → Prop} {id : ExprId} {t : Outline TokenKind} {g : Unit → Parse α}
    (h : Read s s₁ u v [id.view] [o]) (ht : o.asType = some t)
    (next : ∀ {s₂}, Read s s₂ u v [id.view] [t] → Succeeds (g () s₂) Q) :
    Succeeds ((toType id >>= g) s₁) Q := by
  rcases h.grew.toType with ⟨o', s₂, ho, hs, hcursor, grew⟩ | ⟨_, _, ho, -⟩
  · rw [ht] at ho
    cases ho
    rw [bind_of_ok hs]
    exact next ⟨by rw [hcursor, h.tokens], by rw [hcursor, h.position], h.split, grew⟩
  · rw [ht] at ho
    cases ho

/-- The domain of a function type without parameters can be read where the function type stands. -/
theorem exists_domain_value (h : Spells (.chain pl.domain) u o) :
    ∃ value, Spells (.chain ⟨pl.ctx, false⟩) u value ∧ value.asType = some o := by
  obtain ⟨⟨inType, noBlockCall, noAnnotation⟩, lambdas⟩ := pl
  cases inType with
  | true =>
    have hsame : Place.domain ⟨⟨true, noBlockCall, noAnnotation⟩, lambdas⟩ =
        ⟨⟨true, noBlockCall, noAnnotation⟩, false⟩ := by
      simp [Place.domain, Context.union, Context.type]
    exact ⟨o, hsame ▸ h, h.asType_eq rfl⟩
  | false =>
    have hsame : (Part.chain (Place.domain ⟨⟨false, noBlockCall, noAnnotation⟩, lambdas⟩)).inValue =
        .chain ⟨⟨false, noBlockCall, noAnnotation⟩, false⟩ := by
      simp [Part.inValue, Place.inValue, Place.domain, Context.union, Context.type]
    obtain ⟨value, hv, ht⟩ := h.asValue rfl rfl
    exact ⟨value, hsame ▸ hv, ht⟩

theorem answers_look {q : Cursor → Bool} {c : Bool} (h : q s.cursor = c) : Answers (look q) s c :=
  ⟨s, by rw [← h]; rfl, .refl s⟩

theorem startsParamList_eq (c : Cursor) : startsParamList c =
    (headTag c.rest == .lbrace && groupThen .arrow c.rest || headTag c.rest == .lparen && holdsParams c.rest) := by
  rw [startsParamList, Cursor.isAt_eq, Cursor.isAt_eq, Cursor.groupFollowedBy_eq, Cursor.isParamList_eq]

theorem startsSigma_eq (c : Cursor) :
    startsSigma c = (headTag c.rest == .lbracket && groupThen .fatArrow c.rest) := by
  rw [startsSigma, Cursor.isAt_eq, Cursor.groupFollowedBy_eq]

/-- An expression that begins with an operand does not begin with parameters. -/
theorem not_startsParamList {p : Part} (h : Spells p u o) (hp : p.operandPlace? = some pl)
    (hs : s.cursor.rest = u ++ v) : startsParamList s.cursor = false := by
  obtain ⟨w, w', f, rfl, hw, -⟩ := h.first_operand hp
  have hbrace : headTag w ≠ .lbrace := hw.headTag_ne (by simp only [Part.starts]; decide)
  rw [startsParamList_eq, hs, headTag_append h.ne_nil, headTag_append hw.ne_nil, beq_false_of_ne hbrace]
  by_cases hparen : headTag w = .lparen
  · rw [h.not_holdsParams hp (by rw [headTag_append hw.ne_nil, hparen]; rfl)]
    simp
  · rw [beq_false_of_ne hparen]
    rfl

theorem not_startsSigma {p : Part} (h : Spells p u o) (hp : p.operandPlace? = some pl)
    (hv : headTag v ≠ .fatArrow) (hs : s.cursor.rest = u ++ v) : startsSigma s.cursor = false := by
  rw [startsSigma_eq, hs, headTag_append h.ne_nil]
  by_cases hbracket : headTag u = .lbracket
  · rw [h.not_groupThen hp (by rw [hbracket]; rfl) hv, Bool.and_false]
  · rw [beq_false_of_ne hbracket, Bool.false_and]

/-- What begins with an operand is read as such where an arrow might come. -/
theorem domainArrow_bind (pl : Place) {Q : ExprId → State → Prop} {p : Part} (h : Spells p u o)
    (hp : p.operandPlace? = some pl) (hv : headTag v ≠ .fatArrow) (hs : s.cursor.rest = u ++ v)
    (hyields : Yields (annotated r pl.ctx) ExprId.view u v o)
    (next : ∀ {id s₁}, Read s s₁ u v [id.view] [o] → Succeeds ((accept .arrow >>= fun c =>
      if c = true then domainResult r pl.ctx id else pure id) s₁) Q) :
    Succeeds (arrow r pl.ctx s) Q := by
  refine (Read.start hs).no (answers_look (not_startsParamList h hp hs)) fun h₁ => ?_
  refine Succeeds.bind (P := fun id s₂ => Read s s₂ u v [id.view] [o]) ?_ next
  refine h₁.no (answers_look (not_startsSigma h hp hv (h₁.rest))) fun h₂ => h₂.part hyields

/-- Parameters, an arrow and a result. -/
theorem paramsArrow_succeeds (hr : r.Inverts m) {k : ParamSetKind} {a : Token} {params f : Outline TokenKind}
    (hu : u.length ≤ m + 1) (hw : w.length ≤ m) (hparams : Spells (.params k pl.lambdas) u params)
    (ha : a.tag = .arrow) (hresult : Spells (.arrow pl.result) w f) (hv : EndsExpr pl.ctx v)
    (hs : s.cursor.rest = u ++ a :: w ++ v) (hstarts : startsParamList s.cursor = true) :
    Succeeds (arrow r pl.ctx s) fun id s₁ => Read s s₁ (u ++ a :: w) v [id.view] [node .pi [params, f]] := by
  rw [List.append_assoc, List.cons_append] at hs
  refine (Read.start hs).yes (answers_look hstarts) fun h₁ => ?_
  refine h₁.part_bind (paramSet_yields hr hu hparams) fun {set s₂} h₂ => ?_
  refine h₂.expect_bind ha (by decide) fun h₃ => ?_
  refine (arrowResult_succeeds hr hw hresult hv h₃).mono fun h => ?_
  simpa using h

/-- A domain that is no parameter list, as the only parameter. -/
theorem domainParams_read {id : ExprId} {span : Span} (hs : s.cursor.rest = u ++ v)
    (h : Read s s₁ u v [id.view] [o]) :
    Read s s₁ u v [(domainParams id span).view] [Outline.domain o] := by
  simpa [domainParams, ParamSet.view, Param.view, ParamKind.view, partOf, rowOf, Outline.domain] using
    ((((Read.start hs).wrap .row).trans h).wrap .typed).wrap (.params .domain)

/-- An expression that is no lambda is read if nothing goes on with it. -/
theorem arrow_yields (hr : r.Inverts m) (hu : u.length ≤ m + 1) (h : Spells (.arrow pl) u o)
    (hv : EndsExpr pl.ctx v) : Yields (arrow r pl.ctx) ExprId.view u v o := by
  intro s hs
  cases h with
  | annotatedArrow ha =>
    refine domainArrow_bind pl ha rfl hv.fatArrow hs (annotated_yields hr hu ha hv) fun h₁ => ?_
    exact h₁.accept_no hv.arrow fun h₂ => ⟨_, _, rfl, h₂⟩
  | @sigma _ f u w params result hf hparams hresult =>
    rw [List.length_append, List.length_cons] at hu
    rw [List.append_assoc, List.cons_append] at hs
    have hopen : headTag u = .lbracket := (Part.eq_opening hparams.starts).symm
    obtain ⟨m', hencloses, -⟩ := hparams.encloses_params
    have hparamList : startsParamList s.cursor = false := by
      rw [startsParamList_eq, hs, headTag_append hparams.ne_nil, hopen]
      rfl
    have hsigma : startsSigma s.cursor = true := by
      rw [startsSigma_eq, hs, headTag_append hparams.ne_nil, hopen, hencloses.groupThen_eq, headTag_cons, hf]
      rfl
    refine (Read.start hs).no (answers_look hparamList) fun {s₁} h₁ => ?_
    refine Succeeds.bind (P := fun id s₂ =>
      Read s s₂ (u ++ f :: w) v [id.view] [node .sigma [params, result]]) ?_ fun h => ?_
    · have hsame : s₁.cursor.rest = s.cursor.rest := h₁.rest.trans hs.symm
      rw [startsSigma_eq, ← hsame, ← startsSigma_eq] at hsigma
      refine h₁.yes (answers_look hsigma) fun h₂ => ?_
      refine h₂.part_bind (paramSet_yields hr (by omega) hparams) fun {set s₃} h₃ => ?_
      refine h₃.expect_bind hf (by decide) fun h₄ => ?_
      refine (sigmaResult_succeeds hr (by omega) hresult hv h₄).mono fun h => ?_
      simpa using h
    · exact h.accept_no hv.arrow fun h => ⟨_, _, rfl, h⟩
  | @domain _ a u w type result ha hdomain hresult =>
    rw [List.length_append, List.length_cons] at hu
    rw [List.append_assoc, List.cons_append] at hs
    obtain ⟨value, hvalue, htype⟩ := exists_domain_value hdomain
    have hbehind : EndsChain pl.ctx (a :: (w ++ v)) := by
      refine ⟨⟨?_, fun _ => ?_⟩, ?_⟩ <;> rw [headTag_cons, ha] <;> decide
    have his : pl.ctx.allowsAnnotation = true → headTag (a :: (w ++ v)) ≠ .kwIs := by
      intro _
      rw [headTag_cons, ha]
      decide
    refine domainArrow_bind ⟨pl.ctx, false⟩ hvalue rfl (by rw [headTag_cons, ha]; decide) hs
      (chain_annotated_yields hr (by omega) hvalue hbehind his) fun {id s₁} h₁ => ?_
    have hs' : s.cursor.rest = u ++ [a] ++ (w ++ v) := by simpa using hs
    refine h₁.accept_yes ha (by decide) fun h₂ => toType_bind h₂ htype fun {s₃} h₃ => exprSpan_bind fun _ => ?_
    refine (arrowResult_succeeds hr (by omega) hresult hv (domainParams_read hs' h₃)).mono fun h => ?_
    simpa using h
  | @implicitParams _ a u w params result ha hparams hresult =>
    rw [List.length_append, List.length_cons] at hu
    have hopen : headTag u = .lbrace := (Part.eq_opening hparams.starts).symm
    obtain ⟨m', hencloses, -⟩ := hparams.encloses_params
    refine paramsArrow_succeeds hr (by omega) (by omega) hparams ha hresult hv hs ?_
    rw [startsParamList_eq, hs, List.append_assoc, headTag_append hparams.ne_nil, hopen,
      hencloses.groupThen_eq, List.cons_append, headTag_cons, ha]
    rfl
  | @explicitParams _ a u w params result ha hsome hparams hresult =>
    rw [List.length_append, List.length_cons] at hu
    have hopen : headTag u = .lparen := (Part.eq_opening hparams.starts).symm
    obtain ⟨m', hencloses, htyped⟩ := hparams.encloses_params
    refine paramsArrow_succeeds hr (by omega) (by omega) hparams ha hresult hv hs ?_
    have hholds : (headTag u.tail == .quote || occursIn .colon m' 0) = true := by
      rcases hsome with hquote | hany
      · rw [hquote]
        rfl
      · rw [htyped hany, Bool.or_true]
    rw [startsParamList_eq, hs, List.append_assoc, headTag_append hparams.ne_nil, hopen,
      hencloses.holdsParams_eq, hholds, List.cons_append, headTag_cons, ha]
    rfl

end Arrows

/-! ## Expressions -/

section Exprs

/-- An expression is read if nothing goes on with it. -/
theorem lambda_yields (hr : r.Inverts m) (hu : u.length ≤ m + 1) (h : Spells (.expr pl) u o)
    (hv : EndsExpr pl.ctx v) : Yields (lambda r pl.ctx) ExprId.view u v o := by
  intro s hs
  cases h with
  | arrowExpr ha =>
    have hask := (Read.start hs).check .pipe
    rw [headTag_append ha.ne_nil, beq_false_of_ne (ha.headTag_ne (by simp only [Part.starts]; decide))] at hask
    exact (Read.start hs).no hask fun h => h.part (arrow_yields hr hu ha hv)
  | @lambda _ p q u w as body _ hp hq hne hatoms hd hbody =>
    obtain ⟨xs, rfl, rfl, hxs⟩ := exists_pieces exists_atom hatoms
    have hne' : xs ≠ [] := by
      rintro rfl
      exact hne rfl
    simp only [List.length_cons, List.length_append] at hu
    have hall : p :: (xs.flatMap Piece.tokens ++ q :: w) ++ v =
        p :: (xs.flatMap Piece.tokens ++ (q :: (w ++ v))) := by simp
    rw [hall] at hs
    have hask := (Read.start hs).check .pipe
    rw [headTag_cons, hp, beq_self_eq_true] at hask
    have hdot : headTag (q :: (w ++ v)) ≠ .dot := by
      rw [headTag_cons, hq]
      decide
    refine (Read.start hs).yes hask fun h₁ => h₁.advance_bind (by rw [hp]; decide) fun {s₂} h₂ => ?_
    have hrow : Rowed (isBefore .pipe) atom PatternId.view s₂ [] xs (q :: (w ++ v)) := by
      refine ⟨?_, ?_, fun h => by simpa [hq] using h.isBefore .pipe⟩
      · rintro ys z zs rfl s₁ x ts hread
        have hz := hxs z (by simp)
        have := hread.isBefore .pipe
        rwa [headTag_append (hz.ne_nil rfl), bne_iff_ne.2 (hz.headTag_atom_ne (by decide))] at this
      · rintro ys z zs rfl
        refine atom_yields (hxs z (by simp)) (hd.mono ?_) (headTag_pieces (P := (· ≠ .dot)) (fun y hy => ?_) hdot)
        · exact ⟨ys.flatMap Piece.tokens, zs.flatMap Piece.tokens, by simp⟩
        · have hatom := hxs y (by simp [hy])
          exact ⟨hatom.ne_nil rfl, hatom.headTag_atom_ne (by decide)⟩
    refine h₂.again.many_bind hrow (fun y hy => (hxs y hy).ne_nil rfl) fun {params s₃} hparams h₃ => ?_
    cases params with
    | nil => exact absurd (List.eq_nil_of_length_eq_zero hparams.symm) hne'
    | cons a as =>
      refine (h₂.trans (h₃.wrap .row)).advance_bind (by rw [hq]; decide) fun h₄ => ?_
      refine h₄.part_bind (hr.expr (by omega) hbody hv) fun {body s₅} h₅ => ?_
      refine exprSpan_bind fun _ => Read.newExpr ?_
      simpa [ExprKind.view, rowOf] using h₅.wrap .lambda

/-- The rules give back every expression that has no more tokens than they may nest. -/
theorem rules_inverts (m : Nat) : (rules m).Inverts m := by
  induction m with
  | zero =>
    have never : ∀ {p : Part} {u : List Token} {o : Outline TokenKind}, u.length ≤ 0 → ¬Spells p u o :=
      fun hu h => h.ne_nil (List.eq_nil_of_length_eq_zero (Nat.le_zero.1 hu))
    exact ⟨fun hu h _ => absurd h (never hu), fun hu h _ => absurd h (never hu)⟩
  | succ m ih => exact ⟨fun hu h hv => lambda_yields ih hu h hv, fun hu h hv => arrow_yields ih hu h hv⟩

end Exprs

end SolSyntax.Grammar

namespace SolSyntax

open Grammar
open Outline (leaf node)

/-- The names of the operators in a tree spell neither of the signs that are operators as well. -/
def Interner.NamesOperators (names : Interner) (o : Outline TokenKind) : Prop :=
  ∀ n, TokenKind.operator n ∈ o.leaves →
    ∃ text, names.strings[n.index]? = some text ∧ text ≠ "|" ∧ text ≠ "."

theorem Interner.NamesOperators.operatorKind_eq {names more : Interner} {o : Outline TokenKind}
    (h : names.NamesOperators o) (hk : names.Kept more) {n : Name}
    (hn : TokenKind.operator n ∈ Outline.leavesAll [o]) : more.operatorKind n = .operator n := by
  obtain ⟨text, htext, hpipe, hdot⟩ := h n (by simpa using hn)
  have hlookup : more.lookup n = text := by
    simp [Interner.lookup, Array.getD_eq_getD_getElem?, hk _ _ htext]
  rw [Interner.operatorKind, hlookup, if_neg hpipe, if_neg hdot]

/-- However a tree is written, a reader gives it back: it stops just behind the tokens of the tree and
has stored the tree, and nothing else. -/
def ReadsBack (p : Parse ExprId) (part : Part) (ctx : Context) (o : Outline TokenKind) : Prop :=
  ∀ u r s, Spells part u o → EndsExpr ctx r → s.cursor.rest = u ++ r →
    ∃ id s', p s = .ok id s' ∧ s'.cursor.tokens = s.cursor.tokens ∧
      s'.cursor.position = s.cursor.position + u.length ∧ Grew s s' [id.view] [o] ∧
      (s.names.NamesOperators o → s'.arena.read s'.names id.view = o)

theorem readsBack_of_yields {p : Rules → Parse ExprId} {part : Part} {ctx : Context}
    {o : Outline TokenKind} (h : ∀ {u r n}, u.length ≤ n → Spells part u o → EndsExpr ctx r →
      Yields (p (rules n)) ExprId.view u r o) : ReadsBack (Reader.ofRules p) part ctx o := by
  intro u r s hu hr hs
  have hbound := (Read.start hs).length_lt_bound
  obtain ⟨id, s', hp, hread⟩ := h (Nat.le_of_lt hbound) hu hr s hs
  refine ⟨id, s', hp, hread.tokens, hread.position, hread.grew, fun hnames => ?_⟩
  have hview := hread.grew.stores.read fun n hn => hnames.operatorKind_eq hread.grew.names hn
  rw [List.map_singleton, List.singleton_inj] at hview
  exact hview

/-- **The readers of expressions invert the grammar.**  Every expression can be written, and however it is
written, if nothing behind it goes on with it, the reader gives back just this expression. -/
theorem expressions_read_back (pl : Place) (o : Outline TokenKind) :
    (Tree (.expr pl) o → (∃ u, Spells (.expr pl) u o) ∧
      ReadsBack (Reader.ofRules (Rules.expr · pl.ctx)) (.expr pl) pl.ctx o) ∧
    (Tree (.arrow pl) o → (∃ u, Spells (.arrow pl) u o) ∧
      ReadsBack (Reader.ofRules (Rules.arrow · pl.ctx)) (.arrow pl) pl.ctx o) :=
  ⟨fun h => ⟨tree_iff_spells.1 h, readsBack_of_yields fun hn => (rules_inverts _).expr hn⟩,
    fun h => ⟨tree_iff_spells.1 h, readsBack_of_yields fun hn => (rules_inverts _).arrow hn⟩⟩

/-- `(x : U) -> x x is U` is a function type, and its result an annotated application of a type. -/
theorem typed_arrow_read_back :
    let x := TokenKind.ident .empty
    let kinds := [.lparen, x, .colon, .kwUniverse, .rparen, .arrow, x, x, .kwIs, .kwUniverse]
    let path := node .path [leaf x]
    let univ := node .univ [leaf .kwUniverse]
    let tokens := TokenList.ofTokens (kinds.map TokenKind.token ++ [TokenKind.eof.token])
    ∃ id s', Reader.expr (.start tokens .new) = .ok id s' ∧
      s'.cursor.position = kinds.length ∧ s'.arena.read s'.names id.view =
        node .pi [node (.params .explicit) [node .typed [node .row [node .constructorPattern
          [path, node .row []]], univ]], node .ann [node .typeApp [path, path], univ]] := by
  intro x kinds path univ tokens
  have hpath : Derives .path [x.token] [path] := .path (.ident rfl) (.starNil _)
  have hdots : DotsTouch [x.token] := (Packed.token x).dotsTouch
  have operand : ∀ {pl}, Spells (.operand pl) [x.token] path := .path hpath hdots
  have type : ∀ {pl}, Spells (.arrow pl) [TokenKind.kwUniverse.token] univ :=
    .annotatedArrow (.chainAnnotated (.applicationChain (.operandApplication (.univ rfl))))
  let entry : Piece := ⟨[x.token, TokenKind.colon.token, TokenKind.kwUniverse.token],
    node .typed [node .row [node .constructorPattern [path, node .row []]], univ]⟩
  have hentry : Spells (.param .explicit true) entry.tokens entry.outline :=
    .typedParam (u := [x.token]) (.atomPattern (.pathPattern hpath)) hdots rfl type
  have hparams : Spells (.params .explicit true)
      (TokenKind.lparen.token :: ([] ++ (entry.tokens ++ []) ++ [TokenKind.rparen.token]))
      (node (.params .explicit) [entry.outline]) :=
    .params rfl rfl .nil (List.cons_ne_nil entry []) (.last .nil) (List.forall_mem_singleton.2 hentry)
  have happ : Spells (.application (Place.result ⟨.none, true⟩)) [x.token, x.token] (node .typeApp [path, path]) :=
    .application (List.cons_ne_nil ⟨[x.token], path⟩ []) operand (List.forall_mem_singleton.2 operand)
  have hresult : Spells (.arrow (Place.result ⟨.none, true⟩)) [x.token, x.token, TokenKind.kwIs.token,
      TokenKind.kwUniverse.token] (node .ann [node .typeApp [path, path], univ]) :=
    .annotatedArrow (.annotated rfl rfl (.chainAnnotated (.applicationChain happ)) type)
  have hu : Spells (.expr ⟨.none, true⟩) (kinds.map TokenKind.token) _ :=
    .arrowExpr (.explicitParams (TokenKind.tag_token .arrow) (.inr rfl) hparams hresult)
  have hends : EndsExpr .none [TokenKind.eof.token] := by
    refine ⟨⟨⟨?_, fun _ => ?_⟩, ?_⟩, fun _ => ?_, ?_, ?_⟩ <;> decide
  obtain ⟨-, hback⟩ := (expressions_read_back ⟨.none, true⟩ _).1 hu.tree
  obtain ⟨id, s', hp, -, hpos, -, hread⟩ :=
    hback _ [TokenKind.eof.token] (.start tokens .new) hu hends rfl
  refine ⟨id, s', hp, hpos.trans rfl, hread fun n hn => ?_⟩
  simp [x, path, univ, entry] at hn

end SolSyntax
