import SolSyntax.Proofs.Asking

/-!
# What declarations ask for

A declaration asks for nothing at all beside its brackets that is never asked for; one that is no clause asks for
no `=` there.  So the line on which it ends goes on in vain.

Principal results: the instances of `Calm` for declarations.
-/

-- instances are long terms, as productions have many steps
set_option synthInstance.maxSize 2000

namespace SolSyntax

namespace TagSet

instance : Beside [] .declStart := ⟨by decide⟩
instance : Beside [.eq] .declStart := ⟨by decide⟩
instance : Plain (.single .docString) := .single rfl
instance : Plain (.single .atSign) := .single rfl
instance : Plain (.single .hash) := .single rfl
instance : Plain (.single .kwUsing) := .single rfl
instance : Plain (.single .kwInductive) := .single rfl
instance : Beside [] (.single .docString) := ⟨by decide⟩
instance : Beside [] (.single .atSign) := ⟨by decide⟩
instance : Beside [] (.single .hash) := ⟨by decide⟩
instance : Beside [] (.single .kwUsing) := ⟨by decide⟩
instance : Beside [] (.single .kwInductive) := ⟨by decide⟩

end TagSet

namespace Grammar

open Parse

/-- A visibility is taken; any other token is left. -/
theorem visibility_cases (s : State) :
    (∃ v, s.cursor.currentTag.isVisibility = true ∧
      visibility s = .ok (some v) (s.moved (s.cursor.position + 1))) ∨
    s.cursor.currentTag.isVisibility = false ∧ visibility s = .ok none s := by
  show (∃ v, _ ∧ visibilityOf s.cursor.current s = _) ∨ _ ∧ visibilityOf s.cursor.current s = _
  unfold visibilityOf
  have htag := currentTag_eq_tag s.cursor
  rw [Token.tag] at htag
  cases hk : s.cursor.current.kind <;> rw [hk] at htag <;> simp only [TokenKind.tag] at htag <;>
    first
    | exact .inr ⟨by rw [htag]; rfl, rfl⟩
    | refine .inl ⟨_, ?_, (bind_of_ok (advance_of_not_isAtEnd ?_)).trans rfl⟩
      · rw [htag]; rfl
      · rw [Cursor.isAtEnd, Cursor.isAt, htag]; rfl

namespace Calm

variable {p : Spot} {avoid : List Tag} {r : Rules} [h : r.Calm p]

/-! ## What stands before a declaration -/

omit h in
instance [OfOutside avoid] {q : Parse ExprId} [Calm p [] q] : Calm p avoid (optionalArgs q) := by
  unfold optionalArgs; infer_instance

instance : CalmOn p [] (.single .atSign) (attr r) := by unfold attr; infer_instance

theorem attachmentOf (token : Token) : CalmOn p [] (.single token.tag) (attachmentOf r token) := by
  obtain ⟨kind, _, _⟩ := token
  unfold Grammar.attachmentOf
  cases kind <;> simp only [Token.tag, TokenKind.tag] <;> infer_instance

instance : Calm p [] (attachment r) := by
  unfold attachment
  exact .of_current attachmentOf

instance : Calm p [] (attributes r) := by unfold attributes; infer_instance

omit h in
instance : Calm p [] visibility := by
  refine ⟨fun s => ?_⟩
  obtain ⟨v, hv, hrun⟩ | ⟨-, hrun⟩ := visibility_cases s
  · have hplain : s.cursor.currentTag.isPlain = true := by
      revert hv
      cases s.cursor.currentTag <;> decide
    have hstep : advance s = .ok s.cursor.current (s.moved (s.cursor.position + 1)) :=
      advance_of_not_isAtEnd (beq_false_of_ne (Tag.ne_eof_of_isPlain hplain))
    have hadvance : CalmFrom p [] advance s := .advance hplain nofun
    have hcalm : CalmFrom p [] (advance >>= fun _ => pure (some v)) s := hadvance.bind fun _ _ _ => .still rfl rfl
    refine hcalm.of_eq ?_
    rw [hrun, bind_of_ok hstep]
    rfl
  · exact .still hrun rfl

/-! ## The forms of declarations -/

omit h in
instance [OfOutside avoid] : Calm p avoid startsDeclParams := by unfold startsDeclParams; infer_instance

instance [OfOutside avoid] : Calm p avoid (declParams r) := by unfold declParams; infer_instance

omit h in
instance : CalmOn p [] (.single .kwUsing) usingDecl := by unfold usingDecl; infer_instance

instance : Calm p [] (commandArgs r) := by unfold commandArgs; infer_instance
instance : Calm p [] (lineArgs r) := by unfold lineArgs; infer_instance
instance : CalmOn p [] (.single .hash) (commandDecl r) := by unfold commandDecl; infer_instance
instance : Calm p [] (constructorKind r) := by unfold constructorKind; infer_instance
instance : Calm p [] (constructor r) := by unfold constructor; infer_instance
instance : CalmOn p [] (.single .kwInductive) (inductiveDecl r) := by unfold inductiveDecl; infer_instance

instance [OfOutside avoid] [TagSet.Beside avoid (.single .colon)] : Calm p avoid (signatureDecl r) := by
  unfold signatureDecl; infer_instance

instance : Calm p [] (clauseDecl r) := by
  have value (name : Path) : Calm p [] (many (optionally (isBefore .eq) atom) >>= fun patterns => advance >>= fun _ =>
      optionally (look continuesLine) (within .clauseValue r.value) >>= fun value =>
        pure (DeclKind.clause name patterns value)) := by
    refine ⟨fun s => (Calm.calm s).bind fun patterns s₁ hpatterns => ?_⟩
    have behind : CalmOn p [] (.single .eq) (advance >>= fun _ =>
      optionally (look continuesLine) (within .clauseValue r.value) >>= fun value =>
        pure (DeclKind.clause name patterns value)) := inferInstance
    refine behind.calm s₁ ?_
    rw [many_isBefore hpatterns]
    rfl
  unfold clauseDecl
  infer_instance

instance : Calm p [] (namedDecl r) := by unfold namedDecl; infer_instance

instance (tag : Tag) : CalmOn p [] (.single tag) (declKindOf r tag) := by
  unfold declKindOf
  split <;> infer_instance

instance : Calm p [] (declKind r) := by
  refine ⟨fun s => ?_⟩
  have calm : CalmOn p [] (.single s.cursor.currentTag) (declKindOf r s.cursor.currentTag) := inferInstance
  exact (calm.calm s (TagSet.contains_single_self _)).of_eq rfl

instance (start : Span) (attrs : Attributes) : Calm p [] (attributed r start attrs) := by
  unfold attributed; infer_instance

instance : Calm p [] (decl r) := by unfold decl; infer_instance

end Calm

end Grammar

end SolSyntax
