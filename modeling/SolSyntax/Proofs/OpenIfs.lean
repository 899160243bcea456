import SolSyntax.Proofs.Steering
import SolSyntax.Proofs.Taking

/-!
# Values are no open `if`s

Only a statement can be an `if` without `else`.  A value that is an `if` has been read as one, with its
`else` and with nothing behind it: whatever takes an expression as a part makes one of another form, and
what hands on an expression stores nothing after it.

Principal results: `lambda_leadingIf` — a value is an `if` that was read alone, or another form;
`rules_shut` — no reader of values or types gives an open `if`.
-/

namespace SolSyntax

/-- Whether an expression is an `if`. -/
def ExprKind.isCond : ExprKind → Bool
  | .cond .. => true
  | _ => false

/-- Whether a stored expression is an `if`. -/
def Arena.isCond (a : Arena) (id : ExprId) : Bool := (a.expr? id).any fun e => e.kind.isCond

namespace Grammar

open Parse

variable {r : Rules} {ctx : Context} {s t : State} {id : ExprId}

/-- The expression is no open `if`. -/
def IsShut (id : ExprId) (s : State) : Prop := s.arena.gists[id.index]? ≠ some .openIf

theorem IsShut.of_arena (h : IsShut id s) (ha : t.arena = s.arena) : IsShut id t := by rwa [IsShut, ha]

/-- A step that gives an expression other than an `if`. -/
class NoIf (p : Parse ExprId) : Prop where
  isCond : ∀ {s id t}, p s = .ok id t → t.arena.isCond id = false

namespace NoIf

instance {p : Parse α} {f : α → Parse ExprId} [hf : ∀ a, NoIf (f a)] : NoIf (p >>= f) := by
  refine ⟨fun h => ?_⟩
  obtain ⟨a, _, -, h⟩ := bind_eq_ok.1 h
  exact (hf a).isCond h

instance {p q : Parse ExprId} [NoIf p] [NoIf q] {c : Prop} [Decidable c] : NoIf (if c then p else q) := by
  split <;> infer_instance

instance (set : TagSet) (c : Complaint) : NoIf (failWanting set c) := ⟨nofun⟩
instance (c : Complaint) : NoIf (fail c) := ⟨nofun⟩

/-- A new expression of another form. -/
theorem newExpr {kind : ExprKind} (h : kind.isCond = false) (span : Span) : NoIf (newExpr kind span) := by
  refine ⟨fun {s _ _} e => ?_⟩
  cases e
  have hstored := s.arena.expr?_newExpr ⟨kind, span⟩
  exact (congrArg (Option.any fun e : Expr => e.kind.isCond) hstored).trans h

section

variable (span : Span) (a b : ExprId)

instance (l : Literal) : NoIf (Grammar.newExpr (.literal l) span) := newExpr rfl span
instance (p : Path) : NoIf (Grammar.newExpr (.path p) span) := newExpr rfl span
instance (i : Ident) : NoIf (Grammar.newExpr (.freeVar i) span) := newExpr rfl span
instance : NoIf (Grammar.newExpr .univ span) := newExpr rfl span
instance (as : List ExprId) : NoIf (Grammar.newExpr (.array as) span) := newExpr rfl span
instance (arms : List MatchArm) : NoIf (Grammar.newExpr (.cases a arms) span) := newExpr rfl span
instance (value : Option ExprId) : NoIf (Grammar.newExpr (.ret value) span) := newExpr rfl span
instance (op : Ident) : NoIf (Grammar.newExpr (.binary a op b) span) := newExpr rfl span
instance : NoIf (Grammar.newExpr (.ann a b) span) := newExpr rfl span
instance (params : ParamSet) : NoIf (Grammar.newExpr (.sigma params a) span) := newExpr rfl span
instance (params : ParamSet) : NoIf (Grammar.newExpr (.pi params a) span) := newExpr rfl span
instance (params : List PatternId) : NoIf (Grammar.newExpr (.lambda params a) span) := newExpr rfl span

instance (items : List ExprId) (trailingComma : Bool) :
    NoIf (Grammar.newExpr (groupOrTuple items trailingComma) span) :=
  newExpr (by unfold groupOrTuple; split <;> rfl) span

instance (ctx : Context) (args : List ExprId) (block : Option Block) :
    NoIf (Grammar.newExpr (applicationKind ctx a args block) span) :=
  newExpr (by unfold applicationKind; split <;> rfl) span

end

end NoIf

/-! ## Rows without an item -/

theorem optionally_none {test : Parse Bool} [Quiet test] {p : Parse α}
    (h : optionally test p s = .ok none t) : t.arena = s.arena := by
  unfold optionally at h
  obtain ⟨c, s₁, h₁, h⟩ := bind_eq_ok.1 h
  have harena := Quiet.arena (p := test) s
  rw [h₁] at harena
  split at h
  · obtain ⟨_, _, -, h⟩ := bind_eq_ok.1 h
    cases h
  · cases h
    exact harena

/-- Nothing has been stored if no item was found. -/
theorem many_nil {item : Parse (Option α)} (hitem : ∀ {s t}, item s = .ok none t → t.arena = s.arena)
    (h : many item s = .ok [] t) : t.arena = s.arena := by
  unfold many at h
  obtain ⟨items, s₁, h₁, h⟩ := bind_eq_ok.1 h
  obtain ⟨hitems, rfl⟩ : items.reverse = [] ∧ s₁ = t := by
    injection h with hitems ht
    exact ⟨hitems, ht⟩
  refine repeating_invariant (I := fun items u => items = [] → u.arena = s.arena)
    (Q := fun items u => items = [] → u.arena = s.arena) ?_ (fun _ => rfl) h₁ (List.reverse_eq_nil_iff.1 hitems)
  intro items u step v hI hturn
  unfold manyTurn at hturn
  obtain ⟨o, u₁, ho, hturn⟩ := bind_eq_ok.1 hturn
  cases o with
  | none =>
    cases hturn
    exact fun e => (hitem ho).trans (hI e)
  | some a =>
    cases hturn
    exact nofun

/-! ## Values that are an `if` -/

/-- What has been read from `s` to `t`: an `if` and nothing else, or an expression of another form. -/
inductive LeadingIf (r : Rules) (ctx : Context) (s : State) (id : ExprId) (t : State) : Prop
  | alone {s₁ t₁ : State} : s.cursor.currentTag = .kwIf → Moved 0 s s₁ →
      conditional r ctx .expr s₁ = .ok id t₁ → Moved 0 t₁ t → LeadingIf r ctx s id t
  | other : t.arena.isCond id = false → LeadingIf r ctx s id t

namespace LeadingIf

variable {u : State}

theorem start (m : Moved 0 s t) (h : LeadingIf r ctx t id u) : LeadingIf r ctx s id u := by
  cases h with
  | alone htag m' hc hm => exact .alone (m.currentTag ▸ htag) (m.trans m') hc hm
  | other h => exact .other h

theorem stay (h : LeadingIf r ctx s id t) (m : Moved 0 t u) : LeadingIf r ctx s id u := by
  cases h with
  | alone htag m' hc hm => exact .alone htag m' hc (hm.trans m)
  | other h => exact .other (by rw [m.arena]; exact h)

end LeadingIf

theorem isClosedForm_ok {c : Bool} (h : isClosedForm id s = .ok c t) :
    t = s ∧ (c = false → s.arena.isCond id = false) := by
  unfold isClosedForm at h
  unfold Arena.isCond
  cases he : s.arena.expr? id with
  | none =>
    cases h
    exact ⟨rfl, fun _ => rfl⟩
  | some e =>
    obtain ⟨kind, span⟩ := e
    rw [he] at h
    cases kind <;> cases h <;> exact ⟨rfl, fun h => by first | rfl | cases h⟩

/-- Where there is no operator nothing changes. -/
theorem operator?_none (h : operator? s = .ok none t) : Moved 0 s t := by
  change operatorOf s.cursor.current s = .ok none t at h
  generalize s.cursor.current = token at h
  obtain ⟨kind, span, position⟩ := token
  unfold operatorOf at h
  cases kind
  case operator | pipe => cases h
  case dot =>
    obtain ⟨c, s₁, hc, h⟩ := bind_eq_ok.1 h
    cases hc
    split at h
    · cases h
      exact .refl s
    · cases h
  all_goals
    cases h
    exact ⟨rfl, rfl, rfl, rfl⟩

theorem accept_false {tag : Tag} (h : accept tag s = .ok false t) : Moved 0 s t := by
  unfold accept at h
  obtain ⟨c, s₁, h₁, h⟩ := bind_eq_ok.1 h
  have m := (check_ok h₁).1
  cases c with
  | true =>
    obtain ⟨_, _, -, h⟩ := bind_eq_ok.1 h
    cases h
  | false =>
    cases h
    exact m

theorem NoIf.operandOf {token : Token} (h : token.kind ≠ .kwIf) : NoIf (operandOf r ctx token) := by
  unfold Grammar.operandOf pathExpr freeVar parenthesized array caseAnalysis returning
  split
  · infer_instance
  · cases hk : token.kind
    case kwIf => exact absurd hk h
    all_goals infer_instance

theorem operand_leadingIf (h : operand r ctx s = .ok id t) : LeadingIf r ctx s id t := by
  change operandOf r ctx s.cursor.current s = .ok id t at h
  by_cases hk : s.cursor.current.kind = .kwIf
  · have htag : s.cursor.currentTag = .kwIf := by rw [currentTag_eq_tag, Token.tag, hk]; rfl
    rw [operandOf, hk] at h
    exact .alone htag (.refl s) h (.refl t)
  · exact .other ((NoIf.operandOf hk).isCond h)

/-- What is applied to nothing stays as it is. -/
theorem applied_ok {callee : ExprId} (h : applied r ctx callee s = .ok id t) :
    id = callee ∧ t.arena = s.arena ∨
      ∃ args block span u, newExpr (applicationKind ctx callee args block) span u = .ok id t := by
  unfold applied at h
  obtain ⟨args, s₁, h₁, h⟩ := bind_eq_ok.1 h
  obtain ⟨block, s₂, h₂, h₃⟩ := bind_eq_ok.1 h
  split at h₃
  · rename_i hnone
    obtain ⟨rfl, rfl⟩ : args = [] ∧ block = none := by simpa using hnone
    cases h₃
    have hblock : t.arena = s₁.arena := by
      unfold blockArgument at h₂
      split at h₂
      · exact optionally_none h₂
      · cases h₂
        rfl
    exact .inl ⟨rfl, hblock.trans (many_nil optionally_none h₁)⟩
  · simp only [bind_eq_ok] at h₃
    obtain ⟨_, _, -, span, u, -, h₃⟩ := h₃
    exact .inr ⟨args, block, span, u, h₃⟩

theorem application_leadingIf (h : application r ctx s = .ok id t) : LeadingIf r ctx s id t := by
  unfold application at h
  obtain ⟨callee, s₁, h₁, h⟩ := bind_eq_ok.1 h
  obtain ⟨c, s₂, h₂, h⟩ := bind_eq_ok.1 h
  obtain ⟨rfl, hcallee⟩ := isClosedForm_ok h₂
  cases c with
  | true =>
    cases h
    exact operand_leadingIf h₁
  | false =>
    obtain ⟨rfl, harena⟩ | ⟨args, block, span, u, hnew⟩ := applied_ok h
    · exact .other (by rw [harena]; exact hcallee rfl)
    · exact .other (NoIf.isCond hnew)

theorem chain_leadingIf (h : chain r ctx s = .ok id t) : LeadingIf r ctx s id t := by
  unfold chain at h
  obtain ⟨first, s₁, h₁, h⟩ := bind_eq_ok.1 h
  refine repeating_invariant (I := LeadingIf r ctx s) (Q := LeadingIf r ctx s) ?_ (application_leadingIf h₁) h
  intro lhs u step v hI hturn
  unfold chainTurn at hturn
  obtain ⟨op, u₁, hop, hturn⟩ := bind_eq_ok.1 hturn
  cases op with
  | none =>
    cases hturn
    exact hI.stay (operator?_none hop)
  | some op =>
    obtain ⟨id, u₂, hid, hturn⟩ := bind_eq_ok.1 hturn
    cases hturn
    unfold joined at hid
    exact .other (NoIf.isCond hid)

theorem annotated_leadingIf (h : annotated r ctx s = .ok id t) : LeadingIf r ctx s id t := by
  unfold annotated at h
  obtain ⟨value, s₁, h₁, h⟩ := bind_eq_ok.1 h
  split at h
  · refine repeating_invariant (I := LeadingIf r ctx s) (Q := LeadingIf r ctx s) ?_ (chain_leadingIf h₁) h
    intro value u step v hI hturn
    unfold annotationTurn at hturn
    obtain ⟨c, u₁, hc, hturn⟩ := bind_eq_ok.1 hturn
    cases c with
    | true =>
      obtain ⟨id, u₂, hid, hturn⟩ := bind_eq_ok.1 hturn
      cases hturn
      unfold ascribed at hid
      exact .other (NoIf.isCond hid)
    | false =>
      cases hturn
      exact hI.stay (accept_false hc)
  · cases h
    exact chain_leadingIf h₁

theorem sigma_leadingIf (h : sigma r ctx s = .ok id t) : LeadingIf r ctx s id t := by
  unfold sigma sigmaResult at h
  obtain ⟨c, s₁, hc, h⟩ := bind_eq_ok.1 h
  cases hc
  split at h
  · exact .other (NoIf.isCond h)
  · exact annotated_leadingIf h

theorem domainArrow_leadingIf (h : domainArrow r ctx s = .ok id t) : LeadingIf r ctx s id t := by
  unfold domainArrow at h
  obtain ⟨domain, s₁, h₁, h⟩ := bind_eq_ok.1 h
  obtain ⟨c, s₂, hc, h⟩ := bind_eq_ok.1 h
  cases c with
  | true =>
    rw [if_pos rfl] at h
    unfold domainResult arrowResult at h
    exact .other (NoIf.isCond h)
  | false =>
    cases h
    exact (sigma_leadingIf h₁).stay (accept_false hc)

theorem arrow_leadingIf (h : Grammar.arrow r ctx s = .ok id t) : LeadingIf r ctx s id t := by
  unfold Grammar.arrow arrowResult at h
  obtain ⟨c, s₁, hc, h⟩ := bind_eq_ok.1 h
  cases hc
  split at h
  · exact .other (NoIf.isCond h)
  · exact domainArrow_leadingIf h

/-- An `if` that is a value has been read alone. -/
theorem lambda_leadingIf (h : lambda r ctx s = .ok id t) : LeadingIf r ctx s id t := by
  unfold lambda lambdaBody at h
  obtain ⟨c, s₁, hc, h⟩ := bind_eq_ok.1 h
  split at h
  · exact .other (NoIf.isCond h)
  · exact (arrow_leadingIf h).start (check_ok hc).1

/-! ## Values are shut -/

/-- A step that gives no open `if`. -/
class Shut (p : Parse ExprId) : Prop where
  shut : ∀ {s id t}, p s = .ok id t → IsShut id t

class Rules.Shut (r : Rules) : Prop where
  expr : ∀ ctx, Grammar.Shut (r.expr ctx)
  arrow : ∀ ctx, Grammar.Shut (r.arrow ctx)

/-- Another form is no open `if`. -/
theorem isShut_of_not_isCond (h : s.arena.isCond id = false) : IsShut id s := by
  intro hopen
  rw [← Arena.gist?_eq] at hopen
  rw [Arena.isCond] at h
  cases he : s.arena.expr? id with
  | none =>
    rw [he] at hopen
    cases hopen
  | some e =>
    rw [he] at hopen h
    obtain ⟨kind, span⟩ := e
    cases kind with
    | cond => cases h
    | app callee args block => cases block <;> cases hopen
    | _ => cases hopen

/-- Where a value is wanted, an `if` is none that is open. -/
theorem conditional_isShut (h : conditional r ctx .expr s = .ok id t) : IsShut id t := by
  unfold conditional at h
  simp only [bind_eq_ok] at h
  obtain ⟨_, _, -, _, _, -, _, _, -, elseBranch, _, -, _, u, -, h⟩ := h
  cases h
  intro hopen
  have hgist := Option.some.inj ((Arena.gist_newExpr u.arena _).symm.trans hopen)
  cases elseBranch <;> cases hgist

theorem LeadingIf.isShut (h : LeadingIf r ctx s id t) : IsShut id t := by
  cases h with
  | alone _ _ hc m => exact (conditional_isShut hc).of_arena m.arena
  | other h => exact isShut_of_not_isCond h

namespace Shut

instance [h : r.Shut] : Shut r.value := h.expr _
instance : Shut (Grammar.arrow r ctx) := ⟨fun h => (arrow_leadingIf h).isShut⟩
instance : Shut (lambda r ctx) := ⟨fun h => (lambda_leadingIf h).isShut⟩

end Shut

instance : Rules.exhausted.Shut := ⟨fun _ => ⟨nofun⟩, fun _ => ⟨nofun⟩⟩

instance rules_shut (n : Nat) : (rules n).Shut := by
  induction n with
  | zero => exact inferInstanceAs Rules.exhausted.Shut
  | succ n ih =>
    exact ⟨fun ctx => inferInstanceAs (Shut (lambda (rules n) ctx)),
      fun ctx => inferInstanceAs (Shut (Grammar.arrow (rules n) ctx))⟩

end Grammar

end SolSyntax
