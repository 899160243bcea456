import SolSyntax.Proofs.ParamSets
import SolSyntax.Proofs.Telltales

/-!
# Parameter lists in parentheses

Parentheses before an arrow hold parameters if a quote comes first in them or a colon stands outside of
inner brackets; else they are a group or a tuple.  What can be read as parameters of which one has a name
and a type has such a colon, however the names and types are written.

Principal results: `isParamList_of_paramSet` — the look ahead misses no such list; `arrow_of_paramSet` —
which is then what the arrow binds.
-/

namespace SolSyntax

open Grammar
open Outline (leaf node)

/-- Whether a parameter has a name and a type. -/
def Param.isTyped (p : Param) : Bool :=
  match p.kind with
  | .typed (some _) _ => true
  | _ => false

/-- Whether a parameter is a quoted name. -/
def Param.isForAll (p : Param) : Bool :=
  match p.kind with
  | .forAll _ => true
  | _ => false

/-! ## The colon of a parameter -/

/-- A part of a row has a stretch of its own. -/
theorem Stores.part {names : Interner} {a : Arena} {m m' : Mark} {vs : List (Outline Ref)}
    {ts : List (Outline TokenKind)} (h : Stores names a m vs ts m') {v : Outline Ref} (hv : v ∈ vs) :
    ∃ t ∈ ts, ∃ m₁ m₂, Stores names a m₁ [v] [t] m₂ := by
  induction vs generalizing m ts with
  | nil => cases hv
  | cons w vs ih =>
    obtain ⟨t, ts', m₁, rfl, hw, h'⟩ := h.split
    rcases List.mem_cons.1 hv with rfl | hv
    · exact ⟨t, List.mem_cons_self, _, _, hw⟩
    · obtain ⟨t', ht', stretch⟩ := ih h' hv
      exact ⟨t', List.mem_cons_of_mem _ ht', stretch⟩

theorem Param.isTypedParam_of_stores {p : Param} (hp : p.isTyped = true) {names : Interner} {a : Arena}
    {m m' : Mark} {t : Outline TokenKind} (h : Stores names a m [p.view] [t] m') :
    t.isTypedParam = true := by
  obtain ⟨kind, span⟩ := p
  obtain ⟨_ | b, type⟩ | _ | _ := kind
  case typed.some =>
    obtain ⟨us, hts, hparts⟩ := h.unwrap
    cases hts
    obtain ⟨_, _, _, rfl, hbinding, htype⟩ := hparts.split
    obtain ⟨ps, hbinding, hb⟩ := hbinding.unwrap
    cases hbinding
    obtain ⟨o, rfl⟩ := List.length_eq_one_iff.1 hb.length_eq
    obtain ⟨o', rfl⟩ := List.length_eq_one_iff.1 htype.length_eq
    rfl
  all_goals cases hp

/-- A parameter with a name and a type has a colon outside of brackets. -/
theorem Derives.occursIn_param {k : ParamSetKind} {u : List Token} {ts : List (Outline TokenKind)}
    (h : Derives (.param k) u ts) (hts : ∃ t ∈ ts, t.isTypedParam = true) :
    occursIn .colon u 0 = true := by
  obtain ⟨t, ht, htyped⟩ := hts
  cases h with
  | typedParam hc hp =>
    rw [occursIn_append hp.nested.closes_zero, occursIn, if_pos]
    · exact Bool.or_true _
    · rw [hc]
      decide
  | forAll | bareType | barePattern =>
    cases List.mem_singleton.1 ht
    cases htyped

/-- So has a list of parameters of which one has a name and a type. -/
theorem Derives.occursIn_params {k : ParamSetKind} {separated : Bool} {u : List Token}
    {ts : List (Outline TokenKind)} (h : Derives (.items .comma (.param k) separated) u ts)
    (hts : ∃ t ∈ ts, t.isTypedParam = true) : occursIn .colon u 0 = true := by
  generalize hph : Phrase.items .comma (.param k) separated = ph at h
  induction h generalizing separated with
  | itemsNil =>
    obtain ⟨t, ht, -⟩ := hts
    cases ht
  | itemsPad hu _ ih | itemsSeparated hu _ _ ih =>
    cases hph
    rw [occursIn_append hu.nested.closes_zero, ih hts rfl, Bool.true_or]
  | itemsNext hu _ hv ih =>
    cases hph
    rw [occursIn_append hu.nested.closes_zero, Bool.or_eq_true]
    obtain ⟨t, ht, htyped⟩ := hts
    rcases List.mem_append.1 ht with ht | ht
    · exact .inl (ih ⟨t, ht, htyped⟩ rfl)
    · exact .inr (hv.occursIn_param ⟨t, ht, htyped⟩)
  | _ => cases hph

/-! ## The look ahead -/

namespace Grammar

open Parse

variable {s s' : State} {params : ParamSet}

/-- What was read as parameters, in its brackets. -/
theorem paramSet_encloses (h : Reader.paramSet s = .ok params s') :
    ∃ u m, Took s s' u ∧ Encloses u m ∧
      ((∃ p ∈ params.params, p.isTyped = true) → occursIn .colon m 0 = true) := by
  have hk := length_rest_le_bound s
  obtain ⟨u, ts, took, hD, grew⟩ := (paramSet_agrees (rules_agree hk hk)).read (Nat.lt_succ_self _) h
  obtain ⟨us, rfl, hparams⟩ := grew.stores.unwrap
  cases hD with
  | @paramSet o c k close separated m us hshape hc hD =>
    refine ⟨_, m, took, ⟨o, c, rfl, hc ▸ closing?_of_paramSetShape? hshape, hD.nested⟩, ?_⟩
    rintro ⟨p, hp, htyped⟩
    obtain ⟨t, ht, m₁, m₂, hstores⟩ := hparams.part (List.mem_map_of_mem hp)
    exact hD.occursIn_params ⟨t, ht, Param.isTypedParam_of_stores htyped hstores⟩

/-- The look ahead misses no list before an arrow that begins with a quote or holds a parameter with a
name and a type. -/
theorem isParamList_of_paramSet (h : Reader.paramSet s = .ok params s')
    (harrow : s'.cursor.currentTag = .arrow)
    (hparams : s.cursor.peekTag 1 = .quote ∨ ∃ p ∈ params.params, p.isTyped = true) :
    isParamList s.cursor = true := by
  obtain ⟨u, m, took, hu, hcolon⟩ := paramSet_encloses h
  rw [Cursor.currentTag_eq] at harrow
  rw [Cursor.isParamList_eq, took.rest, hu.holdsParams_eq, harrow]
  rcases hparams with hquote | htyped
  · obtain ⟨o, c, rfl, -⟩ := hu
    rw [Cursor.peekTag_one, took.rest, List.cons_append, List.drop_succ_cons, List.drop_zero,
      headTag_append (by simp)] at hquote
    rw [List.tail_cons, hquote]
    rfl
  · rw [hcolon htyped, Bool.or_true]
    rfl

/-- What an arrow makes of parameters and a result. -/
theorem pi_of_arrowResult {r : Rules} {ctx : Context} {id : ExprId}
    (h : arrowResult r ctx params s = .ok id s') :
    ∃ result span, s'.arena.expr? id = some ⟨.pi params result, span⟩ := by
  obtain ⟨result, s₁, -, h⟩ := bind_eq_ok.1 h
  obtain ⟨span, s₂, hspan, h⟩ := bind_eq_ok.1 h
  cases h
  exact ⟨result, _, Arena.expr?_newExpr _ _⟩

/-- **Parameters in parentheses are what an arrow binds.**  Where parameters can be read up to an arrow,
and a quote comes first in the parentheses or one of the parameters has a name and a type, they are seen
ahead; and the function type is made of the very same parameters. -/
theorem arrow_of_paramSet (hat : s.cursor.currentTag = .lparen)
    (h : Reader.paramSet s = .ok params s') (harrow : s'.cursor.currentTag = .arrow)
    (hparams : s.cursor.peekTag 1 = .quote ∨ ∃ p ∈ params.params, p.isTyped = true) :
    isParamList s.cursor = true ∧ params.kind = .explicit ∧
    ∃ token s₁, expect .arrow s' = .ok token s₁ ∧ ∀ ctx,
      Reader.ofRules (arrow · ctx) s = arrowResult (rules s.bound) ctx params s₁ ∧
      ∀ id s₂, Reader.ofRules (arrow · ctx) s = .ok id s₂ →
        ∃ result span, s₂.arena.expr? id = some ⟨.pi params result, span⟩ := by
  have hseen := isParamList_of_paramSet h harrow hparams
  have hstarts : startsParamList s.cursor = true := by
    rw [startsParamList, Cursor.isAt, Cursor.isAt, hat, hseen]
    rfl
  have hkind : params.kind = .explicit := by
    obtain ⟨close, found, hshape, -⟩ := paramSet_ok h
    rw [hat] at hshape
    exact (congrArg Prod.fst (Option.some.inj hshape)).symm
  obtain ⟨token, s₁, hexpect⟩ := expect_arrow h hstarts
  refine ⟨hseen, hkind, token, s₁, hexpect, fun ctx => ?_⟩
  have hrun : Reader.ofRules (arrow · ctx) s = arrowResult (rules s.bound) ctx params s₁ := by
    show (if startsParamList s.cursor = true then _ else _ : Parse ExprId) s = _
    have hread : paramSet (rules s.bound) s = .ok params s' := h
    rw [if_pos hstarts, bind_of_ok hread, bind_of_ok hexpect]
  exact ⟨hrun, fun id s₂ hid => pi_of_arrowResult (hrun.symm.trans hid)⟩

/-- Parentheses with a name, a comma and a quoted name, and an arrow and a name behind them: they can be
read as parameters up to the arrow, of which one is quoted, and are not seen ahead; a type cannot be read
there. -/
theorem quote_behind_type_missed :
    let a := TokenKind.ident .empty
    let s := State.start (.ofList ([.lparen, a, .comma, .quote, a, .rparen, .arrow, a, .eof].map
      (⟨·, .dummy, .first⟩))) .new
    s.cursor.currentTag = .lparen ∧
    (∃ params s', Reader.paramSet s = .ok params s' ∧ s'.cursor.currentTag = .arrow ∧
      ∃ p ∈ params.params, p.isForAll = true) ∧
    isParamList s.cursor = false ∧ ∃ e s', Reader.type s = .error e s' := by
  intro a s
  obtain ⟨params, s', hread, hcheck⟩ := exists_of_succeeds (r := Reader.paramSet s)
    (p := fun params s' => s'.cursor.currentTag == .arrow && params.params.any Param.isForAll)
    (by decide +kernel)
  rw [Bool.and_eq_true, beq_iff_eq] at hcheck
  have hfails : succeeds (Reader.type s) (fun _ _ => true) = false := by decide +kernel
  refine ⟨by decide +kernel, ⟨params, s', hread, hcheck.1, List.any_eq_true.1 hcheck.2⟩,
    by decide +kernel, ?_⟩
  cases h : Reader.type s with
  | error e s' => exact ⟨e, s', rfl⟩
  | ok id s' =>
    rw [h] at hfails
    cases hfails

/-- A group, a comma, and a name with a type: they are what the arrow behind them binds. -/
theorem typed_param_behind_group :
    let a := TokenKind.ident .empty
    let s := State.start (.ofList ([.lparen, .lparen, a, .rparen, .comma, .newline, a, .colon, a, .rparen, .arrow,
      a, .eof].map (⟨·, .dummy, .first⟩))) .new
    ∃ params s', Reader.paramSet s = .ok params s' ∧ s'.cursor.currentTag = .arrow ∧
      isParamList s.cursor = true ∧
      ∃ id s₂ result span, Reader.ofRules (arrow · .type) s = .ok id s₂ ∧
        s₂.arena.expr? id = some ⟨.pi params result, span⟩ := by
  intro a s
  obtain ⟨params, s', hread, hcheck⟩ := exists_of_succeeds (r := Reader.paramSet s)
    (p := fun params s' => s'.cursor.currentTag == .arrow && params.params.any Param.isTyped)
    (by decide +kernel)
  rw [Bool.and_eq_true, beq_iff_eq] at hcheck
  obtain ⟨id, s₂, harrow, -⟩ := exists_of_succeeds (r := Reader.ofRules (arrow · .type) s)
    (p := fun _ _ => true) (by decide +kernel)
  obtain ⟨hseen, -, token, s₁, -, hpi⟩ := arrow_of_paramSet (by decide +kernel) hread hcheck.1
    (.inr (List.any_eq_true.1 hcheck.2))
  obtain ⟨result, span, hnode⟩ := (hpi .type).2 id s₂ harrow
  exact ⟨params, s', hread, hcheck.1, hseen, id, s₂, result, span, harrow, hnode⟩

end Grammar

end SolSyntax
