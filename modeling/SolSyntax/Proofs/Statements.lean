import SolSyntax.Proofs.Enclosing
import SolSyntax.Proofs.Matching
import SolSyntax.Proofs.OpenIfs

/-!
# Expressions as statements

A statement that is no `let` is read by the same rules as a value, except that one which begins with an `if`
ends with it.  What makes the two comparable is that a value ends where its tokens end: the run up to the
end of a list is repeated at another place by stepping through both lists side by side, and up to a closing
brace in place of the end because the brackets of an expression are closed.

Principal results: `Derives.valueStart` — the first token of an expression; `stmt_of_value` — a value is a
statement; `reads_elsewhere` — what is read up to the end of a list is read so elsewhere;
`block_of_value` — a value in braces is a block of one statement.
-/

namespace SolSyntax

/-! ## The `if` at the root -/

namespace Arena

/-- An `if` that was a value becomes a statement; other expressions are statements as they are. -/
def asStatement (a : Arena) (id : ExprId) : Arena :=
  match (a.expr? id).map Expr.kind with
  | some (.cond test thenBranch elseBranch _) => a.setKind id (.cond test thenBranch elseBranch .stmt)
  | _ => a

theorem asStatement_of_not_isCond {a : Arena} {id : ExprId} (h : a.isCond id = false) : a.asStatement id = a := by
  unfold asStatement
  unfold isCond at h
  cases he : a.expr? id with
  | none => rfl
  | some e =>
    obtain ⟨kind, span⟩ := e
    rw [he] at h
    cases kind <;> first | rfl | cases h

theorem setKind_newExpr (a : Arena) (kind kind' : ExprKind) (span : Span) :
    (a.newExpr ⟨kind, span⟩).2.setKind (a.newExpr ⟨kind, span⟩).1 kind' = (a.newExpr ⟨kind', span⟩).2 := by
  have hexprs : (a.exprs.push ⟨kind, span⟩).modify a.exprs.size (fun e => { e with kind := kind' }) =
      a.exprs.push ⟨kind', span⟩ := by
    apply Array.ext_getElem?
    intro i
    rw [Array.getElem?_modify, Array.getElem?_push, Array.getElem?_push]
    by_cases hi : i = a.exprs.size
    · rw [if_pos hi.symm, if_pos hi, if_pos hi]
      rfl
    · rw [if_neg (Ne.symm hi), if_neg hi, if_neg hi]
  exact congrArg (fun exprs => (⟨exprs, a.patterns⟩ : Arena)) hexprs

theorem asStatement_newExpr (a : Arena) (test thenBranch : ExprId) (elseBranch : Option ExprId)
    (position : IfPosition) (span : Span) :
    let new := a.newExpr ⟨.cond test thenBranch elseBranch position, span⟩
    new.2.asStatement new.1 = (a.newExpr ⟨.cond test thenBranch elseBranch .stmt, span⟩).2 := by
  intro new
  rw [asStatement, expr?_newExpr]
  exact a.setKind_newExpr _ _ _

end Arena

/-! ## How an expression begins -/

/-- What begins an expression, parameters in braces included. -/
def TagSet.valueStart : TagSet := exprStart.insert .lbrace

/-- Phrases that are expressions or the first part of one. -/
def Phrase.isValue : Phrase → Bool
  | .ident | .path | .expr _ | .arrow _ | .sigma _ | .annotated _ | .chain _ | .application _ | .operand _
  | .conditional _ _ => true
  | _ => false

theorem TagSet.valueStart_append {u : List Token} (h : valueStart.contains (headTag u) = true) (v : List Token) :
    valueStart.contains (headTag (u ++ v)) = true := by
  cases u with
  | nil => cases h
  | cons t u => exact h

/-- The first token of an expression. -/
theorem Derives.valueStart {p : Phrase} {u : List Token} {ts : List (Outline TokenKind)} (h : Derives p u ts)
    (hp : p.isValue = true) : TagSet.valueStart.contains (headTag u) = true := by
  induction h with
  | @ident t ht =>
    rw [headTag_cons, Token.tag]
    cases hk : t.kind <;> first | (rw [TokenKind.tag]; rfl) | (rw [hk] at ht; cases ht)
  | @literal _ t l hl =>
    rw [headTag_cons, Token.tag]
    cases hk : t.kind <;> first | (rw [TokenKind.tag]; rfl) | (rw [hk] at hl; cases hl)
  | freeVar h | univ h | group h | tuple h | array h | cases h | ret h | conditional h | lambda h =>
    rw [headTag_cons, h]
    rfl
  | path _ _ ih | chain _ _ _ ih | annotated _ _ _ _ ih | domainArrow _ _ _ _ ih =>
    exact TagSet.valueStart_append (ih rfl) _
  | application _ _ _ _ _ ih => exact TagSet.valueStart_append (TagSet.valueStart_append (ih rfl) _) _
  | sigma h => exact TagSet.valueStart_append (by rw [h]; rfl) _
  | paramsArrow h => exact TagSet.valueStart_append (by rcases h with h | h <;> rw [h] <;> rfl) _
  | pathOperand _ ih | conditionalOperand _ ih | operandApplication _ ih | applicationChain _ ih
    | chainAnnotated _ ih | annotatedSigma _ ih | sigmaArrow _ ih | arrowExpr _ ih => exact ih rfl
  | _ => cases hp

namespace Grammar

open Parse

variable {r : Rules} {ctx : Context} {s t : State} {id : ExprId}

/-! ## An `if` as a value and as a statement -/

theorem elseBranch_stmt {e : Option ExprId} (h : elseBranch r ctx .expr s = .ok e t) :
    e ≠ none ∧ elseBranch r ctx .stmt s = .ok e t := by
  unfold elseBranch at h ⊢
  obtain ⟨c, s₁, hc, h⟩ := bind_eq_ok.1 h
  rw [bind_of_ok hc]
  cases c with
  | false => cases h
  | true =>
    rw [if_pos rfl] at h ⊢
    refine ⟨?_, h⟩
    simp only [bind_eq_ok] at h
    obtain ⟨_, _, -, _, _, -, _, _, -, _, _, -, h⟩ := h
    cases h
    exact nofun

/-- What has been read as a value can be read as a statement, and has an `else`. -/
theorem conditional_stmt (h : conditional r ctx .expr s = .ok id t) :
    conditional r ctx .stmt s = .ok id { t with arena := t.arena.asStatement id } ∧
      IsShut id { t with arena := t.arena.asStatement id } := by
  unfold conditional at h ⊢
  simp only [bind_eq_ok] at h ⊢
  obtain ⟨token, s₁, h₁, test, s₂, h₂, thenBranch, s₃, h₃, elseBranch, s₄, h₄, span, s₅, h₅, h⟩ := h
  obtain ⟨hsome, h₄⟩ := elseBranch_stmt h₄
  obtain ⟨rfl, rfl⟩ : id = (s₅.arena.newExpr ⟨.cond test thenBranch elseBranch .expr, span⟩).1 ∧
      t = { s₅ with arena := (s₅.arena.newExpr ⟨.cond test thenBranch elseBranch .expr, span⟩).2 } := by
    cases h
    exact ⟨rfl, rfl⟩
  simp only [Arena.asStatement_newExpr]
  refine ⟨⟨token, s₁, h₁, test, s₂, h₂, thenBranch, s₃, h₃, elseBranch, s₄, h₄, span, s₅, h₅, rfl⟩, ?_⟩
  have hgist := s₅.arena.gist_newExpr ⟨.cond test thenBranch elseBranch .stmt, span⟩
  cases elseBranch with
  | none => exact absurd rfl hsome
  | some e => exact fun hopen => by cases hgist.symm.trans hopen

/-! ## The statement that a value is -/

theorem isAt_eq (tag : Tag) (s : State) : isAt tag s = .ok (s.cursor.currentTag == tag) s := rfl

theorem stmt_if (h : s.cursor.currentTag = .kwIf) :
    stmt r s = (do return .expr (← conditional r .none .stmt) : Parse Stmt) s := by
  rw [stmt, bind_of_ok (isAt_eq .kwLet s), h]
  change (isAt .kwIf >>= _) s = _
  rw [bind_of_ok (isAt_eq .kwIf s), h]
  rfl

theorem stmt_value (hlet : s.cursor.currentTag ≠ .kwLet) (hif : s.cursor.currentTag ≠ .kwIf) :
    stmt r s = (do return .expr (← r.value) : Parse Stmt) s := by
  rw [stmt, bind_of_ok (isAt_eq .kwLet s), beq_false_of_ne hlet]
  change (isAt .kwIf >>= _) s = _
  rw [bind_of_ok (isAt_eq .kwIf s), beq_false_of_ne hif]
  rfl

/-- A value is a statement, unless it begins with an `if` and goes on behind it. -/
theorem stmt_of_value {m : Nat} (h : (rules (m + 1)).value s = .ok id t)
    (hlet : s.cursor.currentTag ≠ .kwLet) (hif : s.cursor.currentTag = .kwIf → t.arena.isCond id = true) :
    ∃ n s₁ t₁, m ≤ n ∧ Moved 0 s s₁ ∧ stmt (rules n) s₁ = .ok (.expr id) t₁ ∧
      t₁.cursor.rest = t.cursor.rest ∧ t₁.names = t.names ∧ t₁.arena = t.arena.asStatement id ∧ IsShut id t₁ := by
  have hread : LeadingIf (rules m) .none s id t := lambda_leadingIf h
  by_cases htag : s.cursor.currentTag = .kwIf
  · cases hread with
    | @alone s₁ t₁ _ ms hcond mt =>
      obtain ⟨hstmt, hshut⟩ := conditional_stmt hcond
      refine ⟨m, s₁, { t₁ with arena := t₁.arena.asStatement id }, Nat.le_refl m, ms, ?_, ?_, mt.names.symm, ?_,
        hshut⟩
      · rw [stmt_if (ms.currentTag.trans htag), bind_of_ok hstmt]
        rfl
      · exact mt.rest.symm
      · rw [mt.arena]
    | other hother =>
      rw [hif htag] at hother
      cases hother
  · have hother : t.arena.isCond id = false := by
      cases hread with
      | alone htag' => exact absurd htag' htag
      | other hother => exact hother
    refine ⟨m + 1, s, t, Nat.le_succ m, .refl s, ?_, rfl, rfl, (Arena.asStatement_of_not_isCond hother).symm, ?_⟩
    · rw [stmt_value hlet htag, bind_of_ok h]
      rfl
    · exact Shut.shut h

/-! ## The same tokens elsewhere -/

section Elsewhere

variable {α : Type} {s' : State} {a : α} {E left : List Token} {span : Span} {base : Arena}

/-- A list that ends beside one that goes on with a line break. -/
def Window.besideLine (h : headTag left = .eof) (span : Span) (base : Arena) (extent : Nat) : Window where
  left := left
  right := [⟨.newline, span, .first⟩]
  tails := .ended h rfl nofun
  base := some base
  extent := extent

/-- Two runs with such tokens before them. -/
theorem Aligned.besideLine (h : headTag left = .eof) (hcloses : Closes 0 E) (hdot : headTag E ≠ .dot)
    (hends : EndsWell E) (hs : s.cursor.rest = E ++ left) (ht : t.cursor.rest = E ++ [⟨.newline, span, .first⟩])
    (hnames : t.names = s.names) (harena : t.arena = s.arena.behind base) :
    Aligned (.besideLine h span base E.length) 0 E s t := by
  refine ⟨hs, ht, fun _ _ => hcloses, fun h => absurd h hdot, fun _ _ => hends, ?_⟩
  rintro _ ⟨⟩
  exact ⟨hnames, harena, Nat.le_refl _, fun hlt => absurd hlt (Nat.lt_irrefl _)⟩

variable [Relocate α] {ph : Phrase} {view : α → List (Outline Ref)} {p : Nat → Parse α} {left' : List Token}
  {k n m : Nat}

/-- What is read up to the end of a list is read up to the end of another list as well, and stored behind
what there is. -/
theorem reads_elsewhere (hp : ∀ {w n m}, k ≤ n → k ≤ m → Agrees w k ph view (p n) (p m)) (hE : E.length < k)
    (hn : k ≤ n) (hm : k ≤ m) (hcloses : Closes 0 E) (hdot : headTag E ≠ .dot) (hends : EndsWell E)
    (hleft : headTag left = .eof) (hleft' : headTag left' = .eof) (hs : s.cursor.rest = E ++ left)
    (ht : t.cursor.rest = E ++ left') (hnames : t.names = s.names) (harena : s.arena = .empty)
    (h : p n s = .ok a s') (hrest : s'.cursor.rest = left) :
    ∃ t', p m t = .ok (relocate t.arena.mark a) t' ∧ t'.cursor.rest = left' ∧
      t'.names = s'.names ∧ t'.arena = s'.arena.behind t.arena := by
  -- both lists are compared with one that goes on with a line break
  let u : State := ⟨.start (.ofTokens (E ++ [⟨.newline, .dummy, .first⟩])), t.arena, t.names⟩
  have al : Aligned (.besideLine hleft .dummy t.arena E.length) 0 E s u :=
    .besideLine hleft hcloses hdot hends hs rfl hnames (by rw [harena, Arena.empty_behind])
  have al' : Aligned (.besideLine hleft' .dummy .empty E.length) 0 E t u :=
    .besideLine hleft' hcloses hdot hends ht rfl rfl (Arena.behind_empty _).symm
  have meets := hp hn hn al hE
  rw [h] at meets
  obtain ⟨b, u', hb, hsame, x, v, ts, -, -, both⟩ := meets.ok_of_left hleft rfl
  obtain rfl : v = [] := List.self_eq_append_left.1 (hrest.symm.trans both.aligned.left)
  have hrest' : u'.cursor.rest = [⟨.newline, .dummy, .first⟩] := both.aligned.right
  have meets' := hp hm hn al' hE
  rw [hb] at meets'
  obtain ⟨a', t', ha', hsame', x', v', ts', -, -, both'⟩ :=
    meets'.ok_of_right hleft' rfl (by rw [hrest']; exact Nat.le_refl _)
  obtain rfl : v' = [] := List.self_eq_append_left.1 (hrest'.symm.trans both'.aligned.right)
  obtain ⟨hnames₁, harena₁, -, -⟩ := both.aligned.twins _ rfl
  obtain ⟨hnames₂, harena₂, -, -⟩ := both'.aligned.twins _ rfl
  have hvalue : a' = relocate t.arena.mark a := by
    rw [← hsame _ rfl, hsame' _ rfl]
    exact (relocate_zero a').symm
  refine ⟨t', hvalue ▸ ha', both'.aligned.left, hnames₂.symm.trans hnames₁, ?_⟩
  rw [← harena₁, harena₂, Arena.behind_empty]

end Elsewhere

/-! ## A block of one statement -/

section Block

variable {o c : Token} {E post : List Token} {s₁ s₂ s₃ : State}

/-- A list of one item, with nothing to separate it from another. -/
theorem sequence_single {α : Type} {close : Tag} {item : Parse α} {separator : Parse Bool} {a : α}
    (h₁ : check close s = .ok false s₁) (h₂ : item s₁ = .ok a s₂) (h₃ : separator s₂ = .ok false s₃) :
    sequence close item separator s = .ok ([a], false) s₃ := by
  have hturn : sequenceTurn close item separator ([], false) s = .ok (.done ([a], false)) s₃ := by
    rw [sequenceTurn, bind_of_ok h₁]
    change (item >>= _) s₁ = _
    rw [bind_of_ok h₂, bind_of_ok h₃]
    rfl
  have hloop : repeating (sequenceTurn close item separator) ([], false) s = .ok ([a], false) s₃ := by
    change turns _ (s.cursor.tokens.size + 1) _ s = _
    rw [turns, bind_of_ok hturn]
    rfl
  rw [sequence, bind_of_ok hloop]
  rfl

theorem breakSeparator_of_rbrace (h : headTag s.cursor.rest = .rbrace) :
    ∃ s', breakSeparator s = .ok false s' ∧ Moved 0 s s' := by
  obtain ⟨s', hs', m⟩ := check_eq .newline s
  rw [h] at hs'
  refine ⟨s', ?_, m⟩
  rw [breakSeparator, bind_of_ok hs']
  rfl

theorem expectClosing_eq {close : Tag} {r : List Token} (h : s.cursor.rest = c :: r) (hc : c.tag = close)
    (he : close ≠ .eof) (opening : Span) : ∃ s', expectClosing close opening s = .ok c.span s' ∧ Moved 1 s s' := by
  obtain ⟨s₁, h₁, m₁⟩ := check_eq close s
  rw [h, headTag_cons, hc, beq_self_eq_true] at h₁
  obtain ⟨s₂, h₂, m₂⟩ := advance_eq (m₁.rest.trans h) (hc ▸ he)
  refine ⟨s₂, ?_, m₁.trans m₂⟩
  rw [expectClosing, bind_of_ok h₁]
  change (advance >>= _) s₁ = _
  rw [bind_of_ok h₂]
  rfl

theorem rejectOpenIf_shut (h : IsShut id s) : rejectOpenIf [.expr id] s = .ok () s := by
  have hopen : isOpenIf id s = .ok false s := by rw [isOpenIf_eq, beq_false_of_ne h]
  change (isOpenIf id >>= _) s = _
  rw [bind_of_ok hopen]
  rfl

/-- A statement up to the closing brace is the only one of its block. -/
theorem block_of_stmt (ho : o.tag = .lbrace) (hc : c.tag = .rbrace) (hs : s.cursor.rest = o :: (E ++ c :: post))
    (hhead : TagSet.valueStart.contains (headTag E) = true)
    (h : ∀ s', Moved 1 s s' → ∃ t, stmt r s' = .ok (.expr id) t ∧ t.cursor.rest = c :: post ∧ IsShut id t) :
    ∃ s' t t', Moved 1 s s' ∧ stmt r s' = .ok (.expr id) t ∧
      block r s = .ok ⟨[.expr id], o.span.merge c.span⟩ t' ∧ Moved 1 t t' := by
  have hfirst : headTag (E ++ c :: post) ≠ .newline ∧ headTag (E ++ c :: post) ≠ .rbrace := by
    have := TagSet.valueStart_append hhead (c :: post)
    constructor <;>
    · intro e
      rw [e] at this
      cases this
  obtain ⟨s₁, h₁, m₁⟩ := expect_eq .lbrace hs ho (by decide)
  have hrest₁ : s₁.cursor.rest = E ++ c :: post := by
    rw [m₁.rest, hs]
    rfl
  obtain ⟨s₂, h₂, m₂⟩ := skipNewlines_eq s₁
  have hbreaks : s₁.cursor.rest.takeWhile (·.tag == .newline) = [] := by
    rw [hrest₁]
    cases hE : E ++ c :: post with
    | nil => rfl
    | cons tok v =>
      rw [hE] at hfirst
      exact List.takeWhile_cons_of_neg (by simpa using hfirst.1)
  rw [hbreaks] at m₂
  have hrest₂ : s₂.cursor.rest = E ++ c :: post := m₂.rest.trans hrest₁
  obtain ⟨s₃, h₃, m₃⟩ := check_eq .rbrace s₂
  rw [hrest₂, beq_false_of_ne hfirst.2] at h₃
  have m := (m₁.trans m₂).trans m₃
  obtain ⟨t, ht, hrest, hshut⟩ := h s₃ m
  obtain ⟨t₁, hb, mb⟩ := breakSeparator_of_rbrace (s := t) (by rw [hrest, headTag_cons, hc])
  have hrest' : t₁.cursor.rest = c :: post := mb.rest.trans hrest
  obtain ⟨t', hclose, mclose⟩ := expectClosing_eq hrest' hc (by decide) o.span
  refine ⟨s₃, t, t', m, ht, ?_, mb.trans mclose⟩
  have hbraced : braced (stmt r) breakSeparator rejectOpenIf s = .ok ([.expr id], o.span.merge c.span) t' := by
    rw [braced, bind_of_ok h₁, bind_of_ok h₂, bind_of_ok (sequence_single h₃ ht hb),
      bind_of_ok (rejectOpenIf_shut (hshut.of_arena mb.arena)), bind_of_ok hclose]
    rfl
  rw [block, bind_of_ok hbraced]
  rfl

end Block

/-! ## A value in braces -/

/-- Only what is an open `if` is one elsewhere. -/
theorem gist_of_relocate {m : Mark} {kind : ExprKind} (h : (relocate m kind).gist = .openIf) :
    kind.gist = .openIf := by
  cases kind with
  | cond test thenBranch elseBranch position => cases elseBranch <;> cases position <;> first | rfl | cases h
  | app callee args block => cases block <;> cases h
  | _ => cases h

theorem IsShut.behind {base : Arena} (h : IsShut id s) (ht : t.arena = s.arena.behind base) :
    IsShut (relocate base.mark id) t := by
  rw [IsShut, ht, ← Arena.gist?_eq, Arena.expr?_behind]
  rw [IsShut, ← Arena.gist?_eq] at h
  cases he : s.arena.expr? id with
  | none => exact fun hopen => by cases hopen
  | some e =>
    rw [he] at h
    exact fun hopen => h (congrArg some (gist_of_relocate (Option.some.inj hopen)))

variable {tokens : TokenList} {names : Interner} {E post left ends : List Token} {o c stop : Token} {s' : State}

/-- What is read as a value up to the end is an expression. -/
theorem derives_of_value (htokens : tokens.toList = E ++ left) (h : Reader.expr (.start tokens names) = .ok id s')
    (hrest : s'.cursor.rest = left) : ∃ ts, Derives (.expr .none) E ts := by
  have hbound := (Aligned.whole (.start tokens names)).length_lt_bound.1
  obtain ⟨u, ts, took, hD⟩ :=
    Agrees.took ((rules_agree hbound hbound).expr .none) (Nat.lt_succ_self _) h
  have hu : E ++ left = u ++ left := by
    rw [← htokens, ← hrest]
    exact took.rest
  exact ⟨ts, List.append_cancel_right hu ▸ hD⟩

/-- In front of a brace the value is read as a statement. -/
theorem stmt_enclosed {m : Nat} (hstop : stop.tag = .eof) (htokens : tokens.toList = E ++ stop :: ends)
    (h : Reader.expr (.start tokens names) = .ok id s') (hrest : s'.cursor.rest = stop :: ends)
    (hif : headTag E = .kwIf → s'.arena.isCond id = true) (hc : c.tag = .rbrace)
    (ht : t.cursor.rest = E ++ c :: post) (hnames : t.names = names) (hm : E.length < m) :
    ∃ t', stmt (rules m) t = .ok (.expr (relocate t.arena.mark id)) t' ∧ t'.cursor.rest = c :: post ∧
      t'.names = s'.names ∧ t'.arena = (s'.arena.asStatement id).behind t.arena ∧
      IsShut (relocate t.arena.mark id) t' := by
  obtain ⟨ts, hD⟩ := derives_of_value htokens h hrest
  have hhead := hD.valueStart rfl
  have hne : E ≠ [] := fun e => by rw [e] at hhead; cases hhead
  have hs : (State.start tokens names).cursor.rest = E ++ stop :: ends := htokens
  have htag : (State.start tokens names).cursor.currentTag = headTag E := by
    rw [Cursor.currentTag_eq, hs, headTag_append hne]
  have hdot : headTag E ≠ .dot := fun e => by rw [e] at hhead; cases hhead
  have hlet : headTag E ≠ .kwLet := fun e => by rw [e] at hhead; cases hhead
  have hcloses := hD.nested.closes_zero
  obtain ⟨n, s₁, s₂, hn, ms, hstmt, hrest₂, hnames₂, harena₂, hshut⟩ :=
    stmt_of_value (m := tokens.size) h (htag ▸ hlet) (htag ▸ hif)
  have hend : headTag (stop :: ends) = .eof := hstop
  have hsize : E.length < tokens.size := by
    have hlen : tokens.toList.length = tokens.size := Array.length_toList
    rw [htokens, List.length_append, List.length_cons] at hlen
    omega
  obtain ⟨u, stops, hstops, hu, hunames, huarena, -, enclosed⟩ :=
    Carries.reads_enclosed (p := stmt (rules m)) (fun w => inferInstance) hc hcloses ht
  obtain ⟨u', hstmt', hurest', hunames', huarena'⟩ :=
    reads_elsewhere (p := fun n => stmt (rules n)) (fun hn hm => stmt_agrees (rules_agree hn hm))
      (Nat.lt_succ_self _) (Nat.lt_of_lt_of_le hsize hn) hm hcloses hdot hD.endsWell hend hstops
      (ms.rest.trans hs) hu (hunames.trans (hnames.trans ms.names.symm))
      ms.arena hstmt (hrest₂.trans hrest)
  obtain ⟨t', ht', hrest', hnames', harena'⟩ := enclosed _ u' hstmt' hurest'
  rw [huarena] at ht' huarena'
  have harena : t'.arena = s₂.arena.behind t.arena := harena'.trans huarena'
  refine ⟨t', ht', hrest', hnames'.trans (hunames'.trans hnames₂), ?_, hshut.behind harena⟩
  rw [harena, harena₂]

/-- **A value may be a statement.**  If a value can be read up to the end, and is an `if` where it begins
with one, then the same tokens in braces are a block of one statement: the same nodes are stored, behind
what there is, but for the position of an `if` at the root. -/
theorem block_of_value (hstop : stop.tag = .eof) (htokens : tokens.toList = E ++ stop :: ends)
    (h : Reader.expr (.start tokens names) = .ok id s') (hrest : s'.cursor.rest = stop :: ends)
    (hif : headTag E = .kwIf → s'.arena.isCond id = true) (ho : o.tag = .lbrace) (hc : c.tag = .rbrace)
    (ht : t.cursor.rest = o :: (E ++ c :: post)) (hnames : t.names = names) :
    ∃ t', Reader.block t = .ok ⟨[.expr (relocate t.arena.mark id)], o.span.merge c.span⟩ t' ∧
      t'.cursor.rest = post ∧ t'.names = s'.names ∧ t'.arena = (s'.arena.asStatement id).behind t.arena := by
  obtain ⟨ts, hD⟩ := derives_of_value htokens h hrest
  have hm : E.length < t.cursor.tokens.size := by
    have := congrArg List.length ht
    rw [Cursor.length_rest, List.length_cons, List.length_append, List.length_cons] at this
    omega
  have hstmt {u : State} (m : Moved 1 t u) := by
    have hu : u.cursor.rest = E ++ c :: post := by
      rw [m.rest, ht]
      rfl
    have := stmt_enclosed hstop htokens h hrest hif hc hu (m.names.trans hnames) hm
    rwa [m.arena] at this
  obtain ⟨u, v, t', mu, hv, hblock, mt⟩ :=
    block_of_stmt (r := rules t.cursor.tokens.size) ho hc ht (hD.valueStart rfl) fun u m => by
      obtain ⟨v, hv, hrest, -, -, hshut⟩ := hstmt m
      exact ⟨v, hv, hrest, hshut⟩
  obtain ⟨v', hv', hrest', hnames', harena', -⟩ := hstmt mu
  rw [hv'] at hv
  cases hv
  refine ⟨t', hblock, ?_, mt.names.trans hnames', mt.arena.trans harena'⟩
  rw [mt.rest, hrest']
  rfl

/-- An `if` whose `else` branch is a block, and an operator behind it: a value, but no statement. -/
theorem operator_behind_if_refused :
    let token (kind : TokenKind) : Token := ⟨kind, .dummy, .first⟩
    let a := TokenKind.ident .empty
    let value : List TokenKind := [.kwIf, a, .kwThen, a, .kwElse, .lbrace, a, .rbrace, .operator .empty, a]
    let s := State.start (.ofTokens ((value ++ [TokenKind.eof]).map token)) .new
    let t := State.start (.ofTokens ((.lbrace :: (value ++ [TokenKind.rbrace, .eof])).map token)) .new
    (∃ id s', Reader.expr s = .ok id s' ∧ s'.cursor.rest = [token .eof]) ∧
      ∃ e t', Reader.block t = .error e t' := by
  intro token a value s t
  obtain ⟨id, s', hread, hend⟩ := exists_of_succeeds (r := Reader.expr s)
    (p := fun _ s' => s'.cursor.rest == [token .eof]) (by decide +kernel)
  have hfails : succeeds (Reader.block t) (fun _ _ => true) = false := by decide +kernel
  refine ⟨⟨id, s', hread, eq_of_beq hend⟩, ?_⟩
  cases h : Reader.block t with
  | error e t' => exact ⟨e, t', rfl⟩
  | ok block t' =>
    rw [h] at hfails
    cases hfails

/-- The `if` alone is a statement. -/
theorem if_alone_in_braces :
    let token (kind : TokenKind) : Token := ⟨kind, .dummy, .first⟩
    let a := TokenKind.ident .empty
    let value : List TokenKind := [.kwIf, a, .kwThen, a, .kwElse, .lbrace, a, .rbrace]
    let s := State.start (.ofTokens ((value ++ [TokenKind.eof]).map token)) .new
    let t := State.start (.ofTokens ((.lbrace :: (value ++ [TokenKind.rbrace, .eof])).map token)) .new
    ∃ id s', Reader.expr s = .ok id s' ∧ s'.arena.isCond id = true ∧
      ∃ t', Reader.block t = .ok ⟨[.expr (relocate t.arena.mark id)], .dummy⟩ t' ∧
        t'.arena = (s'.arena.asStatement id).behind t.arena := by
  intro token a value s t
  obtain ⟨id, s', hread, hcheck⟩ := exists_of_succeeds (r := Reader.expr s)
    (p := fun id s' => s'.cursor.rest == [token .eof] && s'.arena.isCond id) (by decide +kernel)
  rw [Bool.and_eq_true, beq_iff_eq] at hcheck
  obtain ⟨t', hblock, -, -, harena⟩ := block_of_value (E := value.map token)
    (o := token .lbrace) (c := token .rbrace) (t := t) rfl rfl hread hcheck.1
    (fun _ => hcheck.2) rfl rfl rfl rfl
  exact ⟨id, s', hread, hcheck.2, t', hblock, harena⟩

end Grammar

end SolSyntax
