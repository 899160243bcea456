import SolSyntax.Proofs.ForkExprs
import SolSyntax.Proofs.OpenIfs

/-!
# Blocks and lambdas on two token lists

The end of a block may be refused although it has been asked for, as may the end of the parameters of a
lambda.  Apart from that, these too do the same on the two lists of a `Fork` up to the index.

Principal results: `rules_side` — the readers of expressions, types and blocks meet.
-/

-- instances are long terms, as productions have many steps
set_option synthInstance.maxSize 1000

namespace SolSyntax.Fork

open Grammar Parse
open Context (Looser)

variable {w : Fork} {s t : State} {stops : Stops} {r r' : Rules} [r.Forward] [r'.Forward] [r.Enters]
  [r'.Enters] [SideRules w r r'] (ctx ctx' : Context) [Looser ctx ctx']

/-! ## Statements -/

instance : Ends w stops (letStmt r) (letStmt r') := by unfold letStmt; infer_instance

omit [r.Forward] [r.Enters] in
/-- A `let` is no expression. -/
theorem letStmt_ne_expr {a : Stmt} (h : letStmt r s = .ok a t) (id : ExprId) : a ≠ .expr id := by
  unfold letStmt at h
  simp only [bind_eq_ok] at h
  obtain ⟨_, _, -, _, _, -, _, _, -, _, _, -, _, _, -, _, _, -, h⟩ := h
  cases h
  exact nofun

/-- What is known of a statement that has been read. -/
def AfterStmt (w : Fork) (a : Stmt) (s : State) : Prop := ∀ id, a = .expr id → AfterOpenIf w id s

theorem stmt_meets [r.Shut] (paired : w.Paired s t) :
    w.Meets .none (fun a b s _ => Alike a b ∧ AfterStmt w a s) (stmt r s) (stmt r' t) := by
  have : Enters (.single .kwLet) (letStmt r) := by unfold letStmt; infer_instance
  have : Enters (.single .kwLet) (letStmt r') := by unfold letStmt; infer_instance
  have : Enters (.single .kwIf) (conditional r .none .stmt) := by unfold conditional; infer_instance
  have : Enters (.single .kwIf) (conditional r' .none .stmt) := by unfold conditional; infer_instance
  refine ask_meets paired (fun s₁ t₁ paired₁ _ => ?_) fun s₁ t₁ paired₁ => ?_
  · refine (Ends.meets s₁ t₁ paired₁).mono fun a b s₂ t₂ ha _ _ hab => ⟨hab, fun id e => ?_⟩
    exact absurd e (letStmt_ne_expr (within_ok ha) id)
  refine ask_meets paired₁ (fun s₂ t₂ paired₂ _ => ?_) fun s₂ t₂ paired₂ => ?_
  · refine (conditional_meets .none .none .stmt paired₂).sides.bind fun id id' s₃ t₃ paired₃ hid => ?_
    have := hid.1
    refine .both rfl rfl paired₃ ⟨inferInstance, ?_⟩
    rintro _ ⟨⟩
    exact hid.2
  · have value : w.Meets .none (fun id id' s _ => Alike id id' ∧ IsShut id s) (r.value s₂) (r'.value t₂) :=
      (Ends.meets s₂ t₂ paired₂).mono fun _ _ _ _ hid _ _ halike => ⟨halike, Shut.shut hid⟩
    refine value.bind fun id id' s₃ t₃ paired₃ hid => ?_
    have := hid.1
    refine .both rfl rfl paired₃ ⟨inferInstance, ?_⟩
    rintro _ ⟨⟩
    exact fun hgist => absurd hgist hid.2

/-! ## Blocks -/

theorem breakSeparator_le {c : Bool} (h : breakSeparator s = .ok c t) :
    t.cursor.position ≤ Cursor.skipFrom s.cursor.tokens (· == .newline) s.cursor.position := by
  unfold breakSeparator at h
  obtain ⟨_, s₁, h₁, h⟩ := bind_eq_ok.1 h
  obtain ⟨m, -⟩ := check_ok h₁
  have hposition : s₁.cursor.position = s.cursor.position := m.position
  split at h
  · cases h
    show Cursor.skipFrom s₁.cursor.tokens _ s₁.cursor.position ≤ _
    exact Nat.le_of_eq (by rw [m.tokens, hposition])
  · cases h
    rw [hposition]
    exact Cursor.le_skipFrom _ _ _

/-- What is known of a statement behind which a line break would have been skipped. -/
def BeforeStmt (w : Fork) (a : Stmt) (s : State) : Prop :=
  ∀ id, a = .expr id → s.arena.gists[id.index]? = some .openIf → s.cursor.position = w.index → w.tag ≠ .kwElse

theorem breakSeparator_meets {a : Stmt} (paired : w.Paired s t) (ha : AfterStmt w a s) :
    w.Meets .none (fun c c' s _ => c = c' ∧ BeforeStmt w a s) (breakSeparator s) (breakSeparator t) := by
  refine (Ends.meets s t paired).mono fun c c' s' t' hs _ _ (hc : Alike c c') =>
    ⟨hc.eq, fun id e hgist heq => ?_⟩
  have harena := Quiet.arena (p := breakSeparator) s
  rw [hs] at harena
  rw [show s'.arena = s.arena from harena] at hgist
  exact ha id e hgist (heq ▸ breakSeparator_le hs)

theorem rejectOpenIf_eq (stmts : List Stmt) (s : State) :
    rejectOpenIf stmts s =
      match stmts.getLast? with
      | some (.expr last) =>
        if (s.arena.gists[last.index]? == some .openIf) = true then failWanting (.single .kwElse) .lastWithoutElse s
        else .ok () s
      | _ => .ok () s := by
  unfold rejectOpenIf
  cases stmts.getLast? with
  | none => rfl
  | some last =>
    cases last with
    | letIn => rfl
    | expr last =>
      show (isOpenIf last >>= _) s = if (s.arena.gists[last.index]? == some .openIf) = true then _ else _
      rw [bind_of_ok (isOpenIf_eq last s)]
      cases s.arena.gists[last.index]? == some .openIf <;> rfl

/-- A block is refused only for an open `if` at its end. -/
theorem rejectOpenIf_cases (stmts : List Stmt) (s : State) :
    rejectOpenIf stmts s = .ok () s ∨
      ∃ last, stmts.getLast? = some (.expr last) ∧ (s.arena.gists[last.index]? == some .openIf) = true ∧
        rejectOpenIf stmts s = failWanting (.single .kwElse) .lastWithoutElse s := by
  rw [rejectOpenIf_eq]
  split
  · rename_i last hlast
    split
    · rename_i hgist
      exact .inr ⟨last, hlast, hgist, rfl⟩
    · exact .inl rfl
  · exact .inl rfl

/-- The left run refuses it for want of an `else`, which is not there on the right. -/
theorem rejectOpenIf_left {stmts : List Stmt} (paired : w.Paired s t)
    (hlast : ∀ a, stmts.getLast? = some a → BeforeStmt w a s) :
    rejectOpenIf stmts s = .ok () s ∨ w.Quits (rejectOpenIf stmts s) := by
  obtain hok | ⟨last, hend, hgist, hfails⟩ := rejectOpenIf_cases stmts s
  · exact .inl hok
  · refine .inr (hfails ▸ paired.quits_failWanting _ fun heq => ?_)
    exact TagSet.contains_single_of_ne (hlast _ hend last rfl (eq_of_beq hgist) heq)

/-- The right run refuses what it has at the index for it. -/
theorem rejectOpenIf_right (stmts : List Stmt) (paired : w.Paired s t) (heq : s.cursor.position = w.index)
    (htag : w.tag = .rbrace) (hne : w.found ≠ .rbrace) :
    rejectOpenIf stmts t = .ok () t ∨ w.Gone (rejectOpenIf stmts t) := by
  obtain hok | ⟨-, -, -, hfails⟩ := rejectOpenIf_cases stmts t
  · exact .inl hok
  · rw [hfails]
    refine .inr (.inr (.openIf (paired.position.trans heq) ?_ htag hne))
    rw [← paired.currentTag_right heq]
    exact says_complain (t.cursor.note _) _

theorem rejectOpenIf_meets {stmts stmts' : List Stmt} (paired : w.Paired s t) (halike : Alike stmts stmts')
    (hlast : ∀ a, stmts.getLast? = some a → BeforeStmt w a s) :
    w.Meets .none (fun _ _ _ _ => True) (rejectOpenIf stmts s) (rejectOpenIf stmts' t) := by
  obtain hleft | hquits := rejectOpenIf_left paired hlast
  · obtain hright | ⟨last, hend, hgist, -⟩ := rejectOpenIf_cases stmts' t
    · exact .both hleft hright paired trivial
    · -- the left run would have refused it, too
      refine absurd hleft ?_
      have hends := halike.getLast?.alike
      rw [hend] at hends
      cases hs : stmts.getLast? with
      | none => rw [hs] at hends; cases hends
      | some a =>
        rw [hs] at hends
        cases hends with
        | some hab =>
          cases a with
          | letIn => exact hab.elim
          | expr id =>
            obtain rfl : id = last := hab
            rw [paired.gists.beq_eq id.index (by decide)] at hgist
            rw [rejectOpenIf_eq, hs]
            simp only [if_pos hgist]
            rintro ⟨⟩
  · exact .quits hquits

instance [r.Shut] : Ends w stops (Grammar.block r) (Grammar.block r') := by
  have : Sides w (braced (stmt r) breakSeparator rejectOpenIf) (braced (stmt r') breakSeparator rejectOpenIf) :=
    braced_meets (fun _ _ paired => stmt_meets paired) (fun _ _ _ paired ha => breakSeparator_meets paired ha)
      (fun _ _ _ _ paired halike hlast => rejectOpenIf_meets paired halike hlast)
      (fun _ _ _ paired _ hlast => rejectOpenIf_left paired hlast)
      fun stmts _ _ paired heq htag hne => rejectOpenIf_right stmts paired heq htag hne
  unfold Grammar.block
  infer_instance

/-! ## Lambdas -/

instance (start start' : Span) {params params' : List PatternId} [hp : Alike params params'] :
    Veers w ctx ctx' (lambdaBody r ctx start params) (lambdaBody r' ctx' start' params') := by
  unfold lambdaBody
  rw [hp.isEmpty_eq]
  infer_instance

omit [r.Enters] [r'.Enters] in
omit [r.Enters] [SideRules w r r'] [r'.Forward] [r'.Enters] [Looser ctx ctx'] in
/-- Behind parameters the end of them is taken. -/
theorem lambdaBody_enters (span : Span) {params : List PatternId} (hne : params ≠ []) :
    Enters (.single .pipe) (lambdaBody r ctx span params) := by
  unfold lambdaBody
  rw [if_neg (by simpa using hne)]
  infer_instance

omit [r.Enters] [r'.Enters] in
theorem lambdaParams_meets (paired : w.Paired s t) (hpipe : s.cursor.currentTag = .pipe) :
    w.Meets (.straying (w.Stuck ctx ctx')) SameWay
      ((advance >>= fun start => many (optionally (isBefore .pipe) atom) >>= fun params =>
        lambdaBody r ctx start.span params) s)
      ((advance >>= fun start => many (optionally (isBefore .pipe) atom) >>= fun params =>
        lambdaBody r' ctx' start.span params) t) := by
  have hend : s.cursor.isAtEnd = false := isAtEnd_eq_false hpipe (by decide)
  rcases Nat.lt_or_eq_of_le paired.le with hlt | heq
  · have hend' : t.cursor.isAtEnd = false := isAtEnd_eq_false ((paired.currentTag hlt).trans hpipe) (by decide)
    rw [bind_of_ok (advance_of_not_isAtEnd hend), bind_of_ok (advance_of_not_isAtEnd hend'), paired.position]
    have hmoved := paired.move (Nat.le_succ s.cursor.position) hlt
    refine (row_meets hmoved).bind_stop ?_ ?_ ?_ fun _ _ => False.elim
    · rintro params params' s' t' paired' ⟨_, -⟩
      exact Ends.meets s' t' paired'
    · rintro params params' s' t' paired' - heq hstop
      cases params with
      | nil => exact paired'.fresh
      | cons p ps =>
        have : Enters (.single .pipe) (lambdaBody r ctx s.cursor.current.span (p :: ps)) :=
          lambdaBody_enters ctx _ (List.cons_ne_nil p ps)
        exact paired'.quits heq hstop
    · rintro params params' s' t' paired' ⟨halike, hposition⟩ heq hstop hne
      cases params' with
      | nil =>
        have hparams : params = [] := by
          have := halike.isEmpty_eq
          simpa using this
        have htag : w.tag = .pipe := TagSet.eq_of_contains_single hstop
        refine .inr (.noParam (paired'.position.trans heq) ?_ ((hposition hparams).symm.trans heq) ?_ htag ?_)
        · rw [← paired'.currentTag_right heq]
          exact says_complain t'.cursor _
        · rw [← hpipe, Cursor.currentTag, Cursor.tagAt, paired.left]
        · intro e
          rw [show w.found = .pipe from e] at hne
          cases hne
      | cons p ps =>
        have : Enters (.single .pipe) (lambdaBody r' ctx' t.cursor.current.span (p :: ps)) :=
          lambdaBody_enters ctx' _ (List.cons_ne_nil p ps)
        exact paired'.gone heq hstop
  · exact .quits (.of_entered (Entered.advance hend).bind (Nat.le_of_eq heq.symm))

section Lambda

variable [r.Calm w.spot] [r.Rooting] [r'.NoQuote]

instance : Veers w ctx ctx' (lambda r ctx) (lambda r' ctx') :=
  ⟨fun _ _ paired => ask_meets paired
    (fun _ _ paired hpipe => lambdaParams_meets ctx ctx' paired (TagSet.eq_of_contains_single hpipe))
    fun s t paired => Ends.meets s t paired⟩

/-- What is no lambda beside any expression. -/
theorem arrow_lambda_veers : Veers w ctx ctx' (Grammar.arrow r ctx) (lambda r' ctx') := by
  refine ⟨fun s t paired => ?_⟩
  cases hpipe : (TagSet.single .pipe).contains t.cursor.currentTag with
  | true =>
    have htag : t.cursor.currentTag = .pipe := TagSet.eq_of_contains_single hpipe
    rcases Nat.lt_or_eq_of_le paired.le with hlt | heq
    · -- the left run refuses the lambda
      have hleft : s.cursor.currentTag = .pipe := (paired.currentTag hlt).symm.trans htag
      obtain ⟨e, s', hs, -, hposition⟩ := arrow_of_not_mem (r := r) ctx (by rw [hleft]; rfl) (by rw [hleft]; decide)
      rw [hs]
      exact .quits fun heq => absurd (hposition.symm.trans heq) (Nat.ne_of_lt hlt)
    · have enters : Enters .exprStart (lambda r' ctx') := inferInstance
      exact .gone (.of_entered (enters.enters t (by rw [htag]; rfl)) (Nat.le_of_eq (paired.position.trans heq).symm))
  | false =>
    have hrun : lambda r' ctx' t = Grammar.arrow r' ctx' (t.noted (.single .pipe)) := by
      rw [lambda, check_eq_checkSet]
      exact bind_of_ok (checkSet_of_not_mem hpipe)
    rw [hrun]
    exact Ends.meets s _ (paired.note_right _)

end Lambda

/-! ## Tying the recursion -/

omit [r.Forward] [r'.Forward] [r.Enters] [r'.Enters] [SideRules w r r'] [Looser ctx ctx'] in
instance rules_side (w : Fork) (n m : Nat) : SideRules w (rules n) (rules m) := by
  induction n generalizing m with
  | zero => exact ⟨fun _ _ _ => ⟨fun _ _ _ => .quits trivial⟩, fun _ => ⟨fun _ _ _ => .quits trivial⟩,
      fun _ _ _ => ⟨fun _ _ _ => .quits trivial⟩, ⟨fun _ _ _ => .quits trivial⟩⟩
  | succ n ih =>
    cases m with
    | zero => exact ⟨fun _ _ _ => ⟨fun _ _ _ => .gone trivial⟩, fun _ => ⟨fun _ _ _ => .gone trivial⟩,
        fun _ _ _ => ⟨fun _ _ _ => .gone trivial⟩, ⟨fun _ _ _ => .gone trivial⟩⟩
    | succ m =>
      have := ih m
      exact ⟨fun ctx ctx' _ => inferInstanceAs (Veers w ctx ctx' (lambda (rules n) ctx) (lambda (rules m) ctx')),
        fun ctx => Ends.sides (inferInstance : Veers w ctx ctx (Grammar.arrow (rules n) ctx)
          (Grammar.arrow (rules m) ctx)),
        fun ctx ctx' _ => (arrow_lambda_veers ctx ctx' : Veers w ctx ctx' (Grammar.arrow (rules n) ctx)
          (lambda (rules m) ctx')),
        inferInstanceAs (Sides w (Grammar.block (rules n)) (Grammar.block (rules m)))⟩

end SolSyntax.Fork
