import SolSyntax.Proofs.Matching
import SolSyntax.Proofs.Spans

/-!
# Parameter lists

A parameter list holds a parameter, with one exception: nothing but line breaks need stand between its
brackets.  The loop that reads the items of a bracketed list asks for the closing bracket first, and what
was seen ahead of the list does not always tell that there is an item.  A list in parentheses before an
arrow was seen to hold a quote or a colon, and a domain is made of what was read; these are never empty.

Principal results: `paramSet_binds` — the list that is read; `Careful` — a property of every production up
to `declLine`, about the lists that are stored, of which only those with a list before an arrow need a
proof; `parse_paramSets` — the lists that a parse leads to.
-/

namespace SolSyntax

open Grammar

/-- A parameter list is written as a pair of brackets with nothing but line breaks between them. -/
def TokenList.Vacant (ts : TokenList) (p : ParamSet) : Prop :=
  ∃ (before : List Token) (o : Token) (breaks : List Token) (c : Token) (after : List Token),
    ts.toList = before ++ o :: (breaks ++ c :: after) ∧
      (∀ b ∈ breaks, b.tag = .newline) ∧
      paramSetShape? o.tag = some (p.kind, c.tag) ∧ p.span = o.span.merge c.span

/-- How a parameter list may have come about. -/
inductive TokenList.Binds (ts : TokenList) : ParamSet → Prop
  /-- It was written in brackets. -/
  | list {p} : p.kind ≠ .domain → (p.params = [] → ts.Vacant p) → Binds ts p
  /-- It was made of a type alone. -/
  | domain (type : ExprId) (span : Span) : Binds ts ⟨.domain, [⟨.typed none type, span⟩], span⟩

theorem TokenList.Binds.vacant {ts : TokenList} {p : ParamSet} (h : ts.Binds p)
    (hempty : p.params = []) : p.kind ≠ .domain ∧ ts.Vacant p := by
  cases h with
  | list hkind hvacant => exact ⟨hkind, hvacant hempty⟩
  | domain => cases hempty

/-- An arrow and a fat arrow bind the parameters in a list. -/
def ExprKind.Bound (ts : TokenList) : ExprKind → Prop
  | .pi p _ => ts.Binds p ∧ (p.kind = .explicit → p.params ≠ [])
  | .sigma p _ => ts.Binds p
  | _ => True

theorem ExprKind.Unbinding.bound {kind : ExprKind} [h : kind.Unbinding] (ts : TokenList) : kind.Bound ts := by
  cases kind with
  | pi params result => exact absurd rfl (h.ne_pi params result)
  | sigma params result => exact absurd rfl (h.ne_sigma params result)
  | _ => trivial

/-- The parameter lists of a declaration. -/
def DeclKind.paramSets : DeclKind → List ParamSet
  | .inductiveType _ params _ _ | .signature _ params _ _ => params
  | _ => []

namespace Grammar

open Parse

variable {s t : State} {p : Parse α} {r : Rules}

theorem Forward.tokens_of_ok [hf : Forward p] {x : α} (hp : p s = .ok x t) :
    t.cursor.tokens = s.cursor.tokens := by
  have onward := hf.onward s
  rw [hp] at onward
  exact onward.cursor.tokens

/-! ## The list that is read -/

/-- A list without items ends where it begins. -/
theorem sequence_empty {close : Tag} {separator : Parse Bool} {found : List α × Bool}
    (h : sequence close p separator s = .ok found t) (hempty : found.1 = []) :
    Moved 0 s t ∧ s.cursor.currentTag = close := by
  unfold sequence at h
  obtain ⟨found', s₁, h₁, h⟩ := bind_eq_ok.1 h
  cases h
  have ended : found'.1 = [] → Moved 0 s t ∧ s.cursor.currentTag = close := by
    refine repeating_invariant (I := fun found u => found.1 = [] → Moved 0 s u)
      (Q := fun found u => found.1 = [] → Moved 0 s u ∧ s.cursor.currentTag = close) ?_
      (fun _ => .refl s) h₁
    intro found u step v kept hturn
    unfold sequenceTurn at hturn
    obtain ⟨closes, u₁, hcheck, hturn⟩ := bind_eq_ok.1 hturn
    obtain ⟨m, rfl⟩ := check_ok hcheck
    split at hturn
    · rename_i hclose
      cases hturn
      intro hnil
      have moved := kept hnil
      exact ⟨moved.trans m, moved.currentTag ▸ eq_of_beq hclose⟩
    · -- An item was read, so the list is no longer empty.
      obtain ⟨x, u₂, -, hturn⟩ := bind_eq_ok.1 hturn
      obtain ⟨more, u₃, -, hturn⟩ := bind_eq_ok.1 hturn
      split at hturn <;>
      · cases hturn
        intro hnil
        cases hnil
  exact ended (List.reverse_eq_nil_iff.1 hempty)

theorem exists_rest_eq_cons (h : s.cursor.currentTag ≠ .eof) :
    ∃ tok r, s.cursor.rest = tok :: r ∧ tok.tag = s.cursor.currentTag := by
  rw [Cursor.currentTag_eq] at h ⊢
  cases hr : s.cursor.rest with
  | nil => rw [hr] at h; exact absurd rfl h
  | cons tok r => exact ⟨tok, r, rfl, rfl⟩

/-- The closing bracket is the token at the cursor. -/
theorem expectClosing_ok {close : Tag} {opening span : Span} (he : close ≠ .eof)
    (h : expectClosing close opening s = .ok span t) :
    ∃ c r, s.cursor.rest = c :: r ∧ c.tag = close ∧ span = c.span := by
  unfold expectClosing at h
  obtain ⟨closes, s₁, h₁, h⟩ := bind_eq_ok.1 h
  obtain ⟨m, rfl⟩ := check_ok h₁
  split at h
  · rename_i hclose
    have htag : s.cursor.currentTag = close := eq_of_beq hclose
    obtain ⟨c, r, hr, hc⟩ := exists_rest_eq_cons (htag ▸ he)
    have hr₁ : s₁.cursor.rest = c :: r := m.rest.trans hr
    obtain ⟨u, hu, -⟩ := advance_eq hr₁ (by rw [hc, htag]; exact he)
    obtain ⟨tok, s₂, h₂, h⟩ := bind_eq_ok.1 h
    rw [hu] at h₂
    cases h₂
    cases h
    exact ⟨c, r, hr, hc.trans htag, rfl⟩
  · obtain ⟨e, s₂, -, h⟩ := bind_eq_ok.1 h
    cases h

/-- A bracketed list without items has only line breaks between its brackets. -/
theorem bracketed_empty {close : Tag} {found : Bracketed α} (hs : s.cursor.currentTag ≠ .eof)
    (hc : close ≠ .eof) (h : bracketed close p s = .ok found t) (hempty : found.items = []) :
    ∃ o breaks c after, s.cursor.rest = o :: (breaks ++ c :: after) ∧
      (∀ b ∈ breaks, b.tag = .newline) ∧ c.tag = close ∧ found.span = o.span.merge c.span := by
  obtain ⟨o, r, hr, ho⟩ := exists_rest_eq_cons hs
  unfold bracketed at h
  obtain ⟨opening, s₁, h₁, h⟩ := bind_eq_ok.1 h
  obtain ⟨u, hu, m₁⟩ := advance_eq hr (ho ▸ hs)
  rw [hu] at h₁
  cases h₁
  obtain ⟨_, s₂, h₂, h⟩ := bind_eq_ok.1 h
  obtain ⟨v, hv, m₂⟩ := skipNewlines_eq s₁
  rw [hv] at h₂
  cases h₂
  obtain ⟨items, s₃, h₃, h⟩ := bind_eq_ok.1 h
  obtain ⟨closing, s₄, h₄, h⟩ := bind_eq_ok.1 h
  cases h
  obtain ⟨m₃, -⟩ := sequence_empty h₃ hempty
  obtain ⟨c, after, hrest, htag, rfl⟩ := expectClosing_ok hc h₄
  have hr₁ : s₁.cursor.rest = r := by rw [m₁.rest, hr]; rfl
  refine ⟨o, r.takeWhile (·.tag == .newline), c, after, ?_, ?_, htag, rfl⟩
  · rw [m₃.rest, List.drop_zero, m₂.rest, hr₁] at hrest
    rw [hr, ← hrest, Cursor.drop_length_takeWhile, List.takeWhile_append_dropWhile]
  · intro b hb
    exact eq_of_beq (List.all_eq_true.1 List.all_takeWhile b hb)

/-- Behind an opening bracket of its kind, an empty parameter list holds line breaks alone. -/
theorem paramSet_empty {params : ParamSet} (h : paramSet r s = .ok params t)
    (hempty : params.params = []) :
    ∃ o breaks c after, s.cursor.rest = o :: (breaks ++ c :: after) ∧
      (∀ b ∈ breaks, b.tag = .newline) ∧ paramSetShape? o.tag = some (params.kind, c.tag) ∧
      params.span = o.span.merge c.span := by
  obtain ⟨close, found, hshape, hlist, hitems, hspan⟩ := paramSet_ok h
  obtain ⟨hs, hc, -⟩ := paramSetShape?_ne hshape
  obtain ⟨o, breaks, c, after, hrest, hbreaks, rfl, hmerge⟩ :=
    bracketed_empty hs hc hlist (hitems ▸ hempty)
  refine ⟨o, breaks, c, after, hrest, hbreaks, ?_, hspan.trans hmerge⟩
  rw [Cursor.currentTag_eq, hrest] at hshape
  exact hshape

/-- A list that is read was written in brackets. -/
theorem paramSet_binds {params : ParamSet} (h : paramSet r s = .ok params t) :
    s.cursor.tokens.Binds params := by
  obtain ⟨_, _, hshape, -⟩ := paramSet_ok h
  refine .list (paramSetShape?_ne hshape).2.2 fun hempty => ?_
  obtain ⟨o, breaks, c, after, hrest, hbreaks, hbrackets, hspan⟩ := paramSet_empty h hempty
  refine ⟨s.cursor.tokens.toList.take s.cursor.position, o, breaks, c, after, ?_, hbreaks, hbrackets,
    hspan⟩
  rw [← hrest]
  exact (List.take_append_drop _ _).symm

/-- Line breaks are neither brackets nor a colon. -/
theorem nested_of_breaks {breaks : List Token} (h : ∀ b ∈ breaks, b.tag = .newline) :
    Nested false breaks ∧ occursIn .colon breaks 0 = false := by
  induction breaks with
  | nil => exact ⟨.nil _, rfl⟩
  | cons b breaks ih =>
    obtain ⟨hb, hrest⟩ := List.forall_mem_cons.1 h
    obtain ⟨hn, ho⟩ := ih hrest
    refine ⟨.token (by rw [hb]; rfl) (by simp) hn, ?_⟩
    rw [occursIn, hb, if_neg (by decide)]
    exact ho

/-- A list in parentheses that was seen to hold parameters is not empty. -/
theorem paramSet_explicit {params : ParamSet} (hstarts : startsParamList s.cursor = true)
    (h : paramSet r s = .ok params t) (hkind : params.kind = .explicit) : params.params ≠ [] := by
  intro hempty
  obtain ⟨o, breaks, c, after, hrest, hbreaks, hshape, -⟩ := paramSet_empty h hempty
  obtain ⟨ho, hc⟩ : o.tag = .lparen ∧ c.tag = .rparen := by
    rw [hkind] at hshape
    revert hshape
    cases o.tag <;> simp [paramSetShape?, eq_comm]
  obtain ⟨hnested, hcolon⟩ := nested_of_breaks hbreaks
  have hsplit := groupSplit_group (by rw [ho]; rfl) (by rw [hc]; rfl) hnested after
  have hquote : (headTag (breaks ++ c :: after) == .quote) = false := by
    cases breaks with
    | nil => rw [List.nil_append, headTag_cons, hc]; rfl
    | cons b breaks => rw [List.cons_append, headTag_cons, (List.forall_mem_cons.1 hbreaks).1]; rfl
  have hbrace : s.cursor.isAt .lbrace = false := by
    rw [Cursor.isAt_eq, hrest, headTag_cons, ho]
    rfl
  simp [startsParamList, hbrace, Cursor.isParamList_eq, hrest, holdsParams, hsplit, hquote, hcolon]
    at hstarts

/-! ## The lists that are stored -/

/-- The parameters of all stored expressions are bound. -/
def State.Binds (s : State) : Prop := ∀ e ∈ s.arena.exprs, e.kind.Bound s.cursor.tokens

theorem State.Binds.move (h : s.Binds) (hc : s.cursor.Onward t.cursor) (ha : t.arena = s.arena) :
    t.Binds := by
  intro e he
  rw [hc.tokens]
  exact h e (ha ▸ he)

/-- A step that stores only parameter lists that were written, whether it succeeds or fails. -/
class Careful (p : Parse α) : Prop where
  keeps : ∀ s : State, s.Binds → (final (p s)).Binds

namespace Careful

/-- One step after another, of which the second may rely on what the first has given. -/
theorem bind_of {f : α → Parse β} [hp : Careful p] (hs : s.Binds)
    (hf : ∀ x t, p s = .ok x t → t.Binds → (final (f x t)).Binds) : (final ((p >>= f) s)).Binds := by
  have first := hp.keeps s hs
  cases e : p s with
  | ok x t =>
    rw [e] at first
    rw [bind_of_ok e]
    exact hf x t e first
  | error x t =>
    rw [e] at first
    rw [bind_of_error e]
    exact first

/-- A step that leaves the nodes alone. -/
theorem ofQuiet [Forward p] [hq : Quiet p] : Careful p :=
  ⟨fun s hs => hs.move (Forward.onward s).cursor (hq.arena s)⟩

theorem within [hp : Careful p] (what : Construct) : Careful (within what p) := by
  refine ⟨fun s hs => ?_⟩
  have h := hp.keeps s hs
  unfold Parse.within
  cases e : p s <;> rw [e] at h <;> exact h

instance : Sequential @Careful where
  pure _ := ofQuiet
  bind _ hf := ⟨fun _ hs => bind_of hs fun x t _ ht => (hf x).keeps t ht⟩
  exhausted := ofQuiet
  within what _ := within what
  bounded h := ⟨fun s hs => (h s.bound).keeps s hs⟩

instance : Closed @Careful :=
  .of_both (P := @Forward) (Q := @Quiet) fun _ _ => ofQuiet

instance [h : Has @Careful p] : Careful p := h.has

instance (priority := low) [h : Careful p] : Has @Careful p := ⟨h⟩

/-! ### Nodes -/

theorem push {kind : ExprKind} (span : Span) (hs : s.Binds) (hk : kind.Bound s.cursor.tokens) :
    (final (newExpr kind span s)).Binds := by
  intro e he
  rcases Array.mem_push.1 he with he | rfl
  · exact hs e he
  · exact hk

instance : Storing @Careful where
  newPattern _ _ := ⟨fun _ hs => hs⟩
  newExpr _ _ span := ⟨fun _ hs => push span hs (ExprKind.Unbinding.bound _)⟩

/-- Only applications change when an expression is read again as a type. -/
instance (id : ExprId) : Careful (toType id) := by
  refine ⟨fun s hs => ?_⟩
  have hstored := (Arena.Retyped.retag (id.index + 1) id s.arena).stored
  have hfinal : (final (toType id s)).arena = (s.arena.toType id).2 ∧
      (final (toType id s)).cursor = s.cursor := by
    unfold toType
    split <;> rename_i h <;> rw [h] <;> exact ⟨rfl, rfl⟩
  intro e he
  rw [hfinal.1] at he
  rw [hfinal.2]
  obtain ⟨i, hi, rfl⟩ := Array.mem_iff_getElem.1 he
  rcases hstored ⟨i⟩ _ (Array.getElem?_eq_getElem hi) with hold | ⟨callee, args, hk⟩
  · exact hs _ (Array.mem_of_getElem? hold)
  · rw [hk]
    trivial

end Careful

/-! ### Expressions -/

/-- Careful readers. -/
class Rules.Careful (r : Rules) : Prop where
  expr : ∀ ctx, Grammar.Careful (r.expr ctx)
  arrow : ∀ ctx, Grammar.Careful (r.arrow ctx)
  block : Grammar.Careful r.block

instance [h : r.Careful] : r.Have @Careful := ⟨h.expr, h.arrow, h.block⟩

namespace Careful

variable [r.Forward] [r.Careful] (ctx : Context)

/-- A parameter list stands among the same tokens behind a step. -/
theorem binds_of_ok [Forward p] {x : α} {params : ParamSet} (hp : p s = .ok x t)
    (h : s.cursor.tokens.Binds params) : t.cursor.tokens.Binds params :=
  Forward.tokens_of_ok hp ▸ h

theorem sigmaResult_keeps {params : ParamSet} (hs : s.Binds) (hp : s.cursor.tokens.Binds params) :
    (final (sigmaResult r ctx params s)).Binds := by
  unfold sigmaResult
  refine bind_of hs fun result t ht hbinds => ?_
  exact push _ hbinds (binds_of_ok ht hp)

instance : Careful (sigma r ctx) := by
  refine ⟨fun s hs => ?_⟩
  unfold sigma
  refine bind_of hs fun c t ht hbinds => ?_
  split
  · refine bind_of hbinds fun params u hu hbinds => ?_
    refine bind_of hbinds fun _ v hv hbinds => ?_
    exact sigmaResult_keeps ctx hbinds (binds_of_ok hv (binds_of_ok hu (paramSet_binds hu)))
  · exact keeps t hbinds

theorem arrowResult_keeps {params : ParamSet} (hs : s.Binds) (hp : s.cursor.tokens.Binds params)
    (hne : params.kind = .explicit → params.params ≠ []) :
    (final (arrowResult r ctx params s)).Binds := by
  unfold arrowResult
  refine bind_of hs fun result t ht hbinds => ?_
  exact push _ hbinds ⟨binds_of_ok ht hp, hne⟩

instance (domain : ExprId) : Careful (domainResult r ctx domain) := by
  refine ⟨fun s hs => ?_⟩
  unfold domainResult
  refine bind_of hs fun _ t _ hbinds => ?_
  refine bind_of hbinds fun span u _ hbinds => ?_
  exact arrowResult_keeps ctx hbinds (.domain _ _) fun h => by cases h

instance : Careful (arrow r ctx) := by
  refine ⟨fun s hs => ?_⟩
  unfold arrow
  refine bind_of hs fun c t ht hbinds => ?_
  cases ht
  split
  · rename_i hstarts
    refine bind_of hbinds fun params u hu hbinds => ?_
    refine bind_of hbinds fun _ v hv hbinds => ?_
    exact arrowResult_keeps ctx hbinds (binds_of_ok hv (binds_of_ok hu (paramSet_binds hu)))
      (paramSet_explicit hstarts hu)
  · exact keeps _ hbinds

end Careful

instance Rules.careful_rules (n : Nat) : (rules n).Careful := by
  have h : (rules n).Have @Grammar.Careful := Rules.have_rules (fun n h _ => by
    have : (rules n).Careful := ⟨h.expr, h.arrow, h.block⟩
    infer_instance) n
  exact ⟨h.expr, h.arrow, h.block⟩

/-! ## The lists of a declaration -/

variable [r.Forward]

theorem declParams_bind {lists : List ParamSet} (h : declParams r s = .ok lists t) :
    ∀ params ∈ lists, s.cursor.tokens.Binds params := by
  unfold declParams many at h
  obtain ⟨found, s₁, h₁, h⟩ := bind_eq_ok.1 h
  cases h
  suffices hfound : ∀ params ∈ found, s.cursor.tokens.Binds params by
    exact fun params hp => hfound params (List.mem_reverse.1 hp)
  refine repeating_invariant
    (I := fun found u => u.cursor.tokens = s.cursor.tokens ∧
      ∀ params ∈ found, s.cursor.tokens.Binds params)
    (Q := fun found _ => ∀ params ∈ found, s.cursor.tokens.Binds params) ?_
    ⟨rfl, fun params hp => by cases hp⟩ h₁
  rintro found u step v ⟨htokens, hfound⟩ hturn
  unfold manyTurn optionally at hturn
  simp only [bind_eq_ok] at hturn
  obtain ⟨item, u₁, ⟨starts, u₂, hstarts, hitem⟩, hturn⟩ := hturn
  cases starts with
  | false =>
    cases hitem
    cases hturn
    exact hfound
  | true =>
    obtain ⟨params, u₃, hparams, hitem⟩ := bind_eq_ok.1 hitem
    cases hitem
    cases hturn
    have hu := (Forward.tokens_of_ok hstarts).trans htokens
    refine ⟨(Forward.tokens_of_ok hparams).trans hu, ?_⟩
    intro q hq
    rcases List.mem_cons.1 hq with rfl | hq
    · exact hu ▸ paramSet_binds hparams
    · exact hfound q hq

theorem namedDecl_binds {kind : DeclKind} (h : namedDecl r s = .ok kind t) :
    ∀ params ∈ kind.paramSets, s.cursor.tokens.Binds params := by
  unfold namedDecl at h
  obtain ⟨isClause, s₁, h₁, h⟩ := bind_eq_ok.1 h
  cases h₁
  split at h
  · unfold clauseDecl at h
    simp only [bind_eq_ok] at h
    obtain ⟨_, _, -, _, _, -, _, _, -, _, _, -, h⟩ := h
    cases h
    intro params hp
    cases hp
  · unfold signatureDecl at h
    simp only [bind_eq_ok] at h
    obtain ⟨_, _, h₁, params, _, h₂, _, _, -, _, _, -, h⟩ := h
    cases h
    have hparams := declParams_bind h₂
    rwa [Forward.tokens_of_ok h₁] at hparams

/-- The parameter lists of what is read are bound. -/
theorem declKind_binds {kind : DeclKind} (h : declKind r s = .ok kind t) :
    ∀ params ∈ kind.paramSets, s.cursor.tokens.Binds params := by
  unfold declKind at h
  obtain ⟨tag, s₁, h₁, h⟩ := bind_eq_ok.1 h
  cases h₁
  generalize s.cursor.currentTag = tag at h
  generalize hq : declKindOf r tag = q at h
  unfold declKindOf at hq
  split at hq <;> subst hq
  · unfold usingDecl at h
    simp only [bind_eq_ok] at h
    obtain ⟨_, _, -, _, _, -, h⟩ := h
    cases h
    intro params hp
    cases hp
  · unfold commandDecl at h
    simp only [bind_eq_ok] at h
    obtain ⟨_, _, -, _, _, -, _, _, -, h⟩ := h
    cases h
    intro params hp
    cases hp
  · have h := within_ok h
    unfold inductiveDecl at h
    simp only [bind_eq_ok] at h
    obtain ⟨_, _, h₁, _, _, h₂, params, _, h₃, _, _, -, _, _, -, h⟩ := h
    cases h
    have hparams := declParams_bind h₃
    rwa [Forward.tokens_of_ok h₂, Forward.tokens_of_ok h₁] at hparams
  · exact namedDecl_binds h
  · exact namedDecl_binds h
  · unfold failWanting at h
    obtain ⟨_, _, -, h⟩ := bind_eq_ok.1 h
    cases h

theorem declLine_binds {d : Decl} (h : declLine r s = .ok d t) :
    ∀ params ∈ d.kind.paramSets, s.cursor.tokens.Binds params := by
  unfold declLine decl at h
  simp only [bind_eq_ok] at h
  obtain ⟨d', _, ⟨start, _, h₁, attrs, _, h₂, dangling, _, h₃, hd⟩, _, _, -, h⟩ := h
  cases h
  split at hd
  · cases hd
  · unfold attributed at hd
    simp only [bind_eq_ok] at hd
    obtain ⟨_, _, h₄, kind, _, h₅, _, _, -, hd⟩ := hd
    cases hd
    have hkind := declKind_binds h₅
    rwa [Forward.tokens_of_ok h₄, Forward.tokens_of_ok h₃, Forward.tokens_of_ok h₂,
      Forward.tokens_of_ok h₁] at hkind

end Grammar

/-! ## Whole modules -/

variable {tokens : TokenList} {s : State}

/-- Among some tokens, all that is stored binds its parameters, and so do some declarations. -/
structure TokenList.BindsAll (tokens : TokenList) (decls : List Decl) (s : State) : Prop where
  among : s.cursor.tokens = tokens
  stored : s.Binds
  decls : ∀ d ∈ decls, ∀ params ∈ d.kind.paramSets, tokens.Binds params

theorem parseDecls_binds {r : Rules} [r.Forward] [r.Careful] {recovery : Recovery} {tags : Array Nat}
    {hashBang : Option Name} {n : Nat} {decls : List Decl} {errors : List SyntaxError}
    (h : tokens.BindsAll decls s) :
    tokens.BindsAll (parseDecls recovery r tags hashBang n decls errors s).module.decls
      (parseDecls recovery r tags hashBang n decls errors s).state := by
  have finished : ∀ {decls errors s exhausted}, tokens.BindsAll decls s →
      tokens.BindsAll (ModuleRun.finish hashBang decls errors s exhausted).module.decls
        (ModuleRun.finish hashBang decls errors s exhausted).state :=
    fun h => ⟨h.among, h.stored, fun d hd => h.decls d (List.mem_reverse.1 hd)⟩
  induction n generalizing decls errors s with
  | zero => exact finished h
  | succ n ih =>
    unfold parseDecls
    dsimp only
    have skipped : tokens.BindsAll decls { s with cursor := s.cursor.skipNewlines } :=
      ⟨h.among, h.stored, h.decls⟩
    split
    · exact finished skipped
    · have onward := Forward.onward (p := declLine r) { s with cursor := s.cursor.skipNewlines }
      have careful := Careful.keeps (p := declLine r) _ skipped.stored
      split
      · rename_i d s' hd
        rw [hd] at onward careful
        refine ih ⟨onward.cursor.tokens.trans skipped.among, careful, ?_⟩
        rintro e he
        rcases List.mem_cons.1 he with rfl | he
        · exact skipped.among ▸ declLine_binds hd
        · exact h.decls e he
      · rename_i s' hd
        rw [hd] at onward careful
        exact finished ⟨onward.cursor.tokens.trans skipped.among, careful, h.decls⟩
      · rename_i e s' hd
        rw [hd] at onward careful
        have failed : tokens.BindsAll decls s' :=
          ⟨onward.cursor.tokens.trans skipped.among, careful, h.decls⟩
        split
        · exact finished failed
        · exact ih ⟨failed.among, failed.stored, failed.decls⟩

/-- All that a parse stores binds its parameters, and so do the declarations of its module. -/
theorem parse_binds {names names' : Interner} {recovery : Recovery} {output : ParseOutput}
    (h : parse tokens names recovery = (.ok output, names')) :
    (∀ e ∈ output.arena.exprs, e.kind.Bound tokens) ∧
      ∀ d ∈ output.module.decls, ∀ params ∈ d.kind.paramSets, tokens.Binds params := by
  have hstart : tokens.BindsAll [] (takeHashBang (.start tokens names)).2 := by
    have hempty : (State.start tokens names).Binds := fun e he => absurd he (Array.not_mem_empty e)
    unfold takeHashBang
    split
    · exact ⟨(Cursor.start tokens).onward_advance.tokens,
        hempty.move (Cursor.start tokens).onward_advance rfl, fun d hd => by cases hd⟩
    · exact ⟨rfl, hempty, fun d hd => by cases hd⟩
  have hrun : tokens.BindsAll (parseModule recovery (.start tokens names)).module.decls
      (parseModule recovery (.start tokens names)).state := parseDecls_binds hstart
  obtain ⟨-, -, rfl⟩ := (parse_ok_iff rfl).1 (congrArg Prod.fst h)
  exact ⟨fun e he => hrun.among ▸ hrun.stored e he, hrun.decls⟩

/-! ## What a module leads to -/

theorem mem_partsIn {x : Node} {row : List Sign} : x ∈ partsIn row ↔ .part x ∈ row := by
  rw [partsIn, List.mem_filterMap]
  constructor
  · rintro ⟨sign, hsign, h⟩
    cases sign <;> cases h
    exact hsign
  · exact fun h => ⟨_, h, rfl⟩

/-- A part that is a parameter list is bound by an arrow or a fat arrow. -/
theorem ExprKind.Bound.part {kind : ExprKind} {params : ParamSet} (h : kind.Bound tokens)
    (hp : .paramSet params ∈ partsIn kind.signs) : tokens.Binds params := by
  cases kind with
  | pi p result =>
    obtain rfl : params = p := by simpa [ExprKind.signs] using hp
    exact h.1
  | sigma p result =>
    obtain rfl : params = p := by simpa [ExprKind.signs] using hp
    exact h
  | app callee args braces => cases braces <;> simp [ExprKind.signs, mem_partsIn] at hp
  | cond test thenBranch elseBranch position =>
    cases elseBranch <;> simp [ExprKind.signs] at hp
  | _ => simp [ExprKind.signs, mem_partsIn] at hp

theorem DeclKind.paramSet_mem_parts {kind : DeclKind} {params : ParamSet} :
    .paramSet params ∈ partsIn kind.signs ↔ params ∈ kind.paramSets := by
  cases kind with
  | inductiveType name lists type constructors =>
    cases type <;> simp [DeclKind.signs, typing, DeclKind.paramSets, mem_partsIn]
  | signature name lists type body =>
    cases type <;> cases body <;> simp [DeclKind.signs, typing, DeclKind.paramSets, mem_partsIn]
  | clause name patterns value =>
    cases value <;> simp [DeclKind.signs, DeclKind.paramSets, mem_partsIn]
  | _ => simp [DeclKind.signs, DeclKind.paramSets, mem_partsIn]

/-- A node that is neither a parameter list nor a declaration. -/
def Node.isPlain : Node → Bool
  | .paramSet _ | .decl _ => false
  | _ => true

/-- Nodes other than expressions and declarations have only plain parts. -/
theorem Node.isPlain_of_mem_parts {a : Arena} {x y : Node} (h : y ∈ x.parts a) :
    (∃ id, x = .expr id) ∨ (∃ d, x = .decl d) ∨ y.isPlain = true := by
  suffices hx : (∃ id, x = .expr id) ∨ (∃ d, x = .decl d) ∨ (x.parts a).all Node.isPlain = true from
    hx.imp_right fun hx => hx.imp_right fun hall => List.all_eq_true.1 hall y h
  cases x with
  | expr id => exact .inl ⟨id, rfl⟩
  | decl d => exact .inr (.inl ⟨d, rfl⟩)
  | pattern id =>
    refine .inr (.inr ?_)
    cases hp : a.pattern? id with
    | none => simp [Node.parts, hp]
    | some p =>
      cases hk : p.kind <;> simp [Node.parts, hp, hk, PatternKind.signs, mem_partsIn, isPlain]
  | param p =>
    obtain ⟨kind, span⟩ := p
    refine .inr (.inr ?_)
    cases kind with
    | typed binding type => cases binding <;> simp [Node.parts, ParamKind.signs, isPlain]
    | _ => simp [Node.parts, ParamKind.signs, isPlain]
  | paramSet p =>
    refine .inr (.inr ?_)
    cases hk : p.kind <;> simp [Node.parts, ParamSet.signs, hk, mem_partsIn, isPlain]
  | block b =>
    refine .inr (.inr (List.all_eq_true.2 fun y hy => ?_))
    obtain ⟨st, -, rfl⟩ := List.mem_map.1 hy
    cases st <;> rfl
  | constructor c =>
    refine .inr (.inr ?_)
    cases hk : c.kind <;> simp [Node.parts, hk, isPlain]
  | path p => exact .inr (.inr (by simp +contextual [Node.parts, Path.signs, mem_partsIn, isPlain]))
  | _ => exact .inr (.inr (by simp [Node.parts, isPlain]))

/-- Parameter lists are parts of expressions and declarations. -/
theorem Node.paramSet_mem_parts {a : Arena} {x : Node} {params : ParamSet}
    (h : .paramSet params ∈ x.parts a) :
    (∃ id e, x = .expr id ∧ a.expr? id = some e ∧ .paramSet params ∈ partsIn e.kind.signs) ∨
      ∃ d, x = .decl d ∧ .paramSet params ∈ partsIn d.kind.signs := by
  obtain ⟨id, rfl⟩ | ⟨d, rfl⟩ | hplain := Node.isPlain_of_mem_parts h
  · cases he : a.expr? id with
    | none => simp [Node.parts, he] at h
    | some e => exact .inl ⟨id, e, rfl, he, by simpa [Node.parts, he] using h⟩
  · exact .inr ⟨d, rfl, by simpa [Node.parts] using h⟩
  · cases hplain

/-- Nothing has a declaration as a part. -/
theorem Node.decl_not_mem_parts {a : Arena} {x : Node} {d : Decl} : .decl d ∉ x.parts a := by
  intro h
  obtain ⟨id, rfl⟩ | ⟨d, rfl⟩ | hplain := Node.isPlain_of_mem_parts h
  · cases he : a.expr? id with
    | none => simp [Node.parts, he] at h
    | some e =>
      obtain ⟨kind, span⟩ := e
      cases kind with
      | app callee args braces =>
        cases braces <;> simp [Node.parts, he, ExprKind.signs, mem_partsIn] at h
      | cond test thenBranch elseBranch position =>
        cases elseBranch <;> simp [Node.parts, he, ExprKind.signs] at h
      | _ => simp [Node.parts, he, ExprKind.signs, mem_partsIn] at h
  · cases hk : d.kind with
    | inductiveType name lists type constructors =>
      cases type <;> simp [Node.parts, hk, DeclKind.signs, typing, mem_partsIn] at h
    | signature name lists type body =>
      cases type <;> cases body <;> simp [Node.parts, hk, DeclKind.signs, typing, mem_partsIn] at h
    | clause name patterns value =>
      cases value <;> simp [Node.parts, hk, DeclKind.signs, mem_partsIn] at h
    | _ => simp [Node.parts, hk, DeclKind.signs, mem_partsIn] at h
  · cases hplain

/-- **Parameter lists hold parameters.**  Whatever a parse gives, strict or lenient, every parameter
list that its module leads to holds a parameter, unless it is written as a pair of brackets with nothing
but line breaks between them.  A domain is never empty, and neither is a list in parentheses that an
arrow follows. -/
theorem parse_paramSets {names names' : Interner} {recovery : Recovery} {output : ParseOutput}
    (h : parse tokens names recovery = (.ok output, names')) :
    (∀ params, output.Reaches (.paramSet params) →
        params.params ≠ [] ∨ params.kind ≠ .domain ∧ tokens.Vacant params) ∧
      ∀ id params result span, output.arena.expr? id = some ⟨.pi params result, span⟩ →
        params.kind = .explicit → params.params ≠ [] := by
  obtain ⟨hexprs, hdecls⟩ := parse_binds h
  have bound : ∀ id e, output.arena.expr? id = some e → e.kind.Bound tokens :=
    fun id e he => hexprs e (Array.mem_of_getElem? he)
  constructor
  · intro params hp
    suffices hbinds : tokens.Binds params by
      by_cases hempty : params.params = []
      · exact .inr (hbinds.vacant hempty)
      · exact .inl hempty
    cases hp with
    | @part x _ hx hpart =>
      rcases Node.paramSet_mem_parts hpart with ⟨id, e, rfl, he, hmem⟩ | ⟨d, rfl, hmem⟩
      · exact (bound id e he).part hmem
      · cases hx with
        | decl hd => exact hdecls d hd params (DeclKind.paramSet_mem_parts.1 hmem)
        | part _ hd => exact absurd hd Node.decl_not_mem_parts
  · intro id params result span he
    exact (bound id _ he).2

/-- A declaration with an empty list, and types with a list and with domains, one after an error. -/
theorem params_of_declarations :
    ∃ output names',
      parseSource "f ( \n) : (x : A) -> [y] => C\nh = )\nk : A -> B" .new .lenient =
        (.ok output, names') ∧
      output.module.decls.length = 2 ∧ output.errors.length = 1 ∧
      ∃ tokens names₁,
        lex "f ( \n) : (x : A) -> [y] => C\nh = )\nk : A -> B" .new = (.ok tokens, names₁) ∧
        (∀ params, output.Reaches (.paramSet params) →
          params.params ≠ [] ∨ params.kind ≠ .domain ∧ tokens.Vacant params) ∧
        ∀ id params result span, output.arena.expr? id = some ⟨.pi params result, span⟩ →
          params.kind = .explicit → params.params ≠ [] := by
  have found : (parseSource "f ( \n) : (x : A) -> [y] => C\nh = )\nk : A -> B" .new
      .lenient).1.toOption.map (fun o => (o.module.decls.length, o.errors.length)) = some (2, 1) := by
    decide +kernel
  cases hsource : parseSource "f ( \n) : (x : A) -> [y] => C\nh = )\nk : A -> B" .new .lenient with
  | mk result names' =>
    rw [hsource] at found
    cases result with
    | error e => cases found
    | ok output =>
      have hlengths := Prod.mk.inj (Option.some.inj found)
      obtain ⟨tokens, names₁, hlex, hparse⟩ := exists_lexed hsource
      exact ⟨output, names', rfl, hlengths.1, hlengths.2, tokens, names₁, hlex, parse_paramSets hparse⟩

/-- Empty brackets after a declared name are a parameter list without parameters. -/
theorem empty_params_reached :
    ∃ tokens names output names', lex "f ()" .new = (.ok tokens, names) ∧ tokens.EndsInEof ∧
      parse tokens names .strict = (.ok output, names') ∧
      ∃ params, output.Reaches (.paramSet params) ∧ params.params = [] := by
  have found : (parseSource "f ()" .new .strict).1.toOption.map
      (fun o => o.module.decls.flatMap fun d => d.kind.paramSets.map ParamSet.params) = some [[]] := by
    decide +kernel
  cases hsource : parseSource "f ()" .new .strict with
  | mk result names' =>
    rw [hsource] at found
    cases result with
    | error e => cases found
    | ok output =>
      obtain ⟨tokens, names, hlex, hparse⟩ := exists_lexed hsource
      refine ⟨tokens, names, output, names', hlex, endsInEof_of_lex hlex, hparse, ?_⟩
      have hlists : (output.module.decls.flatMap fun d => d.kind.paramSets.map ParamSet.params) = [[]] :=
        Option.some.inj found
      have hmem : [] ∈ output.module.decls.flatMap fun d => d.kind.paramSets.map ParamSet.params :=
        hlists ▸ List.mem_singleton_self _
      obtain ⟨d, hd, hmem⟩ := List.mem_flatMap.1 hmem
      obtain ⟨params, hparams, hnil⟩ := List.mem_map.1 hmem
      have hpart : .paramSet params ∈ (Node.decl d).parts output.arena :=
        List.mem_append_right _ (DeclKind.paramSet_mem_parts.2 hparams)
      exact ⟨params, .part (.decl hd) hpart, hnil⟩

end SolSyntax
